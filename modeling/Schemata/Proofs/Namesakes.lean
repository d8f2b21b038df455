import Mathlib.Data.List.Pairwise
import Schemata.Proofs.Fields

/-! Fields of one name in one type.

The fields of a type are its own and those of each record behind it, every record once. A
compound object does not use a name again that comes from its bases, so two records have no
name in common if one of them is behind the other. But nobody compares the bases of an
object with each other: two of them may have fields of one name, and then the type has
both. -/
namespace Schemata

/-! ### Records behind a type -/

theorem TypeInfoArena.nodup_ownFieldNames (arena : TypeInfoArena) (place : TypeInfoId) :
    (arena.ownFieldNames place).Nodup := by
  unfold ownFieldNames
  split
  · next record _ => exact record.fields.nodup_keys
  · exact List.nodup_nil

namespace TypeInfoTable

variable {table : TypeInfoTable} {place p q : TypeInfoId} {arity : Arity} {record : ClassShape}
  {name : String} {names : List String}

theorem mem_ownFieldNames_iff : name ∈ table.toArena.ownFieldNames place ↔
    ∃ arity record, table.get? place = some ⟨arity, .record record⟩ ∧
      name ∈ record.fields.keys := by
  rw [TypeInfoArena.mem_ownFieldNames_iff, table.get?_toArena]

/-- One record is a base of another one, where refs stand for what they lead to. -/
def BaseOf (table : TypeInfoTable) (p q : TypeInfoId) : Prop := q ∈ table.toArena.basePlaces p

theorem baseOf_iff : table.BaseOf p q ↔ ∃ arity record b,
    table.get? p = some ⟨arity, .record record⟩ ∧ b ∈ record.bases ∧ table.resolve b = q := by
  simp only [← table.get?_toArena, table.resolve_eq]
  refine ⟨TypeInfoArena.exists_of_mem_basePlaces, fun ⟨arity, record, b, hget, hb, hq⟩ => ?_⟩
  unfold BaseOf TypeInfoArena.basePlaces
  rw [TypeInfoArena.record?_eq_some_iff.2 ⟨arity, hget⟩]
  exact List.mem_reverse.2 (List.mem_map.2 ⟨b, hb, hq⟩)

theorem refAt_of_record (h : table.get? place = some ⟨arity, .record record⟩) :
    table.refAt place = none := by
  unfold refAt
  rw [h]
  rfl

/-- A ref that leads on to a record leads to the record that its target does. -/
theorem resolve_of_refAt (hpq : table.refAt p = some q)
    (h : table.get? (table.resolve q) = some ⟨arity, .record record⟩) :
    table.resolve p = table.resolve q := by
  have hend : table.RefsEnd q (table.resolve q) := ⟨table.path_resolve q, refAt_of_record h⟩
  rw [table.resolve_eq p, TypeInfoArena.resolve_eq_of_ends (hend.head hpq).ends]

/-- The bases of bases are behind a type. -/
theorem behind_of_bases (h : Relation.ReflTransGen table.BaseOf p q) : table.Behind p q := by
  induction h with
  | refl => exact .refl
  | tail _ hbase ih =>
    obtain ⟨arity, record, b, hget, hb, rfl⟩ := baseOf_iff.1 hbase
    exact (ih.tail ⟨_, hget, hb⟩).trans (table.behind_resolve b)

/-- A record behind a type is one of the bases of bases of what the type is resolved to, which is a
record as well. -/
theorem bases_of_behind (h : table.Behind p q)
    (hq : table.get? q = some ⟨arity, .record record⟩) :
    Relation.ReflTransGen table.BaseOf (table.resolve p) q ∧
      ∃ arity record, table.get? (table.resolve p) = some ⟨arity, .record record⟩ := by
  induction h using Relation.ReflTransGen.head_induction_on with
  | refl =>
    rw [resolve_eq_self (refAt_of_record hq)]
    exact ⟨.refl, arity, record, hq⟩
  | @head p p' hstep _ ih =>
    obtain ⟨hpath, arity', record', hget'⟩ := ih
    obtain ⟨⟨arity₀, shape⟩, hget, hmem⟩ := hstep
    cases shape with
    | ref target =>
      obtain rfl := List.mem_singleton.1 hmem
      have href : table.refAt p = some p' := by
        unfold refAt
        rw [hget]
        rfl
      rw [resolve_of_refAt href hget']
      exact ⟨hpath, arity', record', hget'⟩
    | record c =>
      rw [resolve_eq_self (refAt_of_record hget)]
      exact ⟨.head (baseOf_iff.2 ⟨arity₀, c, p', hget, hmem, rfl⟩) hpath, arity₀, c, hget⟩
    | _ => cases hmem

/-- Types name no places but those of the table. -/
def Closed (table : TypeInfoTable) : Prop :=
  ∀ place info, table.get? place = some info → ∀ q ∈ info.shape.mentioned, q ∈ table.ids

theorem mem_ids_of_get? {info : TypeInfo} (h : table.get? place = some info) :
    place ∈ table.ids := by
  obtain ⟨hlt, _⟩ := Array.getElem?_eq_some_iff.1 h
  exact (table.mem_ids place).2 hlt

theorem Closed.resolve (h : table.Closed) (hp : p ∈ table.ids) : table.resolve p ∈ table.ids := by
  refine (table.path_resolve p).rec hp fun {_ _} _ href _ => ?_
  obtain ⟨⟨arity, shape⟩, hget, hshape⟩ := Option.bind_eq_some_iff.1 href
  cases shape with
  | ref target =>
    cases hshape
    exact h _ _ hget _ (List.mem_singleton_self _)
  | _ => cases hshape

/-- The search for fields comes to all bases of bases. -/
theorem Closed.mem_reach_iff (h : table.Closed) (hp : p ∈ table.ids) :
    q ∈ Search.reach table.toArena.basePlaces (table.toArena.size + 1) [p] ↔
      Relation.ReflTransGen table.BaseOf p q := by
  have hsize : table.ids.length ≤ table.toArena.size + 1 := by
    simp [ids, size, toArena, TypeInfoArena.size]
  have hbases : Search.Closed table.toArena.basePlaces table.ids := fun p _ q hq => by
    obtain ⟨arity, record, b, hget, hb, rfl⟩ := baseOf_iff.1 hq
    exact h.resolve (h p _ hget b (List.mem_append_left _ hb))
  rw [Search.mem_reach_iff hbases hsize fun x hx => List.mem_singleton.1 hx ▸ hp]
  constructor
  · rintro ⟨x, hx, hpath⟩
    exact List.mem_singleton.1 hx ▸ hpath
  · exact fun hpath => ⟨p, List.mem_singleton_self p, hpath⟩

/-- The fields of a type are those of the record that it is resolved to and of its bases of bases,
each of these once. -/
theorem Closed.exists_records (h : table.Closed) (hnames : table.fieldNames place = some names) :
    ∃ records : List TypeInfoId, names = records.flatMap table.toArena.ownFieldNames ∧
      records.Nodup ∧
      ∀ q, q ∈ records ↔ Relation.ReflTransGen table.BaseOf (table.resolve place) q := by
  unfold fieldNames TypeInfoArena.fieldNames at hnames
  dsimp only at hnames
  rw [← table.resolve_eq] at hnames
  split at hnames
  · next hrecord =>
    obtain ⟨record, hrecord⟩ := Option.isSome_iff_exists.1 hrecord
    obtain ⟨arity, hget⟩ := TypeInfoArena.record?_eq_some_iff.1 hrecord
    have hstart := mem_ids_of_get? ((table.get?_toArena _).symm.trans hget)
    cases hnames
    exact ⟨_, rfl, Search.nodup_reach _ _ _, fun q => h.mem_reach_iff hstart⟩
  · cases hnames

/-- No name is twice among the fields of a type just in case no two records behind it have a name
in common. -/
theorem Closed.nodup_fieldNames_iff (h : table.Closed)
    (hnames : table.fieldNames place = some names) :
    names.Nodup ↔ ∀ p q, table.Behind place p → table.Behind place q → p ≠ q →
      ∀ name ∈ table.toArena.ownFieldNames p, name ∉ table.toArena.ownFieldNames q := by
  obtain ⟨records, rfl, hnodup, hrecords⟩ := h.exists_records hnames
  rw [List.nodup_flatMap]
  constructor
  · rintro ⟨_, hdisjoint⟩ p q hp hq hne name hnp hnq
    -- what has a field is a record, so it is listed
    have hlisted : ∀ p, table.Behind place p → name ∈ table.toArena.ownFieldNames p →
        p ∈ records := fun p hp hmem => by
      obtain ⟨arity, record, hget, _⟩ := mem_ownFieldNames_iff.1 hmem
      exact (hrecords p).2 (bases_of_behind hp hget).1
    have : Std.Symm (Function.onFun List.Disjoint table.toArena.ownFieldNames) :=
      ⟨fun _ _ hdisjoint _ hp hq => hdisjoint hq hp⟩
    exact hdisjoint.forall (hlisted p hp hnp) (hlisted q hq hnq) hne hnp hnq
  · intro hdisjoint
    have hbehind : ∀ p ∈ records, table.Behind place p := fun p hp =>
      (table.behind_resolve place).trans (behind_of_bases ((hrecords p).1 hp))
    exact ⟨fun p _ => TypeInfoArena.nodup_ownFieldNames _ p,
      hnodup.pairwise_of_forall_ne fun p hp q hq hne name =>
        hdisjoint p q (hbehind p hp) (hbehind q hq) hne name⟩

theorem exists_fieldNames (h : table.get? place = some ⟨arity, .record record⟩) :
    ∃ names, table.fieldNames place = some names := by
  have hrecord : (table.toArena.record? place).isSome := by
    rw [TypeInfoArena.record?_eq_some_iff.2 ⟨arity, (table.get?_toArena place).trans h⟩]
    rfl
  unfold fieldNames TypeInfoArena.fieldNames
  dsimp only
  rw [← table.resolve_eq, resolve_eq_self (refAt_of_record h), if_pos hrecord]
  exact ⟨_, rfl⟩

/-- Two records behind a type, neither of them behind the other, have fields of one name. -/
def HasNamesakes (table : TypeInfoTable) (place : TypeInfoId) : Prop :=
  ∃ p q, table.Behind place p ∧ table.Behind place q ∧ ¬table.Behind p q ∧ ¬table.Behind q p ∧
    ∃ name ∈ table.toArena.ownFieldNames p, name ∈ table.toArena.ownFieldNames q

end TypeInfoTable

/-! ### Compound objects -/

namespace ItemTree

variable {t a : ItemTree} {plugin : Plugin} {options : Options} {P : ItemId → Prop}
  {d d' : Draft} {c : Compiled} {e : ElementId} {q : TypeInfoId} {name : String}

/-- No two parts of an object have one name, nor do a part and a base. -/
def NamesApart (t : ItemTree) (x : ItemId) : Prop :=
  (t.heldNames x).Nodup ∧ ∀ name ∈ t.heldNames x, name ∉ t.inheritedNames x

namespace BuiltBy

variable (h : a.BuiltBy plugin P d d' c) (hr : a.Resolved) (hs : a.Separated)
  (hapart : ∀ x, (a.item x).kind = some .compound → a.NamesApart x)
include h hr

include hapart in
/-- The name of a field of a compound object is that of a part of its item. -/
theorem mem_heldNames_of_field (he : e ∈ c.graph.ids) (hk : (c.graph.element e).kind = .compound)
    (hname : name ∈ c.graph.typeInfos.toArena.ownFieldNames (c.graph.element e).typeInfo) :
    name ∈ a.heldNames (d.itemOf e) := by
  obtain ⟨hnodup, _⟩ := hapart _ (hk ▸ h.kind_item he)
  obtain ⟨arity, record, hget, _, _, hheld⟩ :=
    h.record_of_compound hr.wellFormed he hk hnodup
  obtain ⟨arity', record', hget', hmem⟩ := TypeInfoTable.mem_ownFieldNames_iff.1 hname
  rw [hget] at hget'
  cases hget'
  exact hheld name hmem

include hs in
/-- A record behind the type of a compound object is the type of a compound object. -/
theorem compound_of_behind (he : e ∈ c.graph.ids) (hk : (c.graph.element e).kind = .compound)
    (hbehind : c.graph.typeInfos.Behind (c.graph.element e).typeInfo q)
    (hname : name ∈ c.graph.typeInfos.toArena.ownFieldNames q) :
    ∃ x ∈ c.graph.ids, (c.graph.element x).typeInfo = q ∧
      (c.graph.element x).kind = .compound ∧ a.Path (d.itemOf e) (d.itemOf x) := by
  obtain ⟨x, hx, rfl, hpath, hsimple⟩ := h.path_of_behind hr hs he hk hbehind
  obtain ⟨arity, record, hget, _⟩ := TypeInfoTable.mem_ownFieldNames_iff.1 hname
  exact ⟨x, hx, rfl, h.kind_of_record hx hget hsimple, hpath⟩

include hs hapart in
/-- A compound object has no field of a record behind its type. -/
theorem not_mem_of_behind (he : e ∈ c.graph.ids) (hk : (c.graph.element e).kind = .compound)
    (hbehind : c.graph.typeInfos.Behind (c.graph.element e).typeInfo q)
    (hne : (c.graph.element e).typeInfo ≠ q)
    (hname : name ∈ c.graph.typeInfos.toArena.ownFieldNames (c.graph.element e).typeInfo) :
    name ∉ c.graph.typeInfos.toArena.ownFieldNames q := by
  intro hmem
  obtain ⟨x, hx, rfl, hkx, hpath⟩ := h.compound_of_behind hr hs he hk hbehind hmem
  have hform : ∀ y ∈ c.graph.ids, (c.graph.element y).kind = .compound →
      (a.item (d.itemOf y)).form = .object := fun y hy hky =>
    (hr.wellFormed.regular.items _).suits .compound (hky ▸ h.kind_item hy)
  have hitems : d.itemOf x ≠ d.itemOf e := fun hi => hne (by
    have hplace := h.place_eq hx
    rw [hi, h.place_eq he] at hplace
    exact Option.some.inj hplace)
  obtain ⟨_, hfresh⟩ := hapart _ (hk ▸ h.kind_item he)
  exact hfresh name (h.mem_heldNames_of_field hr hapart he hk hname)
    (hr.wellFormed.regular.inheritedNames_of_path (hform e he hk) (hform x hx hkx) hpath hitems
      (h.mem_heldNames_of_field hr hapart hx hkx hmem))

include hs hapart in
/-- So a name is twice among the fields of a compound object just in case there are namesakes. -/
theorem nodup_fieldNames_iff (he : e ∈ c.graph.ids) (hk : (c.graph.element e).kind = .compound)
    {names : List String}
    (hnames : c.graph.typeInfos.fieldNames (c.graph.element e).typeInfo = some names) :
    names.Nodup ↔ ¬c.graph.typeInfos.HasNamesakes (c.graph.element e).typeInfo := by
  rw [TypeInfoTable.Closed.nodup_fieldNames_iff h.closed.types hnames]
  constructor
  · rintro hdisjoint ⟨p, q, hp, hq, hpq, _, name, hnp, hnq⟩
    exact hdisjoint p q hp hq (fun he => hpq (he ▸ .refl)) name hnp hnq
  · intro hnone p q hp hq hne name hnp hnq
    obtain ⟨x, hx, rfl, hkx, _⟩ := h.compound_of_behind hr hs he hk hp hnp
    obtain ⟨y, hy, rfl, hky, _⟩ := h.compound_of_behind hr hs he hk hq hnq
    apply hnone
    refine ⟨_, _, hp, hq, fun hxy => ?_, fun hyx => ?_, name, hnp, hnq⟩
    · exact h.not_mem_of_behind hr hs hapart hx hkx hxy hne hnp hnq
    · exact h.not_mem_of_behind hr hs hapart hy hky hyx hne.symm hnq hnp

end BuiltBy

/-! ### All together -/

/-- **Namesakes.** Unless the plugin brings an attribute of its own for the name, every compound
element of a compiled graph has a type with fields, and no name is twice among them, its own and
those of each record behind it, just in case no two of these records have fields of one name without
one of them being behind the other. -/
theorem compile_namesakes (h : t.Reachable) (hplugin : plugin.LeavesName)
    (hok : t.compile plugin options = .ok c) :
    ∀ e ∈ c.graph.ids, (c.graph.element e).kind = .compound →
      ∃ names, c.graph.typeInfos.fieldNames (c.graph.element e).typeInfo = some names ∧
        (names.Nodup ↔ ¬c.graph.typeInfos.HasNamesakes (c.graph.element e).typeInfo) := by
  obtain ⟨a, d, d', hc, hadmitted, _, hbuilt⟩ := compile_built h hok
  obtain ⟨r, hr, ha, _⟩ := compileTree_stages hc
  obtain ⟨_, hresolved⟩ := resolve_ok h.wellFormed hr
  have hretyped := retyped_admitAll ha
  have hseparated : a.Separated := ((h.of_resolve hr).alike hretyped.alike).separated
  have hapart : ∀ x, (a.item x).kind = some .compound → a.NamesApart x := fun x hk => by
    rw [hretyped.field Item.kind fun _ _ _ => rfl] at hk
    exact scopes_of_admitAll hresolved (namesByText_resolve h.wellFormed hplugin hr) ha
      (lt_size_of_kind hk)
      (Blueprint.not_extension_of_form ((hresolved.wellFormed.regular.items x).suits _ hk)
        (by simp))
  intro e he hk
  obtain ⟨bases, fields, _, _, hget⟩ := hbuilt.type_of_compound he hk
  obtain ⟨names, hnames⟩ := TypeInfoTable.exists_fieldNames hget
  exact ⟨names, hnames,
    hbuilt.nodup_fieldNames_iff hadmitted.resolved hseparated hapart he hk hnames⟩

/-- Two objects with a field of one name, an object that has both of them for bases, and one that
has the first. -/
def twoOrigins : ItemTree :=
  ((((((ofSource "").push root (Item.object (some "first"))).push ⟨1⟩
    (Item.declaration (some "label") "int")).push root (Item.object (some "second"))).push ⟨3⟩
    (Item.declaration (some "label") "string")).push root
    (((Item.object (some "both")).withBase "first").withBase "second")).push root
    ((Item.object (some "single")).withBase "first")

/-- The object with both bases has the field twice, the other one has it once. -/
theorem twoOrigins_namesakes : twoOrigins.Reachable ∧
    ({ name := "any", capabilities := .allElements } : Plugin).LeavesName ∧
    ∃ c, twoOrigins.compile { name := "any", capabilities := .allElements } {} = .ok c ∧
      c.graph.typeInfos.fieldNames (c.graph.element ⟨5⟩).typeInfo = some ["label", "label"] ∧
      c.graph.typeInfos.HasNamesakes (c.graph.element ⟨5⟩).typeInfo ∧
      c.graph.typeInfos.fieldNames (c.graph.element ⟨6⟩).typeInfo = some ["label"] ∧
      ¬c.graph.typeInfos.HasNamesakes (c.graph.element ⟨6⟩).typeInfo := by
  have hreachable : twoOrigins.Reachable :=
    ((((((Reachable.source "").push (p := root) (by decide)
      (Item.Declared.object (some "first"))).push (p := ⟨1⟩) (by decide)
      (Item.Declared.declaration (some "label") "int")).push (p := root) (by decide)
      (Item.Declared.object (some "second"))).push (p := ⟨3⟩) (by decide)
      (Item.Declared.declaration (some "label") "string")).push (p := root) (by decide)
      (((Item.Declared.object (some "both")).withBase "first").withBase "second")).push
      (p := root) (by decide) ((Item.Declared.object (some "single")).withBase "first")
  have hplugin : ({ name := "any", capabilities := .allElements } : Plugin).LeavesName :=
    fun _ a ha => by cases ha
  have hfacts : (twoOrigins.compile { name := "any", capabilities := .allElements }
      {}).toOption.map (fun c => ((c.graph.size, (c.graph.element ⟨5⟩).kind,
        (c.graph.element ⟨6⟩).kind),
        c.graph.typeInfos.fieldNames (c.graph.element ⟨5⟩).typeInfo,
        c.graph.typeInfos.fieldNames (c.graph.element ⟨6⟩).typeInfo)) =
      some ((7, .compound, .compound), some ["label", "label"], some ["label"]) := by
    decide +kernel
  obtain ⟨c, hok, hfacts⟩ := Option.map_eq_some_iff.1 hfacts
  simp only [Prod.mk.injEq] at hfacts
  obtain ⟨⟨hsize, hboth, hsingle⟩, hfields, hfields'⟩ := hfacts
  have hok := eq_ok_of_toOption hok
  obtain ⟨_, hnames, htwice⟩ := compile_namesakes hreachable hplugin hok ⟨5⟩
    (by simp [Graph.ids, hsize]) hboth
  obtain ⟨_, hnames', honce⟩ := compile_namesakes hreachable hplugin hok ⟨6⟩
    (by simp [Graph.ids, hsize]) hsingle
  rw [hfields] at hnames
  rw [hfields'] at hnames'
  cases hnames
  cases hnames'
  exact ⟨hreachable, hplugin, c, hok, hfields, not_not.1 (mt htwice.2 (by decide)), hfields',
    honce.1 (by decide)⟩

end ItemTree
end Schemata
