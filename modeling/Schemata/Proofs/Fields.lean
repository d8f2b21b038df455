import Schemata.Proofs.Scopes
import Schemata.Proofs.Shapes
import Schemata.Proofs.Tree.Arities
import Schemata.Proofs.Tree.Constraints

/-! Texts that name fields.

What stands under `key` and `value` on a collection is checked while some types are not
what they will be: the fields of values have no names yet, and alternatives are still
nested. But the search for fields meets records only, the same ones in the finished
graph, at the same places. Only where the type is that of a simple object a name can be
gone in the end. -/
namespace Schemata

/-! ### What it means to name a field -/

/-- The place is resolved to a record, and there is a field of this name in it or in a record
behind it. -/
def TypeInfoTable.HasField (table : TypeInfoTable) (place : TypeInfoId) (name : String) : Prop :=
  ∃ arity record, table.get? (table.resolve place) = some ⟨arity, .record record⟩ ∧
    ∃ q arity' other, table.Behind (table.resolve place) q ∧
      table.get? q = some ⟨arity', .record other⟩ ∧ name ∈ other.fields.keys

/-- The place is resolved to the type of a simple object, the value of which is not under the name
any more that it was kept under at first. -/
def Graph.RenamesValue (g : Graph) (place : TypeInfoId) : Prop :=
  ∃ s ∈ g.ids, g.typeInfos.resolve place = (g.element s).typeInfo ∧ ∃ attributes name,
    (g.element s).data = .simple attributes name ∧ name ≠ Blueprint.valuePlaceholder

theorem Value.eq_text_of_asText? {v : Value} {s : String} (h : v.asText? = some s) :
    v = .text s := by
  cases v with
  | text s' => exact congrArg Value.text (Option.some.inj h)
  | _ => cases h

/-! ### Looking for fields -/

/-- What refs lead to is behind the type. -/
theorem TypeInfoTable.behind_resolve (table : TypeInfoTable) (p : TypeInfoId) :
    table.Behind p (table.resolve p) := by
  refine Relation.ReflTransGen.mono (fun p q hpq => ?_) _ _ (table.path_resolve p)
  obtain ⟨⟨arity, shape⟩, hget, hshape⟩ := Option.bind_eq_some_iff.1 hpq
  refine ⟨_, hget, ?_⟩
  cases shape with
  | ref target =>
    cases hshape
    exact List.mem_singleton_self q
  | _ => cases hshape

namespace TypeInfoArena

variable {arena : TypeInfoArena} {place p q : TypeInfoId} {names : List String} {name : String}

theorem record?_eq_some_iff {c : ClassShape} :
    arena.record? p = some c ↔ ∃ arity, arena.get? p = some ⟨arity, .record c⟩ := by
  unfold record?
  split
  · next arity c' hget => simp [hget]
  · next hnot =>
    refine iff_of_false (by simp) fun ⟨arity, hget⟩ => hnot arity c hget

theorem mem_ownFieldNames_iff : name ∈ arena.ownFieldNames place ↔
    ∃ arity record, arena.get? place = some ⟨arity, .record record⟩ ∧
      name ∈ record.fields.keys := by
  unfold ownFieldNames
  cases hrecord : arena.record? place with
  | some record =>
    obtain ⟨arity, hget⟩ := record?_eq_some_iff.1 hrecord
    simp [hget]
  | none =>
    refine iff_of_false List.not_mem_nil fun ⟨arity, record, hget, _⟩ => ?_
    rw [record?_eq_some_iff.2 ⟨arity, hget⟩] at hrecord
    cases hrecord

/-- The base of a record leads to one of its base places. -/
theorem exists_of_mem_basePlaces (h : q ∈ arena.basePlaces p) : ∃ arity c b,
    arena.get? p = some ⟨arity, .record c⟩ ∧ b ∈ c.bases ∧ arena.resolve b = q := by
  unfold basePlaces at h
  split at h
  · next c hc =>
    obtain ⟨arity, hget⟩ := record?_eq_some_iff.1 hc
    obtain ⟨b, hb, rfl⟩ := List.mem_map.1 (List.mem_reverse.1 h)
    exact ⟨arity, c, b, hget, hb, rfl⟩
  · cases h

/-- The names of the fields of a place are those of fields of records that bases lead to from what
the place is resolved to, which is a record. -/
theorem exists_of_mem_fieldNames (h : arena.fieldNames place = some names) (hname : name ∈ names) :
    (∃ arity c, arena.get? (arena.resolve place) = some ⟨arity, .record c⟩) ∧
      ∃ q arity c, Relation.ReflTransGen (fun p q => q ∈ arena.basePlaces p)
          (arena.resolve place) q ∧
        arena.get? q = some ⟨arity, .record c⟩ ∧ name ∈ c.fields.keys := by
  unfold fieldNames at h
  dsimp only at h
  split at h
  · next hrecord =>
    cases h
    obtain ⟨c, hc⟩ := Option.isSome_iff_exists.1 hrecord
    obtain ⟨arity, hget⟩ := record?_eq_some_iff.1 hc
    refine ⟨⟨arity, c, hget⟩, ?_⟩
    obtain ⟨q, hq, hown⟩ := List.mem_flatMap.1 hname
    obtain ⟨start, hstart, hpath⟩ := Search.reach_sound _ _ hq
    obtain rfl := List.mem_singleton.1 hstart
    obtain ⟨arity', other, hget', hmem⟩ := mem_ownFieldNames_iff.1 hown
    exact ⟨q, arity', other, hpath, hget', hmem⟩
  · cases h

end TypeInfoArena

namespace Draft

variable {d : Draft} {fields : OrderedMap String TypeInfoId} {name valueName : String}

/-- A field keeps its name unless it is that of a value, and gets another one. -/
theorem mem_keys_renameValue (hname : name ∈ fields.keys)
    (hvalue : name = Blueprint.valuePlaceholder → valueName = Blueprint.valuePlaceholder) :
    name ∈ (renameValue valueName fields).keys := by
  unfold renameValue
  rw [OrderedMap.mem_keys_ofList, map_fst_rename]
  refine List.mem_map.2 ⟨name, hname, ?_⟩
  split
  · next he => rw [hvalue he, he]
  · rfl

/-- A text that passes the check of its attribute is the name of a field. -/
theorem mem_fieldNames_of_checkEntry {i : Item} {id : ElementId} {key : String}
    (h : d.checkEntry i id (key, .text name) = .ok ())
    (hcheck : (i.schema.find? key).bind Attribute.elementCheck = some .namesField) :
    ∃ names, (d.contextOf id).fieldNames = some names ∧ name ∈ names := by
  unfold checkEntry at h
  dsimp only at h
  rw [hcheck] at h
  dsimp only [ElementCheck.run, Value.asText?] at h
  cases hfields : (d.contextOf id).fieldNames with
  | none =>
    rw [hfields] at h
    cases h
  | some names =>
    rw [hfields] at h
    dsimp only at h
    by_cases hmem : name ∈ names
    · exact ⟨names, rfl, hmem⟩
    · rw [if_neg hmem] at h
      cases h

end Draft

namespace ItemTree

open Draft

variable {t r a : ItemTree} {plugin : Plugin} {options : Options} {P : ItemId → Prop}
  {c : Compiled} {d d' : Draft} {id e : ElementId} {q : TypeInfoId}
  {key name : String} {names : List String}

/-! ### Collections -/

/-- A collection has the attributes that name fields. -/
theorem elementCheck_of_collection (h : t.WellFormed) (hr : t.resolve plugin options = .ok r)
    (hx : hasSchema (r.item x)) (hcollection : ((r.item x).arity.getD .one).isCollection)
    (hkey : key = "key" ∨ key = "value") :
    ((r.item x).schema.find? key).bind Attribute.elementCheck = some .namesField := by
  have hattribute : ∃ b ∈ collectionAttributes, b.name = key ∧
      b.elementCheck = some .namesField := by
    rcases hkey with rfl | rfl
    · exact ⟨_, .tail _ (.head _), rfl, rfl⟩
    · exact ⟨_, .tail _ (.tail _ (.head _)), rfl, rfl⟩
  obtain ⟨b, hb, rfl, hcheck⟩ := hattribute
  rw [find?_arityAttribute h hr hx (by rwa [arityAttributes, if_pos hcollection])]
  exact hcheck

namespace BuiltBy

/-! ### Types before and after -/

/-- In the draft and in the graph a type is resolved to the type of the same element. -/
theorem resolve_eq_draft (h : a.BuiltBy plugin P d d' c) (hid : id ∈ c.graph.ids) :
    ∃ f ∈ c.graph.ids,
      d.typeInfos.resolve (c.graph.element id).typeInfo = (c.graph.element f).typeInfo ∧
      c.graph.typeInfos.resolve (c.graph.element id).typeInfo = (c.graph.element f).typeInfo := by
  -- the refs of an element lead to an element, and nothing has changed them
  have hfrom : ∀ left, ∀ id ∈ c.graph.ids, ∃ f ∈ c.graph.ids,
      d.typeInfos.resolveFrom left (c.graph.element id).typeInfo = (c.graph.element f).typeInfo ∧
      c.graph.typeInfos.toArena.resolveFrom left (c.graph.element id).typeInfo =
        (c.graph.element f).typeInfo := by
    intro left
    induction left with
    | zero => exact fun id hid => ⟨id, hid, rfl, rfl⟩
    | succ left ih =>
      intro id hid
      unfold TypeInfoArena.resolveFrom
      rw [TypeInfoTable.refAt_toArena, ← h.refAt_eq hid]
      rcases h.refAt_cases hid with ⟨y, place, _, hplace, href⟩ | ⟨_, href⟩
      · obtain ⟨f, hf, _, _, rfl⟩ := h.exists_of_place hplace
        rw [href]
        exact ih f hf
      · rw [href]
        exact ⟨id, hid, rfl, rfl⟩
  have hsize : c.graph.typeInfos.toArena.size = d.typeInfos.size := by
    rw [← h.completed.kept.typeInfos, ← h.closes.typeInfos]
    simp [TypeInfoArena.size, TypeInfoTable.toArena, TypeInfoTable.size]
  rw [TypeInfoTable.resolve_eq]
  unfold TypeInfoArena.resolve
  rw [hsize]
  exact hfrom _ id hid

/-- But for that of a simple object, a record is the one that was built. -/
theorem record_of_draft_of_ne (h : a.BuiltBy plugin P d d' c) (he : e ∈ c.graph.ids)
    (hk : (c.graph.element e).kind ≠ .simple) {arity : Arity} {record : ClassShape}
    (hget : d.typeInfos.get? (c.graph.element e).typeInfo = some ⟨arity, .record record⟩) :
    c.graph.typeInfos.get? (c.graph.element e).typeInfo = some ⟨arity, .record record⟩ := by
  rw [h.record_of_draft he hget, if_neg fun hc => hk hc.2]

/-- The type of a simple object has no bases. -/
theorem basePlaces_of_simple (h : a.BuiltBy plugin P d d' c) (he : e ∈ c.graph.ids)
    (hk : (c.graph.element e).kind = .simple) :
    d.typeInfos.basePlaces (c.graph.element e).typeInfo = [] := by
  refine List.eq_nil_iff_forall_not_mem.2 fun q hq => ?_
  obtain ⟨arity, record, b, hget, hb, _⟩ := TypeInfoArena.exists_of_mem_basePlaces hq
  obtain ⟨info, _, htyped, hget', _⟩ := h.drafted he
  rw [hget] at hget'
  cases hget'
  unfold Blueprint.Typed at htyped
  rw [show ((a.blueprint plugin).tree.item (d.itemOf e)).kind = _ from hk ▸ h.kind_item he]
    at htyped
  obtain ⟨_, _, _, _, heq⟩ := htyped
  cases heq
  cases hb

/-- On the walk from the root the value of a simple object has got its name. -/
theorem data_of_simple (h : a.BuiltBy plugin P d d' c) (he : e ∈ c.graph.ids)
    (hk : (c.graph.element e).kind = .simple) :
    ∃ attributes name, (c.graph.element e).data = .simple attributes name ∧
      (e ∈ d.walk c.root → name = valueNameOf (a.item (d.itemOf e))) := by
  cases hdata : (c.graph.element e).data with
  | simple attributes name =>
    refine ⟨attributes, name, rfl, fun hw => ?_⟩
    have hvalue := h.settles.valueName e ((h.kind he).symm.trans hk)
    rw [if_pos hw, ← (h.element he).data.valueName, hdata] at hvalue
    exact Option.some.inj hvalue
  | _ =>
    unfold Element.kind at hk
    rw [hdata] at hk
    cases hk

/-- Where bases lead to in the draft from the type of a compound object there are types of compound
objects that are behind it in the graph. -/
theorem behind_of_basePlaces (h : a.BuiltBy plugin P d d' c) (hr : a.Resolved) (hs : a.Separated)
    (he : e ∈ c.graph.ids) (hk : (c.graph.element e).kind = .compound)
    (hpath : Relation.ReflTransGen (fun p q => q ∈ d.typeInfos.basePlaces p)
      (c.graph.element e).typeInfo q) :
    c.graph.typeInfos.Behind (c.graph.element e).typeInfo q := by
  induction hpath with
  | refl => exact .refl
  | @tail p q _ hpq ih =>
    obtain ⟨x, hx, rfl, _, hsimple⟩ := h.path_of_behind hr hs he hk ih
    obtain ⟨arity, record, b, hget, hb, rfl⟩ := TypeInfoArena.exists_of_mem_basePlaces hpq
    have hbehind := ih.tail ⟨_, h.record_of_draft_of_ne hx hsimple hget, hb⟩
    obtain ⟨y, hy, rfl, _⟩ := h.path_of_behind hr hs he hk hbehind
    obtain ⟨f, _, hdraft, hgraph⟩ := h.resolve_eq_draft hy
    rw [hdraft, ← hgraph]
    exact hbehind.trans (c.graph.typeInfos.behind_resolve _)

/-- The names that are found in the draft are those of fields in the graph. -/
theorem hasField_of_fieldNames (h : a.BuiltBy plugin P d d' c) (hr : a.Resolved)
    (hs : a.Separated) (hid : id ∈ c.graph.ids)
    (hnames : d.typeInfos.fieldNames (c.graph.element id).typeInfo = some names)
    (hname : name ∈ names) (hkept : ¬(name = Blueprint.valuePlaceholder ∧
      c.graph.RenamesValue (c.graph.element id).typeInfo)) :
    c.graph.typeInfos.HasField (c.graph.element id).typeInfo name := by
  obtain ⟨⟨arity, record, hrecord⟩, q, arity', other, hpath, hother, hmem⟩ :=
    TypeInfoArena.exists_of_mem_fieldNames hnames hname
  obtain ⟨f, hf, hdraft, hgraph⟩ := h.resolve_eq_draft hid
  rw [hdraft] at hrecord hpath
  unfold TypeInfoTable.HasField
  rw [hgraph]
  by_cases hk : (c.graph.element f).kind = .simple
  · obtain rfl : (c.graph.element f).typeInfo = q := by
      rcases Relation.ReflTransGen.cases_head hpath with rfl | ⟨p, hp, _⟩
      · rfl
      · rw [h.basePlaces_of_simple hf hk] at hp
        cases hp
    rw [hrecord] at hother
    cases hother
    have hget := h.record_of_draft hf hrecord
    refine ⟨_, _, hget, _, _, _, .refl, hget, ?_⟩
    split
    · next hw =>
      refine mem_keys_renameValue hmem fun he => ?_
      obtain ⟨attributes, valueName, hdata, hvalue⟩ := h.data_of_simple hf hk
      by_contra hne
      exact hkept ⟨he, f, hf, hgraph, attributes, valueName, hdata, hvalue hw.1 ▸ hne⟩
    · exact hmem
  · have hget := h.record_of_draft_of_ne hf hk hrecord
    have hcompound := h.kind_of_record hf hget hk
    have hbehind := h.behind_of_basePlaces hr hs hf hcompound hpath
    obtain ⟨x, hx, rfl, _, hsimple⟩ := h.path_of_behind hr hs hf hcompound hbehind
    exact ⟨arity, record, hget, _, arity', other, hbehind,
      h.record_of_draft_of_ne hx hsimple hother, hmem⟩

/-- The type of an extension is no record. -/
theorem not_hasField_of_extension (h : a.BuiltBy plugin P d d' c) (hid : id ∈ c.graph.ids)
    (hk : (c.graph.element id).kind = .extension) :
    ¬c.graph.typeInfos.HasField (c.graph.element id).typeInfo name := by
  rintro ⟨arity, record, hget, _⟩
  obtain ⟨info, htyped, hextension⟩ := h.typed_of_kind hid (by simp [hk]) (by simp [hk])
  unfold Blueprint.Typed at htyped
  rw [show ((a.blueprint plugin).tree.item (d.itemOf id)).kind = _ from hk ▸ h.kind_item hid]
    at htyped
  cases htyped
  have hnone : c.graph.typeInfos.refAt (c.graph.element id).typeInfo = none := by
    unfold TypeInfoTable.refAt
    rw [hextension]
    rfl
  rw [TypeInfoTable.resolve_eq_self hnone, hextension] at hget
  cases hget

end BuiltBy

/-! ### All together -/

/-- **Keys name fields.** If the item of an element is a collection, a text that the element of a
compiled graph has for `key` or `value` is the name of a field of its type, own or inherited, unless
it is an extension, which keeps what it was given and has no fields. Nothing is said of the name
that the value of a simple object was kept under and that it has no more. -/
theorem compile_keys (h : t.Produced) (hok : t.compile plugin options = .ok c) :
    ∃ a, t.compileTree plugin options = .ok (a, c) ∧ ∀ id ∈ c.graph.ids, ∀ arity,
      (a.item (a.origin plugin id)).arity = some arity → arity.isCollection →
      ∀ key name, key = "key" ∨ key = "value" →
      (c.graph.element id).metadata.find? key = some (.text name) →
      ¬(name = Blueprint.valuePlaceholder ∧
        c.graph.RenamesValue (c.graph.element id).typeInfo) →
      (c.graph.typeInfos.HasField (c.graph.element id).typeInfo name ↔
        (c.graph.element id).kind ≠ .extension) := by
  have hreachable := h.reachable
  obtain ⟨a, d, d', hc, hadmitted, _, hbuilt⟩ := compile_built hreachable hok
  obtain ⟨r, hr, ha, _⟩ := compileTree_stages hc
  obtain ⟨_, hresolved⟩ := resolve_ok hreachable.wellFormed hr
  have honce : r.RootOnce := by
    simpa [hr, leftBy] using (h.resolve plugin options).rootOnce
  have hretyped := retyped_admitAll ha
  have hseparated : a.Separated := ((hreachable.of_resolve hr).alike hretyped.alike).separated
  refine ⟨a, hc, fun id hid arity harity hcollection key name hkey hentry hkept => ?_⟩
  refine ⟨fun hfield hk => hbuilt.not_hasField_of_extension hid hk hfield, fun hk => ?_⟩
  rw [hbuilt.origin_eq hid, hretyped.field Item.arity fun _ _ _ => rfl] at harity
  -- an element off the walk from the root has no metadata
  by_cases hw : id ∈ d.walk c.root
  · have hlt := hbuilt.mem_ids.1 hid
    have hkind : (r.item (d.itemOf id)).kind = some (c.graph.element id).kind :=
      (hretyped.field Item.kind (fun _ _ _ => rfl) _).symm.trans (hbuilt.kind_item hid)
    -- the root, which has no schema, is no collection
    have hne : d.itemOf id ≠ root := fun he => by
      rw [he] at harity
      obtain rfl := honce arity harity
      cases hcollection
    have hcheck := elementCheck_of_collection hreachable.wellFormed hr
      (hasSchema_of_kind hresolved.wellFormed hkind hk hne) (by rw [harity]; exact hcollection) hkey
    rw [← hretyped.field Item.schema fun _ _ _ => rfl] at hcheck
    rw [hbuilt.metadata_eq hid hw, OrderedMap.find?_eq_some_iff] at hentry
    obtain ⟨names, hnames, hname⟩ := mem_fieldNames_of_checkEntry
      (hbuilt.settles.checks id hw hlt _ hentry) hcheck
    rw [fieldNames_contextOf_withEntries, ← hbuilt.typeInfo hid] at hnames
    exact hbuilt.hasField_of_fieldNames hadmitted.resolved hseparated hid hnames hname hkept
  · rw [hbuilt.metadata_eq_empty hid hw] at hentry
    cases hentry

/-- Things with a label, derived from what has a serial, and many of them by that serial. -/
def keyedThings : ItemTree :=
  (((((ofSource "").push root (Item.object (some "base"))).push ⟨1⟩
    (Item.declaration (some "serial") "int")).push root
    ((Item.object (some "thing")).withBase "base")).push ⟨3⟩
    (Item.declaration (some "label") "string")).push root
    (((Item.declaration (some "things") "thing").withArity .zeroOrMore).withMetadata "key"
      (.text "serial"))

/-- The serial is a field of the things that there are many of. -/
theorem keyedThings_named : keyedThings.Produced ∧ ∃ c,
    keyedThings.compile { name := "any", capabilities := .allElements } {} = .ok c ∧
    (c.graph.element ⟨5⟩).metadata.find? "key" = some (.text "serial") ∧
    c.graph.typeInfos.HasField (c.graph.element ⟨5⟩).typeInfo "serial" := by
  have hproduced : keyedThings.Produced :=
    (((((Produced.source "").push (p := root) (by decide)
      (Item.Declared.object (some "base"))).push (p := ⟨1⟩) (by decide)
      (Item.Declared.declaration (some "serial") "int")).push (p := root) (by decide)
      ((Item.Declared.object (some "thing")).withBase "base")).push (p := ⟨3⟩) (by decide)
      (Item.Declared.declaration (some "label") "string")).push (p := root) (by decide)
      (((Item.Declared.declaration (some "things") "thing").withArity .zeroOrMore).withMetadata
        "key" (.text "serial"))
  have hfacts : (keyedThings.compileTree { name := "any", capabilities := .allElements }
      {}).toOption.map (fun r => (r.2.graph.size, (r.2.graph.element ⟨5⟩).kind,
        (r.1.item (r.1.origin { name := "any", capabilities := .allElements } ⟨5⟩)).arity,
        ((r.2.graph.element ⟨5⟩).metadata.find? "key").bind Value.asText?)) =
      some (6, .reference, some .zeroOrMore, some "serial") := by decide +kernel
  obtain ⟨⟨a, c⟩, hc, hfacts⟩ := Option.map_eq_some_iff.1 hfacts
  simp only [Prod.mk.injEq] at hfacts
  obtain ⟨hsize, hk, harity, htext⟩ := hfacts
  have hc := eq_ok_of_toOption hc
  have hok : keyedThings.compile { name := "any", capabilities := .allElements } {} = .ok c := by
    unfold compile
    rw [hc]
    rfl
  obtain ⟨value, hentry, hvalue⟩ := Option.bind_eq_some_iff.1 htext
  obtain rfl := Value.eq_text_of_asText? hvalue
  have he : (⟨5⟩ : ElementId) ∈ c.graph.ids := by simp [Graph.ids, hsize]
  obtain ⟨a', hc', hnames⟩ := compile_keys hproduced hok
  rw [hc] at hc'
  cases hc'
  exact ⟨hproduced, c, hok, hentry, (hnames ⟨5⟩ he _ harity (by decide) "key" "serial" (.inl rfl)
    hentry fun hv => absurd hv.1 (by decide)).2 (by rw [hk]; decide)⟩

/-- An extension that may occur many times, by what is no field of anything. -/
def keyedExtension : ItemTree :=
  (ofSource "").push root
    (((Item.extension "note" []).withArity .zeroOrMore).withMetadata "key" (.text "missing"))

/-- A plugin that knows the extension. -/
def noteTaker : Plugin where
  name := "any"
  capabilities := .allElements
  extensions := [{ name := "note", allowDuplicates := false }]

/-- The extension keeps its key, which names no field. -/
theorem keyedExtension_unnamed : keyedExtension.Declared ∧ ∃ a c,
    keyedExtension.compileTree noteTaker {} = .ok (a, c) ∧
    (⟨1⟩ : ElementId) ∈ c.graph.ids ∧
    (a.item (a.origin noteTaker ⟨1⟩)).arity =
        some .zeroOrMore ∧ Arity.zeroOrMore.isCollection ∧
    (c.graph.element ⟨1⟩).metadata.find? "key" = some (.text "missing") ∧
    ¬c.graph.typeInfos.HasField (c.graph.element ⟨1⟩).typeInfo "missing" := by
  have hdeclared : keyedExtension.Declared :=
    (Declared.source "").push (p := root) (by decide)
      (((Item.Declared.extension "note" []).withArity .zeroOrMore).withMetadata "key"
        (.text "missing"))
  have hfacts : (keyedExtension.compileTree noteTaker {}).toOption.map (fun r =>
        (r.2.graph.size, (r.1.item (r.1.origin noteTaker ⟨1⟩)).arity,
        ((r.2.graph.element ⟨1⟩).metadata.find? "key").bind Value.asText?,
        r.2.graph.typeInfos.toArena.record?
          (r.2.graph.typeInfos.resolve (r.2.graph.element ⟨1⟩).typeInfo))) =
      some (2, some .zeroOrMore, some "missing", none) := by decide +kernel
  obtain ⟨⟨a, c⟩, hc, hfacts⟩ := Option.map_eq_some_iff.1 hfacts
  simp only [Prod.mk.injEq] at hfacts
  obtain ⟨hsize, harity, htext, hnone⟩ := hfacts
  obtain ⟨value, hentry, hvalue⟩ := Option.bind_eq_some_iff.1 htext
  obtain rfl := Value.eq_text_of_asText? hvalue
  refine ⟨hdeclared, a, c, eq_ok_of_toOption hc, by simp [Graph.ids, hsize], harity, by decide,
    hentry, ?_⟩
  rintro ⟨arity, record, hget, _⟩
  have hsome := TypeInfoArena.record?_eq_some_iff.2
    ⟨arity, (TypeInfoTable.get?_toArena _ _).trans hget⟩
  rw [hnone] at hsome
  cases hsome

end ItemTree
end Schemata
