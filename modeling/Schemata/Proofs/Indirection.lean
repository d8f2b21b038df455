import Schemata.Proofs.Coverage
import Schemata.Proofs.Types

/-! Keeping references that change nothing only adds indirection.

Two graphs built from one tree, one with these references as elements of their own
and one without, differ in numbering, in the order of building and in which items
have elements at all. But what the type of an item refers to is decided by the tree:
whatever stands for a target lies on the chain of types that starts there. So the
refs from an item end at the same item in both graphs, or in neither. -/
namespace Schemata

/-! ### Chains of refs -/

/-- The refs from a place end at another one. -/
def TypeInfoTable.RefsEnd (table : TypeInfoTable) (place last : TypeInfoId) : Prop :=
  Relation.ReflTransGen (fun p q => table.refAt p = some q) place last ∧ table.refAt last = none

namespace Shape

def scalar? : Shape → Option ScalarShape
  | scalar s => some s
  | _ => none

/-- The names of the fields of a record, in order. -/
def fieldNames? : Shape → Option (List String)
  | record c => some c.fields.keys
  | _ => none

/-- The same scalar, or records with fields of the same names, or neither. -/
structure Resembles (shape shape' : Shape) : Prop where
  scalar : shape'.scalar? = shape.scalar?
  fields : shape'.fieldNames? = shape.fieldNames?

theorem Resembles.refl (shape : Shape) : shape.Resembles shape := ⟨rfl, rfl⟩

end Shape

/-- The same arity, and shapes that resemble each other. -/
def TypeInfo.Resembles (info info' : TypeInfo) : Prop :=
  info'.arity = info.arity ∧ info.shape.Resembles info'.shape

namespace TypeInfo

variable {info info' info'' : TypeInfo} {name : String}

theorem Resembles.symm (h : info.Resembles info') : info'.Resembles info :=
  ⟨h.1.symm, h.2.scalar.symm, h.2.fields.symm⟩

theorem Resembles.trans (h : info.Resembles info') (h' : info'.Resembles info'') :
    info.Resembles info'' :=
  ⟨h'.1.trans h.1, h'.2.scalar.trans h.2.scalar, h'.2.fields.trans h.2.fields⟩

theorem SameButAlternatives.resembles (h : info.SameButAlternatives info') :
    info.Resembles info' := by
  rcases h with rfl | ⟨_, _, _, rfl, rfl⟩
  · exact ⟨rfl, .refl _⟩
  · exact ⟨rfl, rfl, rfl⟩

theorem SameButAlternatives.shape_ref (h : info.SameButAlternatives info') :
    info'.shape.ref? = info.shape.ref? := by
  rcases h with rfl | ⟨_, _, _, rfl, rfl⟩ <;> rfl

theorem withValueName_shape_ref (info : TypeInfo) (name : String) :
    (info.withValueName name).shape.ref? = info.shape.ref? := by
  obtain ⟨arity, shape⟩ := info
  cases shape <;> rfl

theorem Resembles.withValueName (h : info.Resembles info') :
    (info.withValueName name).Resembles (info'.withValueName name) := by
  obtain ⟨arity, shape⟩ := info
  obtain ⟨arity', shape'⟩ := info'
  obtain ⟨harity, hscalar, hfields⟩ := h
  cases shape with
  | record c =>
    cases shape' with
    | record c' =>
      exact ⟨harity, hscalar, congrArg some
        (Draft.keys_renameValue_congr (Option.some.inj hfields))⟩
    | _ => cases hfields
  | _ =>
    cases shape' with
    | record c' => cases hfields
    | _ => exact ⟨harity, hscalar, hfields⟩

end TypeInfo

/-- The same plugin, which wants to keep references that change nothing or does not. -/
def Plugin.preserving (plugin : Plugin) (preserve : Bool) : Plugin :=
  { plugin with
    capabilities := { plugin.capabilities with preserveReferences := preserve } }

namespace Blueprint

variable {b : Blueprint} {x y z : ItemId}

/-- The item whose type the type of another one refers to, but for what stands for it. -/
def typeTarget? (b : Blueprint) (item : ItemId) : Option ItemId :=
  match (b.tree.item item).kind, b.narrowed? item with
  | some .reference, none | some .list, _ => (b.tree.item item).target?.bind Target.item?
  | _, _ => none

/-- Where the types of items lead. -/
def Leads (b : Blueprint) (x y : ItemId) : Prop := b.typeTarget? x = some y

/-- A reference that changes nothing has the type of its target. -/
theorem leads_of_aliasStep (h : b.aliasStep x = .go y) : b.Leads x y := by
  obtain ⟨halias, hrefers⟩ := behind_of_aliasStep h
  have hnarrowed : b.narrowed? x = none := by
    unfold narrowed?
    split
    · exact if_neg fun hc => by simp [halias.2] at hc
    · rfl
  unfold Leads typeTarget?
  rw [halias.1, hnarrowed]
  dsimp only
  rw [hrefers.2]
  rfl

/-- What stands for an item is where its type leads. -/
theorem leads_standIn (h : b.tree.Resolved) (x : ItemId) :
    Relation.ReflTransGen b.Leads x (b.standIn x) :=
  Relation.ReflTransGen.mono (fun _ _ => leads_of_aliasStep) _ _ (aliases_standIn h x).1

/-- Where a chain of types ends does not depend on what stands for what on the way. -/
theorem leads_unique (hxy : b.Leads x y) (hxz : b.Leads x z) : y = z :=
  Option.some.inj (hxy.symm.trans hxz)

/-! ### Types of one item -/

theorem FieldsOf.map_fst {d : Draft} {named : List (ItemId × String)}
    {fields : List (String × TypeInfoId)} (h : FieldsOf d named fields) :
    fields.map Prod.fst = named.map Prod.snd := by
  unfold FieldsOf at h
  induction h with
  | nil => rfl
  | cons hfield _ ih => rw [List.map_cons, List.map_cons, hfield.1, ih]

/-- Whatever it is built for, the type of an item resembles any other type of it. -/
theorem resembles_of_typed {t : ItemTree} {preserve preserve' : Bool} {d d' : Draft}
    {info info' : TypeInfo} (h : (Blueprint.mk t preserve).Typed d x info)
    (h' : (Blueprint.mk t preserve').Typed d' x info') : info.Resembles info' := by
  have href : ∀ {b : Blueprint} {d : Draft} {shape : Shape}, b.RefersTo d x shape →
      shape.scalar? = none ∧ shape.fieldNames? = none := by
    rintro _ _ _ ⟨_, _, _, _, rfl⟩
    exact ⟨rfl, rfl⟩
  have hrefs : ∀ {b b' : Blueprint} {d d' : Draft} {shape shape' : Shape},
      b.RefersTo d x shape → b'.RefersTo d' x shape' → shape.Resembles shape' := fun hs hs' =>
    ⟨(href hs').1.trans (href hs).1.symm, (href hs').2.trans (href hs).2.symm⟩
  unfold Typed at h h'
  dsimp only at h h'
  cases hk : (t.item x).kind with
  | none =>
    rw [hk] at h
    cases h
  | some k =>
    rw [hk] at h h'
    cases k with
    | fundamental =>
      obtain ⟨type, htype, rfl⟩ := h
      obtain ⟨type', htype', rfl⟩ := h'
      rw [htype] at htype'
      cases htype'
      exact ⟨rfl, .refl _⟩
    | compound =>
      obtain ⟨_, fields, _, hfields, rfl⟩ := h
      obtain ⟨_, fields', _, hfields', rfl⟩ := h'
      refine ⟨rfl, rfl, congrArg some (OrderedMap.keys_ofList_congr ?_)⟩
      rw [hfields.map_fst, hfields'.map_fst]
      rfl
    | simple =>
      obtain ⟨_, fields, _, hfields, rfl⟩ := h
      obtain ⟨_, fields', _, hfields', rfl⟩ := h'
      refine ⟨rfl, rfl, congrArg some (OrderedMap.keys_ofList_congr ?_)⟩
      rw [List.map_cons, List.map_cons, hfields.map_fst, hfields'.map_fst]
      rfl
    | variant =>
      obtain ⟨_, _, rfl⟩ := h
      obtain ⟨_, _, rfl⟩ := h'
      exact ⟨rfl, rfl, rfl⟩
    | reference =>
      obtain ⟨shape, rfl, hshape⟩ := h
      obtain ⟨shape', rfl, hshape'⟩ := h'
      rw [show (Blueprint.mk t preserve').narrowed? x = (Blueprint.mk t preserve).narrowed? x
        from rfl] at hshape'
      refine ⟨rfl, ?_⟩
      cases hn : (Blueprint.mk t preserve).narrowed? x with
      | some type =>
        rw [hn] at hshape hshape'
        cases hshape
        cases hshape'
        exact .refl _
      | none =>
        rw [hn] at hshape hshape'
        exact hrefs hshape hshape'
    | list =>
      obtain ⟨shape, rfl, hshape⟩ := h
      obtain ⟨shape', rfl, hshape'⟩ := h'
      exact ⟨rfl, hrefs hshape hshape'⟩
    | any | custom | extension =>
      cases h
      cases h'
      exact ⟨rfl, .refl _⟩

theorem typeTarget?_eq_none (hr : (b.tree.item x).kind ≠ some .reference)
    (hl : (b.tree.item x).kind ≠ some .list) : b.typeTarget? x = none := by
  unfold typeTarget?
  split
  · next hk _ => exact absurd hk hr
  · next hk => exact absurd hk hl
  · rfl

/-- The type of an item is a ref just in case it leads somewhere. -/
theorem ref_of_typed {d : Draft} {info : TypeInfo} (h : b.Typed d x info) :
    (∃ y place, b.Leads x y ∧ d.places.find? (b.standIn y) = some place ∧
      info.shape.ref? = some place) ∨ b.typeTarget? x = none ∧ info.shape.ref? = none := by
  have hrefers : ∀ shape, b.typeTarget? x = (b.tree.item x).target?.bind Target.item? →
      b.RefersTo d x shape → ∃ y place, b.Leads x y ∧
        d.places.find? (b.standIn y) = some place ∧ shape.ref? = some place := by
    rintro _ htarget ⟨y, place, hy, hplace, rfl⟩
    refine ⟨y, place, htarget.trans ?_, hplace, rfl⟩
    rw [hy]
    rfl
  have hplain : ∀ k, (b.tree.item x).kind = some k → k ≠ .reference → k ≠ .list →
      b.typeTarget? x = none := fun k hk hr hl =>
    typeTarget?_eq_none (fun he => hr (Option.some.inj (hk.symm.trans he)))
      fun he => hl (Option.some.inj (hk.symm.trans he))
  unfold Typed at h
  cases hk : (b.tree.item x).kind with
  | none =>
    rw [hk] at h
    cases h
  | some k =>
    rw [hk] at h
    cases k with
    | fundamental =>
      obtain ⟨_, _, rfl⟩ := h
      exact .inr ⟨hplain _ hk nofun nofun, rfl⟩
    | compound | simple =>
      obtain ⟨_, _, _, _, rfl⟩ := h
      exact .inr ⟨hplain _ hk nofun nofun, rfl⟩
    | variant =>
      obtain ⟨_, _, rfl⟩ := h
      exact .inr ⟨hplain _ hk nofun nofun, rfl⟩
    | reference =>
      obtain ⟨shape, rfl, hshape⟩ := h
      cases hn : b.narrowed? x with
      | some type =>
        rw [hn] at hshape
        cases hshape
        refine .inr ⟨?_, rfl⟩
        unfold typeTarget?
        rw [hk, hn]
      | none =>
        rw [hn] at hshape
        refine .inl (hrefers shape ?_ hshape)
        unfold typeTarget?
        rw [hk, hn]
    | list =>
      obtain ⟨shape, rfl, hshape⟩ := h
      refine .inl (hrefers shape ?_ hshape)
      unfold typeTarget?
      rw [hk]
    | any | custom | extension =>
      cases h
      exact .inr ⟨hplain _ hk nofun nofun, rfl⟩

end Blueprint

namespace ItemTree

open Draft

variable {t r a : ItemTree} {plugin plugin' : Plugin} {options : Options} {P P' : ItemId → Prop}
  {c c' : Compiled} {d₁ d₂ d d' : Draft} {e f : ElementId} {x y z : ItemId} {place : TypeInfoId}

namespace BuiltBy

/-! ### Refs in a graph -/

/-- The ref of an element is the one that it was built with. -/
theorem refAt_eq (h : a.BuiltBy plugin P d d' c) (he : e ∈ c.graph.ids) :
    c.graph.typeInfos.refAt (c.graph.element e).typeInfo =
      d.typeInfos.refAt (c.graph.element e).typeInfo := by
  obtain ⟨info, info', _, hget, hget', hsame⟩ := h.drafted he
  unfold TypeInfoTable.refAt TypeInfoArena.refAt
  rw [hget, hget', Option.bind_some, Option.bind_some, hsame.shape_ref]
  split
  · exact TypeInfo.withValueName_shape_ref info _
  · rfl

/-- The ref of an element leads to the place of what stands for the item where its type leads. -/
theorem refAt_cases (h : a.BuiltBy plugin P d d' c) (he : e ∈ c.graph.ids) :
    (∃ y place, (a.blueprint plugin).Leads (d.itemOf e) y ∧
      d.places.find? ((a.blueprint plugin).standIn y) = some place ∧
      c.graph.typeInfos.refAt (c.graph.element e).typeInfo = some place) ∨
    (a.blueprint plugin).typeTarget? (d.itemOf e) = none ∧
      c.graph.typeInfos.refAt (c.graph.element e).typeInfo = none := by
  obtain ⟨info, _, htyped, hget, _⟩ := h.drafted he
  have href : c.graph.typeInfos.refAt (c.graph.element e).typeInfo = info.shape.ref? := by
    rw [h.refAt_eq he]
    unfold TypeInfoArena.refAt
    rw [hget]
    rfl
  rw [href]
  exact Blueprint.ref_of_typed htyped

/-- Where refs from the type of an element end, the chain of types ends as well. -/
theorem leads_of_refsEnd (h : a.BuiltBy plugin P d d' c) (hr : a.Resolved) (he : e ∈ c.graph.ids)
    (hend : c.graph.typeInfos.RefsEnd (c.graph.element e).typeInfo place) :
    ∃ x, Relation.ReflTransGen (a.blueprint plugin).Leads (d.itemOf e) x ∧
      (a.blueprint plugin).typeTarget? x = none := by
  obtain ⟨hpath, hlast⟩ := hend
  generalize hstart : (c.graph.element e).typeInfo = start at hpath
  induction hpath using Relation.ReflTransGen.head_induction_on generalizing e with
  | refl =>
    rcases h.refAt_cases he with ⟨_, _, _, _, hsome⟩ | ⟨hnone, _⟩
    · rw [hstart, hlast] at hsome
      cases hsome
    · exact ⟨_, .refl, hnone⟩
  | head hpq _ ih =>
    rw [← hstart] at hpq
    rcases h.refAt_cases he with ⟨y, q, hlead, hplace, hsome⟩ | ⟨_, hnone⟩
    · rw [hpq] at hsome
      cases hsome
      obtain ⟨f, hf, _, hitem, hfplace⟩ := h.exists_of_place hplace
      obtain ⟨x, hx, hxlast⟩ := ih hf hfplace
      rw [hitem] at hx
      have hstands := Blueprint.leads_standIn (b := a.blueprint plugin) hr y
      exact ⟨x, .head hlead (hstands.trans hx), hxlast⟩
    · rw [hpq] at hnone
      cases hnone

/-- Where the chain of types from an item ends, the refs end at the type of that item's element. -/
theorem refsEnd_of_leads (h : a.BuiltBy plugin P d d' c) (hr : a.Resolved) (he : e ∈ c.graph.ids)
    (hpath : Relation.ReflTransGen (a.blueprint plugin).Leads (d.itemOf e) x)
    (hlast : (a.blueprint plugin).typeTarget? x = none) :
    ∃ f ∈ c.graph.ids, d.itemOf f = x ∧
      c.graph.typeInfos.RefsEnd (c.graph.element e).typeInfo (c.graph.element f).typeInfo := by
  -- on the way what stands for a target may be further along, so the claim is for all of the chain
  suffices hall : ∀ w, Relation.ReflTransGen (a.blueprint plugin).Leads w x →
      ∀ y, Relation.ReflTransGen (a.blueprint plugin).Leads w y → ∀ e ∈ c.graph.ids,
        d.itemOf e = y → ∃ f ∈ c.graph.ids, d.itemOf f = x ∧
          c.graph.typeInfos.RefsEnd (c.graph.element e).typeInfo (c.graph.element f).typeInfo from
    hall _ hpath _ .refl e he rfl
  intro w hw
  induction hw using Relation.ReflTransGen.head_induction_on with
  | refl =>
    intro y hy e he hitem
    rcases Relation.ReflTransGen.cases_head hy with rfl | ⟨z, hz, _⟩
    · refine ⟨e, he, hitem, .refl, ?_⟩
      rcases h.refAt_cases he with ⟨y, _, hlead, _⟩ | ⟨_, hnone⟩
      · unfold Blueprint.Leads at hlead
        rw [hitem, hlast] at hlead
        cases hlead
      · exact hnone
    · unfold Blueprint.Leads at hz
      rw [hlast] at hz
      cases hz
  | @head w z hwz _ ih =>
    intro y hy e he hitem
    rcases Relation.ReflTransGen.cases_head hy with rfl | ⟨z', hwz', hzy⟩
    · rcases h.refAt_cases he with ⟨y, q, hlead, hplace, hsome⟩ | ⟨hnone, _⟩
      · rw [hitem] at hlead
        obtain rfl := Blueprint.leads_unique hlead hwz
        obtain ⟨f, hf, _, hfitem, rfl⟩ := h.exists_of_place hplace
        obtain ⟨g, hg, hgitem, hpath, hend⟩ :=
          ih _ (Blueprint.leads_standIn (b := a.blueprint plugin) hr y) f hf hfitem
        exact ⟨g, hg, hgitem, .head hsome hpath, hend⟩
      · unfold Blueprint.Leads at hwz
        rw [← hitem, hnone] at hwz
        cases hwz
    · obtain rfl := Blueprint.leads_unique hwz' hwz
      exact ih y hzy e he hitem

/-! ### Two graphs of one tree -/

theorem kind_congr (h : a.BuiltBy plugin P d₁ d₁' c) (h' : a.BuiltBy plugin' P' d₂ d₂' c')
    (he : e ∈ c.graph.ids) (hf : f ∈ c'.graph.ids) (hitem : d₂.itemOf f = d₁.itemOf e) :
    (c'.graph.element f).kind = (c.graph.element e).kind := by
  have hkind := h'.kind_item hf
  rw [hitem, h.kind_item he] at hkind
  exact (Option.some.inj hkind).symm

/-- The types of the elements of one item resemble each other. -/
theorem resembles (h : a.BuiltBy plugin P d₁ d₁' c) (h' : a.BuiltBy plugin' P' d₂ d₂' c')
    (he : e ∈ c.graph.ids) (hf : f ∈ c'.graph.ids) (hitem : d₂.itemOf f = d₁.itemOf e)
    (hw : e ∈ d₁.walk c.root) (hw' : f ∈ d₂.walk c'.root) :
    ∃ info info', c.graph.typeInfos.get? (c.graph.element e).typeInfo = some info ∧
      c'.graph.typeInfos.get? (c'.graph.element f).typeInfo = some info' ∧
      info.Resembles info' := by
  obtain ⟨info₁, info, htyped, hget, hsame⟩ := h.typed he
  obtain ⟨info₂, info', htyped', hget', hsame'⟩ := h'.typed hf
  rw [hitem] at htyped'
  have hbuilt := Blueprint.resembles_of_typed htyped htyped'
  refine ⟨info, info', hget, hget', hsame.resembles.symm.trans (.trans ?_ hsame'.resembles)⟩
  rw [h.kind_congr h' he hf hitem, hitem]
  by_cases hs : (c.graph.element e).kind = .simple
  · rw [if_pos ⟨hw, hs⟩, if_pos ⟨hw', hs⟩]
    exact hbuilt.withValueName
  · rw [if_neg fun hc => hs hc.2, if_neg fun hc => hs hc.2]
    exact hbuilt

section Wanted

variable (h : a.BuiltBy plugin (a.blueprint plugin).Wanted d d' c) (ha : a.Admitted)
  (ho : a.OnlyObjectsHold)
include h ha ho

/-- The parent of an element is that of the parent of its item. -/
theorem parent_item (he : e ∈ c.graph.ids) :
    (c.graph.element e).parent.map (a.origin plugin) = (a.item (d.itemOf e)).parent := by
  by_cases hroot : e = c.root
  · rw [hroot, h.parent_root ha, h.assembled.sound.indexed.itemOf_of_idOf? h.assembled.root]
    exact ha.resolved.wellFormed.rooted.rootParent.symm
  · obtain ⟨p, hp, hparent, hitem, _⟩ := h.exists_parent ha ho he hroot
    rw [hparent, hitem, Option.map_some, h.origin_eq hp]

end Wanted

end BuiltBy

/-! ### All together -/

/-- Two elements of graphs of one tree are the same but for the way that their types refer to
others. -/
structure Agree (a : ItemTree) (plugin plugin' : Plugin) (g g' : Graph) (e e' : ElementId) :
    Prop where
  kind : (g'.element e').kind = (g.element e).kind
  name : (g'.element e').name = (g.element e).name
  metadata : (g'.element e').metadata = (g.element e).metadata
  parent : (g'.element e').parent.map (a.origin plugin') =
    (g.element e).parent.map (a.origin plugin)
  arity : ∃ info info', g.typeInfos.get? (g.element e).typeInfo = some info ∧
    g'.typeInfos.get? (g'.element e').typeInfo = some info' ∧ info'.arity = info.arity
  ends : ((∃ last, g.typeInfos.RefsEnd (g.element e).typeInfo last) ∨
      ∃ last, g'.typeInfos.RefsEnd (g'.element e').typeInfo last) →
    ∃ f ∈ g.ids, ∃ f' ∈ g'.ids, a.origin plugin' f' = a.origin plugin f ∧
      g.typeInfos.RefsEnd (g.element e).typeInfo (g.element f).typeInfo ∧
      g'.typeInfos.RefsEnd (g'.element e').typeInfo (g'.element f').typeInfo ∧
      ∃ info info', g.typeInfos.get? (g.element f).typeInfo = some info ∧
        g'.typeInfos.get? (g'.element f').typeInfo = some info' ∧
        info.shape.Resembles info'.shape

theorem BuiltBy.agree (h : a.BuiltBy plugin (a.blueprint plugin).Wanted d₁ d₁' c)
    (h' : a.BuiltBy plugin' (a.blueprint plugin').Wanted d₂ d₂' c') (ha : a.Admitted)
    (ho : a.OnlyObjectsHold) (he : e ∈ c.graph.ids) (hf : f ∈ c'.graph.ids)
    (hitem : d₂.itemOf f = d₁.itemOf e) : a.Agree plugin plugin' c.graph c'.graph e f := by
  have hwalk : ∀ x ∈ c.graph.ids, x ∈ d₁.walk c.root := fun x hx =>
    (h.assembled.mem_walk_iff ha ho).2 (h.mem_ids.1 hx)
  have hwalk' : ∀ x ∈ c'.graph.ids, x ∈ d₂.walk c'.root := fun x hx =>
    (h'.assembled.mem_walk_iff ha ho).2 (h'.mem_ids.1 hx)
  obtain ⟨info, info', hget, hget', hresembles⟩ :=
    h.resembles h' he hf hitem (hwalk e he) (hwalk' f hf)
  have hidx := h.assembled.sound.indexed.element e (h.mem_ids.1 he)
  have hidx' := h'.assembled.sound.indexed.element f (h'.mem_ids.1 hf)
  refine ⟨h.kind_congr h' he hf hitem, ?_, ?_, ?_, ⟨info, info', hget, hget', hresembles.1⟩,
    fun hends => ?_⟩
  · rw [(h.element_of_idOf? hidx).2.2, (h'.element_of_idOf? hidx').2.2, hitem]
  · rw [h.metadata_eq he (hwalk e he), h'.metadata_eq hf (hwalk' f hf), hitem]
  · rw [h.parent_item ha ho he, h'.parent_item ha ho hf, hitem]
  · obtain ⟨x, hpath, hlast⟩ : ∃ x,
        Relation.ReflTransGen (a.blueprint plugin).Leads (d₁.itemOf e) x ∧
          (a.blueprint plugin).typeTarget? x = none := by
      rcases hends with ⟨last, hend⟩ | ⟨last, hend⟩
      · exact h.leads_of_refsEnd ha.resolved he hend
      · rw [← hitem]
        exact h'.leads_of_refsEnd ha.resolved hf hend
    obtain ⟨g, hg, hgitem, hgend⟩ := h.refsEnd_of_leads ha.resolved he hpath hlast
    obtain ⟨g', hg', hgitem', hgend'⟩ :=
      h'.refsEnd_of_leads ha.resolved hf (x := x) (hitem ▸ hpath) hlast
    obtain ⟨info, info', hget, hget', hresembles⟩ :=
      h.resembles h' hg hg' (hgitem'.trans hgitem.symm) (hwalk g hg) (hwalk' g' hg')
    refine ⟨g, hg, g', hg', ?_, hgend, hgend', info, info', hget, hget', hresembles.2⟩
    rw [h.origin_eq hg, h'.origin_eq hg', hgitem, hgitem']

/-- **Keeping references that change nothing only adds indirection.** If a tree in which only
objects hold anything can be built both with and without them, the elements of an item agree: they
have the same kind, name, metadata, parent and arity, and if the refs from the type of one of them
end, those from the types of both end at the type of the same item, with the same scalar or the
same fields. -/
theorem build_preserving (h : t.Reachable) (ho : t.OnlyObjectsHold)
    (hr : t.resolve plugin options = .ok r) (ha : r.admitAll plugin options = .ok a)
    (hc : a.build (plugin.preserving false) = .ok c)
    (hc' : a.build (plugin.preserving true) = .ok c') :
    ∀ e ∈ c.graph.ids, ∀ e' ∈ c'.graph.ids,
      a.origin (plugin.preserving true) e' = a.origin (plugin.preserving false) e →
      a.Agree (plugin.preserving false) (plugin.preserving true) c.graph c'.graph e e' := by
  obtain ⟨hrefined, hresolved⟩ := resolve_ok h.wellFormed hr
  obtain ⟨halike, hadmitted⟩ := admitted_of_admitAll hresolved ha
  have hobjects := halike.onlyObjectsHold (hrefined.objects ho)
  obtain ⟨d₁, d₁', hbuilt⟩ := build_ok (Blueprint.closed_wanted
    (b := a.blueprint (plugin.preserving false)) hadmitted) hc
  obtain ⟨d₂, d₂', hbuilt'⟩ := build_ok (Blueprint.closed_wanted
    (b := a.blueprint (plugin.preserving true)) hadmitted) hc'
  intro e he e' he' horigin
  rw [hbuilt.origin_eq he, hbuilt'.origin_eq he'] at horigin
  exact hbuilt.agree hbuilt' hadmitted hobjects he he' horigin

/-- The points are a list of what an alias names. -/
def pointsByAlias : ItemTree :=
  ((((ofSource "").push root
    ((Item.declaration (some "points") "alias").withArity Arity.zeroOrMore)).push root
    (Item.declaration (some "alias") "point")).push root (Item.object (some "point"))).push ⟨3⟩
    (Item.declaration (some "x") "int")

/-- The type of the list refers to the point itself or to the alias, and its elements agree. -/
theorem pointsByAlias_agree :
    pointsByAlias.Reachable ∧ pointsByAlias.OnlyObjectsHold ∧ ∃ r a c c',
      pointsByAlias.resolve { name := "any", capabilities := .allElements } {} = .ok r ∧
      r.admitAll { name := "any", capabilities := .allElements } {} = .ok a ∧
      a.build (Plugin.preserving { name := "any", capabilities := .allElements } false) = .ok c ∧
      a.build (Plugin.preserving { name := "any", capabilities := .allElements } true) = .ok c' ∧
      c.graph.typeInfos.refAt (c.graph.element ⟨1⟩).typeInfo =
        some (c.graph.element ⟨3⟩).typeInfo ∧
      c'.graph.typeInfos.refAt (c'.graph.element ⟨1⟩).typeInfo =
        some (c'.graph.element ⟨2⟩).typeInfo ∧
      a.Agree (Plugin.preserving { name := "any", capabilities := .allElements } false)
        (Plugin.preserving { name := "any", capabilities := .allElements } true)
        c.graph c'.graph ⟨1⟩ ⟨1⟩ := by
  have hpoints := (Item.Declared.declaration (some "points") "alias").withArity Arity.zeroOrMore
  have halias := Item.Declared.declaration (some "alias") "point"
  have hpoint := Item.Declared.object (some "point")
  have hx := Item.Declared.declaration (some "x") "int"
  have hreachable : pointsByAlias.Reachable :=
    ((((Reachable.source "").push (p := root) (by decide) hpoints).push (p := root) (by decide)
      halias).push (p := root) (by decide) hpoint).push (p := ⟨3⟩) (by decide) hx
  have hobjects : pointsByAlias.OnlyObjectsHold :=
    ((((onlyObjectsHold_ofSource "").push (p := root) (by decide) hpoints.fresh rfl).push
      (p := root) (by decide) halias.fresh rfl).push (p := root) (by decide) hpoint.fresh rfl).push
      (p := ⟨3⟩) (by decide) hx.fresh rfl
  have hfacts : ((pointsByAlias.resolve { name := "any", capabilities := .allElements }
      {}).toOption.bind fun r =>
        (r.admitAll { name := "any", capabilities := .allElements } {}).toOption.bind fun a =>
        (a.build (Plugin.preserving { name := "any", capabilities := .allElements }
          false)).toOption.bind fun c =>
        (a.build (Plugin.preserving { name := "any", capabilities := .allElements }
          true)).toOption.map fun c' =>
        (c.graph.size, c'.graph.size,
          a.origin (Plugin.preserving { name := "any", capabilities := .allElements } false) ⟨1⟩,
          a.origin (Plugin.preserving { name := "any", capabilities := .allElements } true) ⟨1⟩,
          decide (c.graph.typeInfos.refAt (c.graph.element ⟨1⟩).typeInfo =
            some (c.graph.element ⟨3⟩).typeInfo),
          decide (c'.graph.typeInfos.refAt (c'.graph.element ⟨1⟩).typeInfo =
            some (c'.graph.element ⟨2⟩).typeInfo))) = some (5, 5, ⟨1⟩, ⟨1⟩, true, true) := by
    decide +kernel
  obtain ⟨r, hr, hfacts⟩ := Option.bind_eq_some_iff.1 hfacts
  obtain ⟨a, ha, hfacts⟩ := Option.bind_eq_some_iff.1 hfacts
  obtain ⟨c, hc, hfacts⟩ := Option.bind_eq_some_iff.1 hfacts
  obtain ⟨c', hc', hfacts⟩ := Option.map_eq_some_iff.1 hfacts
  simp only [Prod.mk.injEq, decide_eq_true_eq] at hfacts
  obtain ⟨hsize, hsize', horigin, horigin', href, href'⟩ := hfacts
  have he : (⟨1⟩ : ElementId) ∈ c.graph.ids := by simp [Graph.ids, hsize]
  have he' : (⟨1⟩ : ElementId) ∈ c'.graph.ids := by simp [Graph.ids, hsize']
  exact ⟨hreachable, hobjects, r, a, c, c', eq_ok_of_toOption hr, eq_ok_of_toOption ha,
    eq_ok_of_toOption hc, eq_ok_of_toOption hc', href, href',
    build_preserving hreachable hobjects (eq_ok_of_toOption hr) (eq_ok_of_toOption ha)
      (eq_ok_of_toOption hc) (eq_ok_of_toOption hc') _ he _ he' (horigin'.trans horigin.symm)⟩

end ItemTree
end Schemata
