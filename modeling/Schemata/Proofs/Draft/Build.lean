import Schemata.Proofs.Draft.Assembly
import Schemata.Proofs.Draft.Finish
import Schemata.Proofs.Draft.Settling

/-! The whole way from a tree to a graph.

The draft that the assembly yields is completed and closed. `Completed` says what
the completed draft has from the assembled one; a build that fails does so for an
item that fails by itself, a refused value or name, or a type that never became
known. -/
namespace Schemata

open Search

/-! ### An assembled draft -/

namespace Blueprint.Assembled

open Draft

variable {b : Blueprint} {P : ItemId → Prop} {root id : ElementId} {d : Draft}

/-- Every element is described, and nothing about it is left to do. -/
theorem described (h : b.Assembled P root d) (hid : id.index < d.elements.size) :
    b.Described [] d (d.itemOf id) id :=
  h.sound.described _ _ (h.idle.finished (h.sound.indexed.element id hid))

theorem kind (h : b.Assembled P root d) (hid : id.index < d.elements.size) :
    (b.tree.item (d.itemOf id)).kind = some (d.element id).kind := by
  obtain ⟨info, _, hs⟩ := (h.described hid).shaped
  exact hs.kind

/-- Every link leads to the element that stands for an item. -/
theorem linked (h : b.Assembled P root d) (hid : id.index < d.elements.size) {l : Link}
    {link : Option ElementId} (hl : (d.element id).data.linkAt l = some link) :
    ∃ x target, b.linked? (d.itemOf id) l = some x ∧ link = some target ∧
      d.idOf? (b.standIn x) = some target := by
  have hd := h.described hid
  obtain ⟨info, _, hs⟩ := hd.shaped
  obtain ⟨x, hx⟩ := Option.isSome_iff_exists.1 (hs.links l (by rw [hl]; rfl))
  have hlinked := hd.linked l x hx
  unfold Linked at hlinked
  rw [hl, h.tasks] at hlinked
  cases link with
  | none => cases hlinked
  | some target => exact ⟨x, target, hx, rfl, hlinked⟩

theorem unnamed (h : b.Assembled P root d) : d.Unnamed := by
  intro id attributes name hdata
  obtain ⟨info, _, hs⟩ := (h.described (lt_of_simple hdata)).shaped
  exact hs.valueName name (by rw [hdata]; rfl)

end Blueprint.Assembled

/-! ### The field of a value -/

namespace Blueprint

open Draft

variable {b : Blueprint} {P : ItemId → Prop} {root id : ElementId} {d : Draft}

/-- The last member of an object that has the name under which a value is kept until it gets its
own. -/
def valueMember? (b : Blueprint) (item : ItemId) : Option ItemId :=
  ((b.named item (b.builtChildren item)).reverse.find? fun n => n.2 = valuePlaceholder).map Prod.fst

/-- Where the field of a value leads. -/
def valueFieldPlace? (b : Blueprint) (d : Draft) (item : ItemId) : Option TypeInfoId :=
  match b.valueMember? item with
  | some member => d.places.find? member
  | none => d.valuePlaces.find? item

theorem FieldsOf.find? {named : List (ItemId × String)} {fields : List (String × TypeInfoId)}
    (h : FieldsOf d named fields) (name : String) :
    Option.Rel (fun n field => d.places.find? n.1 = some field.2)
      (named.find? fun n => n.2 = name) (fields.find? fun field => field.1 = name) := by
  unfold FieldsOf at h
  induction h with
  | nil => exact .none
  | @cons n field named fields hn _ ih =>
    rw [List.find?_cons, List.find?_cons, hn.1]
    by_cases hname : n.2 = name
    · rw [decide_eq_true hname]
      exact .some hn.2
    · rw [decide_eq_false hname]
      exact ih

theorem Assembled.valueField (h : b.Assembled P root d) (hlt : id.index < d.elements.size)
    (hk : (d.element id).kind = .simple) :
    ∃ place, b.valueFieldPlace? d (d.itemOf id) = some place ∧ d.ValueField id place := by
  obtain ⟨info, hget, hs⟩ := (h.described hlt).shaped
  have hkind := hs.kind
  rw [hk] at hkind
  have htyped := hs.typed
  unfold Typed at htyped
  rw [hkind] at htyped
  obtain ⟨place, fields, hplace, hfields, rfl⟩ := htyped
  obtain ⟨attributes, hdata⟩ : ∃ attributes,
      (d.element id).data = .simple attributes valuePlaceholder := by
    unfold Element.kind at hk
    cases hdata : (d.element id).data with
    | simple attributes name => exact ⟨attributes, by rw [hs.valueName name (by rw [hdata]; rfl)]⟩
    | _ =>
      rw [hdata] at hk
      cases hk
  have hfind := FieldsOf.find? (List.forall₂_reverse_iff.2 hfields) valuePlaceholder
  suffices hq : ∃ q, b.valueFieldPlace? d (d.itemOf id) = some q ∧
      (OrderedMap.ofList ((valuePlaceholder, place) :: fields)).find? valuePlaceholder = some q by
    obtain ⟨q, hq, hofList⟩ := hq
    exact ⟨q, hq, attributes, _, _, _, hdata, hget, hofList⟩
  have hofList : (OrderedMap.ofList ((valuePlaceholder, place) :: fields)).find? valuePlaceholder =
      ((fields.reverse.find? fun e => e.1 = valuePlaceholder).map Prod.snd).or (some place) := by
    rw [show OrderedMap.ofList ((valuePlaceholder, place) :: fields) =
      (OrderedMap.ofList [(valuePlaceholder, place)]).insertAll fields from rfl,
      OrderedMap.find?_insertAll]
    rfl
  unfold valueFieldPlace? valueMember?
  rw [hofList]
  cases hn : (b.named (d.itemOf id) (b.builtChildren (d.itemOf id))).reverse.find?
      fun n => n.2 = valuePlaceholder with
  | none =>
    rw [hn] at hfind
    cases hf : fields.reverse.find? fun e => e.1 = valuePlaceholder with
    | none => exact ⟨place, hplace, rfl⟩
    | some field =>
      rw [hf] at hfind
      cases hfind
  | some n =>
    rw [hn] at hfind
    cases hf : fields.reverse.find? fun e => e.1 = valuePlaceholder with
    | none =>
      rw [hf] at hfind
      cases hfind
    | some field =>
      rw [hf] at hfind
      cases hfind with
      | some hplace => exact ⟨field.2, hplace, rfl⟩

end Blueprint

/-! ### A completed draft -/

namespace Draft

variable {d d' : Draft}

/-- A draft has been completed to another one. -/
structure Completed (d : Draft) (root : ElementId) (d' : Draft) : Prop where
  kept : d.Kept d'
  indexed : d'.Indexed
  fields : ∀ id place, d.ValueField id place → d'.ValueField id place
  settled : ∀ id ∈ d.walk root, (d.element id).data.kind = .simple → d'.Unnarrowed id

theorem Kept.linksClosed (hk : d.Kept d') (h : d.LinksClosed) : d'.LinksClosed := by
  intro id hid l x hx
  rw [(hk.data id).linkAt] at hx
  exact h id (hk.elements ▸ hid) l x hx

theorem ValueField.of_same (hk : d.Kept d') (hdata : SameDatas d d')
    (ht : d'.typeInfos = d.typeInfos) {id : ElementId} {place : TypeInfoId}
    (h : d.ValueField id place) : d'.ValueField id place := by
  obtain ⟨attributes, name, arity, c, hd, hget, hfind⟩ := h
  refine ⟨attributes, name, arity, c, (hdata id).trans hd, ?_, hfind⟩
  rw [ht, hk.element id]
  exact hget

/-- The three passes complete a draft. -/
theorem Completed.of_passes {root : ElementId} {d₁ d₂ : Draft} (h₁ : EntriesTaken d d₁)
    (h₂ : ValuesSettled d₁ (d₁.walk root) d₂) (h₃ : Flattened d₂ d') : d.Completed root d' where
  kept := (h₁.kept.trans h₂.kept).trans h₃.kept
  indexed := h₃.indexed
  fields id place h :=
    h₃.fields id place (h₂.fields id place (h.of_same h₁.kept h₁.data h₁.typeInfos))
  settled id hid hk := by
    rw [← h₁.kept.walk root] at hid
    refine (h₂.settled id hid ?_).kept h₃.kept
    rw [(h₂.kept.data id).kind, h₁.data id]
    exact hk

end Draft

/-! ### The build of a tree -/

namespace ItemTree

open Draft

variable {t : ItemTree} {plugin : Plugin} {P : ItemId → Prop}

/-- What was built from a tree, and by way of which drafts. -/
structure BuiltBy (t : ItemTree) (plugin : Plugin) (P : ItemId → Prop) (d d' : Draft)
    (c : Compiled) : Prop where
  run : (t.blueprint plugin).assemble.run {} = .ok (c.root, d)
  assembled : (t.blueprint plugin).Assembled P c.root d
  completed : d.Completed c.root d'
  settles : Settles t d c.root d'
  closes : d'.Closes c.graph
  included : c.included = d.included t c.root

theorem build_ok (hb : (t.blueprint plugin).Closed P) {c : Compiled}
    (h : t.build plugin = .ok c) : ∃ d d', t.BuiltBy plugin P d d' c := by
  obtain ⟨⟨root, d⟩, hrun, h⟩ := bind_eq_ok h
  obtain ⟨d₁, h₁, h⟩ := bind_eq_ok h
  obtain ⟨d₂, h₂, h⟩ := bind_eq_ok h
  obtain ⟨g, hg, h⟩ := bind_eq_ok h
  cases h
  have ha := (Blueprint.ensures_assemble hb).of_ok hrun
  have hentries := takeAllEntries_ok ha.sound.indexed h₁
  have hunnamed : d₁.Unnamed := fun id attributes name hdata =>
    ha.unnamed id attributes name ((hentries.data id).symm.trans hdata)
  have hvalues := settleAllValues_ok hentries.indexed hunnamed h₂
  exact ⟨d, d₂.flattenVariants root, hrun, ha,
    .of_passes hentries hvalues (flattened_flattenVariants hvalues.indexed root),
    settles_of_passes ha.sound.indexed ha.unnamed h₁ h₂, finish_ok hg, rfl⟩

/-- A build fails at an item that fails by itself, at a value or a name that is refused, at a value
that comes to no scalar, or at a place that was never filled. -/
theorem build_error (hb : (t.blueprint plugin).Closed P) {failure : Failure}
    (h : t.build plugin = .error failure) :
    (t.blueprint plugin).Fails P failure ∨ RefusesValue failure ∨ RefusesName failure ∨
      Unresolved failure ∧ ∃ root d, (t.blueprint plugin).Assembled P root d ∧
        (d.Unscaled ∨ ∃ d' place, d.Completed root d' ∧ place.index < d'.typeInfos.size ∧
          d'.typeInfos.get? place = none) := by
  rcases bind_eq_error h with h | ⟨⟨root, d⟩, hrun, h⟩
  · exact .inl ((Blueprint.ensures_assemble hb).of_error h)
  have ha := (Blueprint.ensures_assemble hb).of_ok hrun
  rcases bind_eq_error h with h | ⟨d₁, h₁, h⟩
  · exact .inr (.inl (takeAllEntries_error h))
  have hentries := takeAllEntries_ok ha.sound.indexed h₁
  have hunnamed : d₁.Unnamed := fun id attributes name hdata =>
    ha.unnamed id attributes name ((hentries.data id).symm.trans hdata)
  rcases bind_eq_error h with h | ⟨d₂, h₂, h⟩
  · refine .inr (.inr ?_)
    rcases settleAllValues_error hentries.indexed hunnamed h with h | ⟨hu, hscale⟩
    · exact .inl h
    · exact .inr ⟨hu, root, d, ha, .inl (hscale.of_kept hentries.kept)⟩
  have hvalues := settleAllValues_ok hentries.indexed hunnamed h₂
  have hcompleted := Completed.of_passes hentries hvalues
    (flattened_flattenVariants hvalues.indexed root)
  rcases bind_eq_error h with h | ⟨_, _, h⟩
  · have hlinks : d.LinksClosed := fun id hid l x hx => by
      obtain ⟨_, _, _, rfl, _⟩ := ha.linked hid hx
      rfl
    obtain ⟨place, hlt, hnone, rfl⟩ := finish_error (hcompleted.kept.linksClosed hlinks) h
    exact .inr (.inr (.inr ⟨⟨_, rfl⟩, root, d, ha, .inr ⟨_, place, hcompleted, hlt, hnone⟩⟩))
  · cases h

end ItemTree
end Schemata
