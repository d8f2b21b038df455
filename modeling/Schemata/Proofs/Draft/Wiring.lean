import Schemata.Proofs.Draft.Changes

/-! What pointing a link at an element changes.

The link holds the element, and an element that becomes a base remembers the one
that is based on it. Whatever else an element has stays. -/
namespace Schemata

namespace ElementData

/-- With a link, if there is such a link, holding `x`. -/
def setLink {link : Type} : ElementData link → Link → link → ElementData link
  | compound children definitions bases derived, .base index, x =>
    compound children definitions (bases.set index x) derived
  | variant variations, .variation index, x => variant (variations.set index x)
  | reference _, .target, x => reference x
  | list _, .target, x => list x
  | data, _, _ => data

/-- With one more element based on this one. -/
def noteDerived {link : Type} : ElementData link → ElementId → ElementData link
  | compound children definitions bases derived, id =>
    compound children definitions bases (derived ++ [id])
  | data, _ => data

variable {link : Type} (data : ElementData link)

theorem linkAt_setLink (l l' : Link) (x : link) :
    (data.setLink l x).linkAt l' =
      if l' = l ∧ (data.linkAt l).isSome then some x else data.linkAt l' := by
  have hset : ∀ (links : List link) (i i' : Nat), (links.set i x)[i']? =
      if i' = i ∧ (links[i]?).isSome then some x else links[i']? := by
    intro links i i'
    rw [List.getElem?_set]
    by_cases h : i = i'
    · subst h
      by_cases hlt : i < links.length <;> simp [hlt]
    · have h' : ¬i' = i := fun e => h e.symm
      simp [h, h']
  cases data <;> cases l <;> cases l' <;> simp [setLink, linkAt, hset]

theorem linkAt_noteDerived (id : ElementId) (l : Link) :
    (data.noteDerived id).linkAt l = data.linkAt l := by
  cases data <;> cases l <;> rfl

/-- Alike in all that is neither a link nor what is based on the element. -/
structure SameParts (data data' : ElementData link) : Prop where
  kind : data'.kind = data.kind
  members : data'.members = data.members
  definitions : data'.definitions = data.definitions
  valueName : data'.valueName? = data.valueName?
  links : ∀ l, (data'.linkAt l).isSome = (data.linkAt l).isSome

theorem sameParts_setLink (l : Link) (x : link) : SameParts data (data.setLink l x) := by
  have hlinks : ∀ l', ((data.setLink l x).linkAt l').isSome = (data.linkAt l').isSome :=
      fun l' => by
    rw [linkAt_setLink]
    split
    · next h => rw [h.1, h.2]; rfl
    · rfl
  cases data <;> cases l <;> exact ⟨rfl, rfl, rfl, rfl, hlinks⟩

theorem sameParts_noteDerived (id : ElementId) : SameParts data (data.noteDerived id) := by
  have hlinks : ∀ l, ((data.noteDerived id).linkAt l).isSome = (data.linkAt l).isSome := fun l => by
    rw [linkAt_noteDerived]
  cases data <;> exact ⟨rfl, rfl, rfl, rfl, hlinks⟩

/-- Everything that the data of an element names. -/
def named (data : ElementData (Option ElementId)) : List ElementId :=
  data.owned (fun link => link) ++ data.crossing fun link => link

theorem mem_named_setLink {data : ElementData (Option ElementId)} {l : Link} {target x : ElementId}
    (h : x ∈ (data.setLink l (some target)).named) : x ∈ data.named ∨ x = target := by
  have hset : ∀ (links : List (Option ElementId)) (index : Nat),
      some x ∈ links.set index (some target) → some x ∈ links ∨ x = target := by
    intro links index h
    rcases List.mem_or_eq_of_mem_set h with h | h
    · exact .inl h
    · exact .inr (Option.some.inj h)
  cases data <;> cases l <;> simp only [setLink] at h <;> try exact .inl h
  · next children definitions bases derived index =>
    simp only [named, ElementData.owned, crossing, List.mem_append, List.mem_filterMap,
      exists_eq_right] at h ⊢
    rcases h with h | h | h
    · exact .inl (.inl h)
    · exact (hset bases index h).imp_left fun h => .inr (.inl h)
    · exact .inl (.inr (.inr h))
  · next variations index =>
    simp only [named, ElementData.owned, crossing, List.mem_append, List.mem_filterMap,
      exists_eq_right, List.not_mem_nil, or_false] at h ⊢
    exact hset variations index h
  · exact .inr (by simpa [named, ElementData.owned, crossing] using h)
  · exact .inr (by simpa [named, ElementData.owned, crossing] using h)

theorem mem_named_noteDerived {data : ElementData (Option ElementId)} {id x : ElementId}
    (h : x ∈ (data.noteDerived id).named) : x ∈ data.named ∨ x = id := by
  cases data <;> simp only [noteDerived] at h <;> try exact .inl h
  simp only [named, ElementData.owned, crossing, List.mem_append, List.mem_singleton] at h ⊢
  rcases h with h | h | h | h
  · exact .inl (.inl h)
  · exact .inl (.inr (.inl h))
  · exact .inl (.inr (.inr h))
  · exact .inr h

end ElementData

open ElementData

theorem Element.mem_mentioned (e : Element (Option ElementId)) (x : ElementId) :
    x ∈ e.mentioned ↔ e.parent = some x ∨ x ∈ e.extensions ∨ x ∈ e.data.named := by
  unfold mentioned edgesBy ownedBy named
  simp only [List.mem_append, Option.mem_toList]
  tauto

theorem Element.withData_eq_self {e : Element (Option ElementId)}
    {data : ElementData (Option ElementId)} (h : data = e.data) : { e with data } = e := by
  rw [h]

namespace Draft

variable (d : Draft)

theorem modifyElement_congr {id : ElementId}
    {f g : Element (Option ElementId) → Element (Option ElementId)}
    (h : f (d.element id) = g (d.element id)) : d.modifyElement id f = d.modifyElement id g := by
  unfold modifyElement
  congr 1
  refine Array.ext (by simp) fun i hi _ => ?_
  simp only [Array.size_modify] at hi
  simp only [Array.getElem_modify]
  split
  · next he =>
    have helement : d.element id = d.elements[i].element := by
      simp [element, draftElement, he, hi]
    rw [helement] at h
    rw [h]
  · rfl

theorem modifyElement_self {id : ElementId}
    {f : Element (Option ElementId) → Element (Option ElementId)}
    (h : f (d.element id) = d.element id) : d.modifyElement id f = d := by
  rw [modifyElement_congr d (g := fun e => e) h]
  unfold modifyElement
  have hid : d.elements.modify id.index (fun e => { e with element := e.element }) =
      d.elements := by
    refine Array.ext (by simp) fun i _ _ => ?_
    simp only [Array.getElem_modify]
    split <;> rfl
  rw [hid]

/-- With a link of an element holding another one. -/
def pointed (owner : ElementId) (l : Link) (target : ElementId) : Draft :=
  d.modifyElement owner fun e => { e with data := e.data.setLink l (some target) }

/-- With an element remembering one that is based on it. -/
def noted (target owner : ElementId) : Draft :=
  d.modifyElement target fun e => { e with data := e.data.noteDerived owner }

theorem data_pointed (owner : ElementId) (l : Link) (target id : ElementId) :
    ((d.pointed owner l target).element id).data =
      if id = owner then (d.element id).data.setLink l (some target) else (d.element id).data := by
  unfold pointed
  rw [element_modifyElement]
  by_cases hid : id = owner
  · by_cases hlt : id.index < d.elements.size
    · rw [if_pos ⟨hid, hlt⟩, if_pos hid]
    · rw [if_neg fun h => hlt h.2, if_pos hid, element_of_size_le (Nat.le_of_not_lt hlt)]
      cases l <;> rfl
  · rw [if_neg fun h => hid h.1, if_neg hid]

theorem data_noted (target owner id : ElementId) :
    ((d.noted target owner).element id).data =
      if id = target then (d.element id).data.noteDerived owner else (d.element id).data := by
  unfold noted
  rw [element_modifyElement]
  by_cases hid : id = target
  · by_cases hlt : id.index < d.elements.size
    · rw [if_pos ⟨hid, hlt⟩, if_pos hid]
    · rw [if_neg fun h => hlt h.2, if_pos hid, element_of_size_le (Nat.le_of_not_lt hlt)]
      rfl
  · rw [if_neg fun h => hid h.1, if_neg hid]

/-- What becomes a base remembers what is based on it. -/
theorem wire_base {owner : ElementId} (hk : (d.element owner).data.kind = .compound) (index : Nat)
    (target : ElementId) : d.wire owner (.base index) target =
      (d.pointed owner (.base index) target).noted target owner := by
  cases hdata : (d.element owner).data with
  | compound children definitions bases derived =>
    have hpoint : d.setData owner
        (.compound children definitions (bases.set index (some target)) derived) =
          d.pointed owner (.base index) target :=
      modifyElement_congr d (by rw [hdata]; rfl)
    unfold wire
    rw [hdata]
    dsimp only
    rw [hpoint]
    split
    · next hdata' => exact modifyElement_congr _ (by rw [hdata']; rfl)
    · next hnot =>
      refine (modifyElement_self _ (Element.withData_eq_self ?_)).symm
      cases htarget : ((d.pointed owner (.base index) target).element target).data with
      | compound c df bs dr => exact absurd htarget (hnot c df bs dr)
      | _ => rfl
  | _ =>
    rw [hdata] at hk
    cases hk

/-- Nothing else remembers anything. -/
theorem wire_other {owner : ElementId} {l : Link}
    (h : (d.element owner).data.kind ≠ .compound ∨ ∀ index, l ≠ .base index)
    (target : ElementId) : d.wire owner l target = d.pointed owner l target := by
  unfold wire
  split
  · next index _ _ _ _ hdata =>
    rcases h with hk | hl
    · exact absurd (by rw [hdata]; rfl) hk
    · exact absurd rfl (hl index)
  · next hdata => exact modifyElement_congr d (by rw [hdata]; rfl)
  · next hdata => exact modifyElement_congr d (by rw [hdata]; rfl)
  · next hdata => exact modifyElement_congr d (by rw [hdata]; rfl)
  · next l _ _ h₁ h₂ h₃ h₄ =>
    refine (modifyElement_self d (Element.withData_eq_self ?_)).symm
    cases l <;> cases hdata : (d.element owner).data <;> first
      | rfl
      | exact absurd hdata (h₁ _ _ _ _ _ rfl)
      | exact absurd hdata (h₂ _ _ rfl)
      | exact absurd hdata (h₃ _ rfl)
      | exact absurd hdata (h₄ _ rfl)

theorem wire_eq (owner : ElementId) (l : Link) (target : ElementId) :
    d.wire owner l target = d.pointed owner l target ∨
      d.wire owner l target = (d.pointed owner l target).noted target owner := by
  by_cases hk : (d.element owner).data.kind = .compound
  · cases l with
    | base index => exact .inr (d.wire_base hk index target)
    | variation index => exact .inl (d.wire_other (.inr fun _ he => by cases he) target)
    | target => exact .inl (d.wire_other (.inr fun _ he => by cases he) target)
  · exact .inl (d.wire_other (.inl hk) target)

end Draft
end Schemata
