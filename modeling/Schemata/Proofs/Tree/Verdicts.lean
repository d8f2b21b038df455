import Schemata.Proofs.Tree.Leading

/-! What classifying makes of every item.

An item is judged by where its references lead and by what it says itself. How far
the pass has got makes no difference to that: what is not classified yet is judged
as it would be before anything is classified (`Classifying.verdict_eq`). So the
result can be read off the tree that the pass starts from, item by item, but for the
ids of the synthetic children. -/
namespace Schemata.ItemTree

open Search

variable {t t' : ItemTree} {id x y c target : ItemId} {type : Fundamental} {done : List ItemId}

/-! ### Verdicts -/

/-- What an item turns out to be. -/
inductive Verdict
  /-- Of a kind, and nothing else changes. -/
  | plain (kind : Kind)
  /-- A simple object that hands its fundamental type to a synthetic child. -/
  | split (type : Fundamental)
  | list
  | reference

/-- Without what it says about refining the arity. -/
def withoutRefinesArity (i : Item) : Item :=
  { i with metadata := i.metadata.erase Key.refinesArity }

/-- Remembering what it says about its target. -/
def withRefinement (i : Item) : Item :=
  { i with refinement := some ⟨i.hasExplicitArity, Metadata.explicitKeys i.metadata⟩ }

/-- What becomes of an item, where `c` is its synthetic child if it gets one. -/
def Verdict.apply (c : ItemId) (i : Item) : Verdict → Item
  | plain k => withKind k i
  | split type => withKind .simple (withFirstChild c (withoutFundamental type i))
  | list => withKind .list (withoutRefinesArity i)
  | reference => withKind .reference (withRefinement (withoutRefinesArity i))

def objectVerdict (t : ItemTree) (id : ItemId) : Option Verdict :=
  if (t.item id).parent.isNone || !t.reachesFundamental id then some (.plain .compound)
  else
    match t.ownFundamentals id with
    | [] => some (.plain .simple)
    | [type] => some (.split type)
    | _ => none

def linkVerdict (t : ItemTree) (id target : ItemId) : Option Verdict :=
  (readRefinesArity (t.item id).metadata >>= t.isList id target).toOption.map fun isList =>
    if isList then .list else .reference

def declarationVerdict (t : ItemTree) (id : ItemId) : Option Verdict :=
  if !(t.item id).alternatives.isEmpty then some (.plain .variant)
  else
    match (t.item id).target? with
    | none => none
    | some (.builtin (.fundamental _)) => some (.plain .fundamental)
    | some (.builtin .any) => some (.plain .any)
    | some (.builtin .custom) => some (.plain .custom)
    | some (.item target) => t.linkVerdict id target

/-- What an item without a kind turns out to be, unless there is something wrong with it. -/
def verdict (t : ItemTree) (id : ItemId) : Option Verdict :=
  match (t.item id).form with
  | .extension => some (.plain .extension)
  | .object => t.objectVerdict id
  | .declaration => t.declarationVerdict id

/-- The tree once an item has become what it turns out to be. -/
def enact (t : ItemTree) (id : ItemId) : Verdict → ItemTree
  | .split type => t.splitSimple id type
  | v => t.modify id (Verdict.apply t.nextId · v)

/-! ### One item -/

theorem TalliesWith.declaredArity (h : t.TalliesWith t') : t'.declaredArity = t.declaredArity := by
  have hstep : t'.declaredArityStep = t.declaredArityStep := by
    funext x
    unfold declaredArityStep
    dsimp only
    rw [h.arity, h.field Item.form fun _ => rfl, h.field Item.alternatives fun _ => rfl,
      h.field Item.target? fun _ => rfl]
  funext x
  unfold ItemTree.declaredArity circular
  rw [hstep, h.size, h.qualifiedName, h.field Item.location fun _ => rfl]

theorem declaredArity_eq_ok_iff {a : Arity} :
    t.declaredArity x = .ok a ↔ Ends t.declaredArityStep x a := by
  have hgo : ∀ x y, t.declaredArityStep x = .go y → x ∈ t.ids := fun x y hxy => by
    refine (t.mem_ids x).2 (Nat.lt_of_not_le fun hle => ?_)
    unfold declaredArityStep at hxy
    rw [item_of_size_le hle] at hxy
    cases hxy
  rw [← chase_eq_ended_iff hgo (show t.ids.length < t.size + 1 by simp [ids])]
  unfold ItemTree.declaredArity
  cases chase t.declaredArityStep (t.size + 1) x with
  | ended r => simp
  | looped node => simp

theorem toOption_classifyLink (hid : id.index < t.size) :
    (t.classifyLink id target).toOption = (t.linkVerdict id target).map (t.enact id) := by
  have hkept : t.TalliesWith (t.modify id withoutRefinesArity) :=
    .of_modify (fun _ => rfl) .inl fun _ => rfl
  have hlist : (t.modify id withoutRefinesArity).isList id target = t.isList id target := by
    obtain ⟨harity, hexplicit, _⟩ := Item.of_tally (hkept.tally id)
    funext refines
    unfold isList
    dsimp only
    rw [harity, hexplicit, hkept.declaredArity]
  have hmodify : ∀ f g : Item → Item,
      (t.modify id f).modify id g = t.modify id fun i => g (f i) := fun f g => by
    refine ext_item (by simp) fun x => ?_
    by_cases hx : x = id
    · rw [hx, item_modify_self _ (by simpa using hid), item_modify_self t hid,
        item_modify_self t hid]
    · rw [item_modify_of_ne _ hx, item_modify_of_ne t hx, item_modify_of_ne t hx]
  unfold classifyLink linkVerdict
  dsimp only
  rw [show (t.modify id fun i => { i with metadata := i.metadata.erase Key.refinesArity }) =
    t.modify id withoutRefinesArity from rfl, hlist]
  cases readRefinesArity (t.item id).metadata >>= t.isList id target with
  | error e => rfl
  | ok list =>
    cases list with
    | true => exact congrArg some (hmodify withoutRefinesArity (withKind .list))
    | false =>
      refine congrArg some ?_
      rw [setKind_eq, hmodify, hmodify]
      rfl

/-- Classifying an item is to judge it, and to make it what it turns out to be. -/
theorem toOption_classifyItem (hid : id.index < t.size) (hk : (t.item id).kind = none) :
    (t.classifyItem id).toOption = (t.verdict id).map (t.enact id) := by
  unfold classifyItem verdict
  rw [hk, if_neg (by simp)]
  cases (t.item id).form with
  | extension => rfl
  | object =>
    dsimp only
    unfold classifyObject objectVerdict
    split
    · rfl
    · cases t.ownFundamentals id with
      | nil => rfl
      | cons type rest =>
        cases rest with
        | nil => rfl
        | cons type' rest => rfl
  | declaration =>
    dsimp only
    unfold classifyDeclaration declarationVerdict
    dsimp only
    split
    · rfl
    · cases (t.item id).target? with
      | none => rfl
      | some target =>
        cases target with
        | item target => exact toOption_classifyLink hid
        | builtin b => cases b <;> rfl

theorem classifyItem_known (hk : (t.item id).kind.isSome) : t.classifyItem id = .ok t := by
  unfold classifyItem
  rw [if_pos hk]

section Enact

variable (hid : id.index < t.size)
include hid

theorem item_enact_self (v : Verdict) :
    (t.enact id v).item id = v.apply t.nextId (t.item id) := by
  cases v with
  | split type => exact item_splitSimple_self hid
  | plain k => exact item_modify_self t hid _
  | list => exact item_modify_self t hid _
  | reference => exact item_modify_self t hid _

theorem item_enact_old (v : Verdict) (hx : x.index < t.size) (hne : x ≠ id) :
    (t.enact id v).item x = t.item x := by
  cases v with
  | split type => exact item_splitSimple_other hid hne (ne_nextId hx)
  | plain k => exact item_modify_of_ne t hne _
  | list => exact item_modify_of_ne t hne _
  | reference => exact item_modify_of_ne t hne _

/-- What is new is a synthetic child. -/
theorem split_of_new {v : Verdict} (hle : t.size ≤ x.index) (hlt : x.index < (t.enact id v).size) :
    x = t.nextId ∧ ∃ type, v = .split type ∧ (t.enact id v).item x =
      { syntheticFor (t.item id) type with id := x, parent := some id } := by
  cases v with
  | split type =>
    have hlt' : x.index < t.size + 1 := (size_splitSimple t id type) ▸ hlt
    obtain rfl : x = t.nextId := eq_nextId hle hlt'
    exact ⟨rfl, type, rfl, item_splitSimple_nextId hid⟩
  | plain k => exact absurd (size_modify t id _ ▸ hlt) (Nat.not_lt.2 hle)
  | list => exact absurd (size_modify t id _ ▸ hlt) (Nat.not_lt.2 hle)
  | reference => exact absurd (size_modify t id _ ▸ hlt) (Nat.not_lt.2 hle)

end Enact

/-! ### Where the pass has got to -/

namespace Verdict

variable {v : Verdict} {i : Item}

@[simp] theorem apply_form : (v.apply c i).form = i.form := by cases v <;> rfl
@[simp] theorem apply_name : (v.apply c i).name = i.name := by cases v <;> rfl
@[simp] theorem apply_arity : (v.apply c i).arity = i.arity := by cases v <;> rfl
@[simp] theorem apply_alternatives : (v.apply c i).alternatives = i.alternatives := by
  cases v <;> rfl
@[simp] theorem apply_hasExplicitArity : (v.apply c i).hasExplicitArity = i.hasExplicitArity := by
  cases v <;> rfl
@[simp] theorem apply_kind_isSome : (v.apply c i).kind.isSome := by cases v <;> rfl

theorem apply_references (hv : ∀ type, v ≠ .split type) :
    (v.apply c i).references = i.references := by
  cases v with
  | split type => exact absurd rfl (hv type)
  | plain k => rfl
  | list => rfl
  | reference => rfl

end Verdict

/-- A declaration keeps its references. -/
theorem declarationVerdict_cases {v : Verdict} (h : t.declarationVerdict id = some v) :
    v ∈ [.plain .variant, .plain .fundamental, .plain .any, .plain .custom, .list,
      Verdict.reference] := by
  unfold declarationVerdict at h
  split at h
  · cases h
    simp
  · split at h
    · cases h
    · cases h
      simp
    · cases h
      simp
    · cases h
      simp
    · obtain ⟨list, _, hlist⟩ := Option.map_eq_some_iff.1 h
      cases list <;> cases hlist <;> simp

/-- What hands over a fundamental type is an object with that one. -/
theorem object_of_split (h : t.verdict id = some (.split type)) :
    (t.item id).form = .object ∧ t.ownFundamentals id = [type] := by
  unfold verdict at h
  split at h
  · cases h
  · next hform =>
    unfold objectVerdict at h
    split at h
    · cases h
    · split at h
      · cases h
      · next hown =>
        cases h
        exact ⟨hform, hown⟩
      · cases h
  · simpa using declarationVerdict_cases h

/-- What turns out to be a list or a reference is judged as such. -/
theorem link_of_kind {v : Verdict} {i : Item} (h : t.verdict id = some v)
    (hk : (v.apply c i).kind = some .list ∨ (v.apply c i).kind = some .reference) :
    v = .list ∨ v = .reference := by
  have hplain : ∀ k : Kind, k ≠ .list → k ≠ .reference → v ≠ .plain k := by
    rintro k hl hr rfl
    exact hk.elim (fun he => hl (Option.some.inj he)) fun he => hr (Option.some.inj he)
  unfold verdict at h
  split at h
  · cases h
    exact absurd rfl (hplain .extension nofun nofun)
  · unfold objectVerdict at h
    split at h
    · cases h
      exact absurd rfl (hplain .compound nofun nofun)
    · split at h
      · cases h
        exact absurd rfl (hplain .simple nofun nofun)
      · cases h
        exact hk.elim nofun nofun
      · cases h
  · have hcases := declarationVerdict_cases h
    simp only [List.mem_cons, List.not_mem_nil, or_false] at hcases
    rcases hcases with rfl | rfl | rfl | rfl | rfl | rfl
    · exact absurd rfl (hplain .variant nofun nofun)
    · exact absurd rfl (hplain .fundamental nofun nofun)
    · exact absurd rfl (hplain .any nofun nofun)
    · exact absurd rfl (hplain .custom nofun nofun)
    · exact .inl rfl
    · exact .inr rfl

/-- What turns out to be a reference remembers what it says about its target. -/
theorem reference_of_kind {v : Verdict} {i : Item} (h : t.verdict id = some v)
    (hk : (v.apply c i).kind = some .reference) : v = .reference := by
  rcases link_of_kind h (.inr hk) with rfl | rfl
  · cases hk
  · rfl

/-- The items in `done` have become what they turned out to be, the others are as they were, and
what is new are synthetic children. -/
structure Classifying (t : ItemTree) (done : List ItemId) (t' : ItemTree) : Prop where
  refined : t.Refined t'
  leads : ∀ x, x.index < t.size → (t'.LeadsToScalar x ↔ t.LeadsToScalar x)
  pending : ∀ x, x.index < t.size → x ∉ done → t'.item x = t.item x
  classified : ∀ x ∈ done, x.index < t.size ∧
    ∃ v c, t.verdict x = some v ∧ t'.item x = v.apply c (t.item x) ∧
      ∀ type, v = .split type → t.size ≤ c.index ∧ c.index < t'.size
  new : ∀ c, t.size ≤ c.index → c.index < t'.size → ∃ x ∈ done, ∃ type,
    t.verdict x = some (.split type) ∧ t'.item x = Verdict.apply c (t.item x) (.split type) ∧
      t'.item c = { syntheticFor (t.item x) type with id := c, parent := some x }

namespace Classifying

theorem start (h : t.WellFormed) : t.Classifying [] t where
  refined := .refl h
  leads _ _ := Iff.rfl
  pending _ _ _ := rfl
  classified _ hx := absurd hx List.not_mem_nil
  new _ hle hlt := absurd hlt (Nat.not_lt.2 hle)

variable (h : t.Classifying done t')
include h

theorem declaredArityStep : t'.declaredArityStep = t.declaredArityStep := by
  funext x
  unfold ItemTree.declaredArityStep
  by_cases hx : x.index < t.size
  · by_cases hdone : x ∈ done
    · obtain ⟨v, c, hv, he, _⟩ := (h.classified x hdone).2
      rw [he]
      by_cases hform : (t.item x).form = .declaration
      · have hne : ∀ type, v ≠ .split type := fun type hs => by
          rw [(object_of_split (hs ▸ hv)).1] at hform
          cases hform
        unfold Item.target?
        simp [v.apply_references hne]
      · simp [hform]
    · rw [h.pending x hx hdone]
  · rw [item_of_size_le (Nat.le_of_not_lt hx)]
    by_cases hx' : x.index < t'.size
    · obtain ⟨_, _, type, _, _, he⟩ := h.new x (Nat.le_of_not_lt hx) hx'
      rw [he]
      rfl
    · rw [item_of_size_le (Nat.le_of_not_lt hx')]

/-- What is pending is judged as it would be before anything is classified. -/
theorem verdict_eq (ht : t.Regular) (hk : (t.item id).kind = none) (hid : id.index < t.size)
    (hpending : id ∉ done) : t'.verdict id = t.verdict id := by
  have hitem := h.pending id hid hpending
  have hreaches : t'.reachesFundamental id = t.reachesFundamental id := by
    rw [Bool.eq_iff_iff, ht.reachesFundamental_iff hid hk,
      h.refined.wellFormed.regular.reachesFundamental_iff
        (Nat.lt_of_lt_of_le hid h.refined.grown.size) (hitem.symm ▸ hk), h.leads id hid]
  have hobject : t'.objectVerdict id = t.objectVerdict id := by
    unfold objectVerdict ownFundamentals
    rw [hreaches, hitem]
  have harity : ∀ target, (t'.declaredArity target).toOption =
      (t.declaredArity target).toOption := fun target => by
    refine Option.ext fun a => ?_
    rw [toOption_eq_some_iff, toOption_eq_some_iff, declaredArity_eq_ok_iff,
      declaredArity_eq_ok_iff, h.declaredArityStep]
  have hlink : ∀ target, t'.linkVerdict id target = t.linkVerdict id target := fun target => by
    unfold linkVerdict
    rw [hitem]
    cases readRefinesArity (t.item id).metadata with
    | error e => rfl
    | ok refines =>
      refine congrArg (Option.map _) (?_ : (t'.isList id target refines).toOption =
        (t.isList id target refines).toOption)
      unfold isList
      rw [hitem]
      dsimp only
      split
      · rw [toOption_map, toOption_map, harity]
      · rfl
  unfold verdict declarationVerdict
  rw [hitem, hobject, funext hlink]

/-- What is classified already may come again. -/
theorem again (hid : id ∈ done) : t.Classifying (done ++ [id]) t' := by
  have hmem : ∀ x, x ∈ done ++ [id] ↔ x ∈ done := fun x => by
    rw [List.mem_append, List.mem_singleton]
    exact ⟨fun hx => hx.elim (fun hx => hx) fun he => he ▸ hid, .inl⟩
  refine ⟨h.refined, h.leads, fun x hx hn => h.pending x hx fun hx => hn ((hmem x).2 hx),
    fun x hx => h.classified x ((hmem x).1 hx), fun c hle hlt => ?_⟩
  obtain ⟨x, hx, hnew⟩ := h.new c hle hlt
  exact ⟨x, (hmem x).2 hx, hnew⟩

/-- A pending item becomes what it turns out to be. -/
theorem enacted {v : Verdict} (hid : id.index < t.size) (hpending : id ∉ done)
    (hv : t.verdict id = some v) (hr : t'.Refined (t'.enact id v))
    (hleads : ∀ x, x.index < t'.size →
      ((t'.enact id v).LeadsToScalar x ↔ t'.LeadsToScalar x)) :
    t.Classifying (done ++ [id]) (t'.enact id v) := by
  have hlt : ∀ x : ItemId, x.index < t.size → x.index < t'.size := fun x hx =>
    Nat.lt_of_lt_of_le hx h.refined.grown.size
  have hitem := h.pending id hid hpending
  have hself : (t'.enact id v).item id = v.apply t'.nextId (t.item id) :=
    hitem ▸ item_enact_self (hlt id hid) v
  have hsame : ∀ x, x.index < t'.size → x ≠ id → (t'.enact id v).item x = t'.item x :=
    fun x hx hne => item_enact_old (hlt id hid) v hx hne
  have hold : ∀ x ∈ done, (t'.enact id v).item x = t'.item x := fun x hx =>
    hsame x (hlt x (h.classified x hx).1) fun he => hpending (he ▸ hx)
  refine ⟨h.refined.trans hr, fun x hx => (hleads x (hlt x hx)).trans (h.leads x hx),
    fun x hx hn => ?_, fun x hx => ?_, fun c hle hc => ?_⟩
  · rw [List.mem_append, List.mem_singleton, not_or] at hn
    rw [hsame x (hlt x hx) hn.2]
    exact h.pending x hx hn.1
  · rcases List.mem_append.1 hx with hx | hx
    · rw [hold x hx]
      obtain ⟨hx', w, c, hw, he, hc⟩ := h.classified x hx
      exact ⟨hx', w, c, hw, he, fun type hs =>
        ⟨(hc type hs).1, Nat.lt_of_lt_of_le (hc type hs).2 hr.grown.size⟩⟩
    · obtain rfl := List.mem_singleton.1 hx
      refine ⟨hid, v, t'.nextId, hv, hself, fun type hs => ⟨h.refined.grown.size, ?_⟩⟩
      rw [hs]
      exact (size_splitSimple t' x type).symm ▸ Nat.lt_succ_self t'.size
  · by_cases hc' : c.index < t'.size
    · obtain ⟨x, hx, type, hvx, hxc, hcx⟩ := h.new c hle hc'
      have hne : c ≠ id := fun he => Nat.not_lt.2 hle (he ▸ hid)
      exact ⟨x, List.mem_append_left _ hx, type, hvx, (hold x hx).trans hxc,
        (hsame c hc' hne).trans hcx⟩
    · obtain ⟨rfl, type, rfl, hnew⟩ := split_of_new (hlt id hid) (Nat.le_of_not_lt hc') hc
      rw [hitem] at hnew
      exact ⟨id, by simp, type, hv, hself, hnew⟩

/-- The next item becomes what it turns out to be, if nothing is wrong with it. -/
theorem step (ht : t.WellFormed) (hb : t.AllBound) (hk : ∀ x, (t.item x).kind = none)
    (hid : id.index < t.size) :
    (∀ t'', t'.classifyItem id = .ok t'' → t.Classifying (done ++ [id]) t'') ∧
      ∀ e, t'.classifyItem id = .error e → t.verdict id = none := by
  have hid' : id.index < t'.size := Nat.lt_of_lt_of_le hid h.refined.grown.size
  by_cases hdone : id ∈ done
  · have hknown : (t'.item id).kind.isSome := by
      obtain ⟨v, c, _, he, _⟩ := (h.classified id hdone).2
      rw [he]
      exact v.apply_kind_isSome
    rw [classifyItem_known hknown]
    refine ⟨fun t'' he => ?_, fun e he => by cases he⟩
    cases he
    exact h.again hdone
  · have hjudged := toOption_classifyItem hid' (h.pending id hid hdone ▸ hk id)
    rw [h.verdict_eq ht.regular (hk id) hid hdone] at hjudged
    cases hv : t.verdict id with
    | none =>
      rw [hv] at hjudged
      refine ⟨fun t'' he => ?_, fun _ _ => rfl⟩
      rw [he] at hjudged
      cases hjudged
    | some v =>
      rw [hv] at hjudged
      have he := eq_ok_of_toOption hjudged
      refine ⟨fun t'' he' => ?_, fun e he' => by rw [he] at he'; cases he'⟩
      obtain rfl : t'.enact id v = t'' := Except.ok.inj (he.symm.trans he')
      have hc := (classification_classifyItem t' id).1 _ he
      exact h.enacted hid hdone hv
        (hc.refined h.refined.wellFormed (fun y => h.refined.bound y (hb y)) hid')
        fun x hx => hc.leadsToScalar h.refined.wellFormed.regular hid' hx

end Classifying

/-! ### All items -/

/-- Every item has become what it turned out to be, and what is new are synthetic children. -/
structure ClassifiedFrom (t t' : ItemTree) : Prop where
  refined : t.Refined t'
  leads : ∀ x, x.index < t.size → (t'.LeadsToScalar x ↔ t.LeadsToScalar x)
  old : ∀ x, x.index < t.size →
    ∃ v c, t.verdict x = some v ∧ t'.item x = v.apply c (t.item x) ∧
      ∀ type, v = .split type → t.size ≤ c.index ∧ c.index < t'.size
  new : ∀ c, t.size ≤ c.index → c.index < t'.size → ∃ x type, x.index < t.size ∧
    t.verdict x = some (.split type) ∧ t'.item x = Verdict.apply c (t.item x) (.split type) ∧
      t'.item c = { syntheticFor (t.item x) type with id := c, parent := some x }

namespace ClassifiedFrom

variable (h : t.ClassifiedFrom t')
include h

/-- The synthetic child of an object that hands over its fundamental type. -/
theorem child (hx : x.index < t.size) (hv : t.verdict x = some (.split type)) :
    ∃ c, t.size ≤ c.index ∧ c.index < t'.size ∧
      t'.item x = Verdict.apply c (t.item x) (.split type) ∧
      t'.item c = { syntheticFor (t.item x) type with id := c, parent := some x } ∧
      t'.syntheticChild x = some c := by
  obtain ⟨v, c, hv', he, hc⟩ := h.old x hx
  obtain rfl : v = .split type := Option.some.inj (hv'.symm.trans hv)
  obtain ⟨hle, hlt⟩ := hc type rfl
  obtain ⟨x', type', hx', hv'', _, hitem⟩ := h.new c hle hlt
  have hmem : c ∈ (t'.item x).children := by
    rw [he]
    exact List.mem_cons_self
  have hparent := (h.refined.wellFormed.rooted.listed x c (List.mem_append_right _ hmem)).2
  obtain rfl : x' = x := by
    rw [hitem] at hparent
    exact Option.some.inj hparent
  obtain rfl : type' = type := by
    rw [hv] at hv''
    cases hv''
    rfl
  refine ⟨c, hle, hlt, he, hitem, ?_⟩
  unfold syntheticChild
  rw [he]
  show (c :: (t.item x').children).find? _ = _
  rw [List.find?_cons, hitem]
  rfl

end ClassifiedFrom

/-- What a classification comes to. -/
theorem classifiedFrom_of_classify (ht : t.WellFormed) (hb : t.AllBound)
    (hk : ∀ x, (t.item x).kind = none) (hok : t.classify = .ok t') : t.ClassifiedFrom t' := by
  have hall : t.Classifying t.walk t' := by
    refine foldlM_ok (fun done t' => t.Classifying done t') hok (.start ht)
      fun done id rest t₁ t₂ hwalk hinv hstep => ?_
    exact (hinv.step ht hb hk (ht.rooted.mem_walk_iff.1 (by rw [hwalk]; simp))).1 t₂ hstep
  refine ⟨hall.refined, hall.leads,
    fun x hx => (hall.classified x (ht.rooted.mem_walk_iff.2 hx)).2, fun c hle hlt => ?_⟩
  obtain ⟨x, hx, type, hnew⟩ := hall.new c hle hlt
  exact ⟨x, type, ht.rooted.mem_walk_iff.1 hx, hnew⟩

/-- A classification succeeds as soon as nothing is wrong with any item. -/
theorem classify_ok_of_verdicts (ht : t.WellFormed) (hb : t.AllBound)
    (hk : ∀ x, (t.item x).kind = none) (hv : ∀ x, x.index < t.size → (t.verdict x).isSome) :
    ∃ t', t.classify = .ok t' := by
  cases hc : t.classify with
  | ok t' => exact ⟨t', rfl⟩
  | error e =>
    obtain ⟨done, id, rest, t₁, hwalk, hinv, herror⟩ :=
      foldlM_error (fun done t' => t.Classifying done t') hc (.start ht)
        fun done id rest t₁ t₂ hwalk hinv hstep =>
          (hinv.step ht hb hk (ht.rooted.mem_walk_iff.1 (by rw [hwalk]; simp))).1 t₂ hstep
    have hid : id.index < t.size := ht.rooted.mem_walk_iff.1 (by rw [hwalk]; simp)
    have hnone := (hinv.step ht hb hk hid).2 e herror
    have hsome := hv id hid
    rw [hnone] at hsome
    cases hsome

end Schemata.ItemTree
