import Schemata.Proofs.Tree.Scoping

/-! What binding names may stumble over.

The pass looks at what is written in the tree piece by piece, in the order of the walk: at
the name of an item, then at the names and the alternatives that the item refers to. A
piece is faulty in the tree that the pass starts from or not at all, however far the pass
has got. So the pass fails exactly at the first faulty piece, and with its fault
(`checks_bindNames`). -/
namespace Schemata.ItemTree

open Item

variable {t t' t'' : ItemTree} {x : ItemId} {w : Writing} {f f' : Failure}

/-! ### Pieces -/

/-- What is looked at when names are bound. -/
inductive Writing
  /-- The name that an item is declared with. -/
  | declared (x : ItemId)
  | name (x : ItemId) (name : String) (location : Location)
  | alternative (x : ItemId) (a : Alternative)

/-- What is written as one reference. -/
def written (x : ItemId) : RawReference → List Writing
  | .name name location => [.name x name location]
  | .variant alternatives => alternatives.map (.alternative x)

/-- What is written on an item. -/
def writings (t : ItemTree) (x : ItemId) : List Writing :=
  .declared x :: (t.item x).rawReferences.flatMap (written x)

/-- The tree in which an alternative of `x` is an item, the last one. -/
def withUnbound (t : ItemTree) (x : ItemId) (a : Alternative) : ItemTree :=
  t.pushAlternative x (unboundAlternative a)

/-- What is wrong with a piece. -/
inductive Fault (t : ItemTree) : Writing → Failure → Prop
  | reserved {x : ItemId} (h : hasReservedName (t.item x)) :
    t.Fault (.declared x)
      ((Cause.reservedName ((t.item x).name.getD "")).at (t.item x).location)
  | name {x : ItemId} {name : String} {location : Location} (h : t.Unmatched x name) :
    t.Fault (.name x name location) ((Cause.unresolvedReference name).at location)
  | alternative {x : ItemId} {a : Alternative}
    (h : (t.withUnbound x a).Unmatched t.nextId a.name) :
    t.Fault (.alternative x a) ((Cause.unresolvedReference a.name).at a.location)

/-- Nothing is wrong with a piece. -/
def Faultless (t : ItemTree) (w : Writing) : Prop := ∀ f, ¬t.Fault w f

/-- What is wrong with the first piece that anything is wrong with. -/
def FirstFault (t : ItemTree) (l : List Writing) (f : Failure) : Prop :=
  ∃ before w after, l = before ++ w :: after ∧ (∀ v ∈ before, t.Faultless v) ∧ t.Fault w f

/-- A step succeeds only if nothing is wrong with these pieces, and fails only with the first
fault. -/
structure Checks (t : ItemTree) (l : List Writing) (r : Except Interrupted ItemTree) : Prop where
  ok : ∀ t', r = .ok t' → ∀ w ∈ l, t.Faultless w
  error : ∀ e, r = .error e → t.FirstFault l e.failure

theorem FirstFault.append {l : List Writing} (h : t.FirstFault l f) (l' : List Writing) :
    t.FirstFault (l ++ l') f := by
  obtain ⟨before, w, after, rfl, hbefore, hw⟩ := h
  exact ⟨before, w, after ++ l', by simp, hbefore, hw⟩

theorem FirstFault.after {l l' : List Writing} (h : t.FirstFault l' f)
    (hl : ∀ w ∈ l, t.Faultless w) : t.FirstFault (l ++ l') f := by
  obtain ⟨before, w, after, rfl, hbefore, hw⟩ := h
  exact ⟨l ++ before, w, after, by simp,
    fun v hv => (List.mem_append.1 hv).elim (hl v) (hbefore v), hw⟩

theorem FirstFault.single (h : t.Fault w f) : t.FirstFault [w] f :=
  ⟨[], w, [], rfl, fun _ hv => absurd hv List.not_mem_nil, h⟩

theorem Fault.unique (h : t.Fault w f) (h' : t.Fault w f') : f = f' := by
  cases h <;> cases h' <;> rfl

theorem firstFault_cons_iff {l : List Writing} :
    t.FirstFault (w :: l) f ↔ t.Fault w f ∨ t.Faultless w ∧ t.FirstFault l f := by
  constructor
  · rintro ⟨before, v, after, hl, hbefore, hv⟩
    cases before with
    | nil =>
      cases hl
      exact .inl hv
    | cons u before =>
      cases hl
      exact .inr ⟨hbefore w List.mem_cons_self, before, v, after, rfl,
        fun u hu => hbefore u (List.mem_cons_of_mem w hu), hv⟩
  · rintro (hw | ⟨hw, h⟩)
    · exact FirstFault.append (.single hw) l
    · exact h.after (l := [w]) fun v hv => List.mem_singleton.1 hv ▸ hw

theorem FirstFault.unique {l : List Writing} (h : t.FirstFault l f) (h' : t.FirstFault l f') :
    f = f' := by
  induction l with
  | nil =>
    obtain ⟨before, w, after, hl, _⟩ := h
    simp at hl
  | cons w l ih =>
    rcases firstFault_cons_iff.1 h with hw | ⟨hw, h⟩ <;>
      rcases firstFault_cons_iff.1 h' with hw' | ⟨hw', h'⟩
    · exact hw.unique hw'
    · exact absurd hw (hw' f)
    · exact absurd hw' (hw f')
    · exact ih h h'

/-- With a first fault a step fails, and only with that. -/
theorem Checks.error_iff {l : List Writing} {r : Except Interrupted ItemTree} (h : t.Checks l r) :
    (∃ left, r = .error ⟨f, left⟩) ↔ t.FirstFault l f := by
  constructor
  · rintro ⟨left, hr⟩
    exact h.error _ hr
  · intro hf
    cases r with
    | ok t' =>
      obtain ⟨before, w, after, rfl, _, hw⟩ := hf
      exact absurd hw (h.ok t' rfl w (by simp) f)
    | error e =>
      obtain ⟨f', left⟩ := e
      obtain rfl : f' = f := (h.error _ rfl).unique hf
      exact ⟨left, rfl⟩

/-- Steps that check pieces, one after another. -/
theorem checks_foldlM {ι : Type} {step : ItemTree → ι → Except Interrupted ItemTree}
    {pieces : ι → List Writing} {l : List ι} (inv : List ι → ItemTree → Prop) (h : inv [] t')
    (hstep : ∀ done x rest t₁, l = done ++ x :: rest → inv done t₁ →
      t.Checks (pieces x) (step t₁ x) ∧ ∀ t₂, step t₁ x = .ok t₂ → inv (done ++ [x]) t₂) :
    t.Checks (l.flatMap pieces) (l.foldlM step t') := by
  have hstart : inv [] t' ∧ ∀ w ∈ ([] : List ι).flatMap pieces, t.Faultless w :=
    ⟨h, fun _ hw => absurd hw List.not_mem_nil⟩
  have hnext : ∀ done x rest t₁ t₂, l = done ++ x :: rest →
      (inv done t₁ ∧ ∀ w ∈ done.flatMap pieces, t.Faultless w) → step t₁ x = .ok t₂ →
      inv (done ++ [x]) t₂ ∧ ∀ w ∈ (done ++ [x]).flatMap pieces, t.Faultless w :=
    fun done x rest t₁ t₂ hl ⟨hinv, hdone⟩ hok => by
      obtain ⟨hchecks, hinv'⟩ := hstep done x rest t₁ hl hinv
      refine ⟨hinv' t₂ hok, fun w hw => ?_⟩
      rw [List.flatMap_append, List.mem_append, List.flatMap_singleton] at hw
      exact hw.elim (hdone w) (hchecks.ok t₂ hok w)
  constructor
  · intro t₂ hok
    exact (foldlM_ok (fun done t₁ => inv done t₁ ∧ ∀ w ∈ done.flatMap pieces, t.Faultless w) hok
      hstart hnext).2
  · intro e he
    obtain ⟨done, x, rest, t₁, rfl, ⟨hinv, hdone⟩, herror⟩ := foldlM_error
      (fun done t₁ => inv done t₁ ∧ ∀ w ∈ done.flatMap pieces, t.Faultless w) he hstart hnext
    have hfirst := (hstep done x rest t₁ rfl hinv).1.error e herror
    rw [List.flatMap_append, List.flatMap_cons]
    exact (hfirst.append _).after hdone

/-! ### One item -/

theorem size_withUnbound (t : ItemTree) (x : ItemId) (a : Alternative) :
    (t.withUnbound x a).size = t.size + 1 := size_addUnder t x _ withAlternative

theorem bindAlternative_eq (t : ItemTree) (x : ItemId) (a : Alternative) :
    t.bindAlternative x a = (t.withUnbound x a).bindName t.nextId a.name a.location := rfl

/-- An alternative uses its name where its variant does. -/
theorem SameScopes.lookup_withUnbound (ht : t.Rooted) (hx : x.index < t.size)
    (h : t.SameScopes t') (a : Alternative) :
    (t'.withUnbound x a).lookup t'.nextId a.name = t.lookupUnder x a.name := by
  have hx' : x.index < t'.size := Nat.lt_of_lt_of_le hx h.size
  refine (h.trans (h.rooted.sameScopes_pushAlternative hx' a)).lookup_new ht h.size ?_
    (congrArg Item.parent (item_pushAlternative_nextId hx' a)) hx a.name
  show t'.size < (t'.withUnbound x a).size
  rw [size_withUnbound]
  exact Nat.lt_succ_self _

theorem Rooted.lookupUnder_eq_none_iff (ht : t.Rooted) (hx : x.index < t.size) (a : Alternative) :
    t.lookupUnder x a.name = none ↔ (t.withUnbound x a).Unmatched t.nextId a.name := by
  have hrooted : (t.withUnbound x a).Rooted := (ht.sameScopes_pushAlternative hx a).rooted
  rw [← (SameScopes.refl ht).lookup_withUnbound ht hx, hrooted.lookup_eq_none_iff]
  rw [size_withUnbound]
  exact Nat.lt_succ_self _

theorem SameScopes.bindName {j : ItemId} {name : String} {location : Location}
    (h : t.SameScopes t') (hok : t'.bindName j name location = .ok t'') : t.SameScopes t'' := by
  unfold ItemTree.bindName at hok
  split at hok
  · cases hok
    exact h.trans (h.rooted.sameScopes_refer j _)
  · cases hok

theorem SameScopes.bindAlternative {a : Alternative} (h : t.SameScopes t')
    (hx : x.index < t.size) (hok : t'.bindAlternative x a = .ok t'') : t.SameScopes t'' :=
  (h.trans (h.rooted.sameScopes_pushAlternative (Nat.lt_of_lt_of_le hx h.size) a)).bindName hok

section Item

variable (ht : t.Rooted) (hx : x.index < t.size) (h : t.SameScopes t')
include ht hx h

theorem checks_bindName (name : String) (location : Location) :
    t.Checks [.name x name location] (t'.bindName x name location) := by
  unfold bindName
  rw [h.lookup ht hx]
  cases hname : t.lookup x name with
  | some target =>
    refine ⟨fun t'' _ w hw f hf => ?_, nofun⟩
    obtain rfl := List.mem_singleton.1 hw
    cases hf with
    | name hnone =>
      rw [(ht.lookup_eq_none_iff hx).2 hnone] at hname
      cases hname
  | none =>
    refine ⟨nofun, fun e he => ?_⟩
    cases he
    exact .single (.name ((ht.lookup_eq_none_iff hx).1 hname))

theorem checks_bindAlternative (a : Alternative) :
    t.Checks [.alternative x a] (t'.bindAlternative x a) := by
  rw [bindAlternative_eq]
  unfold bindName
  rw [h.lookup_withUnbound ht hx]
  cases hname : t.lookupUnder x a.name with
  | some target =>
    refine ⟨fun t'' _ w hw f hf => ?_, nofun⟩
    obtain rfl := List.mem_singleton.1 hw
    cases hf with
    | alternative hnone =>
      rw [(ht.lookupUnder_eq_none_iff hx a).2 hnone] at hname
      cases hname
  | none =>
    refine ⟨nofun, fun e he => ?_⟩
    cases he
    exact .single (.alternative ((ht.lookupUnder_eq_none_iff hx a).1 hname))

theorem checks_bindReference (raw : RawReference) :
    t.Checks (written x raw) (t'.bindReference x raw) ∧
      ∀ t'', t'.bindReference x raw = .ok t'' → t.SameScopes t'' := by
  cases raw with
  | name name location => exact ⟨checks_bindName ht hx h name location, fun t'' => h.bindName⟩
  | variant alternatives =>
    have hwritten : written x (.variant alternatives) =
        alternatives.flatMap fun a => [.alternative x a] := List.map_eq_flatMap
    rw [hwritten]
    refine ⟨checks_foldlM (fun _ t' => t.SameScopes t') h fun done a rest t₁ _ h₁ =>
      ⟨checks_bindAlternative ht hx h₁ a, fun t₂ => h₁.bindAlternative hx⟩, fun t'' hok => ?_⟩
    exact foldlM_ok (fun _ t' => t.SameScopes t') hok h
      fun _ a _ t₁ t₂ _ h₁ hstep => h₁.bindAlternative hx hstep

/-- An item is bound if nothing that is written on it is faulty, and scopes stay as they are. -/
theorem checks_bindItem (hitem : (t'.item x).unnoted = (t.item x).unnoted) :
    t.Checks (t.writings x) (t'.bindItem x) ∧
      ∀ t'', t'.bindItem x = .ok t'' → t.SameScopes t'' := by
  have hraws : (t'.item x).rawReferences = (t.item x).rawReferences :=
    field_of_unnoted Item.rawReferences (fun _ => rfl) hitem
  have hreserved : hasReservedName (t'.item x) = hasReservedName (t.item x) :=
    field_of_unnoted hasReservedName (fun _ => rfl) hitem
  have hname : (t'.item x).name = (t.item x).name :=
    field_of_unnoted Item.name (fun _ => rfl) hitem
  have hlocation : (t'.item x).location = (t.item x).location :=
    field_of_unnoted Item.location (fun _ => rfl) hitem
  unfold bindItem writings
  dsimp only
  rw [hraws, hreserved, hname, hlocation]
  cases hfault : hasReservedName (t.item x) with
  | true =>
    refine ⟨⟨nofun, fun e he => ?_⟩, nofun⟩
    cases he
    exact (FirstFault.single (.reserved hfault)).append _
  | false =>
    have hcleared : t.SameScopes (t'.modify x cleared) :=
      h.trans (h.rooted.sameScopes_modify keepsPlace_cleared)
    have hrest : t.Checks ((t.item x).rawReferences.flatMap (written x))
        ((t.item x).rawReferences.foldlM (fun t raw => t.bindReference x raw)
          (t'.modify x cleared)) :=
      checks_foldlM (fun _ t' => t.SameScopes t') hcleared fun done raw rest t₁ _ h₁ =>
        checks_bindReference ht hx h₁ raw
    have hdeclared : ∀ w ∈ [Writing.declared x], t.Faultless w := fun w hw f hf => by
      obtain rfl := List.mem_singleton.1 hw
      cases hf with
      | reserved h =>
        rw [hfault] at h
        cases h
    refine ⟨⟨fun t'' hok w hw => ?_, fun e he => ?_⟩, fun t'' hok => ?_⟩
    · rcases List.mem_cons.1 hw with rfl | hw
      · exact hdeclared _ (List.mem_singleton_self _)
      · exact hrest.ok t'' hok w hw
    · exact (hrest.error e he).after hdeclared
    · exact foldlM_ok (fun _ t' => t.SameScopes t') hok hcleared
        fun _ raw _ t₁ t₂ _ h₁ hstep => (checks_bindReference ht hx h₁ raw).2 t₂ hstep

end Item

/-! ### All items -/

/-- **How binding names fails.** The pass succeeds only if nothing that is written in the tree is
faulty, and fails only with the first fault in the order of the walk. -/
theorem checks_bindNames (ht : t.Rooted) : t.Checks (t.walk.flatMap t.writings) t.bindNames :=
  checks_foldlM (fun done t' => t.BoundAmong done t') (boundAmong_nil ht)
    fun done x rest t₁ hwalk h₁ => by
      obtain ⟨hx, hnew⟩ := ht.pending_of_walk hwalk
      have hitem := h₁.pending x hx hnew
      exact ⟨(checks_bindItem ht hx h₁.toSameScopes hitem).1, fun t₂ => h₁.step ht hx hnew⟩

end Schemata.ItemTree
