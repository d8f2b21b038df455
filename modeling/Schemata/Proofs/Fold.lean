import Mathlib.Data.List.Forall2

/-! Steps and passes over lists that may fail. -/
namespace Schemata

variable {α β σ ι ε : Type}

/-! ### Steps in sequence -/

theorem eq_ok_of_toOption {x : Except ε α} {r : α} (h : x.toOption = some r) : x = .ok r := by
  cases x with
  | error e => cases h
  | ok a => exact congrArg Except.ok (Option.some.inj h)

theorem toOption_eq_some_iff {x : Except ε α} {r : α} : x.toOption = some r ↔ x = .ok r :=
  ⟨eq_ok_of_toOption, fun h => h ▸ rfl⟩

theorem toOption_map (f : α → β) (x : Except ε α) : (x.map f).toOption = x.toOption.map f := by
  cases x <;> rfl

theorem map_eq_ok {f : α → β} {x : Except ε α} {r : β} (h : x.map f = .ok r) :
    ∃ a, x = .ok a ∧ f a = r := by
  cases x with
  | error e => cases h
  | ok a => exact ⟨a, rfl, Except.ok.inj h⟩

theorem bind_eq_ok {x : Except ε α} {f : α → Except ε β} {r : β} (h : (x >>= f) = .ok r) :
    ∃ a, x = .ok a ∧ f a = .ok r := by
  cases x with
  | error e => cases h
  | ok a => exact ⟨a, rfl, h⟩

theorem bind_eq_error {x : Except ε α} {f : α → Except ε β} {e : ε}
    (h : (x >>= f) = .error e) : x = .error e ∨ ∃ a, x = .ok a ∧ f a = .error e := by
  cases x with
  | error e' => exact .inl (by cases h; rfl)
  | ok a => exact .inr ⟨a, rfl, h⟩

/-- A check of every item of a list passes only if it passes for each. -/
theorem forM_eq_ok {f : ι → Except ε Unit} {l : List ι} {r : Unit} (h : l.forM f = .ok r) :
    ∀ x ∈ l, f x = .ok () := by
  induction l with
  | nil => intro x hx; cases hx
  | cons y rest ih =>
    obtain ⟨_, hy, hrest⟩ := bind_eq_ok (show (f y >>= fun _ => rest.forM f) = .ok r from h)
    intro x hx
    rcases List.mem_cons.1 hx with rfl | hx
    · exact hy
    · exact ih hrest x hx

/-- A check that each item of a list passes is passed by the list. -/
theorem forM_ok {f : ι → Except ε Unit} {l : List ι} (h : ∀ x ∈ l, f x = .ok ()) :
    l.forM f = .ok () := by
  induction l with
  | nil => rfl
  | cons y rest ih =>
    show (f y >>= fun _ => rest.forM f) = .ok ()
    rw [h y List.mem_cons_self]
    exact ih fun x hx => h x (List.mem_cons_of_mem y hx)

/-- A check of every item of a list that fails does so at one of them. -/
theorem forM_eq_error {f : ι → Except ε Unit} {l : List ι} {e : ε} (h : l.forM f = .error e) :
    ∃ x ∈ l, f x = .error e := by
  induction l with
  | nil => cases h
  | cons y rest ih =>
    rcases bind_eq_error (show (f y >>= fun _ => rest.forM f) = .error e from h) with hy | hrest
    · exact ⟨y, List.mem_cons_self, hy⟩
    · obtain ⟨_, _, hrest⟩ := hrest
      obtain ⟨x, hx, he⟩ := ih hrest
      exact ⟨x, List.mem_cons_of_mem y hx, he⟩

theorem mapM_eq_ok {f : ι → Except ε β} {l : List ι} {r : List β} (h : l.mapM f = .ok r) :
    List.Forall₂ (fun x y => f x = .ok y) l r := by
  induction l generalizing r with
  | nil =>
    cases h
    exact .nil
  | cons x rest ih =>
    rw [List.mapM_cons] at h
    obtain ⟨y, hy, h⟩ := bind_eq_ok h
    obtain ⟨ys, hys, h⟩ := bind_eq_ok h
    cases h
    exact .cons hy (ih hys)

theorem mapM_eq_self {f : ι → Except ε ι} {l : List ι} (h : ∀ x ∈ l, f x = .ok x) :
    l.mapM f = .ok l := by
  induction l with
  | nil => rfl
  | cons x rest ih =>
    rw [List.mapM_cons, h x List.mem_cons_self, ih fun y hy => h y (List.mem_cons_of_mem x hy)]
    rfl

theorem mapM_eq_error {f : ι → Except ε β} {l : List ι} {e : ε} (h : l.mapM f = .error e) :
    ∃ x ∈ l, f x = .error e := by
  induction l with
  | nil => cases h
  | cons y rest ih =>
    rw [List.mapM_cons] at h
    rcases bind_eq_error h with hy | ⟨_, _, h⟩
    · exact ⟨y, List.mem_cons_self, hy⟩
    · rcases bind_eq_error h with hrest | ⟨_, _, h⟩
      · obtain ⟨x, hx, he⟩ := ih hrest
        exact ⟨x, List.mem_cons_of_mem y hx, he⟩
      · cases h

/-! ### Lists that agree place by place -/

theorem exists_of_mem_right {R : α → β → Prop} {l : List α} {l' : List β}
    (h : List.Forall₂ R l l') {y : β} (hy : y ∈ l') : ∃ x ∈ l, R x y := by
  induction h with
  | nil => cases hy
  | cons hxy _ ih =>
    rcases List.mem_cons.1 hy with rfl | hy
    · exact ⟨_, List.mem_cons_self, hxy⟩
    · obtain ⟨x, hx, hr⟩ := ih hy
      exact ⟨x, List.mem_cons_of_mem _ hx, hr⟩

theorem exists_of_mem_left {R : α → β → Prop} {l : List α} {l' : List β}
    (h : List.Forall₂ R l l') {x : α} (hx : x ∈ l) : ∃ y ∈ l', R x y :=
  exists_of_mem_right h.flip hx

theorem exists_of_getElem? {R : α → β → Prop} {l : List α} {l' : List β}
    (h : List.Forall₂ R l l') {k : Nat} {x : α} (hx : l[k]? = some x) :
    ∃ y, l'[k]? = some y ∧ R x y := by
  induction h generalizing k with
  | nil => cases hx
  | cons hxy _ ih =>
    cases k with
    | zero =>
      obtain rfl := Option.some.inj hx
      exact ⟨_, rfl, hxy⟩
    | succ k => exact ih hx

/-- Two lists that agree with a third one agree with each other. -/
theorem forall₂_of_common {γ : Type} {R : α → β → Prop} {S : α → γ → Prop} {l : List α}
    {l' : List β} {m : List γ} (h : List.Forall₂ R l l') (h' : List.Forall₂ S l m) :
    List.Forall₂ (fun y z => ∃ x, R x y ∧ S x z) l' m := by
  induction h generalizing m with
  | nil =>
    cases h'
    exact .nil
  | cons hxy _ ih =>
    cases h' with
    | cons hxz hrest => exact .cons ⟨_, hxy, hxz⟩ (ih hrest)

/-- A list of images comes from a list of what they are images of. -/
theorem exists_map_eq {f : α → β} {P : α → Prop} {l : List β} (h : ∀ y ∈ l, ∃ x, f x = y ∧ P x) :
    ∃ xs : List α, xs.map f = l ∧ ∀ x ∈ xs, P x := by
  induction l with
  | nil => exact ⟨[], rfl, fun _ hx => by cases hx⟩
  | cons y l ih =>
    obtain ⟨x, rfl, hx⟩ := h y List.mem_cons_self
    obtain ⟨xs, rfl, hxs⟩ := ih fun z hz => h z (List.mem_cons_of_mem _ hz)
    exact ⟨x :: xs, rfl, List.forall_mem_cons.2 ⟨hx, hxs⟩⟩

/-! ### Passes -/

variable {f : σ → ι → Except ε σ}

/-- What holds at the start and is kept by each step for one item more holds at the end. -/
theorem foldlM_ok (inv : List ι → σ → Prop) {l : List ι} {s s' : σ} (h : l.foldlM f s = .ok s')
    (hstart : inv [] s)
    (hstep : ∀ done x rest s s', l = done ++ x :: rest → inv done s → f s x = .ok s' →
      inv (done ++ [x]) s') : inv l s' := by
  suffices hall : ∀ (rest done : List ι) (s : σ), l = done ++ rest → inv done s →
      rest.foldlM f s = .ok s' → inv l s' from hall l [] s rfl hstart h
  intro rest
  induction rest with
  | nil =>
    intro done s hl hd hs
    rw [List.append_nil] at hl
    cases hs
    exact hl ▸ hd
  | cons x rest ih =>
    intro done s hl hd hs
    rw [List.foldlM_cons] at hs
    cases hx : f s x with
    | error e =>
      rw [hx] at hs
      cases hs
    | ok s₁ =>
      rw [hx] at hs
      exact ih (done ++ [x]) s₁ (by rw [hl]; simp) (hstep done x rest s s₁ hl hd hx) hs

/-- The same of a pass that cannot fail. -/
theorem foldl_inv {f : σ → ι → σ} (inv : List ι → σ → Prop) {l : List ι} {s : σ}
    (hstart : inv [] s)
    (hstep : ∀ done x rest s, l = done ++ x :: rest → inv done s → inv (done ++ [x]) (f s x)) :
    inv l (l.foldl f s) := by
  suffices hall : ∀ (rest done : List ι) (s : σ), l = done ++ rest → inv done s →
      inv l (rest.foldl f s) from hall l [] s rfl hstart
  intro rest
  induction rest with
  | nil =>
    intro done s hl hd
    rw [List.append_nil] at hl
    exact hl ▸ hd
  | cons x rest ih =>
    exact fun done s hl hd => ih (done ++ [x]) _ (by rw [hl]; simp) (hstep done x rest s hl hd)

/-- A pass of which no step changes anything ends where it starts. -/
theorem foldlM_same {l : List ι} {s : σ} (h : ∀ x ∈ l, f s x = .ok s) : l.foldlM f s = .ok s := by
  induction l with
  | nil => rfl
  | cons x rest ih =>
    rw [List.foldlM_cons, h x List.mem_cons_self]
    exact ih fun y hy => h y (List.mem_cons_of_mem x hy)

/-- A pass that fails does so at a step that starts from something it has kept. -/
theorem foldlM_error (inv : List ι → σ → Prop) {l : List ι} {s : σ} {e : ε}
    (h : l.foldlM f s = .error e) (hstart : inv [] s)
    (hstep : ∀ done x rest s s', l = done ++ x :: rest → inv done s → f s x = .ok s' →
      inv (done ++ [x]) s') :
    ∃ done x rest s, l = done ++ x :: rest ∧ inv done s ∧ f s x = .error e := by
  suffices hall : ∀ (rest done : List ι) (s : σ), l = done ++ rest → inv done s →
      rest.foldlM f s = .error e →
      ∃ done x rest s, l = done ++ x :: rest ∧ inv done s ∧ f s x = .error e from
    hall l [] s rfl hstart h
  intro rest
  induction rest with
  | nil =>
    intro done s _ _ hs
    cases hs
  | cons x rest ih =>
    intro done s hl hd hs
    rw [List.foldlM_cons] at hs
    cases hx : f s x with
    | error e' =>
      rw [hx] at hs
      cases hs
      exact ⟨done, x, rest, s, hl, hd, hx⟩
    | ok s₁ =>
      rw [hx] at hs
      exact ih (done ++ [x]) s₁ (by rw [hl]; simp) (hstep done x rest s s₁ hl hd hx) hs

end Schemata
