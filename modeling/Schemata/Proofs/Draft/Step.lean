import Schemata.Draft.Assembly

/-! What a step of building guarantees.

`Ensures x d fail post` says how the step `x` ends when it starts at the draft
`d`: a failure is one that `fail` allows, and a result together with the draft it
leaves is one that `post` allows. Steps in sequence and steps for every item of a
list are put together from their parts; for a list, an invariant says what holds
once some of it is done. -/
namespace Schemata.Build

variable {α β ι σ : Type} {fail : Failure → Prop} {d : Draft}

/-- Started at `d`, a step fails as `fail` allows or ends as `post` says. -/
def Ensures (x : Build α) (d : Draft) (fail : Failure → Prop) (post : α → Draft → Prop) : Prop :=
  match x d with
  | .ok (a, d') => post a d'
  | .error failure => fail failure

/-! ### Single steps -/

theorem Ensures.mono {x : Build α} {post post' : α → Draft → Prop} (h : x.Ensures d fail post)
    (hpost : ∀ a d', post a d' → post' a d') : x.Ensures d fail post' := by
  unfold Ensures at h ⊢
  split at h
  · exact hpost _ _ h
  · exact h

theorem Ensures.of_ok {x : Build α} {post : α → Draft → Prop} (h : x.Ensures d fail post) {a : α}
    {d' : Draft} (hx : x d = .ok (a, d')) : post a d' := by
  unfold Ensures at h
  rw [hx] at h
  exact h

theorem Ensures.of_error {x : Build α} {post : α → Draft → Prop} (h : x.Ensures d fail post)
    {failure : Failure} (hx : x d = .error failure) : fail failure := by
  unfold Ensures at h
  rw [hx] at h
  exact h

theorem ensures_pure {a : α} {post : α → Draft → Prop} (h : post a d) :
    Ensures (pure a) d fail post := h

theorem ensures_throw {failure : Failure} {post : α → Draft → Prop} (h : fail failure) :
    Ensures (throw failure) d fail post := h

theorem ensures_modify {f : Draft → Draft} {post : PUnit → Draft → Prop} (h : post ⟨⟩ (f d)) :
    Ensures (modify f : Build PUnit) d fail post := h

theorem Ensures.bind {x : Build α} {f : α → Build β} {mid : α → Draft → Prop}
    {post : β → Draft → Prop} (h : x.Ensures d fail mid)
    (hf : ∀ a d', mid a d' → (f a).Ensures d' fail post) : (x >>= f).Ensures d fail post := by
  unfold Ensures at h ⊢
  show match (x >>= f) d with | .ok (a, d') => post a d' | .error failure => fail failure
  have hrun : (x >>= f) d = x d >>= fun p => f p.1 p.2 := rfl
  rw [hrun]
  split at h
  · next a d' hx =>
    rw [hx]
    exact hf a d' h
  · next failure hx =>
    rw [hx]
    exact h

theorem ensures_bind_of_run {x : Build α} {f : α → Build β} {post : β → Draft → Prop} {a : α}
    {d' : Draft} (hx : x d = .ok (a, d')) (h : (f a).Ensures d' fail post) :
    (x >>= f).Ensures d fail post := by
  have hrun : (x >>= f) d = x d >>= fun p => f p.1 p.2 := rfl
  unfold Ensures at h ⊢
  rw [hrun, hx]
  exact h

theorem get_bind_run (f : Draft → Build β) : (get >>= f) d = f d d := rfl

theorem ensures_get_bind {f : Draft → Build β} {post : β → Draft → Prop}
    (h : (f d).Ensures d fail post) : (get >>= f).Ensures d fail post := h

theorem ensures_set_bind {d' : Draft} {f : PUnit → Build β} {post : β → Draft → Prop}
    (h : (f ⟨⟩).Ensures d' fail post) : (set d' >>= f).Ensures d fail post := h

theorem ensures_modify_bind {g : Draft → Draft} {f : PUnit → Build β} {post : β → Draft → Prop}
    (h : (f ⟨⟩).Ensures (g d) fail post) : (modify g >>= f).Ensures d fail post := h

theorem ensures_lift_bind {x : Except Failure α} {f : α → Build β} {post : β → Draft → Prop}
    (hok : ∀ a, x = .ok a → (f a).Ensures d fail post)
    (herror : ∀ failure, x = .error failure → fail failure) :
    ((liftM x : Build α) >>= f).Ensures d fail post := by
  cases hx : x with
  | ok a => exact hok a hx
  | error failure => exact herror failure hx

/-! ### Steps for every item of a list -/

theorem ensures_foldlM {f : σ → ι → Build σ} (inv : List ι → σ → Draft → Prop) (l : List ι)
    {s : σ} (h : inv [] s d)
    (hstep : ∀ done x rest s d, l = done ++ x :: rest → inv done s d →
      (f s x).Ensures d fail (inv (done ++ [x]))) :
    Ensures (l.foldlM f s) d fail (inv l) := by
  suffices hall : ∀ (rest done : List ι) (s : σ) (d : Draft), l = done ++ rest → inv done s d →
      Ensures (rest.foldlM f s) d fail (inv l) from hall l [] s d rfl h
  intro rest
  induction rest with
  | nil =>
    intro done s d hl hd
    rw [List.append_nil] at hl
    exact ensures_pure (hl ▸ hd)
  | cons x rest ih =>
    intro done s d hl hd
    rw [List.foldlM_cons]
    exact (hstep done x rest s d hl hd).bind fun s' d' hd' =>
      ih (done ++ [x]) s' d' (by rw [hl]; simp) hd'

theorem ensures_mapM {f : ι → Build β} (inv : List ι → List β → Draft → Prop) (l : List ι)
    (h : inv [] [] d)
    (hstep : ∀ done x rest r d, l = done ++ x :: rest → inv done r d →
      (f x).Ensures d fail fun b => inv (done ++ [x]) (r ++ [b])) :
    Ensures (l.mapM f) d fail (inv l) := by
  suffices hall : ∀ (rest done : List ι) (r : List β) (d : Draft), l = done ++ rest →
      inv done r d → Ensures (rest.mapM f) d fail fun r' => inv l (r ++ r') by
    simpa using hall l [] [] d rfl h
  intro rest
  induction rest with
  | nil =>
    intro done r d hl hd
    rw [List.append_nil] at hl
    rw [List.mapM_nil]
    exact ensures_pure (by rw [List.append_nil]; exact hl ▸ hd)
  | cons x rest ih =>
    intro done r d hl hd
    rw [List.mapM_cons]
    refine (hstep done x rest r d hl hd).bind fun b d' hd' => ?_
    refine (ih (done ++ [x]) (r ++ [b]) d' (by rw [hl]; simp) hd').bind fun r' d'' hd'' => ?_
    exact ensures_pure (by simpa using hd'')

theorem ensures_forM {f : ι → Build PUnit} (inv : List ι → Draft → Prop) (l : List ι)
    (h : inv [] d)
    (hstep : ∀ done x rest d, l = done ++ x :: rest → inv done d →
      (f x).Ensures d fail fun _ => inv (done ++ [x])) :
    Ensures (l.forM f) d fail fun _ => inv l := by
  suffices hall : ∀ (rest done : List ι) (d : Draft), l = done ++ rest → inv done d →
      Ensures (rest.forM f) d fail fun _ => inv l from hall l [] d rfl h
  intro rest
  induction rest with
  | nil =>
    intro done d hl hd
    rw [List.append_nil] at hl
    exact ensures_pure (hl ▸ hd)
  | cons x rest ih =>
    intro done d hl hd
    show (f x >>= fun _ => rest.forM f).Ensures d fail fun _ => inv l
    exact (hstep done x rest d hl hd).bind fun _ d' hd' =>
      ih (done ++ [x]) d' (by rw [hl]; simp) hd'

end Schemata.Build
