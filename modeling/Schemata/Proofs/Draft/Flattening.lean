import Schemata.Proofs.Draft.Completion

/-! Flattened alternatives.

A list of alternatives is flattened in an arena where other lists may be flat already, and
places are met from several sides. Still, every alternative that nothing is nested in ends up
in the list (`Flat.complete`). What is nested somewhere is left in it only if it was expanded
before: because it is nested in itself, or because another alternative has brought it
(`Flat.sound`). -/
namespace Schemata

/-! ### Alternatives as they were written -/

/-- The alternatives written for places, where the type of each is, and the place whose alternatives
are nested at a place. -/
structure Choices (ι : Type) where
  entries : TypeInfoId → List ι
  place : ι → TypeInfoId
  inner : TypeInfoId → Option TypeInfoId

namespace Choices

open TypeInfoArena

variable {ι : Type} (c : Choices ι) {p q r : TypeInfoId} {x y : ι}

/-- One of the alternatives at a place has those of another place nested in it. -/
def Nests (p q : TypeInfoId) : Prop := ∃ y ∈ c.entries p, c.inner (c.place y) = some q

/-- One of the alternatives at a place, or nested in one of them. -/
def Unfolds (p : TypeInfoId) (y : ι) : Prop :=
  ∃ q, Relation.ReflTransGen c.Nests p q ∧ y ∈ c.entries q

/-- The alternatives of `q`, nested in `y`, come up without `y` too: in themselves, or in another
alternative. -/
def Surplus (p : TypeInfoId) (y : ι) (q : TypeInfoId) : Prop :=
  Relation.TransGen c.Nests q q ∨ ∃ x, x ≠ y ∧ c.Unfolds p x ∧ c.inner (c.place x) = some q

/-- No alternative is written twice. -/
structure Proper : Prop where
  nodup : ∀ p, (c.entries p).Nodup
  apart : ∀ p q y, y ∈ c.entries p → y ∈ c.entries q → p = q

/-- What may be listed: the place of an alternative, which is left as it is only if what is nested
there is surplus. -/
def MayList (p q : TypeInfoId) : Prop :=
  ∃ y, c.place y = q ∧ c.Unfolds p y ∧ ∀ r, c.inner (c.place y) = some r → c.Surplus p y r

/-- What a flattened list comes to. -/
structure Flat (p : TypeInfoId) (l : List TypeInfoId) : Prop where
  complete : ∀ y, c.Unfolds p y → c.inner (c.place y) = none → c.place y ∈ l
  sound : ∀ q ∈ l, c.MayList p q

/-- The lists of an arena are as they were written, or flat. -/
structure Holds (arena : TypeInfoArena) : Prop where
  nested : ∀ p, arena.nested p = c.inner p
  lists : ∀ p l, arena.alternatives? p = some l →
    l = (c.entries p).map c.place ∨ c.Flat p l

variable {c}

theorem Unfolds.own (hy : y ∈ c.entries p) : c.Unfolds p y := ⟨p, .refl, hy⟩

theorem Unfolds.trans (hpq : Relation.ReflTransGen c.Nests p q) (h : c.Unfolds q y) :
    c.Unfolds p y := by
  obtain ⟨r, hqr, hy⟩ := h
  exact ⟨r, hpq.trans hqr, hy⟩

theorem Unfolds.path (h : c.Unfolds p y) (hq : c.inner (c.place y) = some q) :
    Relation.ReflTransGen c.Nests p q := by
  obtain ⟨r, hpr, hy⟩ := h
  exact hpr.tail ⟨y, hy, hq⟩

theorem Unfolds.circle (h : c.Unfolds p y) (hp : c.inner (c.place y) = some p) :
    Relation.TransGen c.Nests p p := by
  obtain ⟨r, hpr, hy⟩ := h
  exact .tail' hpr ⟨y, hy, hp⟩

theorem Surplus.trans (hpq : Relation.ReflTransGen c.Nests p q) (h : c.Surplus q y r) :
    c.Surplus p y r :=
  h.imp_right fun ⟨x, hne, hx, hr⟩ => ⟨x, hne, hx.trans hpq, hr⟩

end Choices

/-! ### What is nested -/

namespace TypeInfoArena

open Search

variable {arena arena' arena'' : TypeInfoArena} {p q : TypeInfoId}

theorem get?_flattenAt_of_ne (hne : q ≠ p) : (arena.flattenAt p).get? q = arena.get? q := by
  obtain ⟨i⟩ := p
  obtain ⟨j⟩ := q
  unfold flattenAt adjust get?
  dsimp only
  rw [Array.getElem?_modify, if_neg fun he => hne (congrArg TypeInfoId.mk he.symm)]

theorem alternatives?_flattenAt (arena : TypeInfoArena) (p q : TypeInfoId) :
    (arena.flattenAt p).alternatives? q =
      if q = p then (arena.alternatives? q).map fun _ => arena.flatten p
      else arena.alternatives? q := by
  split
  · next hq =>
    subst hq
    obtain ⟨i⟩ := q
    unfold alternatives? flattenAt adjust get?
    dsimp only
    rw [Array.getElem?_modify, if_pos rfl]
    cases arena.slots[i]? with
    | none => rfl
    | some slot =>
      cases slot with
      | none => rfl
      | some info =>
        obtain ⟨arity, shape⟩ := info
        cases shape <;> rfl
  · next hne =>
    unfold alternatives?
    rw [get?_flattenAt_of_ne hne]

/-- Flattening nests nothing that was not nested, and the other way round. -/
@[simp] theorem nested_flattenAt (arena : TypeInfoArena) (p : TypeInfoId) :
    (arena.flattenAt p).nested = arena.nested := by
  have hfrom : ∀ n q, (arena.flattenAt p).nestedFrom n q = arena.nestedFrom n q := by
    intro n
    induction n with
    | zero => exact fun _ => rfl
    | succ n ih =>
      intro q
      unfold nestedFrom
      rcases arena.get?_flattenAt p q with he | ⟨arity, alternatives, he, he'⟩
      · rw [he]
        simp only [ih]
      · rw [he, he']
  funext q
  unfold nested
  rw [size_flattenAt]
  exact hfrom _ q

/-- Where something is nested there are alternatives. -/
theorem exists_of_nested (h : arena.nested p = some q) : ∃ l, arena.alternatives? q = some l := by
  suffices hfrom : ∀ n p, arena.nestedFrom n p = some q →
      ∃ l, arena.alternatives? q = some l from hfrom _ p h
  intro n
  induction n with
  | zero => exact fun p h => by cases h
  | succ n ih =>
    intro p h
    unfold nestedFrom at h
    split at h
    · next hget =>
      split at h
      · cases h
        exact ⟨_, alternatives?_eq_some_iff.2 ⟨_, hget⟩⟩
      · cases h
    · split at h
      · exact ih _ h
      · cases h
    · cases h

/-- How what is nested at a place is found: at the place itself, nowhere or at another place. -/
def nestStep (arena : TypeInfoArena) (p : TypeInfoId) : Step TypeInfoId (Option TypeInfoId) :=
  match arena.get? p with
  | some ⟨arity, .anyOf _⟩ => .halt (if arity.isExactlyOne then some p else none)
  | some ⟨arity, .ref target⟩ => if arity.isExactlyOne then .go target else .halt none
  | _ => .halt none

theorem nestStep_of_anyOf {arity : Arity} {l : List TypeInfoId}
    (hget : arena.get? p = some ⟨arity, .anyOf l⟩) (hone : arity.isExactlyOne) :
    arena.nestStep p = .halt (some p) := by
  unfold nestStep
  rw [hget]
  exact congrArg Step.halt (if_pos hone)

theorem nestStep_of_ref {arity : Arity} (hget : arena.get? p = some ⟨arity, .ref q⟩)
    (hone : arity.isExactlyOne) : arena.nestStep p = .go q := by
  unfold nestStep
  rw [hget]
  exact if_pos hone

theorem get?_of_halt (h : arena.nestStep p = .halt (some q)) :
    ∃ arity l, arena.get? p = some ⟨arity, .anyOf l⟩ ∧ arity.isExactlyOne ∧ q = p := by
  unfold nestStep at h
  split at h
  · next arity l hget =>
    split at h
    · next hone =>
      cases h
      exact ⟨arity, l, hget, hone, rfl⟩
    · cases h
  · split at h <;> cases h
  · cases h

theorem get?_of_go (h : arena.nestStep p = .go q) :
    ∃ arity, arena.get? p = some ⟨arity, .ref q⟩ ∧ arity.isExactlyOne := by
  unfold nestStep at h
  split at h
  · cases h
  · next arity target hget =>
    split at h
    · next hone =>
      cases h
      exact ⟨arity, hget, hone⟩
    · cases h
  · cases h

theorem nestedFrom_succ (arena : TypeInfoArena) (bound : Nat) (p : TypeInfoId) :
    arena.nestedFrom (bound + 1) p =
      match arena.nestStep p with
      | .halt inner => inner
      | .go target => arena.nestedFrom bound target := by
  conv_lhs => unfold nestedFrom
  unfold nestStep
  cases arena.get? p with
  | none => rfl
  | some info =>
    obtain ⟨arity, shape⟩ := info
    cases shape with
    | ref target =>
      dsimp only
      split <;> rfl
    | _ => rfl

theorem ends_of_nestedFrom {n : Nat} (h : arena.nestedFrom n p = some q) :
    Ends arena.nestStep p (some q) := by
  induction n generalizing p with
  | zero => cases h
  | succ n ih =>
    rw [nestedFrom_succ] at h
    cases hstep : arena.nestStep p with
    | halt inner =>
      rw [hstep] at h
      exact .halt (h ▸ hstep)
    | go target =>
      rw [hstep] at h
      exact .go hstep (ih h)

theorem nestedFrom_of_ended {n : Nat} {seen : List TypeInfoId}
    (h : chaseFrom arena.nestStep n seen p = .ended (some q)) : arena.nestedFrom n p = some q := by
  induction n generalizing seen p with
  | zero => cases h
  | succ n ih =>
    unfold chaseFrom at h
    rw [nestedFrom_succ]
    cases hstep : arena.nestStep p with
    | halt inner =>
      rw [hstep] at h
      exact Course.ended.inj h
    | go target =>
      rw [hstep] at h
      dsimp only at h
      split at h
      · cases h
      · exact ih h

/-- What is nested is found at the end of a chain, and there are steps enough for each. -/
theorem nested_eq_some_iff : arena.nested p = some q ↔ Ends arena.nestStep p (some q) := by
  have hgo : ∀ p q, arena.nestStep p = .go q → p ∈ arena.ids := fun p q hstep => by
    obtain ⟨_, hget, _⟩ := get?_of_go hstep
    exact (mem_ids arena p).2 (index_lt_of_get? hget)
  have henough : arena.ids.length < arena.size + 1 := by simp [ids]
  exact ⟨ends_of_nestedFrom, fun h =>
    nestedFrom_of_ended ((chase_eq_ended_iff hgo henough p _).2 h)⟩

theorem lt_of_alternatives? {l : List TypeInfoId} (h : arena.alternatives? p = some l) :
    p.index < arena.size := by
  obtain ⟨_, hget⟩ := alternatives?_eq_some_iff.1 h
  exact index_lt_of_get? hget

/-! ### Where nothing else is nested -/

/-- The same alternatives and refs. -/
structure SameNesting (arena arena' : TypeInfoArena) : Prop where
  anyOf : ∀ p arity l, arena'.get? p = some ⟨arity, .anyOf l⟩ ↔
    arena.get? p = some ⟨arity, .anyOf l⟩
  ref : ∀ p arity q, arena'.get? p = some ⟨arity, .ref q⟩ ↔ arena.get? p = some ⟨arity, .ref q⟩

theorem SameNesting.refl (arena : TypeInfoArena) : arena.SameNesting arena :=
  ⟨fun _ _ _ => Iff.rfl, fun _ _ _ => Iff.rfl⟩

theorem SameNesting.trans (h : arena.SameNesting arena') (h' : arena'.SameNesting arena'') :
    arena.SameNesting arena'' where
  anyOf p arity l := (h'.anyOf p arity l).trans (h.anyOf p arity l)
  ref p arity q := (h'.ref p arity q).trans (h.ref p arity q)

theorem SameNesting.alternatives? (h : arena.SameNesting arena') (p : TypeInfoId) :
    arena'.alternatives? p = arena.alternatives? p :=
  Option.ext fun l => by simp only [alternatives?_eq_some_iff, h.anyOf]

theorem SameNesting.nestStep (h : arena.SameNesting arena') : arena'.nestStep = arena.nestStep := by
  funext p
  unfold TypeInfoArena.nestStep
  split
  · next arity l hget => rw [(h.anyOf p arity l).1 hget]
  · next arity q hget => rw [(h.ref p arity q).1 hget]
  · next hanyOf href =>
    split
    · next arity l hget => exact absurd ((h.anyOf p arity l).2 hget) (hanyOf arity l)
    · next arity q hget => exact absurd ((h.ref p arity q).2 hget) (href arity q)
    · rfl

theorem SameNesting.nested (h : arena.SameNesting arena') : arena'.nested = arena.nested := by
  funext p
  exact Option.ext fun q => by rw [nested_eq_some_iff, nested_eq_some_iff, h.nestStep]

section FlattenOne

variable {flattenAt : List TypeInfoId → TypeInfoId → Flattened} {sofar : Flattened}

theorem flattenOne_of_none (h : arena.nested q = none) : arena.flattenOne flattenAt sofar q =
    { sofar with alternatives := sofar.alternatives ++ [q] } := by
  unfold flattenOne
  rw [h]

theorem flattenOne_of_mem (h : arena.nested q = some p) (hp : p ∈ sofar.expanded) :
    arena.flattenOne flattenAt sofar q =
      { sofar with alternatives := sofar.alternatives ++ [q] } := by
  unfold flattenOne
  rw [h]
  exact if_pos hp

theorem flattenOne_of_not_mem (h : arena.nested q = some p) (hp : p ∉ sofar.expanded) :
    arena.flattenOne flattenAt sofar q =
      ⟨sofar.alternatives ++ (flattenAt (p :: sofar.expanded) p).alternatives,
        (flattenAt (p :: sofar.expanded) p).expanded⟩ := by
  unfold flattenOne
  rw [h]
  exact if_neg hp

end FlattenOne

/-! ### Everything that is nested -/

/-- More has been flattened. -/
structure Flattened.Grows (sofar sofar' : Flattened) : Prop where
  alternatives : sofar.alternatives ⊆ sofar'.alternatives
  expanded : sofar.expanded <:+ sofar'.expanded

/-- A place is listed, or the alternatives nested at it have been expanded. -/
structure Covered (arena : TypeInfoArena) (sofar : Flattened) (q : TypeInfoId) : Prop where
  listed : arena.nested q = none → q ∈ sofar.alternatives
  expanded : ∀ r, arena.nested q = some r → r ∈ sofar.expanded

theorem Covered.grows {sofar sofar' : Flattened} (h : arena.Covered sofar q)
    (g : sofar.Grows sofar') : arena.Covered sofar' q :=
  ⟨fun hn => g.alternatives (h.listed hn), fun r hr => g.expanded.subset (h.expanded r hr)⟩

/-- What an expansion has come to after some places, where the alternatives at those in `expanded`
have been expanded before or are about to be. -/
structure Covers (arena : TypeInfoArena) (expanded done : List TypeInfoId) (sofar : Flattened) :
    Prop where
  grows : expanded <:+ sofar.expanded
  nodup : sofar.expanded.Nodup
  lt : ∀ r ∈ sofar.expanded, r.index < arena.size
  done : ∀ q ∈ done, arena.Covered sofar q
  new : ∀ r ∈ sofar.expanded, r ∉ expanded →
    ∀ l, arena.alternatives? r = some l → ∀ q ∈ l, arena.Covered sofar q

theorem Covers.listed {expanded done : List TypeInfoId} {sofar : Flattened}
    (h : arena.Covers expanded done sofar) (hq : arena.Covered { sofar with
      alternatives := sofar.alternatives ++ [q] } q) :
    arena.Covers expanded (done ++ [q]) { sofar with
      alternatives := sofar.alternatives ++ [q] } where
  grows := h.grows
  nodup := h.nodup
  lt := h.lt
  done r hr := by
    rcases List.mem_append.1 hr with hr | hr
    · exact (h.done r hr).grows ⟨List.subset_append_left _ _, List.suffix_rfl⟩
    · exact List.mem_singleton.1 hr ▸ hq
  new r hr hn l hl q' hq' :=
    (h.new r hr hn l hl q' hq').grows ⟨List.subset_append_left _ _, List.suffix_rfl⟩

/-- One place more is covered. -/
theorem Covers.flattenOne {expanded done : List TypeInfoId} {sofar : Flattened}
    {flattenAt : List TypeInfoId → TypeInfoId → Flattened} (h : arena.Covers expanded done sofar)
    (hinner : ∀ r, arena.nested q = some r → r ∉ sofar.expanded →
      arena.Covers (r :: sofar.expanded) ((arena.alternatives? r).getD [])
        (flattenAt (r :: sofar.expanded) r)) :
    arena.Covers expanded (done ++ [q]) (arena.flattenOne flattenAt sofar q) := by
  cases hn : arena.nested q with
  | none =>
    rw [flattenOne_of_none hn]
    exact h.listed ⟨fun _ => List.mem_append_right _ (List.mem_singleton.2 rfl),
      fun r hr => by rw [hn] at hr; cases hr⟩
  | some r =>
    by_cases hr : r ∈ sofar.expanded
    · rw [flattenOne_of_mem hn hr]
      refine h.listed ⟨fun hnone => (by rw [hn] at hnone; cases hnone), fun s hs => ?_⟩
      rw [hn] at hs
      cases hs
      exact hr
    · rw [flattenOne_of_not_mem hn hr]
      have hc := hinner r hn hr
      generalize flattenAt (r :: sofar.expanded) r = more at hc
      have hsuffix : sofar.expanded <:+ more.expanded := (List.suffix_cons r _).trans hc.grows
      have hbefore : sofar.Grows ⟨sofar.alternatives ++ more.alternatives, more.expanded⟩ :=
        ⟨List.subset_append_left _ _, hsuffix⟩
      have hmore : more.Grows ⟨sofar.alternatives ++ more.alternatives, more.expanded⟩ :=
        ⟨List.subset_append_right _ _, List.suffix_rfl⟩
      refine ⟨h.grows.trans hsuffix, hc.nodup, hc.lt, fun q' hq' => ?_,
        fun s hs hns l hl q' hq' => ?_⟩
      · rcases List.mem_append.1 hq' with hq' | hq'
        · exact (h.done q' hq').grows hbefore
        · obtain rfl := List.mem_singleton.1 hq'
          refine ⟨fun hnone => (by rw [hn] at hnone; cases hnone), fun s hs => ?_⟩
          rw [hn] at hs
          cases hs
          exact hc.grows.subset List.mem_cons_self
      · by_cases hold : s ∈ sofar.expanded
        · exact (h.new s hold hns l hl q' hq').grows hbefore
        · by_cases hsr : s = r
          · subst hsr
            exact (hc.done q' (by rw [hl]; exact hq')).grows hmore
          · exact (hc.new s hs (by simp [hsr, hold]) l hl q' hq').grows hmore

/-- All alternatives at a place are covered, as there are no more places to expand than steps. -/
theorem covers_flattenFrom (bound : Nat) (expanded : List TypeInfoId) (p : TypeInfoId)
    (hn : expanded.Nodup) (hlt : ∀ r ∈ expanded, r.index < arena.size)
    (hb : arena.size < bound + expanded.length) :
    arena.Covers expanded ((arena.alternatives? p).getD [])
      (arena.flattenFrom bound expanded p) := by
  induction bound generalizing expanded p with
  | zero =>
    have hsub : expanded ⊆ arena.ids := fun r hr => (mem_ids arena r).2 (hlt r hr)
    have hlen := (hn.subperm hsub).length_le
    simp only [ids, List.length_map, List.length_range] at hlen
    omega
  | succ bound ih =>
    refine foldl_inv (arena.Covers expanded)
      ⟨List.suffix_rfl, hn, hlt, fun _ hq => (by cases hq), fun r hr hnew => absurd hr hnew⟩
      fun done q rest sofar _ hc => hc.flattenOne fun r hr hnew => ?_
    obtain ⟨l, hl⟩ := exists_of_nested hr
    refine ih _ r (List.nodup_cons.2 ⟨hnew, hc.nodup⟩) (fun s hs => ?_) ?_
    · rcases List.mem_cons.1 hs with rfl | hs
      · exact lt_of_alternatives? hl
      · exact hc.lt s hs
    · have hlen := hc.grows.length_le
      rw [List.length_cons]
      omega

end TypeInfoArena

/-! ### Nothing else -/

namespace Choices

open TypeInfoArena

variable {ι : Type} {c : Choices ι} {arena : TypeInfoArena} {p q r v : TypeInfoId} {y : ι}

/-- An alternative has brought a place to be expanded. Unless the place is surplus to it, the list
that the alternative is from is one of those that count. -/
def Brought (c : Choices ι) (p : TypeInfoId) (counts : TypeInfoId → ι → Prop) (r : TypeInfoId) :
    Prop :=
  ∃ y, c.Unfolds p y ∧ c.inner (c.place y) = some r ∧
    (c.Surplus p y r ∨ ∃ q, y ∈ c.entries q ∧ counts q y)

theorem Brought.mono {counts counts' : TypeInfoId → ι → Prop} (h : c.Brought p counts r)
    (hc : ∀ q y, counts q y → counts' q y) : c.Brought p counts' r := by
  obtain ⟨y, hy, hr, hs⟩ := h
  exact ⟨y, hy, hr, hs.imp_right fun ⟨q, hq, hcount⟩ => ⟨q, hq, hc q y hcount⟩⟩

/-- What is brought by something else is surplus. -/
theorem Brought.surplus {counts : TypeInfoId → ι → Prop} (h : c.Brought p counts r)
    (hy : ∀ q, y ∈ c.entries q → ¬counts q y) : c.Surplus p y r := by
  obtain ⟨x, hx, hr, hs⟩ := h
  by_cases hxy : x = y
  · subst hxy
    exact hs.resolve_right fun ⟨q, hq, hcount⟩ => hy q hq hcount
  · exact .inr ⟨x, hxy, hx, hr⟩

/-- The alternatives at `v`, which come up at `p`, are about to be expanded. The lists that count
are those of the other places that have been. -/
structure Ready (c : Choices ι) (p : TypeInfoId) (expanded : List TypeInfoId) (v : TypeInfoId) :
    Prop where
  path : Relation.ReflTransGen c.Nests p v
  mem : v ∈ expanded
  brought : ∀ r ∈ expanded, r = p ∨ c.Brought p (fun q _ => q ∈ expanded ∧ q ≠ v) r

/-- What the expansion has come to after some of the alternatives at `v`. These count now, and all
lists that have been expanded for them. -/
structure Spreads (c : Choices ι) (p : TypeInfoId) (expanded : List TypeInfoId) (v : TypeInfoId)
    (done : List ι) (sofar : Flattened) : Prop where
  grows : expanded ⊆ sofar.expanded
  listed : ∀ q ∈ sofar.alternatives, c.MayList p q
  brought : ∀ r ∈ sofar.expanded, r ∈ expanded ∨
    c.Brought p (fun q y => q ∈ sofar.expanded ∧ (q = v ∧ y ∈ done ∨ q ∉ expanded)) r

theorem Spreads.listOne {expanded : List TypeInfoId} {done : List ι} {sofar : Flattened}
    (h : c.Spreads p expanded v done sofar) (hq : c.MayList p (c.place y)) :
    c.Spreads p expanded v (done ++ [y])
      { sofar with alternatives := sofar.alternatives ++ [c.place y] } where
  grows := h.grows
  listed q hmem := (List.mem_append.1 hmem).elim (h.listed q) fun hmem =>
    List.mem_singleton.1 hmem ▸ hq
  brought r hr := (h.brought r hr).imp_right fun hb => hb.mono fun _ _ ⟨hmem, hx⟩ =>
    ⟨hmem, hx.imp_left fun hx => ⟨hx.1, List.mem_append_left _ hx.2⟩⟩

/-- An alternative at `v`, the next one or one that may be left as it is. -/
structure Next (c : Choices ι) (v : TypeInfoId) (done : List ι) (y : ι) : Prop where
  unfolds : c.Unfolds v y
  new : (∀ r, c.inner (c.place y) = some r → c.Surplus v y r) ∨ y ∈ c.entries v ∧ y ∉ done

section One

variable {expanded : List TypeInfoId} {done all : List ι} {sofar more : Flattened}

/-- The alternative brings what it leads to, be that surplus or not. -/
theorem Next.brought {counts : TypeInfoId → ι → Prop} (hy : c.Next v done y)
    (hready : c.Ready p expanded v) (hr : c.inner (c.place y) = some r) (hcounts : counts v y) :
    c.Brought p counts r :=
  ⟨y, hy.unfolds.trans hready.path, hr, hy.new.imp (fun hs => (hs r hr).trans hready.path)
    fun hentry => ⟨v, hentry.1, hcounts⟩⟩

/-- What has been expanded before is surplus to the alternative. -/
theorem Spreads.surplus (h : c.Spreads p expanded v done sofar) (hc : c.Proper)
    (hready : c.Ready p expanded v) (hy : c.Next v done y) (hr : c.inner (c.place y) = some r)
    (hmem : r ∈ sofar.expanded) : c.Surplus p y r := by
  rcases hy.new with hs | ⟨hentry, hdone⟩
  · exact (hs r hr).trans hready.path
  rcases h.brought r hmem with hbefore | hb
  · rcases hready.brought r hbefore with rfl | hb
    · exact .inl ((hy.unfolds.trans hready.path).circle hr)
    · exact hb.surplus fun q hq hcount => hcount.2 (hc.apart q v y hq hentry)
  · refine hb.surplus fun q hq ⟨_, hcount⟩ => ?_
    obtain rfl := hc.apart q v y hq hentry
    exact hcount.elim (fun hd => hdone hd.2) fun hnew => hnew hready.mem

/-- What has not can be expanded next. -/
theorem Spreads.ready (h : c.Spreads p expanded v done sofar) (hready : c.Ready p expanded v)
    (hy : c.Next v done y) (hr : c.inner (c.place y) = some r) (hnew : r ∉ sofar.expanded) :
    c.Ready p (r :: sofar.expanded) r := by
  have hcounts : ∀ q ∈ sofar.expanded, q ∈ r :: sofar.expanded ∧ q ≠ r := fun q hq =>
    ⟨List.mem_cons_of_mem _ hq, fun he => hnew (he ▸ hq)⟩
  refine ⟨(hy.unfolds.trans hready.path).path hr, List.mem_cons_self, fun s hs => ?_⟩
  rcases List.mem_cons.1 hs with rfl | hs
  · exact .inr (hy.brought hready hr (hcounts v (h.grows hready.mem)))
  rcases h.brought s hs with hbefore | hb
  · exact (hready.brought s hbefore).imp_right fun hb =>
      hb.mono fun q _ hq => hcounts q (h.grows hq.1)
  · exact .inr (hb.mono fun q _ hq => hcounts q hq.1)

/-- Its alternatives take the place of the one that leads to it. -/
theorem Spreads.append (h : c.Spreads p expanded v done sofar) (hready : c.Ready p expanded v)
    (hy : c.Next v done y) (hr : c.inner (c.place y) = some r) (hnew : r ∉ sofar.expanded)
    (hm : c.Spreads p (r :: sofar.expanded) r all more) :
    c.Spreads p expanded v (done ++ [y])
      ⟨sofar.alternatives ++ more.alternatives, more.expanded⟩ := by
  have hsub : sofar.expanded ⊆ more.expanded := fun q hq => hm.grows (List.mem_cons_of_mem _ hq)
  refine ⟨fun q hq => hsub (h.grows hq),
    fun q hq => (List.mem_append.1 hq).elim (h.listed q) (hm.listed q), fun s hs => ?_⟩
  rcases hm.brought s hs with hbefore | hb
  · rcases List.mem_cons.1 hbefore with rfl | hbefore
    · exact .inr (hy.brought hready hr ⟨hsub (h.grows hready.mem),
        .inl ⟨rfl, List.mem_append_right _ (List.mem_singleton.2 rfl)⟩⟩)
    · exact (h.brought s hbefore).imp_right fun hb => hb.mono fun q x ⟨hq, hx⟩ =>
        ⟨hsub hq, hx.imp_left fun hx => ⟨hx.1, List.mem_append_left _ hx.2⟩⟩
  · refine .inr (hb.mono fun q x ⟨hq, hx⟩ => ⟨hq, .inr fun hbefore => ?_⟩)
    have hold := h.grows hbefore
    exact hx.elim (fun hx => hnew (hx.1 ▸ hold)) fun hx => hx (List.mem_cons_of_mem _ hold)

/-- One alternative more. -/
theorem Spreads.flattenOne (hc : c.Proper) (hnested : ∀ q, arena.nested q = c.inner q)
    {flattenAt : List TypeInfoId → TypeInfoId → Flattened} (hready : c.Ready p expanded v)
    (h : c.Spreads p expanded v done sofar) (hy : c.Next v done y)
    (hinner : ∀ r, c.Ready p (r :: sofar.expanded) r →
      ∃ all, c.Spreads p (r :: sofar.expanded) r all (flattenAt (r :: sofar.expanded) r)) :
    c.Spreads p expanded v (done ++ [y]) (arena.flattenOne flattenAt sofar (c.place y)) := by
  have hunfolds := hy.unfolds.trans hready.path
  cases hn : arena.nested (c.place y) with
  | none =>
    rw [flattenOne_of_none hn]
    rw [hnested] at hn
    exact h.listOne ⟨y, rfl, hunfolds, fun r hr => by rw [hn] at hr; cases hr⟩
  | some r =>
    have hr := hnested _ ▸ hn
    by_cases hmem : r ∈ sofar.expanded
    · rw [flattenOne_of_mem hn hmem]
      refine h.listOne ⟨y, rfl, hunfolds, fun s hs => ?_⟩
      rw [hr] at hs
      cases hs
      exact h.surplus hc hready hy hr hmem
    · rw [flattenOne_of_not_mem hn hmem]
      obtain ⟨all, hm⟩ := hinner r (h.ready hready hy hr hmem)
      exact h.append hready hy hr hmem hm

end One

/-! ### Flattening -/

section Flattening

variable (hc : c.Proper) (h : c.Holds arena)

include hc h in
/-- The alternatives that a list comes from, flat or as written. -/
theorem Holds.exists_entries (v : TypeInfoId) :
    ∃ ys : List ι, ys.map c.place = (arena.alternatives? v).getD [] ∧
      ∀ done y rest, ys = done ++ y :: rest → c.Next v done y := by
  cases hl : arena.alternatives? v with
  | none => exact ⟨[], rfl, fun done y rest he => by simp at he⟩
  | some l =>
    rcases h.lists v l hl with rfl | hflat
    · refine ⟨c.entries v, rfl, fun done y rest he => ?_⟩
      have hmem : y ∈ c.entries v := by simp [he]
      have hn := hc.nodup v
      rw [he] at hn
      exact ⟨.own hmem, .inr ⟨hmem, fun hd =>
        (List.nodup_append.1 hn).2.2 y hd y List.mem_cons_self rfl⟩⟩
    · obtain ⟨ys, rfl, hys⟩ := exists_map_eq (P := fun y => c.Unfolds v y ∧
        ∀ r, c.inner (c.place y) = some r → c.Surplus v y r) hflat.sound
      refine ⟨ys, rfl, fun done y rest he => ?_⟩
      obtain ⟨hy, hs⟩ := hys y (by simp [he])
      exact ⟨hy, .inl hs⟩

include hc h in
/-- Whatever is expanded, only what may be listed is. -/
theorem Holds.spreads_flattenFrom (bound : Nat) {expanded : List TypeInfoId}
    (hready : c.Ready p expanded v) :
    ∃ all, c.Spreads p expanded v all (arena.flattenFrom bound expanded v) := by
  induction bound generalizing expanded v with
  | zero => exact ⟨[], fun _ hr => hr, fun _ hq => (by cases hq), fun _ hr => .inl hr⟩
  | succ bound ih =>
    obtain ⟨ys, hmap, hys⟩ := h.exists_entries hc v
    refine ⟨ys, ?_⟩
    unfold flattenFrom
    rw [← hmap, List.foldl_map]
    exact foldl_inv (c.Spreads p expanded v)
      ⟨fun _ hr => hr, fun _ hq => (by cases hq), fun _ hr => .inl hr⟩
      fun done y rest sofar he hs => hs.flattenOne hc h.nested hready (hys done y rest he)
        fun r hnext => ih hnext

/-- Once everything that has been expanded is covered, all that is nested is listed. -/
theorem Holds.listed_of_covered (h : c.Holds arena) {result : Flattened}
    (hcovered : ∀ r ∈ result.expanded, ∀ l, arena.alternatives? r = some l →
      ∀ q ∈ l, arena.Covered result q)
    (hp : p ∈ result.expanded) (hlist : ∃ l, arena.alternatives? p = some l)
    (hy : c.Unfolds p y) (hn : c.inner (c.place y) = none) : c.place y ∈ result.alternatives := by
  obtain ⟨r, hpr, hentry⟩ := hy
  have hleaf : arena.nested (c.place y) = none := (h.nested _).trans hn
  -- along the path, each list is as written, or flat and lists the alternative itself
  induction hpr using Relation.ReflTransGen.head_induction_on with
  | refl =>
    obtain ⟨l, hl⟩ := hlist
    rcases h.lists _ l hl with rfl | hflat
    · exact (hcovered _ hp _ hl _ (List.mem_map_of_mem hentry)).listed hleaf
    · exact (hcovered _ hp _ hl _ (hflat.complete y (.own hentry) hn)).listed hleaf
  | @head q s hqs hsr ih =>
    obtain ⟨l, hl⟩ := hlist
    rcases h.lists q l hl with rfl | hflat
    · obtain ⟨x, hx, hs⟩ := hqs
      have hnested := (h.nested _).trans hs
      exact ih ((hcovered q hp _ hl _ (List.mem_map_of_mem hx)).expanded s hnested)
        (exists_of_nested hnested)
    · exact (hcovered q hp l hl _ (hflat.complete y ⟨r, .head hqs hsr, hentry⟩ hn)).listed hleaf

include hc h in
/-- **Flattening.** A list comes out flat, whichever lists are flat already. -/
theorem Holds.flat_flatten {l : List TypeInfoId} (hl : arena.alternatives? p = some l) :
    c.Flat p (arena.flatten p) where
  complete y hy hn := by
    have hcovers : arena.Covers [p] _ (arena.flattenFrom (arena.size + 1) [p] p) :=
      covers_flattenFrom _ _ _ (List.nodup_singleton p)
        (fun r hr => List.mem_singleton.1 hr ▸ lt_of_alternatives? hl)
        (by rw [List.length_singleton]; omega)
    refine h.listed_of_covered (fun r hr l' hl' q hq => ?_)
      (hcovers.grows.subset (List.mem_singleton.2 rfl)) ⟨l, hl⟩ hy hn
    by_cases hrp : r = p
    · subst hrp
      exact hcovers.done q (by rw [hl']; exact hq)
    · exact hcovers.new r hr (by simpa using hrp) l' hl' q hq
  sound := by
    have hready : c.Ready p [p] p :=
      ⟨.refl, List.mem_singleton.2 rfl, fun r hr => .inl (List.mem_singleton.1 hr)⟩
    obtain ⟨all, hs⟩ := h.spreads_flattenFrom hc (arena.size + 1) hready
    exact hs.listed

include hc h in
theorem Holds.flattenAt (p : TypeInfoId) : c.Holds (arena.flattenAt p) where
  nested q := by rw [nested_flattenAt, h.nested]
  lists q l hl := by
    rw [alternatives?_flattenAt] at hl
    split at hl
    · next hq =>
      subst hq
      obtain ⟨l', hl', rfl⟩ := Option.map_eq_some_iff.1 hl
      exact .inr (h.flat_flatten hc hl')
    · exact h.lists q l hl

end Flattening
end Choices

/-! ### Before variants are flattened -/

namespace Draft

variable {d d' : Draft} {root id : ElementId}

/-- A value is filled in where there was nothing. -/
theorem sameNesting_settleNarrowing (hi : d.Indexed) (h : d.settleNarrowing id = .ok d') :
    d.typeInfos.SameNesting d'.typeInfos := by
  unfold settleNarrowing at h
  split at h
  · cases h
    exact .refl _
  · next place _ =>
    split at h
    · next hcontains =>
      obtain ⟨n, hn⟩ := Option.isSome_iff_exists.1 hcontains
      split at h
      · next s _ =>
        cases h
        have hnone := (hi.narrowed place n hn).1
        have hsame : ∀ p info, (∀ s, info.shape ≠ .scalar s) →
            ((d.scalarSettled place s).typeInfos.get? p = some info ↔
              d.typeInfos.get? p = some info) := fun p info hne => by
          rw [get?_scalarSettled hi hn s p]
          split
          · next hp =>
            rw [hp, hnone]
            exact ⟨fun he => absurd (congrArg TypeInfo.shape (Option.some.inj he)).symm (hne s),
              fun he => by cases he⟩
          · exact Iff.rfl
        exact ⟨fun p arity l => hsame p _ fun _ he => (by cases he),
          fun p arity q => hsame p _ fun _ he => (by cases he)⟩
      · cases h
    · cases h
      exact .refl _

/-- A field is renamed, in a type that is neither a list of alternatives nor a ref. -/
theorem sameNesting_nameField {name : String} (h : d.nameField id name = .ok d') :
    d.typeInfos.SameNesting d'.typeInfos := by
  rcases nameField_ok h with ⟨arity, c, hrecord, _, rfl⟩ | ⟨_, rfl⟩
  · have hsame : ∀ p info, (∀ c, info.shape ≠ .record c) →
        ((d.valueNamed id arity c name).typeInfos.get? p = some info ↔
          d.typeInfos.get? p = some info) := fun p info hne => by
      rw [get?_valueNamed name hrecord]
      split
      · next hp =>
        rw [hp, hrecord]
        exact ⟨fun he => absurd (congrArg TypeInfo.shape (Option.some.inj he)).symm (hne _),
          fun he => absurd (congrArg TypeInfo.shape (Option.some.inj he)).symm (hne _)⟩
      · exact Iff.rfl
    exact ⟨fun p arity l => hsame p _ nofun, fun p arity q => hsame p _ nofun⟩
  · exact .refl _

theorem sameNesting_settleValue (hi : d.Indexed) (h : d.settleValue id = .ok d') :
    d.typeInfos.SameNesting d'.typeInfos := by
  unfold settleValue at h
  split at h
  · obtain ⟨d₁, h₁, h⟩ := bind_eq_ok h
    obtain ⟨d₂, h₂, h⟩ := bind_eq_ok h
    cases h
    have hnamed : d₁.typeInfos.SameNesting d₂.typeInfos := sameNesting_nameField h₂
    exact (sameNesting_settleNarrowing hi h₁).trans hnamed
  · cases h
    exact .refl _

theorem sameNesting_settleAllValues (hi : d.Indexed) (hnamed : d.Unnamed)
    (h : d.settleAllValues root = .ok d') : d.typeInfos.SameNesting d'.typeInfos :=
  (foldlM_ok (fun done d' => ValuesSettled d done d' ∧ d.typeInfos.SameNesting d'.typeInfos) h
    ⟨⟨.refl d, hi, fun _ _ => rfl, fun _ _ hv => hv, fun _ hj => by cases hj⟩, .refl _⟩
    fun done id rest d₁ d₂ hl ⟨hs, hsame⟩ hstep => by
      have hn := d.nodup_walk root
      rw [hl] at hn
      exact ⟨hs.step hnamed hn hstep, hsame.trans (sameNesting_settleValue hs.indexed hstep)⟩).2

end Draft

/-! ### All variants -/

namespace Draft

variable {ι : Type} {c : Choices ι} {d : Draft} {root id : ElementId}

theorem holds_flattenVariant (hc : c.Proper) (h : c.Holds d.typeInfos) (id : ElementId) :
    c.Holds (d.flattenVariant id).typeInfos := by
  unfold Draft.flattenVariant
  split
  · exact h.flattenAt hc _
  · exact h

theorem element_flattenVariant (d : Draft) (id j : ElementId) :
    (d.flattenVariant id).element j = d.element j := by
  unfold flattenVariant
  split <;> rfl

/-- Each variant that is visited ends up with a flat list, in whatever order. -/
theorem flat_foldl_flattenVariant (hc : c.Proper) (h : c.Holds d.typeInfos)
    (order : List ElementId) :
    c.Holds (order.foldl flattenVariant d).typeInfos ∧
      (∀ j, (order.foldl flattenVariant d).element j = d.element j) ∧
      ∀ j ∈ order, (d.element j).kind = .variant → ∀ l,
        (order.foldl flattenVariant d).typeInfos.alternatives? (d.element j).typeInfo = some l →
          c.Flat (d.element j).typeInfo l := by
  refine foldl_inv (fun done d' => c.Holds d'.typeInfos ∧ (∀ j, d'.element j = d.element j) ∧
    ∀ j ∈ done, (d.element j).kind = .variant → ∀ l,
      d'.typeInfos.alternatives? (d.element j).typeInfo = some l → c.Flat (d.element j).typeInfo l)
    ⟨h, fun _ => rfl, fun _ hj => (by cases hj)⟩
    fun done i rest d' _ ⟨hholds, hsame, hdone⟩ => ⟨holds_flattenVariant hc hholds i,
      fun j => (element_flattenVariant d' i j).trans (hsame j), fun j hj hkind l hl => ?_⟩
  unfold flattenVariant at hl
  split at hl
  · next variations hdata =>
    rw [hsame] at hl
    replace hl : (d'.typeInfos.flattenAt (d.element i).typeInfo).alternatives? _ = some l := hl
    rw [TypeInfoArena.alternatives?_flattenAt] at hl
    split at hl
    · next hplace =>
      obtain ⟨l', hl', rfl⟩ := Option.map_eq_some_iff.1 hl
      rw [hplace] at hl' ⊢
      exact hholds.flat_flatten hc hl'
    · next hplace =>
      refine hdone j ((List.mem_append.1 hj).resolve_right fun hji => hplace ?_) hkind l hl
      rw [List.mem_singleton.1 hji]
  · next hnot =>
    refine hdone j ((List.mem_append.1 hj).resolve_right fun hji => ?_) hkind l hl
    -- an element that is a variant is flattened
    obtain rfl := List.mem_singleton.1 hji
    rw [hsame] at hnot
    unfold Element.kind at hkind
    cases hdata : (d.element j).data with
    | variant variations => exact hnot variations hdata
    | _ =>
      rw [hdata] at hkind
      cases hkind

/-- Each variant that is walked to ends up with a flat list. -/
theorem flat_flattenVariants (hc : c.Proper) (h : c.Holds d.typeInfos) (hid : id ∈ d.walk root)
    (hk : (d.element id).kind = .variant) {l : List TypeInfoId}
    (hl : (d.flattenVariants root).typeInfos.alternatives? (d.element id).typeInfo = some l) :
    c.Flat (d.element id).typeInfo l :=
  (flat_foldl_flattenVariant hc h (d.walk root)).2.2 id hid hk l hl

end Draft
end Schemata
