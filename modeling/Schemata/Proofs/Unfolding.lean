import Schemata.Proofs.Draft.Flattening

/-! What flattening keeps of the alternatives.

An alternative is nested when it stands for alternatives itself, directly or through refs,
and everything on the way occurs exactly once. Variants are flattened one after another, in
any order, in lists that may repeat, share or contain each other, and of which some are flat
already. Whatever has been flattened before, the plain alternatives to which a variant comes
down stay the same; at the end a visited variant lists all of them, and besides them only
nested alternatives that it came down to before. -/
namespace Schemata

open Search

namespace TypeInfoArena

variable {arena arena' : TypeInfoArena} {p q r a b : TypeInfoId}

/-! ### Coming down to alternatives -/

/-- The alternatives at `q` are nested at `p`, on a way of which everything occurs exactly once. -/
inductive NestedAt (arena : TypeInfoArena) : TypeInfoId → TypeInfoId → Prop
  | alternatives {p : TypeInfoId} {arity : Arity} {l : List TypeInfoId}
    (h : arena.get? p = some ⟨arity, .anyOf l⟩) (hone : arity.isExactlyOne) : arena.NestedAt p p
  | ref {p target q : TypeInfoId} {arity : Arity} (h : arena.get? p = some ⟨arity, .ref target⟩)
    (hone : arity.isExactlyOne) (hq : arena.NestedAt target q) : arena.NestedAt p q

/-- No alternatives are nested at a place. -/
def Plain (arena : TypeInfoArena) (a : TypeInfoId) : Prop := ∀ q, ¬arena.NestedAt a q

/-- What the alternatives at `p` come down to, while nested ones are expanded over and over. -/
inductive Unfolds (arena : TypeInfoArena) (p : TypeInfoId) : TypeInfoId → Prop
  | listed {l : List TypeInfoId} {a : TypeInfoId} (hl : arena.alternatives? p = some l)
    (ha : a ∈ l) : arena.Unfolds p a
  | nested {b q a : TypeInfoId} {l : List TypeInfoId} (hb : arena.Unfolds p b)
    (hq : arena.NestedAt b q) (hl : arena.alternatives? q = some l) (ha : a ∈ l) :
    arena.Unfolds p a

theorem nested_eq_some_iff_nestedAt : arena.nested p = some q ↔ arena.NestedAt p q := by
  rw [nested_eq_some_iff]
  constructor
  · intro h
    generalize hinner : some q = inner at h
    induction h with
    | halt hstep =>
      subst hinner
      obtain ⟨arity, l, hget, hone, rfl⟩ := get?_of_halt hstep
      exact .alternatives hget hone
    | go hstep _ ih =>
      obtain ⟨arity, hget, hone⟩ := get?_of_go hstep
      exact .ref hget hone (ih hinner)
  · intro h
    induction h with
    | alternatives hget hone => exact .halt (nestStep_of_anyOf hget hone)
    | ref hget hone _ ih => exact .go (nestStep_of_ref hget hone) ih

theorem plain_iff : arena.Plain a ↔ arena.nested a = none := by
  rw [Option.eq_none_iff_forall_ne_some]
  exact forall_congr' fun q => not_congr nested_eq_some_iff_nestedAt.symm

/-! ### The alternatives as they are listed -/

/-- An entry of a list is told by the list and the position in it. -/
def asListed (arena : TypeInfoArena) : Choices (TypeInfoId × Nat) where
  entries p := (List.range ((arena.alternatives? p).getD []).length).map fun i => (p, i)
  place y := ((arena.alternatives? y.1).getD []).getD y.2 y.1
  inner := arena.nested

theorem map_entries_asListed (arena : TypeInfoArena) (p : TypeInfoId) :
    (arena.asListed.entries p).map arena.asListed.place = (arena.alternatives? p).getD [] := by
  unfold asListed
  rw [List.map_map]
  refine List.ext_getElem (by simp) fun i hi hi' => ?_
  simp [hi']

theorem proper_asListed (arena : TypeInfoArena) : arena.asListed.Proper where
  nodup p := List.nodup_range.map fun i j h => congrArg Prod.snd h
  apart p q y hp hq := by
    obtain ⟨i, _, rfl⟩ := List.mem_map.1 hp
    obtain ⟨j, _, h⟩ := List.mem_map.1 hq
    exact (congrArg Prod.fst h).symm

theorem holds_asListed (arena : TypeInfoArena) : arena.asListed.Holds arena where
  nested _ := rfl
  lists p l hl := .inl (by rw [map_entries_asListed, hl]; rfl)

theorem exists_entry_iff : (∃ y ∈ arena.asListed.entries p, arena.asListed.place y = a) ↔
    ∃ l, arena.alternatives? p = some l ∧ a ∈ l := by
  rw [← List.mem_map, map_entries_asListed]
  cases arena.alternatives? p <;> simp

theorem unfolds_iff : arena.Unfolds p a ↔
    ∃ y, arena.asListed.Unfolds p y ∧ arena.asListed.place y = a := by
  constructor
  · intro h
    induction h with
    | listed hl ha =>
      obtain ⟨y, hy, hplace⟩ := exists_entry_iff.2 ⟨_, hl, ha⟩
      exact ⟨y, .own hy, hplace⟩
    | nested _ hq hl ha ih =>
      obtain ⟨x, hx, rfl⟩ := ih
      obtain ⟨y, hy, hplace⟩ := exists_entry_iff.2 ⟨_, hl, ha⟩
      exact ⟨y, ⟨_, hx.path (nested_eq_some_iff_nestedAt.2 hq), hy⟩, hplace⟩
  · rintro ⟨y, ⟨q, hpq, hy⟩, rfl⟩
    induction hpq generalizing y with
    | refl =>
      obtain ⟨l, hl, ha⟩ := exists_entry_iff.1 ⟨y, hy, rfl⟩
      exact .listed hl ha
    | tail _ hnests ih =>
      obtain ⟨x, hx, hinner⟩ := hnests
      obtain ⟨l, hl, ha⟩ := exists_entry_iff.1 ⟨y, hy, rfl⟩
      exact .nested (ih x hx) (nested_eq_some_iff_nestedAt.1 hinner) hl ha

end TypeInfoArena

/-! ### Lists of which some are flat -/

namespace Choices

open TypeInfoArena

variable {ι : Type} {c : Choices ι} {arena : TypeInfoArena} {p q a : TypeInfoId} {y : ι}

/-- What is listed is written somewhere below. -/
theorem Holds.exists_of_listed (h : c.Holds arena) {l : List TypeInfoId}
    (hl : arena.alternatives? p = some l) (ha : a ∈ l) : ∃ y, c.Unfolds p y ∧ c.place y = a := by
  rcases h.lists p l hl with rfl | hflat
  · obtain ⟨y, hy, rfl⟩ := List.mem_map.1 ha
    exact ⟨y, .own hy, rfl⟩
  · obtain ⟨y, hplace, hy, _⟩ := hflat.sound a ha
    exact ⟨y, hy, hplace⟩

/-- Nothing is invented: alternatives come down to what was written. -/
theorem Holds.exists_of_unfolds (h : c.Holds arena) (ha : arena.Unfolds p a) :
    ∃ y, c.Unfolds p y ∧ c.place y = a := by
  induction ha with
  | listed hl ha => exact h.exists_of_listed hl ha
  | nested _ hq hl ha ih =>
    obtain ⟨x, hx, rfl⟩ := ih
    obtain ⟨y, hy, hplace⟩ := h.exists_of_listed hl ha
    have hinner := (h.nested _).symm.trans (nested_eq_some_iff_nestedAt.2 hq)
    exact ⟨y, hy.trans (hx.path hinner), hplace⟩

end Choices

/-! ### All variants -/

namespace TypeInfoArena

variable {arena arena' arena'' : TypeInfoArena} {p q a : TypeInfoId}

/-- The second arena has the places of the first one, up to what lists of alternatives list. -/
def DiffersInLists (arena arena' : TypeInfoArena) : Prop :=
  ∀ q, arena'.get? q = arena.get? q ∨ ∃ arity l l',
    arena.get? q = some ⟨arity, .anyOf l⟩ ∧ arena'.get? q = some ⟨arity, .anyOf l'⟩

theorem DiffersInLists.get?_of_anyOf (h : arena.DiffersInLists arena') {arity : Arity}
    {l : List TypeInfoId} (hget : arena.get? p = some ⟨arity, .anyOf l⟩) :
    ∃ l', arena'.get? p = some ⟨arity, .anyOf l'⟩ := by
  rcases h p with hsame | ⟨arity', l₁, l', hget₁, hget'⟩
  · exact ⟨l, hsame.trans hget⟩
  · rw [hget] at hget₁
    cases hget₁
    exact ⟨l', hget'⟩

theorem DiffersInLists.flattenAt (h : arena.DiffersInLists arena') (p : TypeInfoId) :
    arena.DiffersInLists (arena'.flattenAt p) := fun q => by
  rcases get?_flattenAt arena' p q with hsame | ⟨arity, l, hget, hget'⟩
  · rw [hsame]
    exact h q
  · rcases h q with hsame | ⟨arity', l₁, l', hget₁, hget₂⟩
    · exact .inr ⟨arity, l, _, hsame.symm.trans hget, hget'⟩
    · rw [hget₂] at hget
      cases hget
      exact .inr ⟨arity, l₁, _, hget₁, hget'⟩

/-- What becomes of the alternatives at `p`: they come down to the same plain ones, list all of
these, and besides them only nested ones to which they came down before. -/
structure FlattenedTo (arena arena' : TypeInfoArena) (p : TypeInfoId) : Prop where
  same : ∀ a, arena.Plain a → (arena'.Unfolds p a ↔ arena.Unfolds p a)
  listed : ∀ arity l, arena.get? p = some ⟨arity, .anyOf l⟩ →
    ∃ l', arena'.get? p = some ⟨arity, .anyOf l'⟩ ∧
      (∀ a, arena.Plain a → (a ∈ l' ↔ arena.Unfolds p a)) ∧
      ∀ a ∈ l', ¬arena.Plain a → arena.Unfolds p a

/-- A place whose list is flat. -/
theorem FlattenedTo.of_flat (hh : arena.asListed.Holds arena')
    (hlists : arena.DiffersInLists arena')
    (hflat : ∀ l, arena'.alternatives? p = some l → arena.asListed.Flat p l) :
    arena.FlattenedTo arena' p := by
  have hsound : ∀ a, arena'.Unfolds p a → arena.Unfolds p a := fun a ha =>
    unfolds_iff.2 (hh.exists_of_unfolds ha)
  have hcomplete : ∀ arity l, arena.get? p = some ⟨arity, .anyOf l⟩ →
      ∃ l', arena'.get? p = some ⟨arity, .anyOf l'⟩ ∧
        ∀ a, arena.Plain a → arena.Unfolds p a → a ∈ l' := fun arity l hget => by
    obtain ⟨l', hget'⟩ := hlists.get?_of_anyOf hget
    refine ⟨l', hget', fun a hplain ha => ?_⟩
    obtain ⟨y, hy, rfl⟩ := unfolds_iff.1 ha
    exact (hflat l' (alternatives?_eq_some_iff.2 ⟨arity, hget'⟩)).complete y hy
      (plain_iff.1 hplain)
  constructor
  · refine fun a hplain => ⟨hsound a, fun ha => ?_⟩
    obtain ⟨l, hl⟩ : ∃ l, arena.alternatives? p = some l := by
      clear hplain
      induction ha with
      | listed hl _ => exact ⟨_, hl⟩
      | nested _ _ _ _ ih => exact ih
    obtain ⟨arity, hget⟩ := alternatives?_eq_some_iff.1 hl
    obtain ⟨l', hget', hall⟩ := hcomplete arity l hget
    exact .listed (alternatives?_eq_some_iff.2 ⟨arity, hget'⟩) (hall a hplain ha)
  · intro arity l hget
    obtain ⟨l', hget', hall⟩ := hcomplete arity l hget
    have hbefore : ∀ a ∈ l', arena.Unfolds p a := fun a ha =>
      hsound a (.listed (alternatives?_eq_some_iff.2 ⟨arity, hget'⟩) ha)
    exact ⟨l', hget', fun a hplain => ⟨hbefore a, hall a hplain⟩, fun a ha _ => hbefore a ha⟩

end TypeInfoArena

namespace Draft

open TypeInfoArena

variable {d : Draft}

theorem differsInLists_foldl_flattenVariant (d : Draft) (order : List ElementId) :
    d.typeInfos.DiffersInLists (order.foldl flattenVariant d).typeInfos :=
  foldl_inv (fun _ (d' : Draft) => d.typeInfos.DiffersInLists d'.typeInfos) (fun _ => .inl rfl)
    fun _ id _ d' _ h => by
      unfold flattenVariant
      split
      · exact h.flattenAt _
      · exact h

/-- **Flattening neither loses nor invents alternatives.** In whatever order variants are visited,
nothing but lists of alternatives changes, and so nothing about what is nested where. The plain
alternatives that a visited variant comes down to stay the same; afterwards it lists just these, and
besides them only nested ones that it came down to before. -/
theorem flattenVariants_unfolds (d : Draft) :
    (∀ order : List ElementId,
      d.typeInfos.DiffersInLists (order.foldl flattenVariant d).typeInfos ∧
      (∀ p q, (order.foldl flattenVariant d).typeInfos.NestedAt p q ↔ d.typeInfos.NestedAt p q) ∧
      ∀ id ∈ order, (d.element id).kind = .variant →
        d.typeInfos.FlattenedTo (order.foldl flattenVariant d).typeInfos
          (d.element id).typeInfo) ∧
    ∀ root, ∀ id ∈ d.walk root, (d.element id).kind = .variant →
      d.typeInfos.FlattenedTo (d.flattenVariants root).typeInfos (d.element id).typeInfo := by
  have hall : ∀ order : List ElementId, ∀ id ∈ order, (d.element id).kind = .variant →
      d.typeInfos.FlattenedTo (order.foldl flattenVariant d).typeInfos
        (d.element id).typeInfo := fun order id hid hk => by
    obtain ⟨hholds, _, hflat⟩ := flat_foldl_flattenVariant d.typeInfos.proper_asListed
      d.typeInfos.holds_asListed order
    exact .of_flat hholds (differsInLists_foldl_flattenVariant d order) (hflat id hid hk)
  refine ⟨fun order => ⟨differsInLists_foldl_flattenVariant d order, fun p q => ?_, hall order⟩,
    fun root => hall (d.walk root)⟩
  have hholds := (flat_foldl_flattenVariant d.typeInfos.proper_asListed
    d.typeInfos.holds_asListed order).1
  rw [← nested_eq_some_iff_nestedAt, ← nested_eq_some_iff_nestedAt, hholds.nested]
  rfl

/-- Two variants that are nested in each other; the first one lists an alternative twice and contains
itself. -/
def mutualChoices : Draft where
  elements := #[
    ⟨{ name := none, parent := none, typeInfo := ⟨0⟩, isDefinition := false, location := .builtin,
       data := .variant [] }, ItemTree.root⟩,
    ⟨{ name := none, parent := none, typeInfo := ⟨3⟩, isDefinition := false, location := .builtin,
       data := .variant [] }, ItemTree.root⟩]
  typeInfos := ⟨#[some ⟨.one, .anyOf [⟨1⟩, ⟨2⟩, ⟨1⟩, ⟨0⟩]⟩, some ⟨.one, .ref ⟨3⟩⟩,
    some ⟨.one, .any⟩, some ⟨.one, .anyOf [⟨4⟩, ⟨0⟩]⟩, some ⟨.one, .custom⟩]⟩

/-- When the second variant is flattened first, both list the two plain alternatives. -/
theorem mutualChoices_flattened :
    (mutualChoices.element ⟨0⟩).kind = .variant ∧
    mutualChoices.typeInfos.FlattenedTo
      ([⟨1⟩, ⟨0⟩].foldl flattenVariant mutualChoices).typeInfos ⟨0⟩ ∧
    ([⟨1⟩, ⟨0⟩].foldl flattenVariant mutualChoices).typeInfos.get? ⟨0⟩ =
      some ⟨.one, .anyOf [⟨4⟩, ⟨1⟩, ⟨2⟩, ⟨1⟩, ⟨0⟩, ⟨2⟩, ⟨1⟩, ⟨0⟩]⟩ ∧
    mutualChoices.typeInfos.Plain ⟨4⟩ ∧ mutualChoices.typeInfos.Unfolds ⟨0⟩ ⟨4⟩ := by
  have hk : (mutualChoices.element ⟨0⟩).kind = .variant := rfl
  have hflat := ((flattenVariants_unfolds mutualChoices).1 [⟨1⟩, ⟨0⟩]).2.2 ⟨0⟩ (by simp) hk
  have hget : ([⟨1⟩, ⟨0⟩].foldl flattenVariant mutualChoices).typeInfos.get? ⟨0⟩ =
      some ⟨.one, .anyOf [⟨4⟩, ⟨1⟩, ⟨2⟩, ⟨1⟩, ⟨0⟩, ⟨2⟩, ⟨1⟩, ⟨0⟩]⟩ := rfl
  have hplain : mutualChoices.typeInfos.Plain ⟨4⟩ := plain_iff.2 rfl
  obtain ⟨l', hget', hlisted, _⟩ := hflat.listed _ _ rfl
  rw [show (mutualChoices.element ⟨0⟩).typeInfo = ⟨0⟩ from rfl, hget] at hget'
  cases hget'
  exact ⟨hk, hflat, hget, hplain, (hlisted ⟨4⟩ hplain).1 (by simp)⟩

end Draft
end Schemata
