import Schemata.Proofs.Pieces
import Schemata.Proofs.Tree.Meanings

/-! The nearest scope in which a name matches.

A path of names descends from a scope by the first child of each name, where the item
that uses the path does not count. A name that is no reserved word stands for what its
path leads to from the nearest scope in which all of it matches, among the item itself
and what encloses it. Looking a name up finds exactly that
(`Rooted.lookup_eq_some_iff`), and nothing exactly where no scope matches
(`Rooted.lookup_eq_none_iff`). -/
namespace Schemata

namespace ItemTree

open Text

variable {t t' : ItemTree} {user scope x y p child found : ItemId} {name : String}
  {names : List String} {target : Target}

/-! ### The names of a path -/

/-- The names between the points of a dotted name, of which there is one at least. -/
structure Dotted (name : String) (names : List String) : Prop where
  ne_nil : names ≠ []
  plain : ∀ n ∈ names, '.' ∉ n.toList
  joined : join '.' (names.map String.toList) = name.toList

theorem map_toList_pathNames (name : String) :
    (pathNames name).map String.toList = split (· == '.') name.toList := by
  unfold pathNames
  rw [List.map_map]
  exact (List.map_congr_left fun _ _ => String.toList_ofList).trans (List.map_id _)

theorem pathNames_ne_nil (name : String) : pathNames name ≠ [] := by
  simp [pathNames, split_ne_nil]

/-- There is one way only to take a dotted name apart. -/
theorem dotted_iff : Dotted name names ↔ names = pathNames name := by
  constructor
  · rintro ⟨hne, hplain, hjoined⟩
    have hsplit : split (· == '.') (join '.' (names.map String.toList)) =
        names.map String.toList :=
      split_join (by simpa using hne) fun piece hpiece => by
        obtain ⟨n, hn, rfl⟩ := List.mem_map.1 hpiece
        exact hplain n hn
    rw [hjoined, ← map_toList_pathNames] at hsplit
    exact (List.map_injective_iff.2 (fun _ _ => String.toList_inj.1) hsplit).symm
  · rintro rfl
    refine ⟨pathNames_ne_nil name, fun n hn => ?_, ?_⟩
    · exact not_mem_of_split (s := name.toList)
        (map_toList_pathNames name ▸ List.mem_map_of_mem hn)
    · rw [map_toList_pathNames, join_split]

/-! ### Descending -/

/-- The first child of this name, where `user` does not count. -/
structure FirstNamed (t : ItemTree) (user scope : ItemId) (name : String) (child : ItemId) :
    Prop where
  other : child ≠ user
  named : (t.item child).name = some name
  first : ∃ before after, (t.item scope).children = before ++ child :: after ∧
    ∀ c ∈ before, c ≠ user → (t.item c).name ≠ some name

/-- From a scope down along a path of names, as `user` sees it. -/
inductive Descends (t : ItemTree) (user : ItemId) : ItemId → List String → ItemId → Prop
  | arrives (scope : ItemId) : t.Descends user scope [] scope
  | step {scope child found : ItemId} {name : String} {rest : List String}
    (h : t.FirstNamed user scope name child) (hrest : t.Descends user child rest found) :
    t.Descends user scope (name :: rest) found

theorem childNamedExcept_eq_some_iff :
    t.childNamedExcept (some user) scope name = some child ↔
      t.FirstNamed user scope name child := by
  unfold childNamedExcept
  rw [List.find?_eq_some_iff_append]
  simp only [ne_eq, Option.some.injEq, decide_eq_true_eq, Bool.not_eq_true', decide_eq_false_iff_not,
    not_and]
  exact ⟨fun ⟨⟨hne, hname⟩, before, after, hl, hfirst⟩ => ⟨hne, hname, before, after, hl, hfirst⟩,
    fun ⟨hne, hname, before, after, hl, hfirst⟩ => ⟨⟨hne, hname⟩, before, after, hl, hfirst⟩⟩

theorem followPath_eq_some_iff :
    t.followPath user scope names = some found ↔ t.Descends user scope names found := by
  induction names generalizing scope with
  | nil =>
    refine ⟨fun h => ?_, fun h => ?_⟩
    · cases h
      exact .arrives _
    · cases h
      rfl
  | cons name rest ih =>
    unfold followPath
    constructor
    · intro h
      split at h
      · next child hchild =>
        exact .step (childNamedExcept_eq_some_iff.1 hchild) (ih.1 h)
      · cases h
    · intro h
      cases h with
      | step hchild hrest =>
        rw [childNamedExcept_eq_some_iff.2 hchild]
        exact ih.2 hrest

theorem followPath_eq_none_iff :
    t.followPath user scope names = none ↔ ∀ found, ¬t.Descends user scope names found := by
  simp only [Option.eq_none_iff_forall_ne_some, ne_eq, followPath_eq_some_iff]

/-- A path leads to something else than what uses it. -/
theorem Descends.ne_self (h : t.Descends user scope names found) (hne : names ≠ []) :
    found ≠ user := by
  induction h with
  | arrives scope => exact absurd rfl hne
  | @step scope child found name rest hchild hrest ih =>
    cases rest with
    | nil =>
      cases hrest
      exact hchild.other
    | cons next rest => exact ih (List.cons_ne_nil next rest)

/-! ### Enclosing scopes -/

/-- `scope` is the item, its parent, or further up. -/
def EnclosedBy (t : ItemTree) : ItemId → ItemId → Prop :=
  Relation.ReflTransGen fun y p => (t.item y).parent = some p

theorem Rooted.lt_of_enclosedBy (ht : t.Rooted) (hx : x.index < t.size)
    (h : t.EnclosedBy x scope) : scope.index < t.size := by
  induction h with
  | refl => exact hx
  | tail _ hp ih => exact Nat.lt_trans (ht.lt_of_parent ih hp) ih

theorem Rooted.le_of_enclosedBy (ht : t.Rooted) (hx : x.index < t.size)
    (h : t.EnclosedBy x scope) : scope.index ≤ x.index := by
  induction h with
  | refl => exact Nat.le_refl _
  | tail hxy hp ih =>
    exact Nat.le_trans (Nat.le_of_lt (ht.lt_of_parent (ht.lt_of_enclosedBy hx hxy) hp)) ih

theorem enclosedBy_iff_of_parent (hp : (t.item x).parent = some p) :
    t.EnclosedBy x scope ↔ scope = x ∨ t.EnclosedBy p scope := by
  constructor
  · intro h
    rcases Relation.ReflTransGen.cases_head h with rfl | ⟨q, hq, h⟩
    · exact .inl rfl
    · rw [hp] at hq
      exact .inr (Option.some.inj hq ▸ h)
  · rintro (rfl | h)
    · exact .refl
    · exact .head hp h

theorem Rooted.enclosedBy_root_iff (ht : t.Rooted) :
    t.EnclosedBy root scope ↔ scope = root := by
  constructor
  · intro h
    rcases Relation.ReflTransGen.cases_head h with rfl | ⟨q, hq, _⟩
    · rfl
    · rw [ht.rootParent] at hq
      cases hq
  · rintro rfl
    exact .refl

theorem Rooted.ancestry_root (ht : t.Rooted) : t.ancestry root = [root] := by
  unfold ancestry
  rw [ht.ancestryFrom (x := root) ht.size ht.size (Nat.lt_succ_self 0), ItemTree.ancestryFrom,
    ht.rootParent]
  rfl

/-- What holds of the root, and of an item below as soon as it holds of the parent. -/
theorem Rooted.parent_induction (ht : t.Rooted) {P : ItemId → Prop} (hroot : P root)
    (hparent : ∀ x p, x.index < t.size → (t.item x).parent = some p → P p → P x)
    (hx : x.index < t.size) : P x := by
  obtain ⟨i⟩ := x
  induction i using Nat.strong_induction_on with
  | _ i ih =>
    by_cases hr : (⟨i⟩ : ItemId) = root
    · exact hr ▸ hroot
    · obtain ⟨p, hp, hlt, _⟩ := ht.parent ⟨i⟩ hx hr
      exact hparent ⟨i⟩ p hx hp (ih p.index hlt (Nat.lt_trans hlt hx))

theorem Rooted.mem_ancestry_iff (ht : t.Rooted) (hx : x.index < t.size) :
    scope ∈ t.ancestry x ↔ t.EnclosedBy x scope := by
  refine ht.parent_induction (P := fun x => scope ∈ t.ancestry x ↔ t.EnclosedBy x scope) ?_
    (fun x p hx hp ih => ?_) hx
  · rw [ht.ancestry_root, List.mem_singleton, ht.enclosedBy_root_iff]
  · rw [ht.ancestry_of_parent hx hp, List.mem_cons, ih, enclosedBy_iff_of_parent hp]

/-! ### The nearest one -/

/-- The path leads from `scope`, which encloses `x`, to what it finds, and from no scope between the
two to anything. -/
structure Nearest (t : ItemTree) (user x : ItemId) (names : List String) (scope found : ItemId) :
    Prop where
  encloses : t.EnclosedBy x scope
  descends : t.Descends user scope names found
  nearest : ∀ s, t.EnclosedBy x s → t.EnclosedBy s scope → s ≠ scope →
    ∀ y, ¬t.Descends user s names y

theorem Rooted.nearest_self (ht : t.Rooted) (hx : x.index < t.size)
    (h : t.Descends user x names found) : t.Nearest user x names x found where
  encloses := .refl
  descends := h
  nearest s hs hsx hne := by
    have hle := ht.le_of_enclosedBy hx hs
    have hle' := ht.le_of_enclosedBy (ht.lt_of_enclosedBy hx hs) hsx
    obtain ⟨i⟩ := s
    obtain ⟨j⟩ := x
    exact absurd (congrArg ItemId.mk (Nat.le_antisymm hle hle')) hne

/-- Where nothing matches in an item itself, what counts is its parent. -/
theorem nearest_of_parent (hp : (t.item x).parent = some p)
    (hnone : ∀ y, ¬t.Descends user x names y) :
    t.Nearest user x names scope found ↔ t.Nearest user p names scope found := by
  constructor
  · rintro ⟨hencloses, hdescends, hnearest⟩
    have hne : scope ≠ x := by
      rintro rfl
      exact hnone found hdescends
    refine ⟨((enclosedBy_iff_of_parent hp).1 hencloses).resolve_left hne, hdescends,
      fun s hs => hnearest s ((enclosedBy_iff_of_parent hp).2 (.inr hs))⟩
  · rintro ⟨hencloses, hdescends, hnearest⟩
    refine ⟨(enclosedBy_iff_of_parent hp).2 (.inr hencloses), hdescends, fun s hs hscope hne => ?_⟩
    rcases (enclosedBy_iff_of_parent hp).1 hs with rfl | hs
    · exact hnone
    · exact hnearest s hs hscope hne

theorem Rooted.findSome?_ancestry (ht : t.Rooted) (hx : x.index < t.size) :
    ((t.ancestry x).findSome? fun scope => t.followPath user scope names) = some found ↔
      ∃ scope, t.Nearest user x names scope found := by
  refine ht.parent_induction (P := fun x =>
    ((t.ancestry x).findSome? fun scope => t.followPath user scope names) = some found ↔
      ∃ scope, t.Nearest user x names scope found) ?_ (fun x p hx hp ih => ?_) hx
  · rw [ht.ancestry_root, List.findSome?_singleton, followPath_eq_some_iff]
    refine ⟨fun h => ⟨root, ht.nearest_self ht.size h⟩, fun ⟨scope, h⟩ => ?_⟩
    rw [← ht.enclosedBy_root_iff.1 h.encloses]
    exact h.descends
  · rw [ht.ancestry_of_parent hx hp, List.findSome?_cons]
    cases hpath : t.followPath user x names with
    | none =>
      rw [followPath_eq_none_iff] at hpath
      simp only [nearest_of_parent hp hpath]
      exact ih
    | some y =>
      have hdescends := followPath_eq_some_iff.1 hpath
      refine ⟨fun h => ⟨x, ht.nearest_self hx (Option.some.inj h ▸ hdescends)⟩,
        fun ⟨scope, h⟩ => ?_⟩
      have hscope : x = scope := by
        by_contra hne
        exact h.nearest x .refl h.encloses hne y hdescends
      subst hscope
      exact hpath.symm.trans (followPath_eq_some_iff.2 h.descends)

/-! ### What names stand for -/

/-- What a name stands for where `x` uses it: a reserved word for its type, and any other name for
what its path leads to from the nearest scope in which it matches. -/
inductive StandsFor (t : ItemTree) (x : ItemId) (name : String) : Target → Prop
  | keyword {type : Builtin} (h : Builtin.ofKeyword? name = some type) :
    t.StandsFor x name (.builtin type)
  | item {names : List String} {scope found : ItemId} (h : Builtin.ofKeyword? name = none)
    (hnames : Dotted name names) (hfound : t.Nearest x x names scope found) :
    t.StandsFor x name (.item found)

/-- No reserved word, nor does the name match in the item or anything that encloses it. -/
structure Unmatched (t : ItemTree) (x : ItemId) (name : String) : Prop where
  keyword : Builtin.ofKeyword? name = none
  scopes : ∀ names scope found, Dotted name names → t.EnclosedBy x scope →
    ¬t.Descends x scope names found

theorem Rooted.lookup_eq_some_iff (ht : t.Rooted) (hx : x.index < t.size) :
    t.lookup x name = some target ↔ t.StandsFor x name target := by
  unfold lookup
  cases hk : Builtin.ofKeyword? name with
  | some type =>
    refine ⟨fun h => Option.some.inj h ▸ .keyword hk, fun h => ?_⟩
    cases h with
    | keyword h =>
      rw [hk] at h
      exact congrArg (some ∘ Target.builtin) (Option.some.inj h)
    | item h => rw [hk] at h; cases h
  | none =>
    dsimp only
    rw [Option.map_eq_some_iff]
    simp only [ht.findSome?_ancestry hx]
    constructor
    · rintro ⟨found, ⟨scope, hfound⟩, rfl⟩
      exact .item hk (dotted_iff.2 rfl) hfound
    · intro h
      cases h with
      | keyword h => rw [hk] at h; cases h
      | item _ hnames hfound => exact ⟨_, ⟨_, dotted_iff.1 hnames ▸ hfound⟩, rfl⟩

theorem Rooted.lookup_eq_none_iff (ht : t.Rooted) (hx : x.index < t.size) :
    t.lookup x name = none ↔ t.Unmatched x name := by
  unfold lookup
  cases hk : Builtin.ofKeyword? name with
  | some type => exact ⟨nofun, fun h => absurd (hk.symm.trans h.keyword) nofun⟩
  | none =>
    dsimp only
    rw [Option.map_eq_none_iff, List.findSome?_eq_none_iff]
    simp only [ht.mem_ancestry_iff hx, followPath_eq_none_iff]
    constructor
    · intro h
      refine ⟨hk, fun names scope found hnames hscope => ?_⟩
      rw [dotted_iff.1 hnames]
      exact h scope hscope found
    · intro h scope hscope found
      exact h.scopes _ scope found (dotted_iff.2 rfl) hscope

/-- Nothing stands for itself. -/
theorem StandsFor.ne_self (h : t.StandsFor x name target) : target ≠ .item x := by
  cases h with
  | keyword h => exact nofun
  | item h hnames hfound =>
    exact fun he => hfound.descends.ne_self hnames.ne_nil (Target.item.inj he)

theorem SameScopes.standsFor_iff (ht : t.Rooted) (h : t.SameScopes t') (hx : x.index < t.size) :
    t'.StandsFor x name target ↔ t.StandsFor x name target := by
  rw [← h.rooted.lookup_eq_some_iff (Nat.lt_of_lt_of_le hx h.size), h.lookup ht hx,
    ht.lookup_eq_some_iff hx]

end ItemTree
end Schemata
