import Schemata.Proofs.Tree.Binding
import Schemata.Proofs.Tree.Sweeps

/-! What binding names makes of every item.

A name is looked for among children and their names, and binding changes neither. So
it makes no difference to what a name stands for how far the pass has got: the names
of an item stand for what they stand for in the tree that the pass starts from, and
those of an alternative for what they would stand for where its variant uses them. -/
namespace Schemata

/-! ### What is written on an item -/

/-- The names that an item itself refers to. -/
def Item.writtenNames (raws : List RawReference) : List String :=
  raws.filterMap fun raw =>
    match raw with
    | .name name _ => some name
    | .variant _ => none

/-- The alternatives that an item is a choice of. -/
def Item.writtenAlternatives (raws : List RawReference) : List Alternative :=
  raws.flatMap fun raw =>
    match raw with
    | .name .. => []
    | .variant alternatives => alternatives

theorem Item.writtenNames_append (l l' : List RawReference) :
    writtenNames (l ++ l') = writtenNames l ++ writtenNames l' := List.filterMap_append

theorem Item.writtenAlternatives_append (l l' : List RawReference) :
    writtenAlternatives (l ++ l') = writtenAlternatives l ++ writtenAlternatives l' :=
  List.flatMap_append

/-- Without the note of who refers to it. -/
def Item.unnoted (i : Item) : Item := { i with referencedBy := [] }

theorem Item.field_of_unnoted {α : Type} (g : Item → α) (hg : ∀ i : Item, g i.unnoted = g i)
    {i i' : Item} (h : i'.unnoted = i.unnoted) : g i' = g i := by
  rw [← hg i', h, hg i]

namespace ItemTree

open Item

variable {t t' t'' : ItemTree} {id x p c : ItemId} {name : String} {target : Target}

/-! ### Trees with the same scopes -/

/-- The items that are there have the same parents, children and names, and what is new is nobody's
child. -/
structure SameScopes (t t' : ItemTree) : Prop where
  rooted : t'.Rooted
  size : t.size ≤ t'.size
  name : ∀ x, x.index < t.size → (t'.item x).name = (t.item x).name
  parent : ∀ x, x.index < t.size → (t'.item x).parent = (t.item x).parent
  children : ∀ x, (t'.item x).children = (t.item x).children

theorem Rooted.ancestryFrom (h : t.Rooted) {m n : Nat} (hx : x.index < t.size) (hm : x.index < m)
    (hn : x.index < n) : t.ancestryFrom m (some x) = t.ancestryFrom n (some x) := by
  induction m generalizing n x with
  | zero => exact absurd hm (Nat.not_lt_zero _)
  | succ m ih =>
    obtain ⟨n, rfl⟩ : ∃ k, n = k + 1 := ⟨n - 1, by omega⟩
    unfold ItemTree.ancestryFrom
    by_cases hroot : x = root
    · rw [hroot, h.rootParent]
      cases m <;> cases n <;> rfl
    · obtain ⟨p, hp, hlt, _⟩ := h.parent x hx hroot
      rw [hp, ih (Nat.lt_trans hlt hx) (by omega) (show p.index < n by omega)]

/-- An item comes before its parent and what is above that. -/
theorem Rooted.ancestry_of_parent (h : t.Rooted) (hx : x.index < t.size)
    (hp : (t.item x).parent = some p) : t.ancestry x = x :: t.ancestry p := by
  have hlt := h.lt_of_parent hx hp
  unfold ancestry
  rw [h.ancestryFrom hx hx (Nat.lt_succ_self _), ItemTree.ancestryFrom, hp,
    h.ancestryFrom (Nat.lt_trans hlt hx) hlt (Nat.lt_trans hlt hx)]

/-- An item that is nobody's child can be left out of a search in vain. -/
theorem followPath_of_nobody {self self' : ItemId}
    (hs : ∀ p, self ∉ (t.item p).children) (hs' : ∀ p, self' ∉ (t.item p).children)
    (scope : ItemId) (names : List String) :
    t.followPath self scope names = t.followPath self' scope names := by
  induction names generalizing scope with
  | nil => rfl
  | cons name rest ih =>
    have hsame : t.childNamedExcept (some self) scope name =
        t.childNamedExcept (some self') scope name := by
      refine List.find?_congr fun c hc => ?_
      have hne : some c ≠ some self := fun he => hs scope (Option.some.inj he ▸ hc)
      have hne' : some c ≠ some self' := fun he => hs' scope (Option.some.inj he ▸ hc)
      simp only [hne, hne', not_false_eq_true, true_and, ne_eq]
    unfold followPath
    rw [hsame]
    cases t.childNamedExcept (some self') scope name with
    | none => rfl
    | some child => exact ih child

/-- What a name stands for where something new uses it, that is under `p` but not one of its
children. -/
def lookupUnder (t : ItemTree) (p : ItemId) (name : String) : Option Target :=
  match Builtin.ofKeyword? name with
  | some type => some (.builtin type)
  | none =>
    ((t.ancestry p).findSome? fun scope => t.followPath t.nextId scope (pathNames name)).map .item

namespace SameScopes

theorem refl (h : t.Rooted) : t.SameScopes t :=
  ⟨h, Nat.le_refl _, fun _ _ => rfl, fun _ _ => rfl, fun _ => rfl⟩

theorem trans (h : t.SameScopes t') (h' : t'.SameScopes t'') : t.SameScopes t'' where
  rooted := h'.rooted
  size := Nat.le_trans h.size h'.size
  name x hx := (h'.name x (Nat.lt_of_lt_of_le hx h.size)).trans (h.name x hx)
  parent x hx := (h'.parent x (Nat.lt_of_lt_of_le hx h.size)).trans (h.parent x hx)
  children x := (h'.children x).trans (h.children x)

variable (ht : t.Rooted) (h : t.SameScopes t')
include ht h

theorem ancestry (hx : x.index < t.size) : t'.ancestry x = t.ancestry x := by
  have hsame : ∀ (n : Nat) (x : ItemId), x.index < t.size →
      t'.ancestryFrom n (some x) = t.ancestryFrom n (some x) := by
    intro n
    induction n with
    | zero => exact fun _ _ => rfl
    | succ n ih =>
      intro x hx
      unfold ItemTree.ancestryFrom
      rw [h.parent x hx]
      by_cases hroot : x = root
      · rw [hroot, ht.rootParent]
        cases n <;> rfl
      · obtain ⟨p, hp, hlt, _⟩ := ht.parent x hx hroot
        rw [hp, ih p (Nat.lt_trans hlt hx)]
  unfold ItemTree.ancestry
  rw [← hsame t.size x hx]
  exact h.rooted.ancestryFrom (Nat.lt_of_lt_of_le hx h.size) (Nat.lt_of_lt_of_le hx h.size) hx

theorem followPath (self scope : ItemId) (names : List String) :
    t'.followPath self scope names = t.followPath self scope names := by
  induction names generalizing scope with
  | nil => rfl
  | cons name rest ih =>
    have hsame : t'.childNamedExcept (some self) scope name =
        t.childNamedExcept (some self) scope name := by
      unfold childNamedExcept
      rw [h.children scope]
      refine List.find?_congr fun c hc => ?_
      rw [h.name c (ht.listed scope c (List.mem_append_right _ hc)).1]
    unfold ItemTree.followPath
    rw [hsame]
    cases t.childNamedExcept (some self) scope name with
    | none => rfl
    | some child => exact ih child

/-- The names of items that were there stand for the same. -/
theorem lookup (hx : x.index < t.size) (name : String) :
    t'.lookup x name = t.lookup x name := by
  unfold ItemTree.lookup
  rw [h.ancestry ht hx]
  simp only [h.followPath ht]

/-- What is new is nobody's child. -/
theorem not_child (hc : t.size ≤ c.index) (p : ItemId) : c ∉ (t'.item p).children := by
  intro hmem
  rw [h.children p] at hmem
  exact Nat.not_lt.2 hc (ht.listed p c (List.mem_append_right _ hmem)).1

/-- The names of what is new stand for what they would stand for under its parent. -/
theorem lookup_new (hc : t.size ≤ c.index) (hlt : c.index < t'.size)
    (hp : (t'.item c).parent = some p) (hpt : p.index < t.size) (name : String) :
    t'.lookup c name = t.lookupUnder p name := by
  have hnone : t'.followPath c c (pathNames name) = none := by
    have hchildren : (t'.item c).children = [] := by
      rw [h.children c, item_of_size_le hc]
      rfl
    obtain ⟨first, rest, hnames⟩ : ∃ first rest, pathNames name = first :: rest := by
      cases hnames : pathNames name with
      | nil => simp [pathNames, Text.split_ne_nil] at hnames
      | cons first rest => exact ⟨first, rest, rfl⟩
    rw [hnames]
    unfold ItemTree.followPath childNamedExcept
    rw [hchildren]
    rfl
  have hself : ∀ scope, t'.followPath c scope (pathNames name) =
      t.followPath t.nextId scope (pathNames name) := fun scope => by
    rw [h.followPath ht]
    refine followPath_of_nobody (fun q hmem => ?_) (fun q hmem => ?_) scope _
    · exact h.not_child ht hc q ((h.children q).symm ▸ hmem)
    · exact Nat.lt_irrefl _ (ht.listed q _ (List.mem_append_right _ hmem)).1
  unfold ItemTree.lookup lookupUnder
  rw [h.rooted.ancestry_of_parent hlt hp, h.ancestry ht hpt, List.findSome?_cons, hnone]
  cases Builtin.ofKeyword? name <;> simp only [hself]

/-- What names stand for where something new uses them stays, too. -/
theorem lookupUnder (hp : p.index < t.size) (name : String) :
    t'.lookupUnder p name = t.lookupUnder p name := by
  have hself : ∀ scope, t'.followPath t'.nextId scope (pathNames name) =
      t.followPath t.nextId scope (pathNames name) := fun scope => by
    rw [h.followPath ht]
    refine followPath_of_nobody (fun q hmem => ?_) (fun q hmem => ?_) scope _
    · exact h.not_child ht h.size q ((h.children q).symm ▸ hmem)
    · exact Nat.lt_irrefl _ (ht.listed q _ (List.mem_append_right _ hmem)).1
  unfold ItemTree.lookupUnder
  rw [h.ancestry ht hp]
  simp only [hself]

end SameScopes

theorem Rooted.sameScopes_modify (h : t.Rooted) {f : Item → Item} (hf : KeepsPlace f) :
    t.SameScopes (t.modify id f) where
  rooted := h.modify hf
  size := Nat.le_of_eq (size_modify t id f).symm
  name x _ := field_modify Item.name hf.name x
  parent x _ := field_modify Item.parent hf.parent x
  children x := field_modify Item.children hf.children x

/-- With the note that one more item refers to it. -/
def withReferrer (id : ItemId) (i : Item) : Item :=
  { i with referencedBy := i.referencedBy ++ [id] }

theorem keepsPlace_withReferrer (id : ItemId) : KeepsPlace (withReferrer id) :=
  ⟨fun _ => rfl, fun _ => rfl, fun _ => rfl, fun _ => rfl, fun _ => rfl, fun _ => rfl, fun _ => rfl⟩

theorem refer_item (t : ItemTree) (id named : ItemId) : t.refer id (.item named) =
    (t.modify id (withReference (.item named))).modify named (withReferrer id) := rfl

theorem size_refer (t : ItemTree) (id : ItemId) (target : Target) :
    (t.refer id target).size = t.size := by
  cases target <;> simp [refer]

theorem Rooted.sameScopes_refer (h : t.Rooted) (id : ItemId) (target : Target) :
    t.SameScopes (t.refer id target) := by
  have hreferring : t.SameScopes (t.modify id (withReference target)) :=
    h.sameScopes_modify (keepsPlace_withReference target)
  cases target with
  | builtin type => exact hreferring
  | item named =>
    rw [refer_item]
    exact hreferring.trans (hreferring.rooted.sameScopes_modify (keepsPlace_withReferrer id))

theorem Rooted.sameScopes_pushAlternative (h : t.Rooted) (hid : id.index < t.size)
    (a : Alternative) : t.SameScopes (t.pushAlternative id (unboundAlternative a)) where
  rooted := h.addUnder hid lists_withAlternative rfl rfl
  size := (grown_pushAlternative hid a).size
  name := (grown_pushAlternative hid a).name
  parent := (grown_pushAlternative hid a).parent
  children := field_pushAlternative hid a Item.children (fun _ _ => rfl) rfl

/-! ### What becomes of one item -/

/-- A reference shows at the item that it is from, up to the note at its target. -/
theorem unnoted_refer (t : ItemTree) (j x : ItemId) (target : Target) :
    ((t.refer j target).item x).unnoted =
      if x = j ∧ x.index < t.size then withReference target (t.item x).unnoted
      else (t.item x).unnoted := by
  have hreferring : ((t.modify j (withReference target)).item x).unnoted =
      if x = j ∧ x.index < t.size then withReference target (t.item x).unnoted
      else (t.item x).unnoted := by
    rw [item_modify]
    split <;> rfl
  cases target with
  | builtin type => exact hreferring
  | item named =>
    have hnoted : ∀ i, (withReferrer j i).unnoted = i.unnoted := fun _ => rfl
    rw [refer_item, field_modify Item.unnoted hnoted]
    exact hreferring

/-- With what its names stand for, and with its alternatives as items. -/
def withMeanings (targets : List Target) (ids : List ItemId) (i : Item) : Item :=
  { i with
    rawReferences := []
    references := i.references ++ targets
    alternatives := i.alternatives ++ ids }

/-- The item that is made of an alternative of `x`, which refers to what the alternative's name
stands for there. -/
structure AlternativeOf (t t' : ItemTree) (x : ItemId) (a : Alternative) (c : ItemId) : Prop where
  new : t.size ≤ c.index
  lt : c.index < t'.size
  item : ∃ target, t.lookupUnder x a.name = some target ∧
    (t'.item c).unnoted =
      { unboundAlternative a with id := c, parent := some x, references := [target] }

/-- `t'` has one more item than `t`, for an alternative of `x` that refers to `target`. -/
structure AddsAlternative (t t' : ItemTree) (x : ItemId) (a : Alternative) (target : Target) :
    Prop where
  size : t'.size = t.size + 1
  new : (t'.item t.nextId).unnoted =
    { unboundAlternative a with id := t.nextId, parent := some x, references := [target] }
  self : (t'.item x).unnoted = withAlternative t.nextId (t.item x).unnoted
  others : ∀ y, y ≠ t.nextId → y ≠ x → (t'.item y).unnoted = (t.item y).unnoted

theorem addsAlternative_refer (hx : x.index < t.size) (a : Alternative) (target : Target) :
    t.AddsAlternative ((t.pushAlternative x (unboundAlternative a)).refer t.nextId target) x a
      target := by
  have hsize : (t.pushAlternative x (unboundAlternative a)).size = t.size + 1 :=
    size_addUnder t x _ withAlternative
  have hold : ∀ y, y ≠ t.nextId →
      (((t.pushAlternative x (unboundAlternative a)).refer t.nextId target).item y).unnoted =
        ((t.pushAlternative x (unboundAlternative a)).item y).unnoted := fun y hy => by
    rw [unnoted_refer, if_neg fun he => hy he.1]
  refine ⟨(size_refer _ _ _).trans hsize, ?_, ?_, fun y hy hne => ?_⟩
  · rw [unnoted_refer, if_pos ⟨rfl, by rw [hsize]; exact Nat.lt_succ_self _⟩,
      item_pushAlternative_nextId hx a]
    rfl
  · rw [hold x (ne_nextId hx), item_pushAlternative hx, if_neg (ne_nextId hx), if_pos rfl]
    rfl
  · rw [hold y hy, item_pushAlternative hx, if_neg hy, if_neg hne]

/-- These names and alternatives of an item are bound. -/
def Bound (t t' : ItemTree) (x : ItemId) (names : List String) (alternatives : List Alternative) :
    Prop :=
  ∃ targets ids, List.Forall₂ (fun name target => t.lookup x name = some target) names targets ∧
    List.Forall₂ (t.AlternativeOf t' x) alternatives ids ∧
    (t'.item x).unnoted = withMeanings targets ids (t.item x).unnoted

/-- Where the binding of an item has got to. -/
structure BoundSoFar (t : ItemTree) (x : ItemId) (names : List String)
    (alternatives : List Alternative) (t' : ItemTree) : Prop extends t.SameScopes t' where
  others : ∀ y, y.index < t.size → y ≠ x → (t'.item y).unnoted = (t.item y).unnoted
  self : t.Bound t' x names alternatives
  new : ∀ c, t.size ≤ c.index → c.index < t'.size → c ∈ (t'.item x).alternatives

theorem boundSoFar_cleared (ht : t.Rooted) (hx : x.index < t.size) :
    t.BoundSoFar x [] [] (t.modify x cleared) where
  toSameScopes := ht.sameScopes_modify keepsPlace_cleared
  others y _ hne := by rw [item_modify_of_ne t hne]
  self := by
    refine ⟨[], [], .nil, .nil, ?_⟩
    rw [item_modify_self t hx]
    simp [withMeanings, cleared, unnoted]
  new c hle hlt := absurd (size_modify t x cleared ▸ hlt) (Nat.not_lt.2 hle)

namespace BoundSoFar

variable {names : List String} {alternatives : List Alternative}
  (ht : t.Rooted) (hx : x.index < t.size) (h : t.BoundSoFar x names alternatives t')
include ht hx h

/-- A name of the item is bound if it stands for something, and to that. -/
theorem bindName (name : String) (location : Location) :
    (∀ t'', t'.bindName x name location = .ok t'' →
      t.BoundSoFar x (names ++ [name]) alternatives t'') ∧
    ∀ e, t'.bindName x name location = .error e → t.lookup x name = none := by
  unfold ItemTree.bindName
  rw [h.lookup ht hx]
  cases hname : t.lookup x name with
  | none => exact ⟨nofun, fun _ _ => rfl⟩
  | some target =>
    refine ⟨fun t'' hok => ?_, fun e he => by cases he⟩
    cases hok
    have hx' : x.index < t'.size := Nat.lt_of_lt_of_le hx h.size
    obtain ⟨targets, ids, htargets, hids, hself⟩ := h.self
    have hself' : ((t'.refer x target).item x).unnoted =
        withReference target (t'.item x).unnoted := by
      rw [unnoted_refer, if_pos ⟨rfl, hx'⟩]
    refine ⟨h.trans (h.rooted.sameScopes_refer x target), fun y hy hne => ?_, ?_,
      fun c hle hlt => ?_⟩
    · rw [unnoted_refer, if_neg fun he => hne he.1]
      exact h.others y hy hne
    · refine ⟨targets ++ [target], ids, ?_, hids.imp fun a c ha => ?_, ?_⟩
      · exact List.rel_append htargets (.cons hname .nil)
      · refine ⟨ha.new, (size_refer t' x target).symm ▸ ha.lt, ?_⟩
        rw [unnoted_refer, if_neg]
        · exact ha.item
        · rintro ⟨rfl, _⟩
          exact absurd hx (Nat.not_lt.2 ha.new)
      · rw [hself', hself]
        simp [withMeanings, withReference, unnoted]
    · have halternatives := congrArg Item.alternatives hself'
      have hold := h.new c hle (size_refer t' x target ▸ hlt)
      exact halternatives.symm ▸ hold

omit ht in
/-- An item for one more alternative leaves what is bound so far. -/
theorem addAlternative {a : Alternative} {target : Target} (hscopes : t'.SameScopes t'')
    (hadds : t'.AddsAlternative t'' x a target) (hname : t.lookupUnder x a.name = some target) :
    t.BoundSoFar x names (alternatives ++ [a]) t'' := by
  have hx' : x.index < t'.size := Nat.lt_of_lt_of_le hx h.size
  obtain ⟨targets, ids, htargets, hids, hself⟩ := h.self
  have hitem := hadds.self.trans (congrArg (withAlternative t'.nextId) hself)
  refine ⟨h.trans hscopes, fun y hy hne => ?_, ?_, fun c hle hlt => ?_⟩
  · rw [hadds.others y (ne_nextId (Nat.lt_of_lt_of_le hy h.size)) hne]
    exact h.others y hy hne
  · refine ⟨targets, ids ++ [t'.nextId], htargets, List.rel_append (hids.imp fun b c hb => ?_)
      (.cons ⟨h.size, ?_, target, hname, hadds.new⟩ .nil), ?_⟩
    · have hne : c ≠ x := by
        rintro rfl
        exact absurd hx (Nat.not_lt.2 hb.new)
      refine ⟨hb.new, ?_, ?_⟩
      · rw [hadds.size]
        exact Nat.lt_succ_of_lt hb.lt
      · rw [hadds.others c (ne_nextId hb.lt) hne]
        exact hb.item
    · rw [hadds.size]
      exact Nat.lt_succ_self _
    · rw [hitem]
      simp [withMeanings, withAlternative]
  · have halternatives : (t''.item x).alternatives = (t'.item x).alternatives ++ [t'.nextId] :=
      congrArg Item.alternatives hadds.self
    rw [halternatives]
    refine List.mem_append.2 ?_
    rw [hadds.size] at hlt
    by_cases hc : c.index < t'.size
    · exact .inl (h.new c hle hc)
    · exact .inr (List.mem_singleton.2 (eq_nextId (Nat.le_of_not_lt hc) hlt))

/-- An alternative of the item is bound if its name stands for something, and to that. -/
theorem bindAlternative (a : Alternative) :
    (∀ t'', t'.bindAlternative x a = .ok t'' →
      t.BoundSoFar x names (alternatives ++ [a]) t'') ∧
    ∀ e, t'.bindAlternative x a = .error e → t.lookupUnder x a.name = none := by
  have hx' : x.index < t'.size := Nat.lt_of_lt_of_le hx h.size
  have hpush := h.rooted.sameScopes_pushAlternative hx' a
  have hlookup : (t'.pushAlternative x (unboundAlternative a)).lookup t'.nextId a.name =
      t.lookupUnder x a.name := by
    refine (h.trans hpush).lookup_new ht h.size ?_ ?_ hx a.name
    · rw [show (t'.pushAlternative x (unboundAlternative a)).size = t'.size + 1 from
        size_addUnder t' x _ withAlternative]
      exact Nat.lt_succ_self _
    · exact congrArg Item.parent (item_pushAlternative_nextId hx' a)
  have heq : t'.bindAlternative x a =
      (t'.pushAlternative x (unboundAlternative a)).bindName t'.nextId a.name a.location := rfl
  rw [heq]
  unfold ItemTree.bindName
  rw [hlookup]
  cases hname : t.lookupUnder x a.name with
  | none => exact ⟨nofun, fun _ _ => rfl⟩
  | some target =>
    refine ⟨fun t'' hok => ?_, fun e he => by cases he⟩
    cases hok
    exact h.addAlternative hx (hpush.trans (hpush.rooted.sameScopes_refer _ target))
      (addsAlternative_refer hx' a target) hname

/-- So is everything that is written as one reference. -/
theorem bindReference (raw : RawReference) :
    (∀ t'', t'.bindReference x raw = .ok t'' → t.BoundSoFar x (names ++ writtenNames [raw])
      (alternatives ++ writtenAlternatives [raw]) t'') ∧
    ∀ e, t'.bindReference x raw = .error e →
      (∃ name ∈ writtenNames [raw], t.lookup x name = none) ∨
      ∃ a ∈ writtenAlternatives [raw], t.lookupUnder x a.name = none := by
  cases raw with
  | name name location =>
    have hname := h.bindName ht hx name location
    refine ⟨fun t'' hok => ?_, fun e he => .inl ⟨name, ?_, hname.2 e he⟩⟩
    · rw [show writtenAlternatives [RawReference.name name location] = [] from rfl, List.append_nil]
      exact hname.1 t'' hok
    · exact List.mem_singleton_self name
  | variant written =>
    have hwritten : writtenAlternatives [RawReference.variant written] = written :=
      List.append_nil written
    have hstep : ∀ done a rest t₁ t₂, written = done ++ a :: rest →
        t.BoundSoFar x names (alternatives ++ done) t₁ → t₁.bindAlternative x a = .ok t₂ →
        t.BoundSoFar x names (alternatives ++ (done ++ [a])) t₂ :=
      fun done a rest t₁ t₂ _ h₁ hok => by
        rw [← List.append_assoc]
        exact (h₁.bindAlternative ht hx a).1 t₂ hok
    rw [hwritten, show writtenNames [RawReference.variant written] = [] from rfl, List.append_nil]
    have hstart : t.BoundSoFar x names (alternatives ++ []) t' := by
      rw [List.append_nil]
      exact h
    refine ⟨fun t'' hok => ?_, fun e he => .inr ?_⟩
    · exact foldlM_ok (fun done t' => t.BoundSoFar x names (alternatives ++ done) t') hok hstart
        hstep
    · obtain ⟨done, a, rest, t₁, hl, h₁, herror⟩ := foldlM_error
        (fun done t' => t.BoundSoFar x names (alternatives ++ done) t') he hstart hstep
      exact ⟨a, by simp [hl], (h₁.bindAlternative ht hx a).2 e herror⟩

end BoundSoFar

/-- Everything written on an item stands for something, and the item may have its name. -/
structure Meaningful (t : ItemTree) (x : ItemId) : Prop where
  unreserved : hasReservedName (t.item x) = false
  names : ∀ name ∈ writtenNames (t.item x).rawReferences, (t.lookup x name).isSome
  alternatives : ∀ a ∈ writtenAlternatives (t.item x).rawReferences,
    (t.lookupUnder x a.name).isSome

/-- Everything written on the item is bound. -/
def BoundItem (t t' : ItemTree) (x : ItemId) : Prop :=
  t.Bound t' x (writtenNames (t.item x).rawReferences)
    (writtenAlternatives (t.item x).rawReferences)

/-- An item is bound if everything written on it stands for something. -/
theorem bindItem_spec (ht : t.Rooted) (hx : x.index < t.size) :
    (∀ t', t.bindItem x = .ok t' → hasReservedName (t.item x) = false ∧
      t.BoundSoFar x (writtenNames (t.item x).rawReferences)
        (writtenAlternatives (t.item x).rawReferences) t') ∧
    ∀ e, t.bindItem x = .error e → ¬t.Meaningful x := by
  unfold bindItem
  dsimp only
  cases hname : hasReservedName (t.item x) with
  | true => exact ⟨nofun, fun _ _ hm => absurd (hname.symm.trans hm.unreserved) (by simp)⟩
  | false =>
    have hstep : ∀ done raw rest t₁ t₂, (t.item x).rawReferences = done ++ raw :: rest →
        t.BoundSoFar x (writtenNames done) (writtenAlternatives done) t₁ →
        t₁.bindReference x raw = .ok t₂ →
        t.BoundSoFar x (writtenNames (done ++ [raw])) (writtenAlternatives (done ++ [raw])) t₂ :=
      fun done raw rest t₁ t₂ _ h₁ hok => by
        rw [writtenNames_append, writtenAlternatives_append]
        exact (h₁.bindReference ht hx raw).1 t₂ hok
    refine ⟨fun t' hok => ⟨rfl, ?_⟩, fun e he hm => ?_⟩
    · exact foldlM_ok
        (fun done t' => t.BoundSoFar x (writtenNames done) (writtenAlternatives done) t') hok
        (boundSoFar_cleared ht hx) hstep
    · obtain ⟨done, raw, rest, t₁, hl, h₁, herror⟩ := foldlM_error
        (fun done t' => t.BoundSoFar x (writtenNames done) (writtenAlternatives done) t') he
        (boundSoFar_cleared ht hx) hstep
      have hraws : (t.item x).rawReferences = done ++ [raw] ++ rest := by simp [hl]
      rcases (h₁.bindReference ht hx raw).2 e herror with ⟨name, hmem, hnone⟩ | ⟨a, hmem, hnone⟩
      · have hsome := hm.names name
        rw [hnone, hraws, writtenNames_append, writtenNames_append] at hsome
        cases hsome (List.mem_append_left _ (List.mem_append_right _ hmem))
      · have hsome := hm.alternatives a
        rw [hnone, hraws, writtenAlternatives_append, writtenAlternatives_append] at hsome
        cases hsome (List.mem_append_left _ (List.mem_append_right _ hmem))

/-! ### The whole pass -/

/-- The items in `done` are bound, the others are as they were, and what is new are alternatives of
those that are bound. -/
structure BoundAmong (t : ItemTree) (done : List ItemId) (t' : ItemTree) : Prop
    extends t.SameScopes t' where
  pending : ∀ x, x.index < t.size → x ∉ done → (t'.item x).unnoted = (t.item x).unnoted
  bound : ∀ x ∈ done, x.index < t.size ∧ hasReservedName (t.item x) = false ∧ t.BoundItem t' x
  new : ∀ c, t.size ≤ c.index → c.index < t'.size → ∃ x ∈ done, c ∈ (t'.item x).alternatives

theorem writes_of_unnoted {i i' : Item} (h : i'.unnoted = i.unnoted) :
    i'.rawReferences = i.rawReferences ∧ hasReservedName i' = hasReservedName i :=
  ⟨field_of_unnoted Item.rawReferences (fun _ => rfl) h,
    field_of_unnoted hasReservedName (fun _ => rfl) h⟩

namespace BoundAmong

variable {done : List ItemId} (ht : t.Rooted) (hx : x.index < t.size) (hnew : x ∉ done)
  (h : t.BoundAmong done t')
include ht hx hnew h

theorem meaningful (hm : t.Meaningful x) : t'.Meaningful x := by
  obtain ⟨hraws, hreserved⟩ := writes_of_unnoted (h.pending x hx hnew)
  refine ⟨hreserved.trans hm.unreserved, fun name hname => ?_, fun a ha => ?_⟩
  · rw [h.lookup ht hx]
    exact hm.names name (hraws ▸ hname)
  · rw [h.lookupUnder ht hx]
    exact hm.alternatives a (hraws ▸ ha)

theorem step (hok : t'.bindItem x = .ok t'') : t.BoundAmong (done ++ [x]) t'' := by
  obtain ⟨hraws, hreserved⟩ := writes_of_unnoted (h.pending x hx hnew)
  have hx' : x.index < t'.size := Nat.lt_of_lt_of_le hx h.size
  obtain ⟨hname, hb⟩ := (bindItem_spec h.rooted hx').1 t'' hok
  rw [hraws] at hb
  refine ⟨h.trans hb.toSameScopes, fun y hy hn => ?_, fun y hy => ?_, fun c hle hlt => ?_⟩
  · rw [List.mem_append, List.mem_singleton, not_or] at hn
    rw [hb.others y (Nat.lt_of_lt_of_le hy h.size) hn.2]
    exact h.pending y hy hn.1
  · rcases List.mem_append.1 hy with hy | hy
    · obtain ⟨hlt, hr, targets, ids, htargets, hids, hself⟩ := h.bound y hy
      have hne : y ≠ x := fun he => hnew (he ▸ hy)
      refine ⟨hlt, hr, targets, ids, htargets, hids.imp fun a c hc => ?_, ?_⟩
      · have hcx : c ≠ x := fun he => absurd (he ▸ hx) (Nat.not_lt.2 hc.new)
        refine ⟨hc.new, Nat.lt_of_lt_of_le hc.lt hb.size, ?_⟩
        rw [hb.others c hc.lt hcx]
        exact hc.item
      · rw [hb.others y (Nat.lt_of_lt_of_le hlt h.size) hne]
        exact hself
    · obtain rfl := List.mem_singleton.1 hy
      obtain ⟨targets, ids, htargets, hids, hself⟩ := hb.self
      refine ⟨hx, hreserved.symm.trans hname, targets, ids, htargets.imp fun name target hl => ?_,
        hids.imp fun a c hc => ?_, ?_⟩
      · rw [← h.lookup ht hx]
        exact hl
      · refine ⟨Nat.le_trans h.size hc.new, hc.lt, ?_⟩
        rw [← h.lookupUnder ht hx]
        exact hc.item
      · rw [hself, h.pending y hx hnew]
  · by_cases hc : c.index < t'.size
    · obtain ⟨y, hy, hmem⟩ := h.new c hle hc
      have hne : y ≠ x := fun he => hnew (he ▸ hy)
      have hy' := Nat.lt_of_lt_of_le (h.bound y hy).1 h.size
      refine ⟨y, List.mem_append_left _ hy, ?_⟩
      rw [field_of_unnoted Item.alternatives (fun _ => rfl) (hb.others y hy' hne)]
      exact hmem
    · exact ⟨x, by simp, hb.new c (Nat.le_of_not_lt hc) hlt⟩

end BoundAmong

/-- Every item is bound, and what is new are the alternatives. -/
structure BoundFrom (t t' : ItemTree) : Prop extends t.SameScopes t' where
  unreserved : ∀ x, x.index < t.size → hasReservedName (t.item x) = false
  old : ∀ x, x.index < t.size → t.BoundItem t' x
  new : ∀ c, t.size ≤ c.index → c.index < t'.size →
    ∃ x, x.index < t.size ∧ c ∈ (t'.item x).alternatives

theorem boundAmong_nil (ht : t.Rooted) : t.BoundAmong [] t where
  toSameScopes := .refl ht
  pending _ _ _ := rfl
  bound _ hx := absurd hx List.not_mem_nil
  new _ hle hlt := absurd hlt (Nat.not_lt.2 hle)

/-- The walk has not met an item before it comes to it. -/
theorem Rooted.pending_of_walk (ht : t.Rooted) {done rest : List ItemId}
    (hwalk : t.walk = done ++ x :: rest) : x.index < t.size ∧ x ∉ done := by
  have hn := ht.nodup_walk
  rw [hwalk] at hn
  exact ⟨ht.mem_walk_iff.1 (by simp [hwalk]),
    fun hd => (List.nodup_append.1 hn).2.2 x hd x List.mem_cons_self rfl⟩

theorem boundFrom_of_bindNames (ht : t.Rooted) (hok : t.bindNames = .ok t') : t.BoundFrom t' := by
  have hall : t.BoundAmong t.walk t' := by
    refine foldlM_ok (fun done t' => t.BoundAmong done t') hok (boundAmong_nil ht)
      fun done id rest t₁ t₂ hwalk hinv hstep => ?_
    obtain ⟨hid, hnew⟩ := ht.pending_of_walk hwalk
    exact hinv.step ht hid hnew hstep
  have hbound := fun x hx => hall.bound x (ht.mem_walk_iff.2 hx)
  refine ⟨hall.toSameScopes, fun x hx => (hbound x hx).2.1, fun x hx => (hbound x hx).2.2,
    fun c hle hlt => ?_⟩
  obtain ⟨x, hx, hc⟩ := hall.new c hle hlt
  exact ⟨x, ht.mem_walk_iff.1 hx, hc⟩

/-- Names are bound as soon as everything written stands for something. -/
theorem bindNames_ok_of_meaningful (ht : t.Rooted)
    (hm : ∀ x, x.index < t.size → t.Meaningful x) : ∃ t', t.bindNames = .ok t' := by
  cases hb : t.bindNames with
  | ok t' => exact ⟨t', rfl⟩
  | error e =>
    obtain ⟨done, id, rest, t₁, hwalk, hinv, herror⟩ :=
      foldlM_error (fun done t' => t.BoundAmong done t') hb (boundAmong_nil ht)
        fun done id rest t₁ t₂ hwalk hinv hstep => by
          obtain ⟨hid, hnew⟩ := ht.pending_of_walk hwalk
          exact hinv.step ht hid hnew hstep
    obtain ⟨hid, hnew⟩ := ht.pending_of_walk hwalk
    have hid' : id.index < t₁.size := Nat.lt_of_lt_of_le hid hinv.size
    exact absurd (hinv.meaningful ht hid hnew (hm id hid))
      ((bindItem_spec hinv.rooted hid').2 e herror)

namespace BoundFrom

variable (h : t.BoundFrom t')
include h

theorem meaningful (hx : x.index < t.size) : t.Meaningful x := by
  obtain ⟨targets, ids, htargets, hids, _⟩ := h.old x hx
  refine ⟨h.unreserved x hx, fun name hname => ?_, fun a ha => ?_⟩
  · obtain ⟨target, _, hl⟩ := exists_of_mem_left htargets hname
    rw [hl]
    rfl
  · obtain ⟨c, _, hc⟩ := exists_of_mem_left hids ha
    obtain ⟨target, hl, _⟩ := hc.item
    rw [hl]
    rfl

/-- Binding leaves alone what has nothing to do with names. -/
theorem field {α : Type} (g : Item → α) (hg : ∀ targets ids i, g (withMeanings targets ids i) = g i)
    (hg' : ∀ i : Item, g i.unnoted = g i) (hx : x.index < t.size) :
    g (t'.item x) = g (t.item x) := by
  obtain ⟨targets, ids, _, _, hself⟩ := h.old x hx
  rw [← hg' (t'.item x), hself, hg, hg']

theorem metadata (hx : x.index < t.size) : (t'.item x).metadata = (t.item x).metadata :=
  h.field Item.metadata (fun _ _ _ => rfl) (fun _ => rfl) hx

/-- What is new comes from an alternative that is written on an item. -/
theorem alternativeOf (ht : t.Rooted) (hle : t.size ≤ c.index) (hlt : c.index < t'.size) :
    ∃ x a, x.index < t.size ∧ a ∈ writtenAlternatives (t.item x).rawReferences ∧
      t.AlternativeOf t' x a c := by
  obtain ⟨x, hx, hmem⟩ := h.new c hle hlt
  obtain ⟨targets, ids, _, hids, hself⟩ := h.old x hx
  have halternatives : (t'.item x).alternatives = (t.item x).alternatives ++ ids :=
    congrArg Item.alternatives hself
  rw [halternatives] at hmem
  rcases List.mem_append.1 hmem with hmem | hmem
  · exact absurd (ht.listed x c (List.mem_append_left _ hmem)).1 (Nat.not_lt.2 hle)
  · obtain ⟨a, ha, hc⟩ := exists_of_mem_right hids hmem
    exact ⟨x, a, hx, ha, hc⟩

/-- Objects, and whatever has a name, were there before. -/
theorem lt_of_named (ht : t.Rooted) (hlt : x.index < t'.size)
    (hx : (t'.item x).form ≠ .declaration ∨ (t'.item x).name.isSome) : x.index < t.size := by
  by_contra hn
  obtain ⟨p, a, _, _, hc⟩ := h.alternativeOf ht (Nat.le_of_not_lt hn) hlt
  obtain ⟨target, _, hitem⟩ := hc.item
  have hnone : (t'.item x).name = none := congrArg Item.name hitem
  rcases hx with hform | hname
  · exact hform (congrArg Item.form hitem)
  · rw [hnone] at hname
    cases hname

end BoundFrom

end ItemTree
end Schemata
