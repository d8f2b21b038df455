import Schemata.Graph
import Schemata.Proofs.DepthFirst
import Schemata.Proofs.Tree.Classifying
import Schemata.Proofs.Tree.Declaring
import Schemata.Proofs.Tree.Meanings

/-! Walks meet everything once.

The walk over a tree of declarations does not remember what it has met. It needs
every item to be listed by one other only, which is what binding an alternative and
splitting off a synthetic child keep (`Outgrows`), in resolutions that fail as well.
Pushing an item keeps it if the item lists nothing: a clone of one that has children
lists them a second time (`clonedBranch_met_twice`). Walks over a graph remember what
they have met, and need nothing but that there are finitely many elements. -/
namespace Schemata

open Search

/-- An item without alternatives and children, like all that are declared. -/
structure Item.ListsNothing (i : Item) : Prop where
  alternatives : i.alternatives = []
  children : i.children = []

namespace ItemTree

variable {t t' t'' : ItemTree} {id : ItemId}

/-! ### Trees stay rooted -/

/-- What pushing items that `P` holds of and resolving make of the tree of an empty source text, in
any order and however often. -/
inductive Cultivated (P : Item → Prop) : ItemTree → Prop
  | source (source : String) : Cultivated P (ofSource source)
  | push {t : ItemTree} (h : t.Cultivated P) {p : ItemId} (hp : p.index < t.size) {i : Item}
    (hi : P i) : Cultivated P (t.push p i)
  /-- A resolution changes a tree whether it succeeds or not. -/
  | resolve {t : ItemTree} (h : t.Cultivated P) (plugin : Plugin) (options : Options) :
    Cultivated P (leftBy (t.resolve plugin options))

/-- Nothing has been taken from `t`, and everything has its place. -/
structure Outgrows (t t' : ItemTree) : Prop where
  rooted : t'.Rooted
  size : t.size ≤ t'.size

theorem SameScopes.outgrows (h : t.SameScopes t') : t.Outgrows t' := ⟨h.rooted, h.size⟩

namespace Outgrows

variable (h : t.Outgrows t')
include h

theorem trans (h' : t'.Outgrows t'') : t.Outgrows t'' := ⟨h'.rooted, Nat.le_trans h.size h'.size⟩

theorem alike (ha : t'.Alike t'') : t.Outgrows t'' :=
  ⟨h.rooted.alike ha, by rw [ha.size]; exact h.size⟩

theorem modify {f : Item → Item} (hf : KeepsPlace f) : t.Outgrows (t'.modify id f) :=
  h.trans (h.rooted.sameScopes_modify hf).outgrows

theorem bindName (name : String) (location : Location) :
    t.Outgrows (leftBy (t'.bindName id name location)) := by
  unfold ItemTree.bindName
  split
  · exact h.trans (h.rooted.sameScopes_refer id _).outgrows
  · exact h

theorem bindReference (hid : id.index < t.size) (raw : RawReference) :
    t.Outgrows (leftBy (t'.bindReference id raw)) := by
  cases raw with
  | name name location => exact h.bindName name location
  | variant alternatives =>
    refine leftBy_foldlM h fun t₁ a _ h₁ => ?_
    have hid₁ := Nat.lt_of_lt_of_le hid h₁.size
    exact (h₁.trans (h₁.rooted.sameScopes_pushAlternative hid₁ a).outgrows).bindName _ _

theorem bindItem (hid : id.index < t.size) : t.Outgrows (leftBy (t'.bindItem id)) := by
  unfold ItemTree.bindItem
  dsimp only
  split
  · exact h
  · exact leftBy_foldlM (h.modify keepsPlace_cleared) fun _ raw _ h₁ => h₁.bindReference hid raw

theorem classifyItem (hid : id.index < t.size) : t.Outgrows (leftBy (t'.classifyItem id)) := by
  have hid' := Nat.lt_of_lt_of_le hid h.size
  obtain ⟨hok, herror⟩ := classification_classifyItem t' id
  cases hc : t'.classifyItem id with
  | error e => exact h.alike (herror e hc).toAlike
  | ok t₁ =>
    cases hok t₁ hc with
    | known _ he => exact he ▸ h
    | kind _ k t₂ ha _ _ _ he =>
      rw [he]
      exact (h.alike ha.toAlike).modify (keepsPlace_withKind k)
    | split _ _ type _ he =>
      rw [he]
      refine ⟨rooted_splitSimple hid' h.rooted, ?_⟩
      show t.size ≤ (t'.splitSimple id type).size
      rw [size_splitSimple]
      exact Nat.le_succ_of_le h.size

end Outgrows

theorem Rooted.outgrows_resolve (h : t.Rooted) (plugin : Plugin) (options : Options) :
    t.Outgrows (leftBy (t.resolve plugin options)) := by
  unfold ItemTree.resolve
  refine leftBy_bind (I := t.Outgrows) (forEach_keeps ⟨h, Nat.le_refl _⟩ fun _ _ hid h₁ =>
    h₁.bindItem (h.mem_walk_iff.1 hid)) fun t₁ _ h₁ => ?_
  refine leftBy_bind (h₁.trans (forEach_keeps ⟨h₁.rooted, Nat.le_refl _⟩ fun _ _ hid h₂ =>
    h₂.classifyItem (h₁.rooted.mem_walk_iff.1 hid))) fun t₂ _ h₂ => ?_
  refine leftBy_bind (h₂.alike (alike_settleArities t₂)) fun t₃ _ h₃ => ?_
  refine leftBy_bind (h₃.alike (alike_describe t₃ plugin options.config)) fun t₄ _ h₄ => ?_
  exact h₄.alike (alike_markAliases t₄)

theorem Cultivated.rooted (h : t.Cultivated Item.ListsNothing) : t.Rooted := by
  induction h with
  | source source => exact (wellFormed_ofSource source).rooted
  | push _ hp hi ih => exact ih.addUnder hp lists_withChild hi.alternatives hi.children
  | resolve _ plugin options ih => exact (ih.outgrows_resolve plugin options).rooted

/-! ### The walk over a tree -/

/-- One turn of the loop over a tree, with its stack and what it has met: an item is met, and what
it lists takes its place. -/
inductive Turn (t : ItemTree) : List ItemId × List ItemId → List ItemId × List ItemId → Prop
  | meet {x : ItemId} {stack met : List ItemId} :
    Turn t (x :: stack, met) (t.listed x ++ stack, met ++ [x])

/-- All items, each once and after its parent, in the order in which the loop over the tree meets
them. -/
structure Preorder (t : ItemTree) (order : List ItemId) : Prop where
  nodup : order.Nodup
  mem_iff : ∀ x, x ∈ order ↔ x.index < t.size
  parent : ∀ before x after, order = before ++ x :: after →
    ∀ p, (t.item x).parent = some p → p ∈ before
  run : Relation.ReflTransGen t.Turn ([root], []) ([], order)

theorem run_flatMap {bound : Nat} {l : List ItemId} (stack : List ItemId)
    (hone : ∀ c ∈ l, ∀ stack met,
      Relation.ReflTransGen t.Turn (c :: stack, met) (stack, met ++ t.walkFrom bound c))
    (met : List ItemId) : Relation.ReflTransGen t.Turn (l ++ stack, met)
      (stack, met ++ l.flatMap (t.walkFrom bound)) := by
  induction l generalizing met with
  | nil =>
    rw [List.flatMap_nil, List.append_nil]
    exact .refl
  | cons c rest ih =>
    rw [List.flatMap_cons, ← List.append_assoc]
    exact (hone c List.mem_cons_self (rest ++ stack) met).trans
      (ih (fun d hd => hone d (List.mem_cons_of_mem c hd)) _)

/-- The loop deals with an item and what stands under it, whatever lies below on the stack. What an
item lists has higher indices, so that the bound is not met on the way. -/
theorem Rooted.run_walkFrom (h : t.Rooted) {bound : Nat} (hid : id.index < t.size)
    (hb : t.size ≤ bound + id.index) (stack met : List ItemId) :
    Relation.ReflTransGen t.Turn (id :: stack, met) (stack, met ++ t.walkFrom bound id) := by
  induction bound generalizing id stack met with
  | zero => exact absurd hid (Nat.not_lt.2 (by omega))
  | succ bound ih =>
    rw [walkFrom_succ, List.append_cons]
    refine .head .meet (run_flatMap stack (fun c hc => ?_) _)
    have hlt := h.index_lt hc
    exact ih (h.listed id c hc).1 (by omega)

/-- What lies on the stack or has been met comes after its parent. -/
structure AfterParents (t : ItemTree) (s : List ItemId × List ItemId) : Prop where
  stacked : ∀ x ∈ s.1, ∀ p, (t.item x).parent = some p → p ∈ s.2
  met : ∀ before x after, s.2 = before ++ x :: after →
    ∀ p, (t.item x).parent = some p → p ∈ before

theorem AfterParents.turn (h : t.Rooted) {s s' : List ItemId × List ItemId}
    (hs : t.AfterParents s) (ht : t.Turn s s') : t.AfterParents s' := by
  obtain @⟨y, stack, met⟩ := ht
  refine ⟨fun x hx p hp => ?_, fun before x after he p hp => ?_⟩
  · rcases List.mem_append.1 hx with hx | hx
    · obtain rfl : p = y := Option.some.inj (hp.symm.trans (h.listed y x hx).2)
      exact List.mem_append_right met (List.mem_singleton.2 rfl)
    · exact List.mem_append_left [y] (hs.stacked x (List.mem_cons_of_mem y hx) p hp)
  · rcases last_or_before he with ⟨rfl, rfl⟩ | ⟨rest, hmet⟩
    · exact hs.stacked y List.mem_cons_self p hp
    · exact hs.met before x rest hmet p hp

theorem AfterParents.run (h : t.Rooted) {s s' : List ItemId × List ItemId} (hs : t.AfterParents s)
    (hrun : Relation.ReflTransGen t.Turn s s') : t.AfterParents s' := by
  induction hrun with
  | refl => exact hs
  | tail _ ht ih => exact ih.turn h ht

theorem Rooted.preorder_walk (h : t.Rooted) : t.Preorder t.walk := by
  have hrun : Relation.ReflTransGen t.Turn ([root], []) ([], t.walk) :=
    h.run_walkFrom h.size (Nat.le_add_right _ _) [] []
  have hstart : t.AfterParents ([root], []) := by
    refine ⟨fun x hx p hp => ?_, fun before x after he => by simp at he⟩
    rw [List.mem_singleton.1 hx, h.rootParent] at hp
    cases hp
  exact ⟨h.nodup_walk, fun _ => h.mem_walk_iff, (hstart.run h hrun).met, hrun⟩

/-- A choice that is bound no further than its first alternative, as nothing has the name of the
second one. -/
def halfBoundChoice : ItemTree :=
  leftBy ((((ofSource "half").push root (.object (some "part"))).push root
    (.variant (some "choice") [⟨"part", ∅, .builtin⟩, ⟨"missing", ∅, .builtin⟩])).resolve
      { name := "any", capabilities := .allElements } {})

/-- A branch with a twig, and a clone of the branch that lists the same twig. -/
def clonedBranch : ItemTree :=
  let t := ((ofSource "tree").push root (.object (some "branch"))).push ⟨1⟩ (.object (some "twig"))
  t.push root (t.item ⟨1⟩)

end ItemTree

/-! ### Both walks -/

/-- **Walks meet everything once.** The walk over a tree that pushes of items that list nothing and
resolutions have made meets all items, each once and after its parent. A walk along edges, with
whatever circles and however many edges to one node or to nowhere, meets what can be reached in the
one depth-first order, if its bound covers some nodes that no edge leaves. Both are what a loop with
a stack comes to. -/
theorem walks_meet_once :
    (∀ t : ItemTree, t.Cultivated Item.ListsNothing → t.Preorder t.walk) ∧
    ∀ {ν : Type} [DecidableEq ν] (edges : ν → List (Option ν)) (start : Option ν) (nodes : List ν)
      (bound : Nat), Closed (targets edges) nodes → (∀ x ∈ start, x ∈ nodes) →
      nodes.length ≤ bound →
      (∀ order, DepthFirst edges start order ↔
        order = reach (targets edges) bound start.toList) ∧
      Relation.ReflTransGen (Turn edges) ([start], [])
        ([], reach (targets edges) bound start.toList) := by
  refine ⟨fun t ht => ht.rooted.preorder_walk, fun edges start nodes bound hu hs hb => ?_⟩
  have hreach := depthFirst_reach hu hb hs
  exact ⟨fun order => ⟨fun h => h.unique hreach, fun he => he ▸ hreach⟩, run_reach hu hb hs⟩

/-- Edges among three nodes, with circles, one edge twice and one to nowhere. -/
def tangledEdges : Nat → List (Option Nat)
  | 0 => [some 2, none, some 1, some 2]
  | 1 => [some 0]
  | _ => [some 1, some 2]

/-- The alternatives that a failed resolution leaves behind are met before the choice is left. Along
tangled edges the second node is met from the third one. -/
theorem halfBoundChoice_walked :
    ItemTree.halfBoundChoice.Preorder [⟨0⟩, ⟨1⟩, ⟨2⟩, ⟨3⟩, ⟨4⟩] ∧
      Closed (targets tangledEdges) [0, 1, 2] ∧ DepthFirst tangledEdges (some 0) [0, 2, 1] ∧
      Relation.ReflTransGen (Turn tangledEdges) ([some 0], []) ([], [0, 2, 1]) := by
  have hcultivated : ItemTree.halfBoundChoice.Cultivated Item.ListsNothing :=
    .resolve (.push (.push (.source "half") (by decide) ⟨rfl, rfl⟩) (by decide) ⟨rfl, rfl⟩) _ _
  have hwalk : ItemTree.halfBoundChoice.walk = [⟨0⟩, ⟨1⟩, ⟨2⟩, ⟨3⟩, ⟨4⟩] := by decide +kernel
  have hclosed : Closed (targets tangledEdges) [0, 1, 2] := by
    unfold Closed
    decide
  obtain ⟨htree, hedges⟩ := walks_meet_once
  obtain ⟨horder, hrun⟩ := hedges tangledEdges (some 0) [0, 1, 2] 3 hclosed (by simp) (by simp)
  exact ⟨hwalk ▸ htree _ hcultivated, hclosed, (horder _).2 (by decide), hrun⟩

/-- If any item may be pushed, the walk can meet one twice: the twig comes up under its branch and
under the clone of it. -/
theorem clonedBranch_met_twice : ItemTree.clonedBranch.Cultivated (fun _ => True) ∧
    ItemTree.clonedBranch.walk = [⟨0⟩, ⟨1⟩, ⟨2⟩, ⟨3⟩, ⟨2⟩] ∧
    ¬ItemTree.clonedBranch.Preorder ItemTree.clonedBranch.walk := by
  have hcultivated : ItemTree.clonedBranch.Cultivated fun _ => True :=
    .push (.push (.push (.source "tree") (by decide) trivial) (by decide) trivial) (by decide)
      trivial
  have hwalk : ItemTree.clonedBranch.walk = [⟨0⟩, ⟨1⟩, ⟨2⟩, ⟨3⟩, ⟨2⟩] := by decide +kernel
  refine ⟨hcultivated, hwalk, fun horder => ?_⟩
  have hnodup := horder.nodup
  rw [hwalk] at hnodup
  exact absurd hnodup (by decide)

/-- The walk over a graph meets what can be reached from an element in depth-first order. -/
theorem Graph.depthFirst_walk {g : Graph} {start : ElementId} (hs : start ∈ g.ids)
    (hu : Closed (fun id => (g.element id).edges) g.ids) :
    DepthFirst (fun id => (g.element id).edges.map some) (some start) (g.walk start) := by
  have htargets : targets (fun id => (g.element id).edges.map some) =
      fun id => (g.element id).edges :=
    funext fun id => by simp [targets, List.reduceOption, List.filterMap_map]
  have hsize : g.ids.length ≤ g.size := by simp [ids]
  rw [← htargets] at hu
  have hstart : ∀ x ∈ some start, x ∈ g.ids := fun _ hx => Option.some.inj hx ▸ hs
  have hreach := depthFirst_reach hu hsize hstart
  rwa [htargets] at hreach

end Schemata
