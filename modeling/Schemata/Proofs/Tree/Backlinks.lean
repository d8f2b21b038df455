import Schemata.Proofs.Tree.Faults
import Schemata.Proofs.Tree.Reachable

/-! Who refers to whom.

An item is noted at what it refers to, once for each of its references. What is declared
refers to nothing; binding a name adds a reference together with its note. Later on an
object may hand a reference to a builtin type over, of which nobody takes note; all else
leaves references and notes alone. So the notes are right however far a resolution gets
(`Declared.backlinked_resolve`). -/
namespace Schemata.ItemTree

open Item

variable {t t' t'' : ItemTree} {x y p : ItemId} {target : Target}

/-- Every item is noted at every other one as often as it refers to it. -/
def Backlinked (t : ItemTree) : Prop :=
  ∀ x y, (t.item y).referencedBy.count x = (t.item x).references.count (.item y)

/-! ### What leaves the links between items alone -/

/-- In the second tree the old items are linked as in the first one, and new ones are not. -/
structure SameLinks (t t' : ItemTree) : Prop where
  size : t.size ≤ t'.size
  references : ∀ x y, (t'.item x).references.count (.item y) =
    (t.item x).references.count (.item y)
  referencedBy : ∀ y, (t'.item y).referencedBy = (t.item y).referencedBy

theorem SameLinks.backlinked (h : t.SameLinks t') (ht : t.Backlinked) : t'.Backlinked :=
  fun x y => by rw [h.referencedBy, h.references, ht x y]

theorem SameLinks.refl (t : ItemTree) : t.SameLinks t :=
  ⟨Nat.le_refl _, fun _ _ => rfl, fun _ => rfl⟩

theorem SameLinks.trans (h : t.SameLinks t') (h' : t'.SameLinks t'') : t.SameLinks t'' where
  size := Nat.le_trans h.size h'.size
  references x y := (h'.references x y).trans (h.references x y)
  referencedBy y := (h'.referencedBy y).trans (h.referencedBy y)

theorem sameLinks_modify {f : Item → Item}
    (hf : ∀ i y, (f i).references.count (.item y) = i.references.count (.item y))
    (hnoted : ∀ i, (f i).referencedBy = i.referencedBy) : t.SameLinks (t.modify x f) where
  size := Nat.le_of_eq (size_modify t x f).symm
  references u y := field_modify (fun i => i.references.count (.item y)) (fun i => hf i y) u
  referencedBy := field_modify Item.referencedBy hnoted

/-- An item that no item is linked with may be added. -/
theorem sameLinks_addUnder {i : Item} (list : ItemId → Item → Item) (hp : p.index < t.size)
    (hlist : ∀ c i, (list c i).references = i.references ∧
      (list c i).referencedBy = i.referencedBy)
    (hi : ∀ y, i.references.count (.item y) = 0) (hnoted : i.referencedBy = []) :
    t.SameLinks (t.addUnder p i list) := by
  have hnone : t.item t.nextId = default := item_of_size_le (Nat.le_refl t.size)
  refine ⟨by rw [size_addUnder]; exact Nat.le_succ _, fun u y => ?_, fun y => ?_⟩
  · rw [item_addUnder hp]
    split
    · next hu => rw [hu, (hlist _ _).1]
    · split
      · next hu =>
        rw [hu, hnone]
        exact hi y
      · rfl
  · rw [item_addUnder hp]
    split
    · next hu => rw [hu, (hlist _ _).2]
    · split
      · next hu =>
        rw [hu, hnone]
        exact hnoted
      · rfl

theorem DiffersInMetadata.sameLinks (h : t.DiffersInMetadata t') : t.SameLinks t' where
  size := Nat.le_of_eq h.size.symm
  references x y := by rw [h.item x]
  referencedBy y := by rw [h.item y]

/-! ### Declaring -/

theorem referencedBy_declared {i : Item} (h : i.Declared) : i.referencedBy = [] := by
  induction h with
  | object | declaration | variant | extension => rfl
  | withBase _ _ ih | withArity _ _ ih | withMetadata _ _ _ ih | withRole _ _ ih
  | external _ ih | placedAt _ _ ih => exact ih

/-- What has been declared only is linked with nothing. -/
theorem Declared.backlinked (h : t.Declared) : t.Backlinked := fun x y => by
  have hnoted : (t.item y).referencedBy = [] :=
    h.item (P := fun i => i.referencedBy = []) (fun _ _ _ => referencedBy_declared)
      (fun _ _ hi => hi) y
  rw [hnoted, (h.unbound x).1]
  rfl

/-! ### Binding names -/

theorem references_refer (hx : x.index < t.size) (target : Target) (u : ItemId) :
    ((t.refer x target).item u).references =
      if u = x then (t.item u).references ++ [target] else (t.item u).references := by
  have hreferences := congrArg Item.references (unnoted_refer t x u target)
  refine Eq.trans hreferences ?_
  by_cases hu : u = x
  · rw [if_pos ⟨hu, by rwa [hu]⟩, if_pos hu]
    rfl
  · rw [if_neg fun h => hu h.1, if_neg hu]
    rfl

theorem referencedBy_refer (htarget : ∀ y, target = .item y → y.index < t.size) (u : ItemId) :
    ((t.refer x target).item u).referencedBy =
      if target = .item u then (t.item u).referencedBy ++ [x] else (t.item u).referencedBy := by
  have hreferring : ((t.modify x (withReference target)).item u).referencedBy =
      (t.item u).referencedBy :=
    field_modify (f := withReference target) Item.referencedBy (fun _ => rfl) u
  cases target with
  | builtin type => exact hreferring
  | item named =>
    have hnamed := htarget named rfl
    rw [refer_item, item_modify, size_modify]
    by_cases hu : u = named
    · rw [if_pos ⟨hu, by rwa [hu]⟩, if_pos (congrArg Target.item hu.symm)]
      exact congrArg (· ++ [x]) hreferring
    · rw [if_neg fun h => hu h.1, if_neg fun h => hu (Target.item.inj h).symm]
      exact hreferring

/-- A reference comes with its note. -/
theorem Backlinked.refer (h : t.Backlinked) (hx : x.index < t.size)
    (htarget : ∀ y, target = .item y → y.index < t.size) : (t.refer x target).Backlinked := by
  intro u v
  rw [references_refer hx, referencedBy_refer htarget]
  by_cases hu : u = x
  · subst hu
    rw [if_pos rfl, List.count_append, ← h u v]
    split
    · next hv => rw [hv, List.count_append, List.count_singleton_self, List.count_singleton_self]
    · next hv =>
      have hother : Target.item v ∉ [target] := by simpa using Ne.symm hv
      rw [List.count_eq_zero_of_not_mem hother, Nat.add_zero]
  · rw [if_neg hu, ← h u v]
    split
    · have hother : u ∉ [x] := by simpa using hu
      rw [List.count_append, List.count_eq_zero_of_not_mem hother, Nat.add_zero]
    · rfl

/-- Right notes, in a tree with the scopes of another one. -/
structure NotedSoFar (t t' : ItemTree) : Prop extends t.SameScopes t' where
  backlinked : t'.Backlinked

theorem NotedSoFar.modify {f : Item → Item} (h : t.NotedSoFar t') (hf : KeepsPlace f)
    (hlinks : t'.SameLinks (t'.modify x f)) : t.NotedSoFar (t'.modify x f) where
  toSameScopes := h.trans (h.rooted.sameScopes_modify hf)
  backlinked := hlinks.backlinked h.backlinked

section Binding

variable (h : t.NotedSoFar t')
include h

theorem NotedSoFar.bindName (hx : x.index < t'.size) (name : String) (location : Location) :
    t.NotedSoFar (leftBy (t'.bindName x name location)) := by
  unfold ItemTree.bindName
  split
  · next target hname =>
    have htarget : ∀ y, target = .item y → y.index < t'.size := fun y hy =>
      (isNamed_of_lookup h.rooted (hy ▸ hname)).1
    exact ⟨h.trans (h.rooted.sameScopes_refer x target), h.backlinked.refer hx htarget⟩
  · exact h

theorem NotedSoFar.bindAlternative (hx : x.index < t.size) (a : Alternative) :
    t.NotedSoFar (leftBy (t'.bindAlternative x a)) := by
  have hx' := Nat.lt_of_lt_of_le hx h.size
  have hlinks : t'.SameLinks (t'.withUnbound x a) :=
    sameLinks_addUnder withAlternative hx' (fun _ _ => ⟨rfl, rfl⟩) (fun _ => rfl) rfl
  have hpushed : t.NotedSoFar (t'.withUnbound x a) :=
    ⟨h.trans (h.rooted.sameScopes_pushAlternative hx' a), hlinks.backlinked h.backlinked⟩
  have hnew : t'.nextId.index < (t'.withUnbound x a).size := by
    rw [size_withUnbound]
    exact Nat.lt_succ_self _
  rw [bindAlternative_eq]
  exact hpushed.bindName hnew a.name a.location

theorem NotedSoFar.bindReference (hx : x.index < t.size) (raw : RawReference) :
    t.NotedSoFar (leftBy (t'.bindReference x raw)) := by
  cases raw with
  | name name location => exact h.bindName (Nat.lt_of_lt_of_le hx h.size) name location
  | variant alternatives => exact leftBy_foldlM h fun _ a _ h' => h'.bindAlternative hx a

theorem NotedSoFar.bindItem (hx : x.index < t.size) :
    t.NotedSoFar (leftBy (t'.bindItem x)) := by
  unfold ItemTree.bindItem
  dsimp only
  split
  · exact h
  · have hcleared : t.NotedSoFar (t'.modify x cleared) :=
      h.modify keepsPlace_cleared (sameLinks_modify (fun _ _ => rfl) fun _ => rfl)
    exact leftBy_foldlM hcleared fun _ raw _ h' => h'.bindReference hx raw

end Binding

theorem Declared.notedSoFar_bindNames (h : t.Declared) : t.NotedSoFar (leftBy t.bindNames) :=
  have ht : t.Rooted := h.reachable.wellFormed.rooted
  forEach_keeps ⟨.refl ht, h.backlinked⟩ fun _ _ hx h' => h'.bindItem (ht.mem_walk_iff.1 hx)

/-! ### The passes after it -/

theorem sameLinks_splitSimple (hx : x.index < t.size) (type : Fundamental) :
    t.SameLinks (t.splitSimple x type) := by
  have hreferences : ∀ (i : Item) (y : ItemId),
      (withoutFundamental type i).references.count (.item y) = i.references.count (.item y) :=
    fun i y => by
      have hne : Target.item y ≠ .builtin (.fundamental type) := nofun
      exact List.count_erase_of_ne hne
  have hwithout : t.SameLinks (t.modify x (withoutFundamental type)) :=
    sameLinks_modify hreferences fun _ => rfl
  have hsplit : t.SameLinks ((t.modify x (withoutFundamental type)).addUnder x
      (syntheticFor (t.item x) type) withFirstChild) :=
    hwithout.trans (sameLinks_addUnder _ (by rwa [size_modify]) (fun _ _ => ⟨rfl, rfl⟩)
      (fun _ => rfl) rfl)
  rw [splitSimple_eq]
  exact hsplit.trans (sameLinks_modify (fun _ _ => rfl) fun _ => rfl)

theorem sameLinks_setKind (kind : Kind) : t.SameLinks (t.setKind x kind) :=
  sameLinks_modify (fun _ _ => rfl) fun _ => rfl

theorem sameLinks_classifyObject (hx : x.index < t.size) :
    t.SameLinks (leftBy (t.classifyObject x)) := by
  unfold classifyObject
  split
  · exact sameLinks_setKind .compound
  · split
    · exact sameLinks_setKind .simple
    · exact sameLinks_splitSimple hx _
    · exact .refl t

theorem sameLinks_classifyLink (target : ItemId) :
    t.SameLinks (leftBy (t.classifyLink x target)) := by
  unfold classifyLink
  dsimp only
  have hkept : t.SameLinks
      (t.modify x fun i => { i with metadata := i.metadata.erase Key.refinesArity }) :=
    sameLinks_modify (fun _ _ => rfl) fun _ => rfl
  split
  · exact hkept
  · exact hkept.trans (sameLinks_setKind .list)
  · have hrefined : t.SameLinks
        ((t.modify x fun i => { i with metadata := i.metadata.erase Key.refinesArity }).modify x
          fun i => { i with refinement := some ⟨i.hasExplicitArity, i.metadata.explicitKeys⟩ }) :=
      hkept.trans (sameLinks_modify (fun _ _ => rfl) fun _ => rfl)
    exact hrefined.trans (sameLinks_setKind .reference)

theorem sameLinks_classifyDeclaration (t : ItemTree) (x : ItemId) :
    t.SameLinks (leftBy (t.classifyDeclaration x)) := by
  unfold classifyDeclaration
  dsimp only
  split
  · exact sameLinks_setKind .variant
  · split
    · exact .refl t
    · exact sameLinks_setKind .fundamental
    · exact sameLinks_setKind .any
    · exact sameLinks_setKind .custom
    · exact sameLinks_classifyLink _

theorem sameLinks_classifyItem (hx : x.index < t.size) :
    t.SameLinks (leftBy (t.classifyItem x)) := by
  unfold classifyItem
  split
  · exact .refl t
  · split
    · exact sameLinks_setKind .extension
    · exact sameLinks_classifyObject hx
    · exact sameLinks_classifyDeclaration t x

theorem sameLinks_classify (ht : t.Rooted) : t.SameLinks (leftBy t.classify) :=
  forEach_keeps (.refl t) fun _ _ hx h => h.trans
    (sameLinks_classifyItem (Nat.lt_of_lt_of_le (ht.mem_walk_iff.1 hx) h.size))

theorem sameLinks_settleArities (t : ItemTree) : t.SameLinks (leftBy t.settleArities) :=
  forEach_keeps (.refl t) fun _ x _ h => settleArity_keeps h x fun _ _ _ h' =>
    h'.trans (sameLinks_modify (fun _ _ => rfl) fun _ => rfl)

theorem sameLinks_describeItem (plugin : Plugin) (values : OrderedMap String Value)
    (t : ItemTree) (x : ItemId) : t.SameLinks (leftBy (describeItem plugin values t x)) := by
  unfold describeItem
  split
  · split
    · exact sameLinks_modify (fun _ _ => rfl) fun _ => rfl
    · exact .refl t
  · exact .refl t

theorem sameLinks_describe (t : ItemTree) (plugin : Plugin) (config : Config) :
    t.SameLinks (leftBy (t.describe plugin config)) := by
  have hitems : t.SameLinks
      (leftBy (t.forEach (describeItem plugin (config.valuesFor plugin.name)))) :=
    forEach_keeps (.refl t) fun t' x _ h => h.trans (sameLinks_describeItem plugin _ t' x)
  unfold describe
  cases hall : t.forEach (describeItem plugin (config.valuesFor plugin.name)) with
  | error e =>
    rw [hall] at hitems
    exact hitems
  | ok t' =>
    rw [hall] at hitems
    exact hitems.trans (differsInMetadata_inheritAlong t' t'.walk).sameLinks

theorem sameLinks_markAliases (t : ItemTree) : t.SameLinks (leftBy t.markAliases) :=
  forEach_keeps (.refl t) fun t' x _ h => by
    unfold markAlias
    dsimp only
    split
    · split
      · exact h.trans (sameLinks_modify (fun _ _ => rfl) fun _ => rfl)
      · exact h
    · exact h

/-- **Notes are right.** However far a resolution gets, every item is noted at every other one
exactly as often as it refers to it. -/
theorem Declared.backlinked_resolve (h : t.Declared) (plugin : Plugin) (options : Options) :
    (leftBy (t.resolve plugin options)).Backlinked := by
  unfold resolve
  refine leftBy_bind (I := Backlinked) h.notedSoFar_bindNames.backlinked fun t₁ hbound h₁ => ?_
  have hrooted : t₁.Rooted := by
    have hnoted := h.notedSoFar_bindNames
    rw [hbound] at hnoted
    exact hnoted.rooted
  refine leftBy_bind ((sameLinks_classify hrooted).backlinked h₁) fun t₂ _ h₂ => ?_
  refine leftBy_bind ((sameLinks_settleArities t₂).backlinked h₂) fun t₃ _ h₃ => ?_
  refine leftBy_bind ((sameLinks_describe t₃ plugin options.config).backlinked h₃)
    fun t₄ _ h₄ => ?_
  exact (sameLinks_markAliases t₄).backlinked h₄

end Schemata.ItemTree
