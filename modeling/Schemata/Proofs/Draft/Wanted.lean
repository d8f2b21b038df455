import Schemata.Proofs.Draft.Plan
import Schemata.Proofs.Tree.Chains

/-! Which items of an admitted tree get elements.

All but ignored extensions, synthetic children and, unless aliases are to stay,
alternatives that are mere aliases. These items have among them all that building
one of them asks for (`closed_wanted`), and none of them fails by itself
(`fault_of_wanted`). -/
namespace Schemata.Blueprint

open Search

variable {b : Blueprint} {item p x : ItemId}

/-- The items that get no element. -/
def omits (b : Blueprint) (item : ItemId) : Bool :=
  ((b.tree.item item).isExtension && (b.tree.item item).isIgnored) ||
    (b.tree.item item).isSynthetic ||
    (!b.preserveReferences && b.tree.isAlternative item && b.isAlias item)

/-- An item of the tree that is to get an element. -/
structure Wanted (b : Blueprint) (item : ItemId) : Prop where
  lt : item.index < b.tree.size
  kept : b.omits item = false

theorem omits_eq_false_iff : b.omits item = false ↔
    ((b.tree.item item).isExtension → (b.tree.item item).isIgnored = false) ∧
      (b.tree.item item).isSynthetic = false ∧
      (b.tree.isAlternative item → b.isAlias item = false ∨ b.preserveReferences = true) := by
  unfold omits
  cases (b.tree.item item).isExtension <;> cases (b.tree.item item).isSynthetic <;>
    cases b.preserveReferences <;> cases b.tree.isAlternative item <;> simp

/-! ### What items stand for -/

theorem not_extension_of_form {i : Item} {form : Form} (h : i.form = form)
    (hne : form ≠ .extension) : i.isExtension = false := by
  unfold Item.isExtension
  rw [h, decide_eq_false hne]

theorem isAlternative_iff (h : b.tree.Rooted) :
    b.tree.isAlternative x ↔ ∃ p, x ∈ (b.tree.item p).alternatives := by
  unfold ItemTree.isAlternative
  constructor
  · intro hx
    cases hp : (b.tree.item x).parent with
    | none =>
      rw [hp] at hx
      cases hx
    | some p =>
      rw [hp] at hx
      exact ⟨p, List.contains_iff_mem.1 hx⟩
  · rintro ⟨p, hp⟩
    rw [(h.listed p x (List.mem_append_left _ hp)).2]
    exact List.contains_iff_mem.2 hp

/-- A child is no alternative. -/
theorem isAlternative_of_child (h : b.tree.Rooted) (hx : x ∈ (b.tree.item p).children) :
    b.tree.isAlternative x = false := by
  rw [Bool.eq_false_iff, ne_eq, isAlternative_iff h]
  rintro ⟨q, hq⟩
  have hp := (h.listed p x (List.mem_append_right _ hx)).2
  have hpq := (h.listed q x (List.mem_append_left _ hq)).2
  rw [hp] at hpq
  cases hpq
  exact (List.nodup_append.1 (h.nodup p)).2.2 x hq x hx rfl

/-- What items that are no extensions refer to is wanted, and so is whatever is further along. -/
theorem wanted_of_follows (h : b.tree.Admitted) (hi : (b.tree.item item).isExtension = false)
    (hx : x ∈ (b.tree.item item).itemReferences) {y : ItemId}
    (hxy : Relation.ReflTransGen (Follows b.tree.referenceStep) x y) : b.Wanted y := by
  have hr := h.resolved.wellFormed.regular
  have hnamed : y.index < b.tree.size ∧ (b.tree.item y).name.isSome := by
    cases hxy with
    | refl => exact hr.references item x (ItemTree.mem_itemReferences.1 hx)
    | @tail z _ _ hzy =>
      refine hr.references z y ?_
      rw [hr.references_of_follows hzy]
      exact List.mem_singleton.2 rfl
  refine ⟨hnamed.1, omits_eq_false_iff.2 ⟨fun hext => ?_, ?_, fun halt => ?_⟩⟩
  · exact absurd hext (by simp [h.not_extension hi hx hxy])
  · rw [Bool.eq_false_iff]
    intro hs
    have hnone := ((hr.items y).synthetic hs).1
    rw [hnone] at hnamed
    cases hnamed.2
  · obtain ⟨q, hq⟩ := (isAlternative_iff h.resolved.wellFormed.rooted).1 halt
    have hnone := (hr.alternatives q y hq).1
    rw [hnone] at hnamed
    cases hnamed.2

theorem wanted_reference (h : b.tree.Admitted) (hi : (b.tree.item item).isExtension = false)
    (hx : x ∈ (b.tree.item item).itemReferences) : b.Wanted x ∧ b.Wanted (b.standIn x) :=
  ⟨wanted_of_follows h hi hx .refl, wanted_of_follows h hi hx (follows_standIn h.resolved x).1⟩

/-- An alternative for which nothing else stands is wanted. -/
theorem wanted_alternative (h : b.tree.Admitted) (hx : x ∈ (b.tree.item p).alternatives)
    (hs : b.standIn x = x) : b.Wanted x := by
  have hw := h.resolved.wellFormed
  obtain ⟨hlt, hparent⟩ := hw.rooted.listed p x (List.mem_append_left _ hx)
  have hform := (hw.regular.alternatives p x hx).2
  refine ⟨hlt, omits_eq_false_iff.2 ⟨fun hext => ?_, ?_, fun _ => ?_⟩⟩
  · exact absurd hext (by simp [not_extension_of_form hform])
  · -- a synthetic child would be a child of the same item as well
    rw [Bool.eq_false_iff]
    intro hsynthetic
    obtain ⟨q, hq, _, hchild⟩ := hw.regular.synthetic x hsynthetic
    have halt := isAlternative_of_child hw.rooted (ItemTree.mem_of_syntheticChild hchild).1
    exact absurd ((isAlternative_iff hw.rooted).2 ⟨p, hx⟩) (by simp [halt])
  · cases hp : b.preserveReferences with
    | true => exact .inr rfl
    | false => exact .inl (isAlias_of_standIn_eq h.resolved hs hp)

/-- What stands for an alternative is wanted. -/
theorem wanted_standIn_alternative (h : b.tree.Admitted)
    (hx : x ∈ (b.tree.item p).alternatives) : b.Wanted (b.standIn x) := by
  have hw := h.resolved.wellFormed
  rcases Relation.ReflTransGen.cases_head (follows_standIn h.resolved x).1 with heq | ⟨y, hxy, hy⟩
  · rw [← heq]
    exact wanted_alternative h hx heq.symm
  · refine wanted_of_follows h (not_extension_of_form (hw.regular.alternatives p x hx).2 (by simp))
      ?_ hy
    rw [ItemTree.itemReferences_of_references (hw.regular.references_of_follows hxy)]
    exact List.mem_singleton.2 rfl

/-! ### What building asks for -/

/-- Only the extensions of an item are built as extensions. -/
theorem not_extension_of_part {part : Part} (h : b.part? item x = some part)
    (hne : part ≠ .extension) : (b.tree.item x).isExtension = false := by
  refine Bool.eq_false_iff.2 fun hext => ?_
  unfold part? at h
  rw [if_pos hext] at h
  split at h
  · cases h
  · split at h
    · cases h
    · exact hne (Option.some.inj h).symm

/-- The children that are something to the element of an item are wanted. -/
theorem wanted_child (h : b.tree.WellFormed) (hx : x ∈ (b.tree.item p).children)
    (hp : (b.part? p x).isSome) : b.Wanted x := by
  have hlisted := h.rooted.listed p x (List.mem_append_right _ hx)
  unfold part? at hp
  split at hp
  · cases hp
  next hignored =>
  split at hp
  · cases hp
  next hsynthetic =>
  refine ⟨hlisted.1,
    omits_eq_false_iff.2 ⟨fun _ => Bool.eq_false_iff.2 hignored, ?_, fun halt => ?_⟩⟩
  · rw [Bool.eq_false_iff]
    intro hs
    obtain ⟨q, hq, hk, hchild⟩ := h.regular.synthetic x hs
    rw [hlisted.2] at hq
    cases hq
    exact hsynthetic ⟨hk, hchild⟩
  · exact absurd halt (by simp [isAlternative_of_child h.rooted hx])

theorem builtChildren_sublist (b : Blueprint) (item : ItemId) :
    (b.builtChildren item).Sublist (b.tree.item item).children := by
  unfold builtChildren
  split
  · exact .refl _
  · exact .refl _
  · exact List.nil_sublist _

theorem parts_sublist (b : Blueprint) (item : ItemId) (part : Part) :
    (b.parts item part).Sublist (b.tree.item item).children :=
  List.filter_sublist.trans (b.builtChildren_sublist item)

theorem mem_builtChildren (h : x ∈ b.builtChildren item) : x ∈ (b.tree.item item).children :=
  (b.builtChildren_sublist item).subset h

theorem mem_ownAlternatives (h : x ∈ b.ownAlternatives item) :
    x ∈ (b.tree.item item).alternatives ∧ b.standIn x = x := by
  unfold ownAlternatives at h
  split at h
  · rw [List.mem_filter, decide_eq_true_eq] at h
    exact h
  · cases h

/-- What is owned stands under its owner. -/
theorem listed_of_owned (h : x ∈ b.owned item) : x ∈ b.tree.listed item := by
  rcases List.mem_append.1 h with h | h
  · exact List.mem_append_right _ (mem_builtChildren (List.mem_filter.1 h).1)
  · exact List.mem_append_left _ (mem_ownAlternatives h).1

/-- A link comes from an item that is no extension; it leads to a reference or an alternative. -/
theorem of_linked {l : Link} (h : b.tree.Regular) (hl : b.linked? item l = some x) :
    (b.tree.item item).isExtension = false ∧
      (x ∈ (b.tree.item item).itemReferences ∨ x ∈ (b.tree.item item).alternatives) := by
  have htarget : ∀ {y}, (b.tree.item item).target?.bind Target.item? = some y →
      y ∈ (b.tree.item item).itemReferences := fun {y} hy => by
    unfold Item.target? at hy
    split at hy
    · next target hr =>
      refine ItemTree.mem_itemReferences.2 ?_
      cases target with
      | item z =>
        cases hy
        rw [hr]
        exact List.mem_singleton.2 rfl
      | builtin type => cases hy
    · cases hy
  have hsuits := (h.items item).suits
  unfold linked? at hl
  split at hl
  · next hk => exact ⟨not_extension_of_form (hsuits _ hk) (by simp), .inl (List.mem_of_getElem? hl)⟩
  · next hk =>
    exact ⟨not_extension_of_form (hsuits _ hk).1 (by simp), .inr (List.mem_of_getElem? hl)⟩
  · next hk => exact ⟨not_extension_of_form (hsuits _ hk).1 (by simp), .inl (htarget hl)⟩
  · next hk => exact ⟨not_extension_of_form (hsuits _ hk).1 (by simp), .inl (htarget hl)⟩
  · cases hl

theorem of_valueSource {s : ItemId} (h : b.valueSource? item = some s) :
    (b.tree.item item).kind = some .simple ∧ b.tree.syntheticChild item = none ∧
      (b.tree.simpleSources item).head? = some s := by
  unfold valueSource? at h
  split at h
  · next hk hs => exact ⟨hk, hs, h⟩
  · cases h

theorem mem_of_simpleSource {s : ItemId} (h : (b.tree.simpleSources item).head? = some s) :
    s ∈ (b.tree.item item).itemReferences :=
  (List.mem_filter.1 (List.mem_of_head? h)).1

theorem wanted_root (h : b.tree.WellFormed) : b.Wanted ItemTree.root := by
  refine ⟨h.rooted.size, omits_eq_false_iff.2 ⟨fun hext => ?_, ?_, fun halt => ?_⟩⟩
  · exact absurd hext (by simp [not_extension_of_form h.rooted.rootForm])
  · rw [Bool.eq_false_iff]
    intro hs
    obtain ⟨p, hp, _⟩ := h.regular.synthetic _ hs
    rw [h.rooted.rootParent] at hp
    cases hp
  · unfold ItemTree.isAlternative at halt
    rw [h.rooted.rootParent] at halt
    cases halt

/-- Building wanted items asks for wanted items only. -/
theorem closed_wanted (h : b.tree.Admitted) : b.Closed b.Wanted where
  root := wanted_root h.resolved.wellFormed
  owned item _ c hc := by
    rcases List.mem_append.1 hc with hc | hc
    · obtain ⟨hmem, hpart⟩ := List.mem_filter.1 hc
      exact wanted_child h.resolved.wellFormed (mem_builtChildren hmem) hpart
    · obtain ⟨hmem, hs⟩ := mem_ownAlternatives hc
      exact wanted_alternative h hmem hs
  bases item _ hk x hx := by
    have hform := (h.resolved.wellFormed.regular.items item).suits _ hk
    exact (wanted_reference h (not_extension_of_form hform (by simp)) hx).1
  linked item _ l x hl := by
    obtain ⟨hext, hx | hx⟩ := of_linked h.resolved.wellFormed.regular hl
    · exact (wanted_reference h hext hx).2
    · exact wanted_standIn_alternative h hx
  source item _ s hs := by
    obtain ⟨hk, _, hs⟩ := of_valueSource hs
    have hform := (h.resolved.wellFormed.regular.items item).suits _ hk
    exact (wanted_reference h (not_extension_of_form hform (by simp)) (mem_of_simpleSource hs)).1

/-! ### What items own -/

theorem listed_eq_nil_iff {t : ItemTree} :
    t.listed p = [] ↔ (t.item p).alternatives = [] ∧ (t.item p).children = [] :=
  List.append_eq_nil_iff

theorem lt_of_listed {t : ItemTree} (h : x ∈ t.listed p) : p.index < t.size := by
  by_contra hn
  unfold ItemTree.listed at h
  rw [ItemTree.item_of_size_le (Nat.le_of_not_lt hn)] at h
  cases h

/-- What gets no element has nothing under it, if only objects hold anything. -/
theorem listed_of_omits (h : b.tree.WellFormed) (ho : b.tree.OnlyObjectsHold)
    (hp : b.omits p = true) : b.tree.listed p = [] := by
  have hi := h.regular.items p
  have hchildren : ∀ form, (b.tree.item p).form = form → form ≠ .object →
      (b.tree.item p).children = [] := fun form hf hne => by
    by_contra hn
    exact hne (hf.symm.trans (ho p hn))
  rw [listed_eq_nil_iff]
  unfold omits at hp
  rw [Bool.or_eq_true, Bool.or_eq_true, Bool.and_eq_true, Bool.and_eq_true] at hp
  rcases hp with (⟨hext, _⟩ | hsynthetic) | ⟨_, halias⟩
  · have hform : (b.tree.item p).form = .extension := of_decide_eq_true hext
    refine ⟨?_, hchildren _ hform (by simp)⟩
    by_contra hn
    have hdeclared := hi.variants (.inl hn)
    rw [hform] at hdeclared
    cases hdeclared
  · obtain ⟨hform, halternatives, _⟩ := hi.suits _ (hi.synthetic hsynthetic).2
    exact ⟨halternatives, hchildren _ hform (by simp)⟩
  · unfold isAlias at halias
    rw [Bool.and_eq_true, decide_eq_true_eq] at halias
    obtain ⟨hform, halternatives, _⟩ := hi.suits _ halias.1
    exact ⟨halternatives, hchildren _ hform (by simp)⟩

/-- An item with alternatives is a variant. -/
theorem kind_of_alternatives (h : b.tree.Resolved) (hx : x ∈ (b.tree.item p).alternatives) :
    (b.tree.item p).kind = some .variant := by
  have hne : (b.tree.item p).alternatives ≠ [] := List.ne_nil_of_mem hx
  have hform := (h.wellFormed.regular.items p).variants (.inl hne)
  obtain ⟨k, hk⟩ := h.kinds p (lt_of_listed (List.mem_append_left _ hx))
  have hsuits := (h.wellFormed.regular.items p).suits k hk
  rw [hk]
  cases k with
  | variant => rfl
  | compound | simple | extension => exact absurd (hform.symm.trans hsuits) (by simp)
  | fundamental | reference | list => exact absurd hsuits.2.1 hne
  | any | custom => exact absurd hsuits.2 hne

/-- Of an object all children get elements that can get one. -/
theorem builtChildren_of_object (h : b.tree.Resolved) (hlt : p.index < b.tree.size)
    (hform : (b.tree.item p).form = .object) :
    b.builtChildren p = (b.tree.item p).children := by
  obtain ⟨k, hk⟩ := h.kinds p hlt
  have hsuits := (h.wellFormed.regular.items p).suits k hk
  unfold builtChildren
  rw [hk]
  cases k with
  | compound | simple => rfl
  | extension => exact absurd (hform.symm.trans hsuits) (by simp)
  | variant | fundamental | reference | list | any | custom =>
    exact absurd (hform.symm.trans hsuits.1) (by simp)

/-- What is listed under an item is owned by it, unless it gets no element. -/
theorem owned_of_listed (h : b.tree.Resolved) (ho : b.tree.OnlyObjectsHold)
    (hx : x ∈ b.tree.listed p) (hn : b.omits x = false) : x ∈ b.owned p := by
  have hw := h.wellFormed
  obtain ⟨hignored, hsynthetic, halias⟩ := omits_eq_false_iff.1 hn
  refine List.mem_append.2 ((List.mem_append.1 hx).symm.imp (fun hc => ?_) fun ha => ?_)
  · refine List.mem_filter.2 ⟨?_, ?_⟩
    · rw [builtChildren_of_object h (lt_of_listed hx) (ho p (List.ne_nil_of_mem hc))]
      exact hc
    · unfold part?
      have hig : (b.tree.item x).isIgnored = false := by
        rw [Bool.eq_false_iff]
        intro hi
        exact absurd (hignored ((hw.regular.items x).ignored hi)) (by simp [hi])
      rw [if_neg (by simp [hig]), if_neg fun hs => ?_]
      · split
        · rfl
        · split
          · rfl
          · rfl
      · exact absurd (ItemTree.mem_of_syntheticChild hs.2).2 (by simp [hsynthetic])
  · unfold ownAlternatives
    rw [kind_of_alternatives h ha]
    refine List.mem_filter.2 ⟨ha, decide_eq_true ?_⟩
    exact standIn_eq_of_not_isAlias (halias ((isAlternative_iff hw.rooted).2 ⟨p, ha⟩))

/-- The alternatives for which nothing else stands are those that get elements. -/
theorem standIn_eq_iff (h : b.tree.Admitted) (hx : x ∈ (b.tree.item p).alternatives) :
    b.standIn x = x ↔ b.omits x = false := by
  refine ⟨fun hs => (wanted_alternative h hx hs).kept, fun hn => ?_⟩
  have halt := (isAlternative_iff h.resolved.wellFormed.rooted).2 ⟨p, hx⟩
  exact standIn_eq_of_not_isAlias ((omits_eq_false_iff.1 hn).2.2 halt)

/-! ### No item fails by itself -/

theorem namedFundamental_of_kind {t : ItemTree} (h : t.Regular)
    (hk : (t.item item).kind = some .fundamental) :
    ∃ type, namedFundamental (t.item item) = some type := by
  obtain ⟨_, _, type, htype⟩ := (h.items item).suits _ hk
  refine ⟨type, ?_⟩
  unfold namedFundamental
  rw [ItemTree.target?_of_references htype]
  rfl

/-- A simple object without a synthetic child has a source. -/
theorem exists_simpleSource (h : b.tree.WellFormed) (hk : (b.tree.item item).kind = some .simple)
    (hs : b.tree.syntheticChild item = none) :
    ∃ s, (b.tree.simpleSources item).head? = some s := by
  obtain hs' | ⟨y, hy, hg⟩ := h.grounded item hk
  · rw [hs] at hs'
    cases hs'
  · have hlt := (h.regular.references item y (ItemTree.mem_itemReferences.1 hy)).1
    have hmem : y ∈ b.tree.simpleSources item :=
      List.mem_filter.2 ⟨hy, h.regular.leadsToFundamental hg hlt⟩
    cases hsources : b.tree.simpleSources item with
    | nil =>
      rw [hsources] at hmem
      cases hmem
    | cons s rest => exact ⟨s, rfl⟩

/-- No item of a resolved tree fails by itself. -/
theorem fault_eq_none (h : b.tree.Resolved) (hlt : item.index < b.tree.size) :
    b.fault item = none := by
  have hr := h.wellFormed.regular
  have htarget : ∀ {x}, (b.tree.item item).references = [.item x] → b.targetItem item = .ok x :=
    fun hx => by
      unfold targetItem
      rw [ItemTree.target?_of_references hx]
  obtain ⟨k, hk⟩ := h.kinds item hlt
  have hsuits := (hr.items item).suits k hk
  unfold fault
  rw [hk]
  cases k with
  | fundamental =>
    obtain ⟨type, htype⟩ := namedFundamental_of_kind hr hk
    dsimp only
    rw [htype]
    rfl
  | simple =>
    dsimp only
    cases hs : b.tree.syntheticChild item with
    | some child =>
      have hchild := (ItemTree.mem_of_syntheticChild hs).2
      obtain ⟨type, htype⟩ := namedFundamental_of_kind hr ((hr.items child).synthetic hchild).2
      dsimp only
      rw [htype]
      rfl
    | none =>
      obtain ⟨s, hsource⟩ := exists_simpleSource h.wellFormed hk hs
      dsimp only
      rw [if_neg fun hnil => ?_]
      rw [hnil] at hsource
      cases hsource
  | reference =>
    obtain ⟨_, _, x, hx⟩ := hsuits
    obtain ⟨target, hend⟩ := h.chains item hk
    dsimp only
    rw [htarget hx, hend]
  | list =>
    obtain ⟨_, _, x, hx⟩ := hsuits
    dsimp only
    rw [htarget hx]
  | _ => rfl

end Schemata.Blueprint
