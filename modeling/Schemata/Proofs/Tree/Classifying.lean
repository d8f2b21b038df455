import Schemata.Proofs.Tree.WellFormed

/-! Classifying items keeps a tree well-formed.

Items get their kinds once everything is bound. A simple object is grounded when it
gets its kind: either it hands its fundamental type to a synthetic child, or one of
its references leads to a fundamental type. -/
namespace Schemata.ItemTree

open Search

variable {t t' : ItemTree} {id x y : ItemId} {type : Fundamental}

/-- Nothing is left to bind. -/
def AllBound (t : ItemTree) : Prop := ∀ x, (t.item x).rawReferences = []

/-! ### A kind for one item -/

/-- With a kind. -/
def withKind (k : Kind) (i : Item) : Item := { i with kind := some k }

theorem keepsPlace_withKind (k : Kind) : KeepsPlace (withKind k) :=
  ⟨fun _ => rfl, fun _ => rfl, fun _ => rfl, fun _ => rfl, fun _ => rfl, fun _ => rfl, fun _ => rfl⟩

theorem setKind_eq (t : ItemTree) (id : ItemId) (k : Kind) :
    t.setKind id k = t.modify id (withKind k) := rfl

theorem regular_withKind {i : Item} (h : i.Regular) (hk : i.kind = none)
    (hb : i.rawReferences = []) {k : Kind} (hs : i.Suits k) : (withKind k i).Regular where
  variants := h.variants
  bound _ := hb
  suits k' hk' := by
    cases hk'
    cases k <;> exact hs
  synthetic hsynthetic := by
    rw [(h.synthetic hsynthetic).2] at hk
    cases hk
  ignored := h.ignored

/-- An item without a kind gets one that suits it. -/
theorem refined_setKind (h : t.WellFormed) (hk : (t.item id).kind = none)
    (hb : (t.item id).rawReferences = []) {k : Kind} (hs : (t.item id).Suits k)
    (hg : k = .simple → ∃ y ∈ (t.item id).itemReferences, t.Grounded y) :
    t.Refined (t.setKind id k) := by
  have hplace := keepsPlace_withKind k
  have hkind : ∀ x k', (t.item x).kind = some k' →
      ((t.setKind id k).item x).kind = some k' := fun x k' hx => by
    rw [setKind_eq, item_modify, if_neg]
    · exact hx
    · rintro ⟨rfl, _⟩
      rw [hk] at hx
      cases hx
  have hsame : ∀ {α : Type} (g : Item → α), (∀ i, g (withKind k i) = g i) → ∀ x,
      g ((t.setKind id k).item x) = g (t.item x) := fun g hg x => field_modify g hg x
  have hgrounded : ∀ x, t.Grounded x → (t.setKind id k).Grounded x := fun x hx =>
    hx.of_same hkind fun x _ hb => ⟨(hsame Item.rawReferences (fun _ => rfl) x).trans hb,
      hsame Item.form (fun _ => rfl) x, hsame Item.alternatives (fun _ => rfl) x,
      hsame Item.references (fun _ => rfl) x⟩
  have hgrown : t.Grown (t.setKind id k) := grown_modify hplace fun hs => by
    rw [hk] at hs
    cases hs
  refine ⟨⟨h.rooted.modify hplace, h.regular.modify h.rooted hplace
    (regular_withKind (h.regular.items id) hk hb hs) (fun hs => ?_) fun _ => .inl, fun x hx => ?_⟩,
    hgrown, fun x hb => (hsame Item.rawReferences (fun _ => rfl) x).trans hb, hkind,
    fun ho x hx => ?_⟩
  · rw [hk] at hs
    cases hs
  · rw [hsame Item.itemReferences fun _ => rfl]
    by_cases hid : x = id ∧ x.index < t.size
    · rw [setKind_eq, item_modify, if_pos hid] at hx
      obtain ⟨y, hy, hyg⟩ := hg (Option.some.inj hx)
      exact .inr ⟨y, hid.1 ▸ hy, hgrounded y hyg⟩
    · rw [setKind_eq, item_modify, if_neg hid] at hx
      refine (h.grounded x hx).imp (fun hs => ?_) fun ⟨y, hy, hyg⟩ => ⟨y, hy, hgrounded y hyg⟩
      obtain ⟨c, hc⟩ := Option.isSome_iff_exists.1 hs
      rw [hgrown.syntheticChild x c hc]
      rfl
  · rw [hsame Item.children fun _ => rfl] at hx
    exact (hsame Item.form (fun _ => rfl) x).trans (ho x hx)

/-! ### Objects that lead to a fundamental type -/

theorem grounded_of_path (hb : t.AllBound)
    (hpath : Relation.ReflTransGen (fun a b => b ∈ t.referred a) y x)
    (hx : t.isScalar x ∨ t.namesFundamental x) : t.Grounded y := by
  induction hpath using Relation.ReflTransGen.head_induction_on with
  | refl => exact hx.elim .scalar (.names (hb x))
  | head hyz _ ih => exact .via (hb _) hyz ih

theorem ownFundamentals_ne_nil (h : t.namesFundamental id) : t.ownFundamentals id ≠ [] := by
  unfold namesFundamental at h
  rw [Bool.and_eq_true] at h
  obtain ⟨target, hmem, htarget⟩ := List.any_eq_true.1 h.2
  cases target with
  | item x => cases htarget
  | builtin b =>
    obtain ⟨type, htype⟩ := Option.isSome_iff_exists.1 htarget
    have hown : type ∈ t.ownFundamentals id := List.mem_filterMap.2 ⟨.builtin b, hmem, htype⟩
    exact List.ne_nil_of_mem hown

/-- An object that reaches a fundamental type, but names none, has a reference that leads to one. -/
theorem grounded_of_reachesFundamental (hb : t.AllBound) (h : t.reachesFundamental id)
    (hown : t.ownFundamentals id = []) : ∃ y ∈ (t.item id).itemReferences, t.Grounded y := by
  obtain ⟨x, hx, hany⟩ := List.any_eq_true.1 h
  obtain ⟨start, hstart, hpath⟩ := reach_sound t.size [id] hx
  rw [List.mem_singleton.1 hstart] at hpath
  have hscalar : x ≠ id ∧ t.isScalar x ∨ t.namesFundamental x := by
    rw [Bool.or_eq_true, Bool.and_eq_true, decide_eq_true_eq, decide_eq_true_eq] at hany
    refine hany.imp_left fun hk => ⟨hk.1, ?_⟩
    unfold isScalar
    rw [decide_eq_true hk.2]
    rfl
  rcases Relation.ReflTransGen.cases_head hpath with rfl | ⟨y, hy, hpath⟩
  · rcases hscalar with ⟨hne, _⟩ | hn
    · exact absurd rfl hne
    · exact absurd hown (ownFundamentals_ne_nil hn)
  · refine ⟨y, ?_, grounded_of_path hb hpath (hscalar.imp_left And.right)⟩
    have hy' : y ∈ t.referred id := hy
    unfold referred at hy'
    split at hy'
    · cases hy'
    · exact hy'

/-! ### Objects that name a fundamental type -/

/-- Without a fundamental type and its constraints. -/
def withoutFundamental (type : Fundamental) (i : Item) : Item :=
  { i with
    references := i.references.erase (.builtin (.fundamental type))
    metadata := i.metadata.filter fun key _ => !type.hasAttribute key }

theorem keepsPlace_withoutFundamental (type : Fundamental) :
    KeepsPlace (withoutFundamental type) :=
  ⟨fun _ => rfl, fun _ => rfl, fun _ => rfl, fun _ => rfl, fun _ => rfl, fun _ => rfl, fun _ => rfl⟩

/-- The synthetic child of an object for a fundamental type. -/
def syntheticFor (i : Item) (type : Fundamental) : Item :=
  { name := none, form := .declaration, references := [.builtin (.fundamental type)],
    metadata := i.metadata.filter fun key _ => type.hasAttribute key,
    kind := some .fundamental, isSynthetic := true, location := i.location }

/-- A simple object that has handed its fundamental type to a synthetic first child. -/
def splitSimple (t : ItemTree) (id : ItemId) (type : Fundamental) : ItemTree :=
  (t.splitFundamental id type).setKind id .simple

theorem splitSimple_eq (t : ItemTree) (id : ItemId) (type : Fundamental) :
    t.splitSimple id type = ((t.modify id (withoutFundamental type)).addUnder id
      (syntheticFor (t.item id) type) withFirstChild).modify id (withKind .simple) := rfl

theorem size_splitSimple (t : ItemTree) (id : ItemId) (type : Fundamental) :
    (t.splitSimple id type).size = t.size + 1 := by
  rw [splitSimple_eq, size_modify, size_addUnder, size_modify]

/-- An object without a kind has no synthetic child. -/
theorem syntheticChild_of_kindless (h : t.WellFormed) (hk : (t.item id).kind = none) :
    t.syntheticChild id = none := by
  cases hc : t.syntheticChild id with
  | none => rfl
  | some c =>
    obtain ⟨hmem, hsynthetic⟩ := mem_of_syntheticChild hc
    obtain ⟨p, hp, hkp, _⟩ := h.regular.synthetic c hsynthetic
    rw [(h.rooted.listed id c (List.mem_append_right _ hmem)).2] at hp
    rw [← Option.some.inj hp, hk] at hkp
    cases hkp

theorem regular_handingOver {i : Item} (h : i.Regular) (hk : i.kind = none)
    (hb : i.rawReferences = []) (hform : i.form = .object) (c : ItemId) :
    (withKind .simple (withFirstChild c (withoutFundamental type i))).Regular where
  variants := h.variants
  bound _ := hb
  suits k hk' := by
    cases hk'
    exact hform
  synthetic hsynthetic := by
    rw [(h.synthetic hsynthetic).2] at hk
    cases hk
  ignored := h.ignored

theorem regular_syntheticFor (i : Item) (type : Fundamental) (c : ItemId) (p : Option ItemId) :
    Item.Regular { syntheticFor i type with id := c, parent := p } where
  variants _ := rfl
  bound _ := rfl
  suits k hk := by
    cases hk
    exact ⟨rfl, rfl, type, rfl⟩
  synthetic _ := ⟨rfl, rfl⟩
  ignored hi := by cases hi

section Split

variable (hid : id.index < t.size)
include hid

theorem item_splitSimple (j : ItemId) : (t.splitSimple id type).item j =
    if j = id then withKind .simple (withFirstChild t.nextId (withoutFundamental type (t.item id)))
    else if j = t.nextId then
      { syntheticFor (t.item id) type with id := t.nextId, parent := some id }
    else t.item j := by
  have hid' : id.index < (t.modify id (withoutFundamental type)).size := by rwa [size_modify]
  have hnext : (t.modify id (withoutFundamental type)).nextId = t.nextId :=
    congrArg ItemId.mk (size_modify t id _)
  rw [splitSimple_eq, item_modify, item_addUnder hid', hnext, size_addUnder, size_modify]
  by_cases hj : j = id
  · rw [if_pos ⟨hj, by rw [hj]; omega⟩, if_pos hj, if_pos hj, item_modify_self t hid]
  · rw [if_neg fun h => hj h.1, if_neg hj, if_neg hj]
    split
    · rfl
    · rw [item_modify_of_ne t hj]

theorem item_splitSimple_self : (t.splitSimple id type).item id =
    withKind .simple (withFirstChild t.nextId (withoutFundamental type (t.item id))) := by
  rw [item_splitSimple hid, if_pos rfl]

theorem item_splitSimple_nextId : (t.splitSimple id type).item t.nextId =
    { syntheticFor (t.item id) type with id := t.nextId, parent := some id } := by
  rw [item_splitSimple hid, if_neg (Ne.symm (ne_nextId hid)), if_pos rfl]

theorem item_splitSimple_other {j : ItemId} (hj : j ≠ id) (hjn : j ≠ t.nextId) :
    (t.splitSimple id type).item j = t.item j := by
  rw [item_splitSimple hid, if_neg hj, if_neg hjn]

/-- What handing over leaves alone stays on all items but the new one. -/
theorem field_splitSimple {α : Type} {j : ItemId} (g : Item → α)
    (hg : ∀ i, g (withKind .simple (withFirstChild t.nextId (withoutFundamental type i))) = g i)
    (hj : j ≠ t.nextId) : g ((t.splitSimple id type).item j) = g (t.item j) := by
  by_cases hji : j = id
  · rw [hji, item_splitSimple_self hid, hg]
  · rw [item_splitSimple_other hid hji hj]

theorem isBarrier_splitSimple {j : ItemId} (hj : j ≠ t.nextId) :
    (t.splitSimple id type).isBarrier j = t.isBarrier j :=
  field_splitSimple hid (fun i => i.isExtension || !i.alternatives.isEmpty) (fun _ => rfl) hj

/-- Handing over a fundamental type leaves all references to items. -/
theorem mem_references_splitSimple {j : ItemId} (hj : j ≠ t.nextId) :
    Target.item x ∈ ((t.splitSimple id type).item j).references ↔
      Target.item x ∈ (t.item j).references := by
  by_cases hji : j = id
  · rw [hji, item_splitSimple_self hid]
    exact List.mem_erase_of_ne (by simp)
  · rw [item_splitSimple_other hid hji hj]

theorem mem_referred_splitSimple {j : ItemId} (hj : j ≠ t.nextId) :
    x ∈ (t.splitSimple id type).referred j ↔ x ∈ t.referred j := by
  unfold referred
  rw [isBarrier_splitSimple hid hj]
  split
  · exact Iff.rfl
  · rw [mem_itemReferences, mem_itemReferences, mem_references_splitSimple hid hj]

theorem allBound_splitSimple (hb : t.AllBound) : (t.splitSimple id type).AllBound := fun j => by
  by_cases hj : j = t.nextId
  · rw [hj, item_splitSimple_nextId hid]
    rfl
  · rw [field_splitSimple hid Item.rawReferences (fun _ => rfl) hj]
    exact hb j

theorem rooted_splitSimple (h : t.Rooted) : (t.splitSimple id type).Rooted := by
  have hid' : id.index < (t.modify id (withoutFundamental type)).size := by rwa [size_modify]
  rw [splitSimple_eq]
  exact ((h.modify (keepsPlace_withoutFundamental type)).addUnder hid' lists_withFirstChild rfl
    rfl).modify (keepsPlace_withKind .simple)

theorem grown_splitSimple (h : t.WellFormed) (hk : (t.item id).kind = none) :
    t.Grown (t.splitSimple id type) := by
  refine ⟨by rw [size_splitSimple]; omega,
    fun _ hj => field_splitSimple hid Item.name (fun _ => rfl) (ne_nextId hj),
    fun _ hj => field_splitSimple hid Item.form (fun _ => rfl) (ne_nextId hj),
    fun _ hj => field_splitSimple hid Item.parent (fun _ => rfl) (ne_nextId hj),
    fun _ hj => field_splitSimple hid Item.isSynthetic (fun _ => rfl) (ne_nextId hj),
    fun j hj => ?_, fun q c hc => ?_⟩
  · by_cases hji : j = id
    · rw [hji, item_splitSimple_self hid]
      rfl
    · rw [item_splitSimple_other hid hji (ne_nextId (lt_size_of_kind hj))]
      exact hj
  · have hq : q ≠ id := fun he => by
      rw [he, syntheticChild_of_kindless h hk] at hc
      cases hc
    have hmem := (mem_of_syntheticChild hc).1
    have hqn : q ≠ t.nextId := fun he => by
      have hnone : t.item t.nextId = default := item_of_size_le (Nat.le_refl t.size)
      rw [he, hnone] at hmem
      cases hmem
    refine (syntheticChild_congr (by rw [item_splitSimple_other hid hq hqn])
      fun c hc => ?_).trans hc
    exact field_splitSimple hid Item.isSynthetic (fun _ => rfl)
      (ne_nextId (h.rooted.listed q c (List.mem_append_right _ hc)).1)

theorem syntheticChild_splitSimple : (t.splitSimple id type).syntheticChild id = some t.nextId := by
  unfold syntheticChild
  rw [item_splitSimple_self hid]
  show (t.nextId :: (t.item id).children).find? _ = _
  rw [List.find?_cons, item_splitSimple_nextId hid]
  rfl

theorem regular_splitSimple (h : t.WellFormed) (hb : t.AllBound) (hk : (t.item id).kind = none)
    (hform : (t.item id).form = .object) : (t.splitSimple id type).Regular := by
  refine h.regular.grown h.rooted (grown_splitSimple hid h hk) (fun j => ?_) (fun q c hc => .inl ?_)
    (fun j x hx => .inl ?_) fun c hc hs => ?_
  · rw [item_splitSimple hid]
    split
    · exact regular_handingOver (h.regular.items id) hk (hb id) hform _
    · split
      · exact regular_syntheticFor _ _ _ _
      · exact h.regular.items j
  · by_cases hqn : q = t.nextId
    · rw [hqn, item_splitSimple_nextId hid] at hc
      cases hc
    · rwa [field_splitSimple hid Item.alternatives (fun _ => rfl) hqn] at hc
  · by_cases hjn : j = t.nextId
    · rw [hjn, item_splitSimple_nextId hid] at hx
      cases List.mem_singleton.1 hx
    · exact (mem_references_splitSimple hid hjn).1 hx
  · by_cases hcn : c = t.nextId
    · refine ⟨id, ?_, ?_, hcn ▸ syntheticChild_splitSimple hid⟩
      · rw [hcn, item_splitSimple_nextId hid]
      · rw [item_splitSimple_self hid]
        rfl
    · have hci : c ≠ id := fun he => absurd hid (Nat.not_lt.2 (he ▸ hc))
      rw [item_splitSimple_other hid hci hcn, item_of_size_le hc] at hs
      cases hs

theorem grounded_splitSimple (hb : t.AllBound) (hk : (t.item id).kind = none)
    (hx : t.Grounded x) : (t.splitSimple id type).Grounded x := by
  have hother : ∀ j, t.isScalar j ∨ t.namesFundamental j ∨ t.referred j ≠ [] → j ≠ t.nextId := by
    rintro j hj rfl
    have hnone : t.item t.nextId = default := item_of_size_le (Nat.le_refl t.size)
    rcases hj with hj | hj | hj
    · unfold isScalar at hj
      rw [hnone] at hj
      cases hj
    · unfold namesFundamental at hj
      rw [hnone, Bool.and_eq_true] at hj
      cases hj.2
    · unfold referred at hj
      rw [hnone] at hj
      exact hj (ite_self [])
  refine hx.mono (fun j hj => ?_) (fun j _ => allBound_splitSimple hid hb j) (fun j _ hj => ?_)
    fun j _ y hy => ?_
  · have hji : j ≠ id := by
      rintro rfl
      unfold isScalar at hj
      rw [hk] at hj
      cases hj
    unfold isScalar
    rw [item_splitSimple_other hid hji (hother j (.inl hj))]
    exact hj
  · by_cases hji : j = id
    · refine .inr ?_
      unfold isScalar
      rw [hji, item_splitSimple_self hid]
      rfl
    · refine .inl ?_
      unfold namesFundamental isBarrier
      rw [item_splitSimple_other hid hji (hother j (.inr (.inl hj)))]
      exact hj
  · exact (mem_referred_splitSimple hid (hother j (.inr (.inr (List.ne_nil_of_mem hy))))).2 hy

/-- An object hands over its fundamental type and becomes simple. -/
theorem refined_splitSimple (h : t.WellFormed) (hb : t.AllBound) (hk : (t.item id).kind = none)
    (hform : (t.item id).form = .object) : t.Refined (t.splitSimple id type) := by
  have hgrown : t.Grown (t.splitSimple id type) := grown_splitSimple hid h hk
  have hkind : ∀ x k, (t.item x).kind = some k →
      ((t.splitSimple id type).item x).kind = some k := fun x k hx => by
    rw [item_splitSimple_other hid _ (ne_nextId (lt_size_of_kind hx))]
    · exact hx
    · rintro rfl
      rw [hk] at hx
      cases hx
  refine ⟨⟨rooted_splitSimple hid h.rooted, regular_splitSimple hid h hb hk hform, fun x hx => ?_⟩,
    hgrown, fun x _ => allBound_splitSimple hid hb x, hkind, fun ho x hx => ?_⟩
  · by_cases hxi : x = id
    · rw [hxi, syntheticChild_splitSimple hid]
      exact .inl rfl
    · have hxn : x ≠ t.nextId := fun he => by
        rw [he, item_splitSimple_nextId hid] at hx
        cases hx
      rw [item_splitSimple_other hid hxi hxn] at hx ⊢
      refine (h.grounded x hx).imp (fun hs => ?_)
        fun ⟨y, hy, hg⟩ => ⟨y, hy, grounded_splitSimple hid hb hk hg⟩
      obtain ⟨c, hc⟩ := Option.isSome_iff_exists.1 hs
      rw [hgrown.syntheticChild x c hc]
      rfl
  · have hxn : x ≠ t.nextId := fun he => by
      rw [he, item_splitSimple_nextId hid] at hx
      exact hx rfl
    rw [field_splitSimple hid Item.form (fun _ => rfl) hxn]
    by_cases hxi : x = id
    · rw [hxi]
      exact hform
    · rw [item_splitSimple_other hid hxi hxn] at hx
      exact ho x hx

end Split

/-! ### One item -/

/-- What is written on an item before it gets its kind: a reference remembers whether it has an
arity of its own, and nothing else about arities changes. A list was given one that allows for more
than one. -/
structure Annotated (t : ItemTree) (id : ItemId) (k : Kind) (t' : ItemTree) : Prop
    extends t.Alike t' where
  others : ∀ x, x ≠ id → (t'.item x).tally = (t.item x).tally
  arity : (t'.item id).arity = (t.item id).arity
  explicit : (t'.item id).hasExplicitArity = (t.item id).hasExplicitArity
  refined : k = .reference → ∃ r, (t'.item id).refinement = some r ∧
    r.hadExplicitArity = (t.item id).hasExplicitArity
  lists : k = .list → (t.item id).arity.any Arity.isCollection

/-- What classifying an item can do. -/
inductive Classifies (t : ItemTree) (id : ItemId) (t' : ItemTree) : Prop
  /-- The item has a kind already. -/
  | known (hk : (t.item id).kind.isSome) (he : t' = t)
  /-- The item gets a kind, in a tree that is alike. -/
  | kind (hk : (t.item id).kind = none) (k : Kind) (t₁ : ItemTree) (ha : t.Annotated id k t₁)
    (hs : (t.item id).Suits k)
    (hg : k = .simple → t.reachesFundamental id ∧ t.ownFundamentals id = [])
    (hc : k = .compound → (t.item id).parent = none ∨ t.reachesFundamental id = false)
    (he : t' = t₁.setKind id k)
  /-- The item hands over its fundamental type and becomes simple. -/
  | split (hk : (t.item id).kind = none) (hform : (t.item id).form = .object) (type : Fundamental)
    (hown : t.ownFundamentals id = [type]) (he : t' = t.splitSimple id type)

/-- The item has been classified, or the tree still tallies. -/
def Classification (t : ItemTree) (id : ItemId) (x : Except Interrupted ItemTree) : Prop :=
  (∀ t', x = .ok t' → t.Classifies id t') ∧ ∀ e, x = .error e → t.TalliesWith e.tree

theorem Classification.ok (h : t.Classifies id t') : t.Classification id (.ok t') :=
  ⟨fun _ he => Except.ok.inj he ▸ h, fun _ he => by cases he⟩

theorem Classification.error {e : Interrupted} (h : t.TalliesWith e.tree) :
    t.Classification id (.error e) :=
  ⟨fun _ he => (by cases he), fun _ he => Except.error.inj he ▸ h⟩

theorem annotated_refl {k : Kind} (hr : k ≠ .reference) (hl : k ≠ .list) : t.Annotated id k t :=
  ⟨.refl t, fun _ _ => rfl, rfl, rfl, fun he => absurd he hr, fun he => absurd he hl⟩

theorem classification_setKind (hk : (t.item id).kind = none) {k : Kind}
    (hs : (t.item id).Suits k) (hne : k ≠ .simple) (hr : k ≠ .reference) (hl : k ≠ .list)
    (hc : k = .compound → (t.item id).parent = none ∨ t.reachesFundamental id = false) :
    t.Classification id (.ok (t.setKind id k)) :=
  .ok (.kind hk k t (annotated_refl hr hl) hs (fun he => absurd he hne) hc rfl)

theorem classification_classifyObject (hk : (t.item id).kind = none)
    (hform : (t.item id).form = .object) : t.Classification id (t.classifyObject id) := by
  unfold classifyObject
  split
  · next hnone =>
    refine classification_setKind hk hform (by simp) (by simp) (by simp) fun _ => ?_
    rwa [Bool.or_eq_true, Option.isNone_iff_eq_none, Bool.not_eq_true'] at hnone
  · next hreaches =>
    rw [Bool.or_eq_true, not_or, Bool.not_eq_true'] at hreaches
    split
    · next hown =>
      exact .ok (.kind hk .simple t (annotated_refl (by simp) (by simp)) hform
        (fun _ => ⟨by simpa using hreaches.2, hown⟩) (fun he => by cases he) rfl)
    · next type hown => exact .ok (.split hk hform type hown rfl)
    · exact .error (.refl t)

/-- What turns out to be a list allows for more than one. -/
theorem collection_of_isList {target : ItemId} {refines : Bool}
    (h : t.isList id target refines = .ok true) : (t.item id).arity.any Arity.isCollection := by
  unfold isList at h
  dsimp only at h
  split at h
  · next hexplicit => exact ((Bool.and_eq_true _ _).mp hexplicit).2
  · cases h

theorem classification_classifyLink (hk : (t.item id).kind = none) {target : ItemId}
    (hs : (t.item id).Suits .reference) : t.Classification id (t.classifyLink id target) := by
  have hid : id.index < t.size := by
    by_contra hn
    have hform := hs.1
    rw [item_of_size_le (Nat.le_of_not_lt hn)] at hform
    cases hform
  have hkept : t.TalliesWith
      (t.modify id fun i => { i with metadata := i.metadata.erase Key.refinesArity }) :=
    .of_modify (fun _ => rfl) .inl fun _ => rfl
  have hitem := Item.of_tally (hkept.tally id)
  unfold classifyLink
  dsimp only
  split
  · exact .error hkept
  · next hlist =>
    refine .ok (.kind hk .list _ ?_ hs (fun he => by cases he) (fun he => by cases he) rfl)
    refine ⟨hkept.toAlike, fun x _ => hkept.tally x, hitem.1, hitem.2.1, nofun, fun _ => ?_⟩
    obtain ⟨refines, _, hlist⟩ := bind_eq_ok hlist
    exact hitem.1 ▸ collection_of_isList hlist
  · refine .ok (.kind hk .reference _ ?_ hs (fun he => by cases he) (fun he => by cases he) rfl)
    refine ⟨hkept.toAlike.trans (.of_modify (fun _ => rfl) .inl), fun x hx => ?_, ?_, ?_,
      fun _ => ?_, nofun⟩
    · rw [item_modify_of_ne _ hx]
      exact hkept.tally x
    · rw [item_modify_self _ (hkept.size.symm ▸ hid)]
      exact hitem.1
    · rw [item_modify_self _ (hkept.size.symm ▸ hid)]
      exact hitem.2.1
    · rw [item_modify_self _ (hkept.size.symm ▸ hid), item_modify_self t hid]
      exact ⟨_, rfl, rfl⟩

theorem target?_eq_some {i : Item} {target : Target} (h : i.target? = some target) :
    i.references = [target] := by
  unfold Item.target? at h
  split at h
  · next hreferences =>
    cases h
    exact hreferences
  · cases h

theorem classification_classifyDeclaration (hk : (t.item id).kind = none)
    (hform : (t.item id).form = .declaration) :
    t.Classification id (t.classifyDeclaration id) := by
  unfold classifyDeclaration
  dsimp only
  split
  · next halternatives =>
    exact classification_setKind hk ⟨hform, by simpa using halternatives⟩ (by simp) (by simp)
      (by simp) (by simp)
  · next halternatives =>
    have hnone : (t.item id).alternatives = [] := by simpa using halternatives
    split
    · exact .error (.refl t)
    · next type htarget =>
      exact classification_setKind hk ⟨hform, hnone, type, target?_eq_some htarget⟩ (by simp)
        (by simp) (by simp) (by simp)
    · exact classification_setKind hk ⟨hform, hnone⟩ (by simp) (by simp) (by simp) (by simp)
    · exact classification_setKind hk ⟨hform, hnone⟩ (by simp) (by simp) (by simp) (by simp)
    · next x htarget =>
      exact classification_classifyLink hk ⟨hform, hnone, x, target?_eq_some htarget⟩

theorem classification_classifyItem (t : ItemTree) (id : ItemId) :
    t.Classification id (t.classifyItem id) := by
  unfold classifyItem
  split
  · next hk => exact .ok (.known hk rfl)
  · next hk =>
    rw [Option.not_isSome_iff_eq_none] at hk
    split
    · next hform =>
      exact classification_setKind hk hform (by simp) (by simp) (by simp) (by simp)
    · next hform => exact classification_classifyObject hk hform
    · next hform => exact classification_classifyDeclaration hk hform

theorem Classifies.refined (h : t.WellFormed) (hb : t.AllBound) (hid : id.index < t.size)
    (hc : t.Classifies id t') : t.Refined t' := by
  cases hc with
  | known _ he =>
    subst he
    exact .refl h
  | kind hk k t₁ ha hs hg _ he =>
    subst he
    refine (ha.toAlike.refined h).trans (refined_setKind (h.alike ha.toAlike)
      ((ha.field Item.kind (fun _ => rfl) id).trans hk)
      ((ha.field Item.rawReferences (fun _ => rfl) id).trans (hb id)) ?_ fun hsimple => ?_)
    · rw [ha.field (fun i => i.Suits k) (fun _ => by cases k <;> rfl) id]
      exact hs
    · obtain ⟨y, hy, hyg⟩ := grounded_of_reachesFundamental hb (hg hsimple).1 (hg hsimple).2
      exact ⟨y, (ha.field Item.itemReferences (fun _ => rfl) id).symm ▸ hy, hyg.alike ha.toAlike⟩
  | split hk hform type _ he =>
    subst he
    exact refined_splitSimple hid h hb hk hform

theorem refined_classifyItem (h : t.WellFormed) (hb : t.AllBound) (hid : id.index < t.size) :
    t.Refined (leftBy (t.classifyItem id)) := by
  obtain ⟨hok, herror⟩ := classification_classifyItem t id
  cases hc : t.classifyItem id with
  | ok t' => exact (hok t' hc).refined h hb hid
  | error e => exact (herror e hc).toAlike.refined h

/-- The item has a kind then, and so has whatever is new. -/
theorem Classifies.kinds (hid : id.index < t.size) (hc : t.Classifies id t') :
    (t'.item id).kind.isSome ∧
      ∀ x, t.size ≤ x.index → x.index < t'.size → (t'.item x).kind.isSome := by
  cases hc with
  | known hk he =>
    subst he
    exact ⟨hk, fun x hle hlt => absurd hlt (Nat.not_lt.2 hle)⟩
  | kind hk k t₁ ha hs hg _ he =>
    subst he
    rw [setKind_eq]
    refine ⟨?_, fun x hle hlt => ?_⟩
    · rw [item_modify_self t₁ (ha.size.symm ▸ hid)]
      rfl
    · rw [size_modify, ha.size] at hlt
      exact absurd hlt (Nat.not_lt.2 hle)
  | split hk hform type _ he =>
    subst he
    refine ⟨?_, fun x hle hlt => ?_⟩
    · rw [item_splitSimple_self hid]
      rfl
    · rw [size_splitSimple] at hlt
      have hx : x = t.nextId := by
        obtain ⟨i⟩ := x
        exact congrArg ItemId.mk (show i = t.size by simp only at hle hlt; omega)
      rw [hx, item_splitSimple_nextId hid]
      rfl

/-! ### All items -/

theorem refined_classify (h : t.WellFormed) (hb : t.AllBound) : t.Refined (leftBy t.classify) := by
  refine forEach_keeps (.refl h) fun t' id hid hr => hr.trans
    (refined_classifyItem hr.wellFormed (fun x => hr.bound x (hb x))
      (Nat.lt_of_lt_of_le (h.rooted.mem_walk_iff.1 hid) hr.grown.size))

/-- Once everything is classified, every item has a kind. -/
theorem kind_classify (h : t.WellFormed) (hb : t.AllBound) (hok : t.classify = .ok t')
    (hid : id.index < t'.size) : (t'.item id).kind.isSome := by
  have hall : t.Refined t' ∧ (∀ x ∈ t.walk, (t'.item x).kind.isSome) ∧
      ∀ x, t.size ≤ x.index → x.index < t'.size → (t'.item x).kind.isSome := by
    refine foldlM_ok (fun done t' => t.Refined t' ∧ (∀ x ∈ done, (t'.item x).kind.isSome) ∧
      ∀ x, t.size ≤ x.index → x.index < t'.size → (t'.item x).kind.isSome) hok
      ⟨.refl h, by simp, fun x hle hlt => absurd hlt (Nat.not_lt.2 hle)⟩
      fun done x rest t₁ t₂ hwalk hinv hstep => ?_
    obtain ⟨hr, hdone, hnew⟩ := hinv
    have hx : x.index < t₁.size :=
      Nat.lt_of_lt_of_le (h.rooted.mem_walk_iff.1 (by rw [hwalk]; simp)) hr.grown.size
    have hc := (classification_classifyItem t₁ x).1 t₂ hstep
    have hnext := hc.refined hr.wellFormed (fun y => hr.bound y (hb y)) hx
    have hkept : ∀ y, (t₁.item y).kind.isSome → (t₂.item y).kind.isSome := fun y hy => by
      obtain ⟨k, hk⟩ := Option.isSome_iff_exists.1 hy
      rw [hnext.kind y k hk]
      rfl
    refine ⟨hr.trans hnext, fun y hy => ?_, fun y hle hlt => ?_⟩
    · rcases List.mem_append.1 hy with hy | hy
      · exact hkept y (hdone y hy)
      · rw [List.mem_singleton.1 hy]
        exact (hc.kinds hx).1
    · by_cases hold : y.index < t₁.size
      · exact hkept y (hnew y hle hold)
      · exact (hc.kinds hx).2 y (Nat.le_of_not_lt hold) hlt
  by_cases hold : id.index < t.size
  · exact hall.2.1 id (h.rooted.mem_walk_iff.2 hold)
  · exact hall.2.2 id (Nat.le_of_not_lt hold) hid

end Schemata.ItemTree
