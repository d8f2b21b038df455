import Schemata.Proofs.Search
import Schemata.Proofs.Tree.Passes
import Schemata.Proofs.Tree.Rooted

/-! Well-formed trees.

What is in a tree fits together at all times, before, during and after its
resolution: items are declared as their kinds demand, references lead to items
with names, alternatives have none, and a synthetic child belongs to a simple
object. A simple object is `Grounded`: unless it has a synthetic child, one of its
references leads to a fundamental type along items that are bound already, which
nothing that is bound or classified later can undo. -/
namespace Schemata

/-! ### Items -/

namespace Item

/-- What an item of a kind was declared as, and what it refers to. -/
def Suits (i : Item) : Kind → Prop
  | .compound | .simple => i.form = .object
  | .extension => i.form = .extension
  | .variant => i.form = .declaration ∧ i.alternatives ≠ []
  | .fundamental => i.form = .declaration ∧ i.alternatives = [] ∧
      ∃ type, i.references = [.builtin (.fundamental type)]
  | .reference | .list => i.form = .declaration ∧ i.alternatives = [] ∧
      ∃ x, i.references = [.item x]
  | .any | .custom => i.form = .declaration ∧ i.alternatives = []

/-- The fields of an item fit together. -/
structure Regular (i : Item) : Prop where
  variants : (i.alternatives ≠ [] ∨ ∃ as, RawReference.variant as ∈ i.rawReferences) →
    i.form = .declaration
  bound : i.kind.isSome → i.rawReferences = []
  suits : ∀ k, i.kind = some k → i.Suits k
  synthetic : i.isSynthetic → i.name = none ∧ i.kind = some .fundamental
  ignored : i.isIgnored → i.isExtension

theorem regular_default : (default : Item).Regular where
  variants h := by simp [default] at h
  bound _ := rfl
  suits k h := by cases h
  synthetic h := by cases h
  ignored h := by cases h

end Item

/-! ### Trees -/

namespace ItemTree

variable {t t' : ItemTree} {id x y : ItemId}

/-- The items of a tree fit together. -/
structure Regular (t : ItemTree) : Prop where
  items : ∀ id, (t.item id).Regular
  alternatives : ∀ p, ∀ c ∈ (t.item p).alternatives,
    (t.item c).name = none ∧ (t.item c).form = .declaration
  references : ∀ id x, Target.item x ∈ (t.item id).references →
    x.index < t.size ∧ (t.item x).name.isSome
  synthetic : ∀ c, (t.item c).isSynthetic → ∃ p, (t.item c).parent = some p ∧
    (t.item p).kind = some .simple ∧ t.syntheticChild p = some c

/-- Leads to a fundamental type, along items that are bound. -/
inductive Grounded (t : ItemTree) : ItemId → Prop
  | scalar {x : ItemId} (h : t.isScalar x) : t.Grounded x
  | names {x : ItemId} (hb : (t.item x).rawReferences = []) (h : t.namesFundamental x) :
    t.Grounded x
  | via {x y : ItemId} (hb : (t.item x).rawReferences = []) (h : y ∈ t.referred x)
    (hy : t.Grounded y) : t.Grounded x

structure WellFormed (t : ItemTree) : Prop where
  rooted : t.Rooted
  regular : t.Regular
  grounded : ∀ id, (t.item id).kind = some .simple →
    (t.syntheticChild id).isSome ∨ ∃ y ∈ (t.item id).itemReferences, t.Grounded y

/-- The synthetic child is the only one. -/
theorem WellFormed.syntheticChild_eq_some_iff (h : t.WellFormed) :
    t.syntheticChild x = some y ↔ y ∈ (t.item x).children ∧ (t.item y).isSynthetic := by
  refine ⟨mem_of_syntheticChild, fun ⟨hmem, hsynthetic⟩ => ?_⟩
  obtain ⟨p, hp, _, hchild⟩ := h.regular.synthetic y hsynthetic
  have hlisted := (h.rooted.listed x y (List.mem_append_right _ hmem)).2
  obtain rfl : p = x := Option.some.inj (hp.symm.trans hlisted)
  exact hchild

theorem lt_size_of_kind {k : Kind} (h : (t.item id).kind = some k) : id.index < t.size := by
  by_contra hn
  rw [item_of_size_le (Nat.le_of_not_lt hn)] at h
  cases h

theorem mem_itemReferences {i : Item} : x ∈ i.itemReferences ↔ Target.item x ∈ i.references := by
  unfold Item.itemReferences
  rw [List.mem_filterMap]
  refine ⟨fun ⟨target, hmem, h⟩ => ?_, fun h => ⟨_, h, rfl⟩⟩
  cases target with
  | item id =>
    cases h
    exact hmem
  | builtin type => cases h

/-! ### Leading to a fundamental type -/

/-- What is grounded stays so when items that are bound keep what they refer to, or become
scalars. -/
theorem Grounded.mono (hscalar : ∀ x, t.isScalar x → t'.isScalar x)
    (hbound : ∀ x, (t.item x).rawReferences = [] → (t'.item x).rawReferences = [])
    (hnames : ∀ x, (t.item x).rawReferences = [] → t.namesFundamental x →
      t'.namesFundamental x ∨ t'.isScalar x)
    (hreferred : ∀ x, (t.item x).rawReferences = [] → ∀ y ∈ t.referred x, y ∈ t'.referred x)
    (h : t.Grounded x) : t'.Grounded x := by
  induction h with
  | scalar h => exact .scalar (hscalar _ h)
  | names hb h =>
    rcases hnames _ hb h with hn | hs
    · exact .names (hbound _ hb) hn
    · exact .scalar hs
  | via hb h _ ih => exact .via (hbound _ hb) (hreferred _ hb _ h) ih

/-- An item refers to the same as another one, and neither has anything left to bind. -/
structure SameReferences (i i' : Item) : Prop where
  bound : i'.rawReferences = []
  form : i'.form = i.form
  alternatives : i'.alternatives = i.alternatives
  references : i'.references = i.references

theorem Grounded.of_same
    (hkind : ∀ x k, (t.item x).kind = some k → (t'.item x).kind = some k)
    (hsame : ∀ x, x.index < t.size → (t.item x).rawReferences = [] →
      SameReferences (t.item x) (t'.item x)) (h : t.Grounded x) : t'.Grounded x := by
  have hbarrier : ∀ x, SameReferences (t.item x) (t'.item x) → t'.isBarrier x = t.isBarrier x :=
    fun x hx => by
      unfold isBarrier Item.isExtension
      rw [hx.form, hx.alternatives]
  have hlt : ∀ x, (t.item x).references ≠ [] → x.index < t.size := fun x hx => by
    by_contra hn
    rw [item_of_size_le (Nat.le_of_not_lt hn)] at hx
    exact hx rfl
  induction h with
  | @scalar x hs =>
    refine .scalar ?_
    unfold isScalar at hs ⊢
    rw [Bool.or_eq_true, decide_eq_true_eq, decide_eq_true_eq] at hs ⊢
    exact hs.imp (hkind x _) (hkind x _)
  | @names x hb hn =>
    have hx := hsame x (hlt x fun he => ?_) hb
    · refine .names hx.bound ?_
      unfold namesFundamental at hn ⊢
      rw [hbarrier x hx, hx.references]
      exact hn
    · unfold namesFundamental at hn
      rw [he] at hn
      simp at hn
  | @via x y hb hxy _ ih =>
    have hx := hsame x (hlt x fun he => ?_) hb
    · refine .via hx.bound ?_ ih
      unfold referred at hxy ⊢
      rw [hbarrier x hx]
      unfold Item.itemReferences at hxy ⊢
      rw [hx.references]
      exact hxy
    · unfold referred Item.itemReferences at hxy
      rw [he] at hxy
      simp at hxy

/-- What is grounded leads to a fundamental type. -/
theorem Regular.leadsToFundamental (h : t.Regular) (hg : t.Grounded x) (hx : x.index < t.size) :
    t.leadsToFundamental x := by
  have hlt : ∀ a b, b ∈ t.referred a → b.index < t.size := fun a b hb => by
    unfold referred at hb
    split at hb
    · cases hb
    · exact (h.references a b (mem_itemReferences.1 hb)).1
  have hclosed : Search.Closed t.referred t.ids := fun a _ b hb => (t.mem_ids b).2 (hlt a b hb)
  have hmem : ∀ y, y ∈ Search.reach t.referred t.size [x] ↔ Search.Reachable t.referred [x] y :=
    Search.mem_reach_iff hclosed (by simp [ids]) fun a ha =>
      (t.mem_ids a).2 (List.mem_singleton.1 ha ▸ hx)
  suffices hfound : ∃ y, Search.Reachable t.referred [x] y ∧
      (t.isScalar y || t.namesFundamental y) = true by
    obtain ⟨y, hy, hany⟩ := hfound
    exact List.any_eq_true.2 ⟨y, (hmem y).2 hy, hany⟩
  clear hmem hx
  induction hg with
  | @scalar x hs => exact ⟨x, ⟨x, List.mem_singleton.2 rfl, .refl⟩, by rw [hs]; rfl⟩
  | @names x _ hn => exact ⟨x, ⟨x, List.mem_singleton.2 rfl, .refl⟩, by rw [hn, Bool.or_true]⟩
  | @via x y _ hxy _ ih =>
    obtain ⟨z, ⟨y', hy', hreach⟩, hany⟩ := ih
    rw [List.mem_singleton.1 hy'] at hreach
    exact ⟨z, ⟨x, List.mem_singleton.2 rfl, .head hxy hreach⟩, hany⟩

/-! ### Alike trees -/

theorem Alike.sameReferences (ha : t.Alike t') (hb : (t.item x).rawReferences = []) :
    SameReferences (t.item x) (t'.item x) :=
  ⟨(ha.field Item.rawReferences (fun _ => rfl) x).trans hb, ha.field Item.form (fun _ => rfl) x,
    ha.field Item.alternatives (fun _ => rfl) x, ha.field Item.references (fun _ => rfl) x⟩

theorem Grounded.alike (h : t.Grounded x) (ha : t.Alike t') : t'.Grounded x :=
  h.of_same (fun x _ hk => (ha.field Item.kind (fun _ => rfl) x).trans hk)
    fun _ _ hb => ha.sameReferences hb

theorem Rooted.alike (h : t.Rooted) (ha : t.Alike t') : t'.Rooted :=
  h.of_same ha.size (ha.field Item.id fun _ => rfl) (ha.field Item.parent fun _ => rfl)
    (ha.field Item.form (fun _ => rfl) root)
    (ha.field (fun i => i.alternatives ++ i.children) fun _ => rfl)

theorem Regular.alike (h : t.Regular) (ha : t.Alike t') : t'.Regular where
  items id := by
    have hi := h.items id
    refine ⟨?_, ?_, fun k hk => ?_, ?_, fun hig => ?_⟩
    · rw [ha.field Item.alternatives fun _ => rfl, ha.field Item.rawReferences fun _ => rfl,
        ha.field Item.form fun _ => rfl]
      exact hi.variants
    · rw [ha.field Item.kind fun _ => rfl, ha.field Item.rawReferences fun _ => rfl]
      exact hi.bound
    · rw [ha.field Item.kind fun _ => rfl] at hk
      rw [ha.field (fun i => i.Suits k) (fun _ => by cases k <;> rfl) id]
      exact hi.suits k hk
    · rw [ha.field Item.isSynthetic fun _ => rfl, ha.field Item.name fun _ => rfl,
        ha.field Item.kind fun _ => rfl]
      exact hi.synthetic
    · rw [ha.field Item.isExtension fun _ => rfl]
      exact (ha.ignored id hig).elim hi.ignored fun hext => hext
  alternatives p c hc := by
    rw [ha.field Item.alternatives fun _ => rfl] at hc
    rw [ha.field Item.name fun _ => rfl, ha.field Item.form fun _ => rfl]
    exact h.alternatives p c hc
  references id x hx := by
    rw [ha.field Item.references fun _ => rfl] at hx
    rw [ha.size, ha.field Item.name fun _ => rfl]
    exact h.references id x hx
  synthetic c hc := by
    rw [ha.field Item.isSynthetic fun _ => rfl] at hc
    rw [ha.field Item.parent fun _ => rfl, ha.syntheticChild]
    obtain ⟨p, hp, hk, hchild⟩ := h.synthetic c hc
    exact ⟨p, hp, (ha.field Item.kind (fun _ => rfl) p).trans hk, hchild⟩

theorem WellFormed.alike (h : t.WellFormed) (ha : t.Alike t') : t'.WellFormed where
  rooted := h.rooted.alike ha
  regular := h.regular.alike ha
  grounded id hk := by
    rw [ha.field Item.kind fun _ => rfl] at hk
    rw [ha.syntheticChild, ha.field Item.itemReferences fun _ => rfl]
    exact (h.grounded id hk).imp_right fun ⟨y, hy, hg⟩ => ⟨y, hy, hg.alike ha⟩

/-! ### Growing trees -/

/-- What the items that are there keep while a tree grows. -/
structure Grown (t t' : ItemTree) : Prop where
  size : t.size ≤ t'.size
  name : ∀ id, id.index < t.size → (t'.item id).name = (t.item id).name
  form : ∀ id, id.index < t.size → (t'.item id).form = (t.item id).form
  parent : ∀ id, id.index < t.size → (t'.item id).parent = (t.item id).parent
  isSynthetic : ∀ id, id.index < t.size → (t'.item id).isSynthetic = (t.item id).isSynthetic
  simple : ∀ id, (t.item id).kind = some .simple → (t'.item id).kind = some .simple
  syntheticChild : ∀ p c, t.syntheticChild p = some c → t'.syntheticChild p = some c

theorem Grown.refl (t : ItemTree) : t.Grown t :=
  ⟨Nat.le_refl _, fun _ _ => rfl, fun _ _ => rfl, fun _ _ => rfl, fun _ _ => rfl, fun _ h => h,
    fun _ _ h => h⟩

theorem Grown.trans {t'' : ItemTree} (h : t.Grown t') (h' : t'.Grown t'') : t.Grown t'' where
  size := Nat.le_trans h.size h'.size
  name id hid := (h'.name id (Nat.lt_of_lt_of_le hid h.size)).trans (h.name id hid)
  form id hid := (h'.form id (Nat.lt_of_lt_of_le hid h.size)).trans (h.form id hid)
  parent id hid := (h'.parent id (Nat.lt_of_lt_of_le hid h.size)).trans (h.parent id hid)
  isSynthetic id hid :=
    (h'.isSynthetic id (Nat.lt_of_lt_of_le hid h.size)).trans (h.isSynthetic id hid)
  simple id hk := h'.simple id (h.simple id hk)
  syntheticChild p c hc := h'.syntheticChild p c (h.syntheticChild p c hc)

theorem Alike.grown (ha : t.Alike t') : t.Grown t' where
  size := Nat.le_of_eq ha.size.symm
  name id _ := ha.field Item.name (fun _ => rfl) id
  form id _ := ha.field Item.form (fun _ => rfl) id
  parent id _ := ha.field Item.parent (fun _ => rfl) id
  isSynthetic id _ := ha.field Item.isSynthetic (fun _ => rfl) id
  simple id hk := (ha.field Item.kind (fun _ => rfl) id).trans hk
  syntheticChild _ _ hc := ha.syntheticChild ▸ hc

/-- A tree that has grown is regular if what is new in it is. -/
theorem Regular.grown (h : t.Regular) (hr : t.Rooted) (g : t.Grown t')
    (hitems : ∀ id, (t'.item id).Regular)
    (halternatives : ∀ p, ∀ c ∈ (t'.item p).alternatives, c ∈ (t.item p).alternatives ∨
      (t'.item c).name = none ∧ (t'.item c).form = .declaration)
    (hreferences : ∀ id x, Target.item x ∈ (t'.item id).references →
      Target.item x ∈ (t.item id).references ∨ x.index < t.size ∧ (t.item x).name.isSome)
    (hsynthetic : ∀ c, t.size ≤ c.index → (t'.item c).isSynthetic →
      ∃ p, (t'.item c).parent = some p ∧ (t'.item p).kind = some .simple ∧
        t'.syntheticChild p = some c) : t'.Regular where
  items := hitems
  alternatives p c hc := by
    rcases halternatives p c hc with hold | hnew
    · have hlt := (hr.listed p c (List.mem_append_left _ hold)).1
      rw [g.name c hlt, g.form c hlt]
      exact h.alternatives p c hold
    · exact hnew
  references id x hx := by
    have hx' : x.index < t.size ∧ (t.item x).name.isSome :=
      (hreferences id x hx).elim (h.references id x) fun hnew => hnew
    rw [g.name x hx'.1]
    exact ⟨Nat.lt_of_lt_of_le hx'.1 g.size, hx'.2⟩
  synthetic c hc := by
    by_cases hlt : c.index < t.size
    · rw [g.isSynthetic c hlt] at hc
      obtain ⟨p, hp, hk, hchild⟩ := h.synthetic c hc
      exact ⟨p, (g.parent c hlt).trans hp, g.simple p hk, g.syntheticChild p c hchild⟩
    · exact hsynthetic c (Nat.le_of_not_lt hlt) hc

/-! ### Changes to one item -/

/-- A change to an item that leaves it where it is. -/
structure KeepsPlace (f : Item → Item) : Prop where
  id : ∀ i, (f i).id = i.id
  name : ∀ i, (f i).name = i.name
  parent : ∀ i, (f i).parent = i.parent
  form : ∀ i, (f i).form = i.form
  alternatives : ∀ i, (f i).alternatives = i.alternatives
  children : ∀ i, (f i).children = i.children
  isSynthetic : ∀ i, (f i).isSynthetic = i.isSynthetic

variable {f : Item → Item}

theorem field_modify {α : Type} (g : Item → α) (hf : ∀ i, g (f i) = g i) (j : ItemId) :
    g ((t.modify id f).item j) = g (t.item j) := by
  rw [item_modify]
  split
  · exact hf _
  · rfl

theorem Rooted.modify (h : t.Rooted) (hf : KeepsPlace f) : (t.modify id f).Rooted :=
  h.of_same (size_modify t id f) (field_modify _ hf.id) (field_modify _ hf.parent)
    (field_modify _ hf.form root)
    (field_modify (fun i => i.alternatives ++ i.children) fun i => by
      rw [hf.alternatives, hf.children])

theorem grown_modify (hf : KeepsPlace f)
    (hsimple : (t.item id).kind = some .simple → (f (t.item id)).kind = some .simple) :
    t.Grown (t.modify id f) := by
  have hsynthetic : ∀ j, ((t.modify id f).item j).isSynthetic = (t.item j).isSynthetic :=
    field_modify _ hf.isSynthetic
  refine ⟨Nat.le_of_eq (size_modify t id f).symm, fun j _ => field_modify _ hf.name j,
    fun j _ => field_modify _ hf.form j, fun j _ => field_modify _ hf.parent j,
    fun j _ => hsynthetic j, fun j hk => ?_, fun q c hc => ?_⟩
  · rw [item_modify]
    split
    · next hj =>
      rw [hj.1] at hk ⊢
      exact hsimple hk
    · exact hk
  · exact (syntheticChild_congr (field_modify _ hf.children q) fun c _ => hsynthetic c).trans hc

theorem Regular.modify (h : t.Regular) (hr : t.Rooted) (hf : KeepsPlace f)
    (hitem : (f (t.item id)).Regular)
    (hsimple : (t.item id).kind = some .simple → (f (t.item id)).kind = some .simple)
    (hreferences : ∀ x, Target.item x ∈ (f (t.item id)).references →
      Target.item x ∈ (t.item id).references ∨ x.index < t.size ∧ (t.item x).name.isSome) :
    (t.modify id f).Regular := by
  refine h.grown hr (grown_modify hf hsimple) (fun j => ?_) (fun q c hc => .inl ?_)
    (fun j x hx => ?_) fun c hc hs => ?_
  · rw [item_modify]
    split
    · next hj =>
      rw [hj.1]
      exact hitem
    · exact h.items j
  · rw [field_modify _ hf.alternatives] at hc
    exact hc
  · rw [item_modify] at hx
    split at hx
    · next hj =>
      rw [hj.1] at hx ⊢
      exact hreferences x hx
    · exact .inl hx
  · rw [field_modify _ hf.isSynthetic, item_of_size_le hc] at hs
    cases hs

/-! ### Steps of a resolution -/

/-- Nothing but objects has children. -/
def OnlyObjectsHold (t : ItemTree) : Prop :=
  ∀ id, (t.item id).children ≠ [] → (t.item id).form = .object

/-- What has a parent and is no extension has a schema. -/
theorem hasSchema_of_parent (h : t.WellFormed) (hparent : (t.item x).parent.isSome)
    (hext : (t.item x).isExtension = false) : hasSchema (t.item x) := by
  unfold hasSchema
  rw [hparent, Bool.true_and, decide_eq_true_eq]
  intro hk
  have hform : (t.item x).form = .extension := (h.regular.items x).suits _ hk
  exact absurd hext (by simp [Item.isExtension, hform])

/-- So has all that is below the root and has another kind than extensions. -/
theorem hasSchema_of_kind (h : t.WellFormed) {k : Kind} (hk : (t.item x).kind = some k)
    (hne : k ≠ .extension) (hx : x ≠ root) : hasSchema (t.item x) := by
  obtain ⟨p, hp, _⟩ := h.rooted.parent x (lt_size_of_kind hk) hx
  unfold hasSchema
  rw [hp, hk]
  simpa using hne

/-- What every step of a resolution keeps. -/
structure Refined (t t' : ItemTree) : Prop where
  wellFormed : t'.WellFormed
  grown : t.Grown t'
  bound : ∀ x, (t.item x).rawReferences = [] → (t'.item x).rawReferences = []
  kind : ∀ x k, (t.item x).kind = some k → (t'.item x).kind = some k
  objects : t.OnlyObjectsHold → t'.OnlyObjectsHold

theorem Refined.refl (h : t.WellFormed) : t.Refined t :=
  ⟨h, .refl t, fun _ hb => hb, fun _ _ hk => hk, fun ho => ho⟩

theorem Refined.trans {t'' : ItemTree} (h : t.Refined t') (h' : t'.Refined t'') : t.Refined t'' :=
  ⟨h'.wellFormed, h.grown.trans h'.grown, fun x hb => h'.bound x (h.bound x hb),
    fun x k hk => h'.kind x k (h.kind x k hk), fun ho => h'.objects (h.objects ho)⟩

theorem Alike.onlyObjectsHold (ha : t.Alike t') (h : t.OnlyObjectsHold) : t'.OnlyObjectsHold :=
  fun id hid => by
    rw [ha.field Item.children fun _ => rfl] at hid
    exact (ha.field Item.form (fun _ => rfl) id).trans (h id hid)

theorem Alike.refined (ha : t.Alike t') (h : t.WellFormed) : t.Refined t' :=
  ⟨h.alike ha, ha.grown, fun x hb => (ha.field Item.rawReferences (fun _ => rfl) x).trans hb,
    fun x _ hk => (ha.field Item.kind (fun _ => rfl) x).trans hk, ha.onlyObjectsHold⟩

end ItemTree
end Schemata
