import Schemata.Proofs.Tree.Invariants

/-! Where the references of an item lead.

An item leads to a scalar if some path of references from it, on which nothing is
an extension or a variant, comes to a simple object or to an item that names a
fundamental type. Classifying items changes the references it goes by, as simple
objects hand over their fundamental types; but what leads to a scalar does so
before and after. Compound objects never do: reachable trees keep them
separated from all scalars. -/
namespace Schemata.ItemTree

open Search

variable {t t' t₁ : ItemTree} {id x y z : ItemId} {type : Fundamental}

/-! ### Paths -/

/-- A path of references that no extension and no variant stops. -/
def Path (t : ItemTree) : ItemId → ItemId → Prop :=
  Relation.ReflTransGen fun a b => b ∈ t.referred a

/-- A simple object, or an item that names a fundamental type. -/
def HasScalar (t : ItemTree) (x : ItemId) : Prop :=
  (t.item x).kind = some .simple ∨ t.namesFundamental x

def LeadsToScalar (t : ItemTree) (x : ItemId) : Prop := ∃ y, t.Path x y ∧ t.HasScalar y

theorem Regular.lt_of_referred (h : t.Regular) (hy : y ∈ t.referred x) : y.index < t.size := by
  unfold referred at hy
  split at hy
  · cases hy
  · exact (h.references x y (mem_itemReferences.1 hy)).1

theorem Regular.lt_of_path (h : t.Regular) (hx : x.index < t.size) (hxy : t.Path x y) :
    y.index < t.size := by
  induction hxy with
  | refl => exact hx
  | tail _ hyz _ => exact h.lt_of_referred hyz

/-- The search along references finds all paths. -/
theorem Regular.mem_reach_iff (h : t.Regular) (hx : x.index < t.size) :
    y ∈ reach t.referred t.size [x] ↔ t.Path x y := by
  have hclosed : Search.Closed t.referred t.ids := fun a _ b hb =>
    (t.mem_ids b).2 (h.lt_of_referred hb)
  rw [Search.mem_reach_iff hclosed (by simp [ids]) fun a ha =>
    (t.mem_ids a).2 (List.mem_singleton.1 ha ▸ hx)]
  constructor
  · rintro ⟨a, ha, hpath⟩
    obtain rfl := List.mem_singleton.1 ha
    exact hpath
  · exact fun hpath => ⟨x, List.mem_singleton.2 rfl, hpath⟩

/-- What is searched for while an object has no kind. -/
theorem Regular.reachesFundamental_iff (h : t.Regular) (hx : x.index < t.size)
    (hk : (t.item x).kind = none) : t.reachesFundamental x ↔ t.LeadsToScalar x := by
  have hfound : ∀ y, ((y ≠ x && (t.item y).kind = some .simple) || t.namesFundamental y) = true ↔
      t.HasScalar y := fun y => by
    rw [Bool.or_eq_true, Bool.and_eq_true, decide_eq_true_eq, decide_eq_true_eq]
    refine or_congr_left ⟨And.right, fun hy => ⟨?_, hy⟩⟩
    rintro rfl
    rw [hk] at hy
    cases hy
  unfold reachesFundamental LeadsToScalar
  rw [List.any_eq_true]
  simp only [h.mem_reach_iff hx, hfound]

/-- What is searched for among the sources of an object. -/
theorem Regular.leadsToFundamental_iff (h : t.Regular) (hx : x.index < t.size) :
    t.leadsToFundamental x ↔ ∃ y, t.Path x y ∧ (t.isScalar y ∨ t.namesFundamental y) := by
  unfold ItemTree.leadsToFundamental
  rw [List.any_eq_true]
  simp only [h.mem_reach_iff hx, Bool.or_eq_true]

/-- If the items on the paths from an item refer to no more than they did, there are no more
paths. -/
theorem Path.of_subset (h : ∀ y, t.Path x y → ∀ z ∈ t'.referred y, z ∈ t.referred y)
    (hxy : t'.Path x y) : t.Path x y := by
  induction hxy with
  | refl => exact .refl
  | tail _ hyz ih => exact ih.tail (h _ ih _ hyz)

theorem SameReferences.referred (h : SameReferences (t.item x) (t'.item x)) :
    t'.referred x = t.referred x := by
  unfold ItemTree.referred isBarrier Item.isExtension Item.itemReferences
  rw [h.form, h.alternatives, h.references]

theorem SameReferences.namesFundamental (h : SameReferences (t.item x) (t'.item x)) :
    t'.namesFundamental x = t.namesFundamental x := by
  unfold ItemTree.namesFundamental isBarrier Item.isExtension
  rw [h.form, h.alternatives, h.references]

/-! ### What is apart from all scalars -/

/-- No path from a compound object comes to a scalar, nor to an item that is not bound yet. The root
refers to nothing. -/
structure Separated (t : ItemTree) : Prop where
  bare : (t.item root).references = [] ∧ (t.item root).rawReferences = []
  compound : ∀ x, (t.item x).kind = some .compound → ∀ y, t.Path x y →
    (t.item y).rawReferences = [] ∧ ¬t.HasScalar y

/-- Nothing leads from the root. -/
theorem Separated.path_root (h : t.Separated) (hy : t.Path root y) : y = root := by
  rcases Relation.ReflTransGen.cases_head hy with he | ⟨z, hz, _⟩
  · exact he.symm
  · have hz' : z ∈ t.referred root := hz
    unfold referred Item.itemReferences at hz'
    rw [h.bare.1] at hz'
    split at hz' <;> cases hz'

theorem Separated.not_leadsToScalar (h : t.Separated) (hk : (t.item x).kind = some .compound) :
    ¬t.LeadsToScalar x := fun ⟨y, hy, hs⟩ => (h.compound x hk y hy).2 hs

theorem Separated.not_leadsToScalar_root (h : t.Separated)
    (hk : (t.item root).kind ≠ some .simple) : ¬t.LeadsToScalar root := by
  rintro ⟨y, hy, hs | hs⟩
  · exact hk (h.path_root hy ▸ hs)
  · rw [h.path_root hy] at hs
    unfold namesFundamental at hs
    rw [h.bare.1] at hs
    simp at hs

/-- What old compound objects come to stays as it was. -/
theorem Separated.of_same (h : t.Separated)
    (hroot : SameReferences (t.item root) (t'.item root))
    (hkind : ∀ x, (t'.item x).kind = some .compound → (t.item x).kind = some .compound)
    (hsame : ∀ x y, (t.item x).kind = some .compound → t.Path x y →
      SameReferences (t.item y) (t'.item y) ∧
        ((t'.item y).kind = some .simple → (t.item y).kind = some .simple)) : t'.Separated where
  bare := ⟨hroot.references.trans h.bare.1, hroot.bound⟩
  compound x hx y hy := by
    have hx' := hkind x hx
    have hy' : t.Path x y := hy.of_subset fun z hz _ hw => (hsame x z hx' hz).1.referred ▸ hw
    obtain ⟨hsame, hsimple⟩ := hsame x y hx' hy'
    refine ⟨hsame.bound, fun hs => (h.compound x hx' y hy').2 ?_⟩
    exact hs.imp hsimple fun hn => hsame.namesFundamental ▸ hn

theorem Separated.alike (h : t.Separated) (ha : t.Alike t') : t'.Separated :=
  h.of_same (ha.sameReferences h.bare.2)
    (fun x hx => (ha.field Item.kind (fun _ => rfl) x).symm.trans hx)
    fun x y hx hy => ⟨ha.sameReferences (h.compound x hx y hy).1,
      fun hs => (ha.field Item.kind (fun _ => rfl) y).symm.trans hs⟩

/-! ### Declaring -/

theorem separated_ofSource (source : String) : (ofSource source).Separated := by
  refine ⟨⟨rfl, rfl⟩, fun x hx => ?_⟩
  have hlt := lt_size_of_kind hx
  obtain ⟨k⟩ := x
  obtain rfl : k = 0 := Nat.lt_one_iff.1 hlt
  cases hx

theorem Separated.push (h : t.Separated) (ht : t.WellFormed) {p : ItemId} (hp : p.index < t.size)
    {i : Item} (hi : i.Fresh) : (t.push p i).Separated := by
  have hold : ∀ y, y.index < t.size → (t.item y).rawReferences = [] →
      SameReferences (t.item y) ((t.push p i).item y) := fun y hy hb => by
    rw [item_push_old hp (ne_nextId hy)]
    exact ⟨hb, rfl, rfl, rfl⟩
  refine h.of_same (hold root ht.rooted.size h.bare.2) (fun x hx => ?_) fun x y hx hy => ?_
  · by_cases hn : x = t.nextId
    · rw [hn, item_push_nextId hp] at hx
      exact absurd (hi.kind.symm.trans hx) (by simp)
    · rw [item_push_old hp hn] at hx
      exact hx
  · have hlt := ht.regular.lt_of_path (lt_size_of_kind hx) hy
    refine ⟨hold y hlt (h.compound x hx y hy).1, fun hs => ?_⟩
    rw [item_push_old hp (ne_nextId hlt)] at hs
    exact hs

/-! ### Binding -/

/-- Binding an item that has something to bind, which no compound object comes to. -/
theorem Binding.separated {t₀ : ItemTree} (hbinding : Binding t₀ id t) (ht : t₀.WellFormed)
    (hraw : (t₀.item id).rawReferences ≠ []) (h : t₀.Separated) : t.Separated := by
  have hold : ∀ y, y.index < t₀.size → (t₀.item y).rawReferences = [] →
      (t.item y).skeleton = (t₀.item y).skeleton ∧ SameReferences (t₀.item y) (t.item y) :=
    fun y hy hb => by
      have hs := hbinding.others y (fun he => hraw (he ▸ hb)) hy
      exact ⟨hs, (congrArg Item.rawReferences hs).trans hb, (congrArg Item.form hs :),
        (congrArg Item.alternatives hs :), (congrArg Item.references hs :)⟩
  refine h.of_same (hold root ht.rooted.size h.bare.2).2 (fun x hx => ?_) fun x y hx hy => ?_
  · have hnone : ¬(x = id ∨ t₀.size ≤ x.index) := fun hn => by
      rw [(hbinding.kindless x hn).1] at hx
      cases hx
    rw [not_or, Nat.not_le] at hnone
    exact (congrArg Item.kind (hbinding.others x hnone.1 hnone.2)).symm.trans hx
  · obtain ⟨hs, hrefs⟩ := hold y (ht.regular.lt_of_path (lt_size_of_kind hx) hy)
      (h.compound x hx y hy).1
    exact ⟨hrefs, fun hk => (congrArg Item.kind hs).symm.trans hk⟩

/-! ### Classifying -/

theorem referred_setKind (t : ItemTree) (id : ItemId) (k : Kind) :
    (t.setKind id k).referred = t.referred := by
  funext x
  unfold referred isBarrier
  rw [setKind_eq, field_modify (f := withKind k) Item.isExtension fun _ => rfl,
    field_modify (f := withKind k) Item.alternatives fun _ => rfl,
    field_modify (f := withKind k) Item.itemReferences fun _ => rfl]

theorem namesFundamental_setKind (t : ItemTree) (id : ItemId) (k : Kind) :
    (t.setKind id k).namesFundamental = t.namesFundamental := by
  funext x
  unfold namesFundamental isBarrier
  rw [setKind_eq, field_modify (f := withKind k) Item.isExtension fun _ => rfl,
    field_modify (f := withKind k) Item.alternatives fun _ => rfl,
    field_modify (f := withKind k) Item.references fun _ => rfl]

theorem kind_setKind (hid : id.index < t.size) (k : Kind) (x : ItemId) :
    ((t.setKind id k).item x).kind = if x = id then some k else (t.item x).kind := by
  rw [setKind_eq, item_modify]
  by_cases hx : x = id
  · rw [if_pos ⟨hx, hx ▸ hid⟩, if_pos hx]
    rfl
  · rw [if_neg fun he => hx he.1, if_neg hx]

/-- An object is no barrier. -/
theorem Regular.isBarrier_of_object (h : t.Regular) (hform : (t.item x).form = .object) :
    t.isBarrier x = false := by
  have halternatives : (t.item x).alternatives = [] := by
    by_contra hn
    rw [(h.items x).variants (.inl hn)] at hform
    cases hform
  unfold isBarrier Item.isExtension
  rw [hform, halternatives]
  rfl

/-- An object with a fundamental type of its own names it. -/
theorem Regular.namesFundamental_of_own (h : t.Regular) (hform : (t.item x).form = .object)
    (hown : t.ownFundamentals x = [type]) : t.namesFundamental x := by
  obtain ⟨target, hmem, htarget⟩ : ∃ target ∈ (t.item x).references, _ = some type :=
    List.mem_filterMap.1 (hown ▸ List.mem_singleton.2 rfl :
      type ∈ (t.item x).references.filterMap _)
  unfold namesFundamental
  rw [h.isBarrier_of_object hform]
  refine List.any_eq_true.2 ⟨target, hmem, ?_⟩
  cases target with
  | item y => cases htarget
  | builtin b => exact Option.isSome_iff_exists.2 ⟨type, htarget⟩

/-- A kind makes an item lead to a scalar only if it did so before. -/
theorem leadsToScalar_setKind (hid : id.index < t.size) (hk : (t.item id).kind = none) {k : Kind}
    (hsimple : k = .simple → t.LeadsToScalar id) :
    (t.setKind id k).LeadsToScalar x ↔ t.LeadsToScalar x := by
  unfold LeadsToScalar HasScalar Path
  simp only [referred_setKind, namesFundamental_setKind, kind_setKind hid]
  constructor
  · rintro ⟨y, hxy, hy⟩
    by_cases hyi : y = id
    · rw [if_pos hyi] at hy
      rcases hy with hy | hy
      · obtain ⟨z, hz, hs⟩ := hsimple (Option.some.inj hy)
        exact ⟨z, hxy.trans (hyi ▸ hz), hs⟩
      · exact ⟨y, hxy, .inr hy⟩
    · rw [if_neg hyi] at hy
      exact ⟨y, hxy, hy⟩
  · rintro ⟨y, hxy, hy⟩
    refine ⟨y, hxy, hy.imp_left fun hs => ?_⟩
    rw [if_neg]
    · exact hs
    · rintro rfl
      rw [hk] at hs
      cases hs

section Split

variable (h : t.Regular) (hid : id.index < t.size)

include h hid in
theorem hasScalar_splitSimple (hform : (t.item id).form = .object)
    (hown : t.ownFundamentals id = [type]) (hx : x.index < t.size) :
    (t.splitSimple id type).HasScalar x ↔ t.HasScalar x := by
  by_cases hxi : x = id
  · rw [hxi]
    refine iff_of_true (.inl ?_) (.inr (h.namesFundamental_of_own hform hown))
    rw [item_splitSimple_self hid]
    rfl
  · unfold HasScalar namesFundamental isBarrier
    rw [item_splitSimple_other hid hxi (ne_nextId hx)]

include h hid in
theorem path_splitSimple (hx : x.index < t.size) :
    (t.splitSimple id type).Path x y ↔ t.Path x y := by
  constructor
  · exact Path.of_subset fun z hz w hw =>
      (mem_referred_splitSimple hid (ne_nextId (h.lt_of_path hx hz))).1 hw
  · intro hxy
    induction hxy with
    | refl => exact .refl
    | tail hxz hzw ih =>
      exact ih.tail ((mem_referred_splitSimple hid (ne_nextId (h.lt_of_path hx hxz))).2 hzw)

include h hid in
theorem leadsToScalar_splitSimple (hform : (t.item id).form = .object)
    (hown : t.ownFundamentals id = [type]) (hx : x.index < t.size) :
    (t.splitSimple id type).LeadsToScalar x ↔ t.LeadsToScalar x := by
  refine exists_congr fun y => ?_
  rw [path_splitSimple h hid hx]
  exact and_congr_right fun hxy => hasScalar_splitSimple h hid hform hown (h.lt_of_path hx hxy)

end Split

theorem Alike.leadsToScalar (ha : t.Alike t') : t'.LeadsToScalar x ↔ t.LeadsToScalar x := by
  have hreferred : t'.referred = t.referred := by
    funext y
    unfold referred isBarrier
    rw [ha.field Item.isExtension fun _ => rfl, ha.field Item.alternatives fun _ => rfl,
      ha.field Item.itemReferences fun _ => rfl]
  have hnames : t'.namesFundamental = t.namesFundamental := by
    funext y
    unfold namesFundamental isBarrier
    rw [ha.field Item.isExtension fun _ => rfl, ha.field Item.alternatives fun _ => rfl,
      ha.field Item.references fun _ => rfl]
  unfold LeadsToScalar HasScalar Path
  simp only [hreferred, hnames, ha.field Item.kind fun _ => rfl]

/-- Classifying an item changes for no item whether it leads to a scalar. -/
theorem Classifies.leadsToScalar (hc : t.Classifies id t') (h : t.Regular)
    (hid : id.index < t.size) (hx : x.index < t.size) :
    t'.LeadsToScalar x ↔ t.LeadsToScalar x := by
  cases hc with
  | known _ he => rw [he]
  | kind hk k t₁ ha _ hg _ he =>
    have hid₁ : id.index < t₁.size := ha.size.symm ▸ hid
    rw [he, leadsToScalar_setKind hid₁ ((ha.field Item.kind (fun _ => rfl) id).trans hk),
      ha.toAlike.leadsToScalar]
    exact fun hs => ha.toAlike.leadsToScalar.2 ((h.reachesFundamental_iff hid hk).1 (hg hs).1)
  | split _ hform type hown he =>
    rw [he]
    exact leadsToScalar_splitSimple h hid hform hown hx

/-- Classifying an item keeps compound objects separated from scalars. -/
theorem Classifies.separated (hc : t.Classifies id t') (h : t.WellFormed) (hb : t.AllBound)
    (hid : id.index < t.size) (hs : t.Separated) : t'.Separated := by
  have hlt := fun x y (hx : (t.item x).kind = some .compound) (hxy : t.Path x y) =>
    h.regular.lt_of_path (lt_size_of_kind hx) hxy
  cases hc with
  | known _ he => exact he ▸ hs
  | kind hk k t₁ ha _ hg hcompound he =>
    have hid₁ : id.index < t₁.size := ha.size.symm ▸ hid
    have hs₁ := hs.alike ha.toAlike
    have hsimple : k = .simple → t₁.LeadsToScalar id := fun hks =>
      ha.toAlike.leadsToScalar.2 ((h.regular.reachesFundamental_iff hid hk).1 (hg hks).1)
    have hreferences : ∀ {α : Type} (g : Item → α), (∀ i, g (withKind k i) = g i) → ∀ y,
        g (t'.item y) = g (t₁.item y) := fun g hg y => he ▸ field_modify (f := withKind k) g hg y
    have hlead : ∀ x, t'.LeadsToScalar x ↔ t₁.LeadsToScalar x := fun x => by
      rw [he]
      exact leadsToScalar_setKind hid₁ ((ha.field Item.kind (fun _ => rfl) id).trans hk) hsimple
    have hbound : ∀ y, (t'.item y).rawReferences = [] := fun y =>
      (hreferences Item.rawReferences (fun _ => rfl) y).trans
        ((ha.field Item.rawReferences (fun _ => rfl) y).trans (hb y))
    refine ⟨⟨(hreferences Item.references (fun _ => rfl) root).trans hs₁.bare.1, hbound root⟩,
      fun x hx y hxy => ⟨hbound y, fun hy => ?_⟩⟩
    -- a compound object does not lead to a scalar: the new one because none was found
    have hx' : ¬t₁.LeadsToScalar x := by
      by_cases hxi : x = id
      · rw [he, hxi, kind_setKind hid₁, if_pos rfl] at hx
        rw [hxi, ha.toAlike.leadsToScalar]
        rcases hcompound (Option.some.inj hx) with hparent | hnone
        · have hroot : id = root := by
            by_contra hne
            obtain ⟨p, hp, _⟩ := h.rooted.parent id hid hne
            rw [hparent] at hp
            cases hp
          rw [hroot] at hk ⊢
          exact hs.not_leadsToScalar_root (by simp [hk])
        · rw [← h.regular.reachesFundamental_iff hid hk, hnone]
          exact Bool.false_ne_true
      · rw [he, kind_setKind hid₁, if_neg hxi] at hx
        exact hs₁.not_leadsToScalar hx
    exact hx' ((hlead x).1 ⟨y, hxy, hy⟩)
  | split hk hform type hown he =>
    have hnames := h.regular.namesFundamental_of_own hform hown
    have hold : ∀ y, y.index < t.size → ¬t.HasScalar y →
        t'.item y = t.item y := fun y hy hn => by
      rw [he, item_splitSimple_other hid _ (ne_nextId hy)]
      rintro rfl
      exact hn (.inr hnames)
    have hroot : SameReferences (t.item root) (t'.item root) := by
      by_cases hroot : root = id
      · -- the root names nothing, and so it is not the item that is split
        unfold namesFundamental at hnames
        rw [← hroot, hs.bare.1] at hnames
        simp at hnames
      · rw [he, item_splitSimple_other hid hroot (ne_nextId h.rooted.size)]
        exact ⟨hb root, rfl, rfl, rfl⟩
    refine hs.of_same hroot (fun x hx => ?_) fun x y hx hxy => ?_
    · rw [he, item_splitSimple hid] at hx
      split at hx
      · cases hx
      · split at hx
        · cases hx
        · exact hx
    · rw [hold y (hlt x y hx hxy) (hs.compound x hx y hxy).2]
      exact ⟨⟨hb y, rfl, rfl, rfl⟩, fun hk => hk⟩

/-- What is new once an item is classified is a declaration. -/
theorem Classifies.form_new (hc : t.Classifies id t') (hid : id.index < t.size)
    (hle : t.size ≤ x.index) (hlt : x.index < t'.size) : (t'.item x).form = .declaration := by
  cases hc with
  | known _ he => exact absurd (he ▸ hlt) (Nat.not_lt.2 hle)
  | kind _ k t₁ ha _ _ _ he =>
    rw [he, setKind_eq, size_modify, ha.size] at hlt
    exact absurd hlt (Nat.not_lt.2 hle)
  | split _ _ type _ he =>
    rw [he, size_splitSimple] at hlt
    have hx : x = t.nextId := by
      obtain ⟨i⟩ := x
      exact congrArg ItemId.mk (show i = t.size by simp only at hle hlt; omega)
    rw [he, hx, item_splitSimple_nextId hid]
    rfl

/-- Classifying all items adds no object, and changes for no item whether it leads to a scalar. -/
theorem leadsToScalar_classify (ht : t.WellFormed) (hb : t.AllBound) (hok : t.classify = .ok t') :
    (∀ x, t.size ≤ x.index → x.index < t'.size → (t'.item x).form = .declaration) ∧
      ∀ x, x.index < t.size → (t'.LeadsToScalar x ↔ t.LeadsToScalar x) := by
  refine (foldlM_ok (fun _ t' => t.Refined t' ∧
    (∀ x, t.size ≤ x.index → x.index < t'.size → (t'.item x).form = .declaration) ∧
    ∀ x, x.index < t.size → (t'.LeadsToScalar x ↔ t.LeadsToScalar x)) hok
    ⟨.refl ht, fun x hle hlt => absurd hlt (Nat.not_lt.2 hle), fun _ _ => Iff.rfl⟩
    fun done id rest t₁ t₂ hwalk hinv hstep => ?_).2
  obtain ⟨hr, hnew, hiff⟩ := hinv
  have hid : id.index < t₁.size :=
    Nat.lt_of_lt_of_le (ht.rooted.mem_walk_iff.1 (by rw [hwalk]; simp)) hr.grown.size
  have hc := (classification_classifyItem t₁ id).1 t₂ hstep
  have hr₂ := hc.refined hr.wellFormed (fun y => hr.bound y (hb y)) hid
  refine ⟨hr.trans hr₂, fun x hle hlt => ?_, fun x hx => ?_⟩
  · by_cases hx : x.index < t₁.size
    · exact (hr₂.grown.form x hx).trans (hnew x hle hx)
    · exact hc.form_new hid (Nat.le_of_not_lt hx) hlt
  · exact (hc.leadsToScalar hr.wellFormed.regular hid
      (Nat.lt_of_lt_of_le hx hr.grown.size)).trans (hiff x hx)

/-! ### Reachable trees -/

/-- Compound objects are kept separated from scalars by all that happens to trees. -/
theorem invariant_separated : Invariant Separated where
  source := separated_ofSource
  push ht hp hi h := h.push ht hp hi.fresh
  binding ht hraw hbinding h := hbinding.separated ht hraw h
  classifies ht hb hid hc h := hc.separated ht hb hid h
  alike ha h := h.alike ha

theorem Reachable.separated (h : t.Reachable) : t.Separated := invariant_separated.of_reachable h

/-! ### The root -/

/-- The root is classified as a compound object, as it leads to no scalar, and is never split. -/
theorem Classifies.root_not_simple (hc : t.Classifies id t') (h : t.WellFormed)
    (hid : id.index < t.size) (hs : t.Separated) (hk : (t.item root).kind ≠ some .simple) :
    (t'.item root).kind ≠ some .simple := by
  cases hc with
  | known _ he => exact he ▸ hk
  | kind hnone k t₁ ha _ hg _ he =>
    rw [he, kind_setKind (ha.size.symm ▸ hid)]
    split
    · next hroot =>
      rintro ⟨⟩
      have hreaches := (hg rfl).1
      rw [h.regular.reachesFundamental_iff hid hnone, ← hroot] at hreaches
      exact hs.not_leadsToScalar_root hk hreaches
    · rwa [ha.toAlike.field Item.kind fun _ => rfl]
  | split _ hform type hown he =>
    have hne : root ≠ id := by
      rintro rfl
      have hnames := h.regular.namesFundamental_of_own hform hown
      unfold namesFundamental at hnames
      simp [hs.bare.1] at hnames
    rwa [he, item_splitSimple_other hid hne (ne_nextId h.rooted.size)]

theorem invariant_root_not_simple :
    Invariant fun t => t.Separated ∧ (t.item root).kind ≠ some .simple where
  source source := ⟨separated_ofSource source, by simp [ofSource, item, root, Item.placedAt,
    Item.object]⟩
  push ht hp hi h := ⟨h.1.push ht hp hi.fresh, by
    rw [item_push_old hp (j := root) (ne_nextId ht.rooted.size)]
    exact h.2⟩
  binding ht hraw hbinding h := ⟨hbinding.separated ht hraw h.1, by
    rw [hbinding.kind ht hraw]
    exact h.2⟩
  classifies ht hb hid hc h := ⟨hc.separated ht hb hid h.1, hc.root_not_simple ht hid h.1 h.2⟩
  alike ha h := ⟨h.1.alike ha, by
    rw [ha.field Item.kind fun _ => rfl]
    exact h.2⟩

/-- The root of no tree is a simple object. -/
theorem Reachable.root_not_simple (h : t.Reachable) : (t.item root).kind ≠ some .simple :=
  (invariant_root_not_simple.of_reachable h).2

end Schemata.ItemTree
