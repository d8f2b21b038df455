import Schemata.Proofs.Tree.Leading

/-! What the values of simple objects are founded on.

An object may be found simple because it refers to another one that is simple
already, and so on. But the first of them was found so because of a fundamental
type, and none of them loses what it was found by: reachable trees have
no simple objects whose values are taken from each other in a circle. -/
namespace Schemata.ItemTree

open Search

variable {t t' : ItemTree} {id x y : ItemId} {type : Fundamental}

/-- Comes to a fundamental type in finitely many steps: it has split off one or is one, it names one
and has not become simple yet, or one of its references comes to one. -/
inductive Founded (t : ItemTree) : ItemId → Prop
  | split {x : ItemId} (hk : (t.item x).kind = some .simple) (hs : (t.syntheticChild x).isSome) :
    t.Founded x
  | fundamental {x : ItemId} (hk : (t.item x).kind = some .fundamental) : t.Founded x
  | names {x : ItemId} (hb : (t.item x).rawReferences = []) (hk : (t.item x).kind ≠ some .simple)
    (h : t.namesFundamental x) : t.Founded x
  | via {x y : ItemId} (hb : (t.item x).rawReferences = []) (h : y ∈ t.referred x)
    (hy : t.Founded y) : t.Founded x

/-- What is founded leads to a fundamental type. -/
theorem Founded.grounded (h : t.Founded x) : t.Grounded x := by
  induction h with
  | split hk _ => exact .scalar (by unfold isScalar; rw [hk]; rfl)
  | fundamental hk => exact .scalar (by unfold isScalar; rw [hk]; rfl)
  | names hb _ h => exact .names hb h
  | via hb h _ ih => exact .via hb h ih

theorem lt_size_of_references (h : (t.item x).references ≠ []) : x.index < t.size := by
  by_contra hn
  rw [item_of_size_le (Nat.le_of_not_lt hn)] at h
  exact h rfl

theorem lt_size_of_namesFundamental (h : t.namesFundamental x) : x.index < t.size :=
  lt_size_of_references fun he => by
    unfold namesFundamental at h
    rw [he] at h
    simp at h

theorem lt_size_of_referred (h : y ∈ t.referred x) : x.index < t.size :=
  lt_size_of_references fun he => by
    unfold referred Item.itemReferences at h
    rw [he] at h
    simp at h

/-- What is founded stays so if kinds and synthetic children stay, and items that are bound keep
what they refer to, and become simple only without naming a fundamental type, unless they are
founded anew. -/
theorem Founded.mono (hkind : ∀ x k, (t.item x).kind = some k → (t'.item x).kind = some k)
    (hsynthetic : ∀ p c, t.syntheticChild p = some c → t'.syntheticChild p = some c)
    (hsame : ∀ x, x.index < t.size → (t.item x).rawReferences = [] → t'.Founded x ∨
      SameReferences (t.item x) (t'.item x) ∧ (t.namesFundamental x →
        (t'.item x).kind = some .simple → (t.item x).kind = some .simple))
    (h : t.Founded x) : t'.Founded x := by
  induction h with
  | @split x hk hs =>
    obtain ⟨c, hc⟩ := Option.isSome_iff_exists.1 hs
    exact .split (hkind x _ hk) (by rw [hsynthetic x c hc]; rfl)
  | fundamental hk => exact .fundamental (hkind _ _ hk)
  | @names x hb hk hn =>
    rcases hsame x (lt_size_of_namesFundamental hn) hb with hx | ⟨hx, hsimple⟩
    · exact hx
    · exact .names hx.bound (fun hk' => hk (hsimple hn hk')) (hx.namesFundamental ▸ hn)
  | @via x y hb hxy _ ih =>
    rcases hsame x (lt_size_of_referred hxy) hb with hx | ⟨hx, _⟩
    · exact hx
    · exact .via hx.bound (hx.referred ▸ hxy) ih

/-! ### Simple objects -/

/-- Every simple object is founded. -/
def AllFounded (t : ItemTree) : Prop := ∀ x, (t.item x).kind = some .simple → t.Founded x

/-- Every path to a scalar founds where it starts. -/
theorem AllFounded.of_path (h : t.AllFounded) (hb : t.AllBound) (hxy : t.Path x y)
    (hy : t.HasScalar y) : t.Founded x := by
  induction hxy using Relation.ReflTransGen.head_induction_on with
  | refl =>
    by_cases hk : (t.item y).kind = some .simple
    · exact h y hk
    · exact .names (hb y) hk (hy.resolve_left hk)
  | head hxz _ ih => exact .via (hb _) hxz ih

/-- Old simple objects stay founded where nothing becomes simple. -/
theorem AllFounded.mono (h : t.AllFounded)
    (hkind : ∀ x k, (t.item x).kind = some k → (t'.item x).kind = some k)
    (hsynthetic : ∀ p c, t.syntheticChild p = some c → t'.syntheticChild p = some c)
    (hsimple : ∀ x, (t'.item x).kind = some .simple → (t.item x).kind = some .simple)
    (hsame : ∀ x, x.index < t.size → (t.item x).rawReferences = [] →
      SameReferences (t.item x) (t'.item x)) : t'.AllFounded := fun x hx =>
  (h x (hsimple x hx)).mono hkind hsynthetic fun y hy hb => .inr ⟨hsame y hy hb, fun _ => hsimple y⟩

theorem Alike.allFounded (ha : t.Alike t') (h : t.AllFounded) : t'.AllFounded :=
  h.mono (fun x _ hk => (ha.field Item.kind (fun _ => rfl) x).trans hk)
    (fun _ _ hc => ha.syntheticChild ▸ hc)
    (fun x hx => (ha.field Item.kind (fun _ => rfl) x).symm.trans hx)
    fun _ _ hb => ha.sameReferences hb

theorem allFounded_ofSource (source : String) : (ofSource source).AllFounded := fun x hx => by
  have hlt := lt_size_of_kind hx
  obtain ⟨k⟩ := x
  obtain rfl : k = 0 := Nat.lt_one_iff.1 hlt
  cases hx

theorem AllFounded.push (h : t.AllFounded) (ht : t.WellFormed) {p : ItemId}
    (hp : p.index < t.size) {i : Item} (hi : i.Fresh) : (t.push p i).AllFounded := by
  have hold : ∀ x, (t.item x).kind ≠ none ∨ x.index < t.size →
      (t.push p i).item x = { t.item x with children := ((t.push p i).item x).children } :=
    fun x hx => item_push_old hp (ne_nextId (hx.elim (fun hk => by
      obtain ⟨k, hk⟩ := Option.ne_none_iff_exists'.1 hk
      exact lt_size_of_kind hk) id))
  refine h.mono (fun x k hk => ?_) (fun q c hc => ?_) (fun x hx => ?_) fun x hx hb => ?_
  · rw [hold x (.inl (by simp [hk]))]
    exact hk
  · rw [syntheticChild_push hp hi ht.rooted]
    exact hc
  · by_cases hn : x = t.nextId
    · rw [hn, item_push_nextId hp] at hx
      exact absurd (hi.kind.symm.trans hx) (by simp)
    · rw [item_push_old hp hn] at hx
      exact hx
  · rw [hold x (.inr hx)]
    exact ⟨hb, rfl, rfl, rfl⟩

theorem Binding.allFounded {t₀ : ItemTree} (hbinding : Binding t₀ id t) (ht : t₀.WellFormed)
    (hraw : (t₀.item id).rawReferences ≠ []) (h : t₀.AllFounded) : t.AllFounded := by
  have hkind := hbinding.kind ht hraw
  refine h.mono (fun x k hk => (hkind x).trans hk) hbinding.grown.syntheticChild
    (fun x hx => (hkind x).symm.trans hx) fun x hx hb => ?_
  have hs := hbinding.others x (fun he => hraw (he ▸ hb)) hx
  exact ⟨(congrArg Item.rawReferences hs).trans hb, (congrArg Item.form hs :),
    (congrArg Item.alternatives hs :), (congrArg Item.references hs :)⟩

/-- An item that becomes simple is founded on what it was found by. -/
theorem Classifies.allFounded (hc : t.Classifies id t') (ht : t.WellFormed) (hb : t.AllBound)
    (hid : id.index < t.size) (h : t.AllFounded) : t'.AllFounded := by
  have hrefined := hc.refined ht hb hid
  cases hc with
  | known _ he => exact he ▸ h
  | kind hk k t₁ ha _ hg _ he =>
    have hid₁ : id.index < t₁.size := ha.size.symm ▸ hid
    have hkind : ∀ x, (t'.item x).kind = if x = id then some k else (t.item x).kind := fun x => by
      rw [he, kind_setKind hid₁, ha.field Item.kind fun _ => rfl]
    have hsame : ∀ x, SameReferences (t.item x) (t'.item x) := fun x => by
      have hx := ha.sameReferences (hb x)
      rw [he, setKind_eq]
      exact ⟨(field_modify (f := withKind k) Item.rawReferences (fun _ => rfl) x).trans hx.bound,
        (field_modify (f := withKind k) Item.form (fun _ => rfl) x).trans hx.form,
        (field_modify (f := withKind k) Item.alternatives (fun _ => rfl) x).trans hx.alternatives,
        (field_modify (f := withKind k) Item.references (fun _ => rfl) x).trans hx.references⟩
    -- a simple object that is new names no fundamental type, so that all is founded as before
    have hmono : ∀ x, t.Founded x → t'.Founded x := fun x hx =>
      hx.mono hrefined.kind hrefined.grown.syntheticChild fun y _ _ =>
        .inr ⟨hsame y, fun hn hs => by
          rw [hkind y] at hs
          split at hs
          · next hyi =>
            exact absurd (hg (Option.some.inj hs)).2 (ownFundamentals_ne_nil (hyi ▸ hn))
          · exact hs⟩
    intro x hx
    refine hmono x ?_
    rw [hkind x] at hx
    split at hx
    · next hxi =>
      have hreaches := (ht.regular.reachesFundamental_iff hid hk).1 (hg (Option.some.inj hx)).1
      obtain ⟨y, hxy, hy⟩ := hreaches
      exact hxi ▸ h.of_path hb hxy hy
    · exact h x hx
  | split hk _ type _ he =>
    have hself : t'.Founded id := by
      refine .split ?_ ?_
      · rw [he, item_splitSimple_self hid]
        rfl
      · rw [he, syntheticChild_splitSimple hid]
        rfl
    intro x hx
    by_cases hxi : x = id
    · exact hxi ▸ hself
    · have hold : ∀ y, y ≠ id → y.index < t.size → t'.item y = t.item y := fun y hy hlt => by
        rw [he, item_splitSimple_other hid hy (ne_nextId hlt)]
      have hx' : (t.item x).kind = some .simple := by
        rw [he, item_splitSimple hid, if_neg hxi] at hx
        split at hx
        · cases hx
        · exact hx
      refine (h x hx').mono hrefined.kind hrefined.grown.syntheticChild fun y hy _ => ?_
      by_cases hyi : y = id
      · exact .inl (hyi ▸ hself)
      · rw [hold y hyi hy]
        exact .inr ⟨⟨hb y, rfl, rfl, rfl⟩, fun _ hk => hk⟩

theorem invariant_allFounded : Invariant AllFounded where
  source := allFounded_ofSource
  push ht hp hi h := h.push ht hp hi.fresh
  binding ht hraw hbinding h := hbinding.allFounded ht hraw h
  classifies ht hb hid hc h := hc.allFounded ht hb hid h
  alike ha h := ha.allFounded h

/-- **No values in a circle.** Every simple object of a reachable tree is founded. -/
theorem Reachable.founded (h : t.Reachable) (hk : (t.item x).kind = some .simple) :
    t.Founded x := invariant_allFounded.of_reachable h x hk

end Schemata.ItemTree
