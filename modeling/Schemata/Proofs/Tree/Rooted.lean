import Mathlib.Data.List.Find
import Mathlib.Data.List.Perm.Basic
import Schemata.ItemTree

/-! Where items stand.

Every item knows its own place. Every item but the root has a parent, which came
before it and lists it once; the walk from the root meets all items. New items under
old ones, and changes that leave the lists alone, keep a tree rooted. -/
namespace Schemata.ItemTree

variable {t t' : ItemTree} {id p : ItemId}

/-- What stands under an item. -/
def listed (t : ItemTree) (id : ItemId) : List ItemId :=
  (t.item id).alternatives ++ (t.item id).children

/-- Every item has the id of its place, and every item but the root is listed once, by a parent that
came before it. -/
structure Rooted (t : ItemTree) : Prop where
  size : 0 < t.size
  own : ∀ x, x.index < t.size → (t.item x).id = x
  rootParent : (t.item root).parent = none
  rootForm : (t.item root).form = .object
  parent : ∀ id, id.index < t.size → id ≠ root →
    ∃ p, (t.item id).parent = some p ∧ p.index < id.index ∧ id ∈ t.listed p
  listed : ∀ p, ∀ c ∈ t.listed p, c.index < t.size ∧ (t.item c).parent = some p
  nodup : ∀ p, (t.listed p).Nodup

theorem Rooted.lt_of_parent (h : t.Rooted) (hid : id.index < t.size)
    (hp : (t.item id).parent = some p) : p.index < id.index := by
  have hroot : id ≠ root := by
    rintro rfl
    rw [h.rootParent] at hp
    cases hp
  obtain ⟨q, hq, hlt, _⟩ := h.parent id hid hroot
  obtain rfl := Option.some.inj (hq.symm.trans hp)
  exact hlt

/-! ### The walk -/

theorem mem_ids (t : ItemTree) (id : ItemId) : id ∈ t.ids ↔ id.index < t.size := by
  obtain ⟨i⟩ := id
  simp [ids]

theorem walkFrom_succ (t : ItemTree) (bound : Nat) (id : ItemId) :
    t.walkFrom (bound + 1) id = id :: (t.listed id).flatMap (t.walkFrom bound) := rfl

theorem mem_walkFrom_listed {bound : Nat} {x c : ItemId} (h : x ∈ t.walkFrom bound id)
    (hc : c ∈ t.listed x) : c ∈ t.walkFrom (bound + 1) id := by
  induction bound generalizing id with
  | zero => cases h
  | succ bound ih =>
    rw [walkFrom_succ] at h ⊢
    refine List.mem_cons_of_mem _ (List.mem_flatMap.2 ?_)
    rcases List.mem_cons.1 h with rfl | h
    · exact ⟨c, hc, by rw [walkFrom_succ]; exact List.mem_cons_self⟩
    · obtain ⟨y, hy, hx⟩ := List.mem_flatMap.1 h
      exact ⟨y, hy, ih hx⟩

theorem walkFrom_mono {m n : Nat} (hmn : m ≤ n) {x : ItemId} (h : x ∈ t.walkFrom m id) :
    x ∈ t.walkFrom n id := by
  induction m generalizing id n with
  | zero => cases h
  | succ m ih =>
    obtain ⟨n, rfl⟩ : ∃ k, n = k + 1 := ⟨n - 1, by omega⟩
    rw [walkFrom_succ] at h ⊢
    rcases List.mem_cons.1 h with rfl | h
    · exact List.mem_cons_self
    · obtain ⟨y, hy, hx⟩ := List.mem_flatMap.1 h
      exact List.mem_cons_of_mem _ (List.mem_flatMap.2 ⟨y, hy, ih (by omega) hx⟩)

theorem Rooted.mem_walkFrom (h : t.Rooted) (n : Nat) (id : ItemId) (hid : id.index < t.size)
    (hn : id.index ≤ n) : id ∈ t.walkFrom (n + 1) root := by
  induction n generalizing id with
  | zero =>
    have hroot : id = root := by
      obtain ⟨i⟩ := id
      exact congrArg ItemId.mk (Nat.le_zero.1 hn)
    rw [hroot, walkFrom_succ]
    exact List.mem_cons_self
  | succ n ih =>
    by_cases hroot : id = root
    · rw [hroot, walkFrom_succ]
      exact List.mem_cons_self
    · obtain ⟨p, _, hlt, hmem⟩ := h.parent id hid hroot
      exact mem_walkFrom_listed (ih p (by omega) (by omega)) hmem

theorem Rooted.lt_of_mem_walkFrom (h : t.Rooted) {bound : Nat} {x : ItemId}
    (hid : id.index < t.size) (hx : x ∈ t.walkFrom bound id) : x.index < t.size := by
  induction bound generalizing id with
  | zero => cases hx
  | succ bound ih =>
    rw [walkFrom_succ] at hx
    rcases List.mem_cons.1 hx with rfl | hx
    · exact hid
    · obtain ⟨c, hc, hx⟩ := List.mem_flatMap.1 hx
      exact ih (h.listed id c hc).1 hx

/-- The walk meets all items. -/
theorem Rooted.mem_walk_iff (h : t.Rooted) : id ∈ t.walk ↔ id.index < t.size := by
  refine ⟨h.lt_of_mem_walkFrom h.size, fun hid => ?_⟩
  exact walkFrom_mono (by omega) (h.mem_walkFrom id.index id hid (Nat.le_refl _))

/-! ### Changes -/

/-- A change that leaves the lists alone. -/
theorem Rooted.of_same (h : t.Rooted) (hsize : t'.size = t.size)
    (hown : ∀ x, (t'.item x).id = (t.item x).id)
    (hparent : ∀ id, (t'.item id).parent = (t.item id).parent)
    (hform : (t'.item root).form = (t.item root).form)
    (hlisted : ∀ id, t'.listed id = t.listed id) : t'.Rooted where
  size := hsize ▸ h.size
  own x hx := (hown x).trans (h.own x (hsize ▸ hx))
  rootParent := (hparent root).trans h.rootParent
  rootForm := hform.trans h.rootForm
  parent id hid hne := by
    obtain ⟨p, hp, hlt, hmem⟩ := h.parent id (hsize ▸ hid) hne
    exact ⟨p, (hparent id).trans hp, hlt, hlisted p ▸ hmem⟩
  listed p c hc := by
    obtain ⟨hlt, hp⟩ := h.listed p c (hlisted p ▸ hc)
    exact ⟨hsize ▸ hlt, (hparent c).trans hp⟩
  nodup p := hlisted p ▸ h.nodup p

theorem ne_nextId {j : ItemId} (h : j.index < t.size) : j ≠ t.nextId := fun he => by
  rw [he] at h
  exact Nat.lt_irrefl _ h

/-- One item more gets the next id. -/
theorem eq_nextId {c : ItemId} (hle : t.size ≤ c.index) (hlt : c.index < t.size + 1) :
    c = t.nextId := by
  obtain ⟨i⟩ := c
  exact congrArg ItemId.mk (Nat.le_antisymm (Nat.le_of_lt_succ hlt) hle)

/-- With a new item under an old one, which lists it as `list` says. -/
def addUnder (t : ItemTree) (p : ItemId) (i : Item) (list : ItemId → Item → Item) : ItemTree :=
  (t.add p i).modify p (list t.nextId)

theorem size_addUnder (t : ItemTree) (p : ItemId) (i : Item) (list : ItemId → Item → Item) :
    (t.addUnder p i list).size = t.size + 1 := by
  simp [addUnder]

theorem item_addUnder (hp : p.index < t.size) (i : Item) (list : ItemId → Item → Item)
    (j : ItemId) : (t.addUnder p i list).item j =
      if j = p then list t.nextId (t.item p)
      else if j = t.nextId then { i with id := t.nextId, parent := some p } else t.item j := by
  unfold addUnder
  rw [item_modify, size_add, item_add]
  by_cases hj : j = p
  · rw [if_pos ⟨hj, by rw [hj]; omega⟩, if_pos hj, hj, if_neg (ne_nextId hp)]
  · rw [if_neg fun h => hj h.1, if_neg hj]

/-- A way to list an item more. -/
structure Lists (list : ItemId → Item → Item) : Prop where
  id : ∀ c i, (list c i).id = i.id
  parent : ∀ c i, (list c i).parent = i.parent
  form : ∀ c i, (list c i).form = i.form
  listed : ∀ c i, ((list c i).alternatives ++ (list c i).children).Perm
    (c :: (i.alternatives ++ i.children))

section AddUnder

variable {i : Item} {list : ItemId → Item → Item}

theorem own_addUnder (hp : p.index < t.size) (hl : Lists list) {j : ItemId}
    (hj : j.index < t.size → (t.item j).id = j) (hlt : j.index < t.size + 1) :
    ((t.addUnder p i list).item j).id = j := by
  rw [item_addUnder hp]
  split
  · next hjp => rw [hl.id, ← hjp, hj (hjp ▸ hp)]
  · split
    · next hjn => exact hjn.symm
    · next hjn => exact hj (Nat.lt_of_not_le fun hle => hjn (eq_nextId hle hlt))

theorem parent_addUnder (hp : p.index < t.size) (hl : Lists list) {j : ItemId}
    (hj : j ≠ t.nextId) : ((t.addUnder p i list).item j).parent = (t.item j).parent := by
  rw [item_addUnder hp, if_neg hj]
  split
  · next hjp => rw [hl.parent, hjp]
  · rfl

theorem parent_addUnder_nextId (hp : p.index < t.size) :
    ((t.addUnder p i list).item t.nextId).parent = some p := by
  rw [item_addUnder hp, if_neg (Ne.symm (ne_nextId hp)), if_pos rfl]

theorem listed_addUnder_self (hp : p.index < t.size) (hl : Lists list) :
    ((t.addUnder p i list).listed p).Perm (t.nextId :: t.listed p) := by
  unfold ItemTree.listed
  rw [item_addUnder hp, if_pos rfl]
  exact hl.listed _ _

theorem listed_addUnder (hp : p.index < t.size) {j : ItemId} (hjp : j ≠ p) (hj : j ≠ t.nextId) :
    (t.addUnder p i list).listed j = t.listed j := by
  unfold ItemTree.listed
  rw [item_addUnder hp, if_neg hjp, if_neg hj]

theorem listed_addUnder_nextId (hp : p.index < t.size) (halternatives : i.alternatives = [])
    (hchildren : i.children = []) : (t.addUnder p i list).listed t.nextId = [] := by
  unfold ItemTree.listed
  rw [item_addUnder hp, if_neg (Ne.symm (ne_nextId hp)), if_pos rfl]
  simp [halternatives, hchildren]

/-- A new item under an old one. -/
theorem Rooted.addUnder (h : t.Rooted) (hp : p.index < t.size) (hl : Lists list)
    (halternatives : i.alternatives = []) (hchildren : i.children = []) :
    (t.addUnder p i list).Rooted := by
  have hsize := size_addUnder t p i list
  have hself : ((t.addUnder p i list).listed p).Perm (t.nextId :: t.listed p) :=
    listed_addUnder_self hp hl
  have hnew : (t.addUnder p i list).listed t.nextId = [] :=
    listed_addUnder_nextId hp halternatives hchildren
  have hroot : root ≠ t.nextId := ne_nextId h.size
  refine ⟨by rw [hsize]; omega, fun j hj => own_addUnder hp hl (h.own j) (hsize ▸ hj), ?_, ?_,
    fun j hj hne => ?_, fun q c hc => ?_, fun q => ?_⟩
  · rw [parent_addUnder hp hl hroot]
    exact h.rootParent
  · rw [item_addUnder hp, if_neg hroot]
    split
    · next hrp => rw [hl.form, ← hrp]; exact h.rootForm
    · exact h.rootForm
  · by_cases hjn : j = t.nextId
    · rw [hjn]
      exact ⟨p, parent_addUnder_nextId hp, hp, hself.symm.subset List.mem_cons_self⟩
    · have hlt : j.index < t.size := by
        rw [hsize] at hj
        have : j.index ≠ t.size := fun he => hjn (by obtain ⟨k⟩ := j; exact congrArg ItemId.mk he)
        omega
      obtain ⟨q, hq, hqlt, hmem⟩ := h.parent j hlt hne
      refine ⟨q, (parent_addUnder hp hl hjn).trans hq, hqlt, ?_⟩
      by_cases hqp : q = p
      · rw [hqp] at hmem ⊢
        exact hself.symm.subset (List.mem_cons_of_mem _ hmem)
      · rw [listed_addUnder hp hqp (ne_nextId (Nat.lt_trans hqlt hlt))]
        exact hmem
  · by_cases hqn : q = t.nextId
    · rw [hqn, hnew] at hc
      cases hc
    · have hold : c ∈ t.listed q → c.index < (t.addUnder p i list).size ∧
          ((t.addUnder p i list).item c).parent = some q := fun hc => by
        obtain ⟨hlt, hcp⟩ := h.listed q c hc
        exact ⟨by rw [hsize]; omega, (parent_addUnder hp hl (ne_nextId hlt)).trans hcp⟩
      by_cases hqp : q = p
      · rw [hqp] at hc
        rcases List.mem_cons.1 (hself.subset hc) with rfl | hc
        · refine ⟨by rw [hsize]; exact Nat.lt_succ_self _, ?_⟩
          rw [hqp]
          exact parent_addUnder_nextId hp
        · exact hold (hqp ▸ hc)
      · rw [listed_addUnder hp hqp hqn] at hc
        exact hold hc
  · by_cases hqn : q = t.nextId
    · rw [hqn, hnew]
      exact List.nodup_nil
    · by_cases hqp : q = p
      · rw [hqp, hself.nodup_iff]
        exact List.nodup_cons.2 ⟨fun hmem => ne_nextId (h.listed p _ hmem).1 rfl, h.nodup p⟩
      · rw [listed_addUnder hp hqp hqn]
        exact h.nodup q

end AddUnder

/-! ### The ways to add an item -/

/-- With one more child. -/
def withChild (c : ItemId) (i : Item) : Item := { i with children := i.children ++ [c] }

/-- With a child before the others. -/
def withFirstChild (c : ItemId) (i : Item) : Item := { i with children := c :: i.children }

/-- With one more alternative. -/
def withAlternative (c : ItemId) (i : Item) : Item :=
  { i with alternatives := i.alternatives ++ [c] }

theorem push_eq (t : ItemTree) (p : ItemId) (i : Item) :
    t.push p i = t.addUnder p i withChild := rfl

theorem pushAlternative_eq (t : ItemTree) (p : ItemId) (i : Item) :
    t.pushAlternative p i = t.addUnder p i withAlternative := rfl

theorem lists_withChild : Lists withChild where
  id _ _ := rfl
  parent _ _ := rfl
  form _ _ := rfl
  listed c i := by
    show (i.alternatives ++ (i.children ++ [c])).Perm _
    rw [← List.append_assoc]
    exact List.perm_append_singleton c _

theorem lists_withFirstChild : Lists withFirstChild where
  id _ _ := rfl
  parent _ _ := rfl
  form _ _ := rfl
  listed _ _ := List.perm_middle

theorem lists_withAlternative : Lists withAlternative where
  id _ _ := rfl
  parent _ _ := rfl
  form _ _ := rfl
  listed c i := by
    show (i.alternatives ++ [c] ++ i.children).Perm _
    rw [List.append_assoc]
    exact List.perm_middle

/-! ### Synthetic children -/

theorem mem_of_syntheticChild {q c : ItemId} (h : t.syntheticChild q = some c) :
    c ∈ (t.item q).children ∧ (t.item c).isSynthetic :=
  ⟨List.mem_of_find?_eq_some h, List.find?_some (p := fun c => (t.item c).isSynthetic) h⟩

theorem syntheticChild_congr {q : ItemId} (hc : (t'.item q).children = (t.item q).children)
    (hs : ∀ c ∈ (t.item q).children, (t'.item c).isSynthetic = (t.item c).isSynthetic) :
    t'.syntheticChild q = t.syntheticChild q := by
  unfold syntheticChild
  rw [hc]
  exact List.find?_congr hs

end Schemata.ItemTree
