import Schemata.Proofs.Tree.WellFormed

/-! Binding names keeps a tree well-formed.

A name is bound to an item that has one, among those that are there. While an item
is bound only it and its new alternatives change, up to who is noted as referred
to; the item has no kind yet. Once all names are bound, nothing is left to bind. -/
namespace Schemata.ItemTree

variable {t t₀ t' : ItemTree} {id self scope x j : ItemId} {target : Target}

/-! ### What names stand for -/

/-- An item that is there and has a name. -/
def IsNamed (t : ItemTree) (x : ItemId) : Prop := x.index < t.size ∧ (t.item x).name.isSome

theorem isNamed_of_childNamedExcept (h : t.Rooted) {except : Option ItemId} {name : String}
    (hx : t.childNamedExcept except scope name = some x) : t.IsNamed x := by
  have hmem := List.mem_of_find?_eq_some hx
  have hname := List.find?_some hx
  rw [decide_eq_true_eq] at hname
  exact ⟨(h.listed scope x (List.mem_append_right _ hmem)).1, by rw [hname.2]; rfl⟩

theorem isNamed_of_followPath (h : t.Rooted) {names : List String} (hne : names ≠ [])
    (hx : t.followPath self scope names = some x) : t.IsNamed x := by
  induction names generalizing scope with
  | nil => exact absurd rfl hne
  | cons name rest ih =>
    unfold followPath at hx
    split at hx
    · next child hchild =>
      cases rest with
      | nil =>
        cases hx
        exact isNamed_of_childNamedExcept h hchild
      | cons name' rest => exact ih (by simp) hx
    · cases hx

theorem isNamed_of_lookup (h : t.Rooted) {name : String}
    (hx : t.lookup self name = some (.item x)) : t.IsNamed x := by
  unfold lookup at hx
  split at hx
  · cases hx
  · obtain ⟨y, hy, heq⟩ := Option.map_eq_some_iff.1 hx
    cases heq
    obtain ⟨scope, _, hscope⟩ := List.exists_of_findSome?_eq_some hy
    refine isNamed_of_followPath h ?_ hscope
    unfold pathNames
    simp [Text.split_ne_nil]

/-! ### One item -/

/-- What has changed since the binding of an item began. -/
structure Binding (t₀ : ItemTree) (id : ItemId) (t : ItemTree) : Prop where
  rooted : t.Rooted
  regular : t.Regular
  grown : t₀.Grown t
  others : ∀ x, x ≠ id → x.index < t₀.size → (t.item x).skeleton = (t₀.item x).skeleton
  kindless : ∀ x, x = id ∨ t₀.size ≤ x.index →
    (t.item x).kind = none ∧ (t.item x).rawReferences = []
  alternatives : ∀ x, x ≠ id → (t.item x).alternatives = (t₀.item x).alternatives
  children : ∀ x, (t.item x).children = (t₀.item x).children
  tally : ∀ x, (t.item x).tally = (t₀.item x).tally

theorem Binding.talliesWith (h : Binding t₀ id t) (ha : t.TalliesWith t') : Binding t₀ id t' where
  rooted := h.rooted.alike ha.toAlike
  regular := h.regular.alike ha.toAlike
  grown := h.grown.trans ha.toAlike.grown
  others x hx hlt := by
    rw [← item_skeleton, ha.skeleton, item_skeleton]
    exact h.others x hx hlt
  kindless x hx := ⟨(ha.field Item.kind (fun _ => rfl) x).trans (h.kindless x hx).1,
    (ha.field Item.rawReferences (fun _ => rfl) x).trans (h.kindless x hx).2⟩
  alternatives x hx := (ha.field Item.alternatives (fun _ => rfl) x).trans (h.alternatives x hx)
  children x := (ha.field Item.children (fun _ => rfl) x).trans (h.children x)
  tally x := (ha.tally x).trans (h.tally x)

/-- With one more reference. -/
def withReference (target : Target) (i : Item) : Item :=
  { i with references := i.references ++ [target] }

theorem keepsPlace_withReference (target : Target) : KeepsPlace (withReference target) :=
  ⟨fun _ => rfl, fun _ => rfl, fun _ => rfl, fun _ => rfl, fun _ => rfl, fun _ => rfl, fun _ => rfl⟩

theorem regular_withReference {i : Item} (h : i.Regular) (hk : i.kind = none) (target : Target) :
    (withReference target i).Regular := by
  refine ⟨h.variants, h.bound, fun k hk' => ?_, h.synthetic, h.ignored⟩
  rw [show (withReference target i).kind = none from hk] at hk'
  cases hk'

/-- A reference from the item or from one of its new alternatives. -/
theorem Binding.refer (h : Binding t₀ id t) (hj : j = id ∨ t₀.size ≤ j.index)
    (htarget : ∀ x, target = .item x → t.IsNamed x) : Binding t₀ id (t.refer j target) := by
  have hplace := keepsPlace_withReference target
  have hkind : ∀ x, ((t.modify j (withReference target)).item x).kind = (t.item x).kind :=
    field_modify Item.kind fun _ => rfl
  have hraw : ∀ x, ((t.modify j (withReference target)).item x).rawReferences =
      (t.item x).rawReferences := field_modify Item.rawReferences fun _ => rfl
  have htally : ∀ x, ((t.modify j (withReference target)).item x).tally = (t.item x).tally :=
    field_modify Item.tally fun _ => rfl
  have hregular : (t.modify j (withReference target)).Regular := by
    refine h.regular.modify h.rooted hplace
      (regular_withReference (h.regular.items j) (h.kindless j hj).1 target) (fun hk => hk)
      fun x hx => ?_
    rcases List.mem_append.1 hx with hx | hx
    · exact .inl hx
    · exact .inr (htarget x (List.mem_singleton.1 hx).symm)
  have hreferring : Binding t₀ id (t.modify j (withReference target)) := by
    refine ⟨h.rooted.modify hplace, hregular, h.grown.trans (grown_modify hplace fun hk => hk),
      fun x hne hlt => ?_,
      fun x hx => ⟨(hkind x).trans (h.kindless x hx).1, (hraw x).trans (h.kindless x hx).2⟩,
      fun x hx => (field_modify Item.alternatives hplace.alternatives x).trans
        (h.alternatives x hx),
      fun x => (field_modify Item.children hplace.children x).trans (h.children x),
      fun x => (htally x).trans (h.tally x)⟩
    rw [item_modify, if_neg]
    · exact h.others x hne hlt
    · rintro ⟨rfl, _⟩
      exact hj.elim hne fun hle => absurd hlt (Nat.not_lt.2 hle)
  unfold ItemTree.refer
  cases target with
  | builtin type => exact hreferring
  | item named => exact hreferring.talliesWith (.of_modify (fun _ => rfl) .inl fun _ => rfl)

/-- An alternative before it is bound. -/
def unboundAlternative (a : Alternative) : Item :=
  { name := none, form := .declaration, metadata := a.metadata, location := a.location }

theorem regular_unboundAlternative (a : Alternative) (c : ItemId) (p : Option ItemId) :
    Item.Regular { unboundAlternative a with id := c, parent := p } where
  variants _ := rfl
  bound _ := rfl
  suits k hk := by cases hk
  synthetic hs := by cases hs
  ignored hi := by cases hi

theorem regular_withAlternative {i : Item} (h : i.Regular) (hk : i.kind = none)
    (hform : i.form = .declaration) (c : ItemId) : (withAlternative c i).Regular := by
  refine ⟨fun _ => hform, h.bound, fun k hk' => ?_, h.synthetic, h.ignored⟩
  rw [show (withAlternative c i).kind = none from hk] at hk'
  cases hk'

section PushAlternative

variable (hid : id.index < t.size) (a : Alternative)
include hid

theorem item_pushAlternative (j : ItemId) :
    (t.pushAlternative id (unboundAlternative a)).item j =
      if j = id then withAlternative t.nextId (t.item id)
      else if j = t.nextId then { unboundAlternative a with id := t.nextId, parent := some id }
      else t.item j := by
  rw [pushAlternative_eq]
  exact item_addUnder hid _ withAlternative j

theorem item_pushAlternative_nextId :
    (t.pushAlternative id (unboundAlternative a)).item t.nextId =
      { unboundAlternative a with id := t.nextId, parent := some id } := by
  rw [item_pushAlternative hid, if_neg (Ne.symm (ne_nextId hid)), if_pos rfl]

/-- A new alternative changes nothing that is told without the lists of alternatives. -/
theorem field_pushAlternative {α : Type} (g : Item → α)
    (hg : ∀ c i, g (withAlternative c i) = g i)
    (hnew : g { unboundAlternative a with id := t.nextId, parent := some id } = g default)
    (j : ItemId) : g ((t.pushAlternative id (unboundAlternative a)).item j) = g (t.item j) := by
  rw [item_pushAlternative hid]
  split
  · next hj => rw [hj, hg]
  · split
    · next hj =>
      have hnone : t.item t.nextId = default := item_of_size_le (Nat.le_refl t.size)
      rw [hj, hnone, hnew]
    · rfl

theorem grown_pushAlternative : t.Grown (t.pushAlternative id (unboundAlternative a)) := by
  have hfield : ∀ {α : Type} (g : Item → α), (∀ c i, g (withAlternative c i) = g i) → ∀ j,
      j.index < t.size → g ((t.pushAlternative id (unboundAlternative a)).item j) =
        g (t.item j) := fun g hg j hj => by
    rw [item_pushAlternative hid]
    split
    · next he => rw [he, hg]
    · rw [if_neg (ne_nextId hj)]
  have hsynthetic := field_pushAlternative hid a Item.isSynthetic (fun _ _ => rfl) rfl
  refine ⟨?_, hfield Item.name fun _ _ => rfl, hfield Item.form fun _ _ => rfl,
    hfield Item.parent fun _ _ => rfl, fun j _ => hsynthetic j,
    fun j hk => (field_pushAlternative hid a Item.kind (fun _ _ => rfl) rfl j).trans hk,
    fun q c hc => (syntheticChild_congr
      (field_pushAlternative hid a Item.children (fun _ _ => rfl) rfl q)
      fun c _ => hsynthetic c).trans hc⟩
  rw [pushAlternative_eq, size_addUnder]
  omega

theorem regular_pushAlternative (h : t.Regular) (hr : t.Rooted) (hk : (t.item id).kind = none)
    (hform : (t.item id).form = .declaration) :
    (t.pushAlternative id (unboundAlternative a)).Regular := by
  refine h.grown hr (grown_pushAlternative hid a) (fun j => ?_) (fun q c hc => ?_)
    (fun j x hx => ?_) fun c hc hs => ?_
  · rw [item_pushAlternative hid]
    split
    · exact regular_withAlternative (h.items id) hk hform _
    · split
      · exact regular_unboundAlternative a _ _
      · exact h.items j
  · by_cases hcn : c = t.nextId
    · rw [hcn, item_pushAlternative_nextId hid]
      exact .inr ⟨rfl, rfl⟩
    · rw [item_pushAlternative hid] at hc
      split at hc
      · next hq =>
        rcases List.mem_append.1 hc with hc | hc
        · exact .inl (hq ▸ hc)
        · exact absurd (List.mem_singleton.1 hc) hcn
      · split at hc
        · cases hc
        · exact .inl hc
  · rw [field_pushAlternative hid a Item.references (fun _ _ => rfl) rfl] at hx
    exact .inl hx
  · rw [field_pushAlternative hid a Item.isSynthetic (fun _ _ => rfl) rfl, item_of_size_le hc] at hs
    cases hs

/-- A new alternative of the item. -/
theorem Binding.pushAlternative (h : Binding t₀ id t) (hform : (t.item id).form = .declaration) :
    Binding t₀ id (t.pushAlternative id (unboundAlternative a)) where
  rooted := h.rooted.addUnder hid lists_withAlternative rfl rfl
  regular := regular_pushAlternative hid a h.regular h.rooted (h.kindless id (.inl rfl)).1 hform
  grown := h.grown.trans (grown_pushAlternative hid a)
  others x hne hlt := by
    rw [item_pushAlternative hid, if_neg hne,
      if_neg (ne_nextId (Nat.lt_of_lt_of_le hlt h.grown.size))]
    exact h.others x hne hlt
  kindless x hx := ⟨(field_pushAlternative hid a Item.kind (fun _ _ => rfl) rfl x).trans
      (h.kindless x hx).1,
    (field_pushAlternative hid a Item.rawReferences (fun _ _ => rfl) rfl x).trans
      (h.kindless x hx).2⟩
  alternatives x hx := by
    rw [item_pushAlternative hid, if_neg hx]
    split
    · next hnew =>
      have hold := h.alternatives x hx
      have hnone : t.item t.nextId = default := item_of_size_le (Nat.le_refl t.size)
      rw [hnew, hnone] at hold
      exact hnew ▸ hold
    · exact h.alternatives x hx
  children x :=
    (field_pushAlternative hid a Item.children (fun _ _ => rfl) rfl x).trans (h.children x)
  tally x := (field_pushAlternative hid a Item.tally (fun _ _ => rfl) rfl x).trans (h.tally x)

end PushAlternative

/-! ### Everything written on an item -/

theorem Binding.bindName (h : Binding t₀ id t) (hj : j = id ∨ t₀.size ≤ j.index) (name : String)
    (location : Location) : Binding t₀ id (leftBy (t.bindName j name location)) := by
  unfold ItemTree.bindName
  split
  · next target htarget =>
    exact h.refer hj fun x hx => isNamed_of_lookup h.rooted (hx ▸ htarget)
  · exact h

theorem Binding.bindAlternative (h : Binding t₀ id t) (hid : id.index < t₀.size)
    (hform : (t₀.item id).form = .declaration) (a : Alternative) :
    Binding t₀ id (leftBy (t.bindAlternative id a)) :=
  (h.pushAlternative (Nat.lt_of_lt_of_le hid h.grown.size) a
    ((h.grown.form id hid).trans hform)).bindName (.inr h.grown.size) a.name a.location

theorem Binding.bindReference (h : Binding t₀ id t) (hid : id.index < t₀.size)
    {raw : RawReference} (hform : ∀ as, raw = .variant as → (t₀.item id).form = .declaration) :
    Binding t₀ id (leftBy (t.bindReference id raw)) := by
  cases raw with
  | name name location => exact h.bindName (.inl rfl) name location
  | variant alternatives =>
    exact leftBy_foldlM h fun t' a _ h' => h'.bindAlternative hid (hform _ rfl) a

/-- With nothing left to bind. -/
def cleared (i : Item) : Item := { i with rawReferences := [] }

theorem keepsPlace_cleared : KeepsPlace cleared :=
  ⟨fun _ => rfl, fun _ => rfl, fun _ => rfl, fun _ => rfl, fun _ => rfl, fun _ => rfl, fun _ => rfl⟩

theorem regular_cleared {i : Item} (h : i.Regular) : (cleared i).Regular where
  variants hv := h.variants (hv.imp_right fun ⟨_, has⟩ => absurd has List.not_mem_nil)
  bound _ := rfl
  suits k hk := by cases k <;> exact h.suits _ hk
  synthetic := h.synthetic
  ignored := h.ignored

/-- Once an item that had something to bind is bound, all is well again. -/
theorem Binding.refined (h : Binding t₀ id t) (h₀ : t₀.WellFormed)
    (hraw : (t₀.item id).rawReferences ≠ []) : t₀.Refined t := by
  have hkind : ∀ x k, (t₀.item x).kind = some k → x ≠ id ∧ x.index < t₀.size := fun x k hk => by
    refine ⟨?_, lt_size_of_kind hk⟩
    rintro rfl
    exact hraw ((h₀.regular.items x).bound (by rw [hk]; rfl))
  have hkept : ∀ x k, (t₀.item x).kind = some k → (t.item x).kind = some k := fun x k hk => by
    have hx := h.others x (hkind x k hk).1 (hkind x k hk).2
    exact (congrArg Item.kind hx).trans hk
  have hgrounded : ∀ x, t₀.Grounded x → t.Grounded x := fun x hx => by
    refine hx.of_same hkept fun x hlt hb => ?_
    · have hx := h.others x (fun he => hraw (he ▸ hb)) hlt
      exact ⟨(congrArg Item.rawReferences hx).trans hb, (congrArg Item.form hx :),
        (congrArg Item.alternatives hx :), (congrArg Item.references hx :)⟩
  refine ⟨⟨h.rooted, h.regular, fun x hk => ?_⟩, h.grown, fun x hb => ?_, hkept, fun ho x hx => ?_⟩
  · have hne : x ≠ id := fun he => by
      rw [(h.kindless x (.inl he)).1] at hk
      cases hk
    have hlt : x.index < t₀.size := by
      by_contra hle
      rw [(h.kindless x (.inr (Nat.le_of_not_lt hle))).1] at hk
      cases hk
    have hx := h.others x hne hlt
    refine (h₀.grounded x ((congrArg Item.kind hx).symm.trans hk)).imp (fun hs => ?_)
      fun ⟨y, hy, hg⟩ => ⟨y, (congrArg Item.itemReferences hx).symm ▸ hy, hgrounded y hg⟩
    obtain ⟨c, hc⟩ := Option.isSome_iff_exists.1 hs
    rw [h.grown.syntheticChild x c hc]
    rfl
  · by_cases hx : x = id ∨ t₀.size ≤ x.index
    · exact (h.kindless x hx).2
    · rw [not_or, Nat.not_le] at hx
      exact (congrArg Item.rawReferences (h.others x hx.1 hx.2)).trans hb
  · rw [h.children] at hx
    by_cases hlt : x.index < t₀.size
    · exact (h.grown.form x hlt).trans (ho x hx)
    · rw [item_of_size_le (Nat.le_of_not_lt hlt)] at hx
      exact absurd rfl hx

theorem binding_cleared (h : t.WellFormed) (hk : (t.item id).kind = none)
    (hid : id.index < t.size) : Binding t id (t.modify id cleared) where
  rooted := h.rooted.modify keepsPlace_cleared
  regular := h.regular.modify h.rooted keepsPlace_cleared (regular_cleared (h.regular.items id))
    (fun hs => hs) fun _ => .inl
  grown := grown_modify keepsPlace_cleared fun hs => hs
  others _ hne _ := congrArg Item.skeleton (item_modify_of_ne t hne _)
  kindless x hx := by
    rw [item_modify]
    rcases hx with rfl | hle
    · rw [if_pos ⟨rfl, hid⟩]
      exact ⟨hk, rfl⟩
    · rw [if_neg fun he => absurd he.2 (Nat.not_lt.2 hle), item_of_size_le hle]
      exact ⟨rfl, rfl⟩
  alternatives x _ := field_modify Item.alternatives keepsPlace_cleared.alternatives x
  children := field_modify Item.children keepsPlace_cleared.children
  tally := field_modify Item.tally fun _ => rfl

theorem modify_cleared (h : (t.item id).rawReferences = []) : t.modify id cleared = t := by
  refine ext_item (size_modify t id cleared) fun j => ?_
  rw [item_modify]
  split
  · next hj =>
    rw [hj.1]
    unfold cleared
    rw [← h]
  · rfl

theorem kind_of_unbound (h : t.WellFormed) (hraw : (t.item id).rawReferences ≠ []) :
    (t.item id).kind = none := by
  by_contra hn
  exact hraw ((h.regular.items id).bound (Option.isSome_iff_ne_none.2 hn))

/-- Binding an item that has something to bind. -/
theorem binding_foldlM (h : t.WellFormed) (hid : id.index < t.size)
    (hraw : (t.item id).rawReferences ≠ []) :
    Binding t id (leftBy ((t.item id).rawReferences.foldlM (fun t raw => t.bindReference id raw)
      (t.modify id cleared))) :=
  leftBy_foldlM (binding_cleared h (kind_of_unbound h hraw) hid) fun _ _ hmem h' =>
    h'.bindReference hid fun as has => (h.regular.items id).variants (.inr ⟨as, has ▸ hmem⟩)

/-- An item that can be bound and has nothing to bind is left as it is, like one that cannot. -/
theorem bindItem_cases (h : t.WellFormed) (hid : id.index < t.size) :
    leftBy (t.bindItem id) = t ∨
      (t.item id).rawReferences ≠ [] ∧ Binding t id (leftBy (t.bindItem id)) := by
  unfold bindItem
  dsimp only
  split
  · exact .inl rfl
  · by_cases hraw : (t.item id).rawReferences = []
    · rw [hraw, show (t.modify id fun i => { i with rawReferences := [] }) = t from
        modify_cleared hraw]
      exact .inl rfl
    · exact .inr ⟨hraw, binding_foldlM h hid hraw⟩

theorem refined_bindItem (h : t.WellFormed) (hid : id.index < t.size) :
    t.Refined (leftBy (t.bindItem id)) := by
  rcases bindItem_cases h hid with he | ⟨hraw, hb⟩
  · rw [he]
    exact .refl h
  · exact hb.refined h hraw

/-- Binding gives no item a kind and takes none. -/
theorem Binding.kind (h : Binding t₀ id t) (h₀ : t₀.WellFormed)
    (hraw : (t₀.item id).rawReferences ≠ []) (x : ItemId) :
    (t.item x).kind = (t₀.item x).kind := by
  by_cases hx : x = id ∨ t₀.size ≤ x.index
  · rw [(h.kindless x hx).1]
    rcases hx with rfl | hle
    · exact (kind_of_unbound h₀ hraw).symm
    · rw [item_of_size_le hle]
      rfl
  · rw [not_or, Nat.not_le] at hx
    exact (congrArg Item.kind (h.others x hx.1 hx.2) :)

theorem kind_bindItem (h : t.WellFormed) (hid : id.index < t.size) (x : ItemId) :
    ((leftBy (t.bindItem id)).item x).kind = (t.item x).kind := by
  rcases bindItem_cases h hid with he | ⟨hraw, hb⟩
  · rw [he]
  · exact hb.kind h hraw x

/-- Once an item is bound, it has nothing left to bind. -/
theorem rawReferences_bindItem (h : t.WellFormed) (hid : id.index < t.size)
    (hok : t.bindItem id = .ok t') : (t'.item id).rawReferences = [] := by
  unfold bindItem at hok
  dsimp only at hok
  split at hok
  · cases hok
  · by_cases hraw : (t.item id).rawReferences = []
    · rw [hraw, show (t.modify id fun i => { i with rawReferences := [] }) = t from
        modify_cleared hraw] at hok
      cases hok
      exact hraw
    · have hbinding := binding_foldlM h hid hraw
      rw [show (t.item id).rawReferences.foldlM _ (t.modify id cleared) = .ok t' from hok]
        at hbinding
      exact (hbinding.kindless id (.inl rfl)).2

/-! ### Everything written in a tree -/

theorem refined_bindNames (h : t.WellFormed) : t.Refined (leftBy t.bindNames) :=
  forEach_keeps (.refl h) fun _ _ hid hb => hb.trans
    (refined_bindItem hb.wellFormed
      (Nat.lt_of_lt_of_le (h.rooted.mem_walk_iff.1 hid) hb.grown.size))

theorem kind_bindNames (h : t.WellFormed) (x : ItemId) :
    ((leftBy t.bindNames).item x).kind = (t.item x).kind :=
  (forEach_keeps (I := fun t' => t.Refined t' ∧ (t'.item x).kind = (t.item x).kind)
    ⟨.refl h, rfl⟩ fun _ _ hid ⟨hb, hk⟩ =>
      have hlt := Nat.lt_of_lt_of_le (h.rooted.mem_walk_iff.1 hid) hb.grown.size
      ⟨hb.trans (refined_bindItem hb.wellFormed hlt),
        (kind_bindItem hb.wellFormed hlt x).trans hk⟩).2

/-- Once all names are bound, nothing is left to bind. -/
theorem rawReferences_bindNames (h : t.WellFormed) (hok : t.bindNames = .ok t') (id : ItemId) :
    (t'.item id).rawReferences = [] := by
  have hall : t.Refined t' ∧ ∀ x ∈ t.walk, (t'.item x).rawReferences = [] := by
    refine foldlM_ok (fun done t' => t.Refined t' ∧ ∀ x ∈ done, (t'.item x).rawReferences = [])
      hok ⟨.refl h, by simp⟩ fun done x rest t₁ t₂ hwalk hinv hstep => ?_
    obtain ⟨hb, hdone⟩ := hinv
    have hx : x.index < t₁.size :=
      Nat.lt_of_lt_of_le (h.rooted.mem_walk_iff.1 (by rw [hwalk]; simp)) hb.grown.size
    have hnext := refined_bindItem hb.wellFormed hx
    rw [hstep] at hnext
    refine ⟨hb.trans hnext, fun y hy => ?_⟩
    rcases List.mem_append.1 hy with hy | hy
    · exact hnext.bound y (hdone y hy)
    · rw [List.mem_singleton.1 hy]
      exact rawReferences_bindItem hb.wellFormed hx hstep
  by_cases hid : id.index < t.size
  · exact hall.2 id (h.rooted.mem_walk_iff.2 hid)
  · refine hall.1.bound id ?_
    rw [item_of_size_le (Nat.le_of_not_lt hid)]
    rfl

end Schemata.ItemTree
