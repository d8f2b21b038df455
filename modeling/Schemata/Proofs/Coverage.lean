import Schemata.Proofs.Closure
import Schemata.Proofs.Draft.Wanted

/-! No item is lost or duplicated.

Compiling a tree in which only objects hold anything gives one element to every
item but ignored extensions, synthetic children and the alternatives for which
something else stands. Elements own each other as their items stand under each
other, and all of them are met on the walk from the root. -/
namespace Schemata

/-- Lists that agree place by place. -/
theorem forall₂_of_getElem? {α β : Type} {R : α → β → Prop} {l : List α} {l' : List β}
    (h : ∀ (i : Nat) (y : β), l'[i]? = some y → ∃ x, l[i]? = some x ∧ R x y)
    (h' : ∀ (i : Nat) (x : α), l[i]? = some x → (l'[i]?).isSome) : List.Forall₂ R l l' := by
  induction l generalizing l' with
  | nil =>
    cases l' with
    | nil => exact .nil
    | cons y ys =>
      obtain ⟨x, hx, _⟩ := h 0 y rfl
      cases hx
  | cons x xs ih =>
    cases l' with
    | nil => cases h' 0 x rfl
    | cons y ys =>
      obtain ⟨x', hx, hxy⟩ := h 0 y rfl
      cases hx
      exact .cons hxy (ih (fun i => h (i + 1)) fun i => h' (i + 1))

/-! ### What elements own -/

/-- But for a variant, what is owned are members and definitions. -/
theorem ElementData.owned_of_kind {data : ElementData ElementId} (h : data.kind ≠ .variant) :
    data.owned some = data.members ++ data.definitions := by
  cases data with
  | variant variations => exact absurd rfl h
  | simple attributes name => exact (List.append_nil attributes).symm
  | _ => rfl

theorem ElementData.mem_owned_of_part {data : ElementData (Option ElementId)} {id : ElementId}
    (h : id ∈ data.members ∨ id ∈ data.definitions) : id ∈ data.owned fun link => link := by
  cases data with
  | compound children definitions bases derived => exact List.mem_append.2 h
  | simple attributes name => exact h.resolve_right List.not_mem_nil
  | _ => exact absurd (h.elim (fun hm => hm) fun hd => hd) List.not_mem_nil

/-- An element leads on to whatever its links lead to. -/
theorem Element.mem_edges_of_linkAt {e : Element (Option ElementId)} {l : Link} {id : ElementId}
    (h : e.data.linkAt l = some (some id)) : id ∈ e.edgesBy fun link => link := by
  unfold edgesBy ownedBy
  cases hdata : e.data <;> rw [hdata] at h <;> cases l <;> first | cases h | skip
  · exact List.mem_append_right _ (List.mem_append_left _
      (List.mem_filterMap.2 ⟨_, List.mem_of_getElem? h, rfl⟩))
  · exact List.mem_append_left _ (List.mem_append_left _
      (List.mem_filterMap.2 ⟨_, List.mem_of_getElem? h, rfl⟩))
  · exact List.mem_append_right _ (Option.mem_toList.2 rfl)
  · exact List.mem_append_right _ (Option.mem_toList.2 rfl)

namespace Blueprint

open Draft

variable {b : Blueprint} {P : ItemId → Prop} {item p x : ItemId} {root id : ElementId} {d : Draft}

/-- Everything that the element of an item owns, in the order of the element. -/
def ownedInOrder (b : Blueprint) (item : ItemId) : List ItemId :=
  b.parts item .member ++ b.parts item .definition ++ b.ownAlternatives item ++
    b.parts item .extension

theorem ElementsOf.append {items items' : List ItemId} {ids ids' : List ElementId}
    (h : ElementsOf d items ids) (h' : ElementsOf d items' ids') :
    ElementsOf d (items ++ items') (ids ++ ids') := List.rel_append h h'

theorem ElementsOf.map_itemOf {items : List ItemId} {ids : List ElementId}
    (h : ElementsOf d items ids) (hi : d.Indexed) : ids.map d.itemOf = items := by
  unfold ElementsOf at h
  induction h with
  | nil => rfl
  | cons hx _ ih => rw [List.map_cons, ih, hi.itemOf_of_idOf? hx]

theorem perm_parts (b : Blueprint) (item : ItemId) (children : List ItemId) :
    (b.among item .member children ++ b.among item .definition children ++
      b.among item .extension children).Perm
        (children.filter fun c => (b.part? item c).isSome) := by
  induction children with
  | nil => exact .refl _
  | cons c rest ih =>
    unfold among at ih ⊢
    rw [List.filter_cons, List.filter_cons, List.filter_cons, List.filter_cons]
    cases b.part? item c with
    | none => simpa using ih
    | some part =>
      cases part with
      | member => simpa using ih
      | definition =>
        simp only [reduceCtorEq, Option.some.injEq, decide_false, decide_true, if_false, if_true,
          Bool.false_eq_true, Option.isSome_some, List.append_assoc, List.cons_append] at ih ⊢
        exact List.perm_middle.trans (ih.cons c)
      | extension =>
        simp only [reduceCtorEq, Option.some.injEq, decide_false, decide_true, if_false, if_true,
          Bool.false_eq_true, Option.isSome_some] at ih ⊢
        exact List.perm_middle.trans (ih.cons c)

theorem perm_owned (b : Blueprint) (item : ItemId) :
    (b.ownedInOrder item).Perm (b.owned item) := by
  unfold ownedInOrder owned
  rw [List.append_assoc]
  refine (List.perm_append_comm.append_left _).trans ?_
  rw [← List.append_assoc]
  exact (b.perm_parts item (b.builtChildren item)).append_right _

theorem nodup_owned (h : b.tree.Rooted) (item : ItemId) : (b.owned item).Nodup := by
  obtain ⟨halternatives, hchildren, hdisjoint⟩ := List.nodup_append.1 (h.nodup item)
  refine List.nodup_append.2 ⟨?_, ?_, fun x hx y hy hxy => ?_⟩
  · refine List.Nodup.filter _ ?_
    unfold builtChildren
    split
    · exact hchildren
    · exact hchildren
    · exact List.nodup_nil
  · unfold ownAlternatives
    split
    · exact halternatives.filter _
    · exact List.nodup_nil
  · exact hdisjoint y (mem_ownAlternatives hy).1 x (mem_builtChildren (List.mem_filter.1 hx).1)
      hxy.symm

/-! ### Every item has its element -/

/-- The parent of an element belongs to the parent of its item. -/
theorem Assembled.parent_item (h : b.Assembled P root d) (ht : b.tree.Rooted) {q : ElementId}
    (hq : (d.element id).parent = some q) :
    (b.tree.item (d.itemOf id)).parent = some (d.itemOf q) :=
  (ht.listed _ _ (listed_of_owned (h.sound.parents id q hq))).2

/-- All wanted items have elements, which know their parents. An item is built with its parent, and
that came before it. -/
theorem Assembled.exists_id (h : b.Assembled P root d) (ht : b.tree.Admitted)
    (ho : b.tree.OnlyObjectsHold) (hw : b.Wanted item) :
    ∃ id, d.idOf? item = some id ∧ (item ≠ ItemTree.root → (d.element id).parent.isSome) := by
  induction hn : item.index using Nat.strong_induction_on generalizing item with
  | _ n ih =>
    by_cases hroot : item = ItemTree.root
    · exact ⟨root, hroot ▸ h.root, fun hne => absurd hroot hne⟩
    obtain ⟨p, _, hlt, hlisted⟩ := ht.resolved.wellFormed.rooted.parent item hw.lt hroot
    have hp : b.Wanted p := by
      refine ⟨lt_of_listed hlisted, Bool.eq_false_iff.2 fun homits => ?_⟩
      rw [listed_of_omits ht.resolved.wellFormed ho homits] at hlisted
      cases hlisted
    obtain ⟨q, hq, _⟩ := ih p.index (hn ▸ hlt) hp rfl
    have hi := h.sound.indexed
    obtain ⟨info, _, hs⟩ := (h.described (hi.lt_of_idOf? hq)).shaped
    rw [hi.itemOf_of_idOf? hq] at hs
    obtain ⟨id, hid, hparent⟩ := hs.owned item (owned_of_listed ht.resolved ho hlisted hw.kept)
    exact ⟨id, hid, fun _ => hparent⟩

/-- Every element but the root has a parent that owns it. -/
theorem Assembled.exists_parent (h : b.Assembled b.Wanted root d) (ht : b.tree.Admitted)
    (ho : b.tree.OnlyObjectsHold) (hid : id.index < d.elements.size) (hne : id ≠ root) :
    ∃ q, q.index < d.elements.size ∧ (d.element id).parent = some q ∧
      d.itemOf id ∈ b.owned (d.itemOf q) := by
  have hi := h.sound.indexed
  have hidx := hi.element id hid
  have hroot : d.itemOf id ≠ ItemTree.root := fun he => by
    rw [he, h.root] at hidx
    exact hne (Option.some.inj hidx).symm
  obtain ⟨id', hid', hparent⟩ := h.exists_id ht ho (h.sound.asked _ _ hidx)
  rw [hidx] at hid'
  cases hid'
  obtain ⟨q, hq⟩ := Option.isSome_iff_exists.1 (hparent hroot)
  refine ⟨q, hi.mentioned id q ?_, hq, h.sound.parents id q hq⟩
  unfold Element.mentioned
  rw [hq]
  exact List.mem_append_left _ (List.mem_singleton.2 rfl)

/-- No link of an assembled element is open. -/
theorem Assembled.linkAt_of_linked? (h : b.Assembled P root d) (hid : id.index < d.elements.size)
    {l : Link} (hl : b.linked? (d.itemOf id) l = some x) :
    ∃ target, (d.element id).data.linkAt l = some (some target) ∧
      d.idOf? (b.standIn x) = some target := by
  have hlinked := (h.described hid).linked l x hl
  unfold Linked at hlinked
  rw [h.tasks] at hlinked
  split at hlinked
  · next target htarget => exact ⟨target, htarget, hlinked⟩
  · exact absurd hlinked List.not_mem_nil
  · exact hlinked.elim

/-- An element leads on to the elements of what its item owns. -/
theorem Assembled.mem_edges (h : b.Assembled P root d) {q : ElementId}
    (hq : q.index < d.elements.size) (hx : x ∈ b.owned (d.itemOf q)) (hid : d.idOf? x = some id) :
    id ∈ (d.element q).edgesBy fun link => link := by
  obtain ⟨info, _, hs⟩ := (h.described hq).shaped
  have hpart : ∀ {items : List ItemId} {ids : List ElementId}, ElementsOf d items ids →
      x ∈ items → id ∈ ids := fun hall hmem => by
    obtain ⟨id', hmem', hid'⟩ := exists_of_mem_left hall hmem
    rw [hid] at hid'
    cases hid'
    exact hmem'
  have hmem := (perm_owned b (d.itemOf q)).symm.subset hx
  unfold ownedInOrder at hmem
  rw [List.mem_append, List.mem_append, List.mem_append] at hmem
  rcases hmem with ((hm | hm) | hm) | hm
  · exact List.mem_append_left _ (List.mem_append_left _
      (ElementData.mem_owned_of_part (.inl (hpart hs.members hm))))
  · exact List.mem_append_left _ (List.mem_append_left _
      (ElementData.mem_owned_of_part (.inr (hpart hs.definitions hm))))
  · obtain ⟨halternative, hstands⟩ := mem_ownAlternatives hm
    obtain ⟨index, hindex⟩ := List.mem_iff_getElem?.1 halternative
    have hl : b.linked? (d.itemOf q) (.variation index) = some x := by
      unfold ownAlternatives at hm
      unfold linked?
      split at hm
      · next hk => rw [hk]; exact hindex
      · cases hm
    obtain ⟨target, hlink, htarget⟩ := h.linkAt_of_linked? hq hl
    rw [hstands, hid] at htarget
    cases htarget
    exact Element.mem_edges_of_linkAt hlink
  · exact List.mem_append_left _ (List.mem_append_right _ (hpart hs.extensions hm))

/-- The walk meets what the root leads on to. -/
theorem Assembled.mem_walk_iff_path (h : b.Assembled P root d) : id ∈ d.walk root ↔
    Relation.ReflTransGen (fun x y => y ∈ (d.element x).edgesBy fun link => link) root id := by
  have hi := h.sound.indexed
  have hids : ∀ x : ElementId, x ∈ (List.range d.elements.size).map ElementId.mk ↔
      x.index < d.elements.size := fun ⟨i⟩ => by simp
  have hclosed : Search.Closed (fun id => (d.element id).edgesBy fun link => link)
      ((List.range d.elements.size).map ElementId.mk) := fun x _ y hy =>
    (hids y).2 (hi.mentioned x y (List.mem_append_right _ hy))
  have hroot : ∀ x ∈ [root], x ∈ (List.range d.elements.size).map ElementId.mk := fun x hx => by
    rw [List.mem_singleton.1 hx, hids]
    exact hi.lt_of_idOf? h.root
  unfold Draft.walk
  rw [Search.mem_reach_iff hclosed (by simp) hroot]
  exact ⟨fun ⟨_, hstart, hpath⟩ => List.mem_singleton.1 hstart ▸ hpath,
    fun hpath => ⟨root, List.mem_singleton.2 rfl, hpath⟩⟩

/-- Every element is met on the walk from the root, as its item came after that of its parent. -/
theorem Assembled.mem_walk_iff (h : b.Assembled b.Wanted root d) (ht : b.tree.Admitted)
    (ho : b.tree.OnlyObjectsHold) : id ∈ d.walk root ↔ id.index < d.elements.size := by
  have hi := h.sound.indexed
  rw [h.mem_walk_iff_path]
  constructor
  · intro hpath
    induction hpath with
    | refl => exact hi.lt_of_idOf? h.root
    | tail _ hxy _ => exact hi.mentioned _ _ (List.mem_append_right _ hxy)
  · intro hid
    induction hn : (d.itemOf id).index using Nat.strong_induction_on generalizing id with
    | _ n ih =>
      by_cases hroot : id = root
      · rw [hroot]
      obtain ⟨q, hqlt, hq, howned⟩ := h.exists_parent ht ho hid hroot
      have hlt : (d.itemOf q).index < (d.itemOf id).index := by
        have hitem := h.parent_item ht.resolved.wellFormed.rooted hq
        have hne : d.itemOf id ≠ ItemTree.root := fun he => by
          rw [he, ht.resolved.wellFormed.rooted.rootParent] at hitem
          cases hitem
        have hw := h.sound.asked _ _ (hi.element id hid)
        obtain ⟨p, hp, hplt, _⟩ := ht.resolved.wellFormed.rooted.parent _ hw.lt hne
        rw [hitem] at hp
        cases hp
        exact hplt
      exact (ih (d.itemOf q).index (hn ▸ hlt) hqlt rfl).tail
        (h.mem_edges hqlt howned (hi.element id hid))

end Blueprint

/-! ### What covering means -/

namespace ItemTree

variable {t a : ItemTree} {plugin : Plugin} {options : Options} {c : Compiled}

/-- The items that the elements of a tree are built from, in the order of the elements. -/
def origins (t : ItemTree) (plugin : Plugin) : List ItemId :=
  match (t.blueprint plugin).assemble.run {} with
  | .ok (_, d) => d.elements.toList.map DraftElement.item
  | .error _ => []

/-- The item that an element is built from. -/
def origin (t : ItemTree) (plugin : Plugin) (id : ElementId) : ItemId :=
  (t.origins plugin).getD id.index default

/-- The items that get elements. -/
def wanted (t : ItemTree) (plugin : Plugin) : List ItemId :=
  t.ids.filter fun item => !(t.blueprint plugin).omits item

/-- The variations that were built for their alternatives, and not for something that stands for
these. -/
def ownVariations (t : ItemTree) (plugin : Plugin) (alternatives : List ItemId)
    (variations : List ElementId) : List ElementId :=
  ((alternatives.zip variations).filter fun v => !(t.blueprint plugin).omits v.1).map Prod.snd

/-- Everything that an element owns, without variations that stand for replaced alternatives. -/
def ownedOnce (t : ItemTree) (plugin : Plugin) (g : Graph) (id : ElementId) : List ElementId :=
  match (g.element id).data with
  | .variant variations =>
    t.ownVariations plugin (t.item (t.origin plugin id)).alternatives variations ++
      (g.element id).extensions
  | _ => (g.element id).owned

/-- A graph has one element for every item of an admitted tree that is to have one, and no other
elements; they own each other as the items stand under each other. -/
structure Covers (t : ItemTree) (plugin : Plugin) (c : Compiled) : Prop where
  size : c.graph.size = (t.origins plugin).length
  items : (t.origins plugin).Perm (t.wanted plugin)
  head : ∀ id ∈ c.graph.ids,
    (c.graph.element id).name = (t.item (t.origin plugin id)).effectiveName ∧
    some (c.graph.element id).kind = (t.item (t.origin plugin id)).kind
  root : t.origin plugin c.root = root ∧ (c.graph.element c.root).parent = none
  parent : ∀ id ∈ c.graph.ids, id ≠ c.root → ∃ p ∈ c.graph.ids,
    (c.graph.element id).parent = some p ∧
    (t.item (t.origin plugin id)).parent = some (t.origin plugin p) ∧
    id ∈ t.ownedOnce plugin c.graph p ∧ id ∈ (c.graph.element p).owned
  once : (c.graph.ids.flatMap (t.ownedOnce plugin c.graph)).Perm
    (c.graph.ids.filter fun id => id ≠ c.root)
  walk : (c.graph.walk c.root).Perm c.graph.ids

theorem ownVariations_sublist (alternatives : List ItemId) (variations : List ElementId) :
    (t.ownVariations plugin alternatives variations).Sublist variations := by
  unfold ownVariations
  induction alternatives generalizing variations with
  | nil => simp
  | cons x rest ih =>
    cases variations with
    | nil => simp
    | cons v vs =>
      rw [List.zip_cons_cons, List.filter_cons]
      split
      · exact (ih vs).cons_cons v
      · exact (ih vs).cons v

theorem ownedOnce_sublist (g : Graph) (id : ElementId) :
    (t.ownedOnce plugin g id).Sublist (g.element id).owned := by
  unfold ownedOnce
  split
  · next variations hdata =>
    unfold Element.owned Element.ownedBy
    rw [hdata]
    refine List.Sublist.append ?_ (List.Sublist.refl _)
    rw [show (ElementData.variant variations).owned some = variations from List.filterMap_some]
    exact ownVariations_sublist _ _
  · exact List.Sublist.refl _

/-! ### What the elements of a graph own -/

namespace BuiltBy

open Draft Blueprint

variable {P : ItemId → Prop} {d d' : Draft} {id p : ElementId} {item : ItemId}

theorem origins_eq (h : t.BuiltBy plugin P d d' c) :
    t.origins plugin = c.graph.ids.map d.itemOf := by
  unfold origins
  rw [h.run]
  have hsize : c.graph.size = d.elements.size := h.closes.size.trans h.completed.kept.elements
  refine List.ext_getElem (by simp [Graph.ids, hsize]) fun i hi _ => ?_
  simp only [List.length_map, Array.length_toList] at hi
  simp [Graph.ids, Draft.itemOf, Draft.draftElement, hi]

theorem origin_eq (h : t.BuiltBy plugin P d d' c) (hid : id ∈ c.graph.ids) :
    t.origin plugin id = d.itemOf id := by
  unfold origin
  rw [h.origins_eq]
  obtain ⟨i⟩ := id
  have hi : i < c.graph.size := by simpa [Graph.ids] using hid
  simp [Graph.ids, hi]

theorem mem_origins_iff (h : t.BuiltBy plugin P d d' c) :
    item ∈ t.origins plugin ↔ (d.idOf? item).isSome := by
  rw [h.origins_eq, List.mem_map]
  have hi := h.assembled.sound.indexed
  constructor
  · rintro ⟨id, hid, rfl⟩
    rw [hi.element id (h.mem_ids.1 hid)]
    rfl
  · intro hs
    obtain ⟨id, hid⟩ := Option.isSome_iff_exists.1 hs
    exact ⟨id, h.mem_ids.2 (hi.lt_of_idOf? hid), hi.itemOf_of_idOf? hid⟩

theorem nodup_origins (h : t.BuiltBy plugin P d d' c) : (t.origins plugin).Nodup := by
  rw [h.origins_eq]
  have hi := h.assembled.sound.indexed
  refine List.Nodup.map_on (fun id hid j hj he => ?_)
    (List.nodup_range.map fun _ _ hx => ElementId.mk.inj hx)
  have hids := hi.element id (h.mem_ids.1 hid)
  rw [he, hi.element j (h.mem_ids.1 hj)] at hids
  exact (Option.some.inj hids).symm

/-- Links of one kind lead to the elements that stand for the items that are to be linked. -/
theorem elementsOf_links (h : t.BuiltBy plugin P d d' c) (hid : id ∈ c.graph.ids)
    (kind : Nat → Link) {items : List ItemId} {links : List ElementId}
    (hitems : ∀ i, (t.blueprint plugin).linked? (d.itemOf id) (kind i) = items[i]?)
    (hlinks : ∀ i, (c.graph.element id).data.linkAt (kind i) = links[i]?) :
    List.Forall₂ (fun x v => d.idOf? ((t.blueprint plugin).standIn x) = some v) items links := by
  have hlt := h.mem_ids.1 hid
  have hlink : ∀ i, (d.element id).data.linkAt (kind i) = (links[i]?).map some := fun i => by
    rw [← (h.completed.kept.data id).linkAt, (h.element hid).data.links, hlinks]
  refine forall₂_of_getElem? (fun i v hv => ?_) fun i x hx => ?_
  · have hl := hlink i
    rw [hv] at hl
    obtain ⟨x, target, hx, htarget, hidx⟩ := h.assembled.linked hlt hl
    cases htarget
    exact ⟨x, (hitems i).symm.trans hx, hidx⟩
  · have hl := (h.assembled.described hlt).linked _ x ((hitems i).trans hx)
    unfold Linked at hl
    rw [hlink i] at hl
    cases hv : links[i]? with
    | none =>
      rw [hv] at hl
      cases hl
    | some v => rfl

/-- The variations of an element are those of its alternatives. -/
theorem variations (h : t.BuiltBy plugin P d d' c) (hid : id ∈ c.graph.ids)
    {variations : List ElementId} (hdata : (c.graph.element id).data = .variant variations) :
    List.Forall₂ (fun x v => d.idOf? ((t.blueprint plugin).standIn x) = some v)
      (t.item (d.itemOf id)).alternatives variations := by
  have hkind : (t.item (d.itemOf id)).kind = some .variant := by
    have hk := h.kind hid
    unfold Element.kind at hk
    rw [hdata] at hk
    exact (h.assembled.kind (h.mem_ids.1 hid)).trans (congrArg some hk.symm)
  refine h.elementsOf_links hid .variation (fun i => ?_) fun i => by rw [hdata]; rfl
  unfold linked?
  rw [show ((t.blueprint plugin).tree.item (d.itemOf id)).kind = _ from hkind]
  rfl

theorem elementsOf_ownVariations (ht : t.Admitted) (hk : (t.item item).kind = some .variant)
    {variations : List ElementId}
    (hv : List.Forall₂ (fun x v => d.idOf? ((t.blueprint plugin).standIn x) = some v)
      (t.item item).alternatives variations) :
    ElementsOf d ((t.blueprint plugin).ownAlternatives item)
      (t.ownVariations plugin (t.item item).alternatives variations) := by
  have hall : ∀ alternatives variations,
      (∀ x ∈ alternatives, (t.blueprint plugin).standIn x = x ↔
        (t.blueprint plugin).omits x = false) →
      List.Forall₂ (fun x v => d.idOf? ((t.blueprint plugin).standIn x) = some v)
        alternatives variations →
      ElementsOf d (alternatives.filter fun x => (t.blueprint plugin).standIn x = x)
        (t.ownVariations plugin alternatives variations) := by
    intro alternatives variations hmem hv
    induction hv with
    | nil => exact .nil
    | @cons x v xs vs hxv _ ih =>
      have ih := ih fun y hy => hmem y (List.mem_cons_of_mem x hy)
      have hx := hmem x List.mem_cons_self
      unfold ownVariations at ih ⊢
      rw [List.zip_cons_cons, List.filter_cons, List.filter_cons]
      by_cases hs : (t.blueprint plugin).standIn x = x
      · rw [if_pos (decide_eq_true hs), if_pos (by simp [hx.1 hs])]
        exact .cons (hs ▸ hxv) ih
      · rw [if_neg (by simpa using hs), if_neg (by simpa using fun hn => hs (hx.2 hn))]
        exact ih
  unfold ownAlternatives
  rw [show ((t.blueprint plugin).tree.item item).kind = _ from hk]
  exact hall _ _ (fun x hx => standIn_eq_iff (b := t.blueprint plugin) ht hx) hv

/-- The extensions of an element are the elements of those of its item. -/
theorem elementsOf_extensions (h : t.BuiltBy plugin P d d' c) (hid : id ∈ c.graph.ids) :
    ElementsOf d ((t.blueprint plugin).parts (d.itemOf id) .extension)
      (c.graph.element id).extensions := by
  obtain ⟨info, _, hs⟩ := (h.assembled.described (h.mem_ids.1 hid)).shaped
  rw [(h.element hid).extensions, h.completed.kept.element id]
  exact hs.extensions

/-- What an element owns are the elements of what its item owns. -/
theorem elementsOf_owned (h : t.BuiltBy plugin P d d' c) (ht : t.Admitted)
    (hid : id ∈ c.graph.ids) :
    ElementsOf d ((t.blueprint plugin).ownedInOrder (d.itemOf id))
      (t.ownedOnce plugin c.graph id) := by
  have hlt := h.mem_ids.1 hid
  have he := h.element hid
  have hkept := h.completed.kept
  obtain ⟨info, _, hs⟩ := (h.assembled.described hlt).shaped
  have hmembers := hs.members
  have hdefinitions := hs.definitions
  have hextensions := h.elementsOf_extensions hid
  rw [← (hkept.data id).members, ← he.data.members] at hmembers
  rw [← (hkept.data id).definitions, ← he.data.definitions] at hdefinitions
  have hkind : (t.item (d.itemOf id)).kind = some (c.graph.element id).data.kind :=
    (h.assembled.kind hlt).trans (congrArg some (h.kind hid).symm)
  have hnone : (c.graph.element id).data.kind ≠ .variant →
      ElementsOf d ((t.blueprint plugin).ownAlternatives (d.itemOf id)) [] := fun hne => by
    unfold ownAlternatives
    split
    · next hk => exact absurd (Option.some.inj (hkind.symm.trans hk)) hne
    · exact .nil
  unfold ownedOnce Element.owned Element.ownedBy
  cases hdata : (c.graph.element id).data with
  | variant variations =>
    rw [hdata] at hmembers hdefinitions hkind
    have hslots : ElementsOf d ((t.blueprint plugin).ownAlternatives (d.itemOf id))
        (t.ownVariations plugin (t.item (t.origin plugin id)).alternatives variations) := by
      rw [h.origin_eq hid]
      exact elementsOf_ownVariations ht hkind (h.variations hid hdata)
    exact ((hmembers.append hdefinitions).append hslots).append hextensions
  | _ =>
    have hne : (c.graph.element id).data.kind ≠ .variant := by rw [hdata]; simp [ElementData.kind]
    have hall := ((hmembers.append hdefinitions).append (hnone hne)).append hextensions
    rw [List.append_nil, ← ElementData.owned_of_kind hne, hdata] at hall
    exact hall

/-! ### Who owns an element -/

theorem parent_eq (h : t.BuiltBy plugin P d d' c) (hid : id ∈ c.graph.ids) :
    (c.graph.element id).parent = (d.element id).parent := by
  rw [(h.element hid).parent, h.completed.kept.element id]

/-- What an element owns has it as its parent. -/
theorem parent_of_mem_ownedOnce (h : t.BuiltBy plugin P d d' c) (ht : t.Admitted)
    (hp : p ∈ c.graph.ids) (hid : id ∈ t.ownedOnce plugin c.graph p) :
    id ∈ c.graph.ids ∧ (c.graph.element id).parent = some p := by
  have hi := h.assembled.sound.indexed
  obtain ⟨item, hitem, hidx⟩ := exists_of_mem_right (h.elementsOf_owned ht hp) hid
  have howned := (perm_owned _ _).subset hitem
  obtain ⟨info, _, hs⟩ := (h.assembled.described (h.mem_ids.1 hp)).shaped
  obtain ⟨id', hid', hparent⟩ := hs.owned item howned
  rw [hidx] at hid'
  cases hid'
  have hmem := h.mem_ids.2 (hi.lt_of_idOf? hidx)
  refine ⟨hmem, ?_⟩
  obtain ⟨q, hq⟩ := Option.isSome_iff_exists.1 hparent
  -- the item of the parent is the parent of the item, and so is that of `p`
  have hqp : d.itemOf q = d.itemOf p := by
    have hitem' := h.assembled.parent_item ht.resolved.wellFormed.rooted hq
    rw [hi.itemOf_of_idOf? hidx] at hitem'
    have hlisted := ht.resolved.wellFormed.rooted.listed _ _ (listed_of_owned howned)
    exact Option.some.inj (hitem'.symm.trans hlisted.2)
  have hqlt : q.index < d.elements.size := by
    refine hi.mentioned id q ?_
    unfold Element.mentioned
    rw [hq]
    exact List.mem_append_left _ (List.mem_singleton.2 rfl)
  have hids := hi.element q hqlt
  rw [hqp, hi.element p (h.mem_ids.1 hp)] at hids
  rw [h.parent_eq hmem, hq, Option.some.inj hids]

theorem nodup_ownedOnce (h : t.BuiltBy plugin P d d' c) (ht : t.Admitted) (hp : p ∈ c.graph.ids) :
    (t.ownedOnce plugin c.graph p).Nodup := by
  refine List.Nodup.of_map d.itemOf ?_
  rw [(h.elementsOf_owned ht hp).map_itemOf h.assembled.sound.indexed, (perm_owned _ _).nodup_iff]
  exact nodup_owned ht.resolved.wellFormed.rooted _

theorem parent_root (h : t.BuiltBy plugin P d d' c) (ht : t.Admitted) :
    (c.graph.element c.root).parent = none := by
  have hlt := h.assembled.sound.indexed.lt_of_idOf? h.assembled.root
  rw [h.parent_eq (h.mem_ids.2 hlt)]
  cases hq : (d.element c.root).parent with
  | none => rfl
  | some q =>
    have hparent := h.assembled.parent_item ht.resolved.wellFormed.rooted hq
    rw [h.assembled.sound.indexed.itemOf_of_idOf? h.assembled.root] at hparent
    rw [show ((t.blueprint plugin).tree.item ItemTree.root).parent = none from
      ht.resolved.wellFormed.rooted.rootParent] at hparent
    cases hparent

/-- The walk through a graph is that through the draft. -/
theorem walk_eq (h : t.BuiltBy plugin P d d' c) : c.graph.walk c.root = d.walk c.root := by
  have hedges : (fun id => (c.graph.element id).edges) =
      fun id => (d'.element id).edgesBy fun link => link := by
    funext id
    by_cases hid : id ∈ c.graph.ids
    · have he := h.element hid
      unfold Element.edges Element.edgesBy Element.ownedBy
      rw [he.extensions, he.data.owned, he.data.crossing]
    · have hsize : c.graph.size ≤ id.index := by
        obtain ⟨i⟩ := id
        simpa [Graph.ids] using hid
      rw [element_of_size_le (h.closes.size ▸ hsize)]
      unfold Graph.element
      rw [Array.getD_eq_getD_getElem?, Array.getElem?_eq_none hsize]
      rfl
  rw [← h.completed.kept.walk]
  unfold Graph.walk Draft.walk
  rw [hedges, h.closes.size]

section Wanted

variable (h : t.BuiltBy plugin (t.blueprint plugin).Wanted d d' c) (ht : t.Admitted)
  (ho : t.OnlyObjectsHold)
include h ht ho

/-- Every element but the root is owned by its parent, whose item is that of its item's parent. -/
theorem exists_parent (hid : id ∈ c.graph.ids) (hne : id ≠ c.root) : ∃ p ∈ c.graph.ids,
    (c.graph.element id).parent = some p ∧
    (t.item (d.itemOf id)).parent = some (d.itemOf p) ∧
    id ∈ t.ownedOnce plugin c.graph p := by
  have hidx := h.assembled.sound.indexed.element id (h.mem_ids.1 hid)
  obtain ⟨q, hqlt, hq, howned⟩ := h.assembled.exists_parent ht ho (h.mem_ids.1 hid) hne
  have hqmem := h.mem_ids.2 hqlt
  obtain ⟨id', hmem, hidx'⟩ := exists_of_mem_left (h.elementsOf_owned ht hqmem)
    ((perm_owned _ _).symm.subset howned)
  rw [hidx] at hidx'
  cases hidx'
  exact ⟨q, hqmem, (h.parent_eq hid).trans hq,
    h.assembled.parent_item ht.resolved.wellFormed.rooted hq, hmem⟩

/-- Among what all elements own each element but the root occurs once. -/
theorem perm_ownedOnce : (c.graph.ids.flatMap (t.ownedOnce plugin c.graph)).Perm
    (c.graph.ids.filter fun id => id ≠ c.root) := by
  have hids : c.graph.ids.Nodup := List.nodup_range.map fun _ _ hx => ElementId.mk.inj hx
  have hnodup : (c.graph.ids.flatMap (t.ownedOnce plugin c.graph)).Nodup := by
    refine List.nodup_flatMap.2 ⟨fun p hp => h.nodup_ownedOnce ht hp, ?_⟩
    refine hids.pairwise_of_forall_ne fun p hp q hq hpq id hidp hidq => hpq ?_
    have hparent := (h.parent_of_mem_ownedOnce ht hp hidp).2
    rw [(h.parent_of_mem_ownedOnce ht hq hidq).2] at hparent
    exact (Option.some.inj hparent).symm
  refine (List.perm_ext_iff_of_nodup hnodup (hids.filter _)).2 fun id => ?_
  rw [List.mem_flatMap, List.mem_filter, decide_eq_true_eq]
  constructor
  · rintro ⟨p, hp, hid⟩
    obtain ⟨hmem, hparent⟩ := h.parent_of_mem_ownedOnce ht hp hid
    refine ⟨hmem, fun he => ?_⟩
    rw [he, h.parent_root ht] at hparent
    cases hparent
  · rintro ⟨hmem, hne⟩
    obtain ⟨p, hp, _, _, hid⟩ := h.exists_parent ht ho hmem hne
    exact ⟨p, hp, hid⟩

theorem perm_walk : (c.graph.walk c.root).Perm c.graph.ids := by
  have hids : c.graph.ids.Nodup := List.nodup_range.map fun _ _ hx => ElementId.mk.inj hx
  refine (List.perm_ext_iff_of_nodup (Search.nodup_reach _ _ _) hids).2 fun id => ?_
  rw [← Graph.walk, h.walk_eq, h.mem_ids]
  exact h.assembled.mem_walk_iff ht ho

/-! ### All together -/

theorem covers : t.Covers plugin c where
  size := by
    rw [h.origins_eq, List.length_map]
    simp [Graph.ids]
  items := by
    refine (List.perm_ext_iff_of_nodup h.nodup_origins
      ((List.nodup_range.map fun _ _ hx => ItemId.mk.inj hx).filter _)).2 fun item => ?_
    rw [h.mem_origins_iff]
    rw [List.mem_filter, ← ids, ItemTree.mem_ids, Bool.not_eq_true']
    constructor
    · intro hs
      obtain ⟨id, hid⟩ := Option.isSome_iff_exists.1 hs
      have hw := h.assembled.sound.asked item id hid
      exact ⟨hw.lt, hw.kept⟩
    · rintro ⟨hlt, hkept⟩
      obtain ⟨id, hid, _⟩ := h.assembled.exists_id ht ho ⟨hlt, hkept⟩
      rw [hid]
      rfl
  head id hid := by
    have hlt := h.mem_ids.1 hid
    rw [h.origin_eq hid, (h.element hid).name, h.completed.kept.element id, h.kind hid]
    exact ⟨(h.assembled.sound.head id hlt).1, (h.assembled.kind hlt).symm⟩
  root := by
    have hlt := h.assembled.sound.indexed.lt_of_idOf? h.assembled.root
    rw [h.origin_eq (h.mem_ids.2 hlt)]
    exact ⟨h.assembled.sound.indexed.itemOf_of_idOf? h.assembled.root, h.parent_root ht⟩
  parent id hid hne := by
    obtain ⟨p, hp, hparent, hitem, hmem⟩ := h.exists_parent ht ho hid hne
    rw [h.origin_eq hid]
    refine ⟨p, hp, hparent, ?_, hmem, (ownedOnce_sublist c.graph p).subset hmem⟩
    rw [h.origin_eq hp]
    exact hitem
  once := h.perm_ownedOnce ht ho
  walk := h.perm_walk ht ho

end Wanted

end BuiltBy

theorem compile_of_compileTree (h : t.compileTree plugin options = .ok (a, c)) :
    t.compile plugin options = .ok c := by
  unfold compile
  rw [h]
  rfl

/-- A compilation builds the admitted tree, and asks for wanted items only. -/
theorem compile_built (h : t.Reachable) (hok : t.compile plugin options = .ok c) :
    ∃ a d d', t.compileTree plugin options = .ok (a, c) ∧ a.Admitted ∧
      (t.OnlyObjectsHold → a.OnlyObjectsHold) ∧
      a.BuiltBy plugin (a.blueprint plugin).Wanted d d' c := by
  unfold compile at hok
  cases hc : t.compileTree plugin options with
  | error failure =>
    rw [hc] at hok
    cases hok
  | ok r =>
    rw [hc] at hok
    cases hok
    obtain ⟨hadmitted, hobjects, hbuild⟩ := compileTree_ok h (a := r.1) (c := r.2) hc
    obtain ⟨d, d', hbuilt⟩ :=
      build_ok (Blueprint.closed_wanted (b := r.1.blueprint plugin) hadmitted) hbuild
    exact ⟨r.1, d, d', rfl, hadmitted, hobjects, hbuilt⟩

/-- **No item is lost or duplicated.** A compilation of a tree in which only objects hold anything
yields a graph that covers the admitted tree. -/
theorem compile_covers (h : t.Reachable) (ho : t.OnlyObjectsHold)
    (hok : t.compile plugin options = .ok c) :
    ∃ a, t.compileTree plugin options = .ok (a, c) ∧ a.Covers plugin c := by
  obtain ⟨a, d, d', hc, hadmitted, hobjects, hbuilt⟩ := compile_built h hok
  exact ⟨a, hc, hbuilt.covers hadmitted (hobjects ho)⟩

/-- A simple object, an alias of it, a variant of both and an extension that no plugin knows. -/
def choiceOfAliases : ItemTree :=
  ((((ofSource "").push root ((Item.object (some "leaf")).withBase "string")).push root
    (Item.declaration (some "alias") "leaf")).push root
    (Item.variant (some "choice") [⟨"leaf", ∅, .builtin⟩, ⟨"alias", ∅, .builtin⟩])).push root
    (Item.extension "note" [])

/-- Of its eight items the extension, both alternatives and the synthetic child get no element. -/
theorem choiceOfAliases_covered :
    choiceOfAliases.Reachable ∧ choiceOfAliases.OnlyObjectsHold ∧ ∃ a c,
      choiceOfAliases.compileTree { name := "any", capabilities := .allElements }
        { filterExtensions := true } = .ok (a, c) ∧
      a.size = 8 ∧ c.graph.size = 4 ∧
      a.Covers { name := "any", capabilities := .allElements } c := by
  have hleaf := (Item.Declared.object (some "leaf")).withBase "string"
  have halias := Item.Declared.declaration (some "alias") "leaf"
  have hchoice := Item.Declared.variant (some "choice")
    [⟨"leaf", ∅, .builtin⟩, ⟨"alias", ∅, .builtin⟩]
  have hnote := Item.Declared.extension "note" []
  have hreachable : choiceOfAliases.Reachable :=
    ((((Reachable.source "").push (p := root) (by decide) hleaf).push (p := root) (by decide)
      halias).push (p := root) (by decide) hchoice).push (p := root) (by decide) hnote
  have hobjects : choiceOfAliases.OnlyObjectsHold :=
    ((((onlyObjectsHold_ofSource "").push (p := root) (by decide) hleaf.fresh rfl).push (p := root)
      (by decide) halias.fresh rfl).push (p := root) (by decide) hchoice.fresh rfl).push (p := root)
      (by decide) hnote.fresh rfl
  have hsizes : (choiceOfAliases.compileTree { name := "any", capabilities := .allElements }
      { filterExtensions := true }).toOption.map (fun r => (r.1.size, r.2.graph.size)) =
        some (8, 4) := by decide +kernel
  refine ⟨hreachable, hobjects, ?_⟩
  cases hc : choiceOfAliases.compileTree { name := "any", capabilities := .allElements }
      { filterExtensions := true } with
  | error failure =>
    rw [hc] at hsizes
    cases hsizes
  | ok r =>
    obtain ⟨a, c⟩ := r
    rw [hc] at hsizes
    obtain ⟨hsize, hgraph⟩ := Prod.mk.inj (Option.some.inj hsizes)
    refine ⟨a, c, rfl, hsize, hgraph, ?_⟩
    obtain ⟨a', hc', hcovers⟩ := compile_covers hreachable hobjects (c := c) (by
      unfold compile
      rw [hc]
      rfl)
    rw [hc] at hc'
    cases hc'
    exact hcovers

end ItemTree
end Schemata
