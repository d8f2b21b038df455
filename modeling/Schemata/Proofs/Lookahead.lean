import Schemata.Proofs.Tree.Arities
import Schemata.Proofs.Tree.Meanings
import Schemata.Proofs.Tree.Passage

/-! Arities that are looked ahead for, and arities that are settled.

Whether a declaration is a list depends on how often its target occurs, which
classifying has to know before there are kinds and settled arities. It follows the
declarations as they are written; settling follows the references that they have
turned out to be. Both take the same steps, as only a declaration with an arity of
its own can turn out to be a list. -/
namespace Schemata

/-- What is declared has an arity exactly if it was given one. -/
theorem Item.Declared.isSome_arity {i : Item} (h : i.Declared) :
    i.arity.isSome = i.hasExplicitArity := by
  induction h with
  | object | declaration | variant | extension | withArity => rfl
  | withBase _ _ ih => exact ih
  | withMetadata _ _ _ ih => exact ih
  | withRole _ _ ih => exact ih
  | external _ ih => exact ih
  | placedAt _ _ ih => exact ih

namespace ItemTree

open Search

variable {t t' t₁ t₂ t₃ m r : ItemTree} {plugin : Plugin} {options : Options} {x y : ItemId}
  {a : Arity}

/-! ### Arities that are given -/

/-- Items have an arity exactly if they were given one. -/
def OnlyGiven (t : ItemTree) : Prop :=
  ∀ x, (t.item x).arity.isSome = (t.item x).hasExplicitArity

theorem OnlyGiven.arity_eq_none (h : t.OnlyGiven) (hx : (t.item x).hasExplicitArity = false) :
    (t.item x).arity = none :=
  Option.not_isSome_iff_eq_none.1 (by rw [h x, hx]; exact Bool.false_ne_true)

theorem Declared.onlyGiven (h : t.Declared) : t.OnlyGiven :=
  h.item (P := fun i => i.arity.isSome = i.hasExplicitArity) (fun _ _ _ hi => hi.isSome_arity)
    fun _ _ hc => hc

/-- New alternatives are given no arity. -/
theorem BoundFrom.given_new (h : t.BoundFrom t₁) (ht : t.Rooted) (hle : t.size ≤ x.index) :
    (t₁.item x).arity = none ∧ (t₁.item x).hasExplicitArity = false := by
  by_cases hlt : x.index < t₁.size
  · obtain ⟨_, _, _, _, hnew⟩ := h.alternativeOf ht hle hlt
    obtain ⟨_, _, hitem⟩ := hnew.item
    exact ⟨(congrArg Item.arity hitem :), (congrArg Item.hasExplicitArity hitem :)⟩
  · rw [item_of_size_le (Nat.le_of_not_lt hlt)]
    exact ⟨rfl, rfl⟩

/-- So are synthetic children. -/
theorem ClassifiedFrom.given_new (h : t.ClassifiedFrom t') (hle : t.size ≤ x.index) :
    (t'.item x).arity = none ∧ (t'.item x).hasExplicitArity = false ∧
      (t'.item x).kind ≠ some .reference ∧ ∀ y, (t'.item x).target? ≠ some (.item y) := by
  by_cases hlt : x.index < t'.size
  · obtain ⟨_, _, _, _, _, hitem⟩ := h.new x hle hlt
    rw [hitem]
    exact ⟨rfl, rfl, nofun, nofun⟩
  · rw [item_of_size_le (Nat.le_of_not_lt hlt)]
    exact ⟨rfl, rfl, nofun, nofun⟩

/-! ### Looking ahead -/

/-- A declaration without an arity that refers to an item is a reference. -/
theorem linkVerdict_of_no_arity {v : Verdict} (hn : (t.item x).arity = none)
    (hv : t.linkVerdict x y = some v) : v = .reference := by
  obtain ⟨list, hlist, rfl⟩ := Option.map_eq_some_iff.1 hv
  obtain ⟨refines, _, hlist⟩ := bind_eq_ok (eq_ok_of_toOption hlist)
  unfold isList at hlist
  dsimp only at hlist
  rw [hn, if_neg (by simp)] at hlist
  cases hlist
  rfl

/-- What is to become of a declaration whose target is an item depends on that alone. -/
theorem verdict_of_link (hform : (t.item x).form = .declaration)
    (halternatives : (t.item x).alternatives = []) (htarget : (t.item x).target? = some (.item y)) :
    t.verdict x = t.linkVerdict x y := by
  unfold verdict declarationVerdict
  rw [hform, halternatives, htarget]
  rfl

/-- A declaration whose target is an item has had it from the start. -/
theorem ClassifiedFrom.target_eq (h : t.ClassifiedFrom t') (hx : x.index < t.size)
    (hform : (t'.item x).form = .declaration) : (t.item x).form = .declaration ∧
      (t'.item x).alternatives = (t.item x).alternatives ∧
      (t'.item x).target? = (t.item x).target? := by
  obtain ⟨v, c, hv, hitem, _⟩ := h.old x hx
  rw [hitem, v.apply_form] at hform
  refine ⟨hform, by rw [hitem, v.apply_alternatives], ?_⟩
  have hsplit : ∀ type, v ≠ .split type := by
    rintro type rfl
    rw [(object_of_split hv).1] at hform
    cases hform
  unfold Item.target?
  rw [hitem, Verdict.apply_references hsplit]

/-- Once items are classified, an item has its arity from the one that classifying has looked at. -/
theorem ClassifiedFrom.arityStep_eq (h : t.ClassifiedFrom t') (hx : x.index < t.size) :
    t'.arityStep x = t.declaredArityStep x := by
  obtain ⟨v, c, hv, hitem, _⟩ := h.old x hx
  have harity : (t'.item x).arity = (t.item x).arity := by rw [hitem, v.apply_arity]
  have hform : (t'.item x).form = (t.item x).form := by rw [hitem, v.apply_form]
  unfold declaredArityStep
  dsimp only
  cases ha : (t.item x).arity with
  | some a => exact arityStep_of_known (harity.trans ha)
  | none =>
    dsimp only
    have hnone := harity.trans ha
    by_cases hk : (t'.item x).kind = some .reference
    · have hregular := h.refined.wellFormed.regular
      obtain ⟨hd, halternatives, _⟩ := (hregular.items x).suits _ hk
      obtain ⟨y, hxy⟩ := hregular.refers hk
      obtain ⟨hd', halternatives', htarget⟩ := h.target_eq hx hd
      rw [arityStep_of_refers hnone hxy, if_pos ⟨hd', halternatives'.symm.trans halternatives⟩,
        ← htarget, hxy.2]
    · rw [arityStep_of_ne hnone hk]
      split
      · next hd =>
        split
        · next y htarget =>
          -- a link without an arity would have turned out to be a reference
          rw [verdict_of_link hd.1 hd.2 htarget] at hv
          obtain rfl := linkVerdict_of_no_arity ha hv
          exact absurd (congrArg Item.kind hitem) hk
        · rfl
      · rfl

/-- An item comes to the arity that classifying has looked ahead for. -/
theorem ClassifiedFrom.ends_arity (h : t.ClassifiedFrom t') (ht : t.Regular)
    (hx : x.index < t.size) (hend : Ends t'.arityStep x a) : t.declaredArity x = .ok a := by
  rw [declaredArity_eq_ok_iff]
  refine hend.congr_on (P := fun x => x.index < t.size) (fun y hy => (h.arityStep_eq hy).symm)
    (fun y z hy hyz => ?_) hx
  rw [h.arityStep_eq hy] at hyz
  unfold declaredArityStep at hyz
  dsimp only at hyz
  split at hyz
  · cases hyz
  · split at hyz
    · split at hyz
      · next htarget =>
        cases hyz
        refine (ht.references y z ?_).1
        rw [target?_eq_some htarget]
        exact List.mem_singleton_self _
      · cases hyz
    · cases hyz

/-! ### Lists -/

/-- There is an entry that says that the arity of the target is refined, and reads as true. -/
def RefinesArity (metadata : Metadata) : Prop :=
  ∃ entry value, metadata.find? Key.refinesArity = some entry ∧
    AttributeType.bool.convert entry.value = .ok value ∧ value.asBool? = some true

/-- An item was given an arity that allows for more than one, so does `arity`, which is that of its
target, and the item does not say that it refines that. -/
structure Collects (t : ItemTree) (x : ItemId) (arity : Option Arity) : Prop where
  given : (t.item x).hasExplicitArity
  collection : (t.item x).arity.any Arity.isCollection
  target : arity.any Arity.isCollection
  keeps : ¬RefinesArity (t.item x).metadata

theorem refinesArity_iff {metadata : Metadata} {refines : Bool}
    (h : readRefinesArity metadata = .ok refines) : RefinesArity metadata ↔ refines = true := by
  unfold readRefinesArity at h
  unfold RefinesArity
  cases hf : metadata.find? Key.refinesArity with
  | none =>
    rw [hf] at h
    cases h
    simp
  | some entry =>
    rw [hf] at h
    dsimp only at h
    cases hc : AttributeType.bool.convert entry.value with
    | error fault =>
      rw [hc] at h
      cases h
    | ok value =>
      rw [hc] at h
      cases h
      cases hb : value.asBool? <;> simp [hc, hb]

/-- A link turns out to be a list if it collects what it looks ahead to, and a reference if not. -/
theorem linkVerdict_cases {v : Verdict} (hv : t.linkVerdict x y = some v) :
    v = .list ∧ t.Collects x (t.declaredArity y).toOption ∨
      v = .reference ∧ ¬t.Collects x (t.declaredArity y).toOption := by
  obtain ⟨list, hlist, rfl⟩ := Option.map_eq_some_iff.1 hv
  obtain ⟨refines, hrefines, hlist⟩ := bind_eq_ok (eq_ok_of_toOption hlist)
  have hiff := refinesArity_iff hrefines
  unfold isList at hlist
  dsimp only at hlist
  split at hlist
  · next hexplicit =>
    rw [Bool.and_eq_true] at hexplicit
    obtain ⟨b, hb, rfl⟩ := map_eq_ok hlist
    rw [hb]
    cases hcollection : b.isCollection && !refines with
    | true =>
      rw [Bool.and_eq_true, Bool.not_eq_true'] at hcollection
      refine .inl ⟨rfl, hexplicit.1, hexplicit.2, hcollection.1, fun hn => ?_⟩
      exact absurd (hiff.1 hn) (by rw [hcollection.2]; exact Bool.false_ne_true)
    | false =>
      refine .inr ⟨rfl, fun hc => ?_⟩
      have hcollects : b.isCollection = true := hc.target
      rw [hcollects, Bool.true_and, Bool.not_eq_false'] at hcollection
      exact hc.keeps (hiff.2 hcollection)
  · next hexplicit =>
    cases hlist
    exact .inr ⟨rfl, fun hc => hexplicit (by rw [hc.given, hc.collection]; rfl)⟩

/-! ### The arities of a resolved tree -/

/-- Where the items of a resolved tree have their arities from. -/
structure AritiesFrom (t r : ItemTree) : Prop where
  all : ∀ x, x.index < r.size → ∃ a, (r.item x).arity = some a
  /-- What is given stays, and nothing else counts as given. -/
  given : ∀ x, (r.item x).hasExplicitArity = (t.item x).hasExplicitArity ∧
    ((t.item x).hasExplicitArity → (r.item x).arity = (t.item x).arity)
  references : ∀ x, (r.item x).kind = some .reference → (r.item x).hasExplicitArity = false →
    ∃ y, r.Refers x y ∧ (r.item x).arity = (r.item y).arity
  others : ∀ x, x.index < r.size → (r.item x).kind ≠ some .reference →
    (r.item x).hasExplicitArity = false → (r.item x).arity = some .one
  /-- A declaration of one item is a list of it, or a reference to it. -/
  links : ∀ x y, (r.item x).form = .declaration → (r.item x).alternatives = [] →
    (r.item x).target? = some (.item y) →
      (r.item x).kind = some .list ∧ t.Collects x (r.item y).arity ∨
      (r.item x).kind = some .reference ∧ ¬t.Collects x (r.item y).arity

namespace Passage

variable (h : Passage plugin options t t₁ t₂ t₃ m r)
include h

theorem hasExplicitArity_eq (x : ItemId) :
    (r.item x).hasExplicitArity = (t₂.item x).hasExplicitArity := by
  rw [h.tallies.hasExplicitArity x]
  exact h.settledFrom.field Item.hasExplicitArity (fun _ _ => rfl) x

theorem arity_eq (hx : x.index < r.size) :
    ∃ a, Ends t₂.arityStep x a ∧ (r.item x).arity = some a := by
  obtain ⟨a, hend, hitem⟩ := h.settledFrom.item x (h.alike_classified.size ▸ hx)
  refine ⟨a, hend, (h.tallies.arity x).trans ?_⟩
  rw [hitem]
  rfl

/-- Every item that is there when classifying begins gets the arity that is looked ahead for. -/
theorem declaredArity_eq (hx : x.index < t₁.size) : ∃ a, t₁.declaredArity x = .ok a ∧
    (r.item x).arity = some a := by
  obtain ⟨a, hend, ha⟩ := h.arity_eq (h.lt_size hx)
  exact ⟨a, h.classifiedFrom.ends_arity h.refined_bound.wellFormed.regular hx hend, ha⟩

section Declared

variable (ht : t.Declared)
include ht

/-- An item that is classified has the arity that it was given. -/
theorem given_eq (x : ItemId) : (t₂.item x).arity = (t.item x).arity ∧
    (t₂.item x).hasExplicitArity = (t.item x).hasExplicitArity := by
  have hw := ht.reachable.wellFormed.rooted
  have hb := boundFrom_of_bindNames hw h.bound
  suffices hbound : (t₁.item x).arity = (t.item x).arity ∧
      (t₁.item x).hasExplicitArity = (t.item x).hasExplicitArity by
    by_cases hx : x.index < t₁.size
    · obtain ⟨v, c, _, hitem, _⟩ := h.classifiedFrom.old x hx
      rwa [hitem, v.apply_arity, v.apply_hasExplicitArity]
    · obtain ⟨harity, hexplicit, _⟩ := h.classifiedFrom.given_new (Nat.le_of_not_lt hx)
      rw [item_of_size_le (Nat.le_of_not_lt hx)] at hbound
      rw [harity, hexplicit]
      exact hbound
  by_cases hx : x.index < t.size
  · exact ⟨hb.field Item.arity (fun _ _ _ => rfl) (fun _ => rfl) hx,
      hb.field Item.hasExplicitArity (fun _ _ _ => rfl) (fun _ => rfl) hx⟩
  · obtain ⟨harity, hexplicit⟩ := hb.given_new hw (Nat.le_of_not_lt hx)
    rw [harity, hexplicit, item_of_size_le (Nat.le_of_not_lt hx)]
    exact ⟨rfl, rfl⟩

theorem arity_eq_none (hx : (r.item x).hasExplicitArity = false) : (t₂.item x).arity = none := by
  rw [h.hasExplicitArity_eq] at hx
  obtain ⟨harity, hexplicit⟩ := h.given_eq ht x
  exact harity.trans (ht.onlyGiven.arity_eq_none (hexplicit.symm.trans hx))

/-- A declaration whose target is an item has turned out to be what was looked ahead to. -/
theorem link (hform : (r.item x).form = .declaration) (halternatives : (r.item x).alternatives = [])
    (htarget : (r.item x).target? = some (.item y)) :
    (r.item x).kind = some .list ∧ t.Collects x (r.item y).arity ∨
      (r.item x).kind = some .reference ∧ ¬t.Collects x (r.item y).arity := by
  have halike := h.alike_classified
  rw [halike.field Item.form fun _ => rfl] at hform
  rw [halike.field Item.alternatives fun _ => rfl] at halternatives
  rw [halike.field Item.target? fun _ => rfl] at htarget
  rw [halike.field Item.kind fun _ => rfl]
  have hx : x.index < t₁.size := by
    by_contra hn
    exact (h.classifiedFrom.given_new (Nat.le_of_not_lt hn)).2.2.2 y htarget
  obtain ⟨hform₁, halternatives₁, htarget₁⟩ := h.classifiedFrom.target_eq hx hform
  rw [halternatives₁] at halternatives
  rw [htarget₁] at htarget
  have hy : y.index < t₁.size := by
    refine (h.refined_bound.wellFormed.regular.references x y ?_).1
    rw [target?_eq_some htarget]
    exact List.mem_singleton_self _
  obtain ⟨a, hahead, ha⟩ := h.declaredArity_eq hy
  have hcollects : t₁.Collects x (t₁.declaredArity y).toOption ↔ t.Collects x (r.item y).arity := by
    rw [hahead, ha]
    have hw := ht.reachable.wellFormed.rooted
    have hb := boundFrom_of_bindNames hw h.bound
    by_cases hxt : x.index < t.size
    · have harity := hb.field Item.arity (fun _ _ _ => rfl) (fun _ => rfl) hxt
      have hexplicit := hb.field Item.hasExplicitArity (fun _ _ _ => rfl) (fun _ => rfl) hxt
      have hmetadata := hb.metadata hxt
      exact ⟨fun hc => ⟨hexplicit ▸ hc.given, harity ▸ hc.collection, hc.target,
          hmetadata ▸ hc.keeps⟩, fun hc => ⟨hexplicit ▸ hc.given, harity ▸ hc.collection,
          hc.target, hmetadata ▸ hc.keeps⟩⟩
    · have hnew := (hb.given_new hw (Nat.le_of_not_lt hxt)).2
      refine ⟨fun hc => ?_, fun hc => ?_⟩
      · exact absurd (hc.given.symm.trans hnew) (by simp)
      · have hgiven := hc.given
        rw [item_of_size_le (Nat.le_of_not_lt hxt)] at hgiven
        cases hgiven
  rw [← hcollects]
  obtain ⟨v, c, hv, hitem, _⟩ := h.classifiedFrom.old x hx
  rw [hitem]
  rw [verdict_of_link hform₁ halternatives htarget] at hv
  rcases linkVerdict_cases hv with ⟨rfl, hc⟩ | ⟨rfl, hc⟩
  · exact .inl ⟨rfl, hc⟩
  · exact .inr ⟨rfl, hc⟩

theorem aritiesFrom : t.AritiesFrom r where
  all x hx := by
    obtain ⟨a, _, ha⟩ := h.arity_eq hx
    exact ⟨a, ha⟩
  given x := by
    obtain ⟨harity, hexplicit⟩ := h.given_eq ht x
    refine ⟨(h.hasExplicitArity_eq x).trans hexplicit, fun hgiven => ?_⟩
    obtain ⟨a, ha⟩ := Option.isSome_iff_exists.1 ((ht.onlyGiven x).trans hgiven)
    have hx : x.index < r.size := by
      rw [h.alike_classified.size]
      by_contra hn
      rw [ha, item_of_size_le (Nat.le_of_not_lt hn)] at harity
      cases harity
    obtain ⟨b, hend, hb⟩ := h.arity_eq hx
    obtain rfl := hend.unique (.halt (arityStep_of_known (harity.trans ha)))
    exact hb.trans ha.symm
  references x hk hexplicit := by
    obtain ⟨y, hxy⟩ := h.resolved.wellFormed.regular.refers hk
    have hxy₂ : t₂.Refers x y :=
      ⟨(h.alike_classified.field Item.kind (fun _ => rfl) x).symm.trans hxy.1,
        (h.alike_classified.field Item.target? (fun _ => rfl) x).symm.trans hxy.2⟩
    obtain ⟨a, hend, ha⟩ := h.arity_eq (lt_size_of_kind hk)
    obtain ⟨b, hend', hb⟩ := h.arity_eq (h.resolved.wellFormed.regular.lt_of_refers hxy)
    have hstep := arityStep_of_refers (h.arity_eq_none ht hexplicit) hxy₂
    obtain rfl := hend.unique (.go hstep hend')
    exact ⟨y, hxy, ha.trans hb.symm⟩
  others x hx hk hexplicit := by
    obtain ⟨a, hend, ha⟩ := h.arity_eq hx
    rw [h.alike_classified.field Item.kind fun _ => rfl] at hk
    obtain rfl := hend.unique (.halt (arityStep_of_ne (h.arity_eq_none ht hexplicit) hk))
    exact ha
  links x y hform halternatives htarget := h.link ht hform halternatives htarget

end Declared

end Passage

/-- **Arities and lists agree.** A freshly declared tree that is resolved has an arity for every
item: the one that was given, that of the target for a reference without one, and exactly one for
everything else. A declaration whose target is an item is a list of it if it collects what the
target occurs as in the end, and a reference to it if not; for every item that is bound, classifying
has looked ahead for the arity that it gets. -/
theorem resolve_arities (h : t.Declared) (hr : t.resolve plugin options = .ok r) :
    t.AritiesFrom r ∧ ∃ bound, t.bindNames = .ok bound ∧ ∀ x, x.index < bound.size →
      ∃ a, bound.declaredArity x = .ok a ∧ (r.item x).arity = some a := by
  obtain ⟨t₁, t₂, t₃, m, hp⟩ := passage_of_resolve h hr
  exact ⟨hp.aritiesFrom h, t₁, hp.bound, fun x hx => hp.declaredArity_eq hx⟩

/-- A collection, an alias of it, and two declarations of many of the alias, where the second one
says that it refines the arity. -/
def manyOfAlias : ItemTree :=
  (((((ofSource "").push root ((Item.object (some "leaf")).withBase "string")).push root
    ((Item.declaration (some "leaves") "leaf").withArity .zeroOrMore)).push root
    (Item.declaration (some "alias") "leaves")).push root
    ((Item.declaration (some "table") "alias").withArity .zeroOrMore)).push root
    (((Item.declaration (some "refined") "alias").withArity .zeroOrMore).withMetadata
      Key.refinesArity (.bool true))

/-- The first one is a list, the second one a reference like the alias. -/
theorem manyOfAlias_collects :
    manyOfAlias.Declared ∧ ∃ r,
      manyOfAlias.resolve { name := "any", capabilities := .allElements } {} = .ok r ∧
      [2, 3, 4, 5].map (fun k => (r.item ⟨k⟩).kind) =
        [some .reference, some .reference, some .list, some .reference] ∧
      manyOfAlias.AritiesFrom r ∧ ∃ bound, manyOfAlias.bindNames = .ok bound ∧
        ∀ x, x.index < bound.size →
          ∃ a, bound.declaredArity x = .ok a ∧ (r.item x).arity = some a := by
  have hleaf := (Item.Declared.object (some "leaf")).withBase "string"
  have hleaves := (Item.Declared.declaration (some "leaves") "leaf").withArity .zeroOrMore
  have halias := Item.Declared.declaration (some "alias") "leaves"
  have htable := (Item.Declared.declaration (some "table") "alias").withArity .zeroOrMore
  have hrefined := ((Item.Declared.declaration (some "refined") "alias").withArity
    .zeroOrMore).withMetadata Key.refinesArity (.bool true)
  have hdeclared : manyOfAlias.Declared :=
    (((((Declared.source "").push (p := root) (by decide) hleaf).push (p := root) (by decide)
      hleaves).push (p := root) (by decide) halias).push (p := root) (by decide) htable).push
      (p := root) (by decide) hrefined
  have hkinds :
      (manyOfAlias.resolve { name := "any", capabilities := .allElements } {}).toOption.map
        (fun r => [2, 3, 4, 5].map fun k => (r.item ⟨k⟩).kind) =
          some [some .reference, some .reference, some .list, some .reference] := by
    decide +kernel
  cases hr : manyOfAlias.resolve { name := "any", capabilities := .allElements } {} with
  | error e =>
    rw [hr] at hkinds
    cases hkinds
  | ok r =>
    rw [hr] at hkinds
    exact ⟨hdeclared, r, rfl, Option.some.inj hkinds, resolve_arities hdeclared hr⟩

end ItemTree
end Schemata
