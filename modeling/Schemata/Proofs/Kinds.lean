import Schemata.Proofs.Tree.Admitting
import Schemata.Proofs.Tree.Leading

/-! What kind of thing an object is.

An object is simple exactly if some path of references from it leads to an item
that names a fundamental type, where the references are those that its declaration
was bound to. That classifying objects changes these references on the way, and
that it finds some objects classified already and others not, makes no difference.
In an admitted tree a simple object has its value from one place only. -/
namespace Schemata.ItemTree

variable {t g r a : ItemTree} {plugin : Plugin} {options : Options} {id x y : ItemId}

/-! ### Paths to fundamental types -/

/-- Neither an extension nor a variant. -/
def Passable (t : ItemTree) (x : ItemId) : Prop :=
  (t.item x).form ≠ .extension ∧ (t.item x).alternatives = []

/-- Some path of references, on which nothing is an extension or a variant, leads to an item that
names a fundamental type. -/
def PathToFundamental (t : ItemTree) (x : ItemId) : Prop :=
  ∃ y type, Relation.ReflTransGen
      (fun a b => t.Passable a ∧ Target.item b ∈ (t.item a).references) x y ∧
    t.Passable y ∧ Target.builtin (.fundamental type) ∈ (t.item y).references

theorem isBarrier_eq_false_iff : t.isBarrier x = false ↔ t.Passable x := by
  unfold isBarrier Item.isExtension Passable
  simp

theorem mem_referred_iff :
    y ∈ t.referred x ↔ t.Passable x ∧ Target.item y ∈ (t.item x).references := by
  rw [← isBarrier_eq_false_iff]
  unfold referred
  cases t.isBarrier x with
  | true => simp
  | false => simp [mem_itemReferences]

theorem namesFundamental_iff : t.namesFundamental x ↔
    t.Passable x ∧ ∃ type, Target.builtin (.fundamental type) ∈ (t.item x).references := by
  rw [← isBarrier_eq_false_iff]
  unfold namesFundamental
  rw [Bool.and_eq_true, Bool.not_eq_true', List.any_eq_true]
  refine and_congr_right fun _ => ⟨fun ⟨target, hmem, hb⟩ => ?_, fun ⟨type, hmem⟩ => ⟨_, hmem, rfl⟩⟩
  cases target with
  | item y => cases hb
  | builtin b =>
    cases b with
    | fundamental type => exact ⟨type, hmem⟩
    | any | custom => cases hb

/-- Before anything is classified, what leads to a scalar has a path to a fundamental type. -/
theorem leadsToScalar_iff (hk : ∀ y, (t.item y).kind = none) :
    t.LeadsToScalar x ↔ t.PathToFundamental x := by
  unfold LeadsToScalar PathToFundamental HasScalar Path
  simp only [mem_referred_iff, namesFundamental_iff, hk]
  constructor
  · rintro ⟨y, hxy, hs | ⟨hy, type, hmem⟩⟩
    · cases hs
    · exact ⟨y, type, hxy, hy, hmem⟩
  · rintro ⟨y, type, hxy, hy, hmem⟩
    exact ⟨y, hxy, .inr ⟨hy, type, hmem⟩⟩

/-! ### Classification -/

/-- Once everything is classified, an object is simple or compound, as it leads to a scalar or
not. -/
theorem Resolved.simple_iff (h : r.Resolved) (hs : r.Separated) (hid : id.index < r.size)
    (hform : (r.item id).form = .object) :
    ((r.item id).kind = some .simple ↔ r.LeadsToScalar id) ∧
      ((r.item id).kind = some .compound ↔ ¬r.LeadsToScalar id) := by
  obtain ⟨k, hk⟩ := h.kinds id hid
  have hsuits := (h.wellFormed.regular.items id).suits k hk
  have hsimple : (r.item id).kind = some .simple → r.LeadsToScalar id := fun hk =>
    ⟨id, .refl, .inl hk⟩
  have hcases : k = .simple ∨ k = .compound := by
    cases k with
    | simple => exact .inl rfl
    | compound => exact .inr rfl
    | extension =>
      rw [Item.Suits, hform] at hsuits
      cases hsuits
    | _ =>
      have hdeclared := hsuits.1
      rw [hform] at hdeclared
      cases hdeclared
  rcases hcases with rfl | rfl
  · refine ⟨iff_of_true hk (hsimple hk), iff_of_false (by simp [hk]) (not_not.2 (hsimple hk))⟩
  · have hnot := hs.not_leadsToScalar hk
    exact ⟨iff_of_false (by simp [hk]) hnot, iff_of_true hk hnot⟩

/-- A resolution adds no object once names are bound, and changes for no item whether it leads to a
scalar. -/
theorem leadsToScalar_resolve (h : t.WellFormed) (hok : t.resolve plugin options = .ok r) :
    ∃ g, t.bindNames = .ok g ∧ (∀ x, (g.item x).kind = (t.item x).kind) ∧
      (∀ x, x.index < r.size → (r.item x).form = .object → x.index < g.size) ∧
      ∀ x, x.index < g.size → (r.LeadsToScalar x ↔ g.LeadsToScalar x) := by
  obtain ⟨g, t₂, t₃, t₄, hs⟩ := stages_of_resolve h hok
  have ha := hs.alike
  obtain ⟨hnew, hiff⟩ :=
    leadsToScalar_classify hs.refined_bound.wellFormed hs.allBound hs.classified
  refine ⟨g, hs.bound, fun x => by simpa [hs.bound, leftBy] using kind_bindNames h x,
    fun x hx hform => ?_, fun x hx => ha.leadsToScalar.trans (hiff x hx)⟩
  by_contra hn
  rw [ha.size] at hx
  rw [ha.field Item.form fun _ => rfl, hnew x (Nat.le_of_not_lt hn) hx] at hform
  cases hform

/-! ### Values -/

/-- A simple object of an admitted tree has its value from one place. -/
theorem value_of_simple (h : r.Resolved) (ha : r.admitAll plugin options = .ok a)
    (hk : (a.item id).kind = some .simple) :
    (a.syntheticChild id).isSome ∧ a.simpleSources id = [] ∨
      a.syntheticChild id = none ∧ (a.simpleSources id).length = 1 := by
  obtain ⟨halike, hadmitted⟩ := admitted_of_admitAll h ha
  have hk' : (r.item id).kind = some .simple :=
    (halike.field Item.kind (fun _ => rfl) id).symm.trans hk
  have hform : (r.item id).form = .object := (h.wellFormed.regular.items id).suits _ hk'
  have hle := valueSources_admitAll (fun id => (h.wellFormed.regular.items id).ignored) ha
    (h.wellFormed.rooted.mem_walk_iff.2 (lt_size_of_kind hk'))
    (by unfold Item.isExtension; rw [hform]; rfl) hk'
  unfold valueSources at hle
  cases hs : a.syntheticChild id with
  | some child =>
    rw [hs] at hle
    refine .inl ⟨rfl, List.length_eq_zero_iff.1 ?_⟩
    simpa using hle
  | none =>
    rw [hs] at hle
    refine .inr ⟨rfl, ?_⟩
    rcases hadmitted.resolved.wellFormed.grounded id hk with hchild | ⟨y, hy, hg⟩
    · rw [hs] at hchild
      cases hchild
    · have hregular := hadmitted.resolved.wellFormed.regular
      have hlt := (hregular.references id y (mem_itemReferences.1 hy)).1
      have hmem : y ∈ a.simpleSources id :=
        List.mem_filter.2 ⟨hy, hregular.leadsToFundamental hg hlt⟩
      exact Nat.le_antisymm hle (List.length_pos_of_mem hmem)

/-! ### All together -/

/-- **Objects are classified by where their references lead.** Once a declared tree is resolved, an
object other than the root is simple exactly if a path of the references that names were bound to
leads from it to a fundamental type, and every other object is compound. Once the tree is admitted
as well, a simple object has its value either from a synthetic child or from one source. -/
theorem resolve_kinds (h : t.Declared) (hr : t.resolve plugin options = .ok r) :
    ∃ g, t.bindNames = .ok g ∧
      (∀ id, id.index < r.size → (r.item id).form = .object →
        ((r.item id).kind = some .simple ↔ id ≠ root ∧ g.PathToFundamental id) ∧
        ((r.item id).kind = some .compound ↔ ¬(id ≠ root ∧ g.PathToFundamental id))) ∧
      ∀ a, r.admitAll plugin options = .ok a → ∀ id, (a.item id).kind = some .simple →
        (a.syntheticChild id).isSome ∧ a.simpleSources id = [] ∨
          a.syntheticChild id = none ∧ (a.simpleSources id).length = 1 := by
  have hreachable := h.reachable
  have hresolved := (resolve_ok hreachable.wellFormed hr).2
  have hseparated : r.Separated := (hreachable.of_resolve hr).separated
  obtain ⟨g, hg, hkinds, hold, hlead⟩ := leadsToScalar_resolve hreachable.wellFormed hr
  have hnone : ∀ y, (g.item y).kind = none := fun y => (hkinds y).trans (h.kind y)
  refine ⟨g, hg, fun id hid hform => ?_, fun a ha id hk => value_of_simple hresolved ha hk⟩
  have hroot : g.PathToFundamental id → id ≠ root := by
    rintro hpath rfl
    have hbound : g.Separated := by
      simpa [hg, leftBy] using
        invariant_separated.arityInvariant.bindNames hreachable.wellFormed hreachable.separated
    exact hbound.not_leadsToScalar_root (by simp [hnone]) ((leadsToScalar_iff hnone).2 hpath)
  have hiff : r.LeadsToScalar id ↔ id ≠ root ∧ g.PathToFundamental id :=
    ((hlead id (hold id hid hform)).trans (leadsToScalar_iff hnone)).trans
      ⟨fun hpath => ⟨hroot hpath, hpath⟩, And.right⟩
  obtain ⟨hsimple, hcompound⟩ := hresolved.simple_iff hseparated hid hform
  exact ⟨hsimple.trans hiff, hcompound.trans (not_congr hiff)⟩

/-- An object that is based on a simple one by an alias, both declared after it, and two objects
that are each other's base. -/
def forwardBases : ItemTree :=
  (((((ofSource "").push root ((Item.object (some "wrapper")).withBase "alias")).push root
    (Item.declaration (some "alias") "leaf")).push root
    ((Item.object (some "leaf")).withBase "string")).push root
    ((Item.object (some "left")).withBase "right")).push root
    ((Item.object (some "right")).withBase "left")

/-- The first is simple and has its value from the alias, the last two are compound. -/
theorem forwardBases_kinds :
    forwardBases.Declared ∧ ∃ r g a,
      forwardBases.resolve { name := "any", capabilities := .allElements } {} = .ok r ∧
      forwardBases.bindNames = .ok g ∧
      r.admitAll { name := "any", capabilities := .allElements } {} = .ok a ∧
      (r.item ⟨1⟩).kind = some .simple ∧ g.PathToFundamental ⟨1⟩ ∧
      (r.item ⟨4⟩).kind = some .compound ∧ ¬g.PathToFundamental ⟨4⟩ ∧
      a.syntheticChild ⟨1⟩ = none ∧ (a.simpleSources ⟨1⟩).length = 1 := by
  have hdeclared : forwardBases.Declared :=
    (((((Declared.source "").push (p := root) (by decide)
      ((Item.Declared.object (some "wrapper")).withBase "alias")).push (p := root) (by decide)
      (Item.Declared.declaration (some "alias") "leaf")).push (p := root) (by decide)
      ((Item.Declared.object (some "leaf")).withBase "string")).push (p := root) (by decide)
      ((Item.Declared.object (some "left")).withBase "right")).push (p := root) (by decide)
      ((Item.Declared.object (some "right")).withBase "left")
  have hfacts :
      ((forwardBases.resolve { name := "any", capabilities := .allElements } {}).toOption.bind
        fun r => (r.admitAll { name := "any", capabilities := .allElements } {}).toOption.map
          fun a => (r.size, [(r.item ⟨1⟩).form, (r.item ⟨4⟩).form],
            [(r.item ⟨1⟩).kind, (r.item ⟨4⟩).kind, (a.item ⟨1⟩).kind], a.syntheticChild ⟨1⟩)) =
        some (7, [.object, .object], [some .simple, some .compound, some .simple], none) := by
    decide +kernel
  refine ⟨hdeclared, ?_⟩
  cases hr : forwardBases.resolve { name := "any", capabilities := .allElements } {} with
  | error e =>
    rw [hr] at hfacts
    cases hfacts
  | ok r =>
    rw [hr] at hfacts
    cases ha : r.admitAll { name := "any", capabilities := .allElements } {} with
    | error failure =>
      simp only [Except.toOption, Option.bind_some, ha] at hfacts
      cases hfacts
    | ok a =>
      simp only [Except.toOption, Option.bind_some, Option.map_some, ha, Option.some.injEq,
        Prod.mk.injEq, List.cons.injEq, and_true] at hfacts
      obtain ⟨hsize, ⟨hform₁, hform₄⟩, ⟨hk₁, hk₄, hka⟩, hchild⟩ := hfacts
      obtain ⟨g, hg, hkinds, hvalues⟩ := resolve_kinds hdeclared hr
      have hwrapper := (hkinds ⟨1⟩ (by rw [hsize]; decide) hform₁).1.1 hk₁
      have hleft := (hkinds ⟨4⟩ (by rw [hsize]; decide) hform₄).2.1 hk₄
      refine ⟨r, g, a, rfl, hg, ha, hk₁, hwrapper.2, hk₄, fun hp => hleft ⟨by decide, hp⟩, hchild,
        ?_⟩
      rcases hvalues a ha ⟨1⟩ hka with ⟨hsome, _⟩ | ⟨_, hone⟩
      · rw [hchild] at hsome
        cases hsome
      · exact hone

end Schemata.ItemTree
