import Schemata.Proofs.Draft.Build
import Schemata.Proofs.Tree.Admitting
import Schemata.Proofs.Tree.Chains

/-! What is resolved has no circular chains.

Every chain of references of a resolved tree ends, and it goes on to do so whatever
is admitted later on. A check of an admission, and a step of a build, reports a
chain as circular only when it has looked for its end and there is none. -/
namespace Schemata

open Search

/-! ### Failures of one sort -/

/-- A chain of references is reported as circular. -/
def ReportsCycle (failure : Failure) : Prop := ∃ name, failure.cause = .circularReference name

/-- Whatever it fails for, it is not a circular chain. -/
def Uncircular {α : Type} (x : Except Failure α) : Prop :=
  ∀ failure, x = .error failure → ¬ReportsCycle failure

section Steps

variable {α β ι σ κ : Type}

theorem uncircular_ok (a : α) : Uncircular (.ok a : Except Failure α) := fun _ h => by cases h

theorem uncircular_error {failure : Failure} (h : ¬ReportsCycle failure) :
    Uncircular (.error failure : Except Failure α) := fun _ he => by
  cases he
  exact h

/-- A failure with a cause of another sort, wherever it is. -/
theorem uncircular_cause {cause : Cause} (h : ∀ name, cause ≠ .circularReference name)
    (l : Location) : Uncircular (.error (cause.at l) : Except Failure α) :=
  uncircular_error fun ⟨name, hname⟩ => h name hname

theorem Uncircular.bind {x : Except Failure α} {f : α → Except Failure β} (hx : Uncircular x)
    (hf : ∀ a, x = .ok a → Uncircular (f a)) : Uncircular (x >>= f) := fun failure h => by
  rcases bind_eq_error h with h | ⟨a, ha, h⟩
  · exact hx failure h
  · exact hf a ha failure h

theorem Uncircular.map {x : Except Failure α} (hx : Uncircular x) (f : α → β) :
    Uncircular (x.map f) := fun failure h => by
  cases x with
  | ok a => cases h
  | error e =>
    cases h
    exact hx failure rfl

theorem uncircular_forM {f : ι → Except Failure Unit} (l : List ι) (hf : ∀ x, Uncircular (f x)) :
    Uncircular (l.forM f) := fun failure h => by
  obtain ⟨x, _, hx⟩ := forM_eq_error h
  exact hf x failure hx

/-- A pass is uncircular if each step is, started from what the steps before it keep. -/
theorem uncircular_foldlM {f : σ → ι → Except Failure σ} (kept : σ → Prop) (l : List ι) {s : σ}
    (hs : kept s) (hf : ∀ s x, kept s → Uncircular (f s x))
    (hstep : ∀ s x s', kept s → f s x = .ok s' → kept s') : Uncircular (l.foldlM f s) :=
  fun failure h => by
    obtain ⟨_, x, _, s', _, hs', hx⟩ := foldlM_error (fun _ s => kept s) h hs
      fun _ x _ s s' _ hk => hstep s x s' hk
    exact hf s' x hs' failure hx

theorem uncircular_traverse [DecidableEq κ] (m : OrderedMap κ α) {f : κ → α → Except Failure α}
    (hf : ∀ k a, Uncircular (f k a)) : Uncircular (m.traverse f) :=
  uncircular_foldlM (fun _ => True) m.entries trivial
    (fun _ e _ => (hf e.1 e.2).bind fun _ _ => uncircular_ok _) fun _ _ _ _ _ => trivial

end Steps

/-! ### The metadata of an item -/

namespace Item

variable (i : Item) (options : Options) (name : String)

theorem uncircular_checkRequired : Uncircular (i.checkRequired name) :=
  uncircular_forM _ fun a => by
    split
    · exact uncircular_cause (by simp) _
    · exact uncircular_ok _

theorem uncircular_dropUnknown : Uncircular (i.dropUnknown options name) := by
  unfold dropUnknown
  dsimp only
  split
  · exact uncircular_cause (by simp) _
  · exact uncircular_ok _

theorem uncircular_typeValues : Uncircular i.typeValues := by
  refine (uncircular_traverse _ fun key entry => ?_).bind fun _ _ => uncircular_ok _
  split
  · exact uncircular_ok _
  · split
    · exact uncircular_ok _
    · exact uncircular_cause (by simp) _

theorem uncircular_checkValues : Uncircular i.checkValues :=
  uncircular_forM _ fun e => by
    split
    · exact uncircular_ok _
    · split
      · exact uncircular_ok _
      · exact uncircular_cause (by simp) _

theorem uncircular_admitMetadata : Uncircular (i.admitMetadata options name) :=
  (i.uncircular_checkRequired name).bind fun _ _ =>
    (i.uncircular_dropUnknown options name).bind fun known _ =>
      known.uncircular_typeValues.bind fun typed _ =>
        typed.uncircular_checkValues.bind fun _ _ => uncircular_ok _

end Item

namespace ItemTree

variable {t t' r : ItemTree} {plugin : Plugin} {options : Options}

/-! ### Checks that follow no chain -/

section Checks

variable (t plugin options) (id : ItemId)

theorem uncircular_checkKind : Uncircular (t.checkKind plugin id) := by
  unfold checkKind
  split
  · exact uncircular_ok _
  · split
    · exact uncircular_ok _
    · exact uncircular_cause (by simp) _

theorem uncircular_takeExtension (taken : Taken) (i : Item) :
    Uncircular (takeExtension plugin taken i) := by
  unfold takeExtension
  split
  · exact uncircular_ok _
  · split
    · exact uncircular_ok _
    · split
      · split
        · exact uncircular_ok _
        · exact uncircular_cause (by simp) _
      · exact uncircular_ok _

theorem uncircular_takeName (taken : Taken) (i : Item) : Uncircular (takeName taken i) := by
  unfold takeName
  split
  · exact uncircular_ok _
  · split
    · exact uncircular_cause (by simp) _
    · exact uncircular_ok _

theorem uncircular_checkNames : Uncircular (t.checkNames plugin id) := by
  refine (uncircular_foldlM (fun _ => True) _ trivial (fun taken i _ => ?_)
    fun _ _ _ _ _ => trivial).bind fun _ _ => uncircular_ok _
  unfold take
  split
  · exact uncircular_ok _
  · split
    · exact uncircular_takeExtension plugin taken i
    · exact uncircular_takeName taken i

theorem uncircular_checkAlternatives : Uncircular (t.checkAlternatives id) := by
  unfold checkAlternatives
  split
  · refine uncircular_forM _ fun a => ?_
    unfold checkAlternative
    dsimp only
    split
    · exact uncircular_ok _
    · exact uncircular_cause (by simp) _
  · exact uncircular_ok _

theorem uncircular_admitEntries : Uncircular (t.admitEntries options id) := by
  unfold admitEntries
  dsimp only
  split
  · exact uncircular_ok _
  · exact (Item.uncircular_admitMetadata _ options _).map _

theorem uncircular_checkSimpleBase (base : Target) : Uncircular (t.checkSimpleBase id base) := by
  unfold checkSimpleBase
  dsimp only
  split
  · split
    · exact uncircular_ok _
    · exact uncircular_cause (by simp) _
  · exact uncircular_cause (by simp) _

theorem uncircular_checkSimpleChild : Uncircular (t.checkSimpleChild id) := by
  unfold checkSimpleChild
  dsimp only
  split
  · exact uncircular_ok _
  · exact uncircular_cause (by simp) _

theorem uncircular_checkSimple : Uncircular (t.checkSimple id) := by
  unfold checkSimple
  dsimp only
  split
  · have hparts : Uncircular (do
        (t.item id).references.forM (t.checkSimpleBase id)
        (t.item id).children.forM t.checkSimpleChild) :=
      (uncircular_forM _ (t.uncircular_checkSimpleBase id)).bind fun _ _ =>
        uncircular_forM _ t.uncircular_checkSimpleChild
    split
    · exact (uncircular_cause (by simp) _ : Uncircular (Except.error _)).bind fun _ _ => hparts
    · exact hparts
  · exact uncircular_ok _

theorem uncircular_admitExtension : Uncircular (t.admitExtension plugin options id) := by
  unfold admitExtension
  dsimp only
  split
  · exact uncircular_ok _
  · split
    · exact uncircular_ok _
    · exact uncircular_cause (by simp) _

end Checks

/-! ### Checks that follow chains -/

/-- Every chain of references has an end. -/
def ChainsEnd (t : ItemTree) : Prop := ∀ id, ∃ target, t.chainEnd id = .ok target

theorem Resolved.chainsEnd (h : t.Resolved) : t.ChainsEnd := fun id =>
  have ⟨last, hends, _⟩ := h.ends id
  ⟨.item last, chainEnd_eq_ok_iff.2 hends⟩

theorem ChainsEnd.alike (h : t.ChainsEnd) (ha : t.Alike t') : t'.ChainsEnd := fun id => by
  rw [ha.chainEnd]
  exact h id

section Chains

variable (h : t.ChainsEnd)
include h

theorem ChainsEnd.uncircular (id : ItemId) : Uncircular (t.chainEnd id) := by
  obtain ⟨target, htarget⟩ := h id
  rw [htarget]
  exact uncircular_ok _

theorem uncircular_checkScalar (id : ItemId) : Uncircular (t.checkScalar id) := by
  unfold checkScalar
  dsimp only
  split
  · refine ((h.uncircular id).map _).bind fun _ _ => ?_
    split
    · exact uncircular_cause (by simp) _
    · split
      · exact uncircular_cause (by simp) _
      · exact uncircular_ok _
  · exact uncircular_ok _

theorem uncircular_checkReferences (id : ItemId) : Uncircular (t.checkReferences id) := by
  refine uncircular_forM _ fun target => (h.uncircular target).bind fun _ _ => ?_
  split
  · split
    · exact uncircular_cause (by simp) _
    · exact uncircular_ok _
  · exact uncircular_ok _

theorem uncircular_admitItem (id : ItemId) : Uncircular (admitItem plugin options t id) := by
  unfold admitItem
  split
  · exact uncircular_ok _
  refine (t.uncircular_checkKind plugin id).bind fun _ _ => ?_
  refine (t.uncircular_checkNames plugin id).bind fun _ _ => ?_
  refine (t.uncircular_checkAlternatives id).bind fun _ _ => ?_
  refine (t.uncircular_admitEntries options id).bind fun t₁ h₁ => ?_
  -- entries and extensions do not change where chains lead
  have hc₁ := h.alike (retyped_admitEntries h₁).alike
  refine (t₁.uncircular_checkSimple id).bind fun _ _ => ?_
  refine (uncircular_checkScalar hc₁ id).bind fun _ _ => ?_
  refine (t₁.uncircular_admitExtension plugin options id).bind fun t₂ h₂ => ?_
  have hc₂ := hc₁.alike (retyped_admitExtension h₂).alike
  exact (uncircular_checkReferences hc₂ id).bind fun _ _ => uncircular_ok _

theorem uncircular_admitAll (plugin : Plugin) (options : Options) :
    Uncircular (t.admitAll plugin options) :=
  uncircular_foldlM ChainsEnd _ h (fun _ id hk => uncircular_admitItem hk id) fun _ _ _ hk hstep =>
    hk.alike (retyped_admitItem hstep).alike

theorem uncircular_build (plugin : Plugin) : Uncircular (t.build plugin) := fun failure hf => by
  rintro ⟨name, hname⟩
  rcases build_error (Blueprint.closed_true _) hf with
    ⟨item, _, hfault⟩ | ⟨_, _, hc⟩ | ⟨_, hc⟩ | ⟨⟨_, hc⟩, _⟩
  · rcases Blueprint.chainEnd_of_fault hfault with ⟨_, hc⟩ | hend
    · rw [hname] at hc
      cases hc
    · exact h.uncircular item failure hend ⟨name, hname⟩
  all_goals
    rw [hname] at hc
    cases hc

end Chains

/-! ### Resolved trees -/

/-- The end of a chain of a resolved tree is an item of it that is no reference. -/
theorem Resolved.chainEnd (h : t.Resolved) {x : ItemId} (hx : x.index < t.size) :
    ∃ y k, Relation.ReflTransGen t.Refers x y ∧ (t.item y).kind = some k ∧ k ≠ .reference ∧
      t.chainEnd x = .ok (.item y) := by
  obtain ⟨y, hends, hne⟩ := h.ends x
  have hxy := h.wellFormed.regular.refers_of_ends hends
  have hy : y.index < t.size := by
    rcases hxy.cases_tail with rfl | ⟨_, _, hlast⟩
    · exact hx
    · exact h.wellFormed.regular.lt_of_refers hlast
  obtain ⟨k, hk⟩ := h.kinds y hy
  exact ⟨y, k, hxy, hk, fun he => hne (he ▸ hk), chainEnd_eq_ok_iff.2 hends⟩

/-- **No chain is circular.** From every item of a resolved tree references lead to an item that is
none, which is the end of its chain. Whatever admissions, one after another, make of the tree, no
admission and no build of it fails for a circular chain, whichever plugin and options it is for. -/
theorem resolve_uncircular (h : t.Reachable) (hr : t.resolve plugin options = .ok r) :
    (∀ x, x.index < r.size → ∃ y k, Relation.ReflTransGen r.Refers x y ∧
      (r.item y).kind = some k ∧ k ≠ .reference ∧ r.chainEnd x = .ok (.item y)) ∧
    r.Retyped r ∧ ∀ a, r.Retyped a → ∀ plugin, Uncircular (a.build plugin) ∧
      ∀ options, Uncircular (a.admitAll plugin options) ∧
        ∀ a', a.admitAll plugin options = .ok a' → r.Retyped a' := by
  have hresolved := (resolve_ok h.wellFormed hr).2
  refine ⟨fun x hx => hresolved.chainEnd hx, .refl r, fun a ha plugin => ?_⟩
  have hends := hresolved.chainsEnd.alike ha.alike
  exact ⟨uncircular_build hends plugin, fun options => ⟨uncircular_admitAll hends plugin options,
    fun _ hok => ha.trans (retyped_admitAll hok)⟩⟩

/-- A simple object, an alias of it and an alias of the alias. -/
def aliasOfAlias : ItemTree :=
  (((ofSource "").push root ((Item.object (some "leaf")).withBase "string")).push root
    (Item.declaration (some "near") "leaf")).push root (Item.declaration (some "far") "near")

/-- Both aliases are references of the resolved tree, and lead on. -/
theorem aliasOfAlias_uncircular :
    aliasOfAlias.Reachable ∧ ∃ r,
      aliasOfAlias.resolve { name := "any", capabilities := .allElements } {} = .ok r ∧
      r.ids.filter (fun x => (r.item x).kind = some .reference) = [⟨2⟩, ⟨3⟩] ∧
      (∀ x, x.index < r.size → ∃ y k, Relation.ReflTransGen r.Refers x y ∧
        (r.item y).kind = some k ∧ k ≠ .reference ∧ r.chainEnd x = .ok (.item y)) ∧
      r.Retyped r ∧ ∀ a, r.Retyped a → ∀ plugin, Uncircular (a.build plugin) ∧
        ∀ options, Uncircular (a.admitAll plugin options) ∧
          ∀ a', a.admitAll plugin options = .ok a' → r.Retyped a' := by
  have hleaf := (Item.Declared.object (some "leaf")).withBase "string"
  have hnear := Item.Declared.declaration (some "near") "leaf"
  have hfar := Item.Declared.declaration (some "far") "near"
  have hreachable : aliasOfAlias.Reachable :=
    (((Reachable.source "").push (p := root) (by decide) hleaf).push (p := root) (by decide)
      hnear).push (p := root) (by decide) hfar
  have hreferences :
      (aliasOfAlias.resolve { name := "any", capabilities := .allElements } {}).toOption.map
        (fun r => r.ids.filter fun x => (r.item x).kind = some .reference) =
          some [⟨2⟩, ⟨3⟩] := by decide +kernel
  cases hr : aliasOfAlias.resolve { name := "any", capabilities := .allElements } {} with
  | error e =>
    rw [hr] at hreferences
    cases hreferences
  | ok r =>
    rw [hr] at hreferences
    exact ⟨hreachable, r, rfl, Option.some.inj hreferences, resolve_uncircular hreachable hr⟩

end ItemTree
end Schemata
