import Schemata.Compilation
import Schemata.Proofs.Fold

/-! What the lenient options change.

Two options turn a failure into a warning, for an attribute and for an extension that
are not supported. A compilation with them and one without take the same steps until
the strict one comes to such a failure. If it never does, both end in the same way. -/
namespace Schemata

/-! ### Computations in step -/

/-- It yields something, or fails for something that no option can turn into a warning. -/
def Firm {α : Type} (x : Except Failure α) : Prop :=
  ∀ failure, x = .error failure → failure.code.isFilterable = false

/-- The lenient computation does the same as the strict one, if that is firm. -/
def InStep {α : Type} (strict lenient : Except Failure α) : Prop := Firm strict → lenient = strict

section Steps

variable {α β σ ι : Type}

theorem firm_ok (a : α) : Firm (.ok a : Except Failure α) := fun _ h => by cases h

theorem firm_error_iff {failure : Failure} :
    Firm (.error failure : Except Failure α) ↔ failure.code.isFilterable = false :=
  ⟨fun h => h failure rfl, fun h _ he => by cases he; exact h⟩

theorem not_firm_error {failure : Failure} (h : failure.code.isFilterable = true) :
    ¬Firm (.error failure : Except Failure α) := fun hfirm =>
  absurd (firm_error_iff.1 hfirm) (by simp [h])

theorem Firm.of_bind {x : Except Failure α} {f : α → Except Failure β} (h : Firm (x >>= f)) :
    Firm x := fun failure hx => h failure (by rw [hx]; rfl)

theorem firm_map_iff {x : Except Failure α} {f : α → β} : Firm (x.map f) ↔ Firm x := by
  cases x with
  | error failure => exact firm_error_iff.trans firm_error_iff.symm
  | ok a => exact ⟨fun _ => firm_ok a, fun _ => firm_ok (f a)⟩

theorem InStep.refl (x : Except Failure α) : InStep x x := fun _ => rfl

theorem InStep.map {x x' : Except Failure α} (h : InStep x x') (f : α → β) :
    InStep (x.map f) (x'.map f) := fun hfirm => by rw [h (firm_map_iff.1 hfirm)]

/-- A strict computation that goes on has not failed so far, and neither has the lenient one. -/
theorem InStep.bind {x x' : Except Failure α} {f f' : α → Except Failure β} (hx : InStep x x')
    (hf : ∀ a, InStep (f a) (f' a)) : InStep (x >>= f) (x' >>= f') := fun h => by
  rw [hx h.of_bind]
  cases x with
  | error failure => rfl
  | ok a => exact hf a h

theorem inStep_foldlM {f f' : σ → ι → Except Failure σ} (h : ∀ s x, InStep (f s x) (f' s x))
    (l : List ι) (s : σ) : InStep (l.foldlM f s) (l.foldlM f' s) := by
  induction l generalizing s with
  | nil => exact .refl _
  | cons x rest ih =>
    rw [List.foldlM_cons, List.foldlM_cons]
    exact (h s x).bind ih

end Steps

/-- The same configuration with every failure a failure. -/
def Options.strict (options : Options) : Options :=
  { options with filterExtensions := false, filterAttributes := false }

/-! ### The two steps that the options are about -/

theorem Item.inStep_dropUnknown (i : Item) (options : Options) (name : String) :
    InStep (i.dropUnknown options.strict name) (i.dropUnknown options name) := fun hfirm => by
  unfold dropUnknown at hfirm ⊢
  dsimp only [Options.strict] at hfirm ⊢
  cases hunknown : (i.metadata.filter fun key _ => !i.schema.contains key).entries with
  | nil => cases options.filterAttributes <;> rfl
  | cons e rest =>
    -- the strict run fails here, for an attribute that is not supported
    rw [hunknown] at hfirm
    exact absurd hfirm (not_firm_error rfl)

theorem Item.inStep_admitMetadata (i : Item) (options : Options) (name : String) :
    InStep (i.admitMetadata options.strict name) (i.admitMetadata options name) :=
  (InStep.refl _).bind fun _ => (i.inStep_dropUnknown options name).bind fun _ => .refl _

namespace ItemTree

variable (t : ItemTree) (plugin : Plugin) (options : Options)

theorem inStep_admitEntries (id : ItemId) :
    InStep (t.admitEntries options.strict id) (t.admitEntries options id) := by
  unfold admitEntries
  dsimp only
  split
  · exact .refl _
  · exact ((t.item id).inStep_admitMetadata options (t.qualifiedName id)).map _

theorem inStep_admitExtension (id : ItemId) :
    InStep (t.admitExtension plugin options.strict id) (t.admitExtension plugin options id) := by
  unfold admitExtension
  dsimp only [Options.strict]
  split
  · exact .refl _
  · -- the strict run fails here, for an extension that is not supported
    exact fun hfirm => absurd hfirm (not_firm_error rfl)

/-! ### Whole runs -/

theorem inStep_admitItem (id : ItemId) :
    InStep (admitItem plugin options.strict t id) (admitItem plugin options t id) := by
  unfold admitItem
  split
  · exact .refl _
  · exact (InStep.refl _).bind fun _ => (InStep.refl _).bind fun _ => (InStep.refl _).bind fun _ =>
      (t.inStep_admitEntries options id).bind fun t₁ => (InStep.refl _).bind fun _ =>
        (InStep.refl _).bind fun _ => (t₁.inStep_admitExtension plugin options id).bind fun _ =>
          .refl _

theorem inStep_admitAll :
    InStep (t.admitAll plugin options.strict) (t.admitAll plugin options) :=
  inStep_foldlM (fun t => t.inStep_admitItem plugin options) t.walk t

/-- The tree is resolved with the configuration alone, and built without any options. -/
theorem inStep_compileTree :
    InStep (t.compileTree plugin options.strict) (t.compileTree plugin options) :=
  (InStep.refl _).bind fun r => (r.inStep_admitAll plugin options).bind fun _ => .refl _

variable {t plugin options}

/-- **Leniency changes nothing else.** If a strict compilation yields a graph, or fails for
something other than an unsupported attribute or extension, then a compilation with the same
configuration and any setting of the lenient options yields the same graph, or the same failure. -/
theorem compile_lenient (h : Firm (t.compile plugin options.strict)) :
    t.compile plugin options = t.compile plugin options.strict :=
  (t.inStep_compileTree plugin options).map Prod.snd h

/-- A whole number of three bytes, and after it an attribute that no declaration has. -/
def threeBytes : ItemTree :=
  ((ofSource "").push root
    ((Item.declaration (some "size") "int").withMetadata "bytes" (.int 3))).push root
    ((Item.declaration (some "flag") "bool").withMetadata "colour" (.text "red"))

/-- The size is refused first, and no leniency gets the compilation beyond it. -/
theorem threeBytes_refused :
    Firm (threeBytes.compile { name := "any", capabilities := .allElements } {}) ∧
    ∃ failure, failure.cause.code = ⟨.metadata, 3⟩ ∧
      threeBytes.compile { name := "any", capabilities := .allElements }
        { filterExtensions := true, filterAttributes := true } = .error failure := by
  have hcode : (match threeBytes.compile { name := "any", capabilities := .allElements } {} with
      | .ok _ => none
      | .error failure => some failure.code) = some ⟨.metadata, 3⟩ := by
    decide +kernel
  cases hc : threeBytes.compile { name := "any", capabilities := .allElements } {} with
  | ok c =>
    rw [hc] at hcode
    cases hcode
  | error failure =>
    rw [hc] at hcode
    have hfirm : Firm (threeBytes.compile { name := "any", capabilities := .allElements } {}) := by
      rw [hc]
      exact firm_error_iff.2 (by rw [Option.some.inj hcode]; rfl)
    refine ⟨hc ▸ hfirm, failure, Option.some.inj hcode, ?_⟩
    rw [@compile_lenient _ _ { filterExtensions := true, filterAttributes := true } hfirm]
    exact hc

end ItemTree
end Schemata
