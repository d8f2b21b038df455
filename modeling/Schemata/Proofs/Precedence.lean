import Schemata.Proofs.Coverage
import Schemata.Proofs.Inheritance
import Schemata.Proofs.Kinds
import Schemata.Proofs.Tree.Entries
import Schemata.Proofs.Tree.Meanings
import Schemata.Proofs.Types

/-! Written entries and configured ones.

What is written on an item is the value that its element has, whatever the
configuration says, with one exception. An object that names a fundamental type hands
the constraints of that type over to its synthetic child before configured values are
filled in. So the object looks as if it left them open, and takes a configured value
for such a constraint rather than the one that was written on it. -/
namespace Schemata.ItemTree

variable {t t₁ t₂ t₃ m r a : ItemTree} {plugin : Plugin} {options : Options} {x y : ItemId}
  {key : String} {entry : Entry} {type : Fundamental} {c : Compiled}

/-! ### Which value decides -/

/-- An object that hands an entry over with its fundamental type. -/
def handsOver (t : ItemTree) (x : ItemId) (key : String) : Bool :=
  (t.item x).form = .object && (t.ownFundamentals x).any (·.hasAttribute key)

/-- The value that decides for an entry that is written on an item: the written one, unless the
item hands the entry over and there is a configured value. -/
def decidingValue (t : ItemTree) (values : OrderedMap String Value) (x : ItemId) (key : String)
    (written : Value) : Value :=
  if t.handsOver x key then (values.find? key).getD written else written

/-- The name is no constraint. -/
theorem ne_name_of_hasAttribute (h : type.hasAttribute key) : key ≠ Key.name := by
  rintro rfl
  cases type <;> exact absurd h (by decide)

theorem Regular.namesFundamental_of_mem (h : t.Regular) (hform : (t.item x).form = .object)
    (hmem : type ∈ t.ownFundamentals x) : t.namesFundamental x := by
  obtain ⟨target, htarget, he⟩ := List.mem_filterMap.1 hmem
  unfold namesFundamental
  rw [h.isBarrier_of_object hform]
  refine List.any_eq_true.2 ⟨target, htarget, ?_⟩
  cases target with
  | item y => cases he
  | builtin b => exact Option.isSome_iff_exists.2 ⟨type, he⟩

/-- An object with a synthetic child that is admitted takes its value over from nothing else. -/
theorem simpleSources_of_syntheticChild (hr : r.Resolved) (ha : r.admitAll plugin options = .ok a)
    (hy : r.syntheticChild x = some y) : r.simpleSources x = [] := by
  obtain ⟨hmem, hsynthetic⟩ := hr.wellFormed.syntheticChild_eq_some_iff.1 hy
  obtain ⟨p, hp, hk, _⟩ := hr.wellFormed.regular.synthetic y hsynthetic
  have hlisted := (hr.wellFormed.rooted.listed x y (List.mem_append_right _ hmem)).2
  obtain rfl : p = x := Option.some.inj (hp.symm.trans hlisted)
  have halike := (retyped_admitAll ha).alike
  have hvalue := value_of_simple hr ha ((halike.field Item.kind (fun _ => rfl) p).trans hk)
  rw [halike.syntheticChild, halike.simpleSources, hy] at hvalue
  rcases hvalue with ⟨_, hnil⟩ | ⟨hnone, _⟩
  · exact hnil
  · cases hnone

/-! ### From pass to pass -/

namespace Passage

variable (h : Passage plugin options t t₁ t₂ t₃ m r)
include h

/-- An entry that is there before configured values are filled in is there in the end. -/
theorem find?_classified (he : (t₂.item x).metadata.find? key = some entry) :
    (r.item x).metadata.find? key = some entry := by
  rw [h.metadata_eq]
  refine h.inherited.find?_own (h.describedFrom.find?_own ?_)
  rw [h.settledFrom.field Item.metadata fun _ _ => rfl]
  exact he

/-- Only objects that name a fundamental type hand something over. -/
theorem verdict_of_handsOver (hx : x.index < t₁.size) (hroot : x ≠ root)
    (hh : t₁.handsOver x key) :
    ∃ type, t₁.verdict x = some (.split type) ∧ type.hasAttribute key := by
  unfold handsOver at hh
  rw [Bool.and_eq_true, decide_eq_true_eq] at hh
  obtain ⟨hform, hany⟩ := hh
  obtain ⟨type, hmem, hhas⟩ := List.any_eq_true.1 hany
  have hregular := h.refined_bound.wellFormed.regular
  obtain ⟨p, hp, _⟩ := h.refined_bound.wellFormed.rooted.parent x hx hroot
  have hreaches : t₁.reachesFundamental x := by
    rw [hregular.reachesFundamental_iff hx (h.kindless x)]
    exact ⟨x, .refl, .inr (hregular.namesFundamental_of_mem hform hmem)⟩
  obtain ⟨v, _, hv, _⟩ := h.classifiedFrom.old x hx
  have hobject : t₁.verdict x = t₁.objectVerdict x := by
    unfold verdict
    rw [hform]
  have hsplit := hv
  rw [hobject] at hsplit
  unfold objectVerdict at hsplit
  rw [hp, hreaches, if_neg (by simp)] at hsplit
  split at hsplit
  · next hnil =>
    rw [hnil] at hmem
    cases hmem
  · next type' hown =>
    cases hsplit
    rw [hown, List.mem_singleton] at hmem
    exact ⟨type', hv, hmem ▸ hhas⟩
  · cases hsplit

/-- What is not handed over stays where it was written. -/
theorem find?_of_not_handsOver (hx : x.index < t₁.size) (hh : t₁.handsOver x key = false)
    (he : (t₁.item x).metadata.find? key = some entry) (hkey : key ≠ Key.refinesArity) :
    (r.item x).metadata.find? key = some entry := by
  refine h.find?_classified ?_
  have herase : ((t₁.item x).metadata.erase Key.refinesArity).find? key = some entry := by
    rw [OrderedMap.find?_erase, if_neg hkey]
    exact he
  obtain ⟨v, child, hv, hitem, _⟩ := h.classifiedFrom.old x hx
  rw [hitem]
  cases v with
  | plain k => exact he
  | list => exact herase
  | reference => exact herase
  | split type =>
    obtain ⟨hform, hown⟩ := object_of_split hv
    unfold handsOver at hh
    rw [hform, hown] at hh
    refine (OrderedMap.find?_filter_key _ (fun key => !type.hasAttribute key) key).trans ?_
    rw [if_pos (by simpa using hh)]
    exact he

/-- What is handed over is on the synthetic child, and the object leaves it open. -/
theorem find?_of_handsOver (hx : x.index < t₁.size) (hroot : x ≠ root)
    (hh : t₁.handsOver x key) (he : (t₁.item x).metadata.find? key = some entry) :
    (t₂.item x).kind = some .simple ∧ (t₂.item x).metadata.find? key = none ∧
      ∃ child, t₂.syntheticChild x = some child ∧
        (t₂.item child).metadata.find? key = some entry := by
  obtain ⟨type, hv, hhas⟩ := h.verdict_of_handsOver hx hroot hh
  obtain ⟨child, _, _, hitem, hchild, hsynthetic⟩ := h.classifiedFrom.child hx hv
  refine ⟨by rw [hitem]; rfl, ?_, child, hsynthetic, ?_⟩
  · rw [hitem]
    refine (OrderedMap.find?_filter_key _ (fun key => !type.hasAttribute key) key).trans ?_
    rw [hhas]
    rfl
  · rw [hchild]
    refine (OrderedMap.find?_filter_key _ (fun key => type.hasAttribute key) key).trans ?_
    rw [hhas]
    exact he

/-- What an object leaves open for an attribute gets the configured value, if there is one. -/
theorem find?_filled (hk : (t₂.item x).kind = some .simple) (hroot : x ≠ root)
    (hopen : (t₂.item x).metadata.find? key = none) (hschema : (r.item x).schema.contains key) :
    (m.item x).metadata.find? key =
      ((options.config.valuesFor plugin.name).find? key).map
        fun value => ⟨value, .config, (t₃.item x).location⟩ := by
  have hdescribes : hasSchema (t₃.item x) := by
    rw [h.settledFrom.field hasSchema fun _ _ => rfl]
    exact hasSchema_of_kind h.classifiedFrom.refined.wellFormed hk (by simp) hroot
  rw [h.describedFrom.find?_metadata, h.settledFrom.field Item.metadata fun _ _ => rfl, hopen,
    hdescribes, if_pos rfl, Option.none_or]
  unfold configured
  rw [← h.schema_eq, if_pos hschema]

/-- What is handed over comes back from the synthetic child, unless there is a configured value. -/
theorem value?_of_handsOver (hx : x.index < t₁.size) (hroot : x ≠ root)
    (hh : t₁.handsOver x key) (he : (t₁.item x).metadata.find? key = some entry)
    (hschema : (r.item x).schema.contains key)
    (hone : ∀ child, r.syntheticChild x = some child → r.simpleSources x = []) :
    Metadata.value? (r.item x).metadata key = some
      (((options.config.valuesFor plugin.name).find? key).getD entry.value) := by
  obtain ⟨hkind, hopen, child, hchild, hgiven⟩ := h.find?_of_handsOver hx hroot hh he
  have hfilled := h.find?_filled hkind hroot hopen hschema
  unfold Metadata.value?
  rw [h.metadata_eq]
  cases hu : (options.config.valuesFor plugin.name).find? key with
  | some u =>
    rw [hu] at hfilled
    rw [h.inherited.find?_own hfilled]
    rfl
  | none =>
    rw [hu] at hfilled
    have hsource : m.source x = some child := by
      have hr : r.syntheticChild x = some child := h.alike_classified.syntheticChild ▸ hchild
      rw [← h.alike.source,
        source_of_simple ((h.alike_classified.field Item.kind (fun _ => rfl) x).trans hkind)]
      unfold simpleSource
      rw [hr, hone child hr]
    have hentry : (m.inheritMetadata.item child).metadata.find? key = some entry := by
      rw [← h.metadata_eq]
      exact h.find?_classified hgiven
    obtain ⟨type, _, hhas⟩ := h.verdict_of_handsOver hx hroot hh
    rw [h.inherited.find?_of_source hfilled hsource (ne_name_of_hasAttribute hhas)
      (h.schema_eq x ▸ hschema), hentry]
    rfl

/-- Of an entry that is written on an item, the value that decides is there in the end. -/
theorem value?_written (hx : x.index < t₁.size) (hroot : x ≠ root)
    (he : (t₁.item x).metadata.find? key = some entry) (hkey : key ≠ Key.refinesArity)
    (hschema : (r.item x).schema.contains key)
    (hone : ∀ child, r.syntheticChild x = some child → r.simpleSources x = []) :
    Metadata.value? (r.item x).metadata key =
      some (t₁.decidingValue (options.config.valuesFor plugin.name) x key entry.value) := by
  unfold decidingValue
  cases hh : t₁.handsOver x key with
  | true => exact h.value?_of_handsOver hx hroot hh he hschema hone
  | false =>
    unfold Metadata.value?
    rw [h.find?_of_not_handsOver hx hh he hkey]
    rfl

/-- An admission makes the value that decides one of the attribute's type. -/
theorem find?_admitted {attribute_ : Attribute} (ha : r.admitAll plugin options = .ok a)
    (hx : x.index < t₁.size) (hroot : x ≠ root) (hext : (t₁.item x).isExtension = false)
    (he : (t₁.item x).metadata.find? key = some entry) (hkey : key ≠ Key.refinesArity)
    (hattribute : (a.item x).schema.find? key = some attribute_) :
    ∃ value, attribute_.type.convert
        (t₁.decidingValue (options.config.valuesFor plugin.name) x key entry.value) = .ok value ∧
      Metadata.value? (a.item x).metadata key = some value := by
  have hschema : (r.item x).schema.find? key = some attribute_ := by
    rw [← (retyped_admitAll ha).field Item.schema fun _ _ _ => rfl]
    exact hattribute
  have hvalue := h.value?_written hx hroot he hkey (OrderedMap.contains_of_find? hschema)
    fun _ hchild => simpleSources_of_syntheticChild h.resolved ha hchild
  obtain ⟨written, hwritten, hsame⟩ := Option.map_eq_some_iff.1 hvalue
  obtain ⟨p, hparent, _⟩ := h.resolved.wellFormed.rooted.parent x (h.lt_size hx) hroot
  obtain ⟨known, typed, hadmission⟩ := item_admitAll h.resolved.wellFormed ha (h.lt_size hx)
    (by rw [hparent]; rfl) ((h.isExtension_eq hx).trans hext)
  obtain ⟨value, hconvert, hfound⟩ := hadmission.find?_metadata hschema hwritten
  refine ⟨value, hsame ▸ hconvert, ?_⟩
  unfold Metadata.value?
  rw [hfound]
  rfl

end Passage

/-! ### All together -/

/-- **Written entries beat configured ones, unless they are handed over.** After a compilation the
element of an item has, for every attribute of the item's schema but `refines_arity` that was
written on the item, the written value as one of the attribute's type. For a constraint that an
object hands over with its fundamental type, a configured value comes first. Items include the
alternatives, which binding names adds; it leaves what is written on the declared items. -/
theorem compile_written (h : t.Declared) (hok : t.compile plugin options = .ok c) :
    ∃ g a, t.bindNames = .ok g ∧ t.compileTree plugin options = .ok (a, c) ∧
      (∀ x, x.index < t.size → (g.item x).metadata = (t.item x).metadata) ∧
      ∀ id ∈ c.graph.ids, (id ∈ c.graph.walk c.root ∨ t.OnlyObjectsHold) →
        ∀ x, a.origin plugin id = x → x ≠ root → x.index < g.size →
          (g.item x).isExtension = false →
          ∀ key entry attribute_, (g.item x).metadata.find? key = some entry →
            key ≠ Key.refinesArity → (a.item x).schema.find? key = some attribute_ →
            ∃ value, attribute_.type.convert
                (g.decidingValue (options.config.valuesFor plugin.name) x key entry.value) =
                  .ok value ∧
              (c.graph.element id).metadata.find? key = some value := by
  obtain ⟨a, d, d', hc, hadmitted, hobjects, hbuilt⟩ := compile_built h.reachable hok
  obtain ⟨r, hr, ha, _⟩ := compileTree_stages hc
  obtain ⟨t₁, t₂, t₃, m, hp⟩ := passage_of_resolve h hr
  have hbound := boundFrom_of_bindNames h.reachable.wellFormed.rooted hp.bound
  refine ⟨t₁, a, hp.bound, hc, fun x hx => hbound.metadata hx, fun id hid hwalk x horigin hroot hx
    hext key entry attribute_ he hkey hattribute => ?_⟩
  obtain ⟨value, hconvert, hvalue⟩ := hp.find?_admitted ha hx hroot hext he hkey hattribute
  refine ⟨value, hconvert, ?_⟩
  have hw : id ∈ d.walk c.root := by
    rcases hwalk with hw | ho
    · rwa [hbuilt.walk_eq] at hw
    · exact (hbuilt.assembled.mem_walk_iff hadmitted (hobjects ho)).2 (hbuilt.mem_ids.1 hid)
  rw [hbuilt.metadata_eq hid hw, ← hbuilt.origin_eq hid, horigin]
  exact Draft.find?_keptValues (OrderedMap.contains_of_find? hattribute) hvalue

/-- Ten letters at least, unless something else is written. -/
def tenLetters : Options :=
  { config := ({} : Config).set Config.shared "min_length" (.int 10) }

/-- A text of five letters at least. -/
def fiveLetters : ItemTree :=
  (ofSource "").push root
    (((Item.object (some "leaf")).withBase "string").withMetadata "min_length" (.int 5))

/-- The object hands its least length over with its type, and takes the configured one. -/
theorem fiveLetters_overruled :
    fiveLetters.Declared ∧ ∃ c,
      fiveLetters.compile { name := "any", capabilities := .allElements }
        tenLetters = .ok c ∧
      ((c.graph.element ⟨1⟩).metadata.find? "min_length").bind Value.asInt? = some 10 := by
  have hdeclared : fiveLetters.Declared :=
    (Declared.source "").push (p := root) (by decide)
      (((Item.Declared.object (some "leaf")).withBase "string").withMetadata "min_length"
        (.int 5))
  have hcompiled :
      (fiveLetters.compileTree { name := "any", capabilities := .allElements }
        tenLetters).toOption.map
          (fun r => (decide ((⟨1⟩ : ElementId) ∈ r.2.graph.ids ∧
              (⟨1⟩ : ElementId) ∈ r.2.graph.walk r.2.root),
            r.1.origin { name := "any", capabilities := .allElements } ⟨1⟩,
            (r.1.item ⟨1⟩).schema.find? "min_length" |>.map fun attribute_ =>
              (attribute_.type.convert (.int 10)).toOption.bind Value.asInt?)) =
        some (true, ⟨1⟩, some (some 10)) := by
    decide +kernel
  have hbound :
      fiveLetters.bindNames.toOption.map (fun g => (decide ((g.item ⟨1⟩).isExtension ∨
          g.size ≤ 1), g.handsOver ⟨1⟩ "min_length",
          ((g.item ⟨1⟩).metadata.find? "min_length").isSome,
          (tenLetters.config.valuesFor "any").find?
            "min_length" |>.bind Value.asInt?)) =
        some (false, true, true, some 10) := by
    decide +kernel
  refine ⟨hdeclared, ?_⟩
  cases hc : fiveLetters.compileTree { name := "any", capabilities := .allElements }
      tenLetters with
  | error e =>
    rw [hc] at hcompiled
    cases hcompiled
  | ok r =>
    obtain ⟨a, c⟩ := r
    have hok : fiveLetters.compile { name := "any", capabilities := .allElements } tenLetters =
        .ok c := by
      unfold compile
      rw [hc]
      rfl
    obtain ⟨g, a', hg, ha, _, hwritten⟩ := compile_written hdeclared hok
    rw [hc] at ha hcompiled
    cases ha
    rw [hg] at hbound
    simp only [Except.toOption, Option.map_some, Option.some.injEq, Prod.mk.injEq,
      decide_eq_true_eq, decide_eq_false_iff_not, not_or, Nat.not_le] at hcompiled hbound
    obtain ⟨⟨hid, hwalk⟩, horigin, hattribute⟩ := hcompiled
    obtain ⟨⟨hext, hsize⟩, hhands, hsome, hconfigured⟩ := hbound
    obtain ⟨entry, he⟩ := Option.isSome_iff_exists.1 hsome
    obtain ⟨attribute_, hschema, hint⟩ := Option.map_eq_some_iff.1 hattribute
    obtain ⟨u, hu, hten⟩ := Option.bind_eq_some_iff.1 hconfigured
    obtain ⟨value, hvalue, hfound⟩ := hwritten ⟨1⟩ hid (.inl hwalk) ⟨1⟩ horigin (by decide) hsize
      (by simpa using hext) "min_length" entry attribute_ he (by decide) hschema
    obtain rfl : u = .int 10 := by
      cases u with
      | int i => exact congrArg Value.int (Option.some.inj hten)
      | _ => cases hten
    unfold decidingValue at hvalue
    rw [if_pos hhands, hu, Option.getD_some] at hvalue
    refine ⟨c, hok, ?_⟩
    rw [hvalue] at hint
    rw [hfound]
    exact hint

end Schemata.ItemTree
