import Schemata.Proofs.Tree.Passage

/-! What items inherit.

Once configured values are filled in, a reference takes over entries of its target,
and a simple object those of its one source. No chain of sources comes back to
itself, so there is one way only to follow this rule, and the resolution finds it in
whatever order items are asked for what they inherit. -/
namespace Schemata.ItemTree

variable {t m r : ItemTree} {plugin : Plugin} {options : Options} {x y : ItemId} {key : String}

/-! ### The rule -/

/-- An entry of an item that takes over what it leaves open, where `own` are its own entries and
`source` gives those of its source. -/
def ruledEntry (own : Metadata) (schema : Schema) (source : Option (String → Option Entry))
    (key : String) : Option Entry :=
  match own.find? key with
  | some entry => some entry
  | none =>
    if key ≠ Key.name && schema.contains key then
      (source.bind fun entries => entries key).map fun entry => { entry with provenance := .cloned }
    else none

/-- An entry that is not an item's own is its source's. -/
theorem ruledEntry_eq_some_iff {own : Metadata} {schema : Schema}
    {source : Option (String → Option Entry)} {entry : Entry} (hn : own.find? key = none) :
    ruledEntry own schema source key = some entry ↔
      ∃ entries e, source = some entries ∧ key ≠ Key.name ∧ schema.contains key ∧
        entries key = some e ∧ entry = { e with provenance := .cloned } := by
  unfold ruledEntry
  rw [hn]
  dsimp only
  split
  · next hkey =>
    rw [Bool.and_eq_true, decide_eq_true_eq] at hkey
    cases source with
    | none => simp
    | some entries =>
      rw [Option.bind_some, Option.map_eq_some_iff]
      simp [hkey.1, hkey.2, eq_comm]
  · next hkey =>
    refine iff_of_false (by simp) ?_
    rintro ⟨_, _, _, hname, hschema, _⟩
    rw [Bool.and_eq_true, decide_eq_true_eq] at hkey
    exact hkey ⟨hname, hschema⟩

/-- What the items of a tree have under every key, if it follows the rule: `m` is the tree with
configured values filled in, and entries are taken over along the sources. -/
def FollowsRule (m : ItemTree) (entries : ItemId → String → Option Entry) : Prop :=
  ∀ x key, entries x key =
    ruledEntry (m.item x).metadata (m.item x).schema ((m.source x).map entries) key

theorem find?_inherit (i : Item) (source : Metadata) (key : String) :
    (inherit i source).find? key = ruledEntry i.metadata i.schema (some source.find?) key := by
  unfold inherit ruledEntry
  dsimp only
  rw [OrderedMap.find?_insertAll_entries, OrderedMap.find?_mapValues, OrderedMap.find?_filter_key
    source fun key => key ≠ Key.name && !i.metadata.contains key && i.schema.contains key]
  unfold OrderedMap.contains
  cases i.metadata.find? key with
  | some entry => simp
  | none =>
    by_cases hkey : key ≠ Key.name <;> cases h : (i.schema.find? key).isSome <;> simp [hkey]

theorem find?_handed (t t' : ItemTree) (x : ItemId) (key : String) :
    (t.handed t' x).find? key = ruledEntry (t.item x).metadata (t.item x).schema
      ((t.source x).map fun y key => (t'.item y).metadata.find? key) key := by
  cases hs : t.source x with
  | some y =>
    rw [handed_of_source hs, find?_inherit]
    rfl
  | none =>
    rw [handed_of_none hs]
    unfold ruledEntry
    cases (t.item x).metadata.find? key <;> simp

/-- An item's own entry stays. -/
theorem Inherited.find?_own {entry : Entry} (h : m.Inherited r)
    (he : (m.item x).metadata.find? key = some entry) :
    (r.item x).metadata.find? key = some entry := by
  rw [h.handed, find?_handed]
  unfold ruledEntry
  rw [he]

/-- What an item leaves open it has from its source. -/
theorem Inherited.find?_of_source (h : m.Inherited r)
    (hn : (m.item x).metadata.find? key = none) (hs : m.source x = some y)
    (hname : key ≠ Key.name) (hschema : (m.item x).schema.contains key) :
    (r.item x).metadata.find? key =
      ((r.item y).metadata.find? key).map fun entry => { entry with provenance := .cloned } := by
  rw [h.handed, find?_handed, hs]
  unfold ruledEntry
  rw [hn, hschema, decide_eq_true hname]
  rfl

/-- Entries that are handed down follow the rule, and no others do. -/
theorem Inherited.followsRule_iff (hend : m.SourcesEnd) (h : m.Inherited r)
    (entries : ItemId → String → Option Entry) :
    m.FollowsRule entries ↔ ∀ x key, entries x key = (r.item x).metadata.find? key := by
  have hr : m.FollowsRule fun x key => (r.item x).metadata.find? key := fun x key =>
    (congrArg (·.find? key) (h.handed x)).trans (find?_handed m r x key)
  constructor
  · intro hentries x
    induction x using WellFounded.induction hend with
    | _ x ih =>
      intro key
      refine (hentries x key).trans (Eq.trans ?_ (hr x key).symm)
      cases hs : m.source x with
      | none => rfl
      | some y => exact congrArg (fun f => ruledEntry _ _ (some f) key) (funext (ih y hs))
  · intro he
    have hsame : entries = fun x key => (r.item x).metadata.find? key :=
      funext fun x => funext (he x)
    exact hsame ▸ hr

/-! ### All together -/

/-- **What items inherit is the one way to follow the rule.** In a declared tree that resolves, no
chain of sources comes back to itself. What an item has once configured values are filled in stays;
under any other key it has an entry exactly if its source has one in the end, for an attribute of
the item's schema other than the name, and then it has that one as a clone. No other entries follow
this rule, and in whatever order items are asked for what they inherit, they come to the same. -/
theorem resolve_inherits (h : t.Declared) (hr : t.resolve plugin options = .ok r) :
    ∃ m, t.furnish plugin options = .ok m ∧
      (∀ x, ¬Relation.TransGen (fun x y => r.source x = some y) x x) ∧
      (∀ x key entry, (m.item x).metadata.find? key = some entry →
        (r.item x).metadata.find? key = some entry) ∧
      (∀ x key entry, (m.item x).metadata.find? key = none →
        ((r.item x).metadata.find? key = some entry ↔
          ∃ y e, r.source x = some y ∧ key ≠ Key.name ∧ (r.item x).schema.contains key ∧
            (r.item y).metadata.find? key = some e ∧
              entry = { e with provenance := .cloned })) ∧
      (∀ entries, m.FollowsRule entries ↔
        ∀ x key, entries x key = (r.item x).metadata.find? key) ∧
      ∀ l, (∀ x, x.index < m.size → x ∈ l) →
        ∀ x, ((m.inheritAlong l).item x).metadata = (r.item x).metadata := by
  obtain ⟨t₁, t₂, t₃, m, hp⟩ := passage_of_resolve h hr
  have hfollows := hp.inherited.followsRule_iff hp.sourcesEnd
  simp only [← hp.metadata_eq] at hfollows
  have hrule := (hfollows _).2 fun _ _ => rfl
  refine ⟨m, hp.furnished, ?_, fun x key entry he => ?_, fun x key entry hn => ?_, hfollows,
    fun l hl x => ?_⟩
  · exact (hp.sourcesEnd.alike hp.alike).acyclic
  · refine (hrule x key).trans ?_
    unfold ruledEntry
    rw [he]
  · rw [show (r.item x).metadata.find? key = _ from hrule x key, ruledEntry_eq_some_iff hn,
      ← hp.alike.source, ← hp.schema_eq]
    constructor
    · rintro ⟨entries, e, hs, hkey⟩
      obtain ⟨y, hy, rfl⟩ := Option.map_eq_some_iff.1 hs
      exact ⟨y, e, hy, hkey⟩
    · rintro ⟨y, e, hy, hkey⟩
      exact ⟨_, e, by rw [hy]; rfl, hkey⟩
  · rw [hp.metadata_eq, (inherited_inheritAlong hp.sourcesEnd hl).unique hp.sourcesEnd hp.inherited]

/-- An object that is based on another one by an alias. The latter is a text of five letters at
least. -/
def inheritingChain : ItemTree :=
  (((ofSource "").push root ((Item.object (some "wrapper")).withBase "alias")).push root
    (Item.declaration (some "alias") "leaf")).push root
    (((Item.object (some "leaf")).withBase "string").withMetadata "min_length" (.text "5"))

/-- The first object gets its least length along the alias from the synthetic child of the second
one. -/
theorem inheritingChain_cloned :
    inheritingChain.Declared ∧ ∃ m r entry,
      inheritingChain.resolve { name := "any", capabilities := .allElements } {} = .ok r ∧
      inheritingChain.furnish { name := "any", capabilities := .allElements } {} = .ok m ∧
      r.source ⟨1⟩ = some ⟨2⟩ ∧ r.source ⟨2⟩ = some ⟨3⟩ ∧ r.source ⟨3⟩ = some ⟨4⟩ ∧
      (m.item ⟨1⟩).metadata.find? "min_length" = none ∧
      (r.item ⟨2⟩).metadata.find? "min_length" = some entry ∧
      entry.value.asText? = some "5" ∧
      (r.item ⟨1⟩).metadata.find? "min_length" = some { entry with provenance := .cloned } := by
  have hdeclared : inheritingChain.Declared :=
    (((Declared.source "").push (p := root) (by decide)
      ((Item.Declared.object (some "wrapper")).withBase "alias")).push (p := root) (by decide)
      (Item.Declared.declaration (some "alias") "leaf")).push (p := root) (by decide)
      (((Item.Declared.object (some "leaf")).withBase "string").withMetadata "min_length"
        (.text "5"))
  have hfacts :
      ((inheritingChain.resolve { name := "any", capabilities := .allElements } {}).toOption.bind
        fun r => (inheritingChain.furnish { name := "any", capabilities := .allElements }
          {}).toOption.map fun m =>
            ([r.source ⟨1⟩, r.source ⟨2⟩, r.source ⟨3⟩],
              ((m.item ⟨1⟩).metadata.find? "min_length").isSome,
              ((r.item ⟨2⟩).metadata.find? "min_length").bind (·.value.asText?),
              (r.item ⟨1⟩).schema.contains "min_length")) =
        some ([some ⟨2⟩, some ⟨3⟩, some ⟨4⟩], false, some "5", true) := by
    decide +kernel
  refine ⟨hdeclared, ?_⟩
  cases hr : inheritingChain.resolve { name := "any", capabilities := .allElements } {} with
  | error e =>
    rw [hr] at hfacts
    cases hfacts
  | ok r =>
    obtain ⟨m, hm, _, _, hclones, _⟩ := resolve_inherits hdeclared hr
    rw [hr, hm] at hfacts
    simp only [Except.toOption, Option.bind_some, Option.map_some, Option.some.injEq,
      Prod.mk.injEq, List.cons.injEq, and_true] at hfacts
    obtain ⟨⟨h₁, h₂, h₃⟩, hnone, htext, hschema⟩ := hfacts
    have hnone' : (m.item ⟨1⟩).metadata.find? "min_length" = none := by simpa using hnone
    obtain ⟨entry, hentry, hvalue⟩ := Option.bind_eq_some_iff.1 htext
    exact ⟨m, r, entry, rfl, hm, h₁, h₂, h₃, hnone', hentry, hvalue,
      (hclones ⟨1⟩ "min_length" _ hnone').2 ⟨⟨2⟩, entry, h₁, by decide, hschema, hentry, rfl⟩⟩

end Schemata.ItemTree
