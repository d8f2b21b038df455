/-! Maps that remember the order in which their keys arrived.

Metadata, attribute schemas, class fields and configuration sections are all
listed in the order in which they were written, while each is looked up by key.
An `OrderedMap` is a list of entries with pairwise different keys. `insert` puts
a new key at the end and leaves a known key where it is, replacing its value
(`keys_insert`, `find?_insert`); `erase` closes the gap. -/
namespace Schemata

/-- Entries in order of arrival, no key twice. -/
structure OrderedMap (κ α : Type) where
  entries : List (κ × α)
  nodup_keys : (entries.map Prod.fst).Nodup
deriving DecidableEq, Repr

namespace OrderedMap

variable {κ α β : Type} [DecidableEq κ]

/-! ### Lists of entries -/

/-- The value at `k` replaced, or a new entry at the end. -/
def insertEntry (k : κ) (v : α) : List (κ × α) → List (κ × α)
  | [] => [(k, v)]
  | e :: rest => if e.1 = k then (k, v) :: rest else e :: insertEntry k v rest

theorem map_fst_insertEntry (k : κ) (v : α) (l : List (κ × α)) :
    (insertEntry k v l).map Prod.fst =
      if k ∈ l.map Prod.fst then l.map Prod.fst else l.map Prod.fst ++ [k] := by
  induction l with
  | nil => simp [insertEntry]
  | cons e rest ih =>
    by_cases h : e.1 = k
    · simp [insertEntry, h]
    · have h' : k ≠ e.1 := Ne.symm h
      simp only [insertEntry, h, if_false, List.map_cons, ih, List.mem_cons, h', false_or]
      split <;> simp

theorem nodup_insertEntry (k : κ) (v : α) (l : List (κ × α)) (h : (l.map Prod.fst).Nodup) :
    ((insertEntry k v l).map Prod.fst).Nodup := by
  rw [map_fst_insertEntry]
  split
  · exact h
  · next hk =>
    exact List.nodup_append.2 ⟨h, by simp, fun a ha b hb hab => hk (by simp_all)⟩

/-! ### Operations -/

def empty : OrderedMap κ α := ⟨[], List.nodup_nil⟩

instance : Inhabited (OrderedMap κ α) := ⟨empty⟩
instance : EmptyCollection (OrderedMap κ α) := ⟨empty⟩

def keys (m : OrderedMap κ α) : List κ := m.entries.map Prod.fst
def values (m : OrderedMap κ α) : List α := m.entries.map Prod.snd
def size (m : OrderedMap κ α) : Nat := m.entries.length
def isEmpty (m : OrderedMap κ α) : Bool := m.entries.isEmpty

def find? (m : OrderedMap κ α) (k : κ) : Option α := m.entries.lookup k
def contains (m : OrderedMap κ α) (k : κ) : Bool := (m.find? k).isSome

/-- Replace the value at `k`, keeping its place, or add `k` at the end. -/
def insert (m : OrderedMap κ α) (k : κ) (v : α) : OrderedMap κ α :=
  ⟨insertEntry k v m.entries, nodup_insertEntry k v m.entries m.nodup_keys⟩

/-- The entries that satisfy `p`, in order. -/
def filter (m : OrderedMap κ α) (p : κ → α → Bool) : OrderedMap κ α :=
  ⟨m.entries.filter fun e => p e.1 e.2,
    m.nodup_keys.sublist (List.filter_sublist.map Prod.fst)⟩

/-- Without `k`; the others keep their order. -/
def erase (m : OrderedMap κ α) (k : κ) : OrderedMap κ α := m.filter fun j _ => j ≠ k

/-- Every value replaced, every key in place. -/
def mapValues (m : OrderedMap κ α) (f : κ → α → β) : OrderedMap κ β :=
  ⟨m.entries.map fun e => (e.1, f e.1 e.2), by simpa [Function.comp_def] using m.nodup_keys⟩

/-- The value at `k`, if there is one, replaced. -/
def adjust (m : OrderedMap κ α) (k : κ) (f : α → α) : OrderedMap κ α :=
  m.mapValues fun j v => if j = k then f v else v

/-- Entries added one after another: of a repeated key the first place and the last value stay. -/
def insertAll (m : OrderedMap κ α) (l : List (κ × α)) : OrderedMap κ α :=
  l.foldl (fun acc e => acc.insert e.1 e.2) m

def ofList (l : List (κ × α)) : OrderedMap κ α := insertAll empty l

/-- Each value replaced by what `f` makes of it, in order, up to the first refusal. -/
def traverse {ε : Type} (m : OrderedMap κ α) (f : κ → α → Except ε α) :
    Except ε (OrderedMap κ α) :=
  m.entries.foldlM (fun acc e => return acc.insert e.1 (← f e.1 e.2)) m

/-! ### What the operations do to keys and look-ups -/

omit [DecidableEq κ] in
@[ext] theorem ext {m n : OrderedMap κ α} (h : m.entries = n.entries) : m = n := by
  cases m; cases n; simp_all

omit [DecidableEq κ] in
@[simp] theorem entries_empty : (∅ : OrderedMap κ α).entries = [] := rfl
omit [DecidableEq κ] in
@[simp] theorem keys_empty : (∅ : OrderedMap κ α).keys = [] := rfl
@[simp] theorem find?_empty (k : κ) : (∅ : OrderedMap κ α).find? k = none := rfl

omit [DecidableEq κ] in
theorem nodup (m : OrderedMap κ α) : m.keys.Nodup := m.nodup_keys

theorem keys_insert (m : OrderedMap κ α) (k : κ) (v : α) :
    (m.insert k v).keys = if k ∈ m.keys then m.keys else m.keys ++ [k] :=
  map_fst_insertEntry k v m.entries

theorem lookup_cons (j : κ) (e : κ × α) (l : List (κ × α)) :
    (e :: l).lookup j = if j = e.1 then some e.2 else l.lookup j := by
  obtain ⟨k, v⟩ := e
  by_cases h : j = k <;> simp [List.lookup_cons, h, beq_eq_false_iff_ne.2]

theorem lookup_insertEntry (k j : κ) (v : α) (l : List (κ × α)) :
    (insertEntry k v l).lookup j = if j = k then some v else l.lookup j := by
  induction l with
  | nil => by_cases h : j = k <;> simp [insertEntry, lookup_cons, h]
  | cons e rest ih =>
    by_cases h : e.1 = k
    · by_cases hj : j = k <;> simp [insertEntry, lookup_cons, h, hj]
    · by_cases hj : j = e.1
      · simp [insertEntry, lookup_cons, h, hj]
      · simp [insertEntry, lookup_cons, h, hj, ih]

theorem find?_insert (m : OrderedMap κ α) (k j : κ) (v : α) :
    (m.insert k v).find? j = if j = k then some v else m.find? j :=
  lookup_insertEntry k j v m.entries

@[simp] theorem find?_insert_self (m : OrderedMap κ α) (k : κ) (v : α) :
    (m.insert k v).find? k = some v := by simp [find?_insert]

theorem lookup_eq_none_iff (k : κ) (l : List (κ × α)) :
    l.lookup k = none ↔ k ∉ l.map Prod.fst := by
  induction l with
  | nil => simp
  | cons e rest ih => by_cases h : k = e.1 <;> simp [lookup_cons, h, ih]

theorem find?_eq_none_iff (m : OrderedMap κ α) (k : κ) : m.find? k = none ↔ k ∉ m.keys :=
  lookup_eq_none_iff k m.entries

theorem contains_iff (m : OrderedMap κ α) (k : κ) : m.contains k = true ↔ k ∈ m.keys := by
  cases h : m.find? k with
  | none => simp [contains, h, (find?_eq_none_iff m k).1 h]
  | some v =>
    have : k ∈ m.keys := Decidable.byContradiction fun hk => by
      simp [(find?_eq_none_iff m k).2 hk] at h
    simp [contains, h, this]

end OrderedMap
end Schemata
