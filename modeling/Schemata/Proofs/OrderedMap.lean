import Mathlib.Data.List.Induction
import Mathlib.Data.List.Nodup
import Schemata.OrderedMap
import Schemata.Proofs.Fold

/-! More on maps that remember the order of their keys. -/
namespace Schemata.OrderedMap

variable {κ α β : Type} [DecidableEq κ]

/-! ### Entries -/

theorem mem_of_lookup {l : List (κ × α)} {k : κ} {v : α} (h : l.lookup k = some v) :
    (k, v) ∈ l := by
  induction l with
  | nil => cases h
  | cons e rest ih =>
    rw [lookup_cons] at h
    split at h
    · next hk =>
      cases h
      rw [hk]
      exact List.mem_cons_self
    · exact List.mem_cons_of_mem e (ih h)

theorem lookup_of_mem {l : List (κ × α)} (hn : (l.map Prod.fst).Nodup) {k : κ} {v : α}
    (h : (k, v) ∈ l) : l.lookup k = some v := by
  induction l with
  | nil => cases h
  | cons e rest ih =>
    rw [List.map_cons, List.nodup_cons] at hn
    rw [lookup_cons]
    rcases List.mem_cons.1 h with rfl | h
    · rw [if_pos rfl]
    · have hne : k ≠ e.1 := fun he => hn.1 (he ▸ List.mem_map_of_mem h)
      rw [if_neg hne]
      exact ih hn.2 h

theorem find?_eq_some_iff (m : OrderedMap κ α) (k : κ) (v : α) :
    m.find? k = some v ↔ (k, v) ∈ m.entries :=
  ⟨mem_of_lookup, lookup_of_mem m.nodup_keys⟩

theorem mem_values_of_find? {m : OrderedMap κ α} {k : κ} {v : α} (h : m.find? k = some v) :
    v ∈ m.values :=
  List.mem_map_of_mem (f := Prod.snd) ((find?_eq_some_iff m k v).1 h)

theorem mem_values_iff (m : OrderedMap κ α) (v : α) : v ∈ m.values ↔ ∃ k, m.find? k = some v := by
  refine ⟨fun h => ?_, fun ⟨_, h⟩ => mem_values_of_find? h⟩
  obtain ⟨⟨k, w⟩, hmem, rfl⟩ := List.mem_map.1 h
  exact ⟨k, (find?_eq_some_iff m k w).2 hmem⟩

theorem find?_isSome_iff (m : OrderedMap κ α) (k : κ) : (m.find? k).isSome ↔ k ∈ m.keys :=
  m.contains_iff k

theorem contains_of_find? {m : OrderedMap κ α} {k : κ} {v : α} (h : m.find? k = some v) :
    m.contains k :=
  Option.isSome_iff_exists.2 ⟨v, h⟩

theorem key_eq_of_nodup_values {m : OrderedMap κ α} (hn : m.values.Nodup) {j k : κ} {v : α}
    (hj : m.find? j = some v) (hk : m.find? k = some v) : j = k := by
  have h := List.inj_on_of_nodup_map hn ((find?_eq_some_iff m j v).1 hj)
    ((find?_eq_some_iff m k v).1 hk) rfl
  exact congrArg Prod.fst h

/-! ### Inserting -/

theorem insertEntry_of_not_mem {l : List (κ × α)} {k : κ} (v : α) (h : k ∉ l.map Prod.fst) :
    insertEntry k v l = l ++ [(k, v)] := by
  induction l with
  | nil => rfl
  | cons e rest ih =>
    rw [List.map_cons, List.mem_cons, not_or] at h
    rw [insertEntry, if_neg (Ne.symm h.1), ih h.2, List.cons_append]

/-- A new key goes to the end. -/
theorem entries_insert_of_find?_none {m : OrderedMap κ α} {k : κ} (v : α) (h : m.find? k = none) :
    (m.insert k v).entries = m.entries ++ [(k, v)] :=
  insertEntry_of_not_mem v ((find?_eq_none_iff m k).1 h)

theorem values_insert_of_find?_none {m : OrderedMap κ α} {k : κ} (v : α) (h : m.find? k = none) :
    (m.insert k v).values = m.values ++ [v] := by
  simp [values, entries_insert_of_find?_none v h]

theorem insertAll_append (m : OrderedMap κ α) (l l' : List (κ × α)) :
    m.insertAll (l ++ l') = (m.insertAll l).insertAll l' := List.foldl_append

theorem insertAll_concat (m : OrderedMap κ α) (l : List (κ × α)) (e : κ × α) :
    m.insertAll (l ++ [e]) = (m.insertAll l).insert e.1 e.2 := insertAll_append m l [e]

theorem entries_insertAll_of_nodup {m : OrderedMap κ α} {l : List (κ × α)}
    (h : (m.keys ++ l.map Prod.fst).Nodup) : (m.insertAll l).entries = m.entries ++ l := by
  induction l generalizing m with
  | nil => exact (List.append_nil _).symm
  | cons e rest ih =>
    have hnew : m.find? e.1 = none := by
      refine (find?_eq_none_iff m e.1).2 fun hmem => ?_
      exact (List.nodup_append.1 h).2.2 e.1 hmem e.1 List.mem_cons_self rfl
    have hentries := entries_insert_of_find?_none e.2 hnew
    have hkeys : (m.insert e.1 e.2).keys = m.keys ++ [e.1] := by
      unfold keys
      rw [hentries, List.map_append]
      rfl
    show ((m.insert e.1 e.2).insertAll rest).entries = _
    rw [ih, hentries, List.append_assoc]
    · rfl
    · rw [hkeys, List.append_assoc]
      exact h

/-- Entries with different keys make the map of these entries. -/
theorem entries_ofList {l : List (κ × α)} (h : (l.map Prod.fst).Nodup) :
    (ofList l).entries = l := entries_insertAll_of_nodup (m := empty) h

/-- A key that comes first keeps its place and takes the value that it is added with later on. -/
theorem entries_insertAll_cons {m : OrderedMap κ α} {l r : List (κ × α)} {k : κ} {v : α}
    (hm : m.entries = (k, v) :: r) (hl : (l.map Prod.fst).Nodup)
    (hr : ∀ e ∈ l, e.1 ∉ r.map Prod.fst) : (m.insertAll l).entries =
      (k, (l.lookup k).getD v) :: (r ++ l.filter fun e => e.1 ≠ k) := by
  induction l generalizing m v r with
  | nil => rw [List.filter_nil, List.append_nil]; exact hm
  | cons e rest ih =>
    obtain ⟨j, w⟩ := e
    obtain ⟨hj, hrest⟩ := List.nodup_cons.1 hl
    show ((m.insert j w).insertAll rest).entries = _
    rw [lookup_cons, List.filter_cons]
    by_cases hk : k = j
    · subst hk
      have hinsert : (m.insert k w).entries = (k, w) :: r := by
        show insertEntry k w m.entries = _
        rw [hm]
        exact if_pos rfl
      have hnone : rest.lookup k = none := (lookup_eq_none_iff _ _).2 hj
      rw [ih hinsert hrest fun e he => hr e (List.mem_cons_of_mem _ he), hnone, if_pos rfl,
        if_neg (by simp)]
      rfl
    · have hinsert : (m.insert j w).entries = (k, v) :: (r ++ [(j, w)]) := by
        show insertEntry j w m.entries = _
        rw [hm, insertEntry_of_not_mem w, List.cons_append]
        rw [List.map_cons, List.mem_cons, not_or]
        exact ⟨Ne.symm hk, hr (j, w) List.mem_cons_self⟩
      rw [ih hinsert hrest fun e he hmem => ?_, if_neg hk, if_pos (by simpa using Ne.symm hk)]
      · rw [List.append_assoc, List.singleton_append]
      · rw [List.map_append, List.mem_append] at hmem
        rcases hmem with hmem | hmem
        · exact hr e (List.mem_cons_of_mem _ he) hmem
        · exact hj (List.mem_map.2 ⟨e, he, List.mem_singleton.1 hmem⟩)

theorem entries_ofList_cons {l : List (κ × α)} {k : κ} {v : α} (hl : (l.map Prod.fst).Nodup) :
    (ofList ((k, v) :: l)).entries =
      (k, (l.lookup k).getD v) :: l.filter fun e => e.1 ≠ k :=
  entries_insertAll_cons (m := empty.insert k v) rfl hl fun _ _ => List.not_mem_nil

/-- Of the entries added the last one with a key decides. -/
theorem find?_insertAll (m : OrderedMap κ α) (l : List (κ × α)) (k : κ) :
    (m.insertAll l).find? k =
      ((l.reverse.find? fun e => e.1 = k).map Prod.snd).or (m.find? k) := by
  induction l using List.reverseRecOn with
  | nil => rfl
  | append_singleton l e ih =>
    rw [insertAll_concat, find?_insert, ih, List.reverse_append, List.reverse_singleton,
      List.singleton_append, List.find?_cons]
    by_cases h : e.1 = k
    · rw [if_pos h.symm, decide_eq_true h]
      rfl
    · rw [if_neg (Ne.symm h), decide_eq_false h]

/-- Nothing happens to a key that has the value already. -/
theorem insert_of_find? {m : OrderedMap κ α} {k : κ} {v : α} (h : m.find? k = some v) :
    m.insert k v = m := by
  refine ext ?_
  show insertEntry k v m.entries = m.entries
  have hlookup : m.entries.lookup k = some v := h
  revert hlookup
  induction m.entries with
  | nil => exact nofun
  | cons e rest ih =>
    intro hlookup
    rw [lookup_cons] at hlookup
    rw [insertEntry]
    split
    · next hk =>
      rw [if_pos hk.symm] at hlookup
      rw [← hk, ← Option.some.inj hlookup]
    · next hk =>
      rw [if_neg (Ne.symm hk)] at hlookup
      rw [ih hlookup]

theorem mem_values_insertEntry {l : List (κ × α)} {k : κ} {v x : α}
    (h : x ∈ (insertEntry k v l).map Prod.snd) : x = v ∨ x ∈ l.map Prod.snd := by
  induction l with
  | nil => exact .inl (by simpa [insertEntry] using h)
  | cons e rest ih =>
    rw [insertEntry] at h
    split at h
    · rcases List.mem_cons.1 h with h | h
      · exact .inl h
      · exact .inr (List.mem_cons_of_mem _ h)
    · rcases List.mem_cons.1 h with h | h
      · exact .inr (h ▸ List.mem_cons_self)
      · exact (ih h).imp_right (List.mem_cons_of_mem _)

theorem mem_values_insertAll {m : OrderedMap κ α} {l : List (κ × α)} {x : α}
    (h : x ∈ (m.insertAll l).values) : x ∈ m.values ∨ x ∈ l.map Prod.snd := by
  induction l generalizing m with
  | nil => exact .inl h
  | cons e rest ih =>
    rcases ih h with h | h
    · rcases mem_values_insertEntry h with rfl | h
      · exact .inr List.mem_cons_self
      · exact .inl h
    · exact .inr (List.mem_cons_of_mem _ h)

theorem mem_values_ofList {l : List (κ × α)} {x : α} (h : x ∈ (ofList l).values) :
    x ∈ l.map Prod.snd := (mem_values_insertAll h).resolve_left (by simp [values, empty])

theorem keys_insertAll_congr {m : OrderedMap κ α} {m' : OrderedMap κ β} {l : List (κ × α)}
    {l' : List (κ × β)} (hm : m.keys = m'.keys) (hl : l.map Prod.fst = l'.map Prod.fst) :
    (m.insertAll l).keys = (m'.insertAll l').keys := by
  induction l generalizing l' m m' with
  | nil =>
    rw [List.map_eq_nil_iff.1 hl.symm]
    exact hm
  | cons e rest ih =>
    cases l' with
    | nil => cases hl
    | cons e' rest' =>
      rw [List.map_cons, List.map_cons, List.cons.injEq] at hl
      have hm' : (m.insert e.1 e.2).keys = (m'.insert e'.1 e'.2).keys := by
        rw [keys_insert, keys_insert, hm, hl.1]
      change ((m.insert e.1 e.2).insertAll rest).keys = ((m'.insert e'.1 e'.2).insertAll rest').keys
      exact ih hm' hl.2

/-- Which keys a list makes, and in which order, does not depend on the values. -/
theorem keys_ofList_congr {l : List (κ × α)} {l' : List (κ × β)}
    (h : l.map Prod.fst = l'.map Prod.fst) : (ofList l).keys = (ofList l').keys :=
  keys_insertAll_congr rfl h

theorem mem_keys_ofList {l : List (κ × α)} {k : κ} : k ∈ (ofList l).keys ↔ k ∈ l.map Prod.fst := by
  rw [← find?_isSome_iff]
  unfold ofList
  rw [find?_insertAll, show (empty : OrderedMap κ α).find? k = none from rfl, Option.or_none,
    Option.isSome_map, List.find?_isSome]
  simp

/-- Of two maps put together the second one decides. -/
theorem find?_insertAll_entries (m n : OrderedMap κ α) (k : κ) :
    (m.insertAll n.entries).find? k = (n.find? k).or (m.find? k) := by
  rw [find?_insertAll]
  refine congrArg (Option.or · _) (Option.ext fun v => ?_)
  rw [find?_eq_some_iff, Option.map_eq_some_iff]
  constructor
  · rintro ⟨e, he, rfl⟩
    have hmem := List.mem_reverse.1 (List.mem_of_find?_eq_some he)
    have hk : e.1 = k := by simpa using List.find?_some he
    exact hk ▸ hmem
  · intro hmem
    obtain ⟨e, he⟩ : ∃ e, n.entries.reverse.find? (fun e => e.1 = k) = some e := by
      rw [← Option.isSome_iff_exists, List.find?_isSome]
      exact ⟨(k, v), List.mem_reverse.2 hmem, by simp⟩
    have hk : e.1 = k := by simpa using List.find?_some he
    have hmem' := List.mem_reverse.1 (List.mem_of_find?_eq_some he)
    exact ⟨e, he, congrArg Prod.snd
      (List.inj_on_of_nodup_map n.nodup_keys hmem' hmem hk)⟩

/-! ### Filtering -/

/-- An entry stays if it satisfies the condition. -/
theorem find?_filter (m : OrderedMap κ α) (p : κ → α → Bool) (k : κ) :
    (m.filter p).find? k = (m.find? k).filter (p k) := by
  refine Option.ext fun v => ?_
  rw [find?_eq_some_iff, Option.filter_eq_some_iff, find?_eq_some_iff]
  exact List.mem_filter

/-- By its key an entry stays or goes. -/
theorem find?_filter_key (m : OrderedMap κ α) (p : κ → Bool) (j : κ) :
    (m.filter fun k _ => p k).find? j = if p j then m.find? j else none := by
  rw [find?_filter]
  cases m.find? j <;> cases p j <;> rfl

/-- What satisfies the condition throughout is not changed. -/
theorem filter_eq_self {m : OrderedMap κ α} {p : κ → α → Bool}
    (h : ∀ k v, m.find? k = some v → p k v) : m.filter p = m :=
  ext (List.filter_eq_self.2 fun e he => h e.1 e.2 ((find?_eq_some_iff m e.1 e.2).2 he))

/-- What satisfies the condition nowhere loses all its entries. -/
theorem filter_eq_empty {m : OrderedMap κ α} {p : κ → α → Bool}
    (h : ∀ k v, m.find? k = some v → p k v = false) : m.filter p = ∅ :=
  ext (List.filter_eq_nil_iff.2 fun e he =>
    Bool.eq_false_iff.1 (h e.1 e.2 ((find?_eq_some_iff m e.1 e.2).2 he)))

theorem find?_erase (m : OrderedMap κ α) (k j : κ) :
    (m.erase k).find? j = if j = k then none else m.find? j := by
  refine (m.find?_filter_key (fun j => j ≠ k) j).trans ?_
  by_cases hj : j = k <;> simp [hj]

/-! ### Replacing values -/

theorem find?_mapValues (m : OrderedMap κ α) (f : κ → α → β) (k : κ) :
    (m.mapValues f).find? k = (m.find? k).map (f k) := by
  show (m.entries.map fun e => (e.1, f e.1 e.2)).lookup k = (m.entries.lookup k).map (f k)
  induction m.entries with
  | nil => rfl
  | cons e rest ih =>
    rw [List.map_cons, lookup_cons, lookup_cons]
    by_cases hk : k = e.1
    · rw [if_pos hk, if_pos hk, hk]
      rfl
    · rw [if_neg hk, if_neg hk, ih]

/-- What a traversal that succeeds makes of each value. -/
theorem find?_traverse {ε : Type} {m m' : OrderedMap κ α} {f : κ → α → Except ε α}
    (h : m.traverse f = .ok m') (k : κ) :
    (m.find? k = none → m'.find? k = none) ∧
      ∀ v, m.find? k = some v → ∃ w, f k v = .ok w ∧ m'.find? k = some w := by
  have hall : ∀ k, (k ∉ m.entries.map Prod.fst → m'.find? k = m.find? k) ∧
      ∀ v, (k, v) ∈ m.entries → ∃ w, f k v = .ok w ∧ m'.find? k = some w := by
    refine foldlM_ok (fun done acc => ∀ k, (k ∉ done.map Prod.fst → acc.find? k = m.find? k) ∧
      ∀ v, (k, v) ∈ done → ∃ w, f k v = .ok w ∧ acc.find? k = some w) h
      (fun _ => ⟨fun _ => rfl, fun _ hv => by cases hv⟩)
      fun done e rest acc acc' hl hinv hstep k => ?_
    obtain ⟨w, hw, hstep⟩ := bind_eq_ok hstep
    cases hstep
    have hnew : e.1 ∉ done.map Prod.fst := by
      have hn := m.nodup_keys
      rw [hl, List.map_append, List.map_cons] at hn
      exact fun hmem => (List.nodup_append.1 hn).2.2 _ hmem _ List.mem_cons_self rfl
    rw [find?_insert]
    refine ⟨fun hk => ?_, fun v hv => ?_⟩
    · rw [List.map_append, List.mem_append, not_or] at hk
      rw [if_neg fun he => hk.2 (List.mem_singleton.2 he)]
      exact (hinv k).1 hk.1
    · rcases List.mem_append.1 hv with hv | hv
      · have hne : k ≠ e.1 := fun he => hnew (he ▸ List.mem_map_of_mem (f := Prod.fst) hv)
        rw [if_neg hne]
        exact (hinv k).2 v hv
      · obtain rfl := List.mem_singleton.1 hv
        exact ⟨w, hw, if_pos rfl⟩
  refine ⟨fun hk => ?_, fun v hv => (hall k).2 v ((find?_eq_some_iff m k v).1 hv)⟩
  rw [(hall k).1 ((find?_eq_none_iff m k).1 hk), hk]

/-- A traversal that makes each value of itself changes nothing. -/
theorem traverse_eq_self {ε : Type} {m : OrderedMap κ α} {f : κ → α → Except ε α}
    (h : ∀ k v, m.find? k = some v → f k v = .ok v) : m.traverse f = .ok m :=
  foldlM_same fun e he => by
    have hfound := (find?_eq_some_iff m e.1 e.2).2 he
    rw [h e.1 e.2 hfound]
    exact congrArg Except.ok (insert_of_find? hfound)

end Schemata.OrderedMap
