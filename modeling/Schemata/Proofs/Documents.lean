import Schemata.Graph.Dump
import Schemata.Proofs.OrderedMap

/-! Documents that hold the same data.

Two documents hold the same data if they are built alike, where the members of objects go
by their names and numbers by a sameness of their own. What the members of an object are
named after is found by name, the last one of a name first (`lookup_ofMembers`). The
documents of values hold the same data only if the values do, as long as all numbers are
finite (`Value.alike_of_toDocument`). -/
namespace Schemata

variable {r : Float → Float → Prop}

/-! ### Sameness -/

/-- The same data, where `r` says which numbers are the same. -/
inductive Document.Alike (r : Float → Float → Prop) : Document → Document → Prop
  | null : Document.Alike r .null .null
  | bool (b : Bool) : Document.Alike r (.bool b) (.bool b)
  | int (i : Int) : Document.Alike r (.int i) (.int i)
  | number {x y : Float} (h : r x y) : Document.Alike r (.number x) (.number y)
  | text (s : String) : Document.Alike r (.text s) (.text s)
  | array {ds es : List Document} (h : List.Forall₂ (Document.Alike r) ds es) :
    Document.Alike r (.array ds) (.array es)
  | object {ms ns : List (String × Document)}
    (h : ∀ name, Option.Rel (Document.Alike r) (ms.lookup name) (ns.lookup name)) :
    Document.Alike r (.object ms) (.object ns)

/-- The same value, where `r` says which numbers are the same. -/
inductive Value.Alike (r : Float → Float → Prop) : Value → Value → Prop
  | text (s : String) : Value.Alike r (.text s) (.text s)
  | bool (b : Bool) : Value.Alike r (.bool b) (.bool b)
  | int (i : Int64) : Value.Alike r (.int i) (.int i)
  | number {x y : Float} (h : r x y) : Value.Alike r (.number x) (.number y)
  | list {vs ws : List Value} (h : List.Forall₂ (Value.Alike r) vs ws) :
    Value.Alike r (.list vs) (.list ws)

/-- Every number in a value is finite. -/
inductive Value.Finite : Value → Prop
  | text (s : String) : Value.Finite (.text s)
  | bool (b : Bool) : Value.Finite (.bool b)
  | int (i : Int64) : Value.Finite (.int i)
  | number {x : Float} (h : x.isFinite) : Value.Finite (.number x)
  | list {vs : List Value} (h : ∀ v ∈ vs, Value.Finite v) : Value.Finite (.list vs)

theorem Document.alike_refl (hr : ∀ x, r x x) : ∀ d : Document, Document.Alike r d d
  | .null => .null
  | .bool b => .bool b
  | .int i => .int i
  | .number x => .number (hr x)
  | .text s => .text s
  | .array ds => .array (List.forall₂_same.2 fun d _ => alike_refl hr d)
  | .object ms => .object fun name => by
    cases hd : ms.lookup name with
    | none => exact .none
    | some d =>
      have hmem := OrderedMap.mem_of_lookup hd
      exact .some (alike_refl hr d)
termination_by d => sizeOf d
decreasing_by
  all_goals simp_wf
  · have := List.sizeOf_lt_of_mem ‹_›
    omega
  · have := List.sizeOf_lt_of_mem hmem
    simp only [Prod.mk.sizeOf_spec] at this
    omega

theorem Value.alike_refl (hr : ∀ x, r x x) : ∀ v : Value, v.Alike r v
  | .text s => .text s
  | .bool b => .bool b
  | .int i => .int i
  | .number x => .number (hr x)
  | .list vs => .list (List.forall₂_same.2 fun v _ => alike_refl hr v)

theorem Value.eq_of_alike : ∀ {v w : Value}, v.Alike Eq w → v = w
  | _, _, .text _ => rfl
  | _, _, .bool _ => rfl
  | _, _, .int _ => rfl
  | _, _, .number h => congrArg Value.number h
  | _, _, .list h => congrArg Value.list (eq_of_forall₂ h)
where
  eq_of_forall₂ : ∀ {vs ws : List Value}, List.Forall₂ (Value.Alike Eq) vs ws → vs = ws
  | _, _, .nil => rfl
  | _, _, .cons h hs => congrArg₂ List.cons (Value.eq_of_alike h) (eq_of_forall₂ hs)

/-- Where equal numbers only are the same, equal values only are. -/
theorem Value.alike_eq : Value.Alike Eq = Eq :=
  funext fun v => funext fun _ =>
    propext ⟨Value.eq_of_alike, fun h => h ▸ Value.alike_refl (fun _ => rfl) v⟩

@[simp] theorem Document.alike_int_iff {i j : Int} : Document.Alike r (.int i) (.int j) ↔ i = j :=
  ⟨fun h => by cases h; rfl, fun h => h ▸ .int i⟩

@[simp] theorem Document.alike_text_iff {s t : String} :
    Document.Alike r (.text s) (.text t) ↔ s = t :=
  ⟨fun h => by cases h; rfl, fun h => h ▸ .text s⟩

@[simp] theorem Document.alike_array_iff {ds es : List Document} :
    Document.Alike r (.array ds) (.array es) ↔ List.Forall₂ (Document.Alike r) ds es :=
  ⟨fun h => by cases h; assumption, .array⟩

theorem forall₂_of_forall₂ {α β : Type} {R S : α → β → Prop} {l : List α} {l' : List β}
    (h : List.Forall₂ R l l') (himp : ∀ a ∈ l, ∀ b ∈ l', R a b → S a b) : List.Forall₂ S l l' := by
  induction h with
  | nil => exact .nil
  | cons hab _ ih =>
    exact .cons (himp _ List.mem_cons_self _ List.mem_cons_self hab)
      (ih fun a ha b hb => himp a (List.mem_cons_of_mem _ ha) b (List.mem_cons_of_mem _ hb))

/-! ### Values as documents -/

theorem Value.toDocument_number {x : Float} (h : x.isFinite) :
    (Value.number x).toDocument = .number x := by
  rw [Value.toDocument, if_pos h]

theorem Value.toDocuments_eq_map (vs : List Value) :
    Value.toDocuments vs = vs.map Value.toDocument := by
  induction vs with
  | nil => rfl
  | cons v vs ih => rw [Value.toDocuments, ih, List.map_cons]

/-- Finite values can be told from their documents. -/
theorem Value.alike_of_toDocument {v w : Value} (hv : v.Finite) (hw : w.Finite)
    (h : v.toDocument.Alike r w.toDocument) : v.Alike r w := by
  induction hv generalizing w with
  | text s =>
    cases hw with
    | text t =>
      cases h
      exact .text s
    | number hy =>
      rw [Value.toDocument_number hy] at h
      cases h
    | _ => cases h
  | bool b =>
    cases hw with
    | bool c =>
      cases h
      exact .bool b
    | number hy =>
      rw [Value.toDocument_number hy] at h
      cases h
    | _ => cases h
  | int i =>
    cases hw with
    | int j =>
      have hij : i = j := Int64.toInt_inj.1 (Document.alike_int_iff.1 h)
      exact hij ▸ .int i
    | number hy =>
      rw [Value.toDocument_number hy] at h
      cases h
    | _ => cases h
  | number hx =>
    rw [Value.toDocument_number hx] at h
    cases hw with
    | number hy =>
      rw [Value.toDocument_number hy] at h
      cases h with
      | number hxy => exact .number hxy
    | _ => cases h
  | @list vs _ ih =>
    cases hw with
    | @list ws hws =>
      rw [Value.toDocument, Value.toDocument, Value.toDocuments_eq_map,
        Value.toDocuments_eq_map] at h
      have hall := Document.alike_array_iff.1 h
      rw [List.forall₂_map_left_iff, List.forall₂_map_right_iff] at hall
      exact .list (forall₂_of_forall₂ hall fun v hv w hw => ih v hv (hws w hw))
    | number hy =>
      rw [Value.toDocument_number hy] at h
      cases h
    | _ => cases h

/-! ### Members of objects -/

namespace Document

/-- The last member of this name. -/
def last? (members : List (String × Document)) (name : String) : Option Document :=
  members.reverse.lookup name

variable {members members' : List (String × Document)} {name : String}

@[simp] theorem last?_nil : last? [] name = none := rfl

@[simp] theorem last?_append :
    last? (members ++ members') name = (last? members' name).or (last? members name) := by
  simp only [last?, List.reverse_append, List.lookup_append]

@[simp] theorem last?_cons {m : String × Document} : last? (m :: members) name =
    (last? members name).or (if name = m.1 then some m.2 else none) := by
  rw [← List.singleton_append, last?_append]
  congr 1
  exact OrderedMap.lookup_cons name m []

theorem lookup_insertMember (k : String) (value : Document) :
    (insertMember k value members).lookup name =
      if name = k then some value else members.lookup name := by
  induction members with
  | nil => exact OrderedMap.lookup_cons name (k, value) []
  | cons m rest ih =>
    unfold insertMember
    split
    · next hk => simp only [OrderedMap.lookup_cons, hk]; split <;> rfl
    · split
      · exact OrderedMap.lookup_cons name (k, value) (m :: rest)
      · next hk _ =>
        rw [OrderedMap.lookup_cons, OrderedMap.lookup_cons, ih]
        by_cases hm : name = m.1
        · rw [if_pos hm, if_pos hm, if_neg fun he => hk (he.symm.trans hm)]
        · rw [if_neg hm, if_neg hm]

/-- Of the members of one name the last one stays. -/
theorem lookup_ofMembers {sorted : List (String × Document)}
    (h : ofMembers members = .object sorted) : sorted.lookup name = last? members name := by
  suffices hall : ∀ acc : List (String × Document),
      (members.foldl (fun acc m => insertMember m.1 m.2 acc) acc).lookup name =
        (last? members name).or (acc.lookup name) by
    cases h
    rw [hall []]
    exact Option.or_none
  clear h
  induction members with
  | nil => exact fun _ => rfl
  | cons m rest ih =>
    intro acc
    rw [List.foldl_cons, ih, lookup_insertMember, last?_cons, Option.or_assoc]
    congr 1
    split <;> rfl

/-- Objects with the same data have the same members of every name. -/
theorem alike_ofMembers_iff : (ofMembers members).Alike r (ofMembers members') ↔
    ∀ name, Option.Rel (Document.Alike r) (last? members name) (last? members' name) := by
  have hobject : ∀ members, ∃ sorted, ofMembers members = .object sorted := fun _ => ⟨_, rfl⟩
  obtain ⟨sorted, h⟩ := hobject members
  obtain ⟨sorted', h'⟩ := hobject members'
  simp only [← lookup_ofMembers h, ← lookup_ofMembers h']
  rw [h, h']
  exact ⟨fun he => by cases he; assumption, .object⟩

/-- Under different names, every member is found. -/
theorem last?_map_entries {α : Type} (m : OrderedMap String α) (f : α → Document) :
    last? (m.entries.map fun e => (e.1, f e.2)) name = (m.find? name).map f := by
  obtain ⟨entries, hn⟩ := m
  unfold OrderedMap.find?
  dsimp only
  induction entries with
  | nil => rfl
  | cons e rest ih =>
    rw [List.map_cons, List.nodup_cons] at hn
    rw [List.map_cons, last?_cons, ih hn.2, OrderedMap.lookup_cons]
    by_cases hname : name = e.1
    · rw [if_pos hname, if_pos hname, hname, (OrderedMap.lookup_eq_none_iff _ _).2 hn.1]
      rfl
    · rw [if_neg hname, if_neg hname, Option.or_none]

end Document
end Schemata
