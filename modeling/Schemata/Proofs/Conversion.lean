import Schemata.Attribute.Type
import Schemata.Proofs.Fold

/-! Values of a type.

Conversion ends with a value of the type's form, at whatever depth types are nested, and
leaves a value that has this form as it is. So the values of a form are exactly those
that conversion does not change (`hasForm_iff`), and converting once more changes
nothing (`convert_settles`). Values are compared as they are, both zeros apart. -/
namespace Schemata.AttributeType

variable {type inner : AttributeType} {v w t : Value}

/-- The value has the form of the type. -/
inductive HasForm : AttributeType → Value → Prop
  | text (s : String) : HasForm .string (.text s)
  | bool (b : Bool) : HasForm .bool (.bool b)
  | int (i : Int64) : HasForm .int (.int i)
  | number (x : Float) : HasForm .number (.number x)
  | oneOf {inner : AttributeType} {values : List Value} {v : Value} (h : HasForm inner v)
    (hlisted : ∃ w ∈ values, v == w) : HasForm (.oneOf inner values) v
  | list {inner : AttributeType} {vs : List Value} (h : ∀ v ∈ vs, HasForm inner v) :
    HasForm (.list inner) (.list vs)

/-! ### Of the form already -/

theorem convert_oneOf_eq_ok_iff {values : List Value} :
    (oneOf inner values).convert v = .ok t ↔
      inner.convert v = .ok t ∧ ∃ w ∈ values, t == w := by
  have hlisted : ∀ u, values.contains u = true ↔ ∃ w ∈ values, u == w := fun u =>
    List.contains_iff_exists_mem_beq
  constructor
  · intro h
    obtain ⟨u, hu, hcheck⟩ := bind_eq_ok (show (inner.convert v >>= _) = _ from h)
    split at hcheck
    · next hmem =>
      cases hcheck
      exact ⟨hu, (hlisted t).1 hmem⟩
    · cases hcheck
  · rintro ⟨hconvert, hmem⟩
    show (inner.convert v >>= _) = _
    rw [hconvert]
    exact if_pos ((hlisted t).2 hmem)

theorem HasForm.convert (h : type.HasForm v) : type.convert v = .ok v := by
  induction h with
  | text | bool | int | number => rfl
  | oneOf _ hlisted ih => exact convert_oneOf_eq_ok_iff.2 ⟨ih, hlisted⟩
  | @list inner vs _ ih =>
    show (vs.mapM inner.convert).map Value.list = _
    rw [mapM_eq_self ih]
    rfl

/-! ### Of the form after conversion -/

/-- A list is of the type's form if its values come from conversion to the inner type. -/
theorem hasForm_list_of_mapM {ι : Type} {f : ι → Value} {l : List ι}
    (ih : ∀ {v w : Value}, inner.convert v = .ok w → inner.HasForm w)
    (h : (l.mapM fun x => inner.convert (f x)).map Value.list = .ok t) :
    (list inner).HasForm t := by
  obtain ⟨ws, hws, rfl⟩ := map_eq_ok h
  refine .list fun w hw => ?_
  obtain ⟨x, _, hx⟩ := exists_of_mem_right (mapM_eq_ok hws) hw
  exact ih hx

theorem hasForm_of_convert (h : type.convert v = .ok t) : type.HasForm t := by
  induction type generalizing v t with
  | string =>
    cases v <;> cases h
    exact .text _
  | bool =>
    cases v with
    | bool b =>
      cases h
      exact .bool b
    | text s =>
      obtain ⟨b, _, rfl⟩ := map_eq_ok h
      exact .bool b
    | _ => cases h
  | int =>
    cases v with
    | int i =>
      cases h
      exact .int i
    | text s =>
      obtain ⟨i, _, rfl⟩ := map_eq_ok h
      exact .int i
    | _ => cases h
  | number =>
    cases v with
    | number x =>
      cases h
      exact .number x
    | int i =>
      cases h
      exact .number _
    | text s =>
      obtain ⟨x, _, rfl⟩ := map_eq_ok h
      exact .number x
    | _ => cases h
  | oneOf inner values ih =>
    obtain ⟨hconvert, hlisted⟩ := convert_oneOf_eq_ok_iff.1 h
    exact .oneOf (ih hconvert) hlisted
  | list inner ih =>
    have hsingle : ∀ {v : Value}, (inner.convert v).map (fun w => .list [w]) = .ok t →
        (list inner).HasForm t := fun hv => by
      obtain ⟨w, hw, rfl⟩ := map_eq_ok hv
      exact .list fun u hu => List.mem_singleton.1 hu ▸ ih hw
    -- a list and a text have parts, and any other value is the only part of its list
    cases v with
    | list vs => exact hasForm_list_of_mapM ih (f := id) h
    | text s => exact hasForm_list_of_mapM ih (f := Value.text) h
    | bool | int | number => exact hsingle h

/-! ### Both together -/

/-- What is of a type stays as it is when it is converted to that type. -/
theorem convert_convert (h : type.convert v = .ok w) : type.convert w = .ok w :=
  (hasForm_of_convert h).convert

/-- The values of a form are those that conversion leaves as they are. -/
theorem hasForm_iff : type.HasForm v ↔ type.convert v = .ok v :=
  ⟨HasForm.convert, hasForm_of_convert⟩

/-- **Conversion settles a value**: what it yields has the form of the type, and is yielded again
when it is converted again. -/
theorem convert_settles {type : AttributeType} {v t : Value} (h : type.convert v = .ok t) :
    type.convert t = .ok t ∧ type.HasForm t :=
  ⟨convert_convert h, hasForm_of_convert h⟩

/-- A text of two parts, each of which becomes a list that is among those listed. -/
theorem listedParts_settle :
    (list (oneOf (list .int) [.list [.int 1], .list [.int 2]])).convert (.text "2, 1") =
        .ok (.list [.list [.int 2], .list [.int 1]]) ∧
      (list (oneOf (list .int) [.list [.int 1], .list [.int 2]])).convert
        (.list [.list [.int 2], .list [.int 1]]) = .ok (.list [.list [.int 2], .list [.int 1]]) ∧
      (list (oneOf (list .int) [.list [.int 1], .list [.int 2]])).HasForm
        (.list [.list [.int 2], .list [.int 1]]) :=
  ⟨rfl, convert_settles (v := .text "2, 1") rfl⟩

end Schemata.AttributeType
