import Schemata.Proofs.Documents
import Schemata.Proofs.Pieces

/-! The document of a graph says everything about it.

Two graphs with finite numbers whose documents hold the same data agree place by place: on
all that elements and types have, where metadata, constraints and fields go by their names.
Kinds, fundamental types and arities can be read back from the texts that are written for
them; what is left out of a document is what says nothing. -/
namespace Schemata

open Document

variable {r : Float → Float → Prop} {s : Value → Value → Prop}

/-! ### Agreement -/

/-- The same names, with values that are the same by `s`. -/
def OrderedMap.Agrees (s : Value → Value → Prop) (m n : OrderedMap String Value) : Prop :=
  ∀ name, Option.Rel s (m.find? name) (n.find? name)

/-- The same data, up to `s` in the arguments of an extension. -/
inductive ElementData.Agrees (s : Value → Value → Prop) :
    ElementData ElementId → ElementData ElementId → Prop
  | same (data : ElementData ElementId) : ElementData.Agrees s data data
  | extension {vs ws : List Value} (h : List.Forall₂ s vs ws) :
    ElementData.Agrees s (.extension vs) (.extension ws)

/-- Two elements with all in common but the location and the order of their metadata. -/
structure Element.Agrees (s : Value → Value → Prop) (e f : Element ElementId) : Prop where
  kind : e.kind = f.kind
  name : e.name = f.name
  parent : e.parent = f.parent
  typeInfo : e.typeInfo = f.typeInfo
  isDefinition : e.isDefinition = f.isDefinition
  metadata : e.metadata.Agrees s f.metadata
  attributeNames : e.attributeNames = f.attributeNames
  extensions : e.extensions = f.extensions
  data : e.data.Agrees s f.data

/-- The same shape, up to `s` in constraints, and up to the order of constraints and fields. -/
inductive Shape.Agrees (s : Value → Value → Prop) : Shape → Shape → Prop
  | same (shape : Shape) : Shape.Agrees s shape shape
  | scalar (type : Fundamental) {c c' : Constraints} (h : OrderedMap.Agrees s c c') :
    Shape.Agrees s (.scalar ⟨type, c⟩) (.scalar ⟨type, c'⟩)
  | record (bases : List TypeInfoId) {fields fields' : OrderedMap String TypeInfoId}
    (h : ∀ name, fields.find? name = fields'.find? name) :
    Shape.Agrees s (.record ⟨bases, fields⟩) (.record ⟨bases, fields'⟩)

structure TypeInfo.Agrees (s : Value → Value → Prop) (info other : TypeInfo) : Prop where
  arity : info.arity = other.arity
  shape : info.shape.Agrees s other.shape

/-- As many elements and types, which agree place by place. -/
structure Graph.Agrees (s : Value → Value → Prop) (g h : Graph) : Prop where
  elements : List.Forall₂ (Element.Agrees s) g.elements.toList h.elements.toList
  typeInfos : List.Forall₂ (TypeInfo.Agrees s) g.typeInfos.infos.toList h.typeInfos.infos.toList

/-! ### Finite numbers -/

/-- Every number in the metadata and the arguments of an element is finite. -/
structure Element.Finite (e : Element ElementId) : Prop where
  metadata : ∀ v ∈ e.metadata.values, v.Finite
  arguments : ∀ vs, e.data = .extension vs → ∀ v ∈ vs, v.Finite

/-- Every number in the constraints of a type is finite. -/
def TypeInfo.Finite (info : TypeInfo) : Prop :=
  ∀ c, info.shape = .scalar c → ∀ v ∈ c.constraints.values, v.Finite

structure Graph.Finite (g : Graph) : Prop where
  elements : ∀ e ∈ g.elements.toList, e.Finite
  typeInfos : ∀ info ∈ g.typeInfos.infos.toList, info.Finite

/-! ### Texts that can be read back -/

theorem Kind.ofName?_name (k : Kind) : Kind.ofName? k.name = some k := by
  cases k <;> decide

theorem Kind.name_injective : Function.Injective Kind.name := fun k k' h =>
  Option.some.inj ((Kind.ofName?_name k).symm.trans (h ▸ Kind.ofName?_name k'))

theorem Fundamental.ofKeyword?_keyword (type : Fundamental) :
    Fundamental.ofKeyword? type.keyword = some type := by
  cases type <;> decide

theorem Fundamental.keyword_injective : Function.Injective Fundamental.keyword := fun t t' h =>
  Option.some.inj ((Fundamental.ofKeyword?_keyword t).symm.trans
    (h ▸ Fundamental.ofKeyword?_keyword t'))

/-- The number that these digits write. -/
def Arity.readNumber (digits : List Char) : Nat := Nat.ofDigitChars 10 digits 0

/-- Two numbers with a comma between them and a brace behind them; the second may be missing. -/
def Arity.readBraced (text : List Char) : Nat × Option Nat :=
  match Text.cut (· == ',') text with
  | some (least, greatest) =>
    (readNumber least, if greatest.length = 1 then none else some (readNumber greatest.dropLast))
  | none => (0, none)

/-- The bounds for which a text stands. -/
def Arity.readBounds : List Char → Nat × Option Nat
  | '\x7b' :: rest => readBraced rest
  | '?' :: _ => (0, some 1)
  | '*' :: _ => (0, none)
  | '+' :: _ => (1, none)
  | _ => (1, some 1)

theorem Arity.readNumber_toString (n : Nat) : readNumber (toString n).toList = n := by
  rw [Nat.toString_eq_repr, Nat.toList_repr]
  exact Nat.ofDigitChars_ten_toDigits

theorem Arity.isDigit_of_mem_toString {n : Nat} {c : Char} (h : c ∈ (toString n).toList) :
    c.isDigit := by
  rw [Nat.toString_eq_repr, Nat.toList_repr] at h
  exact Nat.isDigit_of_mem_toDigits (by decide) (by decide) h

theorem Arity.readBounds_render (a : Arity) :
    readBounds a.render.toList = (a.min, a.max) := by
  obtain ⟨min, max, _⟩ := a
  have hcomma : ∀ d ∈ (toString min).toList, (d == ',') = false := fun d hd => by
    have hdigit := isDigit_of_mem_toString hd
    refine beq_eq_false_iff_ne.2 fun he => ?_
    rw [he] at hdigit
    cases hdigit
  show readBounds (boundsText min max).toList = (min, max)
  unfold boundsText
  split
  · rfl
  · rfl
  · rfl
  · rfl
  · have htext : ("\x7b" ++ toString min ++ ",\x7d").toList =
        '\x7b' :: ((toString min).toList ++ ',' :: ['\x7d']) := by
      simp [String.toList_append]
    rw [htext]
    show readBraced _ = _
    unfold readBraced
    rw [Text.cut_append hcomma (beq_self_eq_true ',')]
    dsimp only
    rw [readNumber_toString]
    rfl
  · next greatest _ _ _ =>
    have htext : ("\x7b" ++ toString min ++ "," ++ toString greatest ++ "\x7d").toList =
        '\x7b' :: ((toString min).toList ++ ',' :: ((toString greatest).toList ++ ['\x7d'])) := by
      simp [String.toList_append]
    rw [htext]
    show readBraced _ = _
    unfold readBraced
    rw [Text.cut_append hcomma (beq_self_eq_true ',')]
    dsimp only
    rw [readNumber_toString, List.dropLast_concat, readNumber_toString, if_neg]
    simp

theorem Arity.render_injective : Function.Injective Arity.render := fun a b h => by
  have hbounds := (readBounds_render a).symm.trans (h ▸ readBounds_render b)
  exact Arity.ext (congrArg Prod.fst hbounds) (congrArg Prod.snd hbounds)

/-! ### Parts of documents -/

namespace Graph

variable {e f : Element ElementId} {i j : Nat} {name : String}

theorem alike_place_iff : (place i).Alike r (place j) ↔ i = j := by
  unfold place
  rw [alike_int_iff]
  exact Int.ofNat_inj

/-- What is written one by one can be read back one by one. -/
theorem eq_of_alike_map {α : Type} {l l' : List α} {f : α → Document}
    (hf : ∀ a b, (f a).Alike r (f b) → a = b)
    (h : (Document.array (l.map f)).Alike r (.array (l'.map f))) : l = l' := by
  rw [alike_array_iff, List.forall₂_map_left_iff, List.forall₂_map_right_iff] at h
  exact List.forall₂_eq_eq_eq ▸ h.imp hf

theorem eq_of_alike_elementPlaces {ids ids' : List ElementId}
    (h : (elementPlaces ids).Alike r (elementPlaces ids')) : ids = ids' :=
  eq_of_alike_map (fun _ _ hab => congrArg ElementId.mk (alike_place_iff.1 hab)) h

theorem eq_of_alike_typePlaces {ids ids' : List TypeInfoId}
    (h : (typePlaces ids).Alike r (typePlaces ids')) : ids = ids' :=
  eq_of_alike_map (fun _ _ hab => congrArg TypeInfoId.mk (alike_place_iff.1 hab)) h

theorem forall₂_of_alike_toDocuments {vs ws : List Value} (hv : ∀ v ∈ vs, v.Finite)
    (hw : ∀ w ∈ ws, w.Finite)
    (h : (Document.array (Value.toDocuments vs)).Alike r (.array (Value.toDocuments ws))) :
    List.Forall₂ (Value.Alike r) vs ws := by
  rw [alike_array_iff, Value.toDocuments_eq_map, Value.toDocuments_eq_map,
    List.forall₂_map_left_iff, List.forall₂_map_right_iff] at h
  exact forall₂_of_forall₂ h fun v hvs w hws => Value.alike_of_toDocument (hv v hvs) (hw w hws)

/-- Values by name can be read back by name. -/
theorem agrees_of_alike_values {m n : OrderedMap String Value} (hm : ∀ v ∈ m.values, v.Finite)
    (hn : ∀ v ∈ n.values, v.Finite) (h : (values m).Alike r (values n)) :
    m.Agrees (Value.Alike r) n := fun name => by
  have hname := alike_ofMembers_iff.1 h name
  rw [last?_map_entries, last?_map_entries] at hname
  cases hv : m.find? name with
  | none =>
    rw [hv] at hname
    cases hw : n.find? name with
    | none => exact .none
    | some w =>
      rw [hw] at hname
      cases hname
  | some v =>
    rw [hv] at hname
    cases hw : n.find? name with
    | none =>
      rw [hw] at hname
      cases hname
    | some w =>
      rw [hw] at hname
      exact .some (Value.alike_of_toDocument (hm v (OrderedMap.mem_values_of_find? hv))
        (hn w (OrderedMap.mem_values_of_find? hw)) (Option.rel_some_some.1 hname))

/-! ### Members that may be left out -/

@[simp] theorem last?_memberIf {present : Bool} {key : String} {value : Document} :
    last? (memberIf present key value) name =
      if name = key then if present then some value else none else none := by
  unfold memberIf
  cases present <;> simp

@[simp] theorem last?_optional {α : Type} {o : Option α} {key : String} {f : α → Document} :
    last? (o.map fun a => (key, f a)).toList name = if name = key then o.map f else none := by
  cases o <;> simp

theorem eq_of_optional {α : Type} {o o' : Option α} {f : α → Document}
    (hf : ∀ a b, (f a).Alike r (f b) → a = b)
    (h : Option.Rel (Document.Alike r) (o.map f) (o'.map f)) : o = o' := by
  cases o <;> cases o' <;> cases h
  · rfl
  · next hab => rw [hf _ _ hab]

theorem eq_of_flag {b b' : Bool} {d : Document}
    (h : Option.Rel (Document.Alike r) (if b then some d else none)
      (if b' then some d else none)) : b = b' := by
  cases b <;> cases b'
  · rfl
  · cases h
  · cases h
  · rfl

/-- A list that is left out where it is empty. -/
theorem eq_of_nonempty {α : Type} {l l' : List α} {d : List α → Document}
    (hd : (d l).Alike r (d l') → l = l')
    (h : Option.Rel (Document.Alike r) (if !l.isEmpty then some (d l) else none)
      (if !l'.isEmpty then some (d l') else none)) : l = l' := by
  cases l <;> cases l' <;> cases h
  · rfl
  · next hab => exact hd hab

/-- Values by name that are left out where there are none. -/
theorem agrees_of_nonempty_values {m n : OrderedMap String Value}
    (hm : ∀ v ∈ m.values, v.Finite) (hn : ∀ v ∈ n.values, v.Finite)
    (h : Option.Rel (Document.Alike r) (if !m.isEmpty then some (values m) else none)
      (if !n.isEmpty then some (values n) else none)) : m.Agrees (Value.Alike r) n := by
  have hnone : ∀ {m : OrderedMap String Value} (name : String), m.isEmpty = true →
      m.find? name = none := fun {m} name he => by
    unfold OrderedMap.find?
    rw [List.isEmpty_iff.1 he]
    rfl
  cases hem : m.isEmpty <;> cases hen : n.isEmpty <;> rw [hem, hen] at h
  · exact agrees_of_alike_values hm hn (Option.rel_some_some.1 h)
  · cases h
  · cases h
  · intro name
    rw [hnone name hem, hnone name hen]
    exact .none

/-! ### Elements -/

/-- The members that elements of all kinds may have. -/
def commonNames : List String :=
  ["id", "kind", "name", "parent", "type_info", "is_definition", "metadata", "attribute_names",
    "extensions"]

/-- What a kind adds has other names. -/
theorem last?_dataMembers_of_common (data : ElementData ElementId) (h : name ∈ commonNames) :
    last? (dataMembers data) name = none := by
  unfold commonNames at h
  simp only [List.mem_cons, List.not_mem_nil, or_false] at h
  rcases h with rfl | rfl | rfl | rfl | rfl | rfl | rfl | rfl | rfl <;>
    cases data <;> simp [dataMembers]

/-- The members that do not come from the kind. -/
def commonMembers (index : Nat) (e : Element ElementId) : List (String × Document) :=
  [("id", place index), ("kind", .text e.kind.name)] ++
    (e.name.map fun name => ("name", Document.text name)).toList ++
    (e.parent.map fun parent => ("parent", place parent.index)).toList ++
    [("type_info", place e.typeInfo.index)] ++
    memberIf e.isDefinition "is_definition" (.bool true) ++
    memberIf (!e.metadata.isEmpty) "metadata" (values e.metadata) ++
    memberIf (!e.attributeNames.isEmpty) "attribute_names" (.array (e.attributeNames.map .text)) ++
    memberIf (!e.extensions.isEmpty) "extensions" (elementPlaces e.extensions)

theorem elementMembers_eq (i : Nat) (e : Element ElementId) :
    elementMembers i e = commonMembers i e ++ dataMembers e.data := rfl

theorem last?_elementMembers_of_common (i : Nat) (e : Element ElementId)
    (h : name ∈ commonNames) :
    last? (elementMembers i e) name = last? (commonMembers i e) name := by
  rw [elementMembers_eq, last?_append, last?_dataMembers_of_common e.data h, Option.none_or]

/-- All other members come from the kind. -/
theorem last?_elementMembers (i : Nat) (e : Element ElementId) (h : name ∉ commonNames) :
    last? (elementMembers i e) name = last? (dataMembers e.data) name := by
  unfold commonNames at h
  simp only [List.mem_cons, List.not_mem_nil, or_false, not_or] at h
  rw [elementMembers_eq, last?_append]
  simp [commonMembers, h]

/-- The data of one kind can be told from the members that the kind adds. -/
theorem agrees_of_dataMembers {data data' : ElementData ElementId} (hkind : data.kind = data'.kind)
    (harguments : ∀ vs, data = .extension vs → ∀ v ∈ vs, v.Finite)
    (harguments' : ∀ vs, data' = .extension vs → ∀ v ∈ vs, v.Finite)
    (h : ∀ name, name ∉ commonNames → Option.Rel (Document.Alike r)
      (last? (dataMembers data) name) (last? (dataMembers data') name)) :
    data.Agrees (Value.Alike r) data' := by
  cases data with
  | fundamental type =>
    cases data' with
    | fundamental type' =>
      have htype : type.keyword = type'.keyword := by
        simpa [dataMembers] using h "fundamental" (by decide)
      rw [Fundamental.keyword_injective htype]
      exact .same _
    | _ => cases hkind
  | compound children definitions bases derived =>
    cases data' with
    | compound children' definitions' bases' derived' =>
      have hchildren : (elementPlaces children).Alike r (elementPlaces children') := by
        simpa [dataMembers] using h "children" (by decide)
      have hdefinitions : (elementPlaces definitions).Alike r (elementPlaces definitions') := by
        simpa [dataMembers] using h "definitions" (by decide)
      have hbases : (elementPlaces bases).Alike r (elementPlaces bases') := by
        simpa [dataMembers] using h "bases" (by decide)
      have hderived : (elementPlaces derived).Alike r (elementPlaces derived') := by
        simpa [dataMembers] using h "derived" (by decide)
      rw [eq_of_alike_elementPlaces hchildren, eq_of_alike_elementPlaces hdefinitions,
        eq_of_alike_elementPlaces hbases, eq_of_alike_elementPlaces hderived]
      exact .same _
    | _ => cases hkind
  | simple attributes valueName =>
    cases data' with
    | simple attributes' valueName' =>
      have hattributes : (elementPlaces attributes).Alike r (elementPlaces attributes') := by
        simpa [dataMembers] using h "attributes" (by decide)
      have hvalueName : valueName = valueName' := by
        simpa [dataMembers] using h "fundamental_attribute_name" (by decide)
      rw [eq_of_alike_elementPlaces hattributes, hvalueName]
      exact .same _
    | _ => cases hkind
  | variant variations =>
    cases data' with
    | variant variations' =>
      have hvariations : (elementPlaces variations).Alike r (elementPlaces variations') := by
        simpa [dataMembers] using h "variations" (by decide)
      rw [eq_of_alike_elementPlaces hvariations]
      exact .same _
    | _ => cases hkind
  | reference target =>
    cases data' with
    | reference target' =>
      have htarget : target.index = target'.index := by
        simpa [dataMembers, alike_place_iff] using h "reference" (by decide)
      rw [show target = target' from congrArg ElementId.mk htarget]
      exact .same _
    | _ => cases hkind
  | list target =>
    cases data' with
    | list target' =>
      have htarget : target.index = target'.index := by
        simpa [dataMembers, alike_place_iff] using h "reference" (by decide)
      rw [show target = target' from congrArg ElementId.mk htarget]
      exact .same _
    | _ => cases hkind
  | any =>
    cases data' with
    | any => exact .same _
    | _ => cases hkind
  | custom =>
    cases data' with
    | custom => exact .same _
    | _ => cases hkind
  | extension vs =>
    cases data' with
    | extension ws =>
      have hall : (Document.array (Value.toDocuments vs)).Alike r
          (.array (Value.toDocuments ws)) := by
        have hlast := h "arguments" (by decide)
        rw [dataMembers, dataMembers, last?_cons, last?_cons] at hlast
        exact Option.rel_some_some.1 hlast
      exact .extension (forall₂_of_alike_toDocuments (harguments vs rfl) (harguments' ws rfl) hall)
    | _ => cases hkind

theorem agrees_of_elementMembers (he : e.Finite) (hf : f.Finite)
    (h : (ofMembers (elementMembers i e)).Alike r (ofMembers (elementMembers j f))) :
    e.Agrees (Value.Alike r) f := by
  replace h := alike_ofMembers_iff.1 h
  have hcommon : ∀ name ∈ commonNames, Option.Rel (Document.Alike r)
      (last? (commonMembers i e) name) (last? (commonMembers j f) name) := fun name hname => by
    rw [← last?_elementMembers_of_common i e hname, ← last?_elementMembers_of_common j f hname]
    exact h name
  have hkind : e.kind.name = f.kind.name := by
    simpa [commonMembers] using hcommon "kind" (by decide)
  have hname : Option.Rel (Document.Alike r) (e.name.map .text) (f.name.map .text) := by
    simpa [commonMembers] using hcommon "name" (by decide)
  have hparent : Option.Rel (Document.Alike r) (e.parent.map fun parent => place parent.index)
      (f.parent.map fun parent => place parent.index) := by
    simpa [commonMembers] using hcommon "parent" (by decide)
  have htype : e.typeInfo.index = f.typeInfo.index := by
    simpa [commonMembers, alike_place_iff] using hcommon "type_info" (by decide)
  have hdefinition : Option.Rel (Document.Alike r)
      (if e.isDefinition then some (.bool true) else none)
      (if f.isDefinition then some (.bool true) else none) := by
    simpa [commonMembers] using hcommon "is_definition" (by decide)
  have hmetadata : Option.Rel (Document.Alike r)
      (if !e.metadata.isEmpty then some (values e.metadata) else none)
      (if !f.metadata.isEmpty then some (values f.metadata) else none) := by
    simpa [commonMembers] using hcommon "metadata" (by decide)
  have hnames : Option.Rel (Document.Alike r)
      (if !e.attributeNames.isEmpty then some (.array (e.attributeNames.map .text)) else none)
      (if !f.attributeNames.isEmpty then some (.array (f.attributeNames.map .text)) else none) := by
    simpa [commonMembers] using hcommon "attribute_names" (by decide)
  have hextensions : Option.Rel (Document.Alike r)
      (if !e.extensions.isEmpty then some (elementPlaces e.extensions) else none)
      (if !f.extensions.isEmpty then some (elementPlaces f.extensions) else none) := by
    simpa [commonMembers] using hcommon "extensions" (by decide)
  have hkinds : e.kind = f.kind := Kind.name_injective hkind
  refine ⟨hkinds, eq_of_optional (fun _ _ => alike_text_iff.1) hname,
    eq_of_optional (fun _ _ hab => congrArg ElementId.mk (alike_place_iff.1 hab)) hparent,
    congrArg TypeInfoId.mk htype, eq_of_flag hdefinition,
    agrees_of_nonempty_values he.metadata hf.metadata hmetadata,
    eq_of_nonempty (d := fun l => .array (l.map .text))
      (eq_of_alike_map fun _ _ => alike_text_iff.1) hnames,
    eq_of_nonempty eq_of_alike_elementPlaces hextensions, ?_⟩
  refine agrees_of_dataMembers hkinds he.arguments hf.arguments fun name hname => ?_
  rw [← last?_elementMembers i e hname, ← last?_elementMembers j f hname]
  exact h name

/-! ### Types -/

/-- The word for the form of a shape. -/
def shapeName : Shape → String
  | .scalar _ => "fundamental"
  | .record _ => "class"
  | .anyOf _ => "any_of"
  | .ref _ => "ref"
  | .any => "any"
  | .custom => "custom"
  | .extension => "extension"

theorem last?_shape (shape : Shape) :
    last? (shapeMembers shape) "shape" = some (.text (shapeName shape)) := by
  cases shape <;> simp [shapeMembers, shapeName]

/-- Shapes have no other members in common. -/
theorem last?_shapeMembers (shape : Shape) (h : name = "id" ∨ name = "arity") :
    last? (shapeMembers shape) name = none := by
  rcases h with rfl | rfl <;> cases shape <;> simp [shapeMembers]

theorem agrees_of_shapeMembers {shape shape' : Shape}
    (hfinite : ∀ c, shape = .scalar c → ∀ v ∈ c.constraints.values, v.Finite)
    (hfinite' : ∀ c, shape' = .scalar c → ∀ v ∈ c.constraints.values, v.Finite)
    (h : ∀ name, Option.Rel (Document.Alike r) (last? (shapeMembers shape) name)
      (last? (shapeMembers shape') name)) : shape.Agrees (Value.Alike r) shape' := by
  have hform : shapeName shape = shapeName shape' := by
    simpa [last?_shape] using h "shape"
  cases shape with
  | scalar c =>
    cases shape' with
    | scalar c' =>
      obtain ⟨type, constraints⟩ := c
      obtain ⟨type', constraints'⟩ := c'
      have htype : type.keyword = type'.keyword := by
        simpa [shapeMembers] using h "type"
      have hconstraints : (values constraints).Alike r (values constraints') := by
        simpa [shapeMembers] using h "constraints"
      rw [Fundamental.keyword_injective htype]
      exact .scalar type' (agrees_of_alike_values (hfinite _ rfl) (hfinite' _ rfl) hconstraints)
    | _ => simp [shapeName] at hform
  | record c =>
    cases shape' with
    | record c' =>
      obtain ⟨bases, fields⟩ := c
      obtain ⟨bases', fields'⟩ := c'
      have hbases : (typePlaces bases).Alike r (typePlaces bases') := by
        simpa [shapeMembers] using h "bases"
      have hfields : (ofMembers (fields.entries.map fun e => (e.1, place e.2.index))).Alike r
          (ofMembers (fields'.entries.map fun e => (e.1, place e.2.index))) := by
        simpa [shapeMembers] using h "fields"
      rw [eq_of_alike_typePlaces hbases]
      refine .record bases' fun name => ?_
      have hfield := alike_ofMembers_iff.1 hfields name
      rw [last?_map_entries fields fun p => place p.index,
        last?_map_entries fields' fun p => place p.index] at hfield
      exact eq_of_optional (fun _ _ hab => congrArg TypeInfoId.mk (alike_place_iff.1 hab)) hfield
    | _ => simp [shapeName] at hform
  | anyOf alternatives =>
    cases shape' with
    | anyOf alternatives' =>
      have halternatives : (typePlaces alternatives).Alike r (typePlaces alternatives') := by
        simpa [shapeMembers] using h "alternatives"
      rw [eq_of_alike_typePlaces halternatives]
      exact .same _
    | _ => simp [shapeName] at hform
  | ref target =>
    cases shape' with
    | ref target' =>
      have htarget : target.index = target'.index := by
        simpa [shapeMembers, alike_place_iff] using h "target"
      rw [show target = target' from congrArg TypeInfoId.mk htarget]
      exact .same _
    | _ => simp [shapeName] at hform
  | any =>
    cases shape' with
    | any => exact .same _
    | _ => simp [shapeName] at hform
  | custom =>
    cases shape' with
    | custom => exact .same _
    | _ => simp [shapeName] at hform
  | extension =>
    cases shape' with
    | extension => exact .same _
    | _ => simp [shapeName] at hform

theorem agrees_of_typeMembers {info info' : TypeInfo} (hi : info.Finite) (hi' : info'.Finite)
    (h : (ofMembers (typeMembers i info)).Alike r (ofMembers (typeMembers j info'))) :
    info.Agrees (Value.Alike r) info' := by
  replace h := alike_ofMembers_iff.1 h
  have harity : info.arity.render = info'.arity.render := by
    simpa [typeMembers, last?_shapeMembers] using h "arity"
  refine ⟨Arity.render_injective harity, agrees_of_shapeMembers hi hi' fun name => ?_⟩
  by_cases hname : name = "id" ∨ name = "arity"
  · rw [last?_shapeMembers _ hname, last?_shapeMembers _ hname]
    exact .none
  · rw [not_or] at hname
    simpa [typeMembers, hname.1, hname.2] using h name

/-! ### Graphs -/

/-- What is written place by place agrees place by place. -/
theorem forall₂_of_alike_mapIdx {α : Type} {S : α → α → Prop} {l l' : List α}
    {f f' : Nat → α → Document} (hS : ∀ i j, ∀ a ∈ l, ∀ b ∈ l', (f i a).Alike r (f' j b) → S a b)
    (h : List.Forall₂ (Document.Alike r) (l.mapIdx f) (l'.mapIdx f')) : List.Forall₂ S l l' := by
  induction l generalizing l' f f' with
  | nil =>
    cases l' with
    | nil => exact .nil
    | cons b l' =>
      rw [List.mapIdx_cons] at h
      cases h
  | cons a l ih =>
    cases l' with
    | nil =>
      rw [List.mapIdx_cons] at h
      cases h
    | cons b l' =>
      rw [List.mapIdx_cons, List.mapIdx_cons, List.forall₂_cons] at h
      exact .cons (hS 0 0 a List.mem_cons_self b List.mem_cons_self h.1)
        (ih (fun i j a ha b hb => hS (i + 1) (j + 1) a (List.mem_cons_of_mem _ ha) b
          (List.mem_cons_of_mem _ hb)) h.2)

theorem agrees_of_alike {g h : Graph} (hg : g.Finite) (hh : h.Finite)
    (hdoc : g.toDocument.Alike r h.toDocument) : g.Agrees (Value.Alike r) h := by
  have hmembers := alike_ofMembers_iff.1 hdoc
  have helements : List.Forall₂ (Document.Alike r)
      (g.elements.toList.mapIdx fun i e => ofMembers (elementMembers i e))
      (h.elements.toList.mapIdx fun i e => ofMembers (elementMembers i e)) := by
    simpa using hmembers "elements"
  have htypes : List.Forall₂ (Document.Alike r)
      (g.typeInfos.infos.toList.mapIdx fun i info => ofMembers (typeMembers i info))
      (h.typeInfos.infos.toList.mapIdx fun i info => ofMembers (typeMembers i info)) := by
    simpa using hmembers "type_infos"
  exact ⟨forall₂_of_alike_mapIdx (fun i j e he f hf =>
      agrees_of_elementMembers (hg.elements e he) (hh.elements f hf)) helements,
    forall₂_of_alike_mapIdx (fun i j info hi other ho =>
      agrees_of_typeMembers (hg.typeInfos info hi) (hh.typeInfos other ho)) htypes⟩

/-- **Documents are faithful.** Two graphs with finite numbers, whose documents hold the same data,
have as many elements and as many types, and agree on all that these have, place by place: with
whatever sameness of numbers documents are compared, and exactly so if the documents are equal. -/
theorem toDocument_faithful {g h : Graph} (hg : g.Finite) (hh : h.Finite) :
    (∀ r, g.toDocument.Alike r h.toDocument → g.Agrees (Value.Alike r) h) ∧
      (g.toDocument = h.toDocument → g.Agrees Eq h) := by
  refine ⟨fun r => agrees_of_alike hg hh, fun hdoc => ?_⟩
  rw [← Value.alike_eq]
  exact agrees_of_alike hg hh (hdoc ▸ Document.alike_refl (fun _ => rfl) _)

/-- An element and its type, with metadata, constraints and a place in the source. -/
def oneScalar (metadata : OrderedMap String Value) (constraints : Constraints)
    (location : Location) : Graph where
  elements := #[{ name := some "size", parent := none, typeInfo := ⟨0⟩, metadata,
                  isDefinition := true, location, data := .fundamental .int }]
  typeInfos := ⟨#[⟨.optional, .scalar ⟨.int, constraints⟩⟩]⟩

theorem finite_oneScalar {metadata : OrderedMap String Value} {constraints : Constraints}
    {location : Location} (hm : ∀ v ∈ metadata.values, v.Finite)
    (hc : ∀ v ∈ constraints.values, v.Finite) :
    (oneScalar metadata constraints location).Finite := by
  refine ⟨fun e he => ?_, fun info hi => ?_⟩
  · obtain rfl := List.mem_singleton.1 he
    exact ⟨hm, nofun⟩
  · obtain rfl := List.mem_singleton.1 hi
    intro c hc'
    cases hc'
    exact hc

/-- The order of metadata and constraints does not show in the document, nor does the place in the
source. -/
theorem oneScalar_faithful :
    let g := oneScalar (.ofList [("unit", .text "mm"), ("rank", .int 2)])
      (.ofList [("min", .int 0), ("max", .int 9)]) .builtin
    let h := oneScalar (.ofList [("rank", .int 2), ("unit", .text "mm")])
      (.ofList [("max", .int 9), ("min", .int 0)]) ⟨"sizes", 3, 1⟩
    g.Finite ∧ h.Finite ∧ g.toDocument = h.toDocument ∧ g.Agrees Eq h := by
  intro g h
  have hg : g.Finite := finite_oneScalar
    (List.forall_mem_cons.2 ⟨.text "mm", List.forall_mem_singleton.2 (.int 2)⟩)
    (List.forall_mem_cons.2 ⟨.int 0, List.forall_mem_singleton.2 (.int 9)⟩)
  have hh : h.Finite := finite_oneScalar
    (List.forall_mem_cons.2 ⟨.int 2, List.forall_mem_singleton.2 (.text "mm")⟩)
    (List.forall_mem_cons.2 ⟨.int 9, List.forall_mem_singleton.2 (.int 0)⟩)
  have hdoc : g.toDocument = h.toDocument := by rfl
  exact ⟨hg, hh, hdoc, (toDocument_faithful hg hh).2 hdoc⟩

end Graph
end Schemata
