import WordPlaces.Ty.Struct

/-!
# The kinds and the widths of types

## Main definitions

* `Ty.HasWidth` — the types that a slot has room for.
* `Ty.WellNamed` — the types that are no other name of an external function.
* `Ty.readSize` — the words that a value of the type is read as.

## Main results

* `Ty.isValueType_of_isMapping`, `Ty.isValueType_of_isArray`, `Ty.isMapping_of_isArray` — value types,
  mappings and arrays exclude each other.
* `Ty.bytes_of_encoding?_eq_ok` — the width in the encoding of a type is that of its layout.
* `Ty.sizeOnStack_of_encoding?_eq_ok` — the stack slots of a value are those of its encoding.
* `Ty.WellNamed.readSize_eq` — a value takes the stack slots that it is read as.
* `Ty.storageBytes_of_not_isValueType`, `Ty.storageSlots_of_isValueType` — every type takes whole
  slots or no more than one.
-/

set_option autoImplicit false

namespace WordPlaces

namespace Ty

/-- The widths that a slot has room for. -/
def HasWidth (ty : Ty) : Prop := 1 ≤ ty.storageBytes ∧ ty.storageBytes ≤ 32

instance (ty : Ty) : Decidable ty.HasWidth := inferInstanceAs (Decidable (_ ∧ _))

/-! ## Kinds of types -/

/-- A value type is no mapping. -/
theorem isMapping_of_isValueType {ty : Ty} (h : ty.isValueType = true) : ty.isMapping = false := by
  cases ty <;> first | rfl | contradiction

/-- A value type is no array. -/
theorem isArray_of_isValueType {ty : Ty} (h : ty.isValueType = true) : ty.isArray = false := by
  cases ty <;> first | rfl | contradiction

/-- A mapping is no array. -/
theorem isArray_of_isMapping {ty : Ty} (h : ty.isMapping = true) : ty.isArray = false := by
  cases ty <;> first | rfl | contradiction

/-- A mapping is no value type. -/
theorem isValueType_of_isMapping {ty : Ty} (h : ty.isMapping = true) : ty.isValueType = false := by
  cases ty <;> first | rfl | contradiction

/-- An array is no value type. -/
theorem isValueType_of_isArray {ty : Ty} (h : ty.isArray = true) : ty.isValueType = false := by
  cases ty <;> first | rfl | contradiction

/-- An array is no mapping. -/
theorem isMapping_of_isArray {ty : Ty} (h : ty.isArray = true) : ty.isMapping = false := by
  cases ty <;> first | rfl | contradiction

/-- Types are value types wherever they are seen. -/
theorem isValueType_located (ty : Ty) (location : DataLocation) :
    (ty.located location).isValueType = ty.isValueType := by
  cases ty <;> rfl

/-- The data location does not change whether a type is a mapping. -/
theorem isMapping_located (ty : Ty) (location : DataLocation) :
    (ty.located location).isMapping = ty.isMapping := by
  cases ty <;> rfl

/-- An array is one wherever it is seen. -/
theorem isArray_located (ty : Ty) (location : DataLocation) :
    (ty.located location).isArray = ty.isArray := by
  cases ty <;> rfl

/-! ## Widths -/

/-- A type that is no value type has no packed encoding. -/
theorem encoding?_of_not_isValueType {ty : Ty} (h : ty.isValueType = false) :
    ty.encoding? = .error .referenceEncoding := by
  cases ty <;> first | rfl | contradiction

/-- A type that is no value type takes whole slots. -/
theorem storageBytes_of_not_isValueType {ty : Ty} (h : ty.isValueType = false) :
    ty.storageBytes = 32 := by
  cases ty <;> first | rfl | contradiction

/-- A value type takes no more than a slot. -/
theorem storageSlots_of_isValueType (structs : StructTable) {ty : Ty}
    (h : ty.isValueType = true) : structs.storageSlots ty = .ok 1 := by
  cases ty <;> first | rfl | contradiction

/-- Types with a packed encoding are value types. -/
theorem isValueType_of_encoding?_eq_ok {ty : Ty} {e : Encoding} (h : ty.encoding? = .ok e) :
    ty.isValueType = true := by
  cases ty <;> first | rfl | contradiction

/-- Types with a packed encoding are no mappings. -/
theorem isMapping_of_encoding?_eq_ok {ty : Ty} {e : Encoding} (h : ty.encoding? = .ok e) :
    ty.isMapping = false := isMapping_of_isValueType (isValueType_of_encoding?_eq_ok h)

/-- The packed encoding has the width that the layout counts with. -/
theorem bytes_of_encoding?_eq_ok {ty : Ty} {e : Encoding} (h : ty.encoding? = .ok e) :
    e.bytes = ty.storageBytes := by
  induction ty using encoding?.induct with
  | case7 name underlying ih => exact ih h
  | case10 | case11 | case12 | case13 => contradiction
  | _ =>
    obtain rfl := Except.ok.inj h
    rfl

/-- The type has the encoding of external functions only if it is the type of external functions.  A
named type is made over a type whose values are one word. -/
def WellNamed (ty : Ty) : Prop :=
  ∀ e, ty.encoding? = .ok e → e.form = .externalFunction → ty = .function .external

/-- A type that has the encoding of external functions and is not their type is a name. -/
theorem exists_eq_named_of_not_wellNamed {ty : Ty} (h : ¬ty.WellNamed) :
    ∃ name underlying e, ty = .named name underlying ∧ ty.encoding? = .ok e ∧ e.form = .externalFunction := by
  obtain ⟨e, h⟩ := Classical.not_forall.1 h
  obtain ⟨he, h⟩ := Classical.not_imp.1 h
  obtain ⟨hform, hne⟩ := Classical.not_imp.1 h
  cases ty with
  | named name underlying => exact ⟨name, underlying, e, rfl, he, hform⟩
  | function kind =>
    cases kind with
    | internal =>
      obtain rfl := Except.ok.inj he
      contradiction
    | external => exact absurd rfl hne
  | array | struct | mapping | tuple => contradiction
  | _ =>
    obtain rfl := Except.ok.inj he
    contradiction

/-- A value takes two stack slots if it is an external function, and one if it is another value
type. -/
theorem sizeOnStack_of_encoding?_eq_ok {ty : Ty} {e : Encoding} (h : ty.encoding? = .ok e)
    (hexternal : e.form = .externalFunction → ty = .function .external) :
    ty.sizeOnStack = if e.form = .externalFunction then 2 else 1 := by
  have hvalue := isValueType_of_encoding?_eq_ok h
  split
  · rename_i hform
    obtain rfl := hexternal hform
    rfl
  · rename_i hform
    cases ty with
    | function kind =>
      cases kind with
      | internal => rfl
      | external =>
        obtain rfl := Except.ok.inj h
        exact absurd rfl hform
    | array | struct | mapping | tuple => contradiction
    | _ => rfl

/-- An external function is kept in 24 bytes, whatever it is named. -/
theorem bytes_of_externalFunction {ty : Ty} {e : Encoding} (h : ty.encoding? = .ok e)
    (hform : e.form = .externalFunction) : e.bytes = 24 := by
  induction ty using encoding?.induct with
  | case7 name underlying ih => exact ih h
  | case9 =>
    obtain rfl := Except.ok.inj h
    rfl
  | case10 | case11 | case12 | case13 => contradiction
  | _ =>
    obtain rfl := Except.ok.inj h
    contradiction

/-- Whole words are no external functions. -/
theorem form_ne_of_isFullWord {ty : Ty} {e : Encoding} (h : ty.encoding? = .ok e)
    (hfull : e.isFullWord = true) : e.form ≠ .externalFunction := by
  intro hform
  rw [Encoding.isFullWord, bytes_of_externalFunction h hform] at hfull
  contradiction

/-- A value type is the same wherever it is seen. -/
theorem located_of_isValueType {ty : Ty} (h : ty.isValueType = true) (location : DataLocation) :
    ty.located location = ty := by
  cases ty <;> first | rfl | contradiction

/-- A type has the same encoding wherever it is seen. -/
theorem encoding?_located (ty : Ty) (location : DataLocation) :
    (ty.located location).encoding? = ty.encoding? := by
  cases ty <;> rfl

/-- A value type takes a stack slot. -/
theorem one_le_sizeOnStack {ty : Ty} (h : ty.isValueType = true) : 1 ≤ ty.sizeOnStack := by
  cases ty with
  | function kind => cases kind <;> decide
  | array | struct | mapping | tuple => contradiction
  | _ => exact Nat.le_refl 1

/-- A reference to memory is one word. -/
theorem sizeOnStack_of_location?_eq_memory {ty : Ty} (h : ty.location? = some .memory) :
    ty.sizeOnStack = 1 := by
  cases ty with
  | array element length location =>
    obtain rfl := Option.some.inj h
    cases length <;> rfl
  | struct d location => rfl
  | _ => contradiction

/-! ## Words that are read -/

/-- The words that a value of the type is read as: two for an external function, whatever it is named, and
one for every other value and for a reference. -/
def readSize (ty : Ty) : Nat :=
  match ty.encoding? with
  | .ok e => if e.form = .externalFunction then 2 else 1
  | .error _ => 1

/-- A value is read as the words of its encoding. -/
theorem readSize_of_encoding?_eq_ok {ty : Ty} {e : Encoding} (h : ty.encoding? = .ok e) :
    ty.readSize = if e.form = .externalFunction then 2 else 1 := by
  rw [readSize, h]

/-- A reference is read as one word. -/
theorem readSize_of_not_isValueType {ty : Ty} (h : ty.isValueType = false) : ty.readSize = 1 := by
  rw [readSize, encoding?_of_not_isValueType h]

/-- A value is read as the same words wherever it is seen. -/
theorem readSize_located (ty : Ty) (location : DataLocation) :
    (ty.located location).readSize = ty.readSize := by
  rw [readSize, encoding?_located]
  rfl

/-- Every value is read as a word. -/
theorem one_le_readSize (ty : Ty) : 1 ≤ ty.readSize := by
  unfold readSize
  split
  · split <;> decide
  · exact Nat.le_refl 1

/-- A value type takes no more stack slots than it is read as. -/
theorem sizeOnStack_le_readSize {ty : Ty} (h : ty.isValueType = true) : ty.sizeOnStack ≤ ty.readSize := by
  cases ty with
  | function kind => cases kind <;> decide
  | array | struct | mapping | tuple => contradiction
  | _ => exact one_le_readSize _

/-- A value type that is no other name of an external function takes the stack slots that it is read
as. -/
theorem WellNamed.readSize_eq {ty : Ty} (h : ty.WellNamed) (hvalue : ty.isValueType = true) :
    ty.readSize = ty.sizeOnStack := by
  cases he : ty.encoding? with
  | ok e => rw [readSize_of_encoding?_eq_ok he, sizeOnStack_of_encoding?_eq_ok he (h e he)]
  | error f =>
    rw [readSize, he]
    cases ty with
    | named => rfl
    | function kind => cases kind <;> contradiction
    | _ => contradiction

end Ty

end WordPlaces
