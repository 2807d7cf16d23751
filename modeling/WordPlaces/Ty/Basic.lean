/-!
# Types

The types of the values that places hold.  A type is a tree; a struct type names its
declaration by number, so that two struct types are the same struct exactly when the numbers
agree, whatever their data locations.

## Main definitions

* `Ty` — the type categories.
* `Ty.isValueType`, `Ty.isMapping`, `Ty.location?`, `Ty.sameStruct` — questions about a type.
* `Ty.sizeOnStack` — how many operand stack slots a value takes.
* `Ty.located` — the same type seen through another data location.
* `Ty.nestsBelow` — the structs that a value consists of have numbers below a bound.
-/

set_option autoImplicit false

namespace WordPlaces

/-- The data location a reference type points into. -/
inductive DataLocation where
  | storage
  | memory
  | calldata
  deriving Repr, DecidableEq, Inhabited

/-- The name of a data location in the text of a type. -/
def DataLocation.name : DataLocation → String
  | .storage => "storage"
  | .memory => "memory"
  | .calldata => "calldata"

/-- What a function value points at. -/
inductive FunctionKind where
  /-- A code tag of the same contract. -/
  | internal
  /-- An address and a selector. -/
  | external
  deriving Repr, DecidableEq, Inhabited

/-- The number of a struct declaration. -/
abbrev StructId := Nat

/-- The type categories. -/
inductive Ty where
  | bool
  | int (bits : Nat) (signed : Bool)
  | address
  | fixedBytes (count : Nat)
  | fixedPoint (bits fractionalDigits : Nat) (signed : Bool)
  | enum (name : String) (variants : Nat)
  /-- A value type under a name of its own. -/
  | named (name : String) (underlying : Ty)
  | function (kind : FunctionKind)
  /-- An array; without a length its size is dynamic. -/
  | array (element : Ty) (length : Option Nat) (location : DataLocation)
  | struct (decl : StructId) (location : DataLocation)
  | mapping (key value : Ty)
  | tuple (components : List Ty)
  deriving Repr, Inhabited

namespace Ty

/-! ## Equality -/

/-- Types of different categories differ. -/
theorem ne_of_ctorIdx_ne {a b : Ty} (h : a.ctorIdx ≠ b.ctorIdx) : a ≠ b := fun e => h (e ▸ rfl)

/-- Decides whether two types are the same tree.  A type may be built from many copies of one
subtree, which are a single object in memory: an object equals itself, so only the part of two
trees that is not shared is compared, and only up to the first difference. -/
def decEq (a b : Ty) : Decidable (a = b) :=
  withPtrEqDecEq a b fun _ =>
    if h : a.ctorIdx = b.ctorIdx then
      match a, b, h with
      | .bool, .bool, _ | .address, .address, _ => isTrue rfl
      | .int bits signed, .int bits' signed', _ =>
        decidable_of_iff (bits = bits' ∧ signed = signed') (by simp)
      | .fixedBytes count, .fixedBytes count', _ => decidable_of_iff (count = count') (by simp)
      | .fixedPoint bits digits signed, .fixedPoint bits' digits' signed', _ =>
        decidable_of_iff (bits = bits' ∧ digits = digits' ∧ signed = signed') (by simp)
      | .enum name variants, .enum name' variants', _ =>
        decidable_of_iff (name = name' ∧ variants = variants') (by simp)
      | .named name ty, .named name' ty', _ =>
        if hname : name = name' then
          have := decEq ty ty'
          decidable_of_iff (ty = ty') (by simp [hname])
        else isFalse (by simp [hname])
      | .function kind, .function kind', _ => decidable_of_iff (kind = kind') (by simp)
      | .array ty length location, .array ty' length' location', _ =>
        if hdims : length = length' ∧ location = location' then
          have := decEq ty ty'
          decidable_of_iff (ty = ty') (by simp [hdims])
        else isFalse (by simp [hdims])
      | .struct d location, .struct d' location', _ =>
        decidable_of_iff (d = d' ∧ location = location') (by simp)
      | .mapping key value, .mapping key' value', _ =>
        match decEq key key' with
        | isTrue hkey =>
          have := decEq value value'
          decidable_of_iff (value = value') (by simp [hkey])
        | isFalse hkey => isFalse (by simp [hkey])
      | .tuple tys, .tuple tys', _ =>
        have := decEqs tys tys'
        decidable_of_iff (tys = tys') (by simp)
    else isFalse (ne_of_ctorIdx_ne h)
where
  /-- Decides whether two lists of types are the same. -/
  decEqs : (as bs : List Ty) → Decidable (as = bs)
  | [], [] => isTrue rfl
  | a :: as, b :: bs =>
    match decEq a b with
    | isTrue h =>
      have := decEqs as bs
      decidable_of_iff (as = bs) (by simp [h])
    | isFalse h => isFalse (by simp [h])
  | [], _ :: _ | _ :: _, [] => isFalse (by simp)

instance : DecidableEq Ty := decEq

/-! ## Questions about a type -/

/-- Value types are copied by value and fit a bounded number of stack slots. -/
def isValueType : Ty → Bool
  | .array .. | .struct .. | .mapping .. | .tuple _ => false
  | _ => true

/-- The type is a mapping. -/
def isMapping : Ty → Bool
  | .mapping .. => true
  | _ => false

/-- The type is an array. -/
def isArray : Ty → Bool
  | .array .. => true
  | _ => false

/-- The data location of an array or struct. -/
def location? : Ty → Option DataLocation
  | .array _ _ location | .struct _ location => some location
  | _ => none

/-- Both types are struct types of one declaration. -/
def sameStruct : Ty → Ty → Bool
  | .struct decl _, .struct decl' _ => decl == decl'
  | _, _ => false

/-- The stack slots a value takes: two for an external function and for a dynamic array in call
data, which carries its length, and one for each other component. -/
def sizeOnStack : Ty → Nat
  | .function .external => 2
  | .array _ none .calldata => 2
  | .tuple components => sizes components
  | _ => 1
where
  /-- The stack slots values of these types take together. -/
  sizes : List Ty → Nat
  | [] => 0
  | ty :: tys => ty.sizeOnStack + sizes tys

/-- The type seen through another data location.  Arrays move with their elements; value types,
mappings and tuples stay as they are. -/
def located (location : DataLocation) : Ty → Ty
  | .array element length _ => .array (element.located location) length location
  | .struct decl _ => .struct decl location
  | ty => ty

/-- The structs that a value of the type consists of, alone or as the elements of an array, have
numbers below `bound`. -/
def nestsBelow (bound : StructId) : Ty → Bool
  | .array element _ _ => element.nestsBelow bound
  | .struct d _ => d < bound
  | _ => true

end Ty

end WordPlaces
