import WordPlaces.Ty.Struct

/-!
# The text of a type

Types are written in diagnostics, in events and in the names of utility routines.

## Main definitions

* `Ty.display` — the text of a type, as in `uint8[4] memory` or `(bool,struct S storage)`.
-/

set_option autoImplicit false

namespace WordPlaces

namespace Ty

/-- The text of a type; the declarations give the names of structs. -/
def display (structs : StructTable) : Ty → String
  | .bool => "bool"
  | .int bits signed => s!"{unsignedMark signed}int{bits}"
  | .address => "address"
  | .fixedBytes count => s!"bytes{count}"
  | .fixedPoint bits digits signed => s!"{unsignedMark signed}fixed{bits}x{digits}"
  | .enum name _ => s!"enum {name}"
  | .named name _ => name
  | .function .internal => "function internal"
  | .function .external => "function external"
  | .array element length location =>
    element.display structs ++ "[" ++ (length.map toString).getD "" ++ "] " ++ location.name
  | .struct d location => s!"struct {(structs.decl d).name} {location.name}"
  | .mapping key value =>
    "mapping(" ++ key.display structs ++ " => " ++ value.display structs ++ ")"
  | .tuple components => "(" ++ ",".intercalate (displays components) ++ ")"
where
  /-- Number types without a sign are marked by a leading `u`. -/
  unsignedMark (signed : Bool) : String := if signed then "" else "u"
  /-- The texts of a list of types. -/
  displays : List Ty → List String
  | [] => []
  | ty :: tys => ty.display structs :: displays tys

end Ty

end WordPlaces
