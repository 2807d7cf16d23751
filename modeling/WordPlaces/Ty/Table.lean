import WordPlaces.Ty.Struct

/-!
# Numbered types

A type table gives every type it meets a number, in the order in which types are first met.
A type is met after its components, so that a type never has a smaller number than one it is
built from; equal types have one number.

## Main definitions

* `TypeTable` — the numbered types and the struct declarations they may mention.
* `TypeTable.insert` — the number of a type, given to it if it has none.
* `TypeTable.get?` — the type with a number.
* `TypeTable.insertMembers` — numbers the member types of a struct type.
-/

set_option autoImplicit false

namespace WordPlaces

/-- The number of a type. -/
abbrev TypeId := Nat

/-- The types met so far, each at its number, and the struct declarations. -/
structure TypeTable where
  types : Array Ty := #[]
  structs : StructTable := {}
  deriving Inhabited

namespace TypeTable

/-- The type with the given number. -/
def get? (table : TypeTable) (id : TypeId) : Option Ty := table.types[id]?

/-- The number of a type that has been met. -/
def idOf? (table : TypeTable) (ty : Ty) : Option TypeId := table.types.findIdx? (· == ty)

/-- Numbers a type whose components have been met. -/
def insertNode (table : TypeTable) (ty : Ty) : TypeTable :=
  if (table.idOf? ty).isSome then table else { table with types := table.types.push ty }

/-- Numbers a type, after the types it is built from.  Nothing is left to do for a type that has
been met, since its components were met before it. -/
def meet (table : TypeTable) (ty : Ty) : TypeTable :=
  if (table.idOf? ty).isSome then table
  else match ty with
  | .named name underlying => (table.meet underlying).insertNode (.named name underlying)
  | .array element length location =>
    (table.meet element).insertNode (.array element length location)
  | .mapping key value => ((table.meet key).meet value).insertNode (.mapping key value)
  | .tuple components => (meetAll table components).insertNode (.tuple components)
  | ty => table.insertNode ty
where
  /-- Numbers the types of a list in order. -/
  meetAll (table : TypeTable) : List Ty → TypeTable
  | [] => table
  | ty :: tys => meetAll (table.meet ty) tys

/-- The number of a type, and the table that knows it. -/
def insert (table : TypeTable) (ty : Ty) : TypeId × TypeTable :=
  let table := table.meet ty
  ((table.idOf? ty).getD 0, table)

/-- Declares a struct; its number is the number of structs declared before. -/
def declareStruct (table : TypeTable) (name : String) (members : List Member) :
    Except Fault (StructId × TypeTable) :=
  (table.structs.declare name members).map fun structs =>
    (table.structs.decls.size, { table with structs })

/-- The members of a struct type, with the numbers of their relocated types. -/
def insertMembers (table : TypeTable) (ty : Ty) :
    Except Fault (List (TypeId × StructTable.Field) × TypeTable) :=
  (table.structs.membersOf ty).map fun fields =>
    fields.foldl
      (fun (numbered, table) f =>
        let (id, table) := table.insert f.ty
        (numbered ++ [(id, f)], table))
      ([], table)

end TypeTable

end WordPlaces
