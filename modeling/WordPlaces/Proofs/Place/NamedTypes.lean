import WordPlaces.Place.Basic
import WordPlaces.Proofs.Place.StorageValue

/-!
# Value types under names of their own

A named type takes the room of the type it names and is read and written like that type, except
where code generation asks which type it has rather than how its values are kept.  It does so in three
places: a function value of the named type is not recognised when its stack slots are counted and
when its zero value is pushed, and a truth value is cleaned up like a number of one byte.

## Main definitions

* `Ty.renamed` — a type under a sequence of names.
* `Emit.Alike` — computations that end alike and emit the same instructions.
* `Ty.UsedLike` — every answer about one type, and the code of every access, is that of another.
* `Ty.Agree` — what code generation asks of a value type.

## Main results

* `Ty.Agree.usedLike` — code generation asks nothing else.
* `Ty.usedLike_renamed_iff` — the types that are used like the type they name.
-/

set_option autoImplicit false

namespace WordPlaces

/-- Two computations end alike and emit the same instructions, in every scope and whatever was
emitted before. -/
def Emit.Alike (x y : Emit Unit) : Prop :=
  ∀ sc out, (x.exec sc out).1 = (y.exec sc out).1 ∧
    (x.exec sc out).2.code = (y.exec sc out).2.code

/-- A computation emits what it emits. -/
theorem Emit.Alike.of_eq {x y : Emit Unit} (h : x = y) : x.Alike y :=
  fun _ _ => h ▸ ⟨rfl, rfl⟩

namespace StorageItem

variable {item : StorageItem}

/-- A value type is cleared as one. -/
theorem setToZero_eq_clearValue (hvalue : item.ty.isValueType = true) (remove : Bool) :
    item.setToZero remove = (do
      if !remove then copyToTop 2 2
      item.clearValue) := by
  obtain ⟨ty, kind⟩ := item
  cases ty <;> first | rfl | contradiction

end StorageItem

namespace Ty

/-- The type under names of its own, the outermost first. -/
def renamed (names : List String) (ty : Ty) : Ty := names.foldr .named ty

/-- All questions about `a` are answered as for `b`, and accesses of places of type `a` with source type
`a` emit what those of places of type `b` with source type `b` do. -/
structure UsedLike (a b : Ty) : Prop where
  isValueType : a.isValueType = b.isValueType
  sizeOnStack : a.sizeOnStack = b.sizeOnStack
  storageBytes : a.storageBytes = b.storageBytes
  storageSlots (structs : StructTable) : structs.storageSlots a = structs.storageSlots b
  encoding : a.encoding? = b.encoding?
  memoryBytes (padded : Bool) : a.memoryBytes padded = b.memoryBytes padded
  cleanupValue : (cleanupValue a).Alike (cleanupValue b)
  pushZeroValue : (pushZeroValue a).Alike (pushZeroValue b)
  loadFromMemory (padded : Bool) : (loadFromMemory a padded).Alike (loadFromMemory b padded)
  storeInMemory (padded : Bool) : (storeInMemory a padded).Alike (storeInMemory b padded)
  retrieveStorage (kind : StorageKind) (remove : Bool) :
    ((⟨a, kind⟩ : StorageItem).retrieve remove).Alike ((⟨b, kind⟩ : StorageItem).retrieve remove)
  storeStorage (kind : StorageKind) (move : Bool) :
    ((⟨a, kind⟩ : StorageItem).store a move).Alike ((⟨b, kind⟩ : StorageItem).store b move)
  setToZeroStorage (kind : StorageKind) (remove : Bool) :
    ((⟨a, kind⟩ : StorageItem).setToZero remove).Alike ((⟨b, kind⟩ : StorageItem).setToZero remove)
  retrieveMemory (padded remove : Bool) :
    ((⟨a, padded⟩ : MemoryCell).retrieve remove).Alike ((⟨b, padded⟩ : MemoryCell).retrieve remove)
  storeMemory (padded move : Bool) :
    ((⟨a, padded⟩ : MemoryCell).store a move).Alike ((⟨b, padded⟩ : MemoryCell).store b move)
  setToZeroMemory (padded remove : Bool) :
    ((⟨a, padded⟩ : MemoryCell).setToZero remove).Alike
      ((⟨b, padded⟩ : MemoryCell).setToZero remove)
  retrieveStack (base : Nat) :
    (⟨a, base⟩ : StackVariable).retrieve.Alike (⟨b, base⟩ : StackVariable).retrieve
  storeStack (base : Nat) (move : Bool) :
    ((⟨a, base⟩ : StackVariable).store move).Alike ((⟨b, base⟩ : StackVariable).store move)
  setToZeroStack (base : Nat) :
    (⟨a, base⟩ : StackVariable).setToZero.Alike (⟨b, base⟩ : StackVariable).setToZero
  retrieveImmutable (v : Variable) :
    (⟨{ v with ty := a }⟩ : ImmutableVariable).retrieve.Alike
      (⟨{ v with ty := b }⟩ : ImmutableVariable).retrieve
  storeImmutable (v : Variable) (move : Bool) :
    ((⟨{ v with ty := a }⟩ : ImmutableVariable).store a move).Alike
      ((⟨{ v with ty := b }⟩ : ImmutableVariable).store b move)
  setToZeroImmutable (v : Variable) :
    (⟨{ v with ty := a }⟩ : ImmutableVariable).setToZero.Alike
      (⟨{ v with ty := b }⟩ : ImmutableVariable).setToZero

/-! ## What code generation asks -/

/-- Two value types about which code generation finds the same. -/
structure Agree (a b : Ty) : Prop where
  isValueType : a.isValueType = true
  isValueType' : b.isValueType = true
  sizeOnStack : a.sizeOnStack = b.sizeOnStack
  storageBytes : a.storageBytes = b.storageBytes
  encoding : a.encoding? = b.encoding?
  isBool : a = .bool ↔ b = .bool
  zero : WordPlaces.pushZeroValue a = WordPlaces.pushZeroValue b

namespace Agree

variable {a b : Ty} (h : Agree a b)

include h

/-- They take the same bytes in memory. -/
theorem memoryBytes (padded : Bool) : a.memoryBytes padded = b.memoryBytes padded := by
  rw [Ty.memoryBytes, Ty.memoryBytes, h.isValueType, h.isValueType', h.storageBytes]

/-- They are brought into their canonical form alike. -/
theorem cleanupValue : cleanupValue a = cleanupValue b := by
  simp only [WordPlaces.cleanupValue, h.encoding, h.isBool]

/-- Each is converted to itself alike. -/
theorem convertType (cleanup chopSignBits : Bool) :
    convertType a a cleanup chopSignBits = convertType b b cleanup chopSignBits := by
  simp only [WordPlaces.convertType, h.isValueType, h.isValueType', h.cleanupValue, h.encoding,
    Bool.and_self, if_true]

/-- They are read from an address alike. -/
theorem loadFromMemory (padded : Bool) : loadFromMemory a padded = loadFromMemory b padded := by
  simp only [WordPlaces.loadFromMemory, h.memoryBytes, h.encoding]

/-- They are written behind an address alike. -/
theorem storeInMemory (padded : Bool) : storeInMemory a padded = storeInMemory b padded := by
  simp only [WordPlaces.storeInMemory, h.isValueType, h.isValueType', h.memoryBytes, h.encoding,
    h.convertType, if_true]

/-- They are packed alike. -/
theorem packValue : packValue a a = packValue b b := by
  simp only [WordPlaces.packValue, h.encoding, h.convertType]

/-! ### Accesses -/

/-- They are read from storage alike. -/
theorem retrieveStorage (kind : StorageKind) (remove : Bool) :
    (⟨a, kind⟩ : StorageItem).retrieve remove = (⟨b, kind⟩ : StorageItem).retrieve remove := by
  simp only [StorageItem.retrieve, h.isValueType, h.isValueType', h.encoding, Bool.not_true,
    Bool.false_eq_true, if_false]

/-- They are written to storage alike. -/
theorem storeStorage (kind : StorageKind) (move : Bool) :
    (⟨a, kind⟩ : StorageItem).store a move = (⟨b, kind⟩ : StorageItem).store b move := by
  rw [StorageItem.store_eq_storeValue h.isValueType, StorageItem.store_eq_storeValue h.isValueType']
  simp only [StorageItem.storeValue, h.encoding, h.convertType, h.packValue, h.sizeOnStack, popElement]

/-- They are cleared in storage alike. -/
theorem setToZeroStorage (kind : StorageKind) (remove : Bool) :
    (⟨a, kind⟩ : StorageItem).setToZero remove = (⟨b, kind⟩ : StorageItem).setToZero remove := by
  rw [StorageItem.setToZero_eq_clearValue h.isValueType,
    StorageItem.setToZero_eq_clearValue h.isValueType']
  simp only [StorageItem.clearValue, h.encoding]

/-- They are read from memory cells alike. -/
theorem retrieveMemory (padded remove : Bool) :
    (⟨a, padded⟩ : MemoryCell).retrieve remove = (⟨b, padded⟩ : MemoryCell).retrieve remove := by
  simp only [MemoryCell.retrieve, h.isValueType, h.isValueType', h.loadFromMemory, if_true]

/-- Their values are written to memory cells alike. -/
theorem writeMemory (padded : Bool) :
    (⟨a, padded⟩ : MemoryCell).write = (⟨b, padded⟩ : MemoryCell).write := by
  simp only [MemoryCell.write, h.storeInMemory, h.memoryBytes, h.encoding]

/-- They are assigned to memory cells alike. -/
theorem storeMemory (padded move : Bool) :
    (⟨a, padded⟩ : MemoryCell).store a move = (⟨b, padded⟩ : MemoryCell).store b move := by
  simp only [MemoryCell.store, h.isValueType, h.isValueType', h.sizeOnStack, h.convertType,
    h.writeMemory, Bool.not_true, Bool.false_eq_true, if_false]

/-- They are cleared in memory cells alike. -/
theorem setToZeroMemory (padded remove : Bool) :
    (⟨a, padded⟩ : MemoryCell).setToZero remove = (⟨b, padded⟩ : MemoryCell).setToZero remove := by
  simp only [MemoryCell.setToZero, h.zero, h.storeInMemory]

/-- Local variables of both have the same slots. -/
theorem sizeStack (base : Nat) :
    (⟨a, base⟩ : StackVariable).size = (⟨b, base⟩ : StackVariable).size :=
  h.sizeOnStack

/-- They are read from local variables alike. -/
theorem retrieveStack (base : Nat) :
    (⟨a, base⟩ : StackVariable).retrieve = (⟨b, base⟩ : StackVariable).retrieve := by
  simp only [StackVariable.retrieve, h.sizeStack]

/-- They are assigned to local variables alike. -/
theorem storeStack (base : Nat) (move : Bool) :
    (⟨a, base⟩ : StackVariable).store move = (⟨b, base⟩ : StackVariable).store move := by
  simp only [StackVariable.store, StackVariable.overwrite, h.sizeStack, h.retrieveStack]

/-- They are cleared in local variables alike. -/
theorem setToZeroStack (base : Nat) :
    (⟨a, base⟩ : StackVariable).setToZero = (⟨b, base⟩ : StackVariable).setToZero := by
  simp only [StackVariable.setToZero, h.zero, h.storeStack]

section Immutable

variable (v : Variable)

/-- Immutables of both have the same placeholders. -/
theorem placeholders : { v with ty := a }.placeholders = { v with ty := b }.placeholders := by
  simp only [Variable.placeholders, h.sizeOnStack]

/-- Neither is refused as a reference in an immutable. -/
theorem rejectReference :
    (⟨{ v with ty := a }⟩ : ImmutableVariable).rejectReference =
      (⟨{ v with ty := b }⟩ : ImmutableVariable).rejectReference := by
  simp only [ImmutableVariable.rejectReference, h.isValueType, h.isValueType']

/-- They are read from immutables alike. -/
theorem retrieveImmutable :
    (⟨{ v with ty := a }⟩ : ImmutableVariable).retrieve =
      (⟨{ v with ty := b }⟩ : ImmutableVariable).retrieve := by
  simp only [ImmutableVariable.retrieve, h.rejectReference v, h.placeholders v, h.loadFromMemory,
    ImmutableVariable.pushAddress]

/-- They are assigned to immutables alike. -/
theorem storeImmutable (move : Bool) :
    (⟨{ v with ty := a }⟩ : ImmutableVariable).store a move =
      (⟨{ v with ty := b }⟩ : ImmutableVariable).store b move := by
  simp only [ImmutableVariable.store, h.rejectReference v, h.isValueType, h.isValueType',
    h.sizeOnStack, h.convertType, h.storeInMemory, ImmutableVariable.pushAddress]

/-- They are cleared in immutables alike. -/
theorem setToZeroImmutable :
    (⟨{ v with ty := a }⟩ : ImmutableVariable).setToZero =
      (⟨{ v with ty := b }⟩ : ImmutableVariable).setToZero := by
  simp only [ImmutableVariable.setToZero, h.rejectReference v, h.zero, h.storeInMemory,
    ImmutableVariable.pushAddress]

end Immutable

/-- Value types about which code generation finds the same are used alike. -/
theorem usedLike : UsedLike a b where
  isValueType := h.isValueType.trans h.isValueType'.symm
  sizeOnStack := h.sizeOnStack
  storageBytes := h.storageBytes
  storageSlots structs := by
    rw [storageSlots_of_isValueType structs h.isValueType,
      storageSlots_of_isValueType structs h.isValueType']
  encoding := h.encoding
  memoryBytes := h.memoryBytes
  cleanupValue := .of_eq h.cleanupValue
  pushZeroValue := .of_eq h.zero
  loadFromMemory padded := .of_eq (h.loadFromMemory padded)
  storeInMemory padded := .of_eq (h.storeInMemory padded)
  retrieveStorage kind remove := .of_eq (h.retrieveStorage kind remove)
  storeStorage kind move := .of_eq (h.storeStorage kind move)
  setToZeroStorage kind remove := .of_eq (h.setToZeroStorage kind remove)
  retrieveMemory padded remove := .of_eq (h.retrieveMemory padded remove)
  storeMemory padded move := .of_eq (h.storeMemory padded move)
  setToZeroMemory padded remove := .of_eq (h.setToZeroMemory padded remove)
  retrieveStack base := .of_eq (h.retrieveStack base)
  storeStack base move := .of_eq (h.storeStack base move)
  setToZeroStack base := .of_eq (h.setToZeroStack base)
  retrieveImmutable v := .of_eq (h.retrieveImmutable v)
  storeImmutable v move := .of_eq (h.storeImmutable v move)
  setToZeroImmutable v := .of_eq (h.setToZeroImmutable v)

end Agree

/-! ## Names -/

section Names

variable (names : List String) (ty : Ty)

/-- A name does not change how many bytes a type takes in storage. -/
theorem storageBytes_renamed : (ty.renamed names).storageBytes = ty.storageBytes := by
  induction names with
  | nil => rfl
  | cons name names ih => exact ih

/-- A name does not change the packed encoding of a type. -/
theorem encoding?_renamed : (ty.renamed names).encoding? = ty.encoding? := by
  induction names with
  | nil => rfl
  | cons name names ih => exact ih

variable {ty}

/-- A value type that is neither that of truth values nor one of function values agrees with itself
under any names, and every value type does without one. -/
theorem agree_renamed (hvalue : ty.isValueType = true)
    (h : names = [] ∨ (ty ≠ .bool ∧ ∀ kind, ty ≠ .function kind)) :
    Agree (ty.renamed names) ty := by
  cases names with
  | nil => exact ⟨hvalue, hvalue, rfl, rfl, rfl, .rfl, rfl⟩
  | cons name names =>
    obtain ⟨hbool, hfunction⟩ := h.resolve_left (List.cons_ne_nil _ _)
    refine ⟨rfl, hvalue, ?_, storageBytes_renamed _ ty, encoding?_renamed _ ty, ?_, ?_⟩
    · cases ty <;> first | rfl | contradiction | exact absurd rfl (hfunction _)
    · exact ⟨nofun, fun h => absurd h hbool⟩
    · cases ty <;> first | rfl | contradiction | exact absurd rfl (hfunction _)

end Names

/-! ## Where code generation asks for the type -/

section Exceptions

variable (name : String) (names : List String)

/-- A truth value of a named type is cleaned up like a number of one byte. -/
theorem cleanupValue_named_bool :
    cleanupValue (.named name (Ty.bool.renamed names)) = emitAll (Fragment.keepLowBytes 1) := by
  have hencoding : (named name (Ty.bool.renamed names)).encoding? = Ty.bool.encoding? :=
    encoding?_renamed names .bool
  have hbool : named name (Ty.bool.renamed names) ≠ .bool := nofun
  simp only [WordPlaces.cleanupValue, hencoding, hbool, if_false]
  rfl

/-- A truth value is not used alike under a name, as its canonical form is not the same. -/
theorem not_usedLike_named_bool : ¬ UsedLike (.named name (Ty.bool.renamed names)) .bool := by
  intro h
  have hcode := (h.cleanupValue {} { code := .ofHeight 1 }).2
  rw [cleanupValue_named_bool] at hcode
  exact absurd hcode (by decide)

/-- The zero value of a named type is always made of zero words. -/
theorem not_usedLike_named_internal :
    ¬ UsedLike (.named name ((Ty.function .internal).renamed names)) (.function .internal) := by
  intro h
  have hcode : ((repeatEmit 1 (emit (.push 0))).exec {} {}).2.code =
      ((emit (.pushSymbol .uninitializedFunction)).exec {} {}).2.code :=
    (h.pushZeroValue {} {}).2
  exact absurd hcode (by decide)

/-- A value of a named type always takes one stack slot. -/
theorem not_usedLike_named_external :
    ¬ UsedLike (.named name ((Ty.function .external).renamed names)) (.function .external) :=
  fun h => absurd h.sizeOnStack (show ¬ 1 = 2 by decide)

end Exceptions

/-- Under names of its own a value type is used like itself exactly if it is neither the type of truth
values nor a type of function values.  It may be a named type itself, and then what it names does not
matter any more.

**Proof sketch.**  A type that is not excepted agrees with itself under names (`agree_renamed`), and
agreement is all that the answers and the code of the accesses depend on (`Agree.usedLike`).  Of the
excepted types one answer or the code of one access differs. -/
theorem usedLike_renamed_iff {ty : Ty} (hvalue : ty.isValueType = true) (names : List String) :
    UsedLike (ty.renamed names) ty ↔
      names = [] ∨ (ty ≠ .bool ∧ ∀ kind, ty ≠ .function kind) := by
  constructor
  · intro h
    cases names with
    | nil => exact .inl rfl
    | cons name names =>
      refine .inr ⟨?_, ?_⟩
      · rintro rfl
        exact not_usedLike_named_bool name names h
      · rintro (_ | _) rfl
        · exact not_usedLike_named_internal name names h
        · exact not_usedLike_named_external name names h
  · exact fun h => (agree_renamed names hvalue h).usedLike

/-- A signed number under two names. -/
theorem usedLike_renamed_iff_price :
    (Ty.int 16 true).isValueType = true ∧
      UsedLike (.named "Quote" (.named "Price" (.int 16 true))) (.int 16 true) :=
  ⟨rfl, (usedLike_renamed_iff rfl ["Quote", "Price"]).2 (.inr ⟨nofun, nofun⟩)⟩

/-- Types that are not used like the types that they name.  Cleaning up the word `0x102` makes the truth
value `1` of it, and the word `2`, which is none, under a name. -/
theorem not_usedLike_named :
    ¬ UsedLike (.named "Flag" .bool) .bool ∧
      ¬ UsedLike (.named "Handler" (.function .internal)) (.function .internal) ∧
      ¬ UsedLike (.named "Callback" (.function .external)) (.function .external) ∧
      ((cleanupValue .bool).exec {} { code := .ofHeight 1 }).2.code.ops = #[.isZero, .isZero] ∧
      (({ stack := [0x102] } : Machine).run [.isZero, .isZero]).map (·.stack) = .ok [1] ∧
      ((cleanupValue (.named "Flag" .bool)).exec {} { code := .ofHeight 1 }).2.code.ops =
        #[.push 0xff, .and] ∧
      (({ stack := [0x102] } : Machine).run [.push 0xff, .and]).map (·.stack) = .ok [2] :=
  ⟨not_usedLike_named_bool "Flag" [], not_usedLike_named_internal "Handler" [],
    not_usedLike_named_external "Callback" [], by decide, by decide,
    (cleanupValue_named_bool "Flag" []).symm ▸ by decide, by decide⟩

end Ty

end WordPlaces
