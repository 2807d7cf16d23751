import WordPlaces.Word

/-!
# Instructions

The instructions of the word stack machine.  Operands are taken from the top of the stack
first: `sub` computes the top less the slot below it, `shl` shifts the second slot by as many
bits as the top says, `mstore` and `sstore` write the second slot under the address or key on
top.

## Main definitions

* `StorageKind`, `Symbol`, `BinaryOp`, `UnaryOp` — what instructions are made of.
* `Instruction` — the instructions, with a short name for every machine operation.
* `Instruction.inputs`, `Instruction.outputs` — the slots an instruction takes and leaves.
* `Instruction.text` — the text of an instruction in a listing.
* `Code` — straight-line code.
-/

set_option autoImplicit false

namespace WordPlaces

/-- The two storage address spaces. -/
inductive StorageKind where
  | persistent
  /-- Addressed and encoded like persistent storage, and cleared after every transaction. -/
  | transient
  deriving Repr, DecidableEq, Inhabited

/-- The name of a storage kind in the log. -/
def StorageKind.name : StorageKind → String
  | persistent => "Persistent"
  | transient => "Transient"

/-- A value that is known only when the code is linked. -/
inductive Symbol where
  /-- The placeholder in deployed code for one word of an immutable variable. -/
  | immutable (name : String)
  /-- The address of a piece of code. -/
  | tag (name : String)
  deriving Repr, DecidableEq, Inhabited

namespace Symbol

/-- The tag an internal function value has before it is assigned. -/
def uninitializedFunction : Symbol := .tag "uninitialized_function"

/-- The text of a symbol in a listing. -/
def text : Symbol → String
  | immutable name => "immutable(\"" ++ name ++ "\")"
  | tag name => "tag(" ++ name ++ ")"

end Symbol

/-- The operations that take two words and leave one. -/
inductive BinaryOp where
  | add | sub | mul | div | exp | signExtend | and | or | byte | shl | shr
  deriving Repr, DecidableEq, Inhabited

/-- The mnemonic of an operation. -/
def BinaryOp.text : BinaryOp → String
  | add => "add" | sub => "sub" | mul => "mul" | div => "div" | exp => "exp"
  | signExtend => "signextend" | and => "and" | or => "or" | byte => "byte"
  | shl => "shl" | shr => "shr"

/-- The operations that take one word and leave one. -/
inductive UnaryOp where
  | not | isZero
  deriving Repr, DecidableEq, Inhabited

/-- The mnemonic of an operation. -/
def UnaryOp.text : UnaryOp → String
  | not => "not" | isZero => "iszero"

/-- The instructions. -/
inductive Instruction where
  | push (value : Word)
  | pushSymbol (symbol : Symbol)
  | pop
  /-- Copies slot `n`, counted from one at the top, onto the top. -/
  | dup (n : Nat)
  /-- Exchanges the top with the slot `n` below it. -/
  | swap (n : Nat)
  | unary (op : UnaryOp)
  | binary (op : BinaryOp)
  | mload
  | mstore
  /-- Writes the least significant byte of a word. -/
  | mstore8
  | sload (kind : StorageKind)
  | sstore (kind : StorageKind)
  /-- Calls a shared routine. -/
  | call (routine : String) (inputs outputs : Nat)
  deriving Repr, DecidableEq, Inhabited

/-- Straight-line code. -/
abbrev Code := List Instruction

namespace Instruction

/-! ## Short names -/

/-- The sum of the two top words. -/
abbrev add : Instruction := .binary .add
/-- The top word less the one below it. -/
abbrev sub : Instruction := .binary .sub
/-- The product of the two top words. -/
abbrev mul : Instruction := .binary .mul
/-- The top word divided by the one below it. -/
abbrev div : Instruction := .binary .div
/-- The top word to the power of the one below it. -/
abbrev exp : Instruction := .binary .exp
/-- The sign of the second word is extended from the byte that the top counts. -/
abbrev signExtend : Instruction := .binary .signExtend
/-- The bits that the two top words share. -/
abbrev and : Instruction := .binary .and
/-- The bits of either of the two top words. -/
abbrev or : Instruction := .binary .or
/-- The byte of the second word that the top counts. -/
abbrev byte : Instruction := .binary .byte
/-- The second word shifted to the left by the top. -/
abbrev shl : Instruction := .binary .shl
/-- The second word shifted to the right by the top. -/
abbrev shr : Instruction := .binary .shr
/-- The complement of the top word. -/
abbrev not : Instruction := .unary .not
/-- Whether the top word is zero. -/
abbrev isZero : Instruction := .unary .isZero

/-- Pushes a number, which is below `2 ^ 256` where it matters. -/
abbrev pushNat (n : Nat) : Instruction := .push (BitVec.ofNat 256 n)

/-! ## Stack effect and text -/

/-- The slots an instruction takes, those it only reads or exchanges included. -/
def inputs : Instruction → Nat
  | push _ | pushSymbol _ => 0
  | pop => 1
  | dup n => n
  | swap n => n + 1
  | unary _ | mload | sload _ => 1
  | binary _ | mstore | mstore8 | sstore _ => 2
  | call _ inputs _ => inputs

/-- The slots an instruction leaves in place of those it takes. -/
def outputs : Instruction → Nat
  | push _ | pushSymbol _ => 1
  | pop => 0
  | dup n => n + 1
  | swap n => n + 1
  | unary _ | binary _ | mload | sload _ => 1
  | mstore | mstore8 | sstore _ => 0
  | call _ _ outputs => outputs

/-- The text of an instruction in a listing. -/
def text : Instruction → String
  | push value => s!"push {value.hexText}"
  | pushSymbol symbol => s!"push {symbol.text}"
  | pop => "pop"
  | dup n => s!"dup{n}"
  | swap n => s!"swap{n}"
  | unary op => op.text
  | binary op => op.text
  | mload => "mload"
  | mstore => "mstore"
  | mstore8 => "mstore8"
  | sload .persistent => "sload"
  | sload .transient => "tload"
  | sstore .persistent => "sstore"
  | sstore .transient => "tstore"
  | call routine _ _ => s!"call {routine}"

end Instruction

end WordPlaces
