import WordPlaces.CodeSection
import WordPlaces.Diagnostic

/-!
# Assembly

Sections become assembler operations with symbolic labels.  A call of a routine becomes a jump
to the routine's label: a fresh return label is pushed and moved below the arguments, so that
the routine finds its arguments on top of where it returns to.  All sections of one program
draw their return labels from one counter.

## Main definitions

* `AsmOp` — the operations, and `AsmOp.text` — their text.
* `Lower` — computations that draw return labels.
* `lowerInstruction`, `lowerSection` — the operations of an instruction and of a section.
-/

set_option autoImplicit false

namespace WordPlaces

/-- The label of a place in the assembled code. -/
abbrev Label := String

/-- The assembler operations. -/
inductive AsmOp where
  /-- Pushes a number in as few bytes as it needs. -/
  | pushNumber (value : Word)
  /-- Pushes the address of a label. -/
  | pushLabel (l : Label)
  /-- Pushes a label in a full word, so that the linker can put a word in its place. -/
  | pushPlaceholder (l : Label)
  | pop
  /-- Duplicates one of the sixteen topmost slots. -/
  | dup (n : Nat)
  /-- Exchanges the top with one of the sixteen slots below it. -/
  | swap (n : Nat)
  | unary (op : UnaryOp)
  | binary (op : BinaryOp)
  | mload
  | mstore
  | mstore8
  | sload
  | sstore
  /-- Takes an address from the stack and continues there. -/
  | jump
  /-- Names the address of the next operation. -/
  | label (l : Label)
  /-- Marks an address as one that is jumped to. -/
  | jumpDest
  deriving Repr, DecidableEq, Inhabited

/-- The text of an assembler operation. -/
def AsmOp.text : AsmOp → String
  | pushNumber value => s!"%push({value.toNat})"
  | pushLabel l => s!"%push(Label({l}))"
  | pushPlaceholder l => s!"push32 Label({l})"
  | pop => "pop"
  | dup n => s!"dup{n}"
  | swap n => s!"swap{n}"
  | unary op => op.text
  | binary op => op.text
  | mload => "mload"
  | mstore => "mstore"
  | mstore8 => "mstore8"
  | sload => "sload"
  | sstore => "sstore"
  | jump => "jump"
  | label l => s!"{l}:"
  | jumpDest => "jumpdest"

/-! ## Labels -/

/-- The label with the given number, where a routine returns to. -/
def returnLabel (n : Nat) : Label := s!"utility_return_{n}"

/-- The label of the placeholder of an immutable. -/
def placeholderLabel (name : String) : Label := s!"immutable_{name}"

/-! ## Lowering -/

/-- How far down the stack instructions reach. -/
def stackWindow : Nat := 16

/-- Computations that draw return labels; the state is the number of the next one, and it is
kept when they fail. -/
abbrev Lower := ExceptT Failure (StateM Nat)

/-- Draws a return label. -/
def freshLabel : Lower Label := do
  let n ← getModify (· + 1)
  return returnLabel n

/-- The duplication of slot `n`. -/
def AsmOp.dup? (n : Nat) : Except Fault AsmOp :=
  if 1 ≤ n ∧ n ≤ stackWindow then .ok (.dup n) else .error (.dupOutOfRange n)

/-- The exchange with slot `n`. -/
def AsmOp.swap? (n : Nat) : Except Fault AsmOp :=
  if 1 ≤ n ∧ n ≤ stackWindow then .ok (.swap n) else .error (.swapOutOfRange n)

/-- Moves the top slot below the `count` slots under it.  The number of an exchange is kept in
one byte. -/
def sinkTop : Nat → Except Fault (List AsmOp)
  | 0 => .ok []
  | count + 1 => do
    let op ← AsmOp.swap? ((count + 1) % 256)
    return op :: (← sinkTop count)

/-- Fails with a fault. -/
def Lower.ofExcept {α : Type} (x : Except Fault α) : Lower α :=
  match x with
  | .ok a => pure a
  | .error fault => throw (.fault fault)

/-- The operations of an instruction of a unit with the given span. -/
def lowerInstruction (span : Span) : Instruction → Lower (List AsmOp)
  | .push value => return [.pushNumber value]
  | .pushSymbol (.tag name) => return [.pushLabel name]
  | .pushSymbol (.immutable name) => return [.pushPlaceholder (placeholderLabel name)]
  | .pop => return [.pop]
  | .dup n => return [← Lower.ofExcept (AsmOp.dup? n)]
  | .swap n => return [← Lower.ofExcept (AsmOp.swap? n)]
  | .unary op => return [.unary op]
  | .binary op => return [.binary op]
  | .mload => return [.mload]
  | .mstore => return [.mstore]
  | .mstore8 => return [.mstore8]
  | .sload .persistent => return [.sload]
  | .sstore .persistent => return [.sstore]
  | .sload .transient | .sstore .transient =>
    throw <| .diagnostic <| .unimplementedWithHelp
      "Transient storage opcodes are not available in the london instruction set."
      "use persistent storage for this variable" span
  | .call routine inputs _ => do
    let back ← freshLabel
    let sink ← Lower.ofExcept (sinkTop inputs)
    return [.pushLabel back] ++ sink ++ [.pushLabel routine, .jump, .label back, .jumpDest]

/-- The operations of straight-line code. -/
def lowerCode (span : Span) : Code → Lower (List AsmOp)
  | [] => return []
  | op :: code => do
    let ops ← lowerInstruction span op
    return ops ++ (← lowerCode span code)

/-- The operations of a section that was compiled from a unit with the given span. -/
def lowerSection (span : Span) (code : CodeSection) : Lower (List AsmOp) :=
  lowerCode span code.ops.toList

end WordPlaces
