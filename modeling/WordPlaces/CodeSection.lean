import WordPlaces.Fault
import WordPlaces.Instruction

/-!
# Code sections

A section is a listing that grows at its end, together with the height of the operand stack
after it.  An instruction that takes more slots than there are is refused, so the height is
that of every run of the listing.

## Main definitions

* `CodeKind` — what code becomes a part of.
* `CodeSection` — the listing and the height.
* `CodeSection.heightAfter` — the height after an instruction, if it can be added.
* `CodeSection.push`, `CodeSection.append` — add an instruction, the latter if it is allowed.
* `CodeSection.text` — the listing, an indented instruction to a line.
-/

set_option autoImplicit false

namespace WordPlaces

/-- Which code a section becomes a part of. -/
inductive CodeKind where
  /-- Code that runs once and initialises the state; immutables live in memory cells. -/
  | creation
  /-- Deployed code; immutables are placeholders with their final value. -/
  | runtime
  deriving Repr, DecidableEq, Inhabited

/-- The name of a code kind in the log. -/
def CodeKind.name : CodeKind → String
  | creation => "Creation"
  | runtime => "Runtime"

/-- A listing and the height of the operand stack it leaves. -/
structure CodeSection where
  ops : Array Instruction := #[]
  height : Nat := 0
  deriving Repr, DecidableEq, Inhabited

namespace CodeSection

/-- The section without instructions on a stack of the given height. -/
def ofHeight (height : Nat) : CodeSection := ⟨#[], height⟩

/-- The height after an instruction, which needs its inputs to be there. -/
def heightAfter (code : CodeSection) (op : Instruction) : Except Fault Nat :=
  if code.height < op.inputs then .error (.stackUnderflow op.text op.inputs code.height)
  else checkedCount (code.height - op.inputs + op.outputs)

/-- Adds an instruction at the end, after which the stack has the given height. -/
def push (code : CodeSection) (op : Instruction) (height : Nat) : CodeSection :=
  ⟨code.ops.push op, height⟩

/-- Adds an instruction at the end, if its inputs are there. -/
def append (code : CodeSection) (op : Instruction) : Except Fault CodeSection :=
  (code.heightAfter op).map (code.push op)

/-- The listing, an indented instruction to a line. -/
def text (code : CodeSection) : String :=
  code.ops.foldl (fun text op => text ++ "    " ++ op.text ++ "\n") ""

end CodeSection

end WordPlaces
