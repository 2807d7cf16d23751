import WordPlaces.Fault
import WordPlaces.Span

/-!
# Diagnostics

What the author of a compiled program is told: a limit of the machine was hit, or a valid
construct is not supported.  A diagnostic rejects the unit it arises in; the next unit is
compiled all the same, so diagnostics add up.

## Main definitions

* `Diagnostic`, `Diagnostic.message` — the kinds and their wording.
* `Failure` — a diagnostic or a fault.
* `Reporter` — the diagnostics reported so far.
-/

set_option autoImplicit false

namespace WordPlaces

/-- What is wrong with a unit, and where. -/
inductive Diagnostic where
  /-- A slot too far below the top of the stack. -/
  | stackTooDeep (depth : Nat) (span : Span)
  /-- A valid construct that is not supported. -/
  | unimplemented (feature : String) (span : Span)
  /-- The same, with advice. -/
  | unimplementedWithHelp (feature help : String) (span : Span)
  deriving DecidableEq, Inhabited

namespace Diagnostic

/-- The wording of a diagnostic. -/
def message : Diagnostic → String
  | stackTooDeep depth _ =>
    s!"Stack too deep: the accessed value is {depth} slots below the top of the stack, but "
      ++ "only the top 16 slots can be addressed. Try removing local variables or splitting the "
      ++ "expression."
  | unimplemented feature _ => s!"Unimplemented feature: {feature}"
  | unimplementedWithHelp feature help _ =>
    s!"Unimplemented feature: {feature}\nhelp: {help}.\n"

/-- Where the diagnostic points. -/
def span : Diagnostic → Span
  | stackTooDeep _ span | unimplemented _ span | unimplementedWithHelp _ _ span => span

/-- The construct is valid but not supported, as opposed to a limit that was hit. -/
def isUnimplemented : Diagnostic → Bool
  | stackTooDeep .. => false
  | unimplemented .. | unimplementedWithHelp .. => true

end Diagnostic

/-- Why generating code stops. -/
inductive Failure where
  | diagnostic (diagnostic : Diagnostic)
  | fault (fault : Fault)
  deriving DecidableEq

/-- The diagnostics reported so far, in order. -/
structure Reporter where
  errors : Array Diagnostic := #[]
  deriving DecidableEq, Inhabited

namespace Reporter

/-- Adds a diagnostic. -/
def report (r : Reporter) (d : Diagnostic) : Reporter := ⟨r.errors.push d⟩

/-- Whether any diagnostic was reported. -/
def hasErrors (r : Reporter) : Bool := !r.errors.isEmpty

/-- The number of diagnostics reported. -/
def count (r : Reporter) : Nat := r.errors.size

end Reporter

end WordPlaces
