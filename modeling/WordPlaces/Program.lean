import WordPlaces.CompileUnit

/-!
# Programs

A program collects the sections of the units that compile.  A unit that fails is reported and
dropped, and the next one is compiled all the same.

## Main definitions

* `BuildOptions` — what is logged on the way.
* `Program` — the units kept, the diagnostics and the log.
* `Program.compileUnit` — compiles a unit and keeps or drops it.
* `Program.finalize` — the assembler operations of all units of one kind.
-/

set_option autoImplicit false

namespace WordPlaces

/-- What is logged on the way. -/
structure BuildOptions where
  /-- The listing of every unit that is kept. -/
  logListings : Bool := false
  /-- The size of the finished code. -/
  logFinished : Bool := false
  deriving Repr, DecidableEq, Inhabited

/-- A unit that was compiled. -/
structure CompiledUnit where
  kind : CodeKind
  span : Span
  code : CodeSection
  deriving Inhabited

/-- What became of a unit. -/
inductive UnitOutcome where
  | kept
  /-- The unit was reported and left out. -/
  | dropped (d : Diagnostic)
  | fault (f : Fault)
  deriving DecidableEq

/-- The units of a program, with what was reported and logged. -/
structure Program where
  options : BuildOptions := {}
  structs : StructTable := {}
  units : Array CompiledUnit := #[]
  reporter : Reporter := {}
  events : Array Event := #[]
  deriving Inhabited

namespace Program

/-! ## Compiling -/

/-- Adds events to the log. -/
def log (p : Program) (events : Array Event) : Program := { p with events := p.events ++ events }

/-- The start of a new unit. -/
def openUnit (p : Program) (kind : CodeKind) : UnitContext :=
  { scope := { structs := p.structs, kind } }

/-- Keeps a unit. -/
def keepUnit (p : Program) (unit : CompiledUnit) : Program :=
  let p := if p.options.logListings then p.log #[.unitKept p.units.size unit.kind unit.code]
    else p
  { p with units := p.units.push unit }

/-- Reports the diagnostic for which a unit is dropped. -/
def dropUnit (p : Program) (d : Diagnostic) : Program :=
  let p := p.log #[.unitDropped d]
  { p with reporter := p.reporter.report d }

/-- Keeps or drops a unit, by how its compilation ended.  Diagnostics that arise later point to
`span`. -/
def closeUnit (p : Program) (span : Span) (result : Except Failure Unit) (ctx : UnitContext) :
    UnitOutcome × Program :=
  let p := p.log ctx.output.events
  match result with
  | .ok () => (.kept, p.keepUnit ⟨ctx.scope.kind, span, ctx.output.code⟩)
  | .error (.diagnostic d) => (.dropped d, p.dropUnit d)
  | .error (.fault f) => (.fault f, p)

/-- Compiles a unit, which stays of the kind that was asked for. -/
def compileUnit (p : Program) (kind : CodeKind) (span : Span) (body : Compile Unit) :
    UnitOutcome × Program :=
  let (result, ctx) := (body.run (p.openUnit kind)).run
  p.closeUnit span result { ctx with scope := { ctx.scope with kind } }

/-! ## Finishing -/

/-- Lowers units in order. -/
def lowerUnits : List CompiledUnit → Lower (List AsmOp)
  | [] => return []
  | unit :: units => do
    let ops ← lowerSection unit.span unit.code
    return ops ++ (← lowerUnits units)

/-- The operations of all units of one kind, in order, or the first failure. -/
def assemble (p : Program) (kind : CodeKind) : Except Failure (List AsmOp) :=
  ((lowerUnits (p.units.toList.filter (·.kind = kind))).run 0).run.1

/-- `assemble`, which is logged if it succeeds. -/
def finalize (p : Program) (kind : CodeKind) : Except Failure (List AsmOp) × Program :=
  let result := p.assemble kind
  match result with
  | .ok ops => (result, if p.options.logFinished then p.log #[.finished kind ops.length] else p)
  | .error _ => (result, p)

end Program

end WordPlaces
