import WordPlaces.Program
import WordPlaces.Proofs.Assembly.Lowering

/-!
# What the code of a program depends on

A program is asked to compile units and to finish the code of a kind, any number of times and in any
order.  The units that succeed are kept and the diagnostics of the others are reported, both in
order, and the code of a kind is made of the kept units of that kind alone: it is the code of a
program that was asked for nothing else.

## Main definitions

* `Request`, `Answer`, `Program.performAll` — what a program is asked for, in sequence.
* `Request.kept?`, `Request.diagnostic?` — what becomes of the unit of a request, taken alone.
* `Request.keeps` — the requests whose unit is kept as one of a kind.
* `CompiledUnit.isTransient` — the units whose lowering is refused.

## Main results

* `Program.units_performAll`, `Program.errors_performAll` — a sequence of requests keeps the units that
  succeed, and reports the diagnostics of the others.
* `exec_lowerUnits` — units are lowered, or refused at the first that accesses transient storage.
* `Program.performAll_depends_on_kept` — the answers about a kind depend on the kept units of the kind.
-/

set_option autoImplicit false

namespace WordPlaces

/-! ## Requests -/

/-- What a program is asked for. -/
inductive Request where
  /-- To compile a unit. -/
  | compile (kind : CodeKind) (span : Span) (body : Compile Unit)
  /-- To finish the code of a kind. -/
  | finalize (kind : CodeKind)

/-- The answer to a request. -/
inductive Answer where
  | unit (outcome : UnitOutcome)
  | code (result : Except Failure (List AsmOp))

namespace Program

/-- Answers a request. -/
def perform (p : Program) : Request → Answer × Program
  | .compile kind span body => (p.compileUnit kind span body).map .unit id
  | .finalize kind => (p.finalize kind).map .code id

/-- Answers requests in order. -/
def performAll (p : Program) : List Request → List Answer × Program
  | [] => ([], p)
  | request :: requests =>
    let (answer, p) := p.perform request
    let (answers, p) := p.performAll requests
    (answer :: answers, p)

end Program

namespace Request

/-- The unit that is kept after a request, if its body succeeds. -/
def kept? (structs : StructTable) : Request → Option CompiledUnit
  | .compile kind span body =>
    match (body.run { scope := { structs, kind } }).run with
    | (.ok (), ctx) => some ⟨kind, span, ctx.output.code⟩
    | (.error _, _) => none
  | .finalize _ => none

/-- The diagnostic that is reported after a request, if its body is rejected. -/
def diagnostic? (structs : StructTable) : Request → Option Diagnostic
  | .compile kind _ body =>
    match (body.run { scope := { structs, kind } }).run with
    | (.error (.diagnostic d), _) => some d
    | _ => none
  | .finalize _ => none

/-- The unit of a request is kept as one of the given kind. -/
def keeps (structs : StructTable) (kind : CodeKind) (request : Request) : Bool :=
  (request.kept? structs).any (·.kind = kind)

end Request

/-- The unit accesses transient storage. -/
def CompiledUnit.isTransient (unit : CompiledUnit) : Bool :=
  unit.code.ops.toList.any Instruction.isTransient

namespace Program

/-! ## What a request changes -/

section Perform

variable (p : Program) (request : Request)

/-- No request changes what is declared. -/
theorem structs_perform : (p.perform request).2.structs = p.structs := by
  cases request with
  | compile kind span body =>
    rw [perform, compileUnit]
    rcases (body.run (p.openUnit kind)).run with ⟨⟨d | f⟩ | ⟨⟩, ctx⟩
    · rfl
    · rfl
    · simp only [closeUnit, keepUnit, Prod.map]
      split <;> rfl
  | finalize kind =>
    rw [perform, finalize]
    cases p.assemble kind with
    | error e => rfl
    | ok ops => simp only [Prod.map]; split <;> rfl

/-- A request adds the unit that it keeps. -/
theorem units_perform :
    (p.perform request).2.units.toList = p.units.toList ++ (request.kept? p.structs).toList := by
  cases request with
  | compile kind span body =>
    rw [perform, compileUnit, openUnit, Request.kept?]
    rcases (body.run { scope := { structs := p.structs, kind } }).run with ⟨⟨d | f⟩ | ⟨⟩, ctx⟩
    · simp [closeUnit, dropUnit, log]
    · simp [closeUnit, log]
    · simp only [closeUnit, keepUnit, Prod.map]
      split <;> simp [log]
  | finalize kind =>
    rw [perform, finalize, Request.kept?]
    cases p.assemble kind with
    | error e => simp
    | ok ops => simp only [Prod.map]; split <;> simp [log]

/-- A request reports the diagnostic of the unit that it rejects. -/
theorem errors_perform :
    (p.perform request).2.reporter.errors.toList =
      p.reporter.errors.toList ++ (request.diagnostic? p.structs).toList := by
  cases request with
  | compile kind span body =>
    rw [perform, compileUnit, openUnit, Request.diagnostic?]
    rcases (body.run { scope := { structs := p.structs, kind } }).run with ⟨⟨d | f⟩ | ⟨⟩, ctx⟩
    · simp [closeUnit, dropUnit, log, Reporter.report]
    · simp [closeUnit, log]
    · simp only [closeUnit, keepUnit, Prod.map]
      split <;> simp [log]
  | finalize kind =>
    rw [perform, finalize, Request.diagnostic?]
    cases p.assemble kind with
    | error e => simp
    | ok ops => simp only [Prod.map]; split <;> simp [log]

end Perform

/-- What is answered does not depend on what is logged. -/
theorem fst_finalize (p : Program) (kind : CodeKind) : (p.finalize kind).1 = p.assemble kind := by
  rw [finalize]
  cases p.assemble kind <;> rfl

/-! ## Sequences of requests -/

section PerformAll

variable (p : Program) (requests : List Request)

/-- Requests are performed one after the other. -/
theorem performAll_cons (request : Request) :
    p.performAll (request :: requests) =
      ((p.perform request).1 :: ((p.perform request).2.performAll requests).1,
        ((p.perform request).2.performAll requests).2) := rfl

/-- Every request is answered. -/
theorem length_performAll : (p.performAll requests).1.length = requests.length := by
  induction requests generalizing p with
  | nil => rfl
  | cons request requests ih => rw [performAll_cons, List.length_cons, List.length_cons, ih]

/-- Requests are answered one part after the other. -/
theorem performAll_append (later : List Request) :
    p.performAll (requests ++ later) =
      ((p.performAll requests).1 ++ ((p.performAll requests).2.performAll later).1,
        ((p.performAll requests).2.performAll later).2) := by
  induction requests generalizing p with
  | nil => rfl
  | cons request requests ih =>
    rw [List.cons_append, performAll_cons, ih, performAll_cons, List.cons_append]

/-- A sequence of requests keeps the units whose bodies succeed, in order. -/
theorem units_performAll :
    (p.performAll requests).2.units.toList =
      p.units.toList ++ requests.filterMap (Request.kept? p.structs) := by
  induction requests generalizing p with
  | nil => exact (List.append_nil _).symm
  | cons request requests ih =>
    rw [performAll_cons, ih, structs_perform, units_perform, List.append_assoc]
    cases h : request.kept? p.structs <;> simp [h]

/-- A sequence of requests reports the diagnostics of the units that are rejected, in order. -/
theorem errors_performAll :
    (p.performAll requests).2.reporter.errors.toList =
      p.reporter.errors.toList ++ requests.filterMap (Request.diagnostic? p.structs) := by
  induction requests generalizing p with
  | nil => exact (List.append_nil _).symm
  | cons request requests ih =>
    rw [performAll_cons, ih, structs_perform, errors_perform, List.append_assoc]
    cases h : request.diagnostic? p.structs <;> simp [h]

/-- The answer to a request for code is the code of the units at the time. -/
theorem performAll_finalize (later : List Request) (kind : CodeKind) :
    (p.performAll (requests ++ .finalize kind :: later)).1[requests.length]? =
      some (.code ((p.performAll requests).2.assemble kind)) := by
  rw [performAll_append, List.getElem?_append_right (by rw [length_performAll]), length_performAll,
    Nat.sub_self, performAll_cons, List.getElem?_cons_zero, perform, Prod.map_fst, fst_finalize]

end PerformAll

/-- The units of a kind are kept by the requests that keep a unit of the kind. -/
theorem filter_filterMap_kept (structs : StructTable) (kind : CodeKind) (requests : List Request) :
    (requests.filterMap (Request.kept? structs)).filter (·.kind = kind) =
      (requests.filter (Request.keeps structs kind)).filterMap (Request.kept? structs) := by
  induction requests with
  | nil => rfl
  | cons request requests ih =>
    cases h : request.kept? structs with
    | none => simpa [h, Request.keeps] using ih
    | some unit =>
      by_cases hkind : unit.kind = kind
      · simpa [h, Request.keeps, hkind] using ih
      · simpa [h, Request.keeps, hkind] using ih

end Program

/-! ## The lowering of units -/

/-- Units on none of which lowering faults are lowered, or refused for the first one that accesses
transient storage. -/
theorem exec_lowerUnits {units : List CompiledUnit}
    (h : ∀ unit ∈ units, ∀ f, ((lowerSection unit.span unit.code).exec 0).1 ≠ .error (.fault f))
    (n : Nat) :
    (units.find? (·.isTransient) = none ∧
        ∃ ops n', (Program.lowerUnits units).exec n = (.ok ops, n')) ∨
      ∃ unit, units.find? (·.isTransient) = some unit ∧
        ∃ n', (Program.lowerUnits units).exec n =
          (.error (.diagnostic (transientDiagnostic unit.span)), n') := by
  induction units generalizing n with
  | nil => exact .inl ⟨rfl, _, _, rfl⟩
  | cons unit units ih =>
    rw [Program.lowerUnits, lowerSection]
    rcases exec_lowerCode (h unit List.mem_cons_self) n with ⟨hunit, ops, n', hrun⟩ |
      ⟨hunit, n', hrun⟩
    · have hfirst : ¬ unit.isTransient = true := Bool.eq_false_iff.1 hunit
      rw [Lower.exec_bind_of_ok hrun, List.find?_cons_of_neg hfirst]
      rcases ih (fun unit' h' => h unit' (List.mem_cons_of_mem _ h')) n' with
        ⟨hrest, ops', n'', hrun'⟩ | ⟨first, hrest, n'', hrun'⟩
      · exact .inl ⟨hrest, _, _, Lower.exec_bind_of_ok hrun' _⟩
      · exact .inr ⟨first, hrest, _, Lower.exec_bind_of_error hrun' _⟩
    · exact .inr ⟨unit, List.find?_cons_of_pos hunit, n', Lower.exec_bind_of_error hrun _⟩

namespace Program

/-- The code of a kind is that of the units of the kind that are kept. -/
theorem assemble_performAll (options : BuildOptions) (structs : StructTable)
    (requests : List Request) (kind : CodeKind) :
    (({ options, structs } : Program).performAll requests).2.assemble kind =
      ((lowerUnits ((requests.filterMap (Request.kept? structs)).filter (·.kind = kind))).exec 0).1 := by
  rw [assemble, units_performAll]
  rfl

/-- A new program that answers requests keeps the units whose bodies succeed and reports the diagnostics
of the units that are rejected, both in order.  Whenever it is asked for the code of a kind, it answers
as a new program that was asked for nothing but the units of that kind that succeed.  If lowering
faults on none of those, the answer is a failure exactly if one of them accesses transient storage, and
then it is the diagnostic for the first of them, at the span of its unit.

**Proof sketch.**  `units_performAll` and `errors_performAll` are inductions over what one request
changes.  By `assemble_performAll` the code of a kind is made of the kept units of the kind, which are
those of the fewer requests (`filter_filterMap_kept`), and `exec_lowerUnits` says how their lowering
ends. -/
theorem performAll_depends_on_kept (options options' : BuildOptions) (structs : StructTable)
    (requests : List Request) :
    (({ options, structs } : Program).performAll requests).2.units.toList =
        requests.filterMap (Request.kept? structs) ∧
      (({ options, structs } : Program).performAll requests).2.reporter.errors.toList =
        requests.filterMap (Request.diagnostic? structs) ∧
      ∀ (earlier later : List Request) (kind : CodeKind),
        requests = earlier ++ .finalize kind :: later →
        ∃ result,
          (({ options, structs } : Program).performAll requests).1[earlier.length]? =
            some (.code result) ∧
          result = ((({ options := options', structs } : Program).performAll
            (earlier.filter (Request.keeps structs kind))).2.finalize kind).1 ∧
          ((∀ unit ∈ earlier.filterMap (Request.kept? structs), unit.kind = kind →
              ∀ f, ((lowerSection unit.span unit.code).exec 0).1 ≠ .error (.fault f)) →
            ((∃ e, result = .error e) ↔
              ∃ unit ∈ earlier.filterMap (Request.kept? structs),
                unit.kind = kind ∧ unit.isTransient = true) ∧
            ∀ unit, ((earlier.filterMap (Request.kept? structs)).filter (·.kind = kind)).find?
                (·.isTransient) = some unit →
              result = .error (.diagnostic (transientDiagnostic unit.span))) := by
  refine ⟨by rw [units_performAll]; rfl, by rw [errors_performAll]; rfl, ?_⟩
  rintro earlier later kind rfl
  refine ⟨_, performAll_finalize _ earlier later kind, ?_, fun hfault => ?_⟩
  · rw [fst_finalize, assemble_performAll, assemble_performAll, filter_filterMap_kept,
      filter_filterMap_kept, List.filter_filter]
    simp only [Bool.and_self]
  · rw [assemble_performAll]
    have hfault : ∀ unit ∈ (earlier.filterMap (Request.kept? structs)).filter (·.kind = kind),
        ∀ f, ((lowerSection unit.span unit.code).exec 0).1 ≠ .error (.fault f) := by
      intro unit hunit
      obtain ⟨hmem, hkind⟩ := List.mem_filter.1 hunit
      exact hfault unit hmem (of_decide_eq_true hkind)
    have htransient : (∃ unit ∈ earlier.filterMap (Request.kept? structs),
          unit.kind = kind ∧ unit.isTransient = true) ↔
        (((earlier.filterMap (Request.kept? structs)).filter (·.kind = kind)).find?
          (·.isTransient)).isSome = true := by
      simp only [List.find?_isSome, List.mem_filter, decide_eq_true_eq, and_assoc]
    rw [htransient]
    rcases exec_lowerUnits hfault 0 with ⟨hnone, ops, n', hrun⟩ | ⟨first, hfirst, n', hrun⟩
    · rw [hrun, hnone]
      exact ⟨⟨nofun, nofun⟩, nofun⟩
    · rw [hrun, hfirst]
      exact ⟨⟨fun _ => rfl, fun _ => ⟨_, rfl⟩⟩, fun unit hunit => by rw [Option.some.inj hunit]⟩

/-- A unit that is rejected between two that are kept, the second of which cannot be lowered. -/
theorem performAll_depends_on_kept_transient :
    let late : Span := ⟨"load()", 0, 6, rfl⟩
    let first : Request :=
      .compile .runtime .dummy (Compile.emitting .dummy (emitAll [.push 1, .pop]))
    let rejected : Request :=
      .compile .runtime .dummy (Compile.emitting .dummy (do emit (.push 1); dupSlot 17))
    let other : Request := .compile .creation .dummy (Compile.emitting .dummy (emit (.push 1)))
    let last : Request :=
      .compile .runtime late (Compile.emitting .dummy (emitAll [.push 1, .sload .transient]))
    (({} : Program).performAll
        ([first, rejected, other, last] ++ [.finalize .runtime])).1[4]? =
      some (.code (.error (.diagnostic (transientDiagnostic late)))) := by
  intro late first rejected other last
  have hkept : [first, rejected, other, last].filterMap (Request.kept? {}) =
      [⟨.runtime, .dummy, ⟨#[.push 1, .pop], 0⟩⟩, ⟨.creation, .dummy, ⟨#[.push 1], 1⟩⟩,
        ⟨.runtime, late, ⟨#[.push 1, .sload .transient], 1⟩⟩] := rfl
  obtain ⟨-, -, hcode⟩ := performAll_depends_on_kept {} {} {}
    ([first, rejected, other, last] ++ [.finalize .runtime])
  obtain ⟨result, hanswer, -, hresult⟩ := hcode [first, rejected, other, last] [] .runtime rfl
  obtain ⟨-, hfirst⟩ := hresult (by
    rw [hkept]
    intro unit hunit hkind f
    simp only [List.mem_cons, List.not_mem_nil, or_false] at hunit
    rcases hunit with rfl | rfl | rfl
    · exact nofun
    · exact CodeKind.noConfusion hkind
    · exact nofun)
  rw [← hfirst ⟨.runtime, late, ⟨#[.push 1, .sload .transient], 1⟩⟩ rfl]
  exact hanswer

end Program

end WordPlaces
