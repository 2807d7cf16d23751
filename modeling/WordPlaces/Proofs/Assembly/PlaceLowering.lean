import WordPlaces.Proofs.Assembly.Lowering
import WordPlaces.Proofs.Place.Reach

/-!
# Sections of places can be lowered

A section that pushes words and accesses places is lowered, or it is refused as a whole because it accesses
transient storage.  No internal error of the lowering is reached.

## Main definitions

* `SectionStep` — a word that is pushed, or an access to a place.
* `buildSection` — the section after steps.

## Main results

* `lowerSection_cases` — lowering instructions that reach their slots.
* `lowerSection_of_buildSection` — sections of places can be lowered, and accesses to places that are not
  on the stack are never too deep.
* `exec_store_wideTuple` — unless a member of a struct is a tuple of sixteen slots.
-/

set_option autoImplicit false

namespace WordPlaces

open Instruction

/-! ## Lowering -/

/-- Apart from transient storage, instructions that reach their slots can be lowered. -/
theorem Instruction.Lowers.encodable {op : Instruction} (h : op.Lowers) (hop : op.isTransient = false) :
    op.Encodable := by
  cases op with
  | call => exact Nat.le_trans h (by decide)
  | sload kind | sstore kind =>
    cases kind with
    | persistent => rfl
    | transient => contradiction
  | _ => exact h

/-- Lowering instructions that reach their slots succeeds, or it is refused because of transient
storage. -/
theorem lowerSection_cases (span : Span) {code : CodeSection} (h : ∀ op ∈ code.ops.toList, op.Lowers)
    (n : Nat) :
    (code.ops.toList.any isTransient = false ∧
        ∃ ops n', (lowerSection span code).exec n = (.ok ops, n')) ∨
      (code.ops.toList.any isTransient = true ∧
        ∃ n', (lowerSection span code).exec n =
          (.error (.diagnostic (transientDiagnostic span)), n')) :=
  exec_lowerCode (exec_lowerCode_ne_fault (n := n) fun op hop => (h op hop).encodable) n

/-! ## Sections -/

/-- One step of a section: a word is pushed, or a place is accessed. -/
inductive SectionStep where
  | push (value : Word)
  | access (sc : Scope) (place : Place) (operation : Operation)

/-- Takes one step. -/
def SectionStep.exec : SectionStep → Output → Except Failure Unit × Output
  | push value, out => (emit (.push value)).exec default out
  | access sc place operation, out => (operation.emit place).exec sc out

/-- Takes steps up to the first that fails. -/
def buildSection : List SectionStep → Output → Except Failure Unit × Output
  | [], out => (.ok (), out)
  | step :: steps, out =>
    match step.exec out with
    | (.ok (), out') => buildSection steps out'
    | (.error e, out') => (.error e, out')

namespace Operation

/-- An access that copies a struct member by member copies no wide tuple. -/
def HasNarrowMembers (structs : StructTable) (place : Place) : Operation → Prop
  | .store source _ => place.HasNarrowMembers structs source
  | .retrieve _ | .setToZero _ => True

/-- Every access emits instructions that can be lowered. -/
theorem confined_emit {strict : Prop} {sc : Scope} {place : Place} (operation : Operation)
    (hplace : strict → place.IsOffStack)
    (hnarrow : strict → operation.HasNarrowMembers sc.structs place) :
    Confined strict sc Lowers (operation.emit place) := by
  cases operation with
  | retrieve remove => exact (place.confined_retrieve hplace remove).mono fun _ => IsRead.lowers
  | store source move => exact place.confined_store hplace source move hnarrow
  | setToZero remove => exact place.confined_setToZero hplace remove

end Operation

/-- A step adds instructions that can be lowered. -/
theorem SectionStep.lowers_exec (step : SectionStep) {out : Output}
    (h : ∀ op ∈ out.code.ops.toList, op.Lowers) :
    ∀ op ∈ (step.exec out).2.code.ops.toList, op.Lowers := by
  have hadds : ∀ {sc : Scope} {c : Emit Unit}, EmitsOnly sc Lowers c →
      ∀ op ∈ (c.exec sc out).2.code.ops.toList, op.Lowers := by
    intro sc c hc op hop
    obtain ⟨code, hcode, hall⟩ := hc out
    rw [hcode] at hop
    exact (List.mem_append.1 hop).elim (h op) (hall op)
  cases step with
  | push value => exact hadds (.emit trivial)
  | access sc place operation =>
    exact hadds (operation.confined_emit False.elim False.elim).emitsOnly

/-- So do steps. -/
theorem lowers_buildSection (steps : List SectionStep) {out : Output}
    (h : ∀ op ∈ out.code.ops.toList, op.Lowers) :
    ∀ op ∈ (buildSection steps out).2.code.ops.toList, op.Lowers := by
  induction steps generalizing out with
  | nil => exact h
  | cons step steps ih =>
    have hstep := step.lowers_exec h
    rw [buildSection]
    rcases hexec : step.exec out with ⟨_ | ⟨⟩, mid⟩ <;> rw [hexec] at hstep
    · exact hstep
    · exact ih hstep

/-- A section to which words are pushed and places of all kinds are accessed can be lowered: its stack
instructions reach no more than sixteen slots, and its calls have no more than three inputs.  So the
section is lowered, unless it accesses transient storage, and then the unit is refused with its span.

Accesses to storage, memory, immutables and bytes are never refused for a slot that is out of reach, on
stacks of all heights and however deeply structs are nested, but for copies of structs from storage or
memory to storage of which a member is a tuple of sixteen or more slots.

**Proof sketch.** Every instruction that is emitted for a step can be lowered (`Operation.confined_emit`):
distances in the code of values are fixed, and all others are checked.  Lowering then fails on no
instruction but those on transient storage (`lowerSection_cases`). -/
theorem lowerSection_of_buildSection {steps : List SectionStep} {out out' : Output}
    {result : Except Failure Unit} (hempty : out.code.ops = #[])
    (hbuild : buildSection steps out = (result, out')) :
    (∀ op ∈ out'.code.ops.toList, op.Lowers) ∧
    (∀ span n,
      (out'.code.ops.toList.any isTransient = false →
        ∃ ops n', (lowerSection span out'.code).exec n = (.ok ops, n')) ∧
      (out'.code.ops.toList.any isTransient = true →
        ∃ n', (lowerSection span out'.code).exec n =
          (.error (.diagnostic (transientDiagnostic span)), n'))) ∧
    ∀ (sc : Scope) (place : Place) (operation : Operation), place.IsOffStack →
      operation.HasNarrowMembers sc.structs place → ∀ (start : Output) depth span stop,
        (operation.emit place).exec sc start ≠ (.error (.diagnostic (.stackTooDeep depth span)), stop) := by
  have hlowers : ∀ op ∈ out'.code.ops.toList, op.Lowers := by
    have hstart : ∀ op ∈ out.code.ops.toList, op.Lowers := by
      rw [hempty]
      simp
    have hall := lowers_buildSection steps hstart
    rw [hbuild] at hall
    exact hall
  refine ⟨hlowers, fun span n => ?_, fun sc place operation hplace hnarrow start depth span stop hexec => ?_⟩
  · rcases lowerSection_cases span hlowers n with ⟨hany, hok⟩ | ⟨hany, herror⟩
    · exact ⟨fun _ => hok, fun htrue => by rw [hany] at htrue; contradiction⟩
    · exact ⟨fun hfalse => by rw [hany] at hfalse; contradiction, fun _ => herror⟩
  · have hconfined : Confined True sc Lowers (operation.emit place) :=
      operation.confined_emit (fun _ => hplace) fun _ => hnarrow
    exact Bool.false_ne_true (hconfined.reaches trivial _ _ _ hexec).symm

/-- A section that writes transient storage and reads a local variable is refused, and a struct with a
tuple of fifteen slots can be reached. -/
theorem lowerSection_of_buildSection_transient :
    (∃ out', buildSection [.push 1, .push 1, .push 0, .push 0,
        .access {} (.storage ⟨.bool, .transient⟩) (.store .bool true),
        .access {} (.stack ⟨.bool, 0⟩) (.retrieve true)] { code := .ofHeight 0 } = (.ok (), out') ∧
      (∀ op ∈ out'.code.ops.toList, op.Lowers) ∧
      ∀ span n, ∃ n', (lowerSection span out'.code).exec n =
        (.error (.diagnostic (transientDiagnostic span)), n')) ∧
    ∃ table : TypeTable,
      TypeTable.declareStruct {} "S" [⟨"t", .tuple (List.replicate 15 .bool)⟩] = .ok (0, table) ∧
      ∀ start depth span stop,
        ((Operation.store (.struct 0 .memory) true).emit (.storage ⟨.struct 0 .storage, .persistent⟩)).exec
          { structs := table.structs } start ≠ (.error (.diagnostic (.stackTooDeep depth span)), stop) := by
  obtain ⟨built, hbuilt⟩ : ∃ built, built = buildSection [.push 1, .push 1, .push 0, .push 0,
      .access {} (.storage ⟨.bool, .transient⟩) (.store .bool true),
      .access {} (.stack ⟨.bool, 0⟩) (.retrieve true)] { code := .ofHeight 0 } := ⟨_, rfl⟩
  have hok : built.1.toBool = true := by
    rw [hbuilt]
    decide +kernel
  have hany : built.2.code.ops.toList.any isTransient = true := by
    rw [hbuilt]
    decide +kernel
  obtain ⟨_ | ⟨⟩, out'⟩ := built
  · exact absurd hok Bool.false_ne_true
  have hbuild := hbuilt.symm
  obtain ⟨hlowers, hlowered, hreaches⟩ := lowerSection_of_buildSection rfl hbuild
  refine ⟨⟨out', hbuild, hlowers, fun span n => (hlowered span n).2 hany⟩, ?_⟩
  obtain ⟨table, hdeclare, hfields⟩ : ∃ table : TypeTable,
      TypeTable.declareStruct {} "S" [⟨"t", .tuple (List.replicate 15 .bool)⟩] = .ok (0, table) ∧
        table.structs.fields 0 = [⟨"t", .tuple (List.replicate 15 .bool), ⟨0, 0⟩, some 0⟩] := ⟨_, rfl, rfl⟩
  refine ⟨table, hdeclare, hreaches { structs := table.structs } _ _ trivial ?_⟩
  rintro d location ⟨⟩ sourceLocation - ⟨⟩ leaf hleaf components -
  rw [StructTable.leaves_eq, hfields] at hleaf
  obtain rfl := List.mem_singleton.1 hleaf
  decide

/-- A copy of a struct with a tuple of sixteen slots does not reach the struct below the member. -/
theorem exec_store_wideTuple :
    ∃ table : TypeTable,
      TypeTable.declareStruct {} "S" [⟨"t", .tuple (List.replicate 16 .bool)⟩] = .ok (0, table) ∧
      ∃ out', ((Operation.store (.struct 0 .storage) true).emit
          (.storage ⟨.struct 0 .storage, .persistent⟩)).exec { structs := table.structs }
            { code := .ofHeight 20 } = (.error (.diagnostic (.stackTooDeep 17 .dummy)), out') := by
  have hcode : (Operation.store (.struct 0 .storage) true).emit
      (.storage ⟨.struct 0 .storage, .persistent⟩) = (do
        logEvent (.store (.storage .persistent) (.struct 0 .storage) true)
        StorageItem.storeStruct 0 .storage (.struct 0 .storage) true) := rfl
  rw [hcode, StorageItem.storeStruct_eq 0 .storage (by decide)]
  exact ⟨_, rfl, _, rfl⟩

end WordPlaces
