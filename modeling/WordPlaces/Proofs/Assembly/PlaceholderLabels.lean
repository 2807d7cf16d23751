import WordPlaces.Proofs.Assembly.ReturnLabels
import WordPlaces.Proofs.Place.ImmutablePlaceholders

/-!
# Labels of placeholders

The linker finds the words of immutable variables by the labels of their placeholders.  A placeholder is
named by the number of a variable, or by that and the number of a slot, and its label is the name behind a
text of its own.  So a label stands for one slot of one variable, and it is no label that a routine
returns to.

## Main definitions

* `placeholdersIn`, `placeholderLabelsIn` — the placeholders that code pushes, and the labels of those that
  operations push.

## Main results

* `exec_lowerCode_placeholders` — what code is lowered to pushes the placeholders of the code.
* `placeholders_apart` — no two slots of immutable variables share a placeholder or its label.
-/

set_option autoImplicit false

namespace WordPlaces

/-! ## Placeholders in code and in operations -/

/-- The placeholder that an instruction pushes. -/
def Instruction.placeholder? : Instruction → Option String
  | .pushSymbol (.immutable name) => some name
  | _ => none

/-- The label of the placeholder that an operation pushes. -/
def AsmOp.placeholder? : AsmOp → Option Label
  | .pushPlaceholder l => some l
  | _ => none

/-- The placeholders that code pushes, in order. -/
def placeholdersIn (code : Code) : List String := code.filterMap Instruction.placeholder?

/-- The labels of the placeholders that operations push, in order. -/
def placeholderLabelsIn (ops : List AsmOp) : List Label := ops.filterMap AsmOp.placeholder?

/-- Operations one after the other push the placeholders of both. -/
theorem placeholderLabelsIn_append (ops ops' : List AsmOp) :
    placeholderLabelsIn (ops ++ ops') = placeholderLabelsIn ops ++ placeholderLabelsIn ops' :=
  List.filterMap_append

/-- Different placeholders have different labels. -/
theorem placeholderLabel_injective : Function.Injective placeholderLabel :=
  fun _ _ h => (String.append_right_inj "immutable_").1 h

/-! ## Lowering -/

/-- Moving a return address pushes no placeholder. -/
theorem placeholderLabelsIn_sinkOps (count : Nat) : placeholderLabelsIn (sinkOps count) = [] := by
  induction count with
  | zero => rfl
  | succ count ih => exact ih

/-- A call pushes no placeholder. -/
theorem placeholderLabelsIn_callOps (n : Nat) (routine : Label) (inputs : Nat) :
    placeholderLabelsIn (callOps n routine inputs) = [] := by
  rw [callOps, placeholderLabelsIn, List.filterMap_cons]
  change placeholderLabelsIn (_ ++ _) = _
  rw [placeholderLabelsIn_append, placeholderLabelsIn_sinkOps]
  rfl

/-- What an instruction is lowered to pushes the placeholder that the instruction pushes, if any. -/
theorem Instruction.Encodable.placeholderLabelsIn_eq {op : Instruction} (h : op.Encodable) {span : Span}
    {n n' : Nat} {ops : List AsmOp} (hops : (lowerInstruction span op).exec n = (.ok ops, n')) :
    placeholderLabelsIn ops = (placeholdersIn [op]).map placeholderLabel := by
  cases op with
  | call routine inputs outputs =>
    rw [exec_lowerInstruction_call span n h] at hops
    obtain rfl := Except.ok.inj (congrArg Prod.fst hops)
    exact placeholderLabelsIn_callOps n routine inputs
  | dup k =>
    have hdup : AsmOp.dup? k = .ok (.dup k) := if_pos h
    rw [lowerInstruction, hdup] at hops
    obtain rfl := Except.ok.inj (congrArg Prod.fst hops)
    rfl
  | swap k =>
    have hswap : AsmOp.swap? k = .ok (.swap k) := if_pos h
    rw [lowerInstruction, hswap] at hops
    obtain rfl := Except.ok.inj (congrArg Prod.fst hops)
    rfl
  | sload kind | sstore kind =>
    obtain rfl : kind = .persistent := h
    obtain rfl := Except.ok.inj (congrArg Prod.fst hops)
    rfl
  | pushSymbol symbol =>
    cases symbol with
    | tag | immutable =>
      obtain rfl := Except.ok.inj (congrArg Prod.fst hops)
      rfl
  | _ =>
    obtain rfl := Except.ok.inj (congrArg Prod.fst hops)
    rfl

/-- Code whose instructions can be lowered is, and pushes the same placeholders in the same order then. -/
theorem exec_lowerCode_placeholders (span : Span) (n : Nat) {code : Code}
    (h : ∀ op ∈ code, op.Encodable) :
    ∃ ops n', (lowerCode span code).exec n = (.ok ops, n') ∧
      placeholderLabelsIn ops = (placeholdersIn code).map placeholderLabel := by
  obtain ⟨chunks, n', hlowered, hchunks⟩ := exec_lowerCode_of_encodable span n h
  refine ⟨chunks.flatten, n', hlowered, ?_⟩
  clear hlowered
  induction hchunks with
  | nil => rfl
  | cons hchunk _ ih =>
    obtain ⟨⟨k, hk⟩, -⟩ := hchunk
    obtain ⟨hop, hcode⟩ := List.forall_mem_cons.1 h
    rw [List.flatten_cons, placeholderLabelsIn_append, hop.placeholderLabelsIn_eq hk, ih hcode,
      ← List.map_append]
    exact congrArg (List.map placeholderLabel) List.filterMap_append.symm

/-! ## Names and labels of all variables -/

/-- The placeholders of immutable variables never collide, whatever the types of the variables: variables
with numbers of their own have one placeholder for each slot of their values, and no name is given twice.
The labels that the placeholders get when code is lowered are different from each other, and from every
label that a call of a routine returns to.

**Proof sketch.** A name is a number, or two numbers with an underscore between them, and digits end at an
underscore (`Variable.id_eq_of_mem_placeholders`).  Labels put the same text before each name, which starts
with another letter than return labels.  Lowering keeps placeholders in order
(`exec_lowerCode_placeholders`). -/
theorem placeholders_apart {vars : List Variable} (hids : (vars.map (·.id)).Nodup) :
    (vars.flatMap Variable.placeholders).Nodup ∧
    (∀ v ∈ vars, v.placeholders.length = v.ty.sizeOnStack) ∧
    ((vars.flatMap Variable.placeholders).map placeholderLabel).Nodup ∧
    (∀ k, returnLabel k ∉ (vars.flatMap Variable.placeholders).map placeholderLabel) ∧
    ∀ (span : Span) (n : Nat) (code : CodeSection), (∀ op ∈ code.ops.toList, op.Encodable) →
      ∃ ops n', (lowerSection span code).exec n = (.ok ops, n') ∧
        placeholderLabelsIn ops = (placeholdersIn code.ops.toList).map placeholderLabel := by
  have hnodup := Variable.nodup_flatMap_placeholders hids
  refine ⟨hnodup, fun v _ => v.length_placeholders, hnodup.map placeholderLabel_injective,
    fun k hk => ?_, fun span n code hcode => exec_lowerCode_placeholders span n hcode⟩
  obtain ⟨name, -, hname⟩ := List.mem_map.1 hk
  exact placeholderLabel_ne_returnLabel name k hname

/-- An external function, a number and a tuple of three slots, whose numbers start with the same digit,
and code that reads the first two with a call between them. -/
theorem placeholders_apart_tuple :
    ∃ callback count triple : Variable, callback.placeholders = ["1_0", "1_1"] ∧
      count.placeholders = ["10"] ∧ triple.placeholders = ["11_0", "11_1", "11_2"] ∧
      ([callback, count, triple].flatMap Variable.placeholders).Nodup ∧
      ∃ ops n', (lowerSection .dummy ⟨#[.pushSymbol (.immutable "1_0"), .pushSymbol (.immutable "1_1"),
          .call "join" 2 1, .pushSymbol (.immutable "10")], 2⟩).exec 0 = (.ok ops, n') ∧
        placeholderLabelsIn ops = ["immutable_1_0", "immutable_1_1", "immutable_10"] := by
  let callback : Variable := ⟨1, "callback", .function .external, true, .storage⟩
  let count : Variable := ⟨10, "count", .int 8 true, true, .storage⟩
  let triple : Variable :=
    ⟨11, "triple", .tuple [.tuple [], .function .external, .bool], true, .storage⟩
  have hids : ([callback, count, triple].map (·.id)).Nodup := by decide
  obtain ⟨hnames, -, -, -, hlower⟩ := placeholders_apart hids
  obtain ⟨ops, n', hops, hlabels⟩ := hlower .dummy 0 ⟨#[.pushSymbol (.immutable "1_0"),
    .pushSymbol (.immutable "1_1"), .call "join" 2 1, .pushSymbol (.immutable "10")], 2⟩
    (by simp [Instruction.Encodable])
  exact ⟨callback, count, triple, by decide, by decide, by decide, hnames, ops, n', hops, hlabels⟩

end WordPlaces
