import WordPlaces.Proofs.Assembly.Lowering

/-!
# Return labels of sections lowered in turn

Sections are lowered one after the other with one supply of return labels, and a section whose
lowering fails leaves no operations, but the labels that it drew stay drawn.  So the labels of a
section are those with the numbers between two states of the supply, and the numbers of different
sections do not meet: every return label in what is left is defined once, and pushed once before that.

## Main definitions

* `definitions`, `pushedLabels` — the labels that operations define and those that they push.
* `Resolves` — operations that define the labels of consecutive numbers and return to them.
* `Lowered`, `lowerInTurn` — what comes of lowering sections in turn, whether or not that fails.
* `ReturnsResolve` — what holds of the return labels of sections lowered in turn.

## Main results

* `resolves_of_lowerInstruction`, `resolves_of_lowerCode` — what is lowered defines the labels that were
  drawn for it.
* `exec_lowerCode_drawn` — how many labels are drawn, also where lowering fails.
* `returnsResolve_lowerInTurn` — return labels are unique, resolved and not drawn again.
-/

set_option autoImplicit false

namespace WordPlaces

/-! ## Labels in operations -/

/-- The label that an operation defines. -/
def AsmOp.defines : AsmOp → Option Label
  | .label l => some l
  | _ => none

/-- The label whose address an operation pushes. -/
def AsmOp.pushes : AsmOp → Option Label
  | .pushLabel l | .pushPlaceholder l => some l
  | _ => none

/-- The labels that operations define, in order. -/
def definitions (ops : List AsmOp) : List Label := ops.filterMap AsmOp.defines

/-- The labels whose addresses operations push, in order. -/
def pushedLabels (ops : List AsmOp) : List Label := ops.filterMap AsmOp.pushes

/-- Operations one after the other define the labels of both. -/
theorem definitions_append (ops ops' : List AsmOp) :
    definitions (ops ++ ops') = definitions ops ++ definitions ops' :=
  List.filterMap_append

/-- Operations one after the other push the labels of both. -/
theorem pushedLabels_append (ops ops' : List AsmOp) :
    pushedLabels (ops ++ ops') = pushedLabels ops ++ pushedLabels ops' :=
  List.filterMap_append

/-- The labels that are defined are those whose definition is among the operations. -/
theorem mem_definitions {l : Label} {ops : List AsmOp} :
    l ∈ definitions ops ↔ .label l ∈ ops := by
  rw [definitions, List.mem_filterMap]
  constructor
  · rintro ⟨op, hop, hl⟩
    cases op <;> first | contradiction | exact Option.some.inj hl ▸ hop
  · exact fun h => ⟨_, h, rfl⟩

/-- Each definition of a label is between a jump and the mark of its target, and the label is pushed
before. -/
def Paired (ops : List AsmOp) : Prop :=
  ∀ before l after, ops = before ++ .label l :: after →
    .pushLabel l ∈ before ∧ before.getLast? = some .jump ∧ after.head? = some .jumpDest

/-- Two parts that return to the labels they define, one after the other. -/
theorem Paired.append {ops ops' : List AsmOp} (h : Paired ops) (h' : Paired ops') :
    Paired (ops ++ ops') := by
  intro before l after heq
  rcases List.append_eq_append_iff.1 heq with ⟨middle, rfl, rfl⟩ | ⟨middle, rfl, hmiddle⟩
  · -- The definition is in the second part.
    obtain ⟨hpushed, hlast, hhead⟩ := h' middle l after rfl
    exact ⟨List.mem_append_right _ hpushed, by rw [List.getLast?_append, hlast]; rfl, hhead⟩
  · cases middle with
    | nil =>
      obtain ⟨hpushed, -⟩ := h' [] l after hmiddle.symm
      exact absurd hpushed List.not_mem_nil
    | cons op middle =>
      obtain ⟨rfl, rfl⟩ := List.cons.inj hmiddle
      obtain ⟨hpushed, hlast, hhead⟩ := h before l middle rfl
      refine ⟨hpushed, hlast, ?_⟩
      cases middle with
      | nil => contradiction
      | cons => exact hhead

/-- Operations that define no label, push one and jump, followed by the place to return to. -/
theorem paired_return {ops : List AsmOp} {l : Label} (hlabel : ∀ l', .label l' ∉ ops)
    (hpushed : .pushLabel l ∈ ops) (hlast : ops.getLast? = some .jump) :
    Paired (ops ++ [.label l, .jumpDest]) := by
  intro before l' after heq
  have hbefore : before = ops := by
    rcases List.append_eq_append_iff.1 heq with ⟨middle, rfl, hmiddle⟩ | ⟨middle, rfl, hmiddle⟩
    · rcases middle with _ | ⟨op, _ | ⟨op', middle⟩⟩ <;> simp at hmiddle ⊢
    · cases middle with
      | nil => exact (List.append_nil before).symm
      | cons op middle =>
        obtain ⟨rfl, -⟩ := List.cons.inj hmiddle
        exact absurd (List.mem_append_right _ List.mem_cons_self) (hlabel l')
  subst hbefore
  obtain ⟨hl, rfl⟩ := List.cons.inj (List.append_cancel_left heq)
  obtain rfl := AsmOp.label.inj hl
  exact ⟨hpushed, hlast, rfl⟩

/-! ## The labels of one section -/

/-- Placeholders are no return labels. -/
theorem placeholderLabel_ne_returnLabel (name : String) (n : Nat) :
    placeholderLabel name ≠ returnLabel n := by
  intro h
  have hlist : ("immutable_" ++ name).toList = ("utility_return_" ++ n.repr).toList :=
    congrArg String.toList h
  rw [String.toList_append, String.toList_append] at hlist
  exact absurd (List.cons.inj hlist).1 (by decide)

namespace Instruction

/-- The instruction calls a routine. -/
def isCall : Instruction → Bool
  | .call .. => true
  | _ => false

/-- The tag or the routine that an instruction names. -/
def names : Instruction → Option Label
  | .pushSymbol (.tag name) | .call name _ _ => some name
  | _ => none

/-- The instruction names nothing that starts as return labels do. -/
def NamesApart (op : Instruction) : Prop := ∀ l, op.names = some l → ∀ s, l ≠ "utility_return_" ++ s

instance (op : Instruction) : Decidable op.NamesApart :=
  decidable_of_iff (∀ l ∈ op.names, ("utility_return_".toList.isPrefixOf l.toList) = false) <| by
    refine forall_congr' fun l => imp_congr Iff.rfl ?_
    rw [Bool.eq_false_iff, Ne, List.isPrefixOf_iff_prefix, ← not_exists]
    refine not_congr ⟨fun ⟨cs, hcs⟩ => ⟨String.ofList cs, ?_⟩, fun ⟨s, hs⟩ => ⟨s.toList, ?_⟩⟩
    · rw [← String.toList_inj, String.toList_append, ← hcs]
      exact congrArg (_ ++ ·) String.toList_ofList.symm
    · rw [hs, String.toList_append]

/-- A name that starts otherwise is no return label. -/
theorem NamesApart.ne_returnLabel {op : Instruction} (h : op.NamesApart) {l : Label}
    (hl : op.names = some l) (n : Nat) : l ≠ returnLabel n :=
  h l hl n.repr

end Instruction

/-- The operations define the return labels of `count` numbers from `n` on, in order, push each of them
once, and return to each of them. -/
structure Resolves (n count : Nat) (ops : List AsmOp) : Prop where
  definitions_eq : definitions ops = (List.range' n count).map returnLabel
  count_pushed : ∀ k, (pushedLabels ops).count (returnLabel k) =
    (definitions ops).count (returnLabel k)
  paired : Paired ops

namespace Resolves

variable {n count : Nat} {ops : List AsmOp}

/-- Where there are no operations, no label is drawn. -/
theorem nil (n : Nat) : Resolves n 0 [] where
  definitions_eq := rfl
  count_pushed _ := rfl
  paired before l after h := by simp at h

/-- Two parts whose numbers follow one another. -/
theorem append (h : Resolves n count ops) {count' : Nat} {ops' : List AsmOp}
    (h' : Resolves (n + count) count' ops') : Resolves n (count + count') (ops ++ ops') where
  definitions_eq := by
    rw [definitions_append, h.definitions_eq, h'.definitions_eq, ← List.map_append,
      List.range'_append_1]
  count_pushed k := by
    rw [pushedLabels_append, definitions_append, List.count_append, List.count_append,
      h.count_pushed, h'.count_pushed]
  paired := h.paired.append h'.paired

/-- An operation that defines no label and pushes no return label. -/
theorem single {op : AsmOp} (hdefines : op.defines = none)
    (hpushes : ∀ k, op.pushes ≠ some (returnLabel k)) : Resolves n 0 [op] where
  definitions_eq := by rw [definitions, List.filterMap_cons, hdefines]; rfl
  count_pushed k := by
    rw [definitions, pushedLabels, List.filterMap_cons, List.filterMap_cons, hdefines]
    cases hop : op.pushes with
    | none => rfl
    | some l =>
      refine List.count_eq_zero.2 fun hmem => hpushes k ?_
      rw [hop, List.mem_singleton.1 hmem]
  paired before l after h := by
    have hmem : AsmOp.label l ∈ [op] := h ▸ List.mem_append_right _ List.mem_cons_self
    rw [← List.mem_singleton.1 hmem] at hdefines
    contradiction

/-- An operation without labels. -/
theorem unlabelled {op : AsmOp} (hdefines : op.defines = none) (hpushes : op.pushes = none) :
    Resolves n 0 [op] := by
  refine .single hdefines fun k hk => ?_
  rw [hpushes] at hk
  contradiction

end Resolves

/-- Moving a return address below operands defines no label. -/
theorem definitions_sinkOps (count : Nat) : definitions (sinkOps count) = [] := by
  induction count with
  | zero => rfl
  | succ count ih => exact ih

/-- Moving a return address below operands pushes no label. -/
theorem pushedLabels_sinkOps (count : Nat) : pushedLabels (sinkOps count) = [] := by
  induction count with
  | zero => rfl
  | succ count ih => exact ih

/-- A call defines the label that it returns to, and no other. -/
theorem definitions_callOps (n : Nat) (routine : Label) (inputs : Nat) :
    definitions (callOps n routine inputs) = [returnLabel n] := by
  rw [callOps, definitions, List.filterMap_cons]
  change definitions (_ ++ _) = _
  rw [definitions_append, definitions_sinkOps]
  rfl

/-- A call pushes the label that it returns to, and then its routine. -/
theorem pushedLabels_callOps (n : Nat) (routine : Label) (inputs : Nat) :
    pushedLabels (callOps n routine inputs) = [returnLabel n, routine] := by
  rw [callOps, pushedLabels, List.filterMap_cons]
  change returnLabel n :: pushedLabels (_ ++ _) = _
  rw [pushedLabels_append, pushedLabels_sinkOps]
  rfl

/-- A call defines the label that it returns to. -/
theorem resolves_callOps (n : Nat) {routine : Label} (hroutine : ∀ k, routine ≠ returnLabel k)
    (inputs : Nat) : Resolves n 1 (callOps n routine inputs) where
  definitions_eq := definitions_callOps n routine inputs
  count_pushed k := by
    rw [definitions_callOps, pushedLabels_callOps, List.count_cons, List.count_singleton,
      List.count_singleton, beq_eq_false_iff_ne.2 (hroutine k)]
    simp
  paired := by
    have hcall : callOps n routine inputs =
        (.pushLabel (returnLabel n) :: (sinkOps inputs ++ [.pushLabel routine, .jump])) ++
          [.label (returnLabel n), .jumpDest] := by
      simp [callOps]
    rw [hcall]
    refine paired_return (fun l hl => ?_) List.mem_cons_self (by simp [List.getLast?_cons])
    simp [label_notMem_sinkOps] at hl

/-- A call whose arguments are more than sixteen is not lowered. -/
theorem le_of_sinkTop_eq_ok {count : Nat} {ops : List AsmOp} (h : sinkTop count = .ok ops) :
    count ≤ 16 := by
  by_contra hlt
  rw [sinkTop_eq_error (Nat.lt_of_not_ge hlt)] at h
  contradiction

section Lowering

variable {span : Span} {n n' : Nat}

/-- A computation that fails does not succeed. -/
theorem Lower.exec_ne_ok {α : Type} {x : Lower α} {k : Nat} {e : Failure} {a : α}
    (h : x.exec n = (.error e, k)) : x.exec n ≠ (.ok a, n') := by
  rw [h]
  intro heq
  cases (Prod.mk.inj heq).1

/-- An instruction draws a label if it calls a routine, also if its lowering fails then. -/
theorem exec_lowerInstruction_snd (span : Span) (op : Instruction) (n : Nat) :
    ((lowerInstruction span op).exec n).2 = n + [op].countP Instruction.isCall := by
  cases op with
  | call routine inputs outputs =>
    rw [lowerInstruction, Lower.exec_bind_of_ok (exec_freshLabel n)]
    cases sinkTop inputs <;> rfl
  | dup k =>
    rw [lowerInstruction]
    cases AsmOp.dup? k <;> rfl
  | swap k =>
    rw [lowerInstruction]
    cases AsmOp.swap? k <;> rfl
  | pushSymbol symbol => cases symbol <;> rfl
  | sload kind | sstore kind => cases kind <;> rfl
  | _ => rfl

/-- An instruction that is lowered defines the label that it drew, if it did. -/
theorem resolves_of_lowerInstruction {op : Instruction} {ops : List AsmOp} (hop : op.NamesApart)
    (h : (lowerInstruction span op).exec n = (.ok ops, n')) :
    Resolves n ([op].countP Instruction.isCall) ops := by
  cases op with
  | call routine inputs outputs =>
    have hinputs : inputs ≤ 16 := by
      rw [lowerInstruction, Lower.exec_bind_of_ok (exec_freshLabel n)] at h
      cases hsink : sinkTop inputs with
      | ok sink => exact le_of_sinkTop_eq_ok hsink
      | error f =>
        rw [hsink] at h
        exact absurd h (Lower.exec_ne_ok rfl)
    rw [exec_lowerInstruction_call span n hinputs] at h
    obtain rfl := Except.ok.inj (congrArg Prod.fst h)
    exact resolves_callOps n (fun k => hop.ne_returnLabel rfl k) inputs
  | pushSymbol symbol =>
    cases symbol with
    | tag name =>
      obtain rfl := Except.ok.inj (congrArg Prod.fst h)
      exact .single rfl fun k hk => hop.ne_returnLabel rfl k (Option.some.inj hk)
    | immutable name =>
      obtain rfl := Except.ok.inj (congrArg Prod.fst h)
      exact .single rfl fun k hk => placeholderLabel_ne_returnLabel name k (Option.some.inj hk)
  | dup k =>
    rw [lowerInstruction, AsmOp.dup?] at h
    split at h
    · obtain rfl := Except.ok.inj (congrArg Prod.fst h)
      exact .unlabelled rfl rfl
    · exact absurd h (Lower.exec_ne_ok rfl)
  | swap k =>
    rw [lowerInstruction, AsmOp.swap?] at h
    split at h
    · obtain rfl := Except.ok.inj (congrArg Prod.fst h)
      exact .unlabelled rfl rfl
    · exact absurd h (Lower.exec_ne_ok rfl)
  | sload kind | sstore kind =>
    cases kind with
    | persistent =>
      obtain rfl := Except.ok.inj (congrArg Prod.fst h)
      exact .unlabelled rfl rfl
    | transient => exact absurd h (Lower.exec_ne_ok rfl)
  | _ =>
    obtain rfl := Except.ok.inj (congrArg Prod.fst h)
    exact .unlabelled rfl rfl

/-- Code that is lowered defines the labels that were drawn for its calls. -/
theorem resolves_of_lowerCode {code : Code} {ops : List AsmOp} (hcode : ∀ op ∈ code, op.NamesApart)
    (h : (lowerCode span code).exec n = (.ok ops, n')) :
    Resolves n (code.countP Instruction.isCall) ops := by
  induction code generalizing n ops with
  | nil =>
    obtain rfl := Except.ok.inj (congrArg Prod.fst h)
    exact .nil n
  | cons op code ih =>
    obtain ⟨hop, hcode⟩ := List.forall_mem_cons.1 hcode
    have hnext := exec_lowerInstruction_snd span op n
    rcases hrun : (lowerInstruction span op).exec n with ⟨e | ops₁, k⟩
    · rw [exec_lowerCode_cons_of_error hrun] at h
      exact absurd h (Lower.exec_ne_ok rfl)
    · rw [exec_lowerCode_cons hrun] at h
      obtain ⟨hops, hn'⟩ := Prod.mk.inj h
      obtain ⟨ops₂, hrest, rfl⟩ := Except.exists_of_map_eq_ok hops
      rw [hrun] at hnext
      dsimp only at hnext
      subst hnext
      rw [← List.singleton_append, List.countP_append]
      exact (resolves_of_lowerInstruction hop hrun).append (ih hcode (Prod.ext hrest hn'))

/-- Lowering from label number `n` on goes through for some code and fails at the next instruction. -/
def FailsAt (span : Span) (n : Nat) (done : Code) (op : Instruction) (e : Failure) : Prop :=
  ∃ ops k, (lowerCode span done).exec n = (.ok ops, k) ∧
    ((lowerInstruction span op).exec k).1 = .error e

/-- How the lowering of code ends: it goes through, with a label drawn for every call; or it fails at
an instruction, with a label drawn for every call up to there. -/
theorem exec_lowerCode_drawn (span : Span) (code : Code) (n : Nat) :
    (∃ ops, (lowerCode span code).exec n = (.ok ops, n + code.countP Instruction.isCall)) ∨
      ∃ done op rest e, code = done ++ op :: rest ∧ FailsAt span n done op e ∧
        (lowerCode span code).exec n =
          (.error e, n + (done ++ [op]).countP Instruction.isCall) := by
  induction code generalizing n with
  | nil => exact .inl ⟨[], rfl⟩
  | cons op code ih =>
    have hnext := exec_lowerInstruction_snd span op n
    rcases hrun : (lowerInstruction span op).exec n with ⟨e | ops, k⟩
    all_goals
      rw [hrun] at hnext
      dsimp only at hnext
      subst hnext
    · exact .inr ⟨[], op, code, e, rfl, ⟨[], n, rfl, congrArg Prod.fst hrun⟩,
        exec_lowerCode_cons_of_error hrun code⟩
    · have hcount : ∀ code : Code, n + [op].countP Instruction.isCall +
          code.countP Instruction.isCall = n + (op :: code).countP Instruction.isCall := by
        intro code
        rw [Nat.add_assoc, ← List.countP_append, List.singleton_append]
      rcases ih (n + [op].countP Instruction.isCall) with ⟨ops', hrest⟩ |
        ⟨done, op', rest, e, rfl, ⟨ops', k, hdone, hop'⟩, hrest⟩
      · refine .inl ⟨ops ++ ops', ?_⟩
        rw [exec_lowerCode_cons hrun, hrest, hcount]
        rfl
      · refine .inr ⟨op :: done, op', rest, e, rfl, ⟨ops ++ ops', k, ?_, hop'⟩, ?_⟩
        · rw [exec_lowerCode_cons hrun, hdone]
          rfl
        · rw [exec_lowerCode_cons hrun, hrest, hcount]
          rfl

end Lowering

/-! ## Sections lowered in turn -/

/-- What came of lowering the section of a unit with the given span: the number of the next return
label before and after, and the operations or the failure. -/
structure Lowered where
  span : Span
  code : Code
  first : Nat
  result : Except Failure (List AsmOp)
  next : Nat

namespace Lowered

/-- Lowering the section of a unit with the given span, when the next return label has number `n`. -/
def of (n : Nat) (source : Span × CodeSection) : Lowered :=
  let (result, next) := (lowerSection source.1 source.2).exec n
  ⟨source.1, source.2.ops.toList, n, result, next⟩

/-- The operations that were returned, none if there was a failure. -/
def ops (c : Lowered) : List AsmOp := c.result.toOption.getD []

/-- The section could be lowered. -/
def succeeded (c : Lowered) : Bool := c.result.toOption.isSome

end Lowered

/-- Lowers sections one after the other, whether or not that fails, with one supply of return labels. -/
def lowerInTurn : Nat → List (Span × CodeSection) → List Lowered
  | _, [] => []
  | n, source :: sources =>
    let c := Lowered.of n source
    c :: lowerInTurn c.next sources

/-- All operations that were returned, in order. -/
def lowered (calls : List Lowered) : List AsmOp := calls.flatMap Lowered.ops

/-- A section draws a label for each call of a routine, up to the instruction that fails. -/
def Lowered.Drawn (c : Lowered) : Prop :=
  c.succeeded = true ∧ c.next = c.first + c.code.countP Instruction.isCall ∨
    ∃ done op rest e, c.result = .error e ∧ c.code = done ++ op :: rest ∧
      FailsAt c.span c.first done op e ∧
      c.next = c.first + (done ++ [op]).countP Instruction.isCall

/-- How the return labels of sections lowered in turn are used. -/
structure ReturnsResolve (calls : List Lowered) : Prop where
  /-- A label that is defined is defined once and pushed once. -/
  once : ∀ l, .label l ∈ lowered calls →
    (definitions (lowered calls)).count l = 1 ∧ (pushedLabels (lowered calls)).count l = 1
  /-- It is defined behind a jump and before the mark of a jump target, and pushed earlier in the
  operations of the same section. -/
  paired : ∀ c ∈ calls, Paired c.ops
  /-- The sections that could be lowered define as many labels as they have calls of routines. -/
  length_definitions : (definitions (lowered calls)).length =
    ((calls.filter Lowered.succeeded).map fun c => c.code.countP Instruction.isCall).sum
  /-- A section draws a label for each call of a routine, up to the instruction that fails. -/
  drawn : ∀ c ∈ calls, c.Drawn
  /-- A label that a failed section drew is not drawn again, and neither defined nor pushed. -/
  unused : ∀ earlier c later, calls = earlier ++ c :: later → c.succeeded = false →
    ∀ k, c.first ≤ k → k < c.next →
      (∀ c' ∈ later, k < c'.first) ∧ returnLabel k ∉ definitions (lowered calls) ∧
        returnLabel k ∉ pushedLabels (lowered calls)

/-- The labels of one section, whatever came of lowering it. -/
structure Lowered.Labelled (c : Lowered) : Prop where
  le : c.first ≤ c.next
  resolves : Resolves c.first (if c.succeeded then c.code.countP Instruction.isCall else 0) c.ops
  drawn : c.Drawn

/-- Lowering one section draws its labels, whatever comes of it. -/
theorem Lowered.labelled_of (n : Nat) {source : Span × CodeSection}
    (h : ∀ op ∈ source.2.ops.toList, op.NamesApart) : (Lowered.of n source).Labelled := by
  rcases exec_lowerCode_drawn source.1 source.2.ops.toList n with ⟨ops, hrun⟩ |
    ⟨done, op, rest, e, hcode, hfails, hrun⟩
  · have hof : Lowered.of n source = ⟨source.1, source.2.ops.toList, n, .ok ops,
        n + source.2.ops.toList.countP Instruction.isCall⟩ := by
      rw [Lowered.of, lowerSection, hrun]
    rw [hof]
    exact ⟨Nat.le_add_right _ _, resolves_of_lowerCode h hrun, .inl ⟨rfl, rfl⟩⟩
  · have hof : Lowered.of n source = ⟨source.1, source.2.ops.toList, n, .error e,
        n + (done ++ [op]).countP Instruction.isCall⟩ := by
      rw [Lowered.of, lowerSection, hrun]
    rw [hof]
    exact ⟨Nat.le_add_right _ _, .nil n, .inr ⟨done, op, rest, e, rfl, hcode, hfails, rfl⟩⟩

/-- The labels that a section defines are among those that it drew, and it did not fail. -/
theorem Lowered.Labelled.of_mem {c : Lowered} (h : c.Labelled) {l : Label}
    (hl : l ∈ definitions c.ops) :
    c.succeeded = true ∧ ∃ k, c.first ≤ k ∧ k < c.next ∧ l = returnLabel k := by
  rw [h.resolves.definitions_eq] at hl
  obtain ⟨k, hk, rfl⟩ := List.mem_map.1 hl
  rw [List.mem_range'_1] at hk
  rcases h.drawn with ⟨hsucceeded, hnext⟩ | ⟨_, _, _, e, hfailed, -⟩
  · rw [if_pos hsucceeded, ← hnext] at hk
    exact ⟨hsucceeded, k, hk.1, hk.2, rfl⟩
  · have hsucceeded : c.succeeded = false := by
      rw [Lowered.succeeded, hfailed]
      rfl
    rw [hsucceeded, if_neg Bool.false_ne_true] at hk
    omega

/-- Sections that are lowered in turn draw labels in turn. -/
theorem lowerInTurn_labelled (n : Nat) {sources : List (Span × CodeSection)}
    (h : ∀ source ∈ sources, ∀ op ∈ source.2.ops.toList, op.NamesApart) :
    (∀ c ∈ lowerInTurn n sources, c.Labelled ∧ n ≤ c.first) ∧
      (lowerInTurn n sources).Pairwise fun c c' => c.next ≤ c'.first := by
  induction sources generalizing n with
  | nil => exact ⟨fun c hc => absurd hc List.not_mem_nil, .nil⟩
  | cons source sources ih =>
    obtain ⟨hsource, hsources⟩ := List.forall_mem_cons.1 h
    have hfirst := Lowered.labelled_of n hsource
    have hle : n ≤ (Lowered.of n source).next := hfirst.le
    obtain ⟨hrest, hpairwise⟩ := ih (Lowered.of n source).next hsources
    refine ⟨fun c hc => ?_, .cons (fun c hc => (hrest c hc).2) hpairwise⟩
    rcases List.mem_cons.1 hc with rfl | hc
    · exact ⟨hfirst, Nat.le_refl n⟩
    · exact ⟨(hrest c hc).1, hle.trans (hrest c hc).2⟩

section InTurn

variable {calls : List Lowered}

/-- Sections define their labels one section after the other. -/
theorem definitions_lowered (calls : List Lowered) :
    definitions (lowered calls) = calls.flatMap fun c => definitions c.ops :=
  List.filterMap_flatMap

/-- Sections that draw labels in turn define no label twice. -/
theorem nodup_definitions (h : ∀ c ∈ calls, c.Labelled)
    (hordered : calls.Pairwise fun c c' => c.next ≤ c'.first) :
    (definitions (lowered calls)).Nodup := by
  rw [definitions_lowered, List.nodup_flatMap]
  constructor
  · intro c hc
    rw [(h c hc).resolves.definitions_eq]
    exact List.Nodup.map (fun k k' hk => returnLabel_inj.1 hk) List.nodup_range'
  · refine hordered.imp_of_mem fun {c c'} hc hc' hle l hl hl' => ?_
    obtain ⟨-, k, -, hk, rfl⟩ := (h c hc).of_mem hl
    obtain ⟨-, k', hk', -, heq⟩ := (h c' hc').of_mem hl'
    have := returnLabel_inj.1 heq
    omega

/-- Return labels are pushed as often as they are defined. -/
theorem count_pushedLabels (h : ∀ c ∈ calls, c.Labelled) (k : Nat) :
    (pushedLabels (lowered calls)).count (returnLabel k) =
      (definitions (lowered calls)).count (returnLabel k) := by
  induction calls with
  | nil => rfl
  | cons c calls ih =>
    obtain ⟨hc, hcalls⟩ := List.forall_mem_cons.1 h
    rw [lowered, List.flatMap_cons, pushedLabels_append, definitions_append, List.count_append,
      List.count_append, hc.resolves.count_pushed]
    exact congrArg (_ + ·) (ih hcalls)

/-- There are as many definitions as calls in the sections that do not fail. -/
theorem length_definitions_lowered (h : ∀ c ∈ calls, c.Labelled) :
    (definitions (lowered calls)).length =
      ((calls.filter Lowered.succeeded).map fun c => c.code.countP Instruction.isCall).sum := by
  induction calls with
  | nil => rfl
  | cons c calls ih =>
    obtain ⟨hc, hcalls⟩ := List.forall_mem_cons.1 h
    rw [lowered, List.flatMap_cons, definitions_append, List.length_append,
      hc.resolves.definitions_eq, List.length_map, List.length_range', List.filter_cons]
    change _ + (definitions (lowered calls)).length = _
    rw [ih hcalls]
    split
    · rw [List.map_cons, List.sum_cons]
    · rw [Nat.zero_add]

/-- Labels that a failed section drew are neither defined nor drawn again.

**Proof sketch.** A label that is defined was drawn by a section that did not fail, before or after the
failed one; the numbers of the labels that it drew are below those of the failed one, or above. -/
theorem returnLabel_notMem_of_failed (h : ∀ c ∈ calls, c.Labelled)
    (hordered : calls.Pairwise fun c c' => c.next ≤ c'.first) {earlier later : List Lowered}
    {c : Lowered} (hcalls : calls = earlier ++ c :: later) (hfailed : c.succeeded = false) {k : Nat}
    (hfirst : c.first ≤ k) (hnext : k < c.next) :
    (∀ c' ∈ later, k < c'.first) ∧ returnLabel k ∉ definitions (lowered calls) := by
  subst hcalls
  obtain ⟨-, hrest, hearlier⟩ := List.pairwise_append.1 hordered
  have hlater := (List.pairwise_cons.1 hrest).1
  refine ⟨fun c' hc' => Nat.lt_of_lt_of_le hnext (hlater c' hc'), fun hmem => ?_⟩
  rw [definitions_lowered, List.mem_flatMap] at hmem
  obtain ⟨c', hc', hl⟩ := hmem
  obtain ⟨hsucceeded, k', hk, hk', heq⟩ := (h c' hc').of_mem hl
  obtain rfl := returnLabel_inj.1 heq
  rcases List.mem_append.1 hc' with hc' | hc'
  · have := hearlier c' hc' c List.mem_cons_self
    omega
  · rcases List.mem_cons.1 hc' with rfl | hc'
    · rw [hfailed] at hsucceeded
      contradiction
    · have := hlater c' hc'
      omega

end InTurn

/-- However often lowering fails on the way, sections that are lowered in turn, and name nothing that
starts as return labels do, resolve their return labels: each is defined once, between a jump and the
mark of a jump target, and pushed once, earlier in the operations of the same section; there are as many
as calls of routines in the sections that could be lowered; and what a failed section drew is not used.

**Proof sketch.** A section that can be lowered defines the labels that it drew
(`resolves_of_lowerCode`), and what sections draw, failed ones included, are numbers that follow each
other (`lowerInTurn_labelled`), so that return labels are defined once (`nodup_definitions`) and not
drawn again (`returnLabel_notMem_of_failed`).  They are pushed as often as they are defined. -/
theorem returnsResolve_lowerInTurn (n : Nat) {sources : List (Span × CodeSection)}
    (h : ∀ source ∈ sources, ∀ op ∈ source.2.ops.toList, op.NamesApart) :
    ReturnsResolve (lowerInTurn n sources) := by
  obtain ⟨hcalls, hordered⟩ := lowerInTurn_labelled n h
  have hlabelled : ∀ c ∈ lowerInTurn n sources, c.Labelled := fun c hc => (hcalls c hc).1
  refine ⟨fun l hl => ?_, fun c hc => (hlabelled c hc).resolves.paired,
    length_definitions_lowered hlabelled, fun c hc => (hlabelled c hc).drawn, ?_⟩
  · have hmem := mem_definitions.2 hl
    have hcount := List.count_eq_one_of_mem (nodup_definitions hlabelled hordered) hmem
    rw [definitions_lowered, List.mem_flatMap] at hmem
    obtain ⟨c, hc, hlc⟩ := hmem
    obtain ⟨-, k, -, -, rfl⟩ := (hlabelled c hc).of_mem hlc
    exact ⟨hcount, (count_pushedLabels hlabelled k).trans hcount⟩
  · intro earlier c later heq hfailed k hfirst hnext
    obtain ⟨hlater, hunused⟩ :=
      returnLabel_notMem_of_failed hlabelled hordered heq hfailed hfirst hnext
    refine ⟨hlater, hunused, ?_⟩
    rw [← List.count_eq_zero, count_pushedLabels hlabelled, List.count_eq_zero]
    exact hunused

/-- The second of three sections fails for an access of transient storage, behind a call: the label of
the call is left out. -/
theorem returnsResolve_lowerInTurn_transient :
    let calls := lowerInTurn 0 [
      (.dummy, ⟨#[.push 7, .call "sum" 1 1], 1⟩),
      (.dummy, ⟨#[.push 0, .call "clear" 1 0, .push 0, .sload .transient], 1⟩),
      (.dummy, ⟨#[.pushSymbol (.tag "sum"), .call "clear" 1 0, .push 7, .call "sum" 1 1], 1⟩)]
    definitions (lowered calls) = ["utility_return_0", "utility_return_2", "utility_return_3"] ∧
      ReturnsResolve calls :=
  ⟨by decide, returnsResolve_lowerInTurn 0 (by decide)⟩

end WordPlaces
