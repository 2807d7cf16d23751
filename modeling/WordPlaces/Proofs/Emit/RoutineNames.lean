import WordPlaces.Emit.Routine
import WordPlaces.Proofs.Emit.EmitsOnly
import WordPlaces.Proofs.Ty.Growth
import WordPlaces.Proofs.Ty.Reading

/-!
# The names of shared routines

A routine is named after what it does and the types it does it to.  The name tells the types apart
where every name that occurs in them is made of letters and digits and is that of one declaration, and
where there are no tuples within types.  Else two routines may share a name.

## Main definitions

* `RoutineUse` — a use of one of the operations that may call a routine.
* `RoutineUse.Calls` — a call of a routine is among the instructions that a use emits.

## Main results

* `routineName_eq` — the name of a routine is the words of its task and of its types, joined.
* `RoutineUse.eq_of_calls` — the call that a use emits, as a function of the use.
* `RoutineUse.types_eq_of_calls` — calls of one name come from one operation on the same types.
-/

set_option autoImplicit false

namespace WordPlaces

open Ty

/-! ## Names -/

/-- The name of a routine is the words of its task and of its types, joined. -/
theorem routineName_eq {dict : Dictionary} {structs : StructTable} {task : List String}
    (htask : task ≠ []) {types : List Ty} (h : ∀ ty ∈ types, IsSpelledOperand dict structs ty) :
    routineName structs ("_".intercalate task) types =
      "_".intercalate (task ++ types.flatMap (operandWords structs)) := by
  rw [routineName]
  induction types generalizing task with
  | nil => simp
  | cons ty tys ih =>
    have hty := (h ty List.mem_cons_self).foldText_display
    have hjoin : "_".intercalate task ++ "_" ++ foldText (ty.display structs) =
        "_".intercalate (task ++ ty.operandWords structs) := by
      rw [hty, String.intercalate_append_of_ne_nil htask (operandWords_ne_nil ty)]
    rw [List.foldl_cons, List.flatMap_cons, ← List.append_assoc]
    refine Eq.trans ?_ (ih (List.append_ne_nil_of_left_ne_nil htask _)
      fun ty' h' => h ty' (List.mem_cons_of_mem _ h'))
    rw [← hjoin]
    rfl

/-! ## Uses of routines -/

/-- The operations that may call a routine. -/
inductive Primitive where
  | copyArray
  | clearArray
  | copyCalldataStruct
  | convert
  | zeroReference
  deriving DecidableEq

/-- A use of one of the operations that may call a routine. -/
inductive RoutineUse where
  | copyArray (target source : Ty)
  | clearArray (ty : Ty)
  | copyCalldataStruct (target source : Ty)
  | convert (source target : Ty) (cleanup chopSignBits : Bool)
  | zeroReference (ty : Ty)

namespace RoutineUse

/-- The code of the use. -/
def emit : RoutineUse → Emit Unit
  | .copyArray target source => copyArrayToStorage target source
  | .clearArray ty => WordPlaces.clearArray ty
  | .copyCalldataStruct target source => WordPlaces.copyCalldataStruct target source
  | .convert source target cleanup chopSignBits => convertType source target cleanup chopSignBits
  | .zeroReference ty => pushZeroReference ty

/-- The operation that is used. -/
def primitive : RoutineUse → Primitive
  | .copyArray .. => .copyArray
  | .clearArray _ => .clearArray
  | .copyCalldataStruct .. => .copyCalldataStruct
  | .convert .. => .convert
  | .zeroReference _ => .zeroReference

/-- The types that it is used on. -/
def types : RoutineUse → List Ty
  | .copyArray target source | .copyCalldataStruct target source => [source, target]
  | .convert source target _ _ => [source, target]
  | .clearArray ty | .zeroReference ty => [ty]

/-- The slots that the routine takes. -/
def inputs : RoutineUse → Nat
  | .copyArray _ source => source.sizeOnStack + 1
  | .clearArray _ | .copyCalldataStruct .. => 2
  | .convert source _ _ _ => source.sizeOnStack
  | .zeroReference _ => 0

/-- The slots that the routine leaves. -/
def outputs : RoutineUse → Nat
  | .copyArray .. | .zeroReference _ => 1
  | .clearArray _ | .copyCalldataStruct .. => 0
  | .convert _ target _ _ => target.sizeOnStack

end RoutineUse

namespace Primitive

/-- What the routines of an operation do. -/
def task : Primitive → String
  | copyArray => "copy_array_to_storage"
  | clearArray => "clear_storage_array"
  | copyCalldataStruct => "update_storage_value"
  | convert => "convert"
  | zeroReference => "allocate_and_zero"

/-- The words of what the routines of an operation do. -/
def taskWords : Primitive → List String
  | copyArray => ["copy", "array", "to", "storage"]
  | clearArray => ["clear", "storage", "array"]
  | copyCalldataStruct => ["update", "storage", "value"]
  | convert => ["convert"]
  | zeroReference => ["allocate", "and", "zero"]

/-- The name of a task is its words, joined. -/
theorem task_eq (p : Primitive) : p.task = "_".intercalate p.taskWords := by
  cases p <;> cbv

end Primitive

namespace RoutineUse

/-- The name of the routine. -/
def name (structs : StructTable) (u : RoutineUse) : String :=
  routineName structs u.primitive.task u.types

/-- A call of the routine is among the instructions that the use emits. -/
def Calls (sc : Scope) (u : RoutineUse) (routine : String) (inputs outputs : Nat) : Prop :=
  ∃ (out : Output) (code : Code),
    (u.emit.exec sc out).2.code.ops.toList = out.code.ops.toList ++ code ∧
      .call routine inputs outputs ∈ code

/-! ### The call of a use -/

section Call

variable {sc : Scope}

/-- The instruction is no call, or the given one. -/
def IsOnlyCall (routine : String) (inputs outputs : Nat) (op : Instruction) : Prop :=
  ∀ r i o, op = .call r i o → r = routine ∧ i = inputs ∧ o = outputs

variable {routine : String} {inputs outputs : Nat}

/-- Cleaning up calls no routine. -/
theorem emitsOnly_cleanupValue (ty : Ty) :
    EmitsOnly sc (IsOnlyCall routine inputs outputs) (cleanupValue ty) := by
  refine (EmitsOnly.orFault _).bind fun e => ?_
  split
  · exact .pure ()
  · split
    · exact .emitAll (by simp [IsOnlyCall])
    · split
      · exact .emitAll (by simp [IsOnlyCall, Fragment.keepHighBytes])
      · rw [signExtendFrom]
        split
        · exact .fault _
        · exact .emitAll (by simp [IsOnlyCall, Fragment.signExtendBytes, Instruction.pushNat])
      · exact .emitAll (by simp [IsOnlyCall, Fragment.keepLowBytes])

/-- A call of a routine emits nothing else. -/
theorem emitsOnly_callRoutine (task : String) (types : List Ty) (inputs outputs : Nat) :
    EmitsOnly sc (IsOnlyCall (routineName sc.structs task types) inputs outputs)
      (callRoutine task types inputs outputs) := by
  refine .bind_read ((EmitsOnly.logEvent _).bind fun _ => .emit ?_)
  rintro r i o h
  obtain ⟨rfl, rfl, rfl⟩ := Instruction.call.inj h
  exact ⟨rfl, rfl, rfl⟩

/-- A use emits no call but that of its routine. -/
theorem emitsOnly_emit (u : RoutineUse) :
    EmitsOnly sc (IsOnlyCall (u.name sc.structs) u.inputs u.outputs) u.emit := by
  cases u with
  | copyArray target source => exact emitsOnly_callRoutine _ _ _ _
  | clearArray ty => exact emitsOnly_callRoutine _ _ _ _
  | copyCalldataStruct target source => exact emitsOnly_callRoutine _ _ _ _
  | convert source target cleanup chopSignBits =>
    change EmitsOnly _ _ (convertType source target cleanup chopSignBits)
    unfold convertType
    have hmask : EmitsOnly sc (IsOnlyCall (name sc.structs (.convert source target cleanup chopSignBits))
        source.sizeOnStack target.sizeOnStack) (do
          let e ← orFault target.encoding?
          if chopSignBits && e.isSigned && !e.isFullWord then
            emitAll (Fragment.keepLowBytes e.bytes)) := by
      refine (EmitsOnly.orFault _).bind fun e => ?_
      split
      · exact .emitAll (by simp [IsOnlyCall, Fragment.keepLowBytes])
      · exact .pure ()
    split
    · -- value types are converted in place
      split
      · exact (emitsOnly_cleanupValue target).bind fun _ => hmask
      · exact hmask
    · split
      · exact (EmitsOnly.displayTy source).bind fun _ =>
          (EmitsOnly.displayTy target).bind fun _ => .fault _
      · split
        · exact .pure ()
        · exact emitsOnly_callRoutine _ _ _ _
  | zeroReference ty =>
    change EmitsOnly _ _ (pushZeroReference ty)
    unfold pushZeroReference
    split
    · exact .emit (by simp [IsOnlyCall])
    · exact emitsOnly_callRoutine _ _ _ _

/-- The call that a use emits is that of its routine. -/
theorem eq_of_calls {u : RoutineUse} (h : u.Calls sc routine inputs outputs) :
    routine = u.name sc.structs ∧ inputs = u.inputs ∧ outputs = u.outputs := by
  obtain ⟨out, code, hcode, hmem⟩ := h
  have hemits : EmitsOnly sc (IsOnlyCall (u.name sc.structs) u.inputs u.outputs) u.emit :=
    u.emitsOnly_emit
  obtain ⟨code', hcode', hall⟩ := hemits out
  obtain rfl := List.append_cancel_left (hcode.symm.trans hcode')
  exact hall _ hmem _ _ _ rfl

end Call

/-! ### Telling uses apart -/

section Apart

variable {dict : Dictionary} {structs : StructTable} {u u' : RoutineUse}

/-- The words of a task are words. -/
theorem isWord_of_mem_taskWords {p : Primitive} : ∀ w ∈ p.taskWords, IsWord w := by
  cases p <;> simp [Primitive.taskWords, IsWord]

/-- The names of uses on types that are spelled with words are told apart. -/
theorem name_inj (h : ∀ ty ∈ u.types, IsSpelledOperand dict structs ty)
    (h' : ∀ ty ∈ u'.types, IsSpelledOperand dict structs ty)
    (heq : u.name structs = u'.name structs) :
    u.primitive = u'.primitive ∧ u.types = u'.types := by
  have hne : ∀ p : Primitive, p.taskWords ≠ [] := by
    intro p
    cases p <;> exact List.cons_ne_nil _ _
  have hwords : ∀ {u : RoutineUse}, (∀ ty ∈ u.types, IsSpelledOperand dict structs ty) →
      ∀ w ∈ u.primitive.taskWords ++ u.types.flatMap (operandWords structs), IsWord w := by
    intro u h w hw
    rcases List.mem_append.1 hw with hw | hw
    · exact isWord_of_mem_taskWords w hw
    · obtain ⟨ty, hty, hw⟩ := List.mem_flatMap.1 hw
      exact (h ty hty).isWord_of_mem_words w hw
  rw [name, name, Primitive.task_eq, Primitive.task_eq, routineName_eq (hne _) h,
    routineName_eq (hne _) h'] at heq
  have hlists := eq_of_intercalate_eq (hwords h) (hwords h')
    (List.append_ne_nil_of_left_ne_nil (hne _) _) (List.append_ne_nil_of_left_ne_nil (hne _) _) heq
  -- the first words of what routines do differ
  have hprimitive : u.primitive = u'.primitive := by
    generalize u.primitive = p at hlists
    generalize u'.primitive = p' at hlists
    cases p <;> cases p' <;> simp [Primitive.taskWords] at hlists ⊢
  refine ⟨hprimitive, operands_inj h h' ?_⟩
  rw [hprimitive] at hlists
  exact List.append_cancel_left hlists

/-- A routine takes and leaves as many slots as the operation and its types say. -/
theorem arity_eq (hprimitive : u.primitive = u'.primitive) (htypes : u.types = u'.types) :
    u.inputs = u'.inputs ∧ u.outputs = u'.outputs := by
  cases u <;> cases u' <;> simp_all [primitive, types, inputs, outputs]

/-- Two calls of routines of one name come from the same operation on the same types, and so take and
leave the same slots, where the names in the types are words that stand for one declaration each and
are not reserved, and tuples are not within other types.

**Proof sketch.**  A use calls no routine but that of its name (`eq_of_calls`), which is made of words
(`routineName_eq`).  These are told apart when they are joined (`eq_of_intercalate_eq`), start with the
task, and go on with the types, which are read back from them (`Ty.operands_inj`). -/
theorem types_eq_of_calls {sc sc' : Scope} (hsc : sc.structs = structs) (hsc' : sc'.structs = structs)
    (h : ∀ ty ∈ u.types, IsSpelledOperand dict structs ty)
    (h' : ∀ ty ∈ u'.types, IsSpelledOperand dict structs ty)
    {routine : String} {inputs outputs inputs' outputs' : Nat}
    (hcall : u.Calls sc routine inputs outputs) (hcall' : u'.Calls sc' routine inputs' outputs') :
    u.primitive = u'.primitive ∧ u.types = u'.types ∧ inputs = inputs' ∧ outputs = outputs' := by
  obtain ⟨hname, rfl, rfl⟩ := eq_of_calls hcall
  obtain ⟨hname', rfl, rfl⟩ := eq_of_calls hcall'
  rw [hsc] at hname
  rw [hsc'] at hname'
  obtain ⟨hprimitive, htypes⟩ := name_inj h h' (hname.symm.trans hname')
  exact ⟨hprimitive, htypes, arity_eq hprimitive htypes⟩

end Apart

/-- A use whose code is the call of its routine calls it. -/
theorem calls_of_emit_eq {u : RoutineUse} (sc : Scope)
    (h : u.emit = callRoutine u.primitive.task u.types u.inputs u.outputs)
    (houtputs : u.outputs < countLimit) :
    u.Calls sc (u.name sc.structs) u.inputs u.outputs := by
  refine ⟨{ code := .ofHeight u.inputs }, [.call (u.name sc.structs) u.inputs u.outputs], ?_,
    List.mem_singleton.2 rfl⟩
  have hheight : (CodeSection.ofHeight u.inputs).heightAfter
      (.call (u.name sc.structs) u.inputs u.outputs) = .ok u.outputs := by
    simp [CodeSection.heightAfter, CodeSection.ofHeight, Instruction.inputs, Instruction.outputs,
      checkedCount, houtputs]
  have hread : (MonadReaderOf.read : Emit Scope).exec sc { code := .ofHeight u.inputs } =
      (.ok sc, { code := .ofHeight u.inputs }) := rfl
  have hname : u.name sc.structs = routineName sc.structs u.primitive.task u.types := rfl
  rw [h, callRoutine]
  simp only [Emit.exec_bind, read, readThe, hread, Emit.exec_logEvent, Emit.exec_emit, ← hname, hheight,
    CodeSection.push, Array.toList_push]

/-- Clearing an array calls its routine. -/
theorem calls_clearArray (sc : Scope) (ty : Ty) :
    (clearArray ty).Calls sc ((clearArray ty).name sc.structs) 2 0 :=
  calls_of_emit_eq sc rfl (show 0 < countLimit by decide)

/-- Converting between different types that are no value types calls a routine. -/
theorem calls_convert (sc : Scope) {source target : Ty} (hsource : source.isValueType = false)
    (htarget : target.isValueType = false) (hne : source ≠ target)
    (hsize : target.sizeOnStack < countLimit) (cleanup chopSignBits : Bool) :
    (convert source target cleanup chopSignBits).Calls sc
      ((convert source target cleanup chopSignBits).name sc.structs)
      source.sizeOnStack target.sizeOnStack := by
  refine calls_of_emit_eq sc ?_ hsize
  change convertType _ _ _ _ = _
  rw [convertType, if_neg (by simp [hsource]), if_neg (by simp [hsource, htarget]), if_neg hne]
  rfl

/-- Converting a tuple to that of one truth value calls a routine. -/
theorem calls_convert_tuple (sc : Scope) {components : List Ty} (hne : components ≠ [.bool]) :
    (convert (.tuple components) (.tuple [.bool]) true false).Calls sc
      ((convert (.tuple components) (.tuple [.bool]) true false).name sc.structs)
      (Ty.tuple components).sizeOnStack 1 :=
  calls_convert sc rfl rfl (by simpa using hne) (by exact show 1 < countLimit by decide) true false

/-- Arrays of structs are converted by one routine, with and without clean-up, and arrays that differ in
their lengths are cleared by different ones. -/
theorem types_eq_of_calls_arrays :
    ∃ table : TypeTable, TypeTable.declareStruct {} "Point" [⟨"x", .bool⟩] = .ok (0, table) ∧
      let dict : Dictionary := ⟨fun _ => 0, fun _ => 0, fun _ => .bool⟩
      let sc : Scope := { structs := table.structs }
      let points (length : Option Nat) (location : DataLocation) : Ty :=
        .array (.struct 0 location) length location
      let cleaned := convert (points none .storage) (points none .memory) true false
      let plain := convert (points none .storage) (points none .memory) false true
      (∀ length location, IsSpelledOperand dict table.structs (points length location)) ∧
      (∃ routine, cleaned.Calls sc routine 1 1 ∧ plain.Calls sc routine 1 1 ∧
        cleaned.primitive = plain.primitive ∧ cleaned.types = plain.types) ∧
      ∃ routine routine', (clearArray (points none .storage)).Calls sc routine 2 0 ∧
        (clearArray (points (some 3) .storage)).Calls sc routine' 2 0 ∧ routine ≠ routine' := by
  obtain ⟨table, hdeclare, hname⟩ : ∃ table : TypeTable,
      TypeTable.declareStruct {} "Point" [⟨"x", .bool⟩] = .ok (0, table) ∧
        (table.structs.decl 0).name = "Point" := ⟨_, rfl, rfl⟩
  refine ⟨table, hdeclare, ?_⟩
  intro dict sc points cleaned plain
  have hspelled : ∀ length location, IsSpelledOperand dict table.structs (points length location) :=
    fun length location => .ofTy (.array length location (.struct location
      (by rw [hname]; exact ⟨by simp [IsWord], by simp⟩) rfl))
  have hconvert : ∀ cleanup chopSignBits,
      (convert (points none .storage) (points none .memory) cleanup chopSignBits).Calls sc
        (cleaned.name sc.structs) 1 1 :=
    calls_convert sc rfl rfl (by simp [points]) (show 1 < countLimit by decide)
  have hpair : ∀ ty ∈ cleaned.types, IsSpelledOperand dict table.structs ty := by
    simp [cleaned, types, hspelled]
  obtain ⟨hprimitive, htypes, -⟩ :=
    types_eq_of_calls rfl rfl hpair hpair (hconvert true false) (hconvert false true)
  refine ⟨hspelled, ⟨_, hconvert true false, hconvert false true, hprimitive, htypes⟩, ?_⟩
  have hcall := calls_clearArray sc (points none .storage)
  have hcall' := calls_clearArray sc (points (some 3) .storage)
  refine ⟨_, _, hcall, hcall', fun heq => ?_⟩
  rw [← heq] at hcall'
  have htypes := (types_eq_of_calls rfl rfl
    (by exact List.forall_mem_singleton.2 (hspelled none .storage))
    (by exact List.forall_mem_singleton.2 (hspelled (some 3) .storage)) hcall hcall').2.1
  simp [types, points] at htypes

/-- Routines that share a name: the arrays that are cleared have elements of different structs, and the
tuples that are converted have different components. -/
theorem calls_of_one_name :
    (∃ table table' : TypeTable,
      TypeTable.declareStruct {} "S" [⟨"x", .bool⟩] = .ok (0, table) ∧
      table.declareStruct "S" [⟨"x", .address⟩, ⟨"y", .address⟩] = .ok (1, table') ∧
      TypeTable.Reaches {} table' ∧
      ∃ routine,
        (clearArray (.array (.struct 0 .storage) none .storage)).Calls
          { structs := table'.structs } routine 2 0 ∧
        (clearArray (.array (.struct 1 .storage) none .storage)).Calls
          { structs := table'.structs } routine 2 0) ∧
    (∃ routine,
      (convert (.tuple [.tuple [.bool], .bool, .tuple [.bool]]) (.tuple [.bool]) true false).Calls {}
        routine 3 1 ∧
      (convert (.tuple [.tuple [.bool, .tuple [.bool], .bool]]) (.tuple [.bool]) true false).Calls {}
        routine 3 1) ∧
    ∃ routine,
      (convert (.tuple [.function .external]) (.tuple [.bool]) true false).Calls {} routine 2 1 ∧
      (convert (.tuple [.named "function_external" .bool]) (.tuple [.bool]) true false).Calls {}
        routine 1 1 := by
  refine ⟨?_, ?_, ?_⟩
  · obtain ⟨table, table', hfirst, hsecond, hname, hname'⟩ : ∃ table table' : TypeTable,
        TypeTable.declareStruct {} "S" [⟨"x", .bool⟩] = .ok (0, table) ∧
        table.declareStruct "S" [⟨"x", .address⟩, ⟨"y", .address⟩] = .ok (1, table') ∧
        (table'.structs.decl 0).name = "S" ∧ (table'.structs.decl 1).name = "S" :=
      ⟨_, _, rfl, rfl, rfl, rfl⟩
    have hnames : (clearArray (.array (.struct 1 .storage) none .storage)).name table'.structs =
        (clearArray (.array (.struct 0 .storage) none .storage)).name table'.structs := by
      simp only [name, types, primitive, routineName, List.foldl_cons, List.foldl_nil, display, hname,
        hname']
    have hreaches : TypeTable.Reaches {} table' :=
      (Relation.ReflTransGen.single (.declareStruct hfirst)).tail (.declareStruct hsecond)
    refine ⟨table, table', hfirst, hsecond, hreaches, _, calls_clearArray _ _, ?_⟩
    rw [← hnames]
    exact calls_clearArray _ _
  · have hnames : (convert (.tuple [.tuple [.bool, .tuple [.bool], .bool]]) (.tuple [.bool]) true
        false).name {} =
        (convert (.tuple [.tuple [.bool], .bool, .tuple [.bool]]) (.tuple [.bool]) true false).name {} := by
      cbv
    refine ⟨_, calls_convert_tuple {} (by simp), ?_⟩
    rw [← hnames]
    exact calls_convert_tuple {} (by simp)
  · have hnames : (convert (.tuple [.named "function_external" .bool]) (.tuple [.bool]) true
        false).name {} =
        (convert (.tuple [.function .external]) (.tuple [.bool]) true false).name {} := by
      cbv
    refine ⟨_, calls_convert_tuple {} (by simp), ?_⟩
    rw [← hnames]
    exact calls_convert_tuple {} (by simp)

end RoutineUse

end WordPlaces
