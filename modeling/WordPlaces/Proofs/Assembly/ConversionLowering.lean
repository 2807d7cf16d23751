import WordPlaces.Proofs.Assembly.Lowering
import WordPlaces.Proofs.Emit.Fragments

/-!
# Lowering conversions

Types that are not value types are converted by a routine, which takes all slots of the value that is
converted as its arguments.  How many there are is not checked when the call is emitted, and a call with
more than sixteen of them cannot be lowered.

## Main definitions

* `CodeSection.LowersFrom` — lowering the section reaches no internal error.
* `conversionCode` — the code of a conversion between types that are not value types.

## Main results

* `CodeSection.lowersFrom_append_call` — which calls can be added to a section that can be lowered.
* `convertType_lowersFrom_iff` — a conversion can be lowered if it changes nothing, or takes no more than
  sixteen slots.
* `not_lowersFrom_of_convertType` — a conversion that is emitted and cannot be lowered.
-/

set_option autoImplicit false

namespace WordPlaces

/-! ## Sections with one call more -/

/-- Lowering the section from label number `n` on ends without an internal error: the section is lowered,
or it is refused with a diagnostic. -/
def CodeSection.LowersFrom (code : CodeSection) (span : Span) (n : Nat) : Prop :=
  ∀ f, ((lowerSection span code).exec n).1 ≠ .error (.fault f)

section Append

variable {span : Span} {n : Nat} {code : Code}

/-- What lowering answers for code with a call after it, if the code alone is lowered. -/
theorem exec_lowerCode_append_call {ops : List AsmOp} {n' : Nat}
    (h : (lowerCode span code).exec n = (.ok ops, n')) (routine : Label) (inputs outputs : Nat) :
    (lowerCode span (code ++ [.call routine inputs outputs])).exec n =
      if inputs ≤ 16 then (.ok (ops ++ callOps n' routine inputs), n' + 1)
      else (.error (.fault (.swapOutOfRange (missingSwap inputs))), n' + 1) := by
  rw [exec_lowerCode_append h]
  split
  · rename_i hle
    rw [exec_lowerCode_cons (exec_lowerInstruction_call span n' hle routine outputs)]
    simp [lowerCode, Lower.exec_pure, Except.map]
  · rename_i hlt
    rw [exec_lowerCode_cons_of_error
      (exec_lowerInstruction_call_of_lt span n' (Nat.lt_of_not_ge hlt) routine outputs)]
    rfl

namespace CodeSection

variable {s s' : CodeSection} {routine : Label} {inputs outputs : Nat}

/-- A call that is added to a section that can be lowered makes lowering fault exactly where it has more
than sixteen arguments and is reached. -/
theorem lowersFrom_append_call (h : s.LowersFrom span n)
    (hops : s'.ops = s.ops ++ #[.call routine inputs outputs]) :
    if inputs ≤ 16 ∨ s.ops.toList.any Instruction.isTransient = true then s'.LowersFrom span n
    else ((lowerSection span s').exec n).1 = .error (.fault (.swapOutOfRange (missingSwap inputs))) := by
  have hcode : s'.ops.toList = s.ops.toList ++ [.call routine inputs outputs] := by simp [hops]
  rw [LowersFrom, lowerSection, hcode]
  rcases exec_lowerCode h n with ⟨hany, ops, k, hrun⟩ | ⟨hany, k, hrun⟩
  · rw [exec_lowerCode_append_call hrun, hany]
    by_cases hle : inputs ≤ 16
    · simp [hle]
    · simp [hle]
  · rw [exec_lowerCode_append_of_error hrun, hany]
    simp

/-- A section whose instructions can be lowered. -/
theorem lowersFrom_of_encodable (h : ∀ op ∈ s.ops.toList, op.Encodable) : s.LowersFrom span n :=
  exec_lowerCode_ne_fault fun op hop _ => h op hop

/-- What cannot be lowered alone cannot be lowered with further code after it. -/
theorem LowersFrom.of_append (h : s'.LowersFrom span n) (hops : s'.ops = s.ops ++ code.toArray) :
    s.LowersFrom span n := by
  intro f hf
  have hcode : s'.ops.toList = s.ops.toList ++ code := by simp [hops]
  refine h f ?_
  rw [lowerSection, hcode, exec_lowerCode_append_of_error (Prod.ext hf rfl)]

end CodeSection

end Append

/-! ## Conversions -/

/-- The code that converts a value between two types that are not value types. -/
def conversionCode (structs : StructTable) (source target : Ty) : Code :=
  if source = target then []
  else [.call (routineName structs "convert" [source, target]) source.sizeOnStack target.sizeOnStack]

/-- Types that are not value types are converted by a call, unless they are the same. -/
theorem Emits.convertType_of_not_isValueType (sc : Scope) {source target : Ty}
    (hsource : source.isValueType = false) (htarget : target.isValueType = false)
    (cleanup chopSignBits : Bool) :
    Emits sc (convertType source target cleanup chopSignBits)
      (conversionCode sc.structs source target) (.ok ()) := by
  rw [convertType, if_neg (by simp [hsource]), if_neg (by simp [hsource, htarget]), conversionCode]
  split
  · exact .pure ()
  · exact .callRoutine "convert" [source, target] source.sizeOnStack target.sizeOnStack

/-- The conversion of a value that is on the stack is appended as long as the height stays within a
counter. -/
theorem exists_extend_conversionCode_iff {s : CodeSection} {source : Ty}
    (hle : source.sizeOnStack ≤ s.height) (structs : StructTable) (target : Ty) :
    (∃ s', s.extend (conversionCode structs source target) = (s', none)) ↔
      source = target ∨ s.height - source.sizeOnStack + target.sizeOnStack < countLimit := by
  unfold conversionCode
  split
  · exact ⟨fun _ => .inl ‹_›, fun _ => ⟨s, rfl⟩⟩
  · rw [or_iff_right ‹_›]
    exact CodeSection.exists_extend_singleton_iff hle

/-- The conversion of a value that is on the stack between types that are not value types is never refused
with a diagnostic, and it succeeds where the height after it can be counted.  The section after it can be
lowered if and only if the one before it can, and the types are the same, or the value takes no more than
sixteen slots, or lowering is refused for an access of transient storage before it comes to the conversion.
Otherwise it faults.

**Proof sketch.** The conversion is the call of a routine (`Emits.convertType_of_not_isValueType`), which
takes as many arguments as the value has slots.  Lowering appends the operations of the call to those of
the section, and it faults on the first exchange that is not there, among those that move the return label
below the arguments (`CodeSection.lowersFrom_append_call`). -/
theorem convertType_lowersFrom_iff {sc : Scope} {source target : Ty} {out : Output}
    (hsource : source.isValueType = false) (htarget : target.isValueType = false)
    (hheight : source.sizeOnStack ≤ out.code.height) (cleanup chopSignBits : Bool) :
    (∀ d out', (convertType source target cleanup chopSignBits).exec sc out ≠
      (.error (.diagnostic d), out')) ∧
    ((∃ out', (convertType source target cleanup chopSignBits).exec sc out = (.ok (), out')) ↔
      source = target ∨ out.code.height - source.sizeOnStack + target.sizeOnStack < countLimit) ∧
    ∀ out', (convertType source target cleanup chopSignBits).exec sc out = (.ok (), out') →
      ∀ span n,
        (out'.code.LowersFrom span n ↔ out.code.LowersFrom span n ∧
          (source = target ∨ source.sizeOnStack ≤ 16 ∨
            out.code.ops.toList.any Instruction.isTransient = true)) ∧
        (out.code.LowersFrom span n → ¬ out'.code.LowersFrom span n →
          ((lowerSection span out'.code).exec n).1 =
            .error (.fault (.swapOutOfRange (missingSwap source.sizeOnStack)))) := by
  have hemits := Emits.convertType_of_not_isValueType sc hsource htarget cleanup chopSignBits
  refine ⟨fun d out' hexec => ?_, (hemits _).exists_exec_eq_ok_iff.trans
    (exists_extend_conversionCode_iff hheight sc.structs target), fun out' hexec span n => ?_⟩
  · obtain ⟨events, he⟩ := hemits _ out rfl
    rw [hexec] at he
    split at he <;> simp at he
  · obtain ⟨-, hextend⟩ := (hemits _).of_exec_eq_ok hexec
    have hops := (CodeSection.extend_eq_none hextend).2
    by_cases heq : source = target
    · -- Nothing is emitted.
      rw [conversionCode, if_pos heq] at hextend
      rw [← (Prod.mk.inj hextend).1]
      exact ⟨⟨fun h => ⟨h, .inl heq⟩, And.left⟩, fun h hnot => absurd h hnot⟩
    · have hbefore : out'.code.LowersFrom span n → out.code.LowersFrom span n := fun h => h.of_append hops
      rw [conversionCode, if_neg heq] at hops
      have hcall (h : out.code.LowersFrom span n) := CodeSection.lowersFrom_append_call h hops
      rw [or_iff_right heq]
      by_cases hreach : source.sizeOnStack ≤ 16 ∨ out.code.ops.toList.any Instruction.isTransient = true
      · simp only [if_pos hreach] at hcall
        exact ⟨⟨fun h => ⟨hbefore h, hreach⟩, fun h => hcall h.1⟩, fun h hnot => absurd (hcall h) hnot⟩
      · simp only [if_neg hreach] at hcall
        exact ⟨⟨fun h => absurd (hcall (hbefore h)) (h _), fun h => absurd h.2 hreach⟩, fun h _ => hcall h⟩

/-- A tuple of eight external functions takes sixteen slots, and its conversion can be lowered. -/
theorem convertType_lowersFrom_iff_functions :
    ∃ out', (convertType (.tuple (List.replicate 8 (.function .external)))
        (.tuple (List.replicate 8 (.function .internal))) true false).exec {}
          { code := .ofHeight 16 } = (.ok (), out') ∧
      ∀ span n, out'.code.LowersFrom span n := by
  have hsize : (Ty.tuple (List.replicate 8 (.function .external))).sizeOnStack = 16 := by decide
  have htarget : (Ty.tuple (List.replicate 8 (.function .internal))).isValueType = false := rfl
  have hheight : (Ty.tuple (List.replicate 8 (.function .external))).sizeOnStack ≤
      ({ code := .ofHeight 16 } : Output).code.height := Nat.le_of_eq hsize
  obtain ⟨-, hsucceeds, hlowers⟩ := convertType_lowersFrom_iff rfl htarget hheight true false
  obtain ⟨out', hexec⟩ := hsucceeds.2 (.inr (by decide))
  refine ⟨out', hexec, fun span n => ((hlowers out' hexec span n).1).2 ⟨?_, .inr (.inl hsize.le)⟩⟩
  exact CodeSection.lowersFrom_of_encodable fun op hop => absurd hop List.not_mem_nil

/-- Seventeen truth values on the stack, as a tuple, are converted to a tuple of addresses.  The call is
emitted, and lowering it faults for the exchange with the seventeenth slot. -/
theorem not_lowersFrom_of_convertType :
    (Ty.tuple (List.replicate 17 .bool)).sizeOnStack = 17 ∧
    ∃ out out', (repeatEmit 17 (emit (.push 0))).exec {} {} = (.ok (), out) ∧ out.code.height = 17 ∧
      (convertType (.tuple (List.replicate 17 .bool)) (.tuple (List.replicate 17 .address)) true
        false).exec {} out = (.ok (), out') ∧
      ∀ span n, ¬ out'.code.LowersFrom span n ∧
        ((lowerSection span out'.code).exec n).1 = .error (.fault (.swapOutOfRange 17)) := by
  have hsize : (Ty.tuple (List.replicate 17 .bool)).sizeOnStack = 17 := by decide
  have hne : Ty.tuple (List.replicate 17 .bool) ≠ .tuple (List.replicate 17 .address) := by simp
  have hpushes : AppendsFrom {} 0 (repeatEmit 17 (emit (.push 0)))
      (List.replicate 17 [.push 0]).flatten () := (Emits.repeatEmit (.emit _) 17).appendsFrom rfl
  obtain ⟨out, hpush, hops, hafter⟩ := hpushes {} (Nat.le_refl 0) (by decide)
  have hheight : 17 = out.code.height := Option.some.inj hafter
  have hlist : out.code.ops.toList = List.replicate 17 (.push 0) := by
    rw [hops]
    rfl
  have hemits : Emits {} (convertType (.tuple (List.replicate 17 .bool))
      (.tuple (List.replicate 17 .address)) true false) _ (.ok ()) :=
    .convertType_of_not_isValueType {} rfl rfl true false
  obtain ⟨out', hexec⟩ : ∃ out', (convertType (.tuple (List.replicate 17 .bool))
      (.tuple (List.replicate 17 .address)) true false).exec {} out = (.ok (), out') := by
    refine (hemits _).exists_exec_eq_ok_iff.2 ((exists_extend_conversionCode_iff ?_ _ _).2 (.inr ?_))
    · exact Nat.le_of_eq (hsize.trans hheight)
    · rw [hsize, ← hheight]
      decide
  refine ⟨hsize, out, out', hpush, hheight.symm, hexec, fun span n => ?_⟩
  have happended := (CodeSection.extend_eq_none ((hemits _).of_exec_eq_ok hexec).2).2
  rw [conversionCode, if_neg hne, hsize] at happended
  have hbefore : out.code.LowersFrom span n := by
    refine CodeSection.lowersFrom_of_encodable fun op hop => ?_
    rw [hlist] at hop
    obtain rfl := (List.mem_replicate.1 hop).2
    trivial
  have hcall := CodeSection.lowersFrom_append_call hbefore happended
  rw [if_neg (by rw [hlist]; decide)] at hcall
  exact ⟨fun hlowers => hlowers _ hcall, hcall⟩

end WordPlaces
