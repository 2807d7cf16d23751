import Mathlib.Data.List.Induction
import WordPlaces.Emit.Value
import WordPlaces.Proofs.Emit.Emission
import WordPlaces.Proofs.Machine.Step
import WordPlaces.Proofs.Word

/-!
# The code of shared pieces

The pieces that accesses are made of are straight-line code on the top of the stack.  For each of
them this is the code it emits, and what executing it makes of the stack.

## Main results

* `Emits.copyToTop`, `Emits.popSlots`, `Emits.leftShift`, `Emits.rightShift`, `Emits.signExtendFrom`
  — the code of pieces within the limits of the machine.
* `Machine.run_offsetToMultiplier`, `Machine.run_clearBytes` and others — executing code fragments.
-/

set_option autoImplicit false

namespace WordPlaces

open Fragment

/-! ## Emitting -/

namespace Emits

variable {sc : Scope}

/-- A depth within the reach of stack instructions. -/
theorem reachable {depth : Nat} (hpos : depth ≠ 0) (hle : depth ≤ stackWindow) :
    Emits sc (reachable depth) [] (.ok ()) := by
  rw [WordPlaces.reachable, if_neg hpos, if_neg (Nat.not_lt.2 hle)]
  exact .pure ()

/-- A depth that stack instructions do not reach. -/
theorem reachable_of_lt {depth : Nat} (hlt : stackWindow < depth) :
    Emits sc (WordPlaces.reachable depth) []
      (.error (.diagnostic (.stackTooDeep depth sc.site))) := by
  rw [WordPlaces.reachable, if_neg (Nat.ne_of_gt (Nat.zero_lt_of_lt hlt)), if_pos hlt]
  exact .reject _

/-- A slot within reach is copied with one instruction. -/
theorem dupSlot {depth : Nat} (hpos : depth ≠ 0) (hle : depth ≤ stackWindow) :
    Emits sc (dupSlot depth) [.dup depth] (.ok ()) :=
  (reachable hpos hle).bind_nil (.emit _)

/-- A slot within reach is exchanged with one instruction. -/
theorem swapSlot {depth : Nat} (hpos : depth ≠ 0) (hle : depth ≤ stackWindow) :
    Emits sc (swapSlot depth) [.swap depth] (.ok ()) :=
  (reachable hpos hle).bind_nil (.emit _)

/-- An exchange that is out of reach. -/
theorem swapSlot_of_lt {depth : Nat} (hlt : stackWindow < depth) :
    Emits sc (WordPlaces.swapSlot depth) [] (.error (.diagnostic (.stackTooDeep depth sc.site))) :=
  (reachable_of_lt hlt).bind_error

/-- Slots within reach are copied one by one, all at the same depth, as every copy raises the stack. -/
theorem copyToTop {depth : Nat} (hpos : depth ≠ 0) (hle : depth ≤ stackWindow) (size : Nat) :
    Emits sc (copyToTop depth size) (List.replicate size [.dup depth]).flatten (.ok ()) :=
  .repeatEmit (dupSlot hpos hle) size

/-- Slots are dropped one by one. -/
theorem popSlots (count : Nat) :
    Emits sc (popSlots count) (List.replicate count [.pop]).flatten (.ok ()) :=
  .repeatEmit (.emit _) count

/-- A shift by less than a word is emitted. -/
theorem leftShift {bits : Nat} (hbits : bits < 256) :
    Emits sc (leftShift bits) (shiftLeft bits) (.ok ()) := by
  rw [WordPlaces.leftShift, if_pos hbits]
  exact .emitAll _

/-- A shift by less than a word is emitted. -/
theorem rightShift {bits : Nat} (hbits : bits < 256) :
    Emits sc (rightShift bits) (shiftRight bits) (.ok ()) := by
  rw [WordPlaces.rightShift, if_pos hbits]
  exact .emitAll _

/-- The bits beside a value that is no wider than a word are counted. -/
theorem unusedBits {width : Nat} (hwidth : width ≤ 32) :
    Emits sc (orFault (unusedBits width)) [] (.ok (8 * (32 - width))) := by
  rw [WordPlaces.unusedBits, if_pos hwidth]
  exact .orFault_ok _

/-- A value that has a byte is sign extended. -/
theorem signExtendFrom {width : Nat} (hwidth : 1 ≤ width) :
    Emits sc (signExtendFrom width) (signExtendBytes width) (.ok ()) := by
  rw [WordPlaces.signExtendFrom, if_neg (Nat.ne_of_gt hwidth)]
  exact .emitAll _

/-- A routine is called by its name. -/
theorem callRoutine (task : String) (types : List Ty) (inputs outputs : Nat) :
    Emits sc (callRoutine task types inputs outputs)
      [.call (routineName sc.structs task types) inputs outputs] (.ok ()) :=
  .bind_nil .read (.bind_nil (.logEvent _) (.emit _))

/-- A part whose result is known. -/
theorem orFault {α : Type} {x : Except Fault α} {a : α} (h : x = .ok a) :
    Emits sc (orFault x) [] (.ok a) := by
  rw [h]
  exact .orFault_ok a

end Emits

/-! ## Heights -/

/-- Copies raise the stack by their number, if the slots are there. -/
theorem heightFrom_copyToTop {h depth : Nat} (hle : depth ≤ h) (size : Nat) :
    heightFrom h (List.replicate size [.dup depth]).flatten = some (h + size) := by
  induction size generalizing h with
  | zero => rfl
  | succ size ih =>
    rw [List.replicate_succ, List.flatten_cons, List.singleton_append, heightFrom_cons_of_le _ hle]
    simp only [Instruction.inputs, Instruction.outputs]
    rw [ih (by omega)]
    congr 1
    omega

/-- Copies add their number of slots. -/
theorem growth_copyToTop (depth size : Nat) :
    growth (List.replicate size [Instruction.dup depth]).flatten = size := by
  induction size with
  | zero => rfl
  | succ size ih =>
    rw [List.replicate_succ, List.flatten_cons, growth_append, ih]
    simp only [growth, Instruction.inputs, Instruction.outputs]
    omega

/-- Dropping lowers the stack by the number of slots. -/
theorem heightFrom_popSlots (h size : Nat) :
    heightFrom (h + size) (List.replicate size [.pop]).flatten = some h := by
  induction size with
  | zero => rfl
  | succ size ih => exact ih

/-! ## Executing -/

namespace Machine

/-- A number that is small enough is the word that is pushed for it. -/
theorem toNat_ofNat {n : Nat} (hn : n < 256) : (BitVec.ofNat 256 n).toNat = n := by
  rw [BitVec.toNat_ofNat]
  omega

/-- A constant that is less than 256 shifts to the left by so many bits. -/
theorem evalBinary_shl {bits : Nat} (hbits : bits < 256) (w : Word) :
    evalBinary .shl (BitVec.ofNat 256 bits) w = w <<< bits := by
  have hlt : BitVec.ofNat 256 bits < 256 := by
    rw [BitVec.lt_def, toNat_ofNat hbits]
    exact hbits
  rw [evalBinary, if_pos hlt, toNat_ofNat hbits]

/-- A constant that is less than 256 shifts to the right by so many bits. -/
theorem evalBinary_shr {bits : Nat} (hbits : bits < 256) (w : Word) :
    evalBinary .shr (BitVec.ofNat 256 bits) w = w >>> bits := by
  have hlt : BitVec.ofNat 256 bits < 256 := by
    rw [BitVec.lt_def, toNat_ofNat hbits]
    exact hbits
  rw [evalBinary, if_pos hlt, toNat_ofNat hbits]

/-- The instruction counts the bytes that are kept from zero. -/
theorem evalBinary_signExtend {width : Nat} (hpos : 1 ≤ width) (hlt : width < 32) (w : Word) :
    evalBinary .signExtend (BitVec.ofNat 256 (width - 1)) w = signExtend w width := by
  have hbyte : BitVec.ofNat 256 (width - 1) < 31 := by
    rw [BitVec.lt_def, toNat_ofNat (by omega)]
    change width - 1 < 31
    omega
  rw [evalBinary, if_pos hbyte, toNat_ofNat (by omega), Nat.sub_add_cancel hpos]

/-- A power of 256 selects the byte at an offset within the word. -/
theorem evalBinary_exp {offset : Nat} (hoffset : offset < 32) :
    evalBinary .exp 0x100 (BitVec.ofNat 256 offset) = byteMultiplier offset := by
  rw [evalBinary, toNat_ofNat (by omega), pow_eq_byteMultiplier]

section Run

variable (m : Machine) (w : Word) (rest : List Word) (code : Code)

/-- An offset within the word is replaced by its multiplier. -/
theorem run_offsetToMultiplier {offset : Nat} (hoffset : offset < 32) :
    (m.withStack (BitVec.ofNat 256 offset :: rest)).run (offsetToMultiplier ++ code) =
      (m.withStack (byteMultiplier offset :: rest)).run code := by
  rw [← evalBinary_exp hoffset]
  rfl

/-- The multiplier of an offset clears so many bytes from the offset on. -/
theorem run_clearBytes (width offset : Nat) :
    (m.withStack (byteMultiplier offset :: w :: rest)).run (clearBytes width ++ code) =
      (m.withStack ((w &&& ~~~fieldMask width offset) :: rest)).run code := by
  have hmask : ~~~(lowBytesMask width * byteMultiplier offset) &&& w =
      w &&& ~~~fieldMask width offset := by
    rw [mul_byteMultiplier, BitVec.and_comm]
    rfl
  rw [← hmask]
  rfl

/-- All but the low bytes are cleared. -/
theorem run_keepLowBytes (width : Nat) :
    (m.withStack (w :: rest)).run (keepLowBytes width ++ code) =
      (m.withStack ((w &&& lowBytesMask width) :: rest)).run code := by
  rw [BitVec.and_comm]
  rfl

/-- All but the high bytes are cleared. -/
theorem run_keepHighBytes (width : Nat) :
    (m.withStack (w :: rest)).run (keepHighBytes width ++ code) =
      (m.withStack ((w &&& highBytesMask width) :: rest)).run code := by
  rw [BitVec.and_comm]
  rfl

/-- The word on top is shifted to the left, also by no bits. -/
theorem run_shiftLeft {bits : Nat} (hbits : bits < 256) :
    (m.withStack (w :: rest)).run (shiftLeft bits ++ code) =
      (m.withStack ((w <<< bits) :: rest)).run code := by
  unfold shiftLeft
  split
  · rename_i hzero
    rw [hzero, BitVec.shiftLeft_zero]
    rfl
  · rw [← evalBinary_shl hbits]
    rfl

/-- The word on top is shifted to the right, also by no bits. -/
theorem run_shiftRight {bits : Nat} (hbits : bits < 256) :
    (m.withStack (w :: rest)).run (shiftRight bits ++ code) =
      (m.withStack ((w >>> bits) :: rest)).run code := by
  unfold shiftRight
  split
  · rename_i hzero
    rw [hzero, BitVec.ushiftRight_zero]
    rfl
  · rw [← evalBinary_shr hbits]
    rfl

/-- The word on top is sign extended from a width below that of a word. -/
theorem run_signExtendBytes {width : Nat} (hpos : 1 ≤ width) (hlt : width < 32) :
    (m.withStack (w :: rest)).run (signExtendBytes width ++ code) =
      (m.withStack (signExtend w width :: rest)).run code := by
  rw [← evalBinary_signExtend hpos hlt]
  rfl

/-- A truth value that is negated twice. -/
theorem evalUnary_isZero_isZero :
    evalUnary .isZero (evalUnary .isZero w) = Word.ofBool (w != 0) := by
  simp only [evalUnary, bne]
  cases (w == 0) <;> decide

/-- The low 24 bytes of a word are taken apart into an address and a selector. -/
theorem run_splitExternal :
    (m.withStack (w :: rest)).run (splitExternal false ++ code) =
      (m.withStack ((w &&& lowBytesMask 4) :: ((w >>> 32) &&& lowBytesMask 20) :: rest)).run
        code := by
  have hcode : splitExternal false ++ code = .dup 1 :: (shiftRight 32 ++
      (keepLowBytes 20 ++ (.swap 1 :: (keepLowBytes 4 ++ code)))) := by
    simp only [splitExternal, Bool.false_eq_true, if_false, List.append_assoc, List.cons_append,
      List.nil_append]
  rw [hcode, run_dup _ _ (Nat.zero_lt_succ _), List.getElem_cons_zero,
    run_shiftRight _ _ _ _ (by decide), run_keepLowBytes,
    run_swap _ _ (Nat.succ_lt_succ (Nat.zero_lt_succ _))]
  exact run_keepLowBytes _ _ _ _ _

/-- The high 24 bytes of a word are taken apart into an address and a selector. -/
theorem run_splitExternal_left :
    (m.withStack (w :: rest)).run (splitExternal true ++ code) =
      (m.withStack (((w >>> 64) &&& lowBytesMask 4) :: (w >>> 96) :: rest)).run code := by
  have hcode : splitExternal true ++ code = .dup 1 :: (shiftRight 96 ++
      (.swap 1 :: (shiftRight 64 ++ (keepLowBytes 4 ++ code)))) := by
    simp only [splitExternal, if_true, List.append_assoc, List.cons_append, List.nil_append]
  rw [hcode, run_dup _ _ (Nat.zero_lt_succ _), List.getElem_cons_zero,
    run_shiftRight _ _ _ _ (by decide), run_swap_one, run_shiftRight _ _ _ _ (by decide)]
  exact run_keepLowBytes _ _ _ _ _

/-- An address and a selector are put together at the high end of a word. -/
theorem run_combineExternal_left (selector callee : Word) :
    (m.withStack (selector :: callee :: rest)).run (combineExternal true ++ code) =
      (m.withStack ((((callee <<< 32) ||| (selector &&& lowBytesMask 4)) <<< 64) :: rest)).run
        code := by
  have hcode : combineExternal true ++ code = keepLowBytes 4 ++ (.swap 1 :: (shiftLeft 32 ++
      (.or :: (shiftLeft 64 ++ code)))) := by
    simp only [combineExternal, if_true, List.append_assoc, List.cons_append, List.nil_append]
  rw [hcode, run_keepLowBytes, run_swap_one, run_shiftLeft _ _ _ _ (by decide), run_binary,
    run_shiftLeft _ _ _ _ (by decide)]
  rfl

/-- An address and a selector are put together at the low end of a word. -/
theorem run_combineExternal (selector callee : Word) :
    (m.withStack (selector :: callee :: rest)).run (combineExternal false ++ code) =
      (m.withStack ((((callee &&& lowBytesMask 20) <<< 32) ||| (selector &&& lowBytesMask 4)) ::
        rest)).run code := by
  have hcode : combineExternal false ++ code = keepLowBytes 4 ++ (.swap 1 ::
      (keepLowBytes 20 ++ (shiftLeft 32 ++ (.or :: code)))) := by
    simp only [combineExternal, Bool.false_eq_true, if_false, List.append_assoc, List.cons_append,
      List.nil_append]
  rw [hcode, run_keepLowBytes, run_swap _ _ (Nat.succ_lt_succ (Nat.zero_lt_succ _))]
  simp only [List.set_cons_zero, List.set_cons_succ, List.getElem_cons_succ,
    List.getElem_cons_zero]
  rw [run_keepLowBytes, run_shiftLeft _ _ _ _ (by decide), run_binary]
  rfl

/-- Copying a slot that lies below others. -/
theorem run_dup_append (above : List Word) :
    (m.withStack (above ++ w :: rest)).run (.dup (above.length + 1) :: code) =
      (m.withStack (w :: (above ++ w :: rest))).run code := by
  rw [run_dup _ _ (by simp), List.getElem_append_right (Nat.le_refl _)]
  simp

/-- Copying the slots of a block one after the other copies the block.

**Proof sketch.** Induction on the words that are not copied yet, from the last one on: with every
copy the next word of the block is found at the same depth. -/
theorem run_dup_block {depth : Nat} (above left copied : List Word)
    (hdepth : depth = above.length + (left ++ copied).length) :
    (m.withStack (copied ++ (above ++ (left ++ copied ++ rest)))).run
        ((List.replicate left.length [.dup depth]).flatten ++ code) =
      (m.withStack (left ++ copied ++ (above ++ (left ++ copied ++ rest)))).run code := by
  induction left using List.reverseRecOn generalizing copied with
  | nil => rfl
  | append_singleton left a ih =>
    have hcode : (List.replicate (left ++ [a]).length [Instruction.dup depth]).flatten ++ code =
        .dup ((copied ++ above ++ left).length + 1) ::
          ((List.replicate left.length [Instruction.dup depth]).flatten ++ code) := by
      have hnext : (copied ++ above ++ left).length + 1 = depth := by
        simp only [List.length_append, List.length_singleton] at hdepth ⊢
        omega
      rw [hnext, List.length_append, List.length_singleton, List.replicate_succ]
      rfl
    have hstack : copied ++ (above ++ (left ++ [a] ++ copied ++ rest)) =
        (copied ++ above ++ left) ++ a :: (copied ++ rest) := by simp
    have hnext := ih (a :: copied) (by simpa using hdepth)
    rw [hcode, hstack, run_dup_append]
    simpa using hnext

/-- Copying the block that lies below others. -/
theorem run_copyToTop {depth size : Nat} (above value : List Word) (hsize : value.length = size)
    (hdepth : depth = above.length + size) :
    (m.withStack (above ++ (value ++ rest))).run
        ((List.replicate size [.dup depth]).flatten ++ code) =
      (m.withStack (value ++ (above ++ (value ++ rest)))).run code := by
  subst hsize
  have hblock := run_dup_block m rest code above value [] (by simpa using hdepth)
  simpa only [List.append_nil, List.nil_append] using hblock

/-- Dropping a block. -/
theorem run_popSlots {size : Nat} (value : List Word) (hsize : value.length = size) :
    (m.withStack (value ++ rest)).run ((List.replicate size [.pop]).flatten ++ code) =
      (m.withStack rest).run code := by
  subst hsize
  induction value with
  | nil => rfl
  | cons a value ih => exact ih

end Run

end Machine

end WordPlaces
