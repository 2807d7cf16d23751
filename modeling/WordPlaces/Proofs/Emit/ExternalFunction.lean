import Mathlib
import WordPlaces.Proofs.Codec
import WordPlaces.Proofs.Emit.Fragments

/-!
# Splitting and combining external functions

An external function is an address and a selector on the stack, and one word in memory and storage, which
has the two in its 24 highest bytes or in its 24 lowest ones.  Code that combines the two to a word and code
that splits the word undo each other, up to the bytes that do not belong to the function.

## Main definitions

* `IsFunctionByte` — the bytes of a word that belong to an external function.

## Main results

* `Machine.run_combineExternal_splitExternal` — combining and splitting cuts address and selector to their
  widths.
* `Machine.run_splitExternal_combineExternal` — splitting and combining keeps the bytes of the function.
* `splitExternal_combineExternal_inverse` — the two undo each other in both alignments.
-/

set_option autoImplicit false

namespace WordPlaces

open Fragment

/-! ## Bytes -/

/-- Byte `i` of a word, counted from the least significant one, belongs to the external function in the
word: it is one of the 24 highest bytes or one of the 24 lowest ones. -/
def IsFunctionByte (leftAligned : Bool) (i : Nat) : Prop := if leftAligned then 8 ≤ i else i < 24

instance (leftAligned : Bool) (i : Nat) : Decidable (IsFunctionByte leftAligned i) :=
  inferInstanceAs (Decidable (if leftAligned then 8 ≤ i else i < 24))

namespace Word

/-- A byte of the low bytes of a word. -/
theorem byteAt_and_lowBytesMask (w : Word) (width i : Nat) :
    byteAt (w &&& lowBytesMask width) i = if i < width then w.byteAt i else 0 := by
  split
  · refine byteAt_eq_of_getLsbD_eq fun k hk hlt => ?_
    rw [getLsbD_and_lowBytesMask, decide_eq_true (by omega), Bool.true_and]
  · refine byteAt_eq_zero fun k hk hlt => ?_
    rw [getLsbD_and_lowBytesMask, decide_eq_false (by omega), Bool.false_and]

/-- A byte of a word that is shifted down and up again. -/
theorem byteAt_ushiftRight_shiftLeft (w : Word) (count i : Nat) :
    byteAt ((w >>> (8 * count)) <<< (8 * count)) i = if count ≤ i then w.byteAt i else 0 := by
  split
  · refine byteAt_eq_of_getLsbD_eq fun k hk hlt => ?_
    have hbit : 8 * count + (k - 8 * count) = k := by omega
    rw [BitVec.getLsbD_shiftLeft, BitVec.getLsbD_ushiftRight, hbit,
      decide_eq_false (show ¬k < 8 * count by omega), Bool.not_false, Bool.and_true]
    by_cases hword : k < 256
    · rw [decide_eq_true hword, Bool.true_and]
    · rw [decide_eq_false hword, Bool.false_and, BitVec.getLsbD_of_ge _ _ (Nat.le_of_not_lt hword)]
  · refine byteAt_eq_zero fun k hk hlt => ?_
    rw [BitVec.getLsbD_shiftLeft, decide_eq_true (show k < 8 * count by omega), Bool.not_true,
      Bool.and_false, Bool.false_and]

end Word

/-- The low bytes of a word are those of its remainder. -/
theorem and_lowBytesMask_eq_mod (w : Word) (width : Nat) :
    w &&& lowBytesMask width = BitVec.ofNat 256 (w.toNat % 2 ^ (8 * width)) := by
  rw [and_lowBytesMask_eq_setWidth, ← BitVec.ofNat_toNat, BitVec.toNat_setWidth]

/-! ## Executing -/

namespace Machine

section Run

variable (m : Machine) (selector callee word : Word) (rest : List Word)

/-- Combining and splitting cuts a selector to its four bytes and an address to its twenty. -/
theorem run_combineExternal_splitExternal (leftAligned : Bool) :
    (m.withStack (selector :: callee :: rest)).run
        (combineExternal leftAligned ++ splitExternal leftAligned) =
      .ok (m.withStack ((selector &&& lowBytesMask 4) :: (callee &&& lowBytesMask 20) :: rest)) := by
  have hnil : splitExternal leftAligned = splitExternal leftAligned ++ [] := (List.append_nil _).symm
  rw [hnil]
  cases leftAligned with
  | false =>
    rw [run_combineExternal, run_splitExternal, combined_and_lowBytesMask, combined_ushiftRight,
      and_lowBytesMask_and]
    rfl
  | true =>
    rw [run_combineExternal_left, run_splitExternal_left, combined_left_eq, BitVec.shiftRight_add _ 64 32,
      combined_shiftLeft_ushiftRight, combined_and_lowBytesMask, combined_ushiftRight]
    rfl

/-- Splitting and combining keeps the bytes of the function. -/
theorem run_splitExternal_combineExternal (leftAligned : Bool) :
    ∃ kept : Word, (m.withStack (word :: rest)).run
        (splitExternal leftAligned ++ combineExternal leftAligned) = .ok (m.withStack (kept :: rest)) ∧
      ∀ i, kept.byteAt i = if IsFunctionByte leftAligned i then word.byteAt i else 0 := by
  have hnil : combineExternal leftAligned = combineExternal leftAligned ++ [] := (List.append_nil _).symm
  rw [hnil]
  cases leftAligned with
  | false =>
    refine ⟨word &&& lowBytesMask 24, ?_, word.byteAt_and_lowBytesMask 24⟩
    rw [run_splitExternal, run_combineExternal, and_lowBytesMask_and, and_lowBytesMask_and, combined_split]
    rfl
  | true =>
    refine ⟨(word >>> 64) <<< 64, ?_, word.byteAt_ushiftRight_shiftLeft 8⟩
    have hhigh : word >>> 64 &&& lowBytesMask 24 = word >>> 64 :=
      rightAlign_and_lowBytesMask word (show 24 ≤ 32 by decide)
    rw [run_splitExternal_left, run_combineExternal_left, combined_left_eq, BitVec.shiftRight_add _ 64 32,
      and_lowBytesMask_and, combined_split, hhigh]
    rfl

/-- An external function is combined at the high end as at the low end, and shifted there. -/
theorem run_combineExternal_shiftLeft :
    ∃ combined : Word,
      (m.withStack (selector :: callee :: rest)).run (combineExternal false) =
        .ok (m.withStack (combined :: rest)) ∧
      (m.withStack (selector :: callee :: rest)).run (combineExternal true) =
        .ok (m.withStack ((combined <<< 64) :: rest)) := by
  refine ⟨((callee &&& lowBytesMask 20) <<< 32) ||| (selector &&& lowBytesMask 4), ?_, ?_⟩
  · have hrun := run_combineExternal m rest [] selector callee
    rwa [List.append_nil] at hrun
  · have hrun := run_combineExternal_left m rest [] selector callee
    rwa [List.append_nil, combined_left_eq] at hrun

end Run

end Machine

/-- Splitting and combining external functions undo each other in both alignments, whatever the words on the
stack are.

Combining an address and a selector and splitting the word leaves the address modulo `2 ^ 160` and the selector
modulo `2 ^ 32`.  Splitting a word and combining its parts leaves the word with every byte cleared that does not
belong to the function.  A function that is combined at the high end is the one at the low end, shifted by the
eight bytes that remain.

**Proof sketch.** The code at the low end masks the address, and the code at the high end leaves it to the last
shift to drop what is above (`combined_left_eq`).  So both alignments come down to a word at the low end, in
which selector and address are found where they were put (`combined_and_lowBytesMask`, `combined_ushiftRight`),
and which is put together of its parts (`combined_split`). -/
theorem splitExternal_combineExternal_inverse (m : Machine) (selector address word : Word)
    (rest : List Word) :
    (∀ leftAligned,
      (m.withStack (selector :: address :: rest)).run
          (combineExternal leftAligned ++ splitExternal leftAligned) =
        .ok (m.withStack (BitVec.ofNat 256 (selector.toNat % 2 ^ 32) ::
          BitVec.ofNat 256 (address.toNat % 2 ^ 160) :: rest)) ∧
      ∃ kept : Word,
        (m.withStack (word :: rest)).run (splitExternal leftAligned ++ combineExternal leftAligned) =
          .ok (m.withStack (kept :: rest)) ∧
        ∀ i, kept.byteAt i = if IsFunctionByte leftAligned i then word.byteAt i else 0) ∧
    ∃ combined : Word,
      (m.withStack (selector :: address :: rest)).run (combineExternal false) =
        .ok (m.withStack (combined :: rest)) ∧
      (m.withStack (selector :: address :: rest)).run (combineExternal true) =
        .ok (m.withStack ((combined <<< 64) :: rest)) := by
  have hselector : selector &&& lowBytesMask 4 = BitVec.ofNat 256 (selector.toNat % 2 ^ 32) :=
    and_lowBytesMask_eq_mod selector 4
  have haddress : address &&& lowBytesMask 20 = BitVec.ofNat 256 (address.toNat % 2 ^ 160) :=
    and_lowBytesMask_eq_mod address 20
  refine ⟨fun leftAligned => ⟨?_, m.run_splitExternal_combineExternal word rest leftAligned⟩,
    m.run_combineExternal_shiftLeft selector address rest⟩
  rw [← hselector, ← haddress]
  exact m.run_combineExternal_splitExternal selector address rest leftAligned

end WordPlaces
