import WordPlaces.Proofs.Place.MemoryVariables

/-!
# Internal functions in storage

An internal function is a code tag of eight bytes, and a stored zero stands for the tag of an unassigned
function.  The tag takes the place of zero before the bytes above the field are cut off, so what is tested
is the field together with everything above it: next to a higher neighbour that is not zero, a zero field
is read as zero.

## Main definitions

* `assignedFunction` — a stored function, the tag of an unassigned one in the place of zero.
* `storedFunction` — the word that a stored function is read as.

## Main results

* `storedFunction_eq_assignedFunction_iff` — where the two are the same.
* `StorageItem.retrieve_internalFunction` — executing a read, also after the field was cleared.
-/

set_option autoImplicit false

namespace WordPlaces

open Machine Fragment

/-! ## Words -/

/-- The function that is kept in the eight bytes from byte `offset` on, where the tag of an unassigned
function takes the place of zero. -/
def assignedFunction (offset : Nat) (word : Word) : Word :=
  if bytesIn 8 offset word = 0 then tagWord &&& lowBytesMask 8 else bytesIn 8 offset word

/-- The word that the function in the eight bytes from byte `offset` on is read as: the tag takes the
place of zero if the bytes above the field are zero as well. -/
def storedFunction (offset : Nat) (word : Word) : Word :=
  if word >>> (8 * offset) = 0 then tagWord &&& lowBytesMask 8 else bytesIn 8 offset word

section Words

variable {offset : Nat} {word word' : Word}

/-- The tag fits into the field of a function. -/
theorem tagWord_and_lowBytesMask : tagWord &&& lowBytesMask 8 = tagWord := by decide

/-- What the tag is put in the place of: a field of zeros below zeros. -/
theorem ushiftRight_eq_zero_iff :
    word >>> (8 * offset) = 0 ↔
      bytesIn 8 offset word = 0 ∧ ∀ i, offset + 8 ≤ i → word.byteAt i = 0 := by
  constructor
  · intro h
    have hbyte : ∀ i, word.byteAt (offset + i) = 0 := fun i => by
      rw [← byteAt_ushiftRight, h, Word.byteAt_zero]
    refine ⟨?_, fun i hi => ?_⟩
    · rw [bytesIn, h]
      exact BitVec.zero_and
    · rw [← hbyte (i - offset), Nat.add_sub_cancel' (by omega)]
  · rintro ⟨hfield, habove⟩
    refine Word.eq_of_byteAt_eq fun i _ => ?_
    rw [byteAt_ushiftRight, Word.byteAt_zero]
    by_cases hi : i < 8
    · rw [← byteAt_bytesIn word hi, hfield, Word.byteAt_zero]
    · exact habove _ (by omega)

/-- What lies below a function does not matter. -/
theorem storedFunction_congr (h : ∀ i, offset ≤ i → word'.byteAt i = word.byteAt i) :
    storedFunction offset word' = storedFunction offset word := by
  unfold storedFunction
  rw [ushiftRight_congr fun i hle _ => h i hle, bytesIn_congr fun i hle _ => h i hle]

/-- A zero field below a byte that is not zero is read as zero. -/
theorem storedFunction_eq_assignedFunction_iff :
    storedFunction offset word = assignedFunction offset word ↔
      bytesIn 8 offset word ≠ 0 ∨ ∀ i, offset + 8 ≤ i → word.byteAt i = 0 := by
  by_cases hfield : bytesIn 8 offset word = 0
  · rw [assignedFunction, if_pos hfield, or_iff_right (not_not_intro hfield)]
    by_cases habove : ∀ i, offset + 8 ≤ i → word.byteAt i = 0
    · rw [storedFunction, if_pos (ushiftRight_eq_zero_iff.2 ⟨hfield, habove⟩)]
      exact iff_of_true rfl habove
    · rw [storedFunction, if_neg fun h => habove (ushiftRight_eq_zero_iff.1 h).2, hfield]
      exact iff_of_false (by decide) habove
  · rw [storedFunction, if_neg fun h => hfield (ushiftRight_eq_zero_iff.1 h).1, assignedFunction,
      if_neg hfield]
    exact iff_of_true rfl (.inl hfield)

/-- A function that was cleared is read as the tag of an unassigned one if the bytes above it are zero. -/
theorem storedFunction_cleared_eq_tagWord_iff (hoffset : offset ≤ 24) :
    storedFunction offset (withBytes 8 offset word 0) = tagWord ↔
      ∀ i, offset + 8 ≤ i → word.byteAt i = 0 := by
  have hfield : bytesIn 8 offset (withBytes 8 offset word 0) = 0 := by
    rw [bytesIn_withBytes _ _ (by omega)]
    exact BitVec.zero_and
  have habove : ∀ i, offset + 8 ≤ i → (withBytes 8 offset word 0).byteAt i = word.byteAt i :=
    fun i hi => byteAt_withBytes_of_not_mem _ _ (.inr hi)
  have htag : assignedFunction offset (withBytes 8 offset word 0) = tagWord := by
    rw [assignedFunction, if_pos hfield, tagWord_and_lowBytesMask]
  rw [← htag, storedFunction_eq_assignedFunction_iff, or_iff_right (not_not_intro hfield)]
  exact forall₂_congr fun i hi => by rw [habove i hi]

end Words

/-! ## Executing -/

/-- The tag takes the place of zero. -/
theorem Machine.run_assignedTag (m : Machine) (w : Word) (rest : List Word) (code : Code) :
    (m.withStack (w :: rest)).run (assignedTag ++ code) =
      (m.withStack ((if w = 0 then tagWord else w) :: rest)).run code := by
  have htag : evalBinary .or (evalBinary .mul tagWord (evalUnary .isZero w)) w =
      if w = 0 then tagWord else w := by
    by_cases hw : w = 0
    · rw [hw]
      decide
    · have hzero : evalUnary .isZero w = 0 := by
        rw [evalUnary, beq_eq_false_iff_ne.2 hw]
        rfl
      rw [if_neg hw, hzero]
      exact BitVec.zero_or
  rw [← htag]
  rfl

namespace StorageItem

/-- An internal function in storage. -/
def function (kind : StorageKind) : StorageItem := ⟨.function .internal, kind⟩

/-- The form of an internal function in storage. -/
theorem encoding_function (kind : StorageKind) :
    (function kind).ty.encoding? = .ok ⟨8, .right, .notApplicable, .internalFunction⟩ := rfl

/-- A function is read, and its operands are taken or left. -/
theorem exists_retrieve_function (sc : Scope) (kind : StorageKind) (remove : Bool) :
    ∃ code, Emits sc ((function kind).retrieve remove) code (.ok ()) ∧
      heightFrom 2 code = some (1 + if remove then 0 else 2) ∧
      ∀ (m : Machine) (slot : Word) (offset : Nat) (rest : List Word), offset ≤ 24 →
        (m.withStack (BitVec.ofNat 256 offset :: slot :: rest)).run code =
          .ok (m.withStack (storedFunction offset ((m.storage kind).read slot) ::
            ((if remove then [] else [BitVec.ofNat 256 offset, slot]) ++ rest))) := by
  have hunpack : Emits sc (unpackValue ⟨8, .right, .notApplicable, .internalFunction⟩)
      (assignedTag ++ keepLowBytes 8) (.ok ()) := (Emits.emitAll _).bind (.emitAll _)
  have hcode := emits_retrieve_remove (encoding_function kind) (by decide) hunpack
  have hrun : ∀ (m : Machine) (slot : Word) (offset : Nat) (rest : List Word), offset ≤ 24 →
      (m.withStack (BitVec.ofNat 256 offset :: slot :: rest)).run
        (loadShifted kind ++ (assignedTag ++ keepLowBytes 8)) =
          .ok (m.withStack (storedFunction offset ((m.storage kind).read slot) :: rest)) := by
    intro m slot offset rest hoffset
    rw [run_loadShifted _ _ _ (by omega), run_assignedTag, ← List.append_nil (keepLowBytes 8),
      run_keepLowBytes, storedFunction]
    split
    · rfl
    · rfl
  cases remove with
  | true => exact ⟨_, hcode, rfl, hrun⟩
  | false =>
    refine ⟨_, emits_retrieve_keep rfl hcode, rfl, fun m slot offset rest hoffset => ?_⟩
    simp only [List.cons_append, List.nil_append]
    rw [run_dup_two, run_dup_two]
    exact hrun _ _ _ _ hoffset

end StorageItem

end WordPlaces
