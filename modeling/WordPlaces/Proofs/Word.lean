import WordPlaces.PackedField

/-!
# Words bit by bit

Masks, multipliers and stack forms are described by their bits, so that equations between words
become equations between positions.

## Main results

* `Word.pow_twoPow`, `mul_byteMultiplier`, `div_byteMultiplier` — the powers that code computes move
  words by bytes.
* `getLsbD_lowBytesMask`, `getLsbD_signExtend`, `getLsbD_leftAlign`, `getLsbD_rightAlign` — the bits
  of masks and stack forms.
* `Word.getLsbD_of_byteAt_eq` — bits are those of bytes.
-/

set_option autoImplicit false

namespace WordPlaces

/-! ## Bytes -/

namespace Word

/-- Bit `j` of byte `i`. -/
theorem getLsbD_byteAt (w : Word) (i j : Nat) :
    (w.byteAt i).getLsbD j = (decide (j < 8) && w.getLsbD (8 * i + j)) :=
  BitVec.getLsbD_extractLsb' _ _ _ _

/-- Two bytes are equal if their bits are. -/
theorem byteAt_eq_of_getLsbD_eq {w w' : Word} {i : Nat}
    (h : ∀ k, 8 * i ≤ k → k < 8 * i + 8 → w.getLsbD k = w'.getLsbD k) :
    w.byteAt i = w'.byteAt i := by
  apply BitVec.eq_of_getLsbD_eq
  intro j hj
  rw [getLsbD_byteAt, getLsbD_byteAt, h (8 * i + j) (by omega) (by omega)]

/-- The bytes of the word zero. -/
theorem byteAt_zero (i : Nat) : (0 : Word).byteAt i = 0 := BitVec.extractLsb'_zero

/-- A byte none of whose bits is set. -/
theorem byteAt_eq_zero {w : Word} {i : Nat}
    (h : ∀ k, 8 * i ≤ k → k < 8 * i + 8 → w.getLsbD k = false) : w.byteAt i = 0 := by
  rw [← byteAt_zero i]
  exact byteAt_eq_of_getLsbD_eq fun k hk hlt => (h k hk hlt).trans BitVec.getLsbD_zero.symm

/-- The bits of two equal bytes are equal. -/
theorem getLsbD_of_byteAt_eq {w w' : Word} {k : Nat} (h : w.byteAt (k / 8) = w'.byteAt (k / 8)) :
    w.getLsbD k = w'.getLsbD k := by
  have hbit := congrArg (BitVec.getLsbD · (k % 8)) h
  simp only [getLsbD_byteAt, Nat.mod_lt k (Nat.zero_lt_succ 7), decide_true, Bool.true_and,
    Nat.div_add_mod] at hbit
  exact hbit

/-- Words are equal if their bytes are. -/
theorem eq_of_byteAt_eq {w w' : Word} (h : ∀ i < 32, w.byteAt i = w'.byteAt i) : w = w' := by
  apply BitVec.eq_of_getLsbD_eq
  intro k hk
  exact getLsbD_of_byteAt_eq (h (k / 8) (by omega))

/-! ## Powers -/

/-- A power of two to a power, by repeated squaring.

**Proof sketch.** Induction on the exponent, which is halved while the base is squared. -/
theorem pow_twoPow (k n : Nat) :
    pow (BitVec.twoPow 256 k) n = BitVec.twoPow 256 (k * n) := by
  induction n using Nat.strongRecOn generalizing k with
  | ind n ih =>
    rw [pow]
    split
    · rename_i hzero
      rw [hzero, Nat.mul_zero, BitVec.twoPow_zero]
      rfl
    · rename_i hpos
      have hhalf := ih (n / 2) (by omega) (k + k)
      simp only
      rw [BitVec.twoPow_mul_twoPow_eq, hhalf]
      have hdouble : (k + k) * (n / 2) = k * (2 * (n / 2)) := by
        rw [← Nat.two_mul, Nat.mul_comm 2 k, Nat.mul_assoc]
      split
      · rename_i hodd
        have hn : 2 * (n / 2) + 1 = n := by omega
        rw [BitVec.twoPow_mul_twoPow_eq, hdouble, Nat.add_comm, ← Nat.mul_add_one, hn]
      · rename_i heven
        have hn : 2 * (n / 2) = n := by omega
        rw [hdouble, hn]

end Word

/-- The multiplier of a byte is a power of two. -/
theorem byteMultiplier_eq_twoPow (n : Nat) : byteMultiplier n = BitVec.twoPow 256 (8 * n) :=
  (BitVec.twoPow_eq 256 (8 * n)).symm

/-- The multiplier that code computes. -/
theorem pow_eq_byteMultiplier (n : Nat) : Word.pow 0x100 n = byteMultiplier n := by
  have hbase : (0x100 : Word) = BitVec.twoPow 256 8 := by decide
  rw [hbase, Word.pow_twoPow, byteMultiplier_eq_twoPow]

/-- Multiplication by a multiplier moves a word up. -/
theorem mul_byteMultiplier (w : Word) (n : Nat) : w * byteMultiplier n = w <<< (8 * n) := by
  rw [byteMultiplier_eq_twoPow, BitVec.mul_twoPow_eq_shiftLeft]

/-- Division by a multiplier moves a word down. -/
theorem div_byteMultiplier (w : Word) {n : Nat} (hn : n < 32) :
    w / byteMultiplier n = w >>> (8 * n) := by
  rw [byteMultiplier_eq_twoPow, BitVec.udiv_twoPow_eq_of_lt (by omega)]

/-! ## Masks -/

/-- The bits of a mask are those of its bytes. -/
theorem getLsbD_lowBytesMask (width i : Nat) :
    (lowBytesMask width).getLsbD i = decide (i < 8 * width ∧ i < 256) := by
  unfold lowBytesMask
  by_cases hwidth : wordBytes ≤ width
  · rw [if_pos hwidth, Word.allOnes, BitVec.getLsbD_allOnes]
    congr 1
    apply propext
    simp only [wordBytes] at hwidth
    omega
  · have hlt : 8 * width < 256 := by
      simp only [wordBytes] at hwidth
      omega
    have hmask : byteMultiplier width - 1 = BitVec.ofNat 256 (2 ^ (8 * width) - 1) := by
      apply BitVec.eq_of_toNat_eq
      have hpow : 2 ^ (8 * width) < 2 ^ 256 := Nat.pow_lt_pow_right (by omega) hlt
      have hpos := Nat.two_pow_pos (8 * width)
      rw [byteMultiplier_eq_twoPow, BitVec.toNat_sub, BitVec.toNat_twoPow_of_lt hlt,
        BitVec.toNat_ofNat]
      change (2 ^ 256 - 1 + 2 ^ (8 * width)) % 2 ^ 256 = _
      omega
    rw [if_neg hwidth, hmask, BitVec.getLsbD_ofNat, Nat.testBit_two_pow_sub_one]
    by_cases hi : i < 256
    · simp [hi]
    · simp [hi]

/-- The mask of low bytes keeps the bits of those bytes. -/
theorem getLsbD_and_lowBytesMask (w : Word) (width i : Nat) :
    (w &&& lowBytesMask width).getLsbD i = (decide (i < 8 * width) && w.getLsbD i) := by
  rw [BitVec.getLsbD_and, getLsbD_lowBytesMask]
  by_cases hi : i < 256
  · simp [hi, Bool.and_comm]
  · simp [BitVec.getLsbD_of_ge w i (by omega)]

/-- The low bytes of a word are the word cut to their bits. -/
theorem and_lowBytesMask_eq_setWidth (w : Word) (width : Nat) :
    w &&& lowBytesMask width = (w.setWidth (8 * width)).setWidth 256 := by
  apply BitVec.eq_of_getLsbD_eq
  intro i hi
  rw [getLsbD_and_lowBytesMask, BitVec.getLsbD_setWidth, BitVec.getLsbD_setWidth, decide_eq_true hi,
    Bool.true_and]

/-- The bits of a mask that was moved up. -/
theorem getLsbD_fieldMask (width offset i : Nat) :
    (fieldMask width offset).getLsbD i =
      decide (8 * offset ≤ i ∧ i < 8 * (offset + width) ∧ i < 256) := by
  rw [fieldMask, BitVec.getLsbD_shiftLeft, getLsbD_lowBytesMask, Bool.eq_iff_iff]
  simp only [Bool.and_eq_true, Bool.not_eq_true', decide_eq_true_eq, decide_eq_false_iff_not]
  omega

/-! ## Stack forms -/

/-- The leading bit of the low bytes is repeated above them. -/
theorem getLsbD_signExtend (w : Word) {width i : Nat} (hpos : 1 ≤ width) (hi : i < 256) :
    (signExtend w width).getLsbD i = w.getLsbD (min i (8 * width - 1)) := by
  unfold signExtend
  by_cases hwidth : wordBytes ≤ width
  · have hle : i ≤ 8 * width - 1 := by
      simp only [wordBytes] at hwidth
      omega
    rw [if_pos hwidth, Nat.min_eq_left hle]
  · rw [if_neg hwidth]
    by_cases hlow : i < 8 * width
    · rw [Nat.min_eq_left (by omega)]
      split
      · have hmask : (lowBytesMask width).getLsbD i = true := by
          rw [getLsbD_lowBytesMask, decide_eq_true ⟨hlow, hi⟩]
        rw [BitVec.getLsbD_or, BitVec.getLsbD_not, hmask, Bool.not_true, Bool.and_false,
          Bool.or_false]
      · rw [getLsbD_and_lowBytesMask, decide_eq_true hlow, Bool.true_and]
    · rw [Nat.min_eq_right (by omega)]
      split
      · rename_i hbit
        have hmask : (lowBytesMask width).getLsbD i = false := by
          rw [getLsbD_lowBytesMask, decide_eq_false fun h => hlow h.1]
        rw [BitVec.getLsbD_or, BitVec.getLsbD_not, hmask, decide_eq_true hi, hbit]
        exact Bool.or_true _
      · rename_i hbit
        rw [getLsbD_and_lowBytesMask, decide_eq_false hlow, Bool.false_and]
        exact (Bool.of_not_eq_true hbit).symm

/-- The low bytes at the high end, above zeros. -/
theorem getLsbD_leftAlign (w : Word) {width i : Nat} (hwidth : width ≤ 32) (hi : i < 256) :
    (leftAlign w width).getLsbD i =
      (decide (256 - 8 * width ≤ i) && w.getLsbD (i - (256 - 8 * width))) := by
  unfold leftAlign
  by_cases hfull : wordBytes ≤ width
  · have hzero : 256 - 8 * width = 0 := by
      simp only [wordBytes] at hfull
      omega
    rw [if_pos hfull, hzero, Nat.sub_zero, decide_eq_true (Nat.zero_le i), Bool.true_and]
  · rw [if_neg hfull, BitVec.getLsbD_shiftLeft, decide_eq_true hi, Bool.true_and]
    by_cases hlow : i < 256 - 8 * width
    · rw [decide_eq_true hlow, decide_eq_false (Nat.not_le_of_lt hlow)]
      rfl
    · rw [decide_eq_false hlow, decide_eq_true (Nat.le_of_not_lt hlow)]
      rfl

/-- The high bytes at the low end, below zeros. -/
theorem getLsbD_rightAlign (w : Word) {width : Nat} (i : Nat) (hwidth : width ≤ 32) :
    (rightAlign w width).getLsbD i = w.getLsbD (256 - 8 * width + i) := by
  unfold rightAlign
  by_cases hfull : wordBytes ≤ width
  · have hzero : 256 - 8 * width = 0 := by
      simp only [wordBytes] at hfull
      omega
    rw [if_pos hfull, hzero, Nat.zero_add]
  · rw [if_neg hfull, BitVec.getLsbD_ushiftRight]

end WordPlaces
