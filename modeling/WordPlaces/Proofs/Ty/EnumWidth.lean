import Mathlib
import WordPlaces.Proofs.FieldLaws

/-!
# The width of an enum

A variant of an enum is kept as its index, in as many bytes as the largest index takes, but at least in
one.  That is the least width with room for all variants: a narrower field does not give the largest index
back.

## Main results

* `enumBytes_eq_size` — the width of an enum, counted in bits first.
* `enumBytes_le_iff` — what a number of bytes is enough for.
* `PackedField.decode?_encode_eq_iff` — the numbers that a field gives back.
* `Ty.enum_width_isLeast` — the width of an enum is the least one that holds all its variants.
-/

set_option autoImplicit false

namespace WordPlaces

/-! ## Bytes of a number -/

/-- A power of 256 counts the bits of its bytes. -/
theorem pow_256_eq (k : Nat) : 256 ^ k = 2 ^ (8 * k) := (Nat.pow_mul 2 8 k).symm

/-- The number of binary digits is that of the library. -/
theorem bitLength_eq_size (n : Nat) : bitLength n = n.size := by
  refine eq_of_forall_ge_iff fun k => ?_
  rw [Nat.size_le, bitLength]
  split
  · rename_i hzero
    rw [hzero]
    exact iff_of_true (Nat.zero_le k) (Nat.two_pow_pos k)
  · rename_i hpos
    exact Nat.log2_lt hpos

/-- The width of an enum is that of the bits of the largest index, rounded up to bytes, and at least one
byte. -/
theorem enumBytes_eq_size (variants : Nat) :
    enumBytes variants = max 1 (((variants - 1).size + 7) / 8) := by
  rw [enumBytes, bitLength_eq_size]

/-- A number of bytes, at least one, is enough for an enum with no more variants than that power of
256. -/
theorem enumBytes_le_iff {variants k : Nat} (hk : 1 ≤ k) :
    enumBytes variants ≤ k ↔ variants ≤ 256 ^ k := by
  have hbits : ((variants - 1).size + 7) / 8 ≤ k ↔ (variants - 1).size ≤ 8 * k := by omega
  have hpos : 0 < 256 ^ k := Nat.pow_pos (by decide)
  rw [enumBytes_eq_size, Nat.max_le, hbits, Nat.size_le, ← pow_256_eq, and_iff_right hk]
  omega

/-- An enum takes a byte even if it has no more than one variant. -/
theorem one_le_enumBytes (variants : Nat) : 1 ≤ enumBytes variants := Nat.le_max_left _ _

/-- An enum takes the least number of bytes with room for its variants. -/
theorem isLeast_enumBytes (variants : Nat) :
    IsLeast {k | 1 ≤ k ∧ variants ≤ 256 ^ k} (enumBytes variants) := by
  have hpos := one_le_enumBytes variants
  exact ⟨⟨hpos, (enumBytes_le_iff hpos).1 le_rfl⟩,
    fun k ⟨hk, hvariants⟩ => (enumBytes_le_iff hk).2 hvariants⟩

/-! ## Numbers in a field -/

/-- A word is no more than its low bytes if it is a number that they have room for. -/
theorem and_lowBytesMask_eq_self_iff (w : Word) (width : Nat) :
    w &&& lowBytesMask width = w ↔ w.toNat < 256 ^ width := by
  have hword : w.toNat % 2 ^ (8 * width) < 2 ^ 256 := (Nat.mod_le _ _).trans_lt w.isLt
  rw [and_lowBytesMask_eq_setWidth, ← BitVec.toNat_inj, BitVec.toNat_setWidth, BitVec.toNat_setWidth,
    Nat.mod_eq_of_lt hword, Nat.mod_eq_iff_lt (Nat.two_pow_pos _).ne', pow_256_eq]

/-- A field of unsigned numbers gives back those that its bytes have room for. -/
theorem PackedField.decode?_encode_eq_iff {f : PackedField} (hf : f.Fits) (halignment : f.alignment = .right)
    (hsignedness : f.signedness = .unsigned) (word value : Word) :
    f.decode? (f.encode word value) = .ok value ↔ value.toNat < 256 ^ f.width := by
  rw [decode?_eq_ok hf, decode_encode hf, Except.ok.injEq, canonical, halignment, hsignedness]
  exact and_lowBytesMask_eq_self_iff value f.width

/-! ## Variants -/

namespace Ty

/-- The width of an enum is the least one that holds all its variants, and at most four bytes.  So every
index of a variant is given back by a field of the enum, at every offset where that fits into a word and
whatever else is in the word, and the largest index is not given back by a field that is one byte
narrower.

**Proof sketch.** A width is enough exactly if the number of variants is no more than that power of 256
(`isLeast_enumBytes`), and a field gives back exactly the numbers below it
(`PackedField.decode?_encode_eq_iff`). -/
theorem enum_width_isLeast (name : String) {variants : Nat} (hvariants : variants < 2 ^ 32) :
    IsLeast {k | 1 ≤ k ∧ variants ≤ 256 ^ k} (enumBytes variants) ∧ enumBytes variants ≤ 4 ∧
    ∃ e, (Ty.enum name variants).encoding? = .ok e ∧ e.bytes = enumBytes variants ∧
      (∀ offset, offset + e.bytes ≤ 32 →
        ∃ f, PackedField.ofEncoding? e offset = .ok f ∧ ∀ word : Word, ∀ index < variants,
          f.decode? (f.encode word (BitVec.ofNat 256 index)) = .ok (BitVec.ofNat 256 index)) ∧
      (1 < e.bytes → ∀ offset, offset + (e.bytes - 1) ≤ 32 →
        ∃ f, PackedField.ofEncoding? { e with bytes := e.bytes - 1 } offset = .ok f ∧
          ∀ word : Word, ∃ read,
            f.decode? (f.encode word (BitVec.ofNat 256 (variants - 1))) = .ok read ∧
            read ≠ BitVec.ofNat 256 (variants - 1)) := by
  have hleast := isLeast_enumBytes variants
  have htoNat : ∀ index < 2 ^ 32, (BitVec.ofNat 256 index).toNat = index :=
    fun index h => Nat.mod_eq_of_lt (h.trans (by decide))
  refine ⟨hleast, (enumBytes_le_iff (by decide)).2 hvariants.le, _, rfl, rfl, ?_, ?_⟩
  · intro offset hoffset
    have hfits : (⟨enumBytes variants, offset, .right, .unsigned⟩ : PackedField).Fits :=
      ⟨hleast.1.1, hoffset⟩
    refine ⟨_, if_pos hfits, fun word index h => ?_⟩
    refine (PackedField.decode?_encode_eq_iff hfits rfl rfl word _).2 ?_
    rw [htoNat index (h.trans hvariants)]
    exact h.trans_le hleast.1.2
  · intro hwide offset hoffset
    have hnarrow : 1 ≤ enumBytes variants - 1 := Nat.le_sub_one_of_lt hwide
    have hfits : (⟨enumBytes variants - 1, offset, .right, .unsigned⟩ : PackedField).Fits :=
      ⟨hnarrow, hoffset⟩
    refine ⟨_, if_pos hfits, fun word => ⟨_, PackedField.decode?_eq_ok hfits _, fun hread => ?_⟩⟩
    -- Otherwise the narrower field had room for the largest index, and so for all variants.
    have hread' := (PackedField.decode?_eq_ok hfits _).trans (congrArg Except.ok hread)
    have hlast := (PackedField.decode?_encode_eq_iff hfits rfl rfl word _).1 hread'
    rw [htoNat _ (by omega)] at hlast
    have hroom : variants ≤ 256 ^ (enumBytes variants - 1) := Nat.le_of_pred_lt hlast
    have hle := (enumBytes_le_iff hnarrow).2 hroom
    omega

/-- With one variant more than a byte has numbers, the index 256 is kept in the two highest bytes of a
word, and not in the highest one. -/
theorem enum_width_isLeast_257 :
    ∃ e, (Ty.enum "Grade" 257).encoding? = .ok e ∧ e.bytes = 2 ∧
      (∃ f, PackedField.ofEncoding? e 30 = .ok f ∧
        ∀ word : Word, f.decode? (f.encode word 256) = .ok 256) ∧
      ∃ f, PackedField.ofEncoding? { e with bytes := 1 } 31 = .ok f ∧
        ∀ word : Word, ∃ read, f.decode? (f.encode word 256) = .ok read ∧ read ≠ 256 := by
  have hbytes : enumBytes 257 = 2 := by decide +kernel
  obtain ⟨-, -, e, he, hwidth, hkept, hlost⟩ :=
    enum_width_isLeast "Grade" (show 257 < 2 ^ 32 by decide)
  rw [hbytes] at hwidth
  rw [hwidth] at hkept hlost
  obtain ⟨f, hf, hindexes⟩ := hkept 30 (by decide)
  exact ⟨e, he, hwidth, ⟨f, hf, fun word => hindexes word 256 (by decide)⟩,
    hlost (by decide) 31 (by decide)⟩

end Ty

end WordPlaces
