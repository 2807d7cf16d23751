import WordPlaces.Proofs.Place.StructMembers
import WordPlaces.Proofs.Ty.StructWords

/-!
# Copying the words of a struct in memory

A struct in memory is copied to storage word by word.  Memory keeps a value in its stack form, which
need not be the canonical one, and storage keeps the bytes that it is packed into.

## Main definitions

* `Encoding.memoryValue` — the stack form of the value of a word in memory.
* `Ty.packedWord` — the bytes that storage keeps for a word in memory.
* `copyWord` — the machine after one word was copied.
* `CopiedWords` — the machine after some words were copied.

## Main results

* `Ty.Writable.packed_memoryValue` — packing the value of a word gives the bytes for that word.
* `foldlM_copyWord` — words are copied unless one of them lies outside the range of memory.
* `copiedWords_of_foldlM` — what copying word by word makes of storage.
-/

set_option autoImplicit false

namespace WordPlaces

open Machine

/-! ## The value of a word -/

/-- The value, its last word first, of a word in memory.  An external function is an address above a
selector, at the high end. -/
def Encoding.memoryValue (e : Encoding) (w : Word) : List Word :=
  if e.form = .externalFunction then [(w >>> 64) &&& lowBytesMask 4, w >>> 96] else [w]

/-- The low bytes that storage keeps for a word in memory: one byte for a truth value, the high bytes for
byte sequences and external functions, and the low bytes for all others. -/
def Ty.packedWord (ty : Ty) (w : Word) : Word :=
  match ty.encoding? with
  | .error _ => 0
  | .ok e =>
    if ty = .bool then Word.ofBool (w != 0)
    else if e.alignment = .left ∨ e.form = .externalFunction then rightAlign w e.bytes
    else w &&& lowBytesMask e.bytes

namespace Ty.Writable

variable {ty : Ty} {e : Encoding}

/-- A word of memory holds as many words as the type has on the stack. -/
theorem length_memoryValue (h : ty.Writable e) (w : Word) :
    (e.memoryValue w).length = ty.sizeOnStack := by
  rw [h.sizeOnStack_eq, Encoding.memoryValue]
  split <;> rfl

/-- The value of a word is packed into the bytes that are kept for the word. -/
theorem packed_memoryValue (h : ty.Writable e) (w : Word) :
    ty.packed e (e.memoryValue w) = ty.packedWord w := by
  rw [Encoding.memoryValue, packedWord, h.encoding]
  by_cases hform : e.form = .externalFunction
  · obtain ⟨rfl, rfl⟩ := h.eq_of_external hform
    rw [if_pos hform, packed]
    refine Eq.trans ?_ ((if_neg (by simp)).trans (if_pos (.inr rfl))).symm
    have hright : w >>> 64 &&& lowBytesMask 24 = rightAlign w 24 :=
      rightAlign_and_lowBytesMask w (show 24 ≤ 32 by decide)
    rw [BitVec.shiftRight_add w 64 32, and_lowBytesMask_and, combined_split, hright]
  · rw [if_neg hform, packed]
    simp only [hform, or_false]
    cases e.alignment <;> rfl

/-- The bytes that are kept for a word are no more than the width of the type. -/
theorem packedWord_and_lowBytesMask (h : ty.Writable e) (w : Word) :
    ty.packedWord w &&& lowBytesMask ty.storageBytes = ty.packedWord w := by
  rw [← h.packed_memoryValue, ← bytes_of_encoding?_eq_ok h.encoding]
  exact h.packed_and_lowBytesMask (h.length_memoryValue w)

end Ty.Writable

/-! ## Copying a word -/

/-- The machine after a word was copied to the struct in slot `target`. -/
def copyWord : CopyStep StructWord := fun _ target m w =>
  (access w.address 32).map fun address =>
    match w.leaf? with
    | none => m.touch address
    | some leaf => (m.touch address).writeLeaf target leaf (leaf.ty.packedWord (m.memory.loadWord address))

/-- A word is copied if its address is in range, and touches memory whether or not there is a leaf to
write. -/
theorem copyWord_eq_ok {source target : Word} {m m' : Machine} {w : StructWord} :
    copyWord source target m w = .ok m' ↔
      w.address.toNat + 32 ≤ Memory.limit ∧
        m' = match w.leaf? with
          | none => m.touch w.address.toNat
          | some leaf => (m.touch w.address.toNat).writeLeaf target leaf
              (leaf.ty.packedWord (m.memory.loadWord w.address.toNat)) := by
  rw [copyWord, access_eq]
  by_cases hle : w.address.toNat + 32 ≤ Memory.limit
  · rw [if_pos hle]
    exact ⟨fun h => ⟨hle, (Except.ok.inj h).symm⟩, fun h => congrArg Except.ok h.2.symm⟩
  · rw [if_neg hle]
    exact ⟨fun h => by contradiction, fun h => absurd h.1 hle⟩

/-- Copying a word to storage keeps the bytes of memory. -/
theorem keepsMemory_copyWord : copyWord.KeepsMemory := by
  intro source target m w m' h
  obtain ⟨-, rfl⟩ := copyWord_eq_ok.1 h
  split <;> rfl

/-- Where the leaves of a struct are is all that the reference of the target is for. -/
theorem copyWord_shift (source source' target : Word) (m : Machine) (w : StructWord) (slots : Nat) :
    copyWord source target m (w.shift slots) =
      copyWord source' (target + BitVec.ofNat 256 slots) m w := by
  obtain ⟨leaf?, address⟩ := w
  cases leaf? with
  | none => rfl
  | some leaf =>
    simp only [copyWord, StructWord.shift, Option.map_some, writeLeaf_shift]
    rfl

/-! ## Copying word by word -/

/-- Words are copied one after the other unless one of them lies outside the range of memory. -/
theorem foldlM_copyWord (source target : Word) (words : List StructWord) (m : Machine) :
    ((∀ w ∈ words, w.address.toNat + 32 ≤ Memory.limit) ∧
      ∃ m', words.foldlM (copyWord source target) m = .ok m') ∨
    ((∃ w ∈ words, Memory.limit < w.address.toNat + 32) ∧
      words.foldlM (copyWord source target) m = .error .addressOutOfRange) := by
  induction words generalizing m with
  | nil => exact .inl ⟨fun w hw => absurd hw List.not_mem_nil, m, rfl⟩
  | cons w words ih =>
    rw [List.foldlM_cons]
    by_cases hle : w.address.toNat + 32 ≤ Memory.limit
    · rw [copyWord_eq_ok.2 ⟨hle, rfl⟩]
      rcases ih _ with ⟨hall, hok⟩ | ⟨⟨w', hw', hgt⟩, herror⟩
      · exact .inl ⟨List.forall_mem_cons.2 ⟨hle, hall⟩, hok⟩
      · exact .inr ⟨⟨w', List.mem_cons_of_mem _ hw', hgt⟩, herror⟩
    · refine .inr ⟨⟨w, List.mem_cons_self, Nat.lt_of_not_le hle⟩, ?_⟩
      rw [copyWord, access_eq, if_neg hle]
      rfl

/-- The bytes of the leaves are those for their words, no other byte has changed, and memory has not
been written. -/
structure CopiedWords (words : List StructWord) (target : Word) (m m' : Machine) : Prop where
  copied : ∀ w ∈ words, ∀ leaf, w.leaf? = some leaf →
    bytesIn leaf.ty.storageBytes leaf.place.byte (m'.persistent.read (leaf.slotFrom target)) =
      leaf.ty.packedWord (m.memory.loadWord w.address.toNat)
  frame : ∀ key i, (∀ w ∈ words, ∀ leaf, w.leaf? = some leaf → ¬leaf.Covers target key i) →
    m'.byte key i = m.byte key i
  bytes : m'.memory.bytes = m.memory.bytes
  memory : (∀ w ∈ words, w.address.toNat + 32 ≤ m.memory.size) → m'.memory = m.memory
  transient : m'.transient = m.transient
  immutables : m'.immutables = m.immutables
  calls : m'.calls = m.calls

/-- Copying one word. -/
theorem copiedWords_copyWord {source target : Word} {m m' : Machine} {w : StructWord}
    (hleaf : ∀ leaf, w.leaf? = some leaf →
      (∃ e, leaf.ty.Writable e) ∧ leaf.place.byte + leaf.ty.storageBytes ≤ 32)
    (h : copyWord source target m w = .ok m') : CopiedWords [w] target m m' := by
  obtain ⟨-, rfl⟩ := copyWord_eq_ok.1 h
  have htouch : w.address.toNat + 32 ≤ m.memory.size →
      (m.touch w.address.toNat).memory = m.memory := fun hle =>
    congrArg (Memory.mk · m.memory.bytes) (Nat.max_eq_left hle)
  cases hw : w.leaf? with
  | none =>
    refine ⟨?_, fun _ _ _ => rfl, rfl, fun hsize => htouch (hsize w (List.mem_singleton_self w)), rfl,
      rfl, rfl⟩
    intro w' hw' leaf hleaf'
    obtain rfl := List.mem_singleton.1 hw'
    rw [hw] at hleaf'
    contradiction
  | some leaf =>
    obtain ⟨⟨e, hwritable⟩, hfits⟩ := hleaf leaf hw
    refine ⟨?_, fun key i hout => ?_, rfl, fun hsize => htouch (hsize w (List.mem_singleton_self w)),
      rfl, rfl, rfl⟩
    · intro w' hw' leaf' hleaf'
      obtain rfl := List.mem_singleton.1 hw'
      obtain rfl := Option.some.inj (hw.symm.trans hleaf')
      have hread : ∀ bytes, ((m.touch w'.address.toNat).writeLeaf target leaf bytes).persistent.read
          (leaf.slotFrom target) = withBytes leaf.ty.storageBytes leaf.place.byte
            (m.persistent.read (leaf.slotFrom target)) bytes := fun bytes =>
        (WordMap.read_write _ _ _ _).trans (if_pos rfl)
      rw [hread, bytesIn_withBytes _ _ hfits]
      exact hwritable.packedWord_and_lowBytesMask _
    · exact ((m.touch w.address.toNat).byte_writeLeaf target leaf _
        (Ty.isMapping_of_encoding?_eq_ok hwritable.encoding) hfits key i).2
        (hout w (List.mem_singleton_self w) leaf hw)

/-- One word after the other: what was copied first is not written again. -/
theorem CopiedWords.cons {w : StructWord} {words : List StructWord} {target : Word} {m m₁ m' : Machine}
    (hleaf : ∀ leaf, w.leaf? = some leaf → leaf.ty.isMapping = false)
    (hapart : ∀ leaf, w.leaf? = some leaf → ∀ w' ∈ words, ∀ leaf', w'.leaf? = some leaf' →
      ∀ key i, leaf.Covers target key i → ¬leaf'.Covers target key i)
    (hw : CopiedWords [w] target m m₁) (hwords : CopiedWords words target m₁ m') :
    CopiedWords (w :: words) target m m' where
  copied := by
    have hload := Memory.loadWord_congr hw.bytes
    intro w' hw' leaf hleaf'
    rcases List.mem_cons.1 hw' with rfl | hw'
    · rw [← hw.copied w' (List.mem_singleton_self w') leaf hleaf']
      refine bytesIn_congr fun i hle hlt => ?_
      exact hwords.frame _ i fun w'' hw'' leaf'' hleaf'' =>
        hapart leaf hleaf' w'' hw'' leaf'' hleaf'' _ i ⟨hleaf leaf hleaf', rfl, hle, hlt⟩
    · rw [hwords.copied w' hw' leaf hleaf', hload]
  frame key i hout := by
    rw [hwords.frame key i fun w' hw' => hout w' (List.mem_cons_of_mem w hw')]
    refine hw.frame key i fun w' hw' => ?_
    obtain rfl := List.mem_singleton.1 hw'
    exact hout w' List.mem_cons_self
  bytes := hwords.bytes.trans hw.bytes
  memory hsize := by
    have hfirst := hw.memory fun w' hw' => by
      obtain rfl := List.mem_singleton.1 hw'
      exact hsize w' List.mem_cons_self
    rw [hwords.memory fun w' hw' => hfirst ▸ hsize w' (List.mem_cons_of_mem w hw'), hfirst]
  transient := hwords.transient.trans hw.transient
  immutables := hwords.immutables.trans hw.immutables
  calls := hwords.calls.trans hw.calls

/-- Copying words one after the other, whose leaves have no bytes in common.

**Proof sketch.** Induction on the words.  The words that are left do not write to the bytes of the
first leaf (`CopiedWords.cons`), and they are loaded from the same memory. -/
theorem copiedWords_of_foldlM {source target : Word} {words : List StructWord} {m m' : Machine}
    (hleaf : ∀ leaf ∈ words.filterMap (·.leaf?),
      (∃ e, leaf.ty.Writable e) ∧ leaf.place.byte + leaf.ty.storageBytes ≤ 32)
    (hapart : (words.filterMap (·.leaf?)).Pairwise fun a b =>
      ∀ key i, a.Covers target key i → ¬b.Covers target key i)
    (h : words.foldlM (copyWord source target) m = .ok m') : CopiedWords words target m m' := by
  induction words generalizing m with
  | nil =>
    obtain rfl := Except.ok.inj h
    exact ⟨fun w hw => absurd hw List.not_mem_nil, fun _ _ _ => rfl, rfl, fun _ => rfl, rfl, rfl, rfl⟩
  | cons w words ih =>
    obtain ⟨m₁, hfirst, h⟩ := Except.exists_of_bind_eq_ok h
    rw [List.pairwise_filterMap, List.pairwise_cons] at hapart
    have hw : ∀ leaf, w.leaf? = some leaf → leaf ∈ (w :: words).filterMap (·.leaf?) := fun leaf hleaf' =>
      List.mem_filterMap.2 ⟨w, List.mem_cons_self, hleaf'⟩
    refine CopiedWords.cons (fun leaf hleaf' => ?_)
      (fun leaf hleaf' w' hw' leaf' => fun hw'' => hapart.1 w' hw' leaf hleaf' leaf' hw'')
      (copiedWords_copyWord (fun leaf hleaf' => hleaf leaf (hw leaf hleaf')) hfirst)
      (ih (fun leaf hleaf' => hleaf leaf ?_) (List.pairwise_filterMap.2 hapart.2) h)
    · obtain ⟨⟨e, hwritable⟩, -⟩ := hleaf leaf (hw leaf hleaf')
      exact Ty.isMapping_of_encoding?_eq_ok hwritable.encoding
    · obtain ⟨w', hw', heq⟩ := List.mem_filterMap.1 hleaf'
      exact List.mem_filterMap.2 ⟨w', List.mem_cons_of_mem w hw', heq⟩

end WordPlaces
