import WordPlaces.Proofs.Place.MemoryValue

/-!
# Assigning a struct in memory to one in storage

The code of an assignment of a struct in memory to one of the same declaration in storage copies the
words of the members in the order of their declaration, and follows the pointers to the structs that
are nested.

## Main results

* `StorageItem.exists_storeStruct_memory` — executing the code copies the words in order.
* `StorageItem.store_memory_struct_writes_leaves` — the leaves after an assignment.
-/

set_option autoImplicit false

namespace WordPlaces

open Machine

namespace StorageItem

open StructTable

variable {sc : Scope}

/-! ## Members -/

/-- The address of a member of the source. -/
theorem run_memoryOperands (m : Machine) (memoryOffset : Nat) (source target : Word)
    (rest : List Word) (code : Code) :
    (m.withStack (target :: source :: rest)).run ([.pushNat memoryOffset, .dup 3, .add] ++ code) =
      (m.withStack ((source + BitVec.ofNat 256 memoryOffset) :: target :: source :: rest)).run
        code := rfl

/-- A value type is read from its word, and the value is written to the target. -/
theorem copiesWords_value {f : Field} {memoryOffset : Nat} {e : Encoding} (location : DataLocation)
    (h : f.memoryOffset = some memoryOffset) (hf : f.ty.Writable e)
    (hfits : f.storage.byte + e.bytes ≤ 32) :
    Copies sc copyWord (copyMember .memory location f) fun load source =>
      sc.structs.wordsOf load source f memoryOffset := by
  have hvalue := Ty.isValueType_of_encoding?_eq_ok hf.encoding
  have hlocated := Ty.located_of_isValueType hvalue
  obtain ⟨read, hread, hreadHeight, hreadRun⟩ :=
    @MemoryCell.exists_retrieve ⟨f.ty, true⟩ e sc hf.encoding hf.external (.inl rfl) true
  obtain ⟨write, hwrite, hwriteHeight, hwriteRun⟩ :=
    exists_writeMember_value sc .memory location hf hfits
  have hmember : Emits sc (retrieveMember .memory f memoryOffset)
      ([.pushNat memoryOffset, .dup 3, .add] ++ read) (.ok ()) := by
    simp only [retrieveMember, hlocated]
    exact (Emits.emitAll _).bind hread
  refine copies_of_retrieve h hmember ?_ hwrite hwriteHeight fun m source target rest code' => ?_
  · have hoperands : heightFrom 2 [.pushNat memoryOffset, .dup 3, .add] = some 3 := rfl
    rw [heightFrom_append, hoperands]
    exact heightFrom_add 2 hreadHeight
  · have hwords : sc.structs.wordsOf m.memory.loadWord source f memoryOffset =
        [⟨some ⟨f.ty, f.storage⟩, source + BitVec.ofNat 256 memoryOffset⟩] := by
      rw [wordsOf]
      split
      · rename_i hty
        rw [hty] at hvalue
        contradiction
      · rfl
    rw [hwords, List.foldlM_cons, List.append_assoc, run_memoryOperands, hreadRun, copyWord]
    cases access (source + BitVec.ofNat 256 memoryOffset) 32 with
    | error fault => rfl
    | ok address =>
      have hrun := hwriteRun (m.touch address) _ target (source :: rest) code'
        (hf.length_memoryValue (m.memory.loadWord address))
      rw [hf.packed_memoryValue] at hrun
      exact hrun

/-- A nested struct is copied as one, from the pointer in its word. -/
theorem copiesWords_struct {f : Field} {memoryOffset : Nat} {d : StructId}
    {declared location : DataLocation} {code : Code}
    (h : f.memoryOffset = some memoryOffset) (hf : f.ty = .struct d declared)
    (hcode : Emits sc (storeStruct d location (.struct d .memory) true) code (.ok ()))
    (hheight : heightFrom 3 code = some 0)
    (hrun : ∀ (m : Machine) (offset source target : Word) (rest : List Word) (code' : Code),
      (m.withStack (offset :: target :: source :: rest)).run (code ++ code') =
        (sc.structs.structWords m.memory.loadWord d source).foldlM (copyWord source target) m >>=
          fun m' => (m'.withStack rest).run code') :
    Copies sc copyWord (copyMember .memory location f) fun load source =>
      sc.structs.wordsOf load source f memoryOffset := by
  obtain ⟨write, hwrite, hwriteHeight, hwriteRun⟩ := exists_writeMember_struct hf hcode hheight
  have hmember : Emits sc (retrieveMember .memory f memoryOffset)
      ([.pushNat memoryOffset, .dup 3, .add] ++ [.mload]) (.ok ()) :=
    emits_retrieveMember_memory (by rw [hf]; rfl) memoryOffset
  refine copies_of_retrieve h hmember rfl hwrite hwriteHeight fun m source target rest code' => ?_
  have hwords : sc.structs.wordsOf m.memory.loadWord source f memoryOffset =
      ⟨none, source + BitVec.ofNat 256 memoryOffset⟩ ::
        (sc.structs.structWords m.memory.loadWord d
          (m.memory.loadWord (source + BitVec.ofNat 256 memoryOffset).toNat)).map
            (StructWord.shift f.storage.slot) := by
    simp only [wordsOf, hf]
  have hshift : ∀ (words : List StructWord) (m₁ : Machine),
      (words.map (StructWord.shift f.storage.slot)).foldlM (copyWord source target) m₁ =
        words.foldlM (copyWord (m.memory.loadWord (source + BitVec.ofNat 256 memoryOffset).toNat)
          (target + f.slotWord)) m₁ := by
    intro words m₁
    rw [List.foldlM_map]
    congr 1
    funext m₁ w
    exact copyWord_shift _ _ _ _ _ _
  rw [hwords, List.foldlM_cons, List.append_assoc, run_memoryOperands, List.singleton_append,
    run_mload, copyWord, access_eq]
  simp only [hshift]
  split
  · -- reading the pointer leaves the words in memory as they are
    exact (hwriteRun _ _ _ _ _).trans (hrun _ _ _ _ _ _)
  · rfl

/-! ## Structs -/

/-- Copying a struct copies its words in the order of the members.

**Proof sketch.** Induction on the number of the struct, since structs nest earlier ones only.  Every
member copies its own words: a mapping none, a value type one (`copiesWords_value`), and a nested
struct the one with its pointer and those behind it (`copiesWords_struct`). -/
theorem exists_storeStruct_memory {d : StructId}
    (hleaves : ∀ leaf ∈ sc.structs.leaves d, leaf.ty.isMapping = false →
      ∃ e, leaf.ty.Writable e ∧ leaf.place.byte + e.bytes ≤ 32)
    (location : DataLocation) (move : Bool) :
    ∃ code, Emits sc (storeStruct d location (.struct d .memory) move) code (.ok ()) ∧
      heightFrom 3 code = some (if move then 0 else 1) ∧
      ∀ (m : Machine) (offset source target : Word) (rest : List Word) (code' : Code),
        (m.withStack (offset :: target :: source :: rest)).run (code ++ code') =
          (sc.structs.structWords m.memory.loadWord d source).foldlM (copyWord source target) m >>=
            fun m' => (m'.withStack ((if move then [] else [target]) ++ rest)).run code' := by
  induction d using Nat.strongRecOn generalizing move with
  | ind d ih =>
    have hmembers : ∀ f ∈ sc.structs.fields d,
        Copies sc copyWord (copyMember .memory location f) fun load source =>
          f.memoryOffset.elim [] (sc.structs.wordsOf load source f) := by
      intro f hf
      have hplace := memoryOffset_isNone hf
      cases hm : f.memoryOffset with
      | none => exact copies_mapping .memory location hm
      | some memoryOffset =>
        rw [hm] at hplace
        rcases sc.structs.leavesOf_eq f with ⟨d', declared, hty, -⟩ | ⟨hne, -⟩
        · obtain ⟨code, hcode, hheight, hrun⟩ := ih d' (lt_of_mem_fields hf hty)
            (fun leaf hleaf => hleaves (leaf.shift f.storage.slot) (shift_mem_leaves hf hty hleaf)) true
          exact copiesWords_struct hm hty hcode hheight hrun
        · obtain ⟨e, hwritable, hfits⟩ :=
            hleaves _ (mem_leaves_of_ne_struct hf hne) hplace.symm
          exact copiesWords_value location hm hwritable hfits
    obtain ⟨code, hcode, hheight, hrun⟩ :=
      exists_storeStruct_of_copies keepsMemory_copyWord (by decide) location hmembers move
    refine ⟨code, hcode, hheight, fun m offset source target rest code' => ?_⟩
    rw [hrun, structWords_eq]

/-! ## The storage after an assignment -/

/-- A leaf that is no mapping is written within its slot. -/
theorem writable_of_mem_leaves {structs : StructTable} {leaves : List Leaf} {slots : Nat}
    (hrow : structs.Row 0 leaves (32 * slots)) (hassignable : ∀ leaf ∈ leaves, leaf.ty.Assignable)
    {leaf : Leaf} (hleaf : leaf ∈ leaves) (hty : leaf.ty.isMapping = false) :
    (∃ e, leaf.ty.Writable e) ∧ leaf.place.byte + leaf.ty.storageBytes ≤ 32 := by
  refine ⟨(hassignable leaf hleaf).resolve_left ?_,
    (hrow.within_slot hleaf (hassignable leaf hleaf) hty).2⟩
  rw [hty]
  decide

/-- Copying the words of a struct writes the bytes of its leaves and no others. -/
theorem copiedWords_structWords {structs : StructTable} (hlaid : structs.LaidOut) {d : StructId}
    (hd : d < structs.decls.size) (hassignable : ∀ leaf ∈ structs.leaves d, leaf.ty.Assignable)
    {source target pointer : Word} {load : Nat → Word} {m m' : Machine}
    (h : (structs.structWords load d pointer).foldlM (copyWord source target) m = .ok m') :
    CopiedWords (structs.structWords load d pointer) target m m' ∧
      ∀ key i, (∀ leaf ∈ structs.leaves d, ¬leaf.Covers target key i) →
        m'.byte key i = m.byte key i := by
  obtain ⟨hrow, -⟩ := row_leaves hlaid hd fun leaf hleaf => (hassignable leaf hleaf).hasWidth
  have hfilter := filterMap_structWords structs load d pointer
  have hmem : ∀ leaf ∈ (structs.structWords load d pointer).filterMap (·.leaf?),
      leaf ∈ structs.leaves d ∧ leaf.ty.isMapping = false := by
    rw [hfilter]
    intro leaf hleaf
    obtain ⟨hmem, hty⟩ := List.mem_filter.1 hleaf
    exact ⟨hmem, Bool.not_eq_true' _ ▸ hty⟩
  have hapart : ((structs.structWords load d pointer).filterMap (·.leaf?)).Pairwise fun a b =>
      ∀ key i, a.Covers target key i → ¬b.Covers target key i := by
    rw [hfilter]
    exact (hrow.pairwise_not_covers (hlaid.slots_lt hd) hassignable target).filter _
  have hcopied := copiedWords_of_foldlM (fun leaf hleaf =>
    writable_of_mem_leaves hrow hassignable (hmem leaf hleaf).1 (hmem leaf hleaf).2) hapart h
  exact ⟨hcopied, fun key i hout => hcopied.frame key i fun w hw leaf hleaf =>
    hout leaf (hmem leaf (List.mem_filterMap.2 ⟨w, hw, hleaf⟩)).1⟩

end StorageItem

end WordPlaces
