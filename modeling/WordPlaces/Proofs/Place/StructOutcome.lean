import WordPlaces.Proofs.Emit.Outcome
import WordPlaces.Proofs.Place.MemoryValue
import WordPlaces.Proofs.Place.StructClearing
import WordPlaces.Proofs.Place.StructMembers

/-!
# When a struct is assigned or cleared

Fixed-point numbers are only moved as whole words: a narrower one has no packed form, so it is neither
read from storage nor written to it.  An assignment to a struct in storage moves every member, and is
refused for the first such number that the struct consists of.  Arrays, mappings and structs in call
data are left to routines or left alone, whatever is in them, and clearing never looks at the form of a
value.

## Main definitions

* `Ty.isFixedPoint`, `Ty.PackedFixedPoint` — fixed-point numbers, and those that take no whole word.
* `fixedPointDiagnostic` — what is told of the latter.

## Main results

* `StorageItem.refusesIff_retrieve`, `StorageItem.refusesIff_storeValue` — the accesses of one value.
* `StorageItem.refusesIff_storeStruct` — a copy is refused exactly for a narrow fixed-point number.
* `StorageItem.succeeds_clearStruct` — clearing a struct succeeds.
* `StorageItem.store_struct_outcome` — how assigning to a struct and clearing it end.
-/

set_option autoImplicit false

namespace WordPlaces

open Fragment

/-! ## Fixed-point numbers -/

namespace Ty

/-- The type is one of fixed-point numbers, or another name of one. -/
def isFixedPoint : Ty → Bool
  | .fixedPoint .. => true
  | .named _ underlying => underlying.isFixedPoint
  | _ => false

/-- A fixed-point number that shares its slot with others. -/
def PackedFixedPoint (ty : Ty) : Prop := ty.isFixedPoint = true ∧ ty.storageBytes ≠ 32

instance (ty : Ty) : Decidable ty.PackedFixedPoint := inferInstanceAs (Decidable (_ ∧ _))

variable {ty : Ty} {e : Encoding}

/-- The encoding tells the fixed-point numbers from all other values. -/
theorem form_eq_fixedPoint_iff (h : ty.encoding? = .ok e) :
    e.form = .fixedPoint ↔ ty.isFixedPoint = true := by
  induction ty using encoding?.induct with
  | case7 name underlying ih => exact ih h
  | case10 | case11 | case12 | case13 => contradiction
  | _ =>
    obtain rfl := Except.ok.inj h
    simp [isFixedPoint, Encoding.plain]

/-- No array, struct, mapping or tuple is a fixed-point number. -/
theorem not_packedFixedPoint (h : ty.isValueType = false) : ¬ty.PackedFixedPoint := fun hpacked =>
  hpacked.2 (storageBytes_of_not_isValueType h)

namespace Kept

/-- A fixed-point number of less than a word has the form that is refused. -/
theorem packedFixedPoint_iff (h : ty.Kept e) :
    ty.PackedFixedPoint ↔ e.form = .fixedPoint ∧ e.bytes < 32 := by
  rw [PackedFixedPoint, ← form_eq_fixedPoint_iff h.encoding, ← bytes_of_encoding?_eq_ok h.encoding]
  exact and_congr_right fun _ => ⟨fun hne => Nat.lt_of_le_of_ne h.bytes_le hne, Nat.ne_of_lt⟩

/-- Every other value is written to storage. -/
theorem writable (h : ty.Kept e) (hpacked : ¬ty.PackedFixedPoint) : ty.Writable e where
  encoding := h.encoding
  one_le_bytes := h.one_le_bytes
  bytes_le := h.bytes_le
  fixedPoint hform := Decidable.by_contra fun hne =>
    hpacked (h.packedFixedPoint_iff.2 ⟨hform, Nat.lt_of_le_of_ne h.bytes_le hne⟩)
  external := h.external

/-- A value takes one or two slots of the stack. -/
theorem sizeOnStack_le (h : ty.Kept e) : ty.sizeOnStack ≤ 2 := by
  rw [h.sizeOnStack_eq]
  split <;> decide

end Kept

/-- Value types that can be cleared have values that are kept. -/
theorem Clearable.exists_kept (h : ty.Clearable) (hnamed : ty.WellNamed) :
    ty.isMapping = true ∨ ty.isArray = true ∨ ∃ e, ty.Kept e := by
  refine h.imp_right fun h => h.imp_right fun ⟨⟨e, he⟩, hwidth⟩ => ⟨e, he, ?_, ?_, hnamed e he⟩
  · rw [bytes_of_encoding?_eq_ok he]
    exact hwidth.1
  · rw [bytes_of_encoding?_eq_ok he]
    exact hwidth.2

end Ty

/-- What is told of a fixed-point number that is packed or unpacked. -/
def fixedPointDiagnostic (span : Span) : Diagnostic :=
  .unimplemented "Packed storage encoding of fixed point types is not implemented yet." span

/-- Packing a fixed-point number is refused. -/
theorem Emits.rejectFixedPoint {sc : Scope} :
    Emits sc rejectFixedPoint [] (.error (.diagnostic (fixedPointDiagnostic sc.site))) := .reject _

namespace StorageItem

open StructTable

variable {sc : Scope} {item : StorageItem} {source : Ty} {e : Encoding}

/-! ## Values -/

/-- How high the stack rises while a value is read. -/
theorem risesBy_retrieve (hvalue : item.ty.isValueType = true) : RisesBy sc (item.retrieve true) 5 := by
  unfold retrieve
  simp only [hvalue, Bool.not_true, Bool.false_eq_true, if_false]
  refine .bind_encoding fun e _ => ?_
  split
  · exact (RisesBy.emitAll rfl).mono (Nat.zero_le 5)
  · have hshifted : RisesBy sc (emitAll (loadShifted item.kind)) 1 := .emitAll rfl
    exact hshifted.bind fun _ => .unpackValue e

/-- How high the stack rises while a value is written. -/
theorem risesBy_storeValue (hsource : source.isValueType = true) (he : item.ty.encoding? = .ok e)
    (hsize : item.ty.sizeOnStack ≤ 2) : RisesBy sc (item.storeValue source true) 9 := by
  have hvalue := Ty.isValueType_of_encoding?_eq_ok he
  unfold storeValue
  refine .bind_nil (.orFault he) ?_
  split
  · have hpop : RisesBy sc (emit .pop) 0 := .emit rfl
    have hswap : RisesBy sc (emit (.swap 1)) 0 := .emit rfl
    have hwrite : RisesBy sc (emitAll [.swap 1, .sstore item.kind]) 0 := .emitAll rfl
    have hstore := hpop.bind fun _ => hswap.bind fun _ =>
      (RisesBy.convertType hsource hvalue false).bind fun _ => hwrite
    exact hstore.mono (by decide)
  · have hcleared : RisesBy sc (emitAll (offsetToMultiplier ++ [.dup 2, .sload item.kind, .dup 2] ++
        clearBytes e.bytes ++ [.swap 1])) 4 := .emitAll rfl
    have hcopy : RisesBy sc (copyToTop (3 + item.ty.sizeOnStack) item.ty.sizeOnStack) 2 :=
      (RisesBy.copyToTop _ _).mono hsize
    have hwrite : RisesBy sc (emitAll [.mul, .or, .swap 1, .sstore item.kind]) 0 := .emitAll rfl
    have hend : RisesBy sc (popElement item.ty) 0 := .popSlots _
    exact hcleared.bind fun _ => hcopy.bind fun _ => (RisesBy.packValue hsource).bind fun _ =>
      hwrite.bind fun _ => hend

/-- Internal functions are read like the values that have a packed form. -/
theorem exists_retrieve_of_not_packed (h : item.ty.Kept e) (hpacked : ¬item.ty.PackedFixedPoint) :
    ∃ code, Emits sc (item.retrieve true) code (.ok ()) ∧
      heightFrom 2 code = some item.ty.sizeOnStack := by
  by_cases hinternal : e.form = .internalFunction
  · have hsize : item.ty.sizeOnStack = 1 := by
      rw [h.sizeOnStack_eq, hinternal]
      rfl
    obtain rfl := Ty.encoding_eq_of_internal h.encoding hinternal
    have hunpack : Emits sc (unpackValue ⟨8, .right, .notApplicable, .internalFunction⟩)
        (assignedTag ++ keepLowBytes 8) (.ok ()) := (Emits.emitAll _).bind (.emitAll _)
    exact ⟨_, emits_retrieve_remove h.encoding (by decide) hunpack, by rw [hsize]; rfl⟩
  · have hstorable : item.ty.Storable e :=
      ⟨h.encoding, h.one_le_bytes, h.bytes_le, hinternal, (h.writable hpacked).fixedPoint, h.external⟩
    obtain ⟨code, hcode, hheight, -⟩ := exists_retrieve_remove sc hstorable
    exact ⟨code, hcode, hheight⟩

/-- A value is read from storage unless it is a packed fixed-point number. -/
theorem refusesIff_retrieve (h : item.ty.Kept e) :
    RefusesIff sc (fixedPointDiagnostic sc.site) item.ty.PackedFixedPoint (item.retrieve true) 2
      item.ty.sizeOnStack 7 := by
  have hrises : RisesBy sc (item.retrieve true) 5 :=
    risesBy_retrieve (Ty.isValueType_of_encoding?_eq_ok h.encoding)
  by_cases hpacked : item.ty.PackedFixedPoint
  · obtain ⟨hform, hnarrow⟩ := h.packedFixedPoint_iff.1 hpacked
    have hunpack : Emits sc (unpackValue e) [] (.error (.diagnostic (fixedPointDiagnostic sc.site))) := by
      unfold unpackValue
      rw [hform]
      exact .rejectFixedPoint
    exact .of_refused hpacked (emits_retrieve_remove h.encoding hnarrow hunpack) rfl hrises
      (Nat.le_refl 7)
  · obtain ⟨code, hcode, hheight⟩ := exists_retrieve_of_not_packed h hpacked
    exact .of_emits hpacked hcode hheight hrises (Nat.le_refl 7)

/-- A value is written to storage unless it is a packed fixed-point number. -/
theorem refusesIff_storeValue (h : item.ty.Kept e) (hsource : source.isValueType = true) :
    RefusesIff sc (fixedPointDiagnostic sc.site) item.ty.PackedFixedPoint (item.storeValue source true)
      (item.ty.sizeOnStack + 2) 0 13 := by
  have hle := h.sizeOnStack_le
  have hrises : RisesBy sc (item.storeValue source true) 9 := risesBy_storeValue hsource h.encoding hle
  by_cases hpacked : item.ty.PackedFixedPoint
  · obtain ⟨hform, hnarrow⟩ := h.packedFixedPoint_iff.1 hpacked
    have hsize : item.ty.sizeOnStack = 1 := by
      rw [h.sizeOnStack_eq, hform]
      rfl
    have hword : ¬e.isFullWord = true := fun hw => absurd (beq_iff_eq.1 hw) (Nat.ne_of_lt hnarrow)
    have hpack : Emits sc (packValue source item.ty) []
        (.error (.diagnostic (fixedPointDiagnostic sc.site))) := by
      refine .bind_nil (.orFault h.encoding) ?_
      rw [hform]
      exact .rejectFixedPoint
    have hemits : Emits sc (item.storeValue source true) (offsetToMultiplier ++
        [.dup 2, .sload item.kind, .dup 2] ++ clearBytes e.bytes ++ [.swap 1] ++ ([.dup 4] ++ []))
        (.error (.diagnostic (fixedPointDiagnostic sc.site))) := by
      unfold storeValue
      refine .bind_nil (.orFault h.encoding) ?_
      rw [if_neg hword, hsize]
      exact (Emits.emitAll _).bind ((Emits.copyToTop (by decide) (by decide) 1).bind hpack.bind_error)
    rw [hsize] at hle ⊢
    exact .of_refused hpacked hemits rfl hrises (by decide)
  · obtain ⟨code, hcode, hheight, -⟩ := exists_storeValue sc (h.writable hpacked) hsource true
    exact .of_emits hpacked hcode hheight hrises (by omega)

/-! ## Copying members -/

/-- A value of the source is read.  Memory holds it in a whole word, whatever it is. -/
theorem refusesIff_retrieveMember {f : Field} (h : f.ty.Kept e) (source : DataLocation)
    (memoryOffset : Nat) :
    RefusesIff sc (fixedPointDiagnostic sc.site) (source = .storage ∧ f.ty.PackedFixedPoint)
      (retrieveMember source f memoryOffset) 2 (f.ty.sizeOnStack + 2) 9 := by
  have hlocated := Ty.located_of_isValueType (Ty.isValueType_of_encoding?_eq_ok h.encoding)
  have hload : RefusesIff sc (fixedPointDiagnostic sc.site) False
      (do
        emitAll [.pushNat memoryOffset, .dup 3, .add]
        (⟨f.ty, true⟩ : MemoryCell).retrieve true) 2 (f.ty.sizeOnStack + 2) 9 := by
    obtain ⟨code, hcode, hheight, -⟩ :=
      @MemoryCell.exists_retrieve ⟨f.ty, true⟩ e sc h.encoding h.external (.inl rfl) true
    have hrises : RisesBy sc ((⟨f.ty, true⟩ : MemoryCell).retrieve true) 4 := by
      unfold MemoryCell.retrieve
      simp only [Ty.isValueType_of_encoding?_eq_ok h.encoding, if_true]
      exact .loadFromMemory f.ty
    have hread : RefusesIff sc (fixedPointDiagnostic sc.site) False
        ((⟨f.ty, true⟩ : MemoryCell).retrieve true) 1 f.ty.sizeOnStack 7 :=
      .of_emits not_false hcode hheight hrises (by decide)
    exact .emitAll_bind rfl (show 2 + 2 ≤ 9 by decide) (hread.add 2)
  unfold retrieveMember
  simp only [hlocated]
  cases source with
  | storage =>
    have hitem : (⟨f.ty, .persistent⟩ : StorageItem).ty.Kept e := h
    have hread : RefusesIff sc (fixedPointDiagnostic sc.site) f.ty.PackedFixedPoint
        ((⟨f.ty, .persistent⟩ : StorageItem).retrieve true) 4 (f.ty.sizeOnStack + 2) 9 :=
      (refusesIff_retrieve hitem).add 2
    have hmember : RefusesIff sc (fixedPointDiagnostic sc.site) f.ty.PackedFixedPoint
        (do
          emitAll (memberOperands f)
          (⟨f.ty, .persistent⟩ : StorageItem).retrieve true) 2 (f.ty.sizeOnStack + 2) 9 :=
      .emitAll_bind rfl (show 2 + 3 ≤ 9 by decide) hread
    exact hmember.congr (and_iff_right rfl).symm
  | memory | calldata => exact hload.congr (by simp)

/-- A reference of the source is read. -/
theorem succeeds_retrieveMember {d : Diagnostic} {f : Field} (hvalue : f.ty.isValueType = false)
    {source : DataLocation} (hsource : source ≠ .calldata) (memoryOffset : Nat) :
    RefusesIff sc d False (retrieveMember source f memoryOffset) 2 3 9 := by
  cases source with
  | storage =>
    have hcode : Emits sc (retrieveMember .storage f memoryOffset) (memberOperands f ++ [.pop])
        (.ok ()) := emits_retrieveMember_storage hvalue memoryOffset
    exact .of_code hcode rfl (show 2 + 3 ≤ 9 by decide)
  | memory =>
    have hcode : Emits sc (retrieveMember .memory f memoryOffset)
        ([.pushNat memoryOffset, .dup 3, .add] ++ [.mload]) (.ok ()) :=
      emits_retrieveMember_memory hvalue memoryOffset
    exact .of_code hcode rfl (show 2 + 2 ≤ 9 by decide)
  | calldata => contradiction

/-- The target of a member is pushed above what was read, which is then written. -/
theorem refusesIff_writeOperands {d : Diagnostic} {p : Prop} {f : Field} {size top : Nat}
    {c : Emit Unit} (hsize : size ≤ 2) (hc : RefusesIff sc d p c (size + 2) 0 top)
    (htop : size + 3 ≤ top) :
    RefusesIff sc d p (do
      dupSlot (1 + size)
      emitAll [.push f.slotWord, .add, .pushNat f.storage.byte]
      c) (size + 2) 2 (top + 2) := by
  have hwindow : 1 + size ≤ stackWindow := Nat.le_trans (Nat.add_le_add_left hsize 1) (by decide)
  have hdup : RefusesIff sc d False (dupSlot (1 + size)) (size + 2) (size + 3) (top + 2) :=
    .of_emits not_false (.dupSlot (by omega) hwindow) (heightFrom_copyToTop (by omega) 1) (.dupSlot _)
      (by omega)
  have htarget : heightFrom (size + 3) [.push f.slotWord, .add, .pushNat f.storage.byte] =
      some (size + 4) := rfl
  have hgrowth : growth [.push f.slotWord, .add, .pushNat f.storage.byte] = 2 := rfl
  exact hdup.succeeds_bind (.emitAll_bind htarget (by omega) (hc.add 2))

/-- A value is copied unless it is a packed fixed-point number: that is refused when it is read from
storage, or else when it is written. -/
theorem refusesIff_copyMember_value {f : Field} {memoryOffset : Nat} (h : f.ty.Kept e)
    (hmemory : f.memoryOffset = some memoryOffset) (source location : DataLocation) :
    RefusesIff sc (fixedPointDiagnostic sc.site) f.ty.PackedFixedPoint (copyMember source location f)
      2 2 15 := by
  have hvalue := Ty.isValueType_of_encoding?_eq_ok h.encoding
  have hlocated := Ty.located_of_isValueType hvalue
  have hne : ∀ d declared, f.ty ≠ .struct d declared := by
    intro d declared hty
    rw [hty] at hvalue
    contradiction
  have hle := h.sizeOnStack_le
  have hitem : (⟨f.ty, .persistent⟩ : StorageItem).ty.Kept e := h
  have hflat : RefusesIff sc (fixedPointDiagnostic sc.site) f.ty.PackedFixedPoint
      (storeFlat ⟨f.ty, .persistent⟩ f.ty true) (f.ty.sizeOnStack + 2) 0 13 := by
    rw [storeFlat_eq_storeValue hvalue]
    exact refusesIff_storeValue hitem hvalue
  have hwrite : RefusesIff sc (fixedPointDiagnostic sc.site) f.ty.PackedFixedPoint
      (writeMember source location f) (f.ty.sizeOnStack + 2) 2 15 := by
    rw [writeMember_of_ne_struct hne]
    simp only [hlocated]
    exact refusesIff_writeOperands hle hflat (by omega)
  have hread : RefusesIff sc (fixedPointDiagnostic sc.site)
      (source = .storage ∧ f.ty.PackedFixedPoint) (retrieveMember source f memoryOffset) 2
      (f.ty.sizeOnStack + 2) 15 := (refusesIff_retrieveMember h source memoryOffset).mono (by decide)
  rw [copyMember, hmemory]
  exact (hread.bind hwrite).congr (or_iff_right_of_imp And.right)

/-- An array is handed to a routine. -/
theorem succeeds_copyMember_array {d : Diagnostic} {f : Field} {memoryOffset : Nat}
    (h : f.ty.isArray = true) (hmemory : f.memoryOffset = some memoryOffset) {source : DataLocation}
    (hsource : source ≠ .calldata) (location : DataLocation) :
    RefusesIff sc d False (copyMember source location f) 2 2 15 := by
  have hvalue := Ty.isValueType_of_isArray h
  have hne : ∀ d declared, f.ty ≠ .struct d declared := by
    intro d declared hty
    rw [hty] at h
    contradiction
  have hsize : (f.ty.located source).sizeOnStack = 1 := by
    cases hty : f.ty with
    | array element length declared =>
      cases source with
      | calldata => contradiction
      | storage | memory => cases length <;> rfl
    | _ =>
      rw [hty] at h
      contradiction
  have hcopy : Emits sc (storeFlat ⟨f.ty.located location, .persistent⟩ (f.ty.located source) true)
      ([.pop] ++ ([.call (routineName sc.structs "copy_array_to_storage"
        [f.ty.located source, f.ty.located location]) 2 1] ++ [.pop])) (.ok ()) := by
    have harray : Emits sc (copyArrayToStorage (f.ty.located location) (f.ty.located source))
        [.call (routineName sc.structs "copy_array_to_storage"
          [f.ty.located source, f.ty.located location]) 2 1] (.ok ()) := by
      unfold copyArrayToStorage
      rw [hsize]
      exact .callRoutine _ _ 2 1
    unfold storeFlat storeArray
    simp only [Ty.isValueType_located, Ty.isArray_located, hvalue, h, Bool.false_eq_true, if_false,
      if_true]
    exact (Emits.emit _).bind (harray.bind (.emit _))
  have hflat : RefusesIff sc d False
      (storeFlat ⟨f.ty.located location, .persistent⟩ (f.ty.located source) true) (1 + 2) 0 13 :=
    .of_code hcopy rfl (show 3 + 0 ≤ 13 by decide)
  have hwrite : RefusesIff sc d False (writeMember source location f) 3 2 15 := by
    rw [writeMember_of_ne_struct hne, hsize]
    exact refusesIff_writeOperands (by decide) hflat (by decide)
  have hread : RefusesIff sc d False (retrieveMember source f memoryOffset) 2 3 15 :=
    (succeeds_retrieveMember hvalue hsource memoryOffset).mono (by decide)
  rw [copyMember, hmemory]
  exact hread.succeeds_bind hwrite

/-- A member that is no struct is copied unless it is a packed fixed-point number. -/
theorem refusesIff_copyMember_leaf {f : Field} {d : StructId} (hf : f ∈ sc.structs.fields d)
    (h : f.ty.Clearable) (hnamed : f.ty.WellNamed) {source : DataLocation} (hsource : source ≠ .calldata)
    (location : DataLocation) :
    RefusesIff sc (fixedPointDiagnostic sc.site) f.ty.PackedFixedPoint (copyMember source location f)
      2 2 15 := by
  have hplace := memoryOffset_isNone hf
  cases hmemory : f.memoryOffset with
  | none =>
    -- only mappings have no place in memory, and they are left alone
    rw [hmemory] at hplace
    have hpacked := Ty.not_packedFixedPoint (Ty.isValueType_of_isMapping hplace.symm)
    rw [copyMember, hmemory]
    exact .of_emits hpacked (.pure ()) rfl (.pure ()) (by decide)
  | some memoryOffset =>
    rw [hmemory] at hplace
    rcases h.exists_kept hnamed with hmapping | harray | ⟨e, he⟩
    · rw [hmapping] at hplace
      contradiction
    · have hpacked := Ty.not_packedFixedPoint (Ty.isValueType_of_isArray harray)
      exact (succeeds_copyMember_array harray hmemory hsource location).congr
        (iff_of_false not_false hpacked)
    · exact refusesIff_copyMember_value he hmemory source location

/-- A nested struct is copied unless it is refused as a struct of its own. -/
theorem refusesIff_copyMember_struct {diagnostic : Diagnostic} {p : Prop} {top : Nat} {f : Field}
    {memoryOffset : Nat} {d : StructId} {declared source location : DataLocation}
    (hty : f.ty = .struct d declared) (hmemory : f.memoryOffset = some memoryOffset)
    (hsource : source ≠ .calldata) (htop : 7 ≤ top)
    (hstruct : RefusesIff sc diagnostic p (storeStruct d location (.struct d source) true) 3 0 top) :
    RefusesIff sc diagnostic p (copyMember source location f) 2 2 (top + 2) := by
  have hvalue : f.ty.isValueType = false := by
    rw [hty]
    rfl
  have hnested : RefusesIff sc diagnostic p (storeStruct d location (.struct d source) true) (1 + 2) 0
      top := hstruct
  have hoperands := refusesIff_writeOperands (f := f) (by decide) hnested (by omega)
  have hwrite : RefusesIff sc diagnostic p (writeMember source location f) 3 2 (top + 2) := by
    rw [writeMember_of_struct hty]
    exact hoperands
  have hread : RefusesIff sc diagnostic False (retrieveMember source f memoryOffset) 2 3 (top + 2) :=
    (succeeds_retrieveMember hvalue hsource memoryOffset).mono (by omega)
  rw [copyMember, hmemory]
  exact hread.succeeds_bind hwrite

/-! ## Copying structs -/

/-- The leaves of a nested struct are of the types that they are of in the struct itself. -/
theorem exists_shift_iff {leaves : List Leaf} {slots : Nat} {P : Ty → Prop} :
    (∃ leaf ∈ leaves.map (Leaf.shift slots), P leaf.ty) ↔ ∃ leaf ∈ leaves, P leaf.ty := by
  simp only [List.mem_map, exists_exists_and_eq_and]
  rfl

/-- The leaves of a struct are those of its members. -/
theorem exists_leavesOf_iff {structs : StructTable} {d : StructId} {P : Ty → Prop} :
    (∃ f ∈ structs.fields d, ∃ leaf ∈ structs.leavesOf f, P leaf.ty) ↔
      ∃ leaf ∈ structs.leaves d, P leaf.ty := by
  rw [leaves_eq]
  constructor
  · rintro ⟨f, hf, leaf, hleaf, hp⟩
    exact ⟨leaf, List.mem_flatMap.2 ⟨f, hf, hleaf⟩, hp⟩
  · rintro ⟨leaf, hleaf, hp⟩
    obtain ⟨f, hf, hmem⟩ := List.mem_flatMap.1 hleaf
    exact ⟨f, hf, leaf, hmem, hp⟩

/-- The references of both structs are dropped, or that of the target is left. -/
theorem succeeds_dropReferences {d : Diagnostic} (move : Bool) {top : Nat} (htop : 2 ≤ top) :
    RefusesIff sc d False (if move then popSlots 2 else emitAll [.swap 1, .pop]) 2
      (if move then 0 else 1) top := by
  cases move with
  | true => exact .of_emits not_false (.popSlots 2) rfl (.popSlots 2) htop
  | false => exact .of_code (.emitAll _) rfl htop

/-- A struct in storage or memory is copied unless one of its leaves is a packed fixed-point number.

**Proof sketch.** Induction on the number of the struct, since structs nest earlier ones only.  A copy is
refused where one of its members is (`RefusesIff.forM`), and every member for its own leaves: a value for
itself, a nested struct for those that it has as a struct of its own, an array or a mapping never. -/
theorem refusesIff_storeStruct {d : StructId}
    (hleaves : ∀ leaf ∈ sc.structs.leaves d, leaf.ty.Clearable ∧ leaf.ty.WellNamed)
    {source : DataLocation} (hsource : source ≠ .calldata) (location : DataLocation) (move : Bool) :
    RefusesIff sc (fixedPointDiagnostic sc.site) (∃ leaf ∈ sc.structs.leaves d, leaf.ty.PackedFixedPoint)
      (storeStruct d location (.struct d source) move) 3 (if move then 0 else 1) (2 * d + 16) := by
  induction d using Nat.strongRecOn generalizing move with
  | ind d ih =>
    have hmembers : ∀ f ∈ sc.structs.fields d, RefusesIff sc (fixedPointDiagnostic sc.site)
        (∃ leaf ∈ sc.structs.leavesOf f, leaf.ty.PackedFixedPoint) (copyMember source location f)
        2 2 (2 * d + 16) := by
      intro f hf
      rcases sc.structs.leavesOf_eq f with ⟨d', declared, hty, heq⟩ | ⟨hne, heq⟩
      · obtain ⟨memoryOffset, hmemory⟩ : ∃ memoryOffset, f.memoryOffset = some memoryOffset := by
          have hplace := memoryOffset_isNone hf
          rw [hty] at hplace
          exact Option.isSome_iff_exists.1 (Option.isNone_eq_false_iff.1 hplace)
        have hlt := Nat.succ_le_of_lt (lt_of_mem_fields hf hty)
        have hnested := ih d' hlt
          (fun leaf hleaf => hleaves (leaf.shift f.storage.slot) (shift_mem_leaves hf hty hleaf)) true
        have hcopy := refusesIff_copyMember_struct hty hmemory hsource (by omega) hnested
        refine (hcopy.mono (by omega)).congr ?_
        rw [heq]
        exact exists_shift_iff.symm
      · obtain ⟨hclearable, hnamed⟩ := hleaves _ (mem_leaves_of_ne_struct hf hne)
        have hcopy := refusesIff_copyMember_leaf hf hclearable hnamed hsource location
        exact (hcopy.mono (by omega)).congr (by simp [heq])
    have hpop : RefusesIff sc (fixedPointDiagnostic sc.site) False (emit .pop) 3 2 (2 * d + 16) :=
      .of_code (.emit .pop) rfl (Nat.le_add_left 3 _)
    have hcopies := (RefusesIff.forM hmembers).congr exists_leavesOf_iff
    have hend := hcopies.bind_succeeds (succeeds_dropReferences move (by omega))
    rw [storeStruct_eq d location hsource]
    exact hpop.succeeds_bind (.bind_nil .read hend)

/-- A struct in call data is copied by a routine. -/
theorem succeeds_storeStruct_calldata (diagnostic : Diagnostic) (d : StructId) (location : DataLocation)
    (move : Bool) :
    RefusesIff sc diagnostic False (storeStruct d location (.struct d .calldata) move) 3
      (if move then 0 else 1) 5 := by
  have hpop : RefusesIff sc diagnostic False (emit .pop) 3 2 5 := .of_code (.emit .pop) rfl (by decide)
  have hemits : Emits sc (copyCalldataStruct (.struct d location) (.struct d .calldata))
      [.call (routineName sc.structs "update_storage_value"
        [.struct d .calldata, .struct d location]) 2 0] (.ok ()) := .callRoutine _ _ 2 0
  have hcall : RefusesIff sc diagnostic False
      (copyCalldataStruct (.struct d location) (.struct d .calldata)) 4 2 5 :=
    .of_code hemits rfl (show 4 + 0 ≤ 5 by decide)
  have hend := hcall.succeeds_bind (succeeds_dropReferences move (by decide))
  rw [storeStruct, sourceLocation?_eq_some.2 rfl]
  exact hpop.succeeds_bind (.bind_nil .read (.emitAll_bind rfl (by decide) hend))

/-! ## Clearing -/

/-- How high the stack rises while a value is cleared. -/
theorem risesBy_clearValue (item : StorageItem) : RisesBy sc item.clearValue 3 := by
  unfold clearValue
  refine .bind_encoding fun e _ => ?_
  split
  · exact (RisesBy.emitAll rfl).mono (show 1 ≤ 3 by decide)
  · exact .emitAll rfl

/-- A member that is no struct is cleared, whatever its form. -/
theorem succeeds_clearMember (diagnostic : Diagnostic) {f : Field} (h : f.ty.Clearable)
    (hne : ∀ d declared, f.ty ≠ .struct d declared) (location : DataLocation) :
    RefusesIff sc diagnostic False (clearMember location f) 2 2 7 := by
  have hoperands : ∀ {c : Emit Unit}, RefusesIff sc diagnostic False c 2 0 5 →
      RefusesIff sc diagnostic False (do emitAll (memberOperands f); c) 2 2 7 := fun hc =>
    .emitAll_bind rfl (show 2 + 3 ≤ 7 by decide) (hc.add 2)
  rcases h with hmapping | harray | ⟨⟨e, he⟩, hpos, -⟩
  · rw [clearMember, if_pos hmapping]
    exact .of_emits not_false (.pure ()) rfl (.pure ()) (by decide)
  · have hcall : Emits sc (clearArray (f.ty.located location))
        [.call (routineName sc.structs "clear_storage_array" [f.ty.located location]) 2 0] (.ok ()) :=
      .callRoutine _ _ 2 0
    rw [clearMember_of_ne_struct (Ty.isMapping_of_isArray harray) hne,
      clearFlat_of_isArray (by rw [Ty.isArray_located, harray])]
    exact hoperands (.of_code hcall rfl (show 2 + 0 ≤ 5 by decide))
  · have hvalue := Ty.isValueType_of_encoding?_eq_ok he
    have hitem : (⟨f.ty, .persistent⟩ : StorageItem).ty.encoding? = .ok e := he
    rw [← Ty.bytes_of_encoding?_eq_ok he] at hpos
    obtain ⟨code, hcode, hheight, -⟩ := exists_clearValue sc hitem hpos
    rw [clearMember_of_ne_struct (Ty.isMapping_of_isValueType hvalue) hne,
      Ty.located_of_isValueType hvalue, clearFlat_of_isValueType hvalue]
    exact hoperands (.of_emits not_false hcode hheight (risesBy_clearValue _) (by decide))

/-- A struct is cleared.

**Proof sketch.** Induction on the number of the struct: every member is cleared with operands of its
own, and no access asks for the form of a value. -/
theorem succeeds_clearStruct {d : StructId} (diagnostic : Diagnostic)
    (hleaves : ∀ leaf ∈ sc.structs.leaves d, leaf.ty.Clearable) (location : DataLocation)
    (remove : Bool) :
    RefusesIff sc diagnostic False (clearStruct d location remove) 2 (if remove then 0 else 2)
      (2 * d + 16) := by
  induction d using Nat.strongRecOn generalizing remove with
  | ind d ih =>
    have hmembers : ∀ f ∈ sc.structs.fields d,
        RefusesIff sc diagnostic False (clearMember location f) 2 2 (2 * d + 16) := by
      intro f hf
      rcases sc.structs.leavesOf_eq f with ⟨d', declared, hty, -⟩ | ⟨hne, -⟩
      · have hlt := Nat.succ_le_of_lt (lt_of_mem_fields hf hty)
        have hnested := ih d' hlt
          (fun leaf hleaf => hleaves (leaf.shift f.storage.slot) (shift_mem_leaves hf hty hleaf)) true
        rw [clearMember_of_struct hty]
        exact .emitAll_bind rfl (show 2 + 3 ≤ 2 * d + 16 by omega) ((hnested.add 2).mono (by omega))
      · exact (succeeds_clearMember diagnostic (hleaves _ (mem_leaves_of_ne_struct hf hne)) hne
          location).mono (by omega)
    have hend : RefusesIff sc diagnostic False (if remove then popSlots 2 else pure ()) 2
        (if remove then 0 else 2) (2 * d + 16) := by
      cases remove with
      | true => exact .of_emits not_false (.popSlots 2) rfl (.popSlots 2) (by omega)
      | false => exact .of_emits not_false (.pure ()) rfl (.pure ()) (by omega)
    have hcleared : RefusesIff sc diagnostic False ((sc.structs.fields d).forM (clearMember location))
        2 2 (2 * d + 16) := (RefusesIff.forM hmembers).congr (by simp)
    rw [clearStruct_eq]
    exact .bind_nil .read (hcleared.bind_succeeds hend)

/-! ## Outcomes -/

/-- Assigning to a struct in persistent storage and clearing it, for every struct that can be declared
over value types of one to 32 bytes, arrays and mappings, through all the structs that are nested, on
every stack that has the operands.

As long as the height stays within a counter, an assignment from storage or memory is refused, at the
source of the access, exactly if a member that is reached through nested structs is a fixed-point number
of less than a word or has a name of its own for one, and it succeeds otherwise.  An assignment from call
data and clearing succeed for all of these structs.  On no stack is a slot out of reach.

**Proof sketch.** The members of a struct are copied one after the other (`refusesIff_storeStruct`), each
of them with slots of its own on the stack: a struct takes two more for every struct that it is nested
in.  Nothing of that looks at what lies below. -/
theorem store_struct_outcome {sc : Scope} {d : StructId}
    (hleaves : ∀ leaf ∈ sc.structs.leaves d, leaf.ty.Clearable ∧ leaf.ty.WellNamed)
    (location : DataLocation) (move : Bool) (out : Output) :
    let item : StorageItem := ⟨.struct d location, .persistent⟩
    let stored (source : DataLocation) := ((item.store (.struct d source) move).exec sc out).1
    (3 ≤ out.code.height →
      (∀ source depth span, stored source ≠ .error (.diagnostic (.stackTooDeep depth span))) ∧
      (out.code.height + 2 * d + 16 < countLimit →
        (∀ source ≠ .calldata,
          (stored source = .error (.diagnostic (fixedPointDiagnostic sc.site)) ↔
            ∃ leaf ∈ sc.structs.leaves d, leaf.ty.PackedFixedPoint) ∧
          (stored source = .ok () ↔ ¬∃ leaf ∈ sc.structs.leaves d, leaf.ty.PackedFixedPoint)) ∧
        stored .calldata = .ok ())) ∧
    (2 ≤ out.code.height → out.code.height + 2 * d + 16 < countLimit →
      ∀ remove, ((item.setToZero remove).exec sc out).1 = .ok ()) := by
  intro item stored
  have hstore : ∀ source ≠ .calldata, RefusesIff sc (fixedPointDiagnostic sc.site)
      (∃ leaf ∈ sc.structs.leaves d, leaf.ty.PackedFixedPoint) (item.store (.struct d source) move) 3
      (if move then 0 else 1) (2 * d + 16) := fun source hsource =>
    .bind_nil (.pure ()) (refusesIff_storeStruct hleaves hsource location move)
  have hcalldata : RefusesIff sc (fixedPointDiagnostic sc.site) False
      (item.store (.struct d .calldata) move) 3 (if move then 0 else 1) 5 :=
    .bind_nil (.pure ()) (succeeds_storeStruct_calldata _ d location move)
  have hclear : ∀ remove, RefusesIff sc (fixedPointDiagnostic sc.site) False (item.setToZero remove) 2
      (if remove then 0 else 2) (2 * d + 16) := fun remove =>
    .bind_nil (.pure ()) (succeeds_clearStruct _ (fun leaf hleaf => (hleaves leaf hleaf).1) location
      remove)
  have hother : ∀ depth span, .stackTooDeep depth span ≠ fixedPointDiagnostic sc.site := by
    simp [fixedPointDiagnostic]
  refine ⟨fun hoperands => ⟨fun source depth span => ?_, fun hroom => ⟨fun source hsource => ?_, ?_⟩⟩,
    fun hoperands hroom remove => ?_⟩
  · by_cases hsource : source = .calldata
    · rw [hsource]
      exact hcalldata.exec_fst_ne hoperands (hother depth span)
    · exact (hstore source hsource).exec_fst_ne hoperands (hother depth span)
  · exact (hstore source hsource).exec_fst_eq_iff hoperands (by omega)
  · exact (hcalldata.exec_fst_eq_iff hoperands (by omega)).2.2 not_false
  · exact ((hclear remove).exec_fst_eq_iff hoperands (by omega)).2.2 not_false

/-- A struct with a narrow price in a nested struct is not copied from storage or memory, but from call
data, and it can be cleared.  A struct with a rate of a whole word, and with narrow prices in an array and
in a mapping only, is copied. -/
theorem store_struct_outcome_nested :
    ∃ quotes offers rates : TypeTable,
      TypeTable.declareStruct {} "Quote" [⟨"open", .bool⟩,
        ⟨"price", .named "Price" (.fixedPoint 128 18 true)⟩] = .ok (0, quotes) ∧
      quotes.declareStruct "Offer" [⟨"maker", .address⟩, ⟨"quote", .struct 0 .storage⟩] =
        .ok (1, offers) ∧
      offers.declareStruct "Rates" [⟨"rate", .fixedPoint 256 18 true⟩,
        ⟨"history", .array (.fixedPoint 128 18 true) none .storage⟩,
        ⟨"prices", .mapping .address (.fixedPoint 128 18 true)⟩] = .ok (2, rates) ∧
      let sc : Scope := { structs := rates.structs }
      let out : Output := { code := .ofHeight 3 }
      let offer : StorageItem := ⟨.struct 1 .storage, .persistent⟩
      let rate : StorageItem := ⟨.struct 2 .storage, .persistent⟩
      ((offer.store (.struct 1 .storage) true).exec sc out).1 =
        .error (.diagnostic (fixedPointDiagnostic .dummy)) ∧
      ((offer.store (.struct 1 .memory) true).exec sc out).1 =
        .error (.diagnostic (fixedPointDiagnostic .dummy)) ∧
      ((offer.store (.struct 1 .calldata) true).exec sc out).1 = .ok () ∧
      ((offer.setToZero false).exec sc out).1 = .ok () ∧
      ((rate.store (.struct 2 .memory) false).exec sc out).1 = .ok () := by
  obtain ⟨quotes, offers, rates, hquote, hoffer, hrate, hleaves₁, hleaves₂⟩ :
      ∃ quotes offers rates : TypeTable,
      TypeTable.declareStruct {} "Quote" [⟨"open", .bool⟩,
        ⟨"price", .named "Price" (.fixedPoint 128 18 true)⟩] = .ok (0, quotes) ∧
      quotes.declareStruct "Offer" [⟨"maker", .address⟩, ⟨"quote", .struct 0 .storage⟩] =
        .ok (1, offers) ∧
      offers.declareStruct "Rates" [⟨"rate", .fixedPoint 256 18 true⟩,
        ⟨"history", .array (.fixedPoint 128 18 true) none .storage⟩,
        ⟨"prices", .mapping .address (.fixedPoint 128 18 true)⟩] = .ok (2, rates) ∧
      rates.structs.leaves 1 = [⟨.address, ⟨0, 0⟩⟩, ⟨.bool, ⟨1, 0⟩⟩,
        ⟨.named "Price" (.fixedPoint 128 18 true), ⟨1, 1⟩⟩] ∧
      rates.structs.leaves 2 = [⟨.fixedPoint 256 18 true, ⟨0, 0⟩⟩,
        ⟨.array (.fixedPoint 128 18 true) none .storage, ⟨1, 0⟩⟩,
        ⟨.mapping .address (.fixedPoint 128 18 true), ⟨2, 0⟩⟩] := by
    refine ⟨_, _, _, rfl, rfl, rfl, ?_, ?_⟩
    all_goals simp [leaves_eq, fields, fieldsFrom, leavesOf, decl, Ty.isMapping, Ty.storageBytes,
      Leaf.shift, StorageOffset.zero]
  have hplain : ∀ {ty : Ty} {e : Encoding}, ty.encoding? = .ok e → e.form ≠ .externalFunction →
      ty.HasWidth → ty.Clearable ∧ ty.WellNamed := by
    intro ty e he hform hwidth
    refine ⟨.inr (.inr ⟨⟨e, he⟩, hwidth⟩), fun e' he' hform' => absurd hform' ?_⟩
    rwa [← Except.ok.inj (he.symm.trans he')]
  have hready₁ : ∀ leaf ∈ rates.structs.leaves 1, leaf.ty.Clearable ∧ leaf.ty.WellNamed := by
    rw [hleaves₁]
    simp only [List.forall_mem_cons, List.not_mem_nil, false_implies, implies_true, and_true]
    exact ⟨hplain rfl (by decide) (by decide), hplain rfl (by decide) (by decide),
      hplain rfl (by decide) (by decide)⟩
  have hready₂ : ∀ leaf ∈ rates.structs.leaves 2, leaf.ty.Clearable ∧ leaf.ty.WellNamed := by
    rw [hleaves₂]
    simp only [List.forall_mem_cons, List.not_mem_nil, false_implies, implies_true, and_true]
    exact ⟨hplain rfl (by decide) (by decide), ⟨.inr (.inl rfl), fun e he => by contradiction⟩,
      .inl rfl, fun e he => by contradiction⟩
  obtain ⟨sc, hsc⟩ : ∃ sc : Scope, sc = { structs := rates.structs } := ⟨_, rfl⟩
  obtain ⟨out, hout⟩ : ∃ out : Output, out = { code := .ofHeight 3 } := ⟨_, rfl⟩
  have hheight : out.code.height = 3 := by rw [hout]; rfl
  have hstructs : sc.structs = rates.structs := by rw [hsc]
  have hsite : sc.site = .dummy := by rw [hsc]
  rw [← hstructs] at hready₁ hready₂ hleaves₁ hleaves₂
  have hroom : ∀ d < 3, out.code.height + 2 * d + 16 < countLimit := by
    intro d hd
    have hlimit : countLimit = 0x10000000000000000 := rfl
    omega
  obtain ⟨hoffers, hclear⟩ := store_struct_outcome hready₁ .storage true out
  obtain ⟨hcopies, hcalldata⟩ := (hoffers (Nat.le_of_eq hheight.symm)).2 (hroom 1 (by decide))
  obtain ⟨hrates, -⟩ := store_struct_outcome hready₂ .storage false out
  obtain ⟨hwholes, -⟩ := (hrates (Nat.le_of_eq hheight.symm)).2 (hroom 2 (by decide))
  have hpacked : ∃ leaf ∈ sc.structs.leaves 1, leaf.ty.PackedFixedPoint := by
    rw [hleaves₁]
    decide
  have hwhole : ¬∃ leaf ∈ sc.structs.leaves 2, leaf.ty.PackedFixedPoint := by
    rw [hleaves₂]
    decide
  refine ⟨quotes, offers, rates, hquote, hoffer, hrate, ?_⟩
  rw [← hsc, ← hout, ← hsite]
  exact ⟨(hcopies .storage (by decide)).1.2 hpacked, (hcopies .memory (by decide)).1.2 hpacked, hcalldata,
    hclear (by omega) (hroom 1 (by decide)) false, (hwholes .memory (by decide)).2.2 hwhole⟩

end StorageItem

end WordPlaces
