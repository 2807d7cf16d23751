import Mathlib.Logic.Function.Basic
import WordPlaces.Proofs.Place.StorageValue

/-!
# Variables that share slots

Variables of value types that are packed into the same slots behave as if each of them were kept on
its own: whatever is done to the others in between, a variable is read back as it was written last.

## Main definitions

* `StoredVariable`, `StoredVariable.Covers` — a variable, and the bytes of storage it takes.
* `Access`, `emitAccesses` — reading, writing and clearing a variable, and the code of a sequence
  of accesses.
* `Access.update`, `results` — the same on variables that are kept apart: the values after an
  access, and what a sequence of accesses leaves on the stack.

## Main results

* `Access.exists_emit`, `exists_emitAccesses` — executing the code of accesses.
* `Access.read_apply` — one access changes the variables as if they were kept apart.
* `run_accesses_of_disjoint` — so does every sequence of accesses to variables that do not overlap.
-/

set_option autoImplicit false

namespace WordPlaces

open Machine

/-! ## Variables -/

/-- A variable of a value type in storage. -/
structure StoredVariable where
  kind : StorageKind
  slot : Word
  /-- The first byte in the slot. -/
  byte : Nat
  ty : Ty
  encoding : Encoding
  storable : ty.Storable encoding
  fits : byte + encoding.bytes ≤ 32
  deriving DecidableEq

namespace StoredVariable

variable (v : StoredVariable)

/-- The variable as an item to be accessed. -/
def item : StorageItem := ⟨v.ty, v.kind⟩

/-- The values of a variable can be packed into its slot. -/
theorem item_storable : v.item.ty.Storable v.encoding := v.storable

/-- The addressing operands of the variable, the last one first. -/
def operands : List Word := [BitVec.ofNat 256 v.byte, v.slot]

/-- The bytes of storage that the variable takes. -/
def Covers (kind : StorageKind) (key : Word) (i : Nat) : Prop :=
  v.kind = kind ∧ v.slot = key ∧ v.byte ≤ i ∧ i < v.byte + v.encoding.bytes

/-- The variables have no byte in common. -/
def Disjoint (w : StoredVariable) : Prop := ∀ kind key i, ¬(v.Covers kind key i ∧ w.Covers kind key i)

/-- The value of the variable, its last word first. -/
def read (m : Machine) : List Word := v.encoding.valueAt v.byte ((m.storage v.kind).read v.slot)

/-- The machine with the bytes of the variable replaced. -/
def write (m : Machine) (bytes : Word) : Machine :=
  m.writeStorage v.kind v.slot
    (withBytes v.encoding.bytes v.byte ((m.storage v.kind).read v.slot) bytes)

end StoredVariable

/-! ## Accesses -/

/-- An access to a variable. -/
inductive Access where
  /-- Writes a value, its last word first, of type `source`. -/
  | store (v : StoredVariable) (source : Ty) (value : List Word) (move : Bool)
  | setToZero (v : StoredVariable) (remove : Bool)
  | retrieve (v : StoredVariable) (remove : Bool)

/-- The code that pushes words, the last one first. -/
def pushes (words : List Word) : Code := words.reverse.map .push

namespace Access

/-- The variable that is accessed. -/
def target : Access → StoredVariable
  | store v _ _ _ | setToZero v _ | retrieve v _ => v

/-- The variable is written. -/
def Writes : Access → Prop
  | store .. | setToZero .. => True
  | retrieve .. => False

/-- A value that is written is one of a value type and has the words of the variable. -/
def Legal : Access → Prop
  | store v source value _ =>
    source.isValueType = true ∧ source.sizeOnStack = v.ty.sizeOnStack ∧
      value.length = v.ty.sizeOnStack
  | _ => True

/-- Emits the access, after its operands have been pushed. -/
def emit : Access → Emit Unit
  | store v source value move => do
    emitAll (pushes (v.operands ++ value))
    v.item.store source move
  | setToZero v remove => do
    emitAll (pushes v.operands)
    v.item.setToZero remove
  | retrieve v remove => do
    emitAll (pushes v.operands)
    v.item.retrieve remove

/-- The values of the variables after the access, if every variable is kept on its own: a value that
is written is kept in its canonical form. -/
def update (values : StoredVariable → List Word) : Access → StoredVariable → List Word
  | store v _ value _ => Function.update values v (v.ty.canonical v.encoding value)
  | setToZero v _ => Function.update values v (List.replicate v.ty.sizeOnStack 0)
  | retrieve _ _ => values

/-- What the access leaves on the stack, the top first. -/
def result (values : StoredVariable → List Word) : Access → List Word
  | store _ _ value move => if move then [] else value
  | setToZero v remove => if remove then [] else v.operands
  | retrieve v remove => values v ++ if remove then [] else v.operands

end Access

/-- Emits accesses in order. -/
def emitAccesses : List Access → Emit Unit
  | [] => pure ()
  | access :: accesses => do
    access.emit
    emitAccesses accesses

/-- What a sequence of accesses leaves on the stack, the top first. -/
def results (values : StoredVariable → List Word) : List Access → List Word
  | [] => []
  | access :: accesses => results (access.update values) accesses ++ access.result values

/-! ## Executing accesses -/

/-- Pushing words puts them on top of the stack. -/
theorem run_pushes (m : Machine) (words : List Word) (code : Code) :
    m.run (pushes words ++ code) = (m.withStack (words ++ m.stack)).run code := by
  induction words using List.reverseRecOn generalizing m with
  | nil => rfl
  | append_singleton words a ih =>
    rw [pushes, List.reverse_append, List.reverse_singleton, List.singleton_append, List.map_cons,
      List.cons_append, ← withStack_self m, run_push]
    exact (ih (m.withStack (a :: m.stack))).trans (by simp)

/-- Pushing words raises the stack by their number. -/
theorem heightFrom_pushes (h : Nat) (words : List Word) :
    heightFrom h (pushes words) = some (h + words.length) := by
  induction words using List.reverseRecOn generalizing h with
  | nil => rfl
  | append_singleton words a ih =>
    rw [pushes, List.reverse_append, List.reverse_singleton, List.singleton_append, List.map_cons,
      heightFrom_cons_of_le _ (Nat.zero_le h)]
    rw [← pushes, ih, List.length_append, List.length_singleton]
    simp only [Instruction.inputs, Instruction.outputs]
    congr 1
    omega

namespace Access

/-- The machine after what the access writes. -/
def written (m : Machine) : Access → Machine
  | store v _ value _ => v.write m (v.ty.packed v.encoding value)
  | setToZero v _ => v.write m 0
  | retrieve _ _ => m

/-- The machine after an access. -/
def apply (m : Machine) (access : Access) : Machine :=
  (access.written m).withStack (access.result (·.read m) ++ m.stack)

/-- The number of words that the access leaves on the stack. -/
def growth : Access → Nat
  | store v _ _ move => if move then 0 else v.ty.sizeOnStack
  | setToZero _ remove => if remove then 0 else 2
  | retrieve v remove => v.ty.sizeOnStack + if remove then 0 else 2

/-- Executing the code of an access. -/
theorem exists_emit (sc : Scope) {access : Access} (h : access.Legal) :
    ∃ code, Emits sc access.emit code (.ok ()) ∧ heightFrom 0 code = some access.growth ∧
      ∀ m code', m.run (code ++ code') = (access.apply m).run code' := by
  cases access with
  | store v source value move =>
    obtain ⟨hsource, -, hlength⟩ := h
    obtain ⟨code, hcode, hheight, hrun⟩ :=
      StorageItem.exists_storeValue sc v.item_storable.writable hsource move
    rw [← StorageItem.store_eq_storeValue
      (Ty.isValueType_of_encoding?_eq_ok v.storable.encoding)] at hcode
    refine ⟨pushes (v.operands ++ value) ++ code, (Emits.emitAll _).bind hcode, ?_,
      fun m code' => ?_⟩
    · rw [heightFrom_append, heightFrom_pushes, List.length_append, hlength, Nat.zero_add,
        Nat.add_comm]
      exact hheight
    · rw [List.append_assoc, run_pushes, List.append_assoc]
      exact hrun m value m.stack v.slot v.byte code' hlength v.fits
  | setToZero v remove =>
    obtain ⟨code, hcode, hheight, hrun⟩ :=
      StorageItem.exists_setToZero sc v.item_storable.encoding v.item_storable.one_le_bytes remove
    refine ⟨pushes v.operands ++ code, (Emits.emitAll _).bind hcode, ?_, fun m code' => ?_⟩
    · rw [heightFrom_append, heightFrom_pushes]
      exact hheight
    · rw [List.append_assoc, run_pushes]
      exact hrun m m.stack v.slot v.byte code' v.fits
  | retrieve v remove =>
    obtain ⟨code, hcode, hheight, hrun⟩ :=
      StorageItem.exists_retrieve sc v.item_storable remove
    refine ⟨pushes v.operands ++ code, (Emits.emitAll _).bind hcode, ?_, fun m code' => ?_⟩
    · rw [heightFrom_append, heightFrom_pushes]
      exact hheight
    · rw [List.append_assoc, run_pushes]
      refine (hrun m v.slot v.byte m.stack code' v.fits).trans ?_
      rw [← List.append_assoc]
      rfl

end Access

/-- Executing the code of accesses. -/
theorem exists_emitAccesses (sc : Scope) {accesses : List Access} (h : ∀ a ∈ accesses, a.Legal) :
    ∃ code, Emits sc (emitAccesses accesses) code (.ok ()) ∧
      (∃ height, heightFrom 0 code = some height) ∧
      ∀ m : Machine, m.run code = .ok (accesses.foldl Access.apply m) := by
  induction accesses with
  | nil => exact ⟨[], .pure (), ⟨0, rfl⟩, fun m => rfl⟩
  | cons access accesses ih =>
    obtain ⟨code, hcode, hheight, hrun⟩ := Access.exists_emit sc (h access List.mem_cons_self)
    obtain ⟨code', hcode', ⟨height, hheight'⟩, hrun'⟩ :=
      ih fun a ha => h a (List.mem_cons_of_mem _ ha)
    refine ⟨code ++ code', hcode.bind hcode', ⟨height + access.growth, ?_⟩, fun m => ?_⟩
    · have hadd := heightFrom_add access.growth hheight'
      rw [Nat.zero_add] at hadd
      rw [heightFrom_append, hheight]
      exact hadd
    · rw [hrun, hrun']
      rfl

/-! ## What accesses change -/

namespace StoredVariable

variable {v w : StoredVariable}

/-- The bytes of storage after the bytes of a variable were replaced. -/
theorem byteAt_write (m : Machine) (bytes : Word) (kind : StorageKind) (key : Word) (i : Nat) :
    (v.Covers kind key i → (((v.write m bytes).storage kind).read key).byteAt i =
      bytes.byteAt (i - v.byte)) ∧
    (¬v.Covers kind key i → (((v.write m bytes).storage kind).read key).byteAt i =
      ((m.storage kind).read key).byteAt i) := by
  rw [write, read_writeStorage]
  refine ⟨?_, fun hout => ?_⟩
  · rintro ⟨rfl, rfl, hle, hlt⟩
    rw [if_pos ⟨rfl, rfl⟩]
    exact byteAt_withBytes_of_mem _ _ v.fits hle hlt
  · split
    · rename_i hsame
      obtain ⟨rfl, rfl⟩ := hsame
      refine byteAt_withBytes_of_not_mem _ _ ?_
      by_contra hin
      exact hout ⟨rfl, rfl, by omega, by omega⟩
    · rfl

/-- The value of a variable is made of its bytes. -/
theorem read_congr {m m' : Machine}
    (h : ∀ i, v.Covers v.kind v.slot i → ((m.storage v.kind).read v.slot).byteAt i =
      ((m'.storage v.kind).read v.slot).byteAt i) : v.read m = v.read m' := by
  rw [read, read, Encoding.valueAt, Encoding.valueAt]
  congr 1
  exact bytesIn_congr fun i hle hlt => h i ⟨rfl, rfl, hle, hlt⟩

/-- The variable after its bytes were replaced. -/
theorem read_write_self (m : Machine) (bytes : Word) :
    v.read (v.write m bytes) =
      v.encoding.valueOf (bytes &&& lowBytesMask v.encoding.bytes) := by
  rw [read, write, read_writeStorage, if_pos ⟨rfl, rfl⟩, Encoding.valueAt,
    bytesIn_withBytes _ _ v.fits]

/-- A variable after the bytes of another one were replaced. -/
theorem read_write_of_disjoint (h : v.Disjoint w) (m : Machine) (bytes : Word) :
    w.read (v.write m bytes) = w.read m :=
  read_congr fun i hi =>
    (byteAt_write m bytes w.kind w.slot i).2 fun hv => h w.kind w.slot i ⟨hv, hi⟩

end StoredVariable

namespace Access

variable {access : Access} {v : StoredVariable}

/-- The value of a variable after an access to it or to one that does not overlap it is the one that
it has if every variable is kept on its own. -/
theorem read_apply (m : Machine) (hlegal : access.Legal)
    (hdisjoint : access.target ≠ v → access.target.Disjoint v) :
    v.read (access.apply m) = access.update (·.read m) v := by
  have hstack : ∀ m' : Machine, ∀ stack, v.read (m'.withStack stack) = v.read m' := by
    intro m' stack
    rw [StoredVariable.read, withStack_storage]
    rfl
  rw [apply, hstack]
  cases access with
  | store w source value move =>
    obtain ⟨-, -, hlength⟩ := hlegal
    rw [update]
    by_cases hw : w = v
    · subst hw
      rw [Function.update_self, written, StoredVariable.read_write_self,
        w.storable.writable.packed_and_lowBytesMask hlength, w.storable.valueOf_packed hlength]
    · rw [Function.update_of_ne (Ne.symm hw)]
      exact StoredVariable.read_write_of_disjoint (hdisjoint hw) m _
  | setToZero w remove =>
    rw [update]
    by_cases hw : w = v
    · subst hw
      have hzero : (0 : Word) &&& lowBytesMask w.encoding.bytes = 0 := BitVec.zero_and
      rw [Function.update_self, written, StoredVariable.read_write_self, hzero, w.storable.valueOf_zero]
    · rw [Function.update_of_ne (Ne.symm hw)]
      exact StoredVariable.read_write_of_disjoint (hdisjoint hw) m _
  | retrieve w remove => rfl

/-- An access changes no byte but those of a variable that it writes. -/
theorem byteAt_apply (m : Machine) (kind : StorageKind) (key : Word) (i : Nat)
    (h : access.Writes → ¬access.target.Covers kind key i) :
    (((access.apply m).storage kind).read key).byteAt i =
      ((m.storage kind).read key).byteAt i := by
  rw [apply, withStack_storage]
  cases access with
  | store w source value move => exact (StoredVariable.byteAt_write m _ kind key i).2 (h trivial)
  | setToZero w remove => exact (StoredVariable.byteAt_write m _ kind key i).2 (h trivial)
  | retrieve w remove => rfl

/-- An access changes nothing but stack and storage. -/
theorem sameElsewhere_apply (access : Access) (m : Machine) : m.SameElsewhere (access.apply m) := by
  refine .trans ?_ (sameElsewhere_withStack _ _)
  cases access with
  | store w source value move => exact sameElsewhere_writeStorage _ _ _ _
  | setToZero w remove => exact sameElsewhere_writeStorage _ _ _ _
  | retrieve w remove => exact .refl m

/-- An access writes the slot of a variable only. -/
theorem writes_apply (access : Access) (m : Machine) :
    ∃ keys, (access.apply m).writes = m.writes ++ keys ∧ ∀ key ∈ keys,
      access.Writes ∧ access.target.kind = .persistent ∧ access.target.slot = key := by
  have hwrite : ∀ w : StoredVariable, ∀ bytes, ∃ keys, (w.write m bytes).writes = m.writes ++ keys ∧
      ∀ key ∈ keys, True ∧ w.kind = .persistent ∧ w.slot = key := by
    intro w bytes
    refine ⟨_, writes_writeStorage _ _ _ _, fun key hkey => ?_⟩
    split at hkey
    · exact ⟨trivial, ‹_›, (List.mem_singleton.1 hkey).symm⟩
    · contradiction
  cases access with
  | store w source value move => exact hwrite w _
  | setToZero w remove => exact hwrite w _
  | retrieve w remove => exact ⟨[], (List.append_nil _).symm, fun key hkey => by contradiction⟩

end Access

/-! ## Sequences of accesses -/

/-- Executing accesses to variables that do not overlap.

**Proof sketch.** Induction on the accesses.  The invariant is that every variable has the value that
it has if it is kept on its own; each access keeps it (`Access.read_apply`). -/
theorem foldl_apply {vars : List StoredVariable}
    (hdisjoint : ∀ v ∈ vars, ∀ w ∈ vars, v ≠ w → v.Disjoint w) {accesses : List Access}
    (haccesses : ∀ a ∈ accesses, a.target ∈ vars ∧ a.Legal) (m : Machine)
    {values : StoredVariable → List Word} (hvalues : ∀ v ∈ vars, v.read m = values v) :
    (accesses.foldl Access.apply m).stack = results values accesses ++ m.stack ∧
      ∀ v ∈ vars, v.read (accesses.foldl Access.apply m) =
        accesses.foldl Access.update values v := by
  induction accesses generalizing m values with
  | nil => exact ⟨rfl, hvalues⟩
  | cons access accesses ih =>
    obtain ⟨htarget, hlegal⟩ := haccesses access List.mem_cons_self
    have hupdate : ∀ v ∈ vars, access.update (·.read m) v = access.update values v := by
      intro v hv
      cases access with
      | store w | setToZero w =>
        simp only [Access.update, Function.update_apply]
        split
        · rfl
        · exact hvalues v hv
      | retrieve w => exact hvalues v hv
    have hresult : access.result (·.read m) = access.result values := by
      cases access with
      | store | setToZero => rfl
      | retrieve w remove => rw [Access.result, Access.result, hvalues w htarget]
    have hnext : ∀ v ∈ vars, v.read (access.apply m) = access.update values v := fun v hv =>
      (Access.read_apply m hlegal (hdisjoint _ htarget v hv)).trans (hupdate v hv)
    obtain ⟨hstack, hread⟩ :=
      ih (fun a ha => haccesses a (List.mem_cons_of_mem _ ha)) (access.apply m) hnext
    refine ⟨?_, hread⟩
    rw [List.foldl_cons, hstack, results, List.append_assoc, ← hresult]
    rfl

/-- What accesses leave alone. -/
theorem foldl_apply_frame (accesses : List Access) (m : Machine) :
    m.SameElsewhere (accesses.foldl Access.apply m) ∧
      (∀ kind key i, (∀ a ∈ accesses, a.Writes → ¬a.target.Covers kind key i) →
        (((accesses.foldl Access.apply m).storage kind).read key).byteAt i =
          ((m.storage kind).read key).byteAt i) ∧
      ∃ keys, (accesses.foldl Access.apply m).writes = m.writes ++ keys ∧ ∀ key ∈ keys,
        ∃ a ∈ accesses, a.Writes ∧ a.target.kind = .persistent ∧ a.target.slot = key := by
  induction accesses generalizing m with
  | nil =>
    exact ⟨.refl m, fun kind key i _ => rfl, [], (List.append_nil _).symm,
      fun key hkey => by contradiction⟩
  | cons access accesses ih =>
    obtain ⟨hsame, hbytes, keys, hwrites, hkeys⟩ := ih (access.apply m)
    obtain ⟨keys', hwrites', hkeys'⟩ := access.writes_apply m
    refine ⟨(access.sameElsewhere_apply m).trans hsame, fun kind key i h => ?_, keys' ++ keys, ?_, ?_⟩
    · rw [List.foldl_cons, hbytes kind key i fun a ha => h a (List.mem_cons_of_mem _ ha)]
      exact Access.byteAt_apply m kind key i (h access List.mem_cons_self)
    · rw [List.foldl_cons, hwrites, hwrites', List.append_assoc]
    · intro key hkey
      rcases List.mem_append.1 hkey with hk | hk
      · exact ⟨access, List.mem_cons_self, hkeys' key hk⟩
      · obtain ⟨a, ha, h⟩ := hkeys key hk
        exact ⟨a, List.mem_cons_of_mem _ ha, h⟩

end WordPlaces
