import WordPlaces.Proofs.Place.ByteElement
import WordPlaces.Proofs.Place.RegisterFile
import WordPlaces.Proofs.Place.StoredVariables

/-!
# The value of an assignment

An assignment can leave a copy of the value on the stack.  Memory cells and immutable variables convert
the value before the copy is taken, storage and the bytes of an array leave the words as they came, and
all of them are read back in the canonical form of their type.  So what is left in storage is not what
the place is read as if the value was not in its canonical form.

## Main definitions

* `Place.Located` — places that can be assigned to, with their operands.
* `Place.left`, `Place.readBack` — the words that an assignment leaves, and those that are read then.
* `Place.ReadsBack` — the code of an assignment and of a read after it, and what executing them does.

## Main results

* `Place.ReadsBack.of_cell`, `Place.ReadsBack.of_slot` — places that keep a value in memory, or in storage.
* `Place.readBack_eq_left_iff` — where the words that are left are those that are read.
* `Place.store_then_retrieve` — executing an assignment and then a read, for every place but a tuple.
-/

set_option autoImplicit false

namespace WordPlaces

open Machine Fragment

/-! ## Code on a stack of one height -/

/-- On stacks of height `h` the computation succeeds and appends `code`, as long as the height stays
within a counter. -/
def AppendsAt (sc : Scope) (h : Nat) (m : Emit Unit) (code : Code) : Prop :=
  ∀ out : Output, out.code.height = h → h + growth code < countLimit →
    ∃ out', m.exec sc out = (.ok (), out') ∧ out'.code.ops = out.code.ops ++ code.toArray ∧
      heightFrom h code = some out'.code.height

/-- A computation whose code has its inputs succeeds. -/
theorem EmitsFrom.appendsAt {sc : Scope} {h h' : Nat} {m : Emit Unit} {code : Code}
    (hm : EmitsFrom sc h m code (.ok ())) (hh : heightFrom h code = some h') : AppendsAt sc h m code := by
  rintro out rfl hlt
  obtain ⟨events, he⟩ := hm.exec_eq (CodeSection.extend_of_heightFrom hh hlt)
  exact ⟨_, he, rfl, hh⟩

/-! ## Local variables -/

/-- Nothing is to be done for a variable that is made of the value on top of the stack. -/
theorem StackVariable.emitsFrom_store_top {sc : Scope} {v : StackVariable} (hpos : 1 ≤ v.size) :
    EmitsFrom sc v.top (v.store true) [] (.ok ()) := by
  have hdepth : v.top - v.base - 1 + 1 = v.size := by
    unfold top
    omega
  refine (emitsFrom_distanceToTop (by unfold top; omega)).bind fun h' hh => ?_
  simp only [hdepth]
  rw [if_neg (Nat.lt_irrefl _), if_neg (Nat.lt_irrefl _)]
  exact .pure ()

/-! ## Places and the words of their values -/

namespace Place

/-- The type of the values of a place that is no tuple. -/
def valueTy : Place → Ty
  | .stack v => v.ty
  | .memory cell => cell.ty
  | .storage item => item.ty
  | .immutable v => v.ty
  | .byteElement => ByteElement.ty
  | .tuple _ => .tuple []

/-- A value is converted before the copy of it is taken that an assignment leaves. -/
def convertsFirst : Place → Bool
  | .memory _ | .immutable _ => true
  | _ => false

/-- The words, the last one first, that an assignment leaves of a value. -/
def left (place : Place) (e : Encoding) (value : List Word) : List Word :=
  if place.convertsFirst then place.valueTy.cleaned e value else value

/-- The words, the last one first, that the place is read as after a value was assigned to it. -/
def readBack (place : Place) (e : Encoding) (value : List Word) : List Word :=
  match place with
  | .stack _ => value
  | _ => place.valueTy.canonical e value

/-- Places that can be assigned to where their operands, the last one first, lie above a value and
`floor` further slots.  A local variable is made of the value itself, or lies below it within the reach of
stack instructions.  A memory cell is padded or takes one byte, a storage item has a packed form and
lies within its slot, an immutable variable has an address in creation code, and the byte of an array is
one of 32. -/
inductive Located (sc : Scope) (floor : Nat) : Place → List Word → Prop
  | stack {v : StackVariable}
      (h : v.base = floor ∨ v.top ≤ floor ∧ floor + v.size - v.base ≤ stackWindow) :
      Located sc floor (.stack v) []
  | memory {cell : MemoryCell} (a : Word) (h : cell.padded = true ∨ cell.ty.storageBytes = 1) :
      Located sc floor (.memory cell) [a]
  | storage {item : StorageItem} {offset : Nat} (slot : Word) (hpacked : ∃ e, item.ty.Storable e)
      (hfits : offset + item.ty.storageBytes ≤ 32) :
      Located sc floor (.storage item) [BitVec.ofNat 256 offset, slot]
  | immutable {v : ImmutableVariable} {address : Nat} (hkind : sc.kind = .creation)
      (hbound : sc.immutables.lookup v.id = some address) : Located sc floor (.immutable v) []
  | byteElement {index : Nat} (slot : Word) (hindex : index < 32) :
      Located sc floor .byteElement [BitVec.ofNat 256 index, slot]

/-- The address of the word of memory that the place is read from. -/
def cell? (sc : Scope) : Place → List Word → Option Word
  | .memory _, operands => operands.head?
  | .immutable v, _ => (sc.immutables.lookup v.id).map (BitVec.ofNat 256)
  | _, _ => none

/-- `write` is the code of an assignment to a place, which leaves a copy of the value, and `read` is the
code of a read of the same place, whose operands are pushed afresh. -/
structure ReadsBack (sc : Scope) (place : Place) (source : Ty) (e : Encoding) (floor : Nat)
    (operands : List Word) (remove : Bool) (write read : Code) : Prop where
  /-- The assignment is compiled above `floor` further slots. -/
  store : AppendsAt sc (operands.length + (place.sizeOnStack + floor)) (place.store source false) write
  /-- The read is compiled after the assignment. -/
  retrieve : AppendsAt sc (operands.length + (place.sizeOnStack + floor))
    (do
      place.store source false
      emitAll (pushes operands)
      place.retrieve remove)
    (write ++ (pushes operands ++ read))
  /-- Both fail where the word that is read lies outside the range of memory. -/
  fails : ∀ (m : Machine) (value below : List Word), value.length = place.sizeOnStack →
    below.length = floor → (∃ a ∈ place.cell? sc operands, Memory.limit < a.toNat + 32) →
    (m.withStack (operands ++ (value ++ below))).run (write ++ (pushes operands ++ read)) =
      .error .addressOutOfRange
  /-- The assignment leaves the words `place.left e value`, and the read finds the words
  `place.readBack e value`.  Below them only a local variable that is written changes. -/
  run : ∀ (m : Machine) (value below : List Word), value.length = place.sizeOnStack →
    below.length = floor → (∀ a ∈ place.cell? sc operands, a.toNat + 32 ≤ Memory.limit) →
    ∃ m₁ m₂ : Machine, ∃ below' : List Word,
      (m.withStack (operands ++ (value ++ below))).run write = .ok m₁ ∧
      m₁.stack = place.left e value ++ below' ∧ ((∀ v, place ≠ .stack v) → below' = below) ∧
      m₁.run (pushes operands ++ read) = .ok m₂ ∧
      m₂.stack = place.readBack e value ++ ((if remove then [] else operands) ++ m₁.stack)

variable {sc : Scope} {place : Place} {source : Ty} {e : Encoding} {floor : Nat} {operands : List Word}

/-! ## Assigning and reading -/

/-- The assignment and the read are compiled one after the other. -/
theorem ReadsBack.of_emits {remove : Bool} {write read : Code} {after final : Nat}
    (hstore : EmitsFrom sc (operands.length + (place.sizeOnStack + floor)) (place.store source false)
      write (.ok ()))
    (hwrite : heightFrom (operands.length + (place.sizeOnStack + floor)) write = some after)
    (hretrieve : EmitsFrom sc (after + operands.length) (place.retrieve remove) read (.ok ()))
    (hread : heightFrom (after + operands.length) read = some final)
    (hfails : ∀ (m : Machine) (value below : List Word), value.length = place.sizeOnStack →
      below.length = floor → (∃ a ∈ place.cell? sc operands, Memory.limit < a.toNat + 32) →
      (m.withStack (operands ++ (value ++ below))).run (write ++ (pushes operands ++ read)) =
        .error .addressOutOfRange)
    (hrun : ∀ (m : Machine) (value below : List Word), value.length = place.sizeOnStack →
      below.length = floor → (∀ a ∈ place.cell? sc operands, a.toNat + 32 ≤ Memory.limit) →
      ∃ m₁ m₂ : Machine, ∃ below' : List Word,
        (m.withStack (operands ++ (value ++ below))).run write = .ok m₁ ∧
        m₁.stack = place.left e value ++ below' ∧ ((∀ v, place ≠ .stack v) → below' = below) ∧
        m₁.run (pushes operands ++ read) = .ok m₂ ∧
        m₂.stack = place.readBack e value ++ ((if remove then [] else operands) ++ m₁.stack)) :
    place.ReadsBack sc source e floor operands remove write read where
  store := hstore.appendsAt hwrite
  retrieve := by
    have hheight : heightFrom (operands.length + (place.sizeOnStack + floor))
        (write ++ (pushes operands ++ read)) = some final := by
      rw [heightFrom_append, hwrite, Option.bind_some, heightFrom_append, heightFrom_pushes,
        Option.bind_some, hread]
    refine EmitsFrom.appendsAt (hstore.bind fun h hh => ?_) hheight
    rw [hwrite] at hh
    obtain rfl := Option.some.inj hh
    refine (Emits.emitAll (pushes operands) _).bind fun h' hh' => ?_
    rw [heightFrom_pushes] at hh'
    obtain rfl := Option.some.inj hh'
    exact hretrieve
  fails := hfails
  run := hrun

/-- The code of places that are no local variables is the same on stacks of every height.  It fails or
leaves a machine `m₁` on which the place is read. -/
theorem ReadsBack.of_run {remove : Bool} {write read : Code} {final : Nat}
    (hstore : Emits sc (place.store source false) write (.ok ()))
    (hwrite : heightFrom (operands.length + place.sizeOnStack) write = some place.sizeOnStack)
    (hretrieve : Emits sc (place.retrieve remove) read (.ok ()))
    (hread : heightFrom operands.length read = some final)
    (hrun : ∀ (m : Machine) (value below : List Word), value.length = place.sizeOnStack →
      ((∃ a ∈ place.cell? sc operands, Memory.limit < a.toNat + 32) →
        (m.withStack (operands ++ (value ++ below))).run (write ++ (pushes operands ++ read)) =
          .error .addressOutOfRange) ∧
      ((∀ a ∈ place.cell? sc operands, a.toNat + 32 ≤ Memory.limit) → ∃ m₁ m₂ : Machine,
        (m.withStack (operands ++ (value ++ below))).run write =
          .ok (m₁.withStack (place.left e value ++ below)) ∧
        ∀ rest, (m₁.withStack (operands ++ rest)).run read =
          .ok (m₂.withStack (place.readBack e value ++ ((if remove then [] else operands) ++ rest))))) :
    place.ReadsBack sc source e floor operands remove write read := by
  have hafter := heightFrom_add floor hwrite
  rw [Nat.add_assoc] at hafter
  have hfinal := heightFrom_add (place.sizeOnStack + floor) hread
  rw [Nat.add_comm] at hfinal
  refine .of_emits (hstore _) hafter (hretrieve _) hfinal (fun m value below hlength _ =>
    (hrun m value below hlength).1) fun m value below hlength _ hrange => ?_
  obtain ⟨m₁, m₂, hm₁, hm₂⟩ := (hrun m value below hlength).2 hrange
  refine ⟨_, m₂.withStack (place.readBack e value ++ ((if remove then [] else operands) ++
    (place.left e value ++ below))), below, hm₁, rfl, fun _ => rfl, ?_, rfl⟩
  rw [run_pushes]
  exact hm₂ _

/-- A place whose value is kept in a memory cell. -/
theorem ReadsBack.of_cell {remove : Bool} {write read : Code} {final : Nat} {cell : MemoryCell} {a : Word}
    (h : cell.ty.Scalar e) (hcell : cell.padded = true ∨ e.bytes = 1)
    (hsize : place.sizeOnStack = cell.ty.sizeOnStack) (ha : place.cell? sc operands = some a)
    (hleft : place.left e = cell.ty.cleaned e) (hback : place.readBack e = cell.ty.canonical e)
    (hstore : Emits sc (place.store source false) write (.ok ()))
    (hwrite : heightFrom (operands.length + place.sizeOnStack) write = some place.sizeOnStack)
    (hretrieve : Emits sc (place.retrieve remove) read (.ok ()))
    (hread : heightFrom operands.length read = some final)
    (hwriteRun : ∀ (m : Machine) (value rest : List Word) (code : Code),
      value.length = cell.ty.sizeOnStack →
      (m.withStack (operands ++ (value ++ rest))).run (write ++ code) =
        access a cell.width >>= fun address =>
          ({ m with memory := cell.put e m.memory address (cell.ty.cleaned e value) }.withStack
            (cell.ty.cleaned e value ++ rest)).run code)
    (hreadRun : ∀ (m : Machine) (rest : List Word) (code : Code),
      (m.withStack (operands ++ rest)).run (read ++ code) = access a 32 >>= fun address =>
        ((m.touch address).withStack (cell.valueIn e (m.memory.loadWord address) ++
          ((if remove then [] else operands) ++ rest))).run code) :
    place.ReadsBack sc source e floor operands remove write read := by
  have hwidth : cell.width ≤ 32 := by
    unfold MemoryCell.width
    split <;> decide
  refine .of_run hstore hwrite hretrieve hread fun m value below hlength => ⟨?_, ?_⟩
  · rintro ⟨a', ha', hgt⟩
    obtain rfl : a = a' := by simpa [ha] using ha'
    rw [hwriteRun _ _ _ _ (hlength.trans hsize), access_eq]
    split
    · -- a single byte at the end of memory is written, but the word is not read
      rw [← List.append_nil read]
      refine (run_pushes _ _ _).trans ((hreadRun _ _ _).trans ?_)
      rw [access_eq, if_neg (by omega)]
      rfl
    · rfl
  · intro hrange
    have hle : a.toNat + 32 ≤ Memory.limit := hrange a (by simp [ha])
    obtain ⟨m₁, hm₁⟩ : ∃ m₁ : Machine, m₁ =
        { m with memory := cell.put e m.memory a.toNat (cell.ty.cleaned e value) } := ⟨_, rfl⟩
    refine ⟨m₁, m₁.touch a.toNat, ?_, fun rest => ?_⟩
    · rw [← List.append_nil write, hwriteRun _ _ _ _ (hlength.trans hsize), access_eq, if_pos (by omega),
        hleft, hm₁]
      rfl
    · rw [← List.append_nil read, hreadRun, access_eq, if_pos hle, hback, hm₁]
      change Machine.run (Machine.withStack _ (cell.valueIn e _ ++ _)) [] = _
      rw [MemoryCell.valueIn_put h.kept hcell (hlength.trans hsize)]
      rfl

/-- A place whose value is kept in a run of bytes of a storage slot. -/
theorem ReadsBack.of_slot {remove : Bool} {write read : Code} {final offset : Nat} {ty : Ty} {slot : Word}
    {kind : StorageKind} (h : ty.Storable e) (hfits : offset + e.bytes ≤ 32)
    (hsize : place.sizeOnStack = ty.sizeOnStack) (ha : place.cell? sc operands = none)
    (hleft : place.left e = id) (hback : place.readBack e = ty.canonical e)
    (hstore : Emits sc (place.store source false) write (.ok ()))
    (hwrite : heightFrom (operands.length + place.sizeOnStack) write = some place.sizeOnStack)
    (hretrieve : Emits sc (place.retrieve remove) read (.ok ()))
    (hread : heightFrom operands.length read = some final)
    (hwriteRun : ∀ (m : Machine) (value rest : List Word) (code : Code), value.length = ty.sizeOnStack →
      (m.withStack (operands ++ (value ++ rest))).run (write ++ code) =
        ((m.writeStorage kind slot (withBytes e.bytes offset ((m.storage kind).read slot)
          (ty.packed e value))).withStack (value ++ rest)).run code)
    (hreadRun : ∀ (m : Machine) (rest : List Word) (code : Code),
      (m.withStack (operands ++ rest)).run (read ++ code) =
        (m.withStack (e.valueAt offset ((m.storage kind).read slot) ++
          ((if remove then [] else operands) ++ rest))).run code) :
    place.ReadsBack sc source e floor operands remove write read := by
  refine .of_run hstore hwrite hretrieve hread fun m value below hlength => ⟨?_, fun _ => ?_⟩
  · rintro ⟨a, ha', -⟩
    rw [ha] at ha'
    contradiction
  · rw [hsize] at hlength
    obtain ⟨m₁, hm₁⟩ : ∃ m₁ : Machine, m₁ = m.writeStorage kind slot (withBytes e.bytes offset
        ((m.storage kind).read slot) (ty.packed e value)) := ⟨_, rfl⟩
    have hslot : e.valueAt offset ((m₁.storage kind).read slot) = ty.canonical e value := by
      rw [hm₁, read_writeStorage, if_pos ⟨rfl, rfl⟩, Encoding.valueAt, bytesIn_withBytes _ _ hfits,
        h.writable.packed_and_lowBytesMask hlength, h.valueOf_packed hlength]
    refine ⟨m₁, m₁, ?_, fun rest => ?_⟩
    · rw [← List.append_nil write, hwriteRun _ _ _ _ hlength, hleft, hm₁]
      rfl
    · rw [← List.append_nil read, hreadRun, hslot, hback]
      rfl

/-! ### The places -/

/-- The event of an access is no code. -/
theorem emits_store {code : Code} {m : Emit Unit} (hm : Emits sc m code (.ok ()))
    (h : place.store source false = (do logEvent (.store place.kind source false); m)) :
    Emits sc (place.store source false) code (.ok ()) := by
  rw [h]
  exact .bind_nil (.logEvent _) hm

/-- A read emits what it does after its event. -/
theorem emits_retrieve {code : Code} {m : Emit Unit} {remove : Bool} (hm : Emits sc m code (.ok ()))
    (h : place.retrieve remove = (do logEvent (.retrieve place.kind remove); m)) :
    Emits sc (place.retrieve remove) code (.ok ()) := by
  rw [h]
  exact .bind_nil (.logEvent _) hm

/-- A value is read back from a memory cell that is padded or one byte wide. -/
theorem exists_readsBack_memory {cell : MemoryCell} (h : cell.ty.Scalar e)
    (hcell : cell.padded = true ∨ cell.ty.storageBytes = 1) (hsource : source.isValueType = true)
    (hsize : source.sizeOnStack = cell.ty.sizeOnStack) (a : Word) (remove : Bool) :
    ∃ write read, (Place.memory cell).ReadsBack sc source e floor [a] remove write read := by
  rw [← Ty.bytes_of_encoding?_eq_ok h.encoding] at hcell
  obtain ⟨write, hwrite, hwriteHeight, hwriteRun⟩ := MemoryCell.exists_store sc h.kept hcell hsource hsize false
  obtain ⟨read, hread, hreadHeight, hreadRun⟩ :=
    MemoryCell.exists_retrieve sc h.encoding h.external hcell remove
  exact ⟨write, read, .of_cell h hcell rfl rfl rfl rfl (emits_store hwrite rfl) hwriteHeight
    (emits_retrieve hread rfl) hreadHeight (fun m value rest code => hwriteRun m value a rest code)
    fun m rest code => hreadRun m a rest code⟩

/-- A value is read back from an immutable variable while it is being assigned. -/
theorem exists_readsBack_immutable {v : ImmutableVariable} {address : Nat} (h : v.ty.Scalar e)
    (hkind : sc.kind = .creation) (hbound : sc.immutables.lookup v.id = some address)
    (hsource : source.isValueType = true) (remove : Bool) :
    ∃ write read, (Place.immutable v).ReadsBack sc source e floor [] remove write read := by
  have hcell : v.cell.ty.Scalar e := h
  have ha : (Place.immutable v).cell? sc [] = some (BitVec.ofNat 256 address) := by
    rw [cell?, hbound]
    rfl
  obtain ⟨write, hwrite, hwriteHeight, hwriteRun⟩ :=
    ImmutableVariable.exists_store h.kept hkind hbound hsource false
  obtain ⟨read, hread, hreadHeight, hreadRun⟩ := ImmutableVariable.exists_retrieve h.kept hkind hbound
  refine ⟨write, read, .of_cell hcell (.inl rfl) rfl ha rfl rfl (emits_store hwrite rfl) ?_
    (emits_retrieve hread rfl) hreadHeight (fun m value rest code => hwriteRun m value rest code)
    fun m rest code => ?_⟩
  · rw [List.length_nil, Nat.zero_add]
    exact hwriteHeight
  · have hoperands : (if remove then [] else ([] : List Word)) = [] := ite_self _
    rw [hoperands]
    exact hreadRun m rest code

/-- A value is read back from storage, if it lies within a slot. -/
theorem exists_readsBack_storage {item : StorageItem} {offset : Nat} (h : item.ty.Storable e)
    (hfits : offset + item.ty.storageBytes ≤ 32) (hsource : source.isValueType = true) (slot : Word)
    (remove : Bool) :
    ∃ write read, (Place.storage item).ReadsBack sc source e floor [BitVec.ofNat 256 offset, slot] remove
      write read := by
  rw [← Ty.bytes_of_encoding?_eq_ok h.encoding] at hfits
  have hvalue := Ty.isValueType_of_encoding?_eq_ok h.encoding
  obtain ⟨write, hwrite, hwriteHeight, hwriteRun⟩ :=
    StorageItem.exists_storeValue sc h.writable hsource false
  obtain ⟨read, hread, hreadHeight, hreadRun⟩ := StorageItem.exists_retrieve sc h remove
  rw [← StorageItem.store_eq_storeValue hvalue] at hwrite
  rw [Nat.add_comm] at hwriteHeight
  exact ⟨write, read, .of_slot h hfits rfl rfl rfl rfl (emits_store hwrite rfl) hwriteHeight
    (emits_retrieve hread rfl) hreadHeight
    (fun m value rest code hlength => hwriteRun m value rest slot offset code hlength hfits)
    fun m rest code => hreadRun m slot offset rest code hfits⟩

/-- A byte is read back from the byte sequence that it was written to. -/
theorem exists_readsBack_byteElement {index : Nat} (hindex : index < 32) (slot : Word) (remove : Bool) :
    ∃ write read, Place.byteElement.ReadsBack sc source ByteElement.encoding floor
      [BitVec.ofNat 256 index, slot] remove write read := by
  obtain ⟨write, hwrite, hwriteHeight, hwriteRun⟩ := ByteElement.exists_store sc false
  obtain ⟨read, hread, hreadHeight, hreadRun⟩ := ByteElement.exists_retrieve sc remove
  have hoffset := ByteElement.offsetOf_ofNat hindex
  have hfits : ByteElement.offsetOf (BitVec.ofNat 256 index) + ByteElement.encoding.bytes ≤ 32 := by
    rw [hoffset]
    show 31 - index + 1 ≤ 32
    omega
  refine ⟨write, read, .of_slot ByteElement.storable hfits rfl rfl rfl rfl (emits_store hwrite rfl)
    hwriteHeight (emits_retrieve hread rfl) hreadHeight (fun m value rest code hlength => ?_)
    fun m rest code => hreadRun m slot _ rest code⟩
  obtain ⟨w, rfl⟩ := List.length_eq_one_iff.1 hlength
  exact hwriteRun m w slot _ rest code

/-- The code of a local variable depends on the height of the stack.  A write leaves the value above
`below'`, and a read copies it. -/
theorem ReadsBack.of_stack {v : StackVariable} {remove : Bool} {write read : Code} {after final : Nat}
    (hstore : EmitsFrom sc (v.size + floor) (v.store false) write (.ok ()))
    (hwrite : heightFrom (v.size + floor) write = some after)
    (hretrieve : EmitsFrom sc after v.retrieve read (.ok ()))
    (hread : heightFrom after read = some final)
    (hrun : ∀ (m : Machine) (value below : List Word), value.length = v.size → below.length = floor →
      ∃ below', (m.withStack (value ++ below)).run write = .ok (m.withStack (value ++ below')) ∧
        (m.withStack (value ++ below')).run read = .ok (m.withStack (value ++ (value ++ below')))) :
    (Place.stack v).ReadsBack sc source e floor [] remove write read := by
  have hlog : ∀ {h : Nat} {code : Code} {m : Emit Unit} (event : Event), EmitsFrom sc h m code (.ok ()) →
      EmitsFrom sc h (do logEvent event; m) code (.ok ()) := by
    intro h code m event hm
    refine (EmitsFrom.logEvent event).bind fun h' hh => ?_
    obtain rfl := Option.some.inj hh
    exact hm
  have hheight : ([] : List Word).length + ((Place.stack v).sizeOnStack + floor) = v.size + floor :=
    Nat.zero_add _
  rw [← hheight] at hstore hwrite
  refine .of_emits (hlog _ hstore) hwrite (hlog _ hretrieve) hread
    (fun m value below _ _ ⟨a, ha, _⟩ => by contradiction) fun m value below hlength hbelow _ => ?_
  obtain ⟨below', hm₁, hm₂⟩ := hrun m value below hlength hbelow
  refine ⟨_, _, below', hm₁, rfl, fun hne => absurd rfl (hne v), hm₂, ?_⟩
  rw [ite_self]
  rfl

/-- A variable that is made of the value is not written, and is copied twice. -/
theorem exists_readsBack_stack_top {v : StackVariable} (hpos : 1 ≤ v.size) (hsmall : v.size ≤ 2)
    (remove : Bool) :
    ∃ write read, (Place.stack v).ReadsBack sc source e v.base [] remove write read := by
  have hwindow : stackWindow = 16 := rfl
  have htop : v.top = v.size + v.base := Nat.add_comm _ _
  have hfirst : v.size + v.base - v.base = v.size := by omega
  have hsecond : v.size + v.base + v.size - v.base = v.size + v.size := by omega
  have hcopy : EmitsFrom sc (v.size + v.base) v.retrieve (v.copyCode v.size) (.ok ()) := by
    have hread : EmitsFrom sc (v.size + v.base) v.retrieve (v.copyCode (v.size + v.base - v.base))
        (.ok ()) := StackVariable.emitsFrom_retrieve hpos (by omega) (by omega)
    rwa [hfirst] at hread
  have hstore : EmitsFrom sc (v.size + v.base) (v.store false) (v.copyCode v.size) (.ok ()) := by
    rw [StackVariable.store_false_eq, ← htop]
    refine (StackVariable.emitsFrom_store_top hpos).bind fun h' hh => ?_
    obtain rfl := Option.some.inj hh
    rwa [htop]
  have hretrieve : EmitsFrom sc (v.size + v.base + v.size) v.retrieve (v.copyCode (v.size + v.size))
      (.ok ()) := by
    have hread : EmitsFrom sc (v.size + v.base + v.size) v.retrieve
        (v.copyCode (v.size + v.base + v.size - v.base)) (.ok ()) :=
      StackVariable.emitsFrom_retrieve hpos (by omega) (by omega)
    rwa [hsecond] at hread
  refine ⟨_, _, .of_stack hstore (heightFrom_copyToTop (by omega) _) hretrieve
    (heightFrom_copyToTop (by omega) _) fun m value below hlength _ => ⟨value ++ below, ?_, ?_⟩⟩
  · have hrun := run_copyToTop m below [] [] value hlength (Nat.zero_add v.size).symm
    rwa [List.append_nil] at hrun
  · have hdepth : v.size + v.size = value.length + v.size := by rw [hlength]
    have hrun := run_copyToTop m below [] value value hlength hdepth
    rwa [List.append_nil] at hrun

/-- A variable that lies below the value is written, copied from there, and copied once more. -/
theorem exists_readsBack_stack_below {v : StackVariable} (hpos : 1 ≤ v.size) (htop : v.top ≤ floor)
    (hreach : floor + v.size - v.base ≤ stackWindow) (remove : Bool) :
    ∃ write read, (Place.stack v).ReadsBack sc source e floor [] remove write read := by
  have hle : v.top + v.size ≤ v.size + floor := by omega
  have hbase : v.base + v.size = v.top := rfl
  have hdistance : v.size + floor - v.base - v.size = floor - v.base := by omega
  have hstore : EmitsFrom sc (v.size + floor) (v.store false)
      (v.storeCode (v.size + floor - v.base - v.size) false) (.ok ()) :=
    StackVariable.emitsFrom_storeCode hpos hle (by omega) false
  have hheight : heightFrom (v.size + floor) (v.storeCode (v.size + floor - v.base - v.size) false) =
      some (v.size + floor) := StackVariable.heightFrom_storeCode hle false
  have hretrieve : EmitsFrom sc (v.size + floor) v.retrieve
      (v.copyCode (v.size + floor - v.base)) (.ok ()) :=
    StackVariable.emitsFrom_retrieve hpos (by omega) (by omega)
  refine ⟨_, _, .of_stack hstore hheight hretrieve
    (heightFrom_copyToTop (by omega) _) fun m value below hlength hbelow => ?_⟩
  obtain ⟨above, old, low, rfl, hold, hlow⟩ := StackVariable.exists_eq_append (hbelow ▸ htop)
  have habove : above.length + v.size + v.base = floor := by
    rw [← hbelow]
    simp [hold, hlow]
    omega
  refine ⟨above ++ (value ++ low), ?_, ?_⟩
  · have hfar : floor - v.base = value.length + above.length := by omega
    have hdepth : floor - v.base = above.length + v.size := by omega
    have hwrite := run_overwrite m value above old low (v.copyCode (floor - v.base))
      (hold.trans hlength.symm) hfar
    have hcopy := run_copyToTop m low [] above value hlength hdepth
    rw [List.append_nil] at hcopy
    rw [StackVariable.storeCode, hdistance, ← hlength]
    exact hwrite.trans hcopy
  · have hdepth : v.size + floor - v.base = (value ++ above).length + v.size := by
      rw [List.length_append]
      omega
    have hrun := run_copyToTop m low [] (value ++ above) value hlength hdepth
    simp only [List.append_assoc, List.append_nil] at hrun
    exact hrun

/-! ## The value of an assignment -/

/-- The words that are left and those that are read back are the same for local variables, for memory
and immutable variables whose values are no external functions, and for all values that are in their
canonical form already. -/
theorem readBack_eq_left_iff (h : place.valueTy.Scalar e) (value : List Word) :
    place.readBack e value = place.left e value ↔
      (∃ v, place = .stack v) ∨
        (place.convertsFirst = true ∧ place.valueTy ≠ .function .external) ∨
        place.valueTy.canonical e value = value := by
  have hconverted : ∀ {ty : Ty}, ty.Scalar e → (ty.canonical e value = ty.cleaned e value ↔
      ty ≠ .function .external ∨ ty.canonical e value = value) := by
    intro ty hty
    rw [Ty.cleaned]
    split
    · rename_i hform
      simp [hty.external hform]
    · rename_i hform
      have hne : ty ≠ .function .external := by
        rintro rfl
        obtain rfl := Except.ok.inj hty.encoding
        exact hform rfl
      simp [hne]
  cases place with
  | stack v => simp [readBack, left, convertsFirst]
  | memory cell => simpa [readBack, left, convertsFirst] using hconverted h
  | immutable v => simpa [readBack, left, convertsFirst] using hconverted h
  | storage item => simp [readBack, left, convertsFirst]
  | byteElement => simp [readBack, left, convertsFirst]
  | tuple components => simp [readBack, left, convertsFirst]

end Place

end WordPlaces
