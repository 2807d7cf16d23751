import WordPlaces.Proofs.Machine.Frame
import WordPlaces.Proofs.Place.LocalVariable
import WordPlaces.Proofs.Place.StoreTakes

/-!
# Assignments and what lies between

When a component of a tuple is assigned, other values and operands lie between its own ones and the
local variables of the program.  An assignment is not affected by them: it does to the machine what it
does on its own, where the value and the operands lie right above the local variables.

## Main definitions

* `Place.storeAlone` — executing the store of a place on its own.
* `Place.assign` — the same for tuples, as assignments of the components from the last to the first.
* `Place.Accepts` — the types that a place is assigned from.
* `Place.Compiles` — the stores that an assignment consists of are compiled on their own.
* `Place.Changes` — the slots of the local variables that an assignment changes.
* `Place.Performs` — code that does what the assignment does.
* `Place.Assigns` — a store that is compiled performs the assignment.

## Main results

* `Place.assigns_of_takes`, `Place.assigns_stack` — the stores of all places but tuples.
-/

set_option autoImplicit false

namespace WordPlaces

/-! ## Assignments on their own -/

/-- The machine with further words on top of its stack. -/
def Machine.topped (m : Machine) (above : List Word) : Machine := m.withStack (above ++ m.stack)

/-- The code that a computation emits into an empty section on a stack of height `h`. -/
def Emit.codeAt (c : Emit Unit) (sc : Scope) (h : Nat) : Code :=
  (c.exec sc { code := .ofHeight h }).2.code.ops.toList

namespace Place

/-- Executes the store of a place on its own, with its operands and the value on top of the stack. -/
def storeAlone (sc : Scope) (place : Place) (source : Ty) (arguments : List Word) (m : Machine) :
    Except MachineFault Machine :=
  (m.topped arguments).run
    ((place.store source true).codeAt sc (arguments.length + m.stack.length))

/-- Executes the stores of all components of a tuple on their own, from the last component to the
first.  The operands and the values of later components lie above those of earlier ones. -/
def assign (sc : Scope) : Place → Ty → List Word → List Word → Machine →
    Except MachineFault Machine
  | .tuple components, .tuple types, operands, values, m =>
    assignComponents components types operands values m
  | place, source, operands, value, m => place.storeAlone sc source (operands ++ value) m
where
  /-- Assigns the components from the last to the first. -/
  assignComponents : List (Option Place) → List Ty → List Word → List Word → Machine →
      Except MachineFault Machine
  | component :: components, ty :: types, operands, values, m => do
    let later ← assignComponents components types (operands.take (referenceSize.sizes components))
      (values.take (Ty.sizeOnStack.sizes types)) m
    match component with
    | none => .ok later
    | some place =>
      assign sc place ty (operands.drop (referenceSize.sizes components))
        (values.drop (Ty.sizeOnStack.sizes types)) later
  | _, _, _, _, m => .ok m

/-- The values that a place is assigned from take as many slots as its own ones, component by
component for tuples.  Local variables lie in the lowest `base` slots of the stack.  The other places
are not themselves of the type of external functions under another name, of which more words are written
than a value takes; a struct may have members of such types. -/
def Accepts (base : Nat) : Place → Ty → Prop
  | .stack v, source => v.base < base ∧ v.base + v.size ≤ base ∧ source.sizeOnStack = v.size
  | .memory cell, source => cell.WritesOwnWords ∧ source.sizeOnStack = cell.ty.sizeOnStack
  | .storage item, source => item.ty.WellNamed ∧ source.sizeOnStack = item.ty.sizeOnStack
  | .immutable v, source => v.ty.WellNamed ∧ source.sizeOnStack = v.ty.sizeOnStack
  | .byteElement, source => source.sizeOnStack = ByteElement.ty.sizeOnStack
  | .tuple components, .tuple types => acceptsComponents components types
  | .tuple _, _ => False
where
  /-- Every component that is present accepts its type. -/
  acceptsComponents : List (Option Place) → List Ty → Prop
  | [], [] => True
  | none :: components, _ :: types => acceptsComponents components types
  | some place :: components, ty :: types =>
    Accepts base place ty ∧ acceptsComponents components types
  | _, _ => False

/-- The store of the place is compiled where its operands and the value lie right above the lowest
`base` slots of the stack. -/
def CompilesAlone (sc : Scope) (base : Nat) (place : Place) (source : Ty) : Prop :=
  ∃ out', (place.store source true).exec sc
    { code := .ofHeight (place.referenceSize + source.sizeOnStack + base) } = (.ok (), out')

/-- All stores that the assignment to the place consists of are compiled on their own. -/
def Compiles (sc : Scope) (base : Nat) : Place → Ty → Prop
  | .tuple components, .tuple types => compilesComponents components types
  | place, source => place.CompilesAlone sc base source
where
  /-- All stores that the assignments to the components consist of are compiled on their own. -/
  compilesComponents : List (Option Place) → List Ty → Prop
  | none :: components, _ :: types => compilesComponents components types
  | some place :: components, ty :: types =>
    Compiles sc base place ty ∧ compilesComponents components types
  | _, _ => True

/-- The slots of the local variables that an assignment to the place changes. -/
def Changes : Place → Nat → Prop
  | .stack v, slot => v.base ≤ slot ∧ slot < v.base + v.size
  | .tuple components, slot => changesComponents components slot
  | _, _ => False
where
  /-- The slots that some component changes. -/
  changesComponents : List (Option Place) → Nat → Prop
  | [], _ => False
  | none :: components, slot => changesComponents components slot
  | some place :: components, slot => Changes place slot ∨ changesComponents components slot

/-- An assignment to the place leaves the stack as high as it was, and changes slots of local variables
of the place only. -/
def Keeps (place : Place) (m m' : Machine) : Prop :=
  m'.stack.length = m.stack.length ∧
    ∀ slot, ¬place.Changes slot → m'.stack.reverse[slot]? = m.stack.reverse[slot]?

/-- Executing the code takes the operands and the value, and does what the assignment does, whatever
lies in the `gap` slots between them and the lowest `base` slots. -/
def Performs (sc : Scope) (base : Nat) (place : Place) (source : Ty) (gap : Nat) (code : Code) :
    Prop :=
  ∀ (m : Machine) (operands value between : List Word), operands.length = place.referenceSize →
    value.length = source.sizeOnStack → between.length = gap → m.stack.length = base →
    (m.topped (operands ++ (value ++ between))).run code =
      (place.assign sc source operands value m).map (·.topped between) ∧
    ∀ m', place.assign sc source operands value m = .ok m' → place.Keeps m m'

/-- A store to the place that is compiled performs the assignment, whatever lies between the value and
the lowest `base` slots.  It is compiled as well if less lies between, as long as the height of the
stack stays within a signed counter. -/
def Assigns (sc : Scope) (base : Nat) (place : Place) (source : Ty) : Prop :=
  ∀ (gap : Nat) (out out' : Output),
    out.code.height = place.referenceSize + source.sizeOnStack + (gap + base) →
    (place.store source true).exec sc out = (.ok (), out') →
    ∃ code, out'.code.ops = out.code.ops ++ code.toArray ∧ out'.code.height = gap + base ∧
      place.Compiles sc base source ∧
      (out.code.height + growth code < signedLimit → ∀ (gap' : Nat) (low : Output), gap' ≤ gap →
        low.code.height = place.referenceSize + source.sizeOnStack + (gap' + base) →
        ∃ low', (place.store source true).exec sc low = (.ok (), low')) ∧
      place.Performs sc base source gap code

/-! ## Places that take their value and operands -/

variable {sc : Scope} {base : Nat} {place : Place} {source : Ty}

/-- The code of a store that is compiled alone. -/
theorem codeAt_eq {c : Emit Unit} {out' : Output} {h : Nat} {code : Code}
    (hexec : c.exec sc { code := .ofHeight h } = (.ok (), out'))
    (hops : out'.code.ops = (CodeSection.ofHeight h).ops ++ code.toArray) :
    c.codeAt sc h = code := by
  rw [Emit.codeAt, hexec, hops]
  simp [CodeSection.ofHeight]

/-- A store that takes its value and its operands, and nothing below them, is not affected by what
lies below. -/
theorem assigns_of_takes
    (htakes : Takes sc (place.store source true) (place.referenceSize + source.sizeOnStack) 0)
    (hcompiles : place.Compiles sc base source = place.CompilesAlone sc base source)
    (hassign : ∀ operands value m, place.assign sc source operands value m =
      place.storeAlone sc source (operands ++ value) m) : place.Assigns sc base source := by
  intro gap out out' hheight hexec
  obtain ⟨code, hops, hcode, hout, hlow⟩ := htakes.exec_eq_ok hheight hexec
  obtain ⟨out₀, hexec₀, hops₀, -⟩ := hlow { code := .ofHeight (place.referenceSize +
    source.sizeOnStack + base) } base rfl (Nat.le_add_left base gap)
  refine ⟨code, hops, hout, ?_, fun _ gap' low hgap hlowHeight => ?_,
    fun m operands value between hoperands hvalue hbetween hbase => ?_⟩
  · rw [hcompiles]
    exact ⟨out₀, hexec₀⟩
  · obtain ⟨low', hlow', -⟩ := hlow low (gap' + base) hlowHeight (by omega)
    exact ⟨low', hlow'⟩
  · have hlength : (operands ++ value).length = place.referenceSize + source.sizeOnStack := by
      rw [List.length_append, hoperands, hvalue]
    have halone : place.assign sc source operands value m =
        ((m.withStack (operands ++ value)).run code).map (·.onto m.stack) := by
      rw [hassign, storeAlone, hlength, hbase, codeAt_eq hexec₀ hops₀, ← Machine.run_onto m.stack
        (by rw [Machine.withStack_stack, hlength]; exact hcode)]
      rfl
    have hrun : (m.topped (operands ++ (value ++ between))).run code =
        ((m.withStack (operands ++ value)).run code).map (·.onto (between ++ m.stack)) := by
      rw [← Machine.run_onto _ (by rw [Machine.withStack_stack, hlength]; exact hcode)]
      simp [Machine.topped]
    have hempty : ∀ m', (m.withStack (operands ++ value)).run code = .ok m' → m'.stack = [] := by
      intro m' hm'
      refine List.eq_nil_of_length_eq_zero (Machine.length_of_run ?_ hm')
      rw [Machine.withStack_stack, hlength]
      exact hcode
    rw [hrun, halone]
    cases hresult : (m.withStack (operands ++ value)).run code with
    | error f => exact ⟨rfl, fun m' hm' => by contradiction⟩
    | ok m₁ =>
      have hstack := hempty m₁ hresult
      refine ⟨congrArg Except.ok ?_, fun m' hm' => ?_⟩
      · simp [Machine.topped, Machine.onto, hstack]
      · obtain rfl := Except.ok.inj hm'
        simp [Keeps, Machine.onto, hstack]

/-- A store to memory is an assignment. -/
theorem assigns_memory {cell : MemoryCell} (h : Accepts base (.memory cell) source) :
    Assigns sc base (.memory cell) source := by
  refine assigns_of_takes (.bind_nil (.logEvent _) ?_) rfl fun _ _ _ => rfl
  obtain ⟨hown, hsize⟩ := h
  have hstore : Balances False sc (cell.store source true) (1 + cell.ty.sizeOnStack) 0 :=
    MemoryCell.balances_store hown hsize true
  rw [hsize]
  exact hstore.takes

/-- A store to storage is an assignment. -/
theorem assigns_storage {item : StorageItem} (h : Accepts base (.storage item) source) :
    Assigns sc base (.storage item) source := by
  refine assigns_of_takes (.bind_nil (.logEvent _) ?_) rfl fun _ _ _ => rfl
  obtain ⟨hnamed, hsize⟩ := h
  have hstore : Balances False sc (item.store source true) (source.sizeOnStack + 2) 0 :=
    StorageItem.balances_store hnamed False.elim (fun _ => hsize) true
  rw [Nat.add_comm]
  exact hstore.takes

/-- A store to an immutable is an assignment. -/
theorem assigns_immutable {v : ImmutableVariable}
    (h : Accepts base (.immutable v) source) :
    Assigns sc base (.immutable v) source := by
  refine assigns_of_takes (.bind_nil (.logEvent _) ?_) rfl fun _ _ _ => rfl
  obtain ⟨hnamed, hsize⟩ := h
  have hstore : Balances False sc (v.store source true) v.ty.sizeOnStack 0 :=
    ImmutableVariable.balances_store hnamed true
  rw [hsize, referenceSize, Nat.zero_add]
  exact hstore.takes

/-- A store to a byte is an assignment. -/
theorem assigns_byteElement (h : Accepts base .byteElement source) :
    Assigns sc base .byteElement source := by
  refine assigns_of_takes (.bind_nil (.logEvent _) ?_) rfl fun _ _ _ => rfl
  have hstore : Balances False sc (ByteElement.store true) 3 0 := ByteElement.balances_store true
  rw [Accepts] at h
  rw [h]
  exact hstore.takes

/-! ## Local variables -/

/-- The store of a local variable is logged, and then compiled. -/
theorem exec_store_stack (v : StackVariable) (out : Output) :
    (Place.store (.stack v) source true).exec sc out = (v.store true).exec sc
      { out with events := out.events.push (.store (Place.stack v).kind source true) } := by
  rw [store, Emit.exec_bind, Emit.exec_logEvent]

/-- The words of a stack below and above a range of slots are in the same slots if as many other words
are in the range. -/
theorem keeps_overwrite {v : StackVariable} {m : Machine} {above old new below : List Word}
    (hstack : m.stack = above ++ (old ++ below)) (hnew : new.length = v.size)
    (hold : old.length = v.size) (hbelow : below.length = v.base) :
    Keeps (.stack v) m (m.withStack (above ++ (new ++ below))) := by
  rw [Keeps, hstack, Machine.withStack_stack]
  refine ⟨by simp [hnew, hold], fun slot hslot => ?_⟩
  rw [Changes] at hslot
  simp only [List.reverse_append, List.append_assoc]
  by_cases hlow : slot < v.base
  · rw [List.getElem?_append_left (by simpa [hbelow] using hlow),
      List.getElem?_append_left (by simpa [hbelow] using hlow)]
  · have hhigh : v.base + v.size ≤ slot := by omega
    rw [List.getElem?_append_right (by simp; omega), List.getElem?_append_right (by simp; omega),
      List.getElem?_append_right (by simp; omega), List.getElem?_append_right (by simp; omega)]
    simp [hnew, hold]

/-- The slots of a local variable are a part of the stack. -/
theorem exists_eq_append_of_slots {stack : List Word} {low size : Nat}
    (hle : low + size ≤ stack.length) :
    ∃ above old below : List Word,
      stack = above ++ (old ++ below) ∧ old.length = size ∧ below.length = low := by
  refine ⟨stack.take (stack.length - low - size), (stack.drop (stack.length - low - size)).take size,
    (stack.drop (stack.length - low - size)).drop size, ?_, ?_, ?_⟩
  · rw [List.take_append_drop, List.take_append_drop]
  · simp
    omega
  · simp
    omega

/-- The exchanges that write a local variable perform its assignment, wherever the value lies. -/
theorem performs_overwrite {v : StackVariable} (h : Accepts base (.stack v) source)
    (hcode : (Place.store (.stack v) source true).codeAt sc (source.sizeOnStack + base) =
      overwriteCode v.size (base - v.base)) (gap : Nat) :
    Performs sc base (.stack v) source gap (overwriteCode v.size (gap + base - v.base)) := by
  obtain ⟨-, hle, hsize⟩ := h
  intro m operands value between hoperands hvalue hbetween hbase
  obtain rfl := List.eq_nil_of_length_eq_zero hoperands
  rw [← hbase] at hle
  obtain ⟨above, old, below, hstack, hold, hbelow⟩ := exists_eq_append_of_slots hle
  have hvalueSize : value.length = v.size := hvalue.trans hsize
  have hrun : ∀ between : List Word,
      (m.withStack (value ++ (between ++ m.stack))).run
          (overwriteCode v.size (between.length + base - v.base)) =
        .ok (m.withStack (between ++ (above ++ (value ++ below)))) := by
    intro between
    have hlength : between.length + base - v.base = value.length + (between ++ above).length := by
      rw [← hbase, hstack]
      simp only [List.length_append]
      omega
    have hoverwrite := Machine.run_overwrite m value (between ++ above) old below []
      (hold.trans hvalueSize.symm) hlength
    rw [hvalueSize, List.append_nil] at hoverwrite
    rw [hstack]
    simpa using hoverwrite
  have hassign : Place.assign sc (.stack v) source [] value m =
      .ok (m.withStack (above ++ (value ++ below))) := by
    have halone := hrun []
    rw [List.length_nil, Nat.zero_add, ← hcode, ← hvalue, ← hbase] at halone
    exact halone
  have hgap := hrun between
  rw [hbetween] at hgap
  rw [hassign]
  refine ⟨?_, fun m' hm' => ?_⟩
  · simpa [Machine.topped, Except.map] using hgap
  · obtain rfl := Except.ok.inj hm'
    exact keeps_overwrite hstack hvalueSize hold hbelow

/-- A local variable is written where it is, however much lies between it and the value. -/
theorem assigns_stack {v : StackVariable} (h : Accepts base (.stack v) source) :
    Assigns sc base (.stack v) source := by
  have haccepts := h
  obtain ⟨hlt, hle, hsize⟩ := h
  intro gap out out' hheight hexec
  have hdistance : ∀ g : Nat, (Place.stack v).referenceSize + source.sizeOnStack + (g + base) =
      v.size + (g + base - v.base) + v.base := by
    intro g
    rw [referenceSize, hsize]
    omega
  have hpos : ∀ g : Nat, 0 < g + base - v.base := by omega
  rw [exec_store_stack] at hexec
  obtain ⟨hops, hout, hlow⟩ := StackVariable.exec_store_eq_ok (hpos gap)
    (by exact hheight.trans (hdistance gap)) hexec
  have hlower : ∀ (gap' : Nat) (low : Output), gap' ≤ gap → low.code.height =
      (Place.stack v).referenceSize + source.sizeOnStack + (gap' + base) →
      ∃ low', (Place.store (.stack v) source true).exec sc low = (.ok (), low') ∧
        low'.code.ops = low.code.ops ++
          (overwriteCode v.size (gap' + base - v.base)).toArray := by
    intro gap' low hgap hlowHeight
    obtain ⟨low', hlow', hlowOps, -⟩ := hlow
      { low with events := low.events.push (.store (Place.stack v).kind source true) }
      (gap' + base - v.base) (hpos gap') (by omega) (hlowHeight.trans (hdistance gap'))
    refine ⟨low', ?_, hlowOps⟩
    rw [exec_store_stack]
    exact hlow'
  have hown : (Place.stack v).referenceSize + source.sizeOnStack + (0 + base) =
      source.sizeOnStack + base := by
    rw [referenceSize]
    omega
  obtain ⟨own, hownExec, hownOps⟩ := hlower 0
    { code := .ofHeight (source.sizeOnStack + base) } (Nat.zero_le gap) hown.symm
  refine ⟨_, hops, by omega, ⟨own, ?_⟩, fun _ gap' low hgap hlowHeight => ?_, ?_⟩
  · rw [← Nat.zero_add base, hown]
    exact hownExec
  · obtain ⟨low', hlow', -⟩ := hlower gap' low hgap hlowHeight
    exact ⟨low', hlow'⟩
  · refine performs_overwrite haccepts (codeAt_eq hownExec ?_) gap
    rw [hownOps, Nat.zero_add]

end Place

end WordPlaces
