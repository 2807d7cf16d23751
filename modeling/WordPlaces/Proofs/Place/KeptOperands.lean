import WordPlaces.Proofs.Machine.ReadOnly
import WordPlaces.Proofs.Place.Reach
import WordPlaces.Proofs.Place.StackContract
import WordPlaces.Proofs.Place.StructClearing

/-!
# Keeping the addressing operands

A read or a clearing that keeps its addressing operands does what the one that takes them does, and leaves
them below what it leaves.  Most places copy the operands first.  Storage reads a reference by copying its
slot instead of dropping the byte offset, bytes are read with other instructions, and a struct is cleared
with its operands below those of each member.

## Main definitions

* `KeepsBelow` — code that does the same as other code, and leaves the operands below what it leaves.
* `ReadsAbove` — the same of code that only reads.
* `ClearsBelow` — code that does the same as other code, but for the operands, which it puts back.
* `KeepsTop` — code that leaves the operands where they are.
* `EmitsBoth` — computations that are refused alike, or whose codes are related.
* `MemoryCell.clearExternalCode` — how memory is cleared for an external function under another name.

## Main results

* `KeepsBelow.of_before`, `KeepsBelow.copies` — codes that differ only in how they begin.
* `Place.emitsBoth_retrieve`, `Place.emitsBoth_setToZero` — the accesses of every place.
* `Place.keeps_operands` — what the two ways to read and to clear a place do.
* `Place.setToZero_callback_loses_address` — a cell that is cleared elsewhere if its address is kept.
-/

set_option autoImplicit false

namespace WordPlaces

open Fragment StructTable Instruction Machine

/-! ## Code -/

/-- Code that takes `count` operands, and code that does the same and leaves the operands below the `left`
words that the first one leaves in their stead. -/
def KeepsBelow (count left : Nat) (taking keeping : Code) : Prop :=
  ∀ (m : Machine) (operands rest : List Word), operands.length = count →
    (∃ f, (m.withStack (operands ++ rest)).run taking = .error f ∧
      (m.withStack (operands ++ rest)).run keeping = .error f) ∨
    ∃ (m' : Machine) (words : List Word), words.length = left ∧
      (m.withStack (operands ++ rest)).run taking = .ok (m'.withStack (words ++ rest)) ∧
      (m.withStack (operands ++ rest)).run keeping = .ok (m'.withStack (words ++ (operands ++ rest)))

/-- The same of code that only reads: the rest of the machine stays as it is, but for memory, which may
grow by zeros. -/
def ReadsAbove (count left : Nat) (taking keeping : Code) : Prop :=
  ∀ (m : Machine) (operands rest : List Word), operands.length = count →
    (∃ f, (m.withStack (operands ++ rest)).run taking = .error f ∧
      (m.withStack (operands ++ rest)).run keeping = .error f) ∨
    ∃ (size : Nat) (words : List Word), words.length = left ∧
      (m.withStack (operands ++ rest)).run taking =
        .ok ({ m with memory := m.memory.grow size }.withStack (words ++ rest)) ∧
      (m.withStack (operands ++ rest)).run keeping =
        .ok ({ m with memory := m.memory.grow size }.withStack (words ++ (operands ++ rest)))

/-- Code that does what other code does, but for the operands, which it puts back on what the other one
leaves of the stack. -/
def ClearsBelow (count : Nat) (taking keeping : Code) : Prop :=
  ∀ (m : Machine) (operands rest : List Word), operands.length = count →
    (m.withStack (operands ++ rest)).run keeping =
      ((m.withStack (operands ++ rest)).run taking).map fun m' => m'.withStack (operands ++ m'.stack)

/-- Code that leaves the operands where they are. -/
def KeepsTop (count : Nat) (code : Code) : Prop :=
  ∀ (m : Machine) (operands rest : List Word), operands.length = count →
    (∃ f, (m.withStack (operands ++ rest)).run code = .error f) ∨
    ∃ m' : Machine, (m.withStack (operands ++ rest)).run code = .ok (m'.withStack (operands ++ rest))

section Code

variable {count inner left : Nat} {before before' code code' taking keeping : Code}

/-- Codes that differ only in how they begin: one makes other words of the operands, and the other one puts
these words above the operands. -/
theorem KeepsBelow.of_before (hcode : heightFrom inner code = some left)
    (hbefore : ∀ (m : Machine) (operands rest : List Word), operands.length = count →
      ∃ words : List Word, words.length = inner ∧
        (m.withStack (operands ++ rest)).run (before ++ code) = (m.withStack (words ++ rest)).run code ∧
        (m.withStack (operands ++ rest)).run (before' ++ code) =
          (m.withStack (words ++ (operands ++ rest))).run code) :
    KeepsBelow count left (before ++ code) (before' ++ code) := by
  intro m operands rest hoperands
  obtain ⟨words, hwords, htaking, hkeeping⟩ := hbefore m operands rest hoperands
  obtain ⟨effect, hlength, heffect⟩ := m.exists_run_eq hcode hwords
  rw [htaking, hkeeping, heffect rest, heffect (operands ++ rest)]
  cases effect with
  | error f => exact .inl ⟨f, rfl, rfl⟩
  | ok x => exact .inr ⟨x.1, x.2, hlength x.1 x.2 rfl, rfl, rfl⟩

/-- Copies of the operands are taken in their stead.  Where there are no operands, there is nothing to
copy. -/
theorem KeepsBelow.copies (hcode : heightFrom count code = some left) :
    KeepsBelow count left code ((List.replicate count [.dup count]).flatten ++ code) := by
  have hkeeps : KeepsBelow count left ([] ++ code) ((List.replicate count [.dup count]).flatten ++ code) :=
    .of_before hcode fun m operands rest hoperands =>
      ⟨operands, hoperands, rfl, run_copyToTop m rest code [] operands hoperands (Nat.zero_add count).symm⟩
  exact hkeeps

/-- What code that only reads leaves of the machine. -/
theorem KeepsBelow.readsAbove (h : KeepsBelow count left taking keeping)
    (hread : ∀ op ∈ taking, op.IsRead) : ReadsAbove count left taking keeping := by
  intro m operands rest hoperands
  rcases h m operands rest hoperands with herror | ⟨m', words, hlength, htaking, hkeeping⟩
  · exact .inl herror
  · obtain ⟨size, heq⟩ := exists_eq_of_run hread htaking
    have hstack (stack : List Word) :
        m'.withStack stack = { m with memory := m.memory.grow size }.withStack stack := by
      have hcongr := congrArg (fun left : Machine => left.withStack stack) heq
      exact hcongr
    refine .inr ⟨size, words, hlength, ?_, ?_⟩
    · rw [htaking, hstack]
    · rw [hkeeping, hstack]

/-- Code that leaves nothing in the stead of its operands. -/
theorem KeepsBelow.clearsBelow (h : KeepsBelow count 0 taking keeping) :
    ClearsBelow count taking keeping := by
  intro m operands rest hoperands
  rcases h m operands rest hoperands with ⟨f, htaking, hkeeping⟩ | ⟨m', words, hlength, htaking, hkeeping⟩
  · rw [htaking, hkeeping]
    rfl
  · obtain rfl := List.length_eq_zero_iff.1 hlength
    rw [htaking, hkeeping]
    rfl

/-- Code without operands leaves the stack to be what it is. -/
theorem ClearsBelow.of_no_operands (code : Code) : ClearsBelow 0 code code := by
  intro m operands rest hoperands
  obtain rfl := List.length_eq_zero_iff.1 hoperands
  cases (m.withStack ([] ++ rest)).run code <;> rfl

/-! ### Operands that stay on top -/

/-- No code leaves everything as it is. -/
theorem KeepsTop.nil : KeepsTop count [] := fun m _ _ _ => .inr ⟨m, rfl⟩

/-- Codes that leave the same operands on top, one after the other. -/
theorem KeepsTop.append (h : KeepsTop count code) (h' : KeepsTop count code') :
    KeepsTop count (code ++ code') := by
  intro m operands rest hoperands
  rcases h m operands rest hoperands with ⟨f, hf⟩ | ⟨m₁, hm₁⟩
  · exact .inl ⟨f, by rw [run_append, hf]; rfl⟩
  · have hrun : (m.withStack (operands ++ rest)).run (code ++ code') =
        (m₁.withStack (operands ++ rest)).run code' := by rw [run_append, hm₁]; rfl
    rw [hrun]
    exact h' m₁ operands rest hoperands

/-- The code of a member takes the operands that are pushed for it. -/
theorem KeepsTop.memberOperands (f : Field) (hcode : heightFrom 2 code = some 0) :
    KeepsTop 2 (StorageItem.memberOperands f ++ code) := by
  intro m operands rest hoperands
  obtain ⟨byte, base, rfl⟩ := List.length_eq_two.1 hoperands
  let member : List Word := [BitVec.ofNat 256 f.storage.byte, base + f.slotWord]
  obtain ⟨effect, hlength, heffect⟩ := m.exists_run_eq hcode (show member.length = 2 from rfl)
  have hrun : (m.withStack ([byte, base] ++ rest)).run (StorageItem.memberOperands f ++ code) =
      (m.withStack (member ++ ([byte, base] ++ rest))).run code := rfl
  rw [hrun, heffect]
  cases effect with
  | error fault => exact .inl ⟨fault, rfl⟩
  | ok x =>
    obtain ⟨m', words⟩ := x
    obtain rfl := List.length_eq_zero_iff.1 (hlength m' words rfl)
    exact .inr ⟨m', rfl⟩

/-- Operands that have stayed on top are dropped in the end. -/
theorem KeepsTop.keepsBelow (h : KeepsTop count code) :
    KeepsBelow count 0 (code ++ (List.replicate count [.pop]).flatten) code := by
  intro m operands rest hoperands
  rcases h m operands rest hoperands with ⟨f, hf⟩ | ⟨m', hm'⟩
  · exact .inl ⟨f, by rw [run_append, hf]; rfl, hf⟩
  · refine .inr ⟨m', [], rfl, ?_, hm'⟩
    have hpop := run_popSlots m' rest [] operands hoperands
    rw [List.append_nil] at hpop
    rw [run_append, hm']
    exact hpop

/-! ### Copies of a local variable -/

/-- Copies are words above the stack, if there is a slot to copy. -/
theorem Machine.exists_run_dups (m : Machine) (depth size : Nat) (stack : List Word) :
    (∃ f, (m.withStack stack).run (List.replicate size [.dup depth]).flatten = .error f) ∨
    ∃ words : List Word, words.length = size ∧
      (m.withStack stack).run (List.replicate size [.dup depth]).flatten =
        .ok (m.withStack (words ++ stack)) := by
  -- every copy raises the stack for the next one, so that the same depth reaches the next slot
  induction size generalizing stack with
  | zero => exact .inr ⟨[], rfl, rfl⟩
  | succ size ih =>
    have hstep : (∃ f, (m.withStack stack).step (.dup depth) = .error f) ∨
        ∃ w, (m.withStack stack).step (.dup depth) = .ok (m.withStack (w :: stack)) := by
      cases depth with
      | zero => exact .inl ⟨_, rfl⟩
      | succ depth =>
        rw [step]
        split
        · exact .inr ⟨_, rfl⟩
        · exact .inl ⟨_, rfl⟩
    rw [List.replicate_succ, List.flatten_cons, List.singleton_append]
    rcases hstep with ⟨f, hf⟩ | ⟨w, hw⟩
    · exact .inl ⟨f, by rw [run_cons, hf]; rfl⟩
    · rw [run_cons_of_step _ hw]
      rcases ih (w :: stack) with herror | ⟨words, hlength, hrun⟩
      · exact .inl herror
      · refine .inr ⟨words ++ [w], by rw [List.length_append, hlength]; rfl, ?_⟩
        rw [hrun, List.append_assoc]
        rfl

/-- Copies are made without operands. -/
theorem KeepsBelow.dups (depth size : Nat) :
    KeepsBelow 0 size (List.replicate size [.dup depth]).flatten
      (List.replicate size [.dup depth]).flatten := by
  intro m operands rest hoperands
  obtain rfl := List.length_eq_zero_iff.1 hoperands
  rcases m.exists_run_dups depth size rest with ⟨f, hf⟩ | ⟨words, hlength, hrun⟩
  · exact .inl ⟨f, hf, hf⟩
  · exact .inr ⟨m, words, hlength, hrun, hrun⟩

end Code

/-! ## Computations -/

/-- On stacks of height `h`, two computations are refused alike, or emit codes that are related. -/
def EmitsBoth (sc : Scope) (h : Nat) (R : Code → Code → Prop) (taking keeping : Emit Unit) : Prop :=
  ∃ code code' r, EmitsFrom sc h taking code r ∧ EmitsFrom sc h keeping code' r ∧
    (r = .ok () → R code code')

variable {sc : Scope} {h : Nat}

namespace EmitsBoth

variable {R : Code → Code → Prop} {c c' : Emit Unit}

/-- Computations that are not refused, with codes that are related. -/
theorem of_emits {code code' : Code} (hc : Emits sc c code (.ok ())) (hc' : Emits sc c' code' (.ok ()))
    (hR : R code code') : EmitsBoth sc h R c c' := ⟨code, code', _, hc h, hc' h, fun _ => hR⟩

/-- Computations that are refused for the same reason. -/
theorem of_error {code code' : Code} {e : Failure} (hc : EmitsFrom sc h c code (.error e))
    (hc' : EmitsFrom sc h c' code' (.error e)) : EmitsBoth sc h R c c' :=
  ⟨code, code', _, hc, hc', fun hr => by contradiction⟩

/-- Computations that do not differ. -/
theorem of_emitsSome (hc : EmitsSome sc c fun _ code => R code code) : EmitsBoth sc h R c c := by
  obtain ⟨code, r, hcode, hR⟩ := hc
  exact ⟨code, code, r, hcode h, hcode h, hR ()⟩

/-- A computation, and the same after code that copies its operands. -/
theorem of_copies {n n' : Nat} {copy : Emit Unit} {copies : Code} (hcopy : Emits sc copy copies (.ok ()))
    (hc : Takes sc c n n') (hR : ∀ code, heightFrom n code = some n' → R code (copies ++ code)) :
    EmitsBoth sc h R c (do copy; c) := by
  obtain ⟨code, r, hcode, hheight⟩ := hc
  exact ⟨code, copies ++ code, r, hcode h, hcopy.bind hcode h, fun hr => hR code (hheight () hr)⟩

/-- First parts that emit nothing. -/
theorem bind_nil {α : Type} {m m' : Emit α} {f f' : α → Emit Unit} {a : α}
    (hm : EmitsFrom sc h m [] (.ok a)) (hm' : EmitsFrom sc h m' [] (.ok a))
    (hf : EmitsBoth sc h R (f a) (f' a)) : EmitsBoth sc h R (m >>= f) (m' >>= f') := by
  obtain ⟨code, code', r, hcode, hcode', hR⟩ := hf
  refine ⟨code, code', r, hm.bind fun h' hh => ?_, hm'.bind fun h' hh => ?_, hR⟩
  · obtain rfl := Option.some.inj hh
    exact hcode
  · obtain rfl := Option.some.inj hh
    exact hcode'

/-- A relation may be replaced by a weaker one. -/
theorem mono {R' : Code → Code → Prop} (hc : EmitsBoth sc h R c c')
    (hR : ∀ code code', R code code' → R' code code') : EmitsBoth sc h R' c c' := by
  obtain ⟨code, code', r, hcode, hcode', hrelated⟩ := hc
  exact ⟨code, code', r, hcode, hcode', fun hr => hR code code' (hrelated hr)⟩

end EmitsBoth

/-! ## Memory, immutables and bytes -/

namespace MemoryCell

variable {cell : MemoryCell}

/-- A copy of the address is taken in its stead. -/
theorem emitsBoth_copy {left : Nat} {c : Emit Unit} (hc : Balances False sc c 1 left) :
    EmitsBoth sc h (KeepsBelow 1 left) c (do emit (.dup 1); c) :=
  .of_copies (.emit _) hc.takes fun _ => KeepsBelow.copies

/-- Memory is read from a copy of its address. -/
theorem emitsBoth_retrieve :
    EmitsBoth sc h (KeepsBelow 1 cell.ty.readSize) (cell.retrieve true) (cell.retrieve false) := by
  have hread : Balances False sc (cell.retrieve true) 1 (keptSlots true 1 + cell.ty.readSize) :=
    balances_retrieve true
  rw [keptSlots_true, Nat.zero_add] at hread
  exact emitsBoth_copy hread

/-- Memory is cleared at a copy of its address, if nothing below the copy is taken. -/
theorem emitsBoth_setToZero (hown : cell.WritesOwnWords) :
    EmitsBoth sc h (KeepsBelow 1 0) (cell.setToZero true) (cell.setToZero false) :=
  emitsBoth_copy (balances_setToZero hown true)

/-- The code that clears a cell for an external function under another name: one zero is pushed and two
words are written. -/
def clearExternalCode : Code :=
  [.push 0] ++ (combineExternal true ++ [.dup 2, .mstore, .pushNat 32, .add] ++ [.pop])

/-- A cell that is not written as the words of its type is cleared with code that misses a word. -/
theorem emits_setToZero_of_not_writesOwnWords (hown : ¬cell.WritesOwnWords) :
    Emits sc (cell.setToZero true) clearExternalCode (.ok ()) ∧
      Emits sc (cell.setToZero false) ([.dup 1] ++ clearExternalCode) (.ok ()) := by
  obtain ⟨hpadded, hnamed⟩ := Classical.not_imp.1 hown
  obtain ⟨name, underlying, e, hty, he, hform⟩ := Ty.exists_eq_named_of_not_wellNamed hnamed
  have hpush : Emits sc (pushZeroValue cell.ty) [.push 0] (.ok ()) := by
    rw [hty]
    exact .repeatEmit (.emit _) 1
  have hstore : Emits sc (storeInMemory cell.ty true)
      (combineExternal true ++ [.dup 2, .mstore, .pushNat 32, .add]) (.ok ()) := by
    have hvalue := Ty.isValueType_of_encoding?_eq_ok he
    unfold storeInMemory
    rw [if_pos hvalue]
    refine .bind_nil (.orFault he) ?_
    rw [if_pos hform]
    exact (Emits.emitAll _).bind (.emitAll _)
  have hclear : Emits sc (do pushZeroValue cell.ty; storeInMemory cell.ty true; emit .pop)
      clearExternalCode (.ok ()) := hpush.bind (hstore.bind (.emit _))
  unfold setToZero
  simp only [hpadded, if_true]
  exact ⟨hclear, (Emits.emit _).bind hclear⟩

/-- Of the two codes, the one that should take the address writes where the word below it says, and the
one that should keep it takes it. -/
theorem not_clearsBelow_clearExternalCode :
    ¬ClearsBelow 1 clearExternalCode ([.dup 1] ++ clearExternalCode) := by
  intro hclears
  have hstack := congrArg (Except.map (·.stack)) (hclears {} [32] [0] rfl)
  exact absurd hstack (by decide +kernel)

end MemoryCell

namespace ImmutableVariable

variable {v : ImmutableVariable}

/-- An immutable is read without operands. -/
theorem emitsBoth_retrieve :
    EmitsBoth sc h (KeepsBelow 0 (v.readSize sc.kind)) v.retrieve v.retrieve := by
  have hread : Balances False sc v.retrieve 0 (v.readSize sc.kind) := balances_retrieve v
  exact .of_emitsSome (hread.takes.mono fun _ _ => KeepsBelow.copies)

/-- An immutable is cleared without operands. -/
theorem emitsBoth_setToZero : EmitsBoth sc h (ClearsBelow 0) v.setToZero v.setToZero := by
  have hcheck : EmitsSome sc v.rejectReference fun _ _ => v.ty.isValueType = true := by
    unfold rejectReference
    split
    · exact .of_emits (.pure ()) ‹_›
    · exact .reject _
  refine .of_emitsSome (hcheck.bind fun _ _ hvalue => ?_)
  have haddress : Balances False sc v.pushAddress 0 1 := balances_pushAddress v 0
  have hzero : Balances False sc (pushZeroValue v.ty) 0 (0 + v.ty.sizeOnStack) := .pushZeroValue v.ty 0
  have hstore : Balances False sc (storeInMemory v.ty true) (v.ty.readSize + 1) 1 :=
    .storeInMemory hvalue true
  exact haddress.takes.bind fun _ _ _ => hzero.takes.bind fun _ _ _ => hstore.takes.bind fun _ _ _ =>
    .of_emits (.emit .pop) (.of_no_operands _)

end ImmutableVariable

/-- A byte is read with exchanges, or with copies. -/
theorem ByteElement.emitsBoth_retrieve :
    EmitsBoth sc h (KeepsBelow 2 1) (retrieve true) (retrieve false) := by
  refine .of_emits (.emitAll _) (.emitAll _) ?_
  have hcode : heightFrom 2 [.byte, .push topByteMultiplier, .mul] = some 1 := rfl
  refine .of_before hcode fun m operands rest hoperands => ?_
  obtain ⟨index, slot, rfl⟩ := List.length_eq_two.1 hoperands
  exact ⟨[index, (m.storage .persistent).read slot], rfl, rfl, rfl⟩

/-! ## Storage -/

namespace StorageItem

variable {item : StorageItem} {R : Code → Code → Prop}

/-- Both are refused for references into transient storage. -/
theorem emitsBoth_rejectTransientReference (item : StorageItem) {c c' : Emit Unit}
    (hc : EmitsBoth sc h R c c') :
    EmitsBoth sc h R (do item.rejectTransientReference; c) (do item.rejectTransientReference; c') := by
  unfold rejectTransientReference
  cases item.kind with
  | persistent => exact .bind_nil (.pure ()) (.pure ()) hc
  | transient => exact .of_error ((Emits.reject _).bind_error h) ((Emits.reject _).bind_error h)

/-- Copies of the slot and the byte offset are taken in their stead. -/
theorem emitsBoth_copies {left : Nat} {c : Emit Unit} (hc : Balances False sc c 2 left) :
    EmitsBoth sc h (KeepsBelow 2 left) c (do copyToTop 2 2; c) :=
  .of_copies (.copyToTop (by decide) (by decide) 2) hc.takes fun _ => KeepsBelow.copies

/-- A value is read with copies of its operands.  The slot of a reference is copied, or the byte offset is
dropped. -/
theorem emitsBoth_retrieve :
    EmitsBoth sc h (KeepsBelow 2 item.ty.readSize) (item.retrieve true) (item.retrieve false) := by
  cases hvalue : item.ty.isValueType with
  | true =>
    have hread : Balances False sc (item.retrieve true) 2 (keptSlots true 2 + item.ty.readSize) :=
      balances_retrieve true
    rw [keptSlots_true, Nat.zero_add] at hread
    have hkeep : item.retrieve false = (do copyToTop 2 2; item.retrieve true) := by
      unfold retrieve
      simp [hvalue]
    rw [hkeep]
    exact emitsBoth_copies hread
  | false =>
    unfold retrieve
    simp only [hvalue, Bool.not_false, if_true, Ty.readSize_of_not_isValueType hvalue]
    refine emitsBoth_rejectTransientReference item (.of_emits (.emit _) (.emit _) ?_)
    -- here nothing follows that both ways share
    have hkeeps : KeepsBelow 2 1 ([.pop] ++ []) ([.dup 2] ++ []) := by
      refine .of_before rfl fun m operands rest hoperands => ?_
      obtain ⟨byte, slot, rfl⟩ := List.length_eq_two.1 hoperands
      exact ⟨[slot], rfl, rfl, rfl⟩
    exact hkeeps

/-- Every type but structs is cleared with copies of its operands. -/
theorem emitsBoth_clearFlat (item : StorageItem) :
    EmitsBoth sc h (KeepsBelow 2 0) (item.clearFlat true) (item.clearFlat false) := by
  unfold clearFlat
  have hrefused (f : String → Fault) :
      EmitsFrom sc h (do fault (f (← displayTy item.ty)) : Emit Unit) []
        (.error (.fault (f (item.ty.display sc.structs)))) :=
    Emits.bind_nil (.displayTy item.ty) (.fault _) h
  split
  · exact .of_error (hrefused .clearedMapping) (hrefused .clearedMapping)
  · split
    · exact .of_error (hrefused .clearedTuple) (hrefused .clearedTuple)
    · split
      · exact emitsBoth_rejectTransientReference item (emitsBoth_copies (.callRoutine _ _ 2 0))
      · exact emitsBoth_copies (balances_clearValue item)

/-- A member is cleared above the operands of its struct. -/
theorem emitsSome_clearMember (location : DataLocation) (f : Field) :
    EmitsSome sc (clearMember location f) fun _ code => KeepsTop 2 code := by
  have hmember {c : Emit Unit} (hc : Balances False sc c 2 0) :
      EmitsSome sc (do emitAll (memberOperands f); c) fun _ code => KeepsTop 2 code := by
    have hoperands : EmitsSome sc (emitAll (memberOperands f)) fun _ code => code = memberOperands f :=
      .of_emits (.emitAll _) rfl
    refine hoperands.bind fun _ code hcode => ?_
    obtain rfl := hcode
    exact hc.takes.mono fun _ code => .memberOperands f
  unfold clearMember
  split
  · exact .of_emits (.pure ()) .nil
  · split
    · exact hmember (balances_clearStruct _ _ true)
    · exact hmember (balances_clearFlat _ true)

/-- A struct is cleared above its operands, which are dropped in the end. -/
theorem emitsBoth_clearStruct (d : StructId) (location : DataLocation) :
    EmitsBoth sc h (KeepsBelow 2 0) (clearStruct d location true) (clearStruct d location false) := by
  have hmembers : EmitsSome sc ((sc.structs.fields d).forM (clearMember location))
      fun _ code => KeepsTop 2 code :=
    .forM .nil (fun _ _ => .append) fun f _ => emitsSome_clearMember location f
  obtain ⟨code, r, hcode, hkeeps⟩ := hmembers
  rw [clearStruct_eq, clearStruct_eq]
  refine .bind_nil .read .read ?_
  cases r with
  | error e => exact .of_error (hcode.bind_error h) (hcode.bind_error h)
  | ok _ =>
    have hkeeping : Emits sc (do (sc.structs.fields d).forM (clearMember location); pure ()) (code ++ [])
        (.ok ()) := hcode.bind (.pure ())
    rw [List.append_nil] at hkeeping
    exact .of_emits (hcode.bind (.popSlots 2)) hkeeping (hkeeps () rfl).keepsBelow

/-- Clearing an item either takes its operands or leaves them. -/
theorem emitsBoth_setToZero (item : StorageItem) :
    EmitsBoth sc h (KeepsBelow 2 0) (item.setToZero true) (item.setToZero false) := by
  unfold setToZero
  split
  · exact emitsBoth_rejectTransientReference item (emitsBoth_clearStruct _ _)
  · exact emitsBoth_clearFlat item

end StorageItem

/-! ## Local variables -/

namespace StackVariable

variable {R : Code → Code → Prop}

/-- What comes after the search for a local variable has its distance. -/
theorem emitsBoth_bind_distanceToTop {base : Nat} {f : Nat → Emit Unit}
    (hf : base < h → EmitsBoth sc h R (f (h - base - 1)) (f (h - base - 1))) :
    EmitsBoth sc h R (distanceToTop base >>= f) (distanceToTop base >>= f) := by
  rcases Nat.lt_or_ge base h with hlt | hle
  · exact .bind_nil (emitsFrom_distanceToTop hlt) (emitsFrom_distanceToTop hlt) (hf hlt)
  · exact .of_error (emitsFrom_distanceToTop_of_le hle).bind_error
      (emitsFrom_distanceToTop_of_le hle).bind_error

/-- Copies of the slots are the words that a read leaves. -/
theorem emitsBoth_retrieve (v : StackVariable) :
    EmitsBoth sc h (KeepsBelow 0 v.size) v.retrieve v.retrieve := by
  refine emitsBoth_bind_distanceToTop fun _ => ?_
  simp only
  split
  · exact .of_error (Emits.fault _ h) (Emits.fault _ h)
  · refine .of_emitsSome ((EmitsSome.copyToTop _ v.size).mono fun _ code hcode => ?_)
    obtain rfl := hcode
    exact .dups _ _

/-- What is emitted for writing a variable whose slots are in reach. -/
theorem emitsSome_overwrite (v : StackVariable) (distance : Nat) :
    EmitsSome sc (v.overwrite distance) fun _ code => code = overwriteCode v.size distance := by
  refine .repeatEmit ((EmitsSome.swapSlot distance).bind fun _ code hcode => ?_) v.size
  obtain rfl := hcode
  exact .of_emits (.emit .pop) rfl

/-- A local variable is written without operands. -/
theorem emitsBoth_store (v : StackVariable) (hR : ∀ code, R code code) :
    EmitsBoth sc h R (v.store true) (v.store true) := by
  refine emitsBoth_bind_distanceToTop fun _ => ?_
  simp only
  split
  · exact .of_error (Emits.fault _ h) (Emits.fault _ h)
  · refine .of_emitsSome ?_
    split
    · exact (emitsSome_overwrite v _).bind fun _ _ _ => .of_emits (.pure ()) (hR _)
    · exact .of_emits (.pure ()) (hR _)

/-- The zero value is written above the variable. -/
theorem emitsBoth_setToZero (v : StackVariable) :
    EmitsBoth sc h (ClearsBelow 0) v.setToZero v.setToZero := by
  have hpush : Balances False sc (pushZeroValue v.ty) h (h + v.ty.sizeOnStack) := .pushZeroValue v.ty h
  obtain ⟨zero, r, hzero, hheight⟩ := hpush.takes
  cases r with
  | error e => exact .of_error (hzero.bind_error h) (hzero.bind_error h)
  | ok _ =>
    have hwrite : EmitsBoth sc (h + v.ty.sizeOnStack) (ClearsBelow 0) (v.store true) (v.store true) :=
      v.emitsBoth_store ClearsBelow.of_no_operands
    obtain ⟨code, -, r, hcode, -⟩ := hwrite
    have hstore : EmitsFrom sc h v.setToZero (zero ++ code) r := (hzero h).bind fun h' hh => by
      obtain rfl := Option.some.inj ((hheight () rfl).symm.trans hh)
      exact hcode
    exact ⟨_, _, r, hstore, hstore, fun _ => .of_no_operands _⟩

end StackVariable

/-! ## Places -/

namespace Place

variable {place : Place}

/-- Every place is read with its operands kept as with its operands taken.  A tuple is not read. -/
theorem emitsBoth_retrieve (place : Place) :
    EmitsBoth sc h (KeepsBelow place.referenceSize (place.readSize sc.kind)) (place.retrieve true)
      (place.retrieve false) := by
  refine .bind_nil (.logEvent _) (.logEvent _) ?_
  cases place with
  | stack v => exact v.emitsBoth_retrieve
  | memory cell => exact cell.emitsBoth_retrieve
  | storage item => exact item.emitsBoth_retrieve
  | immutable v => exact v.emitsBoth_retrieve
  | byteElement => exact ByteElement.emitsBoth_retrieve
  | tuple components => exact .of_error (Emits.fault _ h) (Emits.fault _ h)

/-- Every place but bytes is cleared with its operands kept as with its operands taken, if memory is written
as the words of its type.  A tuple is not cleared. -/
theorem emitsBoth_setToZero (place : Place) (hbyte : place ≠ .byteElement)
    (hown : ∀ cell, place = .memory cell → cell.WritesOwnWords) :
    EmitsBoth sc h (ClearsBelow place.referenceSize) (place.setToZero true) (place.setToZero false) := by
  refine .bind_nil (.logEvent _) (.logEvent _) ?_
  cases place with
  | stack v => exact v.emitsBoth_setToZero
  | memory cell =>
    have hclear : EmitsBoth sc h (KeepsBelow 1 0) (cell.setToZero true) (cell.setToZero false) :=
      cell.emitsBoth_setToZero (hown cell rfl)
    exact hclear.mono fun _ _ => KeepsBelow.clearsBelow
  | storage item => exact item.emitsBoth_setToZero.mono fun _ _ => KeepsBelow.clearsBelow
  | immutable v => exact v.emitsBoth_setToZero
  | byteElement => exact absurd rfl hbyte
  | tuple components => exact .of_error (Emits.fault _ h) (Emits.fault _ h)

/-- **Keeping the operands changes nothing else**, except where memory is cleared for external functions
under another name.

The two ways to read a place are refused alike.  Where the read succeeds, its code runs into the same fault
with and without the operands to be kept, or leaves the same words: in the stead of the operands if they
are taken, else above them.  Nothing else of the machine changes, but for memory, which may grow by zeros.
Of a place of a type that its location has values of, the words are a value.

The two ways to clear a place that is no byte are refused alike as well.  Their codes run into the same
fault, or differ in that the operands lie on what is left of the stack.  This fails exactly for padded
cells of memory whose type is another name of external functions: there one word is pushed and two are
written, and the address is mistaken for the second one.

**Proof sketch.** Code that has its inputs does not see what lies below them (`Machine.exists_run_eq`), so
it is enough to compare how the codes begin (`KeepsBelow.of_before`).  A struct is cleared member by
member, and each member leaves the operands of the struct on top (`KeepsTop`).  That a read only reads is a
fact about each of its instructions (`Place.confined_retrieve`). -/
theorem keeps_operands (place : Place) (out : Output) :
    (∃ code code' r, EmitsFrom sc out.code.height (place.retrieve true) code r ∧
      EmitsFrom sc out.code.height (place.retrieve false) code' r ∧
      ∀ out', (place.retrieve true).exec sc out = (.ok (), out') →
        ReadsAbove place.referenceSize (place.readSize sc.kind) code code') ∧
    (place.Fits sc.structs → place.readSize sc.kind = place.sizeOnStack) ∧
    (place ≠ .byteElement → (∀ cell, place = .memory cell → cell.WritesOwnWords) →
      EmitsBoth sc out.code.height (ClearsBelow place.referenceSize)
        (place.setToZero true) (place.setToZero false)) ∧
    ∀ cell, place = .memory cell → ¬cell.WritesOwnWords →
      ∃ code code', Emits sc (place.setToZero true) code (.ok ()) ∧
        Emits sc (place.setToZero false) code' (.ok ()) ∧ ¬ClearsBelow place.referenceSize code code' := by
  refine ⟨?_, fun hfits => readSize_eq_sizeOnStack hfits sc.kind, place.emitsBoth_setToZero, ?_⟩
  · have hboth : EmitsBoth sc out.code.height (KeepsBelow place.referenceSize (place.readSize sc.kind))
        (place.retrieve true) (place.retrieve false) := place.emitsBoth_retrieve
    obtain ⟨code, code', r, hcode, hcode', hkeeps⟩ := hboth
    refine ⟨code, code', r, hcode, hcode', fun out' hexec => ?_⟩
    have hread : Confined False sc IsRead (place.retrieve true) :=
      place.confined_retrieve (fun hfalse => hfalse.elim) true
    exact (hkeeps (hcode.of_exec_eq_ok hexec).1).readsAbove
      (hread.emitsOnly.forall_mem_of_exec_eq_ok hcode hexec)
  · rintro cell rfl hown
    obtain ⟨htaking, hkeeping⟩ := cell.emits_setToZero_of_not_writesOwnWords hown
    exact ⟨_, _, .bind_nil (.logEvent _) htaking, .bind_nil (.logEvent _) hkeeping,
      MemoryCell.not_clearsBelow_clearExternalCode⟩

/-- A byte in transient storage that other values share the slot of. -/
theorem keeps_operands_packed :
    (∃ code code' taken, ((Place.storage ⟨.int 8 false, .transient⟩).retrieve true).exec {}
        { code := .ofHeight 2 } = (.ok (), taken) ∧
      EmitsFrom {} 2 ((Place.storage ⟨.int 8 false, .transient⟩).retrieve true) code (.ok ()) ∧
      EmitsFrom {} 2 ((Place.storage ⟨.int 8 false, .transient⟩).retrieve false) code' (.ok ()) ∧
      ReadsAbove 2 1 code code') ∧
    EmitsBoth {} 2 (ClearsBelow 2) ((Place.storage ⟨.int 8 false, .transient⟩).setToZero true)
      ((Place.storage ⟨.int 8 false, .transient⟩).setToZero false) := by
  obtain ⟨taken, htaken⟩ : ∃ taken, ((Place.storage ⟨.int 8 false, .transient⟩).retrieve true).exec {}
      { code := .ofHeight 2 } = (.ok (), taken) := Emit.exists_exec_eq_ok (by decide +kernel)
  obtain ⟨⟨code, code', r, hcode, hcode', hreads⟩, -, hclears, -⟩ :=
    @keeps_operands {} (.storage ⟨.int 8 false, .transient⟩) { code := .ofHeight 2 }
  obtain rfl := (hcode.of_exec_eq_ok htaken).1
  exact ⟨⟨code, code', taken, htaken, hcode, hcode', hreads taken htaken⟩, hclears (by simp) (by simp)⟩

/-- A cell at the address 0x80 for an external function under another name, cleared above the number 0x20.
The code that takes the address writes at 0x20 instead, a word made of the address, and takes 0x20 as well.
The code that keeps the address writes at 0x80 and leaves 0x20 in its stead. -/
theorem setToZero_callback_loses_address :
    ∃ (cell : MemoryCell) (taken kept : Output) (m m' : Machine),
      cell = ⟨.named "Callback" (.function .external), true⟩ ∧
      ((Place.memory cell).setToZero true).exec {} { code := .ofHeight 3 } = (.ok (), taken) ∧
      ((Place.memory cell).setToZero false).exec {} { code := .ofHeight 3 } = (.ok (), kept) ∧
      ({ stack := [0x80, 0x20, 0xbb] } : Machine).run taken.code.ops.toList = .ok m ∧
      ({ stack := [0x80, 0x20, 0xbb] } : Machine).run kept.code.ops.toList = .ok m' ∧
      m.stack = [0xbb] ∧ m.memory.loadWord 0x20 = 0x80 <<< 96 ∧
      m'.stack = [0x20, 0xbb] ∧ m'.memory.loadWord 0x20 = 0 := by
  obtain ⟨place, hplace⟩ : ∃ place : Place,
      place = .memory ⟨.named "Callback" (.function .external), true⟩ := ⟨_, rfl⟩
  have htaking : (({ stack := [0x80, 0x20, 0xbb] } : Machine).run
      ((place.setToZero true).exec {} { code := .ofHeight 3 }).2.code.ops.toList).map
        (fun m => (m.stack, m.memory.loadWord 0x20)) = .ok ([0xbb], 0x80 <<< 96) := by
    rw [hplace]
    decide +kernel
  have hkeeping : (({ stack := [0x80, 0x20, 0xbb] } : Machine).run
      ((place.setToZero false).exec {} { code := .ofHeight 3 }).2.code.ops.toList).map
        (fun m => (m.stack, m.memory.loadWord 0x20)) = .ok ([0x20, 0xbb], 0) := by
    rw [hplace]
    decide +kernel
  obtain ⟨taken, m, htaken, hm, hleft⟩ :=
    Emit.exists_run_eq_ok (by rw [hplace]; decide +kernel) htaking
  obtain ⟨kept, m', hkept, hm', hleft'⟩ :=
    Emit.exists_run_eq_ok (by rw [hplace]; decide +kernel) hkeeping
  rw [hplace] at htaken hkept
  exact ⟨_, taken, kept, m, m', rfl, htaken, hkept, hm, hm', (congrArg (·.1) hleft).symm,
    (congrArg (·.2) hleft).symm, (congrArg (·.1) hleft').symm, (congrArg (·.2) hleft').symm⟩

end Place

end WordPlaces
