import WordPlaces.Proofs.Emit.Emission

/-!
# Which instructions a computation emits

Some facts about the code of a computation are facts about each of its instructions.  They hold whatever
the section looks like that is added to, and also of what has been emitted when the computation fails.

## Main definitions

* `EmitsOnly` — every instruction that a computation emits has a property.
* `Confined` — the same, and where it is strict, the computation is not refused for a slot that is out of
  reach.

## Main results

* `Confined.bind`, `Confined.forM`, `Confined.repeatEmit` — sequences of such computations.
* `Confined.dupSlot`, `Confined.swapSlot` — a checked stack instruction is one that reaches its slot.
-/

set_option autoImplicit false

namespace WordPlaces

/-- The computation emits only instructions with the property, also where it fails. -/
def EmitsOnly {α : Type} (sc : Scope) (P : Instruction → Prop) (m : Emit α) : Prop :=
  ∀ out, ∃ code, (m.exec sc out).2.code.ops.toList = out.code.ops.toList ++ code ∧ ∀ op ∈ code, P op

variable {α β : Type} {sc : Scope} {P Q : Instruction → Prop}

namespace EmitsOnly

/-- A computation that leaves the section as it is. -/
theorem of_code_eq {m : Emit α} (h : ∀ out, (m.exec sc out).2.code = out.code) : EmitsOnly sc P m :=
  fun out => ⟨[], by rw [h, List.append_nil], fun _ hop => absurd hop List.not_mem_nil⟩

/-- A weaker property holds of the instructions as well. -/
theorem mono {m : Emit α} (hm : EmitsOnly sc P m) (h : ∀ op, P op → Q op) : EmitsOnly sc Q m := by
  intro out
  obtain ⟨code, hcode, hall⟩ := hm out
  exact ⟨code, hcode, fun op hop => h op (hall op hop)⟩

/-- A value is returned without an instruction. -/
theorem pure (a : α) : EmitsOnly sc P (pure a) := of_code_eq fun _ => rfl

/-- A fault comes without an instruction. -/
theorem fault (f : Fault) : EmitsOnly sc P (fault f : Emit α) := of_code_eq fun _ => rfl

/-- A value that may not be there is looked for without an instruction. -/
theorem orFault (x : Except Fault α) : EmitsOnly sc P (orFault x) :=
  of_code_eq fun _ => by cases x <;> rfl

/-- An event is logged without an instruction. -/
theorem logEvent (e : Event) : EmitsOnly sc P (logEvent e) := of_code_eq fun _ => rfl

/-- What a computation emits that looks at the scope. -/
theorem bind_read {f : Scope → Emit α} (h : EmitsOnly sc P (f sc)) :
    EmitsOnly sc P (MonadReaderOf.read >>= f) := h

/-- The text of a type is made without an instruction. -/
theorem displayTy (ty : Ty) : EmitsOnly sc P (displayTy ty) := of_code_eq fun _ => rfl

/-- An instruction that has the property is emitted, or nothing is. -/
theorem emit {op : Instruction} (h : P op) : EmitsOnly sc P (emit op) := by
  intro out
  rw [Emit.exec_emit]
  cases out.code.heightAfter op with
  | ok height => exact ⟨[op], by simp [CodeSection.push], List.forall_mem_singleton.2 h⟩
  | error f => exact ⟨[], by simp, fun _ hop => absurd hop List.not_mem_nil⟩

/-- The parts of a sequence emit what the whole emits. -/
theorem bind {m : Emit α} {f : α → Emit β} (hm : EmitsOnly sc P m) (hf : ∀ a, EmitsOnly sc P (f a)) :
    EmitsOnly sc P (m >>= f) := by
  intro out
  obtain ⟨code, hcode, hall⟩ := hm out
  rw [Emit.exec_bind]
  rcases hexec : m.exec sc out with ⟨_ | a, mid⟩ <;> rw [hexec] at hcode
  · exact ⟨code, hcode, hall⟩
  · obtain ⟨code', hcode', hall'⟩ := hf a mid
    refine ⟨code ++ code', ?_, fun op hop => (List.mem_append.1 hop).elim (hall op) (hall' op)⟩
    rw [hcode', hcode, List.append_assoc]

/-- Instructions that have the property are emitted, up to the first that cannot be. -/
theorem emitAll {code : Code} (h : ∀ op ∈ code, P op) : EmitsOnly sc P (emitAll code) := by
  induction code with
  | nil => exact pure ()
  | cons op code ih =>
    exact (emit (h op List.mem_cons_self)).bind fun _ =>
      ih fun op' h' => h op' (List.mem_cons_of_mem _ h')

/-- The code of a computation that succeeds is made of such instructions. -/
theorem forall_mem_of_exec_eq_ok {m : Emit α} {code : Code} {r : Except Failure α} {a : α}
    {out out' : Output} (hm : EmitsOnly sc P m) (hcode : EmitsFrom sc out.code.height m code r)
    (hexec : m.exec sc out = (.ok a, out')) : ∀ op ∈ code, P op := by
  obtain ⟨code', hops, hall⟩ := hm out
  have hextend := (CodeSection.extend_eq_none (hcode.of_exec_eq_ok hexec).2).2
  rw [hexec, hextend, Array.toList_append, List.append_cancel_left_eq] at hops
  obtain rfl : code = code' := hops
  exact hall

end EmitsOnly

/-! ## Slots that are out of reach -/

/-- The failure is that of a stack instruction that does not reach its slot. -/
def Failure.isTooDeep : Failure → Bool
  | .diagnostic (.stackTooDeep ..) => true
  | _ => false

/-- The computation emits only instructions with the property, also where it fails.  If it is strict, it
does not fail for a slot that is out of reach. -/
structure Confined {α : Type} (strict : Prop) (sc : Scope) (P : Instruction → Prop) (m : Emit α) :
    Prop where
  emitsOnly : EmitsOnly sc P m
  reaches : strict → ∀ out e out', m.exec sc out = (.error e, out') → e.isTooDeep = false

namespace Confined

variable {strict : Prop}

/-- A computation that leaves the section as it is, and fails only with a fault. -/
theorem of_code_eq {m : Emit α} (h : ∀ out, (m.exec sc out).2.code = out.code)
    (hfails : ∀ out e out', m.exec sc out = (.error e, out') → e.isTooDeep = false) :
    Confined strict sc P m := ⟨.of_code_eq h, fun _ => hfails⟩

/-- A weaker property holds of the instructions as well. -/
theorem mono {m : Emit α} (hm : Confined strict sc P m) (h : ∀ op, P op → Q op) :
    Confined strict sc Q m := ⟨hm.emitsOnly.mono h, hm.reaches⟩

/-- A value is returned and nothing is out of reach. -/
theorem pure (a : α) : Confined strict sc P (pure a) :=
  of_code_eq (fun _ => rfl) fun _ _ _ h => by cases h

/-- A fault is no slot that is out of reach. -/
theorem fault (f : Fault) : Confined strict sc P (fault f : Emit α) :=
  of_code_eq (fun _ => rfl) fun _ _ _ h => by cases h; rfl

/-- A computation that is refused for another reason than a slot that is out of reach. -/
theorem reject {d : Span → Diagnostic} (h : strict → ∀ span, (Failure.diagnostic (d span)).isTooDeep = false) :
    Confined strict sc P (reject d : Emit α) :=
  ⟨.of_code_eq fun _ => rfl, fun hs _ _ _ hexec => by cases hexec; exact h hs _⟩

/-- A value that is missing is no slot that is out of reach. -/
theorem orFault (x : Except Fault α) : Confined strict sc P (orFault x) := by
  cases x with
  | error f => exact fault f
  | ok a => exact pure a

/-- Logging an event reaches for no slot. -/
theorem logEvent (e : Event) : Confined strict sc P (logEvent e) :=
  of_code_eq (fun _ => rfl) fun _ _ _ h => by cases h

/-- The text of a type reaches for no slot. -/
theorem displayTy (ty : Ty) : Confined strict sc P (displayTy ty) :=
  of_code_eq (fun _ => rfl) fun _ _ _ h => by cases h

/-- The height of the stack reaches for no slot. -/
theorem stackHeight : Confined strict sc P stackHeight :=
  of_code_eq (fun _ => rfl) fun _ _ _ h => by cases h

/-- What a computation emits that looks at the scope. -/
theorem bind_read {f : Scope → Emit α} (h : Confined strict sc P (f sc)) :
    Confined strict sc P (MonadReaderOf.read >>= f) := ⟨h.emitsOnly, h.reaches⟩

/-- An instruction is emitted unchecked; it fails for a missing input or for the counter only. -/
theorem emit {op : Instruction} (h : P op) : Confined strict sc P (emit op) := by
  refine ⟨.emit h, fun _ out e out' hexec => ?_⟩
  rw [Emit.exec_emit] at hexec
  cases hheight : out.code.heightAfter op with
  | ok height =>
    rw [hheight] at hexec
    cases hexec
  | error f =>
    rw [hheight] at hexec
    cases hexec
    rfl

/-- The parts of a sequence emit what the whole emits, and fail for what it fails for. -/
theorem bind {m : Emit α} {f : α → Emit β} (hm : Confined strict sc P m)
    (hf : ∀ a, Confined strict sc P (f a)) : Confined strict sc P (m >>= f) := by
  refine ⟨hm.emitsOnly.bind fun a => (hf a).emitsOnly, fun hs out e out' hexec => ?_⟩
  rw [Emit.exec_bind] at hexec
  rcases hfirst : m.exec sc out with ⟨_ | a, mid⟩ <;> rw [hfirst] at hexec
  · cases hexec
    exact hm.reaches hs _ _ _ hfirst
  · exact (hf a).reaches hs _ _ _ hexec

/-- A first part that may fail and tells what comes next. -/
theorem bind_orFault {x : Except Fault α} {f : α → Emit β} (hf : ∀ a, x = .ok a → Confined strict sc P (f a)) :
    Confined strict sc P (WordPlaces.orFault x >>= f) := by
  cases x with
  | error e => exact of_code_eq (fun _ => rfl) fun _ _ _ h => by cases h; rfl
  | ok a => exact hf a rfl

/-- Instructions are emitted unchecked, one after the other. -/
theorem emitAll {code : Code} (h : ∀ op ∈ code, P op) : Confined strict sc P (emitAll code) := by
  induction code with
  | nil => exact pure ()
  | cons op code ih =>
    exact (emit (h op List.mem_cons_self)).bind fun _ =>
      ih fun op' h' => h op' (List.mem_cons_of_mem _ h')

/-- A confined computation is confined if it is repeated. -/
theorem repeatEmit {m : Emit Unit} (hm : Confined strict sc P m) (count : Nat) :
    Confined strict sc P (repeatEmit count m) := by
  induction count with
  | zero => exact pure ()
  | succ count ih => exact hm.bind fun _ => ih

/-- A computation that is confined for each member of a list is confined for the list. -/
theorem forM {as : List α} {f : α → Emit Unit} (hf : ∀ a ∈ as, Confined strict sc P (f a)) :
    Confined strict sc P (as.forM f) := by
  induction as with
  | nil => exact pure ()
  | cons a as ih =>
    exact (hf a List.mem_cons_self).bind fun _ => ih fun a' ha' => hf a' (List.mem_cons_of_mem _ ha')

/-! ### Checked stack instructions -/

/-- What comes after the check of a depth has one that is reached. -/
theorem bind_reachable {depth : Nat} {m : Emit α} (hdepth : strict → depth ≤ stackWindow)
    (hm : 1 ≤ depth → depth ≤ stackWindow → Confined strict sc P m) :
    Confined strict sc P (do reachable depth; m) := by
  unfold reachable
  split
  · exact of_code_eq (fun _ => rfl) fun _ _ _ h => by cases h; rfl
  · split
    · refine ⟨.of_code_eq fun _ => rfl, fun hs => ?_⟩
      exact absurd (hdepth hs) (Nat.not_le.2 ‹_›)
    · exact (pure ()).bind fun _ => hm (Nat.pos_of_ne_zero ‹_›) (Nat.le_of_not_lt ‹_›)

/-- A copy is checked, so that only depths within reach are emitted. -/
theorem dupSlot {depth : Nat} (hdepth : strict → depth ≤ stackWindow)
    (h : 1 ≤ depth → depth ≤ stackWindow → P (.dup depth)) :
    Confined strict sc P (dupSlot depth) :=
  bind_reachable hdepth fun hpos hle => emit (h hpos hle)

/-- An exchange is checked, so that only depths within reach are emitted. -/
theorem swapSlot {depth : Nat} (hdepth : strict → depth ≤ stackWindow)
    (h : 1 ≤ depth → depth ≤ stackWindow → P (.swap depth)) :
    Confined strict sc P (swapSlot depth) :=
  bind_reachable hdepth fun hpos hle => emit (h hpos hle)

end Confined

end WordPlaces
