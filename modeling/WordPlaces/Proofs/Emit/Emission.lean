import WordPlaces.Emit.Stack

/-!
# What a computation emits

Most computations that emit code emit the same instructions whatever the section looks like that
they add to: the section only decides how many of the instructions can be appended.  Such a
computation is described by its code and by how it ends once all of the code is there.

## Main definitions

* `Emit.exec` — a computation as a function from output to result and output.
* `CodeSection.extend` — a section with instructions appended up to the first that cannot be.
* `heightFrom` — the height of the stack after code, where every instruction has its inputs.
* `EmitsFrom`, `Emits` — the code that a computation emits, on a stack of one height and on all.
* `AppendsFrom` — the code that a computation appends when it succeeds.

## Main results

* `CodeSection.extend_of_heightFrom` — code whose instructions have their inputs is appended as
  a whole, as long as the height stays within a counter.
* `CodeSection.extend_lower` — what can be appended on a high stack can be appended on a lower
  one that has all inputs.
* `EmitsFrom.bind`, `Emits.bind` — the code of a sequence is the code of its parts in order.
* `EmitsFrom.of_exec_eq_ok` — the code of a computation that succeeds.
* `EmitsFrom.exists_exec_eq_ok_iff` — a computation succeeds where all of its code can be appended.
-/

set_option autoImplicit false

namespace WordPlaces

/-! ## Running a computation -/

/-- Runs a computation in a scope on an output. -/
def Emit.exec {α : Type} (m : Emit α) (sc : Scope) (out : Output) :
    Except Failure α × Output :=
  ((m.run sc).run.run out).run

namespace Emit

variable {α β : Type} (sc : Scope) (out : Output)

/-- A sequence runs its second part where the first one succeeds. -/
theorem exec_bind (m : Emit α) (f : α → Emit β) :
    (m >>= f).exec sc out =
      match m.exec sc out with
      | (.ok a, out') => (f a).exec sc out'
      | (.error e, out') => (.error e, out') := by
  change ((m.run sc).run.run out >>= fun x => ExceptT.bindCont (fun a => (f a).run sc) x.1 x.2) = _
  rw [exec]
  generalize (m.run sc).run.run out = x
  obtain ⟨_ | _, _⟩ := x <;> rfl

/-- A sequence succeeds where its parts do one after the other. -/
theorem exec_bind_eq_ok {sc : Scope} {out out' : Output} {m : Emit α} {f : α → Emit β} {b : β} :
    (m >>= f).exec sc out = (.ok b, out') ↔
      ∃ a mid, m.exec sc out = (.ok a, mid) ∧ (f a).exec sc mid = (.ok b, out') := by
  rw [exec_bind]
  constructor
  · intro h
    split at h
    · rename_i a mid hm
      exact ⟨a, mid, hm, h⟩
    · exact absurd (Prod.mk.inj h).1 (by simp)
  · rintro ⟨a, mid, hm, h⟩
    rw [hm]
    exact h

/-- A computation that succeeds leaves an output. -/
theorem exists_exec_eq_ok {sc : Scope} {out : Output} {m : Emit Unit}
    (h : (m.exec sc out).1.toBool = true) : ∃ out', m.exec sc out = (.ok (), out') := by
  rcases hm : m.exec sc out with ⟨_ | _, out'⟩
  · rw [hm] at h
    contradiction
  · exact ⟨out', rfl⟩

/-- A value is returned without a change. -/
theorem exec_pure (a : α) : (pure a : Emit α).exec sc out = (.ok a, out) := rfl

/-- The output can be looked at. -/
theorem exec_get : (get : Emit Output).exec sc out = (.ok out, out) := rfl

/-- The height of the stack is that of the section. -/
theorem exec_stackHeight : stackHeight.exec sc out = (.ok out.code.height, out) := rfl

/-- A value that is there is found without a change. -/
theorem exec_orFault_eq_ok {sc : Scope} {out out' : Output} {x : Except Fault α} {a : α} :
    (orFault x).exec sc out = (.ok a, out') ↔ x = .ok a ∧ out = out' := by
  cases x with
  | error f =>
    refine ⟨fun h => absurd (Prod.mk.inj h).1 (by simp), fun h => by simp at h⟩
  | ok b =>
    change ((.ok b, out) : Except Failure α × Output) = (.ok a, out') ↔ _
    simp

/-- An event is added to the log, and the section stays as it is. -/
theorem exec_logEvent (e : Event) :
    (logEvent e).exec sc out = (.ok (), { out with events := out.events.push e }) := rfl

/-- Emitting appends the instruction, or fails where it cannot be appended. -/
theorem exec_emit (op : Instruction) :
    (emit op).exec sc out =
      let events := out.events.push (.instruction op out.code.height)
      match out.code.heightAfter op with
      | .ok height => (.ok (), ⟨out.code.push op height, events⟩)
      | .error f => (.error (.fault f), ⟨out.code, events⟩) := by
  rw [emit, exec_bind, exec_stackHeight]
  change (logEvent _ >>= _ : Emit Unit).exec sc out = _
  rw [exec_bind, exec_logEvent]
  simp only [exec_bind, exec_get]
  cases out.code.heightAfter op <;> rfl

end Emit

/-! ## Heights -/

/-- The height of the stack after code on a stack of height `h`, if every instruction finds its
inputs. -/
def heightFrom (h : Nat) : Code → Option Nat
  | [] => some h
  | op :: code => if op.inputs ≤ h then heightFrom (h - op.inputs + op.outputs) code else none

/-- The most slots that code can add to the stack. -/
def growth : Code → Nat
  | [] => 0
  | op :: code => op.outputs - op.inputs + growth code

/-- No code leaves the height as it is. -/
@[simp] theorem heightFrom_nil (h : Nat) : heightFrom h [] = some h := rfl

/-- An instruction that has its inputs replaces them by its outputs. -/
theorem heightFrom_cons_of_le {h : Nat} {op : Instruction} (code : Code) (hop : op.inputs ≤ h) :
    heightFrom h (op :: code) = heightFrom (h - op.inputs + op.outputs) code := if_pos hop

/-- The inputs of the first instruction are there. -/
theorem inputs_le_of_heightFrom {h h' : Nat} {op : Instruction} {code : Code}
    (hh : heightFrom h (op :: code) = some h') :
    op.inputs ≤ h ∧ heightFrom (h - op.inputs + op.outputs) code = some h' := by
  rw [heightFrom] at hh
  split at hh
  · exact ⟨‹_›, hh⟩
  · contradiction

/-- The height after two pieces of code is the one after the second on what the first leaves. -/
theorem heightFrom_append (h : Nat) (code code' : Code) :
    heightFrom h (code ++ code') = (heightFrom h code).bind (heightFrom · code') := by
  induction code generalizing h with
  | nil => rfl
  | cons op code ih =>
    rw [List.cons_append, heightFrom, heightFrom]
    split
    · exact ih _
    · rfl

/-- Code that has its inputs leaves further slots below it alone. -/
theorem heightFrom_add {h h' : Nat} {code : Code} (k : Nat) (hh : heightFrom h code = some h') :
    heightFrom (h + k) code = some (h' + k) := by
  induction code generalizing h with
  | nil => simp_all
  | cons op code ih =>
    obtain ⟨hop, hh⟩ := inputs_le_of_heightFrom hh
    rw [heightFrom_cons_of_le _ (by omega), ← ih hh]
    congr 1
    omega

/-- Two pieces of code add to the stack what both can add. -/
theorem growth_append (code code' : Code) : growth (code ++ code') = growth code + growth code' := by
  induction code with
  | nil => exact (Nat.zero_add _).symm
  | cons op code ih => rw [List.cons_append, growth, growth, ih, Nat.add_assoc]

/-- The height grows by no more than the code can add. -/
theorem le_add_growth {h h' : Nat} {code : Code} (hh : heightFrom h code = some h') :
    h' ≤ h + growth code := by
  induction code generalizing h with
  | nil =>
    obtain rfl := Option.some.inj hh
    exact Nat.le_refl _
  | cons op code ih =>
    obtain ⟨hop, hh⟩ := inputs_le_of_heightFrom hh
    have := ih hh
    rw [growth]
    omega

/-- Slots that lie below all inputs are not missed. -/
theorem heightFrom_unique {a b h h' k : Nat} {code : Code} (hab : heightFrom a code = some b)
    (hh : heightFrom h code = some h') (hk : h = a + k) : h' = b + k := by
  rw [hk, heightFrom_add k hab] at hh
  exact (Option.some.inj hh).symm

/-! ## Appending code -/

namespace CodeSection

/-- The section with instructions appended in order, up to the first that cannot be, and the
fault of that one. -/
def extend (s : CodeSection) : Code → CodeSection × Option Fault
  | [] => (s, none)
  | op :: code =>
    match s.heightAfter op with
    | .ok height => (s.push op height).extend code
    | .error f => (s, some f)

/-- Code is appended part by part. -/
theorem extend_append (s : CodeSection) (code code' : Code) :
    s.extend (code ++ code') =
      match s.extend code with
      | (s', none) => s'.extend code'
      | (s', some f) => (s', some f) := by
  induction code generalizing s with
  | nil => rfl
  | cons op code ih =>
    rw [List.cons_append, extend, extend]
    cases s.heightAfter op with
    | ok height => exact ih _
    | error f => rfl

/-- The height after an instruction that can be appended. -/
theorem heightAfter_eq_ok {s : CodeSection} {op : Instruction} {height : Nat}
    (h : s.heightAfter op = .ok height) :
    op.inputs ≤ s.height ∧ height = s.height - op.inputs + op.outputs ∧ height < countLimit := by
  simp only [heightAfter, checkedCount] at h
  split at h
  · contradiction
  · split at h
    · obtain rfl := Except.ok.inj h
      exact ⟨by omega, rfl, ‹_›⟩
    · contradiction

/-- An instruction can be appended if its inputs are there and the height can be counted. -/
theorem heightAfter_of_le {s : CodeSection} {op : Instruction} (hin : op.inputs ≤ s.height)
    (hlt : s.height - op.inputs + op.outputs < countLimit) :
    s.heightAfter op = .ok (s.height - op.inputs + op.outputs) := by
  rw [heightAfter, if_neg (by omega), checkedCount, if_pos hlt]

/-- Code that was appended as a whole had all its inputs. -/
theorem extend_eq_none {s s' : CodeSection} {code : Code} (h : s.extend code = (s', none)) :
    heightFrom s.height code = some s'.height ∧ s'.ops = s.ops ++ code.toArray := by
  induction code generalizing s with
  | nil => obtain rfl := (Prod.mk.inj h).1; simp
  | cons op code ih =>
    rw [extend] at h
    split at h
    · rename_i height hop
      obtain ⟨hin, rfl, -⟩ := heightAfter_eq_ok hop
      obtain ⟨hheight, hops⟩ := ih h
      refine ⟨by rw [heightFrom_cons_of_le _ hin]; exact hheight, ?_⟩
      rw [hops, push, ← Array.toList_inj]
      simp
    · exact absurd (Prod.mk.inj h).2 (by simp)

/-- The height after the first instruction of code that was appended as a whole is within a counter. -/
theorem lt_of_extend_eq_none {s s' : CodeSection} {op : Instruction} {code : Code}
    (h : s.extend (op :: code) = (s', none)) : s.height - op.inputs + op.outputs < countLimit := by
  rw [extend] at h
  split at h
  · rename_i height hop
    obtain ⟨-, rfl, hlt⟩ := heightAfter_eq_ok hop
    exact hlt
  · exact absurd (Prod.mk.inj h).2 (by simp)

/-- Code whose instructions have their inputs is appended as a whole, as long as the height stays
within a counter. -/
theorem extend_of_heightFrom {s : CodeSection} {h' : Nat} {code : Code}
    (hh : heightFrom s.height code = some h') (hlt : s.height + growth code < countLimit) :
    s.extend code = (⟨s.ops ++ code.toArray, h'⟩, none) := by
  induction code generalizing s with
  | nil => obtain rfl := Option.some.inj hh; simp [extend]
  | cons op code ih =>
    obtain ⟨hin, hh⟩ := inputs_le_of_heightFrom hh
    rw [growth] at hlt
    rw [extend, heightAfter_of_le hin (by omega)]
    simp only
    rw [ih hh (by simp only [push]; omega)]
    simp only [push, Prod.mk.injEq, mk.injEq, and_true]
    rw [← Array.toList_inj]
    simp

/-- Code that can be appended on a high stack can be appended on a lower one that has all of its
inputs. -/
theorem extend_lower {s s' t : CodeSection} {h' : Nat} {code : Code}
    (h : s.extend code = (s', none)) (hle : t.height ≤ s.height)
    (hh : heightFrom t.height code = some h') :
    t.extend code = (⟨t.ops ++ code.toArray, h'⟩, none) := by
  induction code generalizing s t with
  | nil => obtain rfl := Option.some.inj hh; simp [extend]
  | cons op code ih =>
    obtain ⟨hin, hh⟩ := inputs_le_of_heightFrom hh
    rw [extend] at h
    split at h
    · rename_i height hop
      obtain ⟨-, rfl, hlt⟩ := heightAfter_eq_ok hop
      rw [extend, heightAfter_of_le hin (by omega)]
      simp only
      rw [ih h (by simp only [push]; omega) hh]
      simp only [push, Prod.mk.injEq, mk.injEq, and_true]
      rw [← Array.toList_inj]
      simp
    · exact absurd (Prod.mk.inj h).2 (by simp)

/-- The height after code that was appended as a whole is within a counter. -/
theorem height_lt_of_extend_eq_none {s s' : CodeSection} {code : Code} (hne : code ≠ [])
    (h : s.extend code = (s', none)) : s'.height < countLimit := by
  induction code generalizing s with
  | nil => contradiction
  | cons op code ih =>
    have hlt := lt_of_extend_eq_none h
    rw [extend] at h
    split at h
    · rename_i height hop
      obtain ⟨-, rfl, -⟩ := heightAfter_eq_ok hop
      cases code with
      | nil =>
        obtain rfl := (Prod.mk.inj h).1
        exact hlt
      | cons op' code => exact ih (List.cons_ne_nil _ _) h
    · exact absurd (Prod.mk.inj h).2 (by simp)

/-- One instruction that has its inputs is appended as long as the height stays within a counter. -/
theorem exists_extend_singleton_iff {s : CodeSection} {op : Instruction}
    (hin : op.inputs ≤ s.height) :
    (∃ s', s.extend [op] = (s', none)) ↔ s.height - op.inputs + op.outputs < countLimit := by
  refine ⟨fun ⟨s', hs'⟩ => lt_of_extend_eq_none hs', fun hlt =>
    ⟨s.push op (s.height - op.inputs + op.outputs), ?_⟩⟩
  rw [extend, heightAfter_of_le hin hlt]
  rfl

end CodeSection

/-! ## The code of a computation -/

/-- On a stack of height `h`, the computation emits `code` and ends with `r`, unless one of the
instructions cannot be appended: then it ends with the fault of that one. -/
def EmitsFrom {α : Type} (sc : Scope) (h : Nat) (m : Emit α) (code : Code)
    (r : Except Failure α) : Prop :=
  ∀ out : Output, out.code.height = h → ∃ events, m.exec sc out =
    match out.code.extend code with
    | (s, none) => (r, ⟨s, events⟩)
    | (s, some f) => (.error (.fault f), ⟨s, events⟩)

/-- The computation emits `code` and ends with `r`, on stacks of every height. -/
def Emits {α : Type} (sc : Scope) (m : Emit α) (code : Code) (r : Except Failure α) : Prop :=
  ∀ h, EmitsFrom sc h m code r

/-- On stacks of height `h` or more, the computation succeeds and appends `code`, as long as the
height stays within a counter. -/
def AppendsFrom {α : Type} (sc : Scope) (h : Nat) (m : Emit α) (code : Code) (a : α) : Prop :=
  ∀ out : Output, h ≤ out.code.height → out.code.height + growth code < countLimit →
    ∃ out', m.exec sc out = (.ok a, out') ∧ out'.code.ops = out.code.ops ++ code.toArray ∧
      heightFrom out.code.height code = some out'.code.height

section Rules

variable {α β : Type} {sc : Scope} {h : Nat}

/-- A computation that succeeds has appended all of its code. -/
theorem EmitsFrom.of_exec_eq_ok {m : Emit α} {code : Code} {r : Except Failure α} {a : α}
    {out out' : Output} (hm : EmitsFrom sc out.code.height m code r)
    (hexec : m.exec sc out = (.ok a, out')) :
    r = .ok a ∧ out.code.extend code = (out'.code, none) := by
  obtain ⟨events, he⟩ := hm out rfl
  rw [hexec] at he
  split at he
  · obtain ⟨rfl, rfl⟩ := Prod.mk.inj he
    exact ⟨rfl, ‹_›⟩
  · exact absurd (Prod.mk.inj he).1 (by simp)

/-- A computation all of whose code can be appended ends as it does. -/
theorem EmitsFrom.exec_eq {m : Emit α} {code : Code} {r : Except Failure α} {out : Output}
    {s : CodeSection} (hm : EmitsFrom sc out.code.height m code r)
    (hs : out.code.extend code = (s, none)) :
    ∃ events, m.exec sc out = (r, ⟨s, events⟩) := by
  obtain ⟨events, he⟩ := hm out rfl
  rw [hs] at he
  exact ⟨events, he⟩

/-- A computation succeeds where all of its code can be appended. -/
theorem EmitsFrom.exists_exec_eq_ok_iff {m : Emit α} {code : Code} {a : α} {out : Output}
    (hm : EmitsFrom sc out.code.height m code (.ok a)) :
    (∃ out', m.exec sc out = (.ok a, out')) ↔ ∃ s, out.code.extend code = (s, none) := by
  refine ⟨fun ⟨out', hexec⟩ => ⟨_, (hm.of_exec_eq_ok hexec).2⟩, fun ⟨s, hs⟩ => ?_⟩
  obtain ⟨events, hexec⟩ := hm.exec_eq hs
  exact ⟨_, hexec⟩

/-- A value is returned without code. -/
theorem EmitsFrom.pure (a : α) : EmitsFrom sc h (pure a) [] (.ok a) :=
  fun out _ => ⟨out.events, rfl⟩

/-- A failure comes without code. -/
theorem EmitsFrom.throw (e : Failure) : EmitsFrom sc h (throw e : Emit α) [] (.error e) :=
  fun out _ => ⟨out.events, rfl⟩

/-- The scope is looked at without code. -/
theorem EmitsFrom.read : EmitsFrom sc h (read : Emit Scope) [] (.ok sc) :=
  fun out _ => ⟨out.events, rfl⟩

/-- The height of the stack is known without code. -/
theorem EmitsFrom.stackHeight : EmitsFrom sc h stackHeight [] (.ok h) :=
  fun out hout => ⟨out.events, by rw [Emit.exec_stackHeight, hout]; rfl⟩

/-- An event is logged without code. -/
theorem EmitsFrom.logEvent (e : Event) : EmitsFrom sc h (logEvent e) [] (.ok ()) :=
  fun out _ => ⟨out.events.push e, rfl⟩

/-- An instruction is emitted on stacks of every height, though it may not have its inputs. -/
theorem EmitsFrom.emit (op : Instruction) : EmitsFrom sc h (emit op) [op] (.ok ()) := by
  intro out _
  refine ⟨out.events.push (.instruction op out.code.height), ?_⟩
  rw [Emit.exec_emit, CodeSection.extend]
  cases out.code.heightAfter op <;> rfl

/-- A sequence emits the code of its first part and then, on the height after it, the code of the
second one. -/
theorem EmitsFrom.bind {m : Emit α} {f : α → Emit β} {code code' : Code} {a : α}
    {r : Except Failure β} (hm : EmitsFrom sc h m code (.ok a))
    (hf : ∀ h', heightFrom h code = some h' → EmitsFrom sc h' (f a) code' r) :
    EmitsFrom sc h (m >>= f) (code ++ code') r := by
  intro out hout
  obtain ⟨events, he⟩ := hm out hout
  rw [Emit.exec_bind, he, CodeSection.extend_append]
  rcases hs : out.code.extend code with ⟨s, _ | f⟩
  · have hh := (CodeSection.extend_eq_none hs).1
    rw [hout] at hh
    exact hf _ hh ⟨s, events⟩ rfl
  · exact ⟨events, rfl⟩

/-- A sequence whose first part fails emits no more than it. -/
theorem EmitsFrom.bind_error {m : Emit α} {f : α → Emit β} {code : Code} {e : Failure}
    (hm : EmitsFrom sc h m code (.error e)) : EmitsFrom sc h (m >>= f) code (.error e) := by
  intro out hout
  obtain ⟨events, he⟩ := hm out hout
  refine ⟨events, ?_⟩
  rw [Emit.exec_bind, he]
  obtain ⟨s, _ | f⟩ := out.code.extend code <;> rfl

/-- A computation whose code has its inputs succeeds. -/
theorem Emits.appendsFrom {m : Emit α} {code : Code} {a : α} {h' : Nat}
    (hm : Emits sc m code (.ok a)) (hh : heightFrom h code = some h') :
    AppendsFrom sc h m code a := by
  intro out hle hlt
  obtain ⟨k, hk⟩ := Nat.exists_eq_add_of_le hle
  have hheight := heightFrom_add k hh
  rw [← hk] at hheight
  obtain ⟨events, he⟩ := (hm _).exec_eq (CodeSection.extend_of_heightFrom hheight hlt)
  exact ⟨_, he, rfl, hheight⟩

namespace Emits

/-- A value is returned without code. -/
theorem pure (a : α) : Emits sc (pure a) [] (.ok a) := fun _ => .pure a

/-- A failure comes without code. -/
theorem throw (e : Failure) : Emits sc (throw e : Emit α) [] (.error e) := fun _ => .throw e

/-- A fault comes without code. -/
theorem fault (f : Fault) : Emits sc (fault f : Emit α) [] (.error (.fault f)) :=
  fun _ => .throw _

/-- The scope is looked at without code. -/
theorem read : Emits sc (read : Emit Scope) [] (.ok sc) := fun _ => .read

/-- An event is logged without code. -/
theorem logEvent (e : Event) : Emits sc (logEvent e) [] (.ok ()) := fun _ => .logEvent e

/-- An instruction is the code that is emitted for it. -/
theorem emit (op : Instruction) : Emits sc (emit op) [op] (.ok ()) := fun _ => .emit op

/-- A sequence emits the code of its parts in order. -/
theorem bind {m : Emit α} {f : α → Emit β} {code code' : Code} {a : α} {r : Except Failure β}
    (hm : Emits sc m code (.ok a)) (hf : Emits sc (f a) code' r) :
    Emits sc (m >>= f) (code ++ code') r :=
  fun h => (hm h).bind fun h' _ => hf h'

/-- A sequence whose first part fails emits no more than it. -/
theorem bind_error {m : Emit α} {f : α → Emit β} {code : Code} {e : Failure}
    (hm : Emits sc m code (.error e)) : Emits sc (m >>= f) code (.error e) :=
  fun h => (hm h).bind_error

/-- A first part that emits nothing. -/
theorem bind_nil {m : Emit α} {f : α → Emit β} {code : Code} {a : α} {r : Except Failure β}
    (hm : Emits sc m [] (.ok a)) (hf : Emits sc (f a) code r) : Emits sc (m >>= f) code r :=
  hm.bind hf

/-- A value that is there is returned without code. -/
theorem orFault_ok (a : α) : Emits sc (orFault (.ok a)) [] (.ok a) := .pure a

/-- A rejection points to the source of the access and comes without code. -/
theorem reject (d : Span → Diagnostic) :
    Emits sc (reject d : Emit α) [] (.error (.diagnostic (d sc.site))) :=
  .bind_nil .read (.throw _)

/-- The text of a type is made without code. -/
theorem displayTy (ty : Ty) : Emits sc (displayTy ty) [] (.ok (ty.display sc.structs)) :=
  .bind_nil .read (.pure _)

/-- A list of instructions is the code that is emitted for it. -/
theorem emitAll (code : Code) : Emits sc (emitAll code) code (.ok ()) := by
  induction code with
  | nil => exact .pure ()
  | cons op code ih => exact (Emits.emit op).bind ih

/-- The code of a computation that is repeated is repeated. -/
theorem repeatEmit {m : Emit Unit} {code : Code} (hm : Emits sc m code (.ok ())) (n : Nat) :
    Emits sc (repeatEmit n m) (List.replicate n code).flatten (.ok ()) := by
  induction n with
  | zero => exact .pure ()
  | succ n ih => exact hm.bind ih

/-- A computation that is repeated fails as it does the first time. -/
theorem repeatEmit_error {m : Emit Unit} {code : Code} {e : Failure} (hm : Emits sc m code (.error e))
    {n : Nat} (hn : n ≠ 0) : Emits sc (WordPlaces.repeatEmit n m) code (.error e) := by
  cases n with
  | zero => contradiction
  | succ n => exact hm.bind_error

end Emits

end Rules

end WordPlaces
