import WordPlaces.Proofs.Emit.Fragments

/-!
# What a computation takes from the stack

A computation that may be refused for one reason or another need not be described by its code.  It
is enough to know how the code changes the height of the stack, if all of it is emitted, and that
missing operands are not among the reasons.

## Main definitions

* `EmitsSome` — a computation whose code, if it succeeds, has a property.
* `Takes` — a computation that takes a stack of one height to one of another height.
* `Balances` — such a computation that, where it is strict, does not miss an operand either.
* `BalancesFrom` — a computation that misses no operand on a stack of one height.

## Main results

* `EmitsSome.bind`, `Balances.bind` — sequences of such computations.
* `EmitsSome.exec_eq_ok`, `Takes.exec_eq_ok` — what a computation has appended if it succeeds, and
  that it succeeds on every lower stack that has the inputs of its code.
* `Balances.balancesFrom` — a strict computation that has the slots it takes misses no operand, and
  leaves a stack of the height that was announced.
-/

set_option autoImplicit false

namespace WordPlaces

/-- The computation emits the same code on stacks of every height, and if it succeeds, the code has
the property. -/
def EmitsSome {α : Type} (sc : Scope) (c : Emit α) (P : α → Code → Prop) : Prop :=
  ∃ code r, Emits sc c code r ∧ ∀ a, r = .ok a → P a code

/-- If the computation succeeds, its code takes a stack of height `h` to one of height `h'`. -/
def Takes {α : Type} (sc : Scope) (c : Emit α) (h h' : Nat) : Prop :=
  EmitsSome sc c fun _ code => heightFrom h code = some h'

/-- The failure is that of an instruction whose inputs are not there. -/
def Failure.isUnderflow : Failure → Bool
  | .fault (.stackUnderflow ..) => true
  | _ => false

/-- If the computation succeeds, its code takes a stack of height `h` to one of height `h'`.  If it is
strict and fails, it has the inputs of all code before, and these are not what it fails for. -/
def Balances {α : Type} (strict : Prop) (sc : Scope) (c : Emit α) (h h' : Nat) : Prop :=
  ∃ code r, Emits sc c code r ∧ (∀ a, r = .ok a → heightFrom h code = some h') ∧
    (strict → ∀ e, r = .error e → (heightFrom h code).isSome ∧ e.isUnderflow = false)

variable {α β : Type} {sc : Scope}

namespace EmitsSome

variable {P : α → Code → Prop} {Q : β → Code → Prop}

/-- A computation that emits code with the property. -/
theorem of_emits {c : Emit α} {code : Code} {a : α} (hc : Emits sc c code (.ok a)) (h : P a code) :
    EmitsSome sc c P := by
  refine ⟨code, _, hc, fun a' ha' => ?_⟩
  obtain rfl := Except.ok.inj ha'
  exact h

/-- A computation that fails has not emitted what it should. -/
theorem of_error {c : Emit α} {code : Code} {e : Failure} (hc : Emits sc c code (.error e)) :
    EmitsSome sc c P := ⟨code, _, hc, fun _ h => by contradiction⟩

/-- A fault is a failure. -/
theorem fault (f : Fault) : EmitsSome sc (fault f : Emit α) P := of_error (.fault f)

/-- A rejection is a failure. -/
theorem reject (d : Span → Diagnostic) : EmitsSome sc (reject d : Emit α) P := of_error (.reject d)

/-- The code of a sequence is that of its parts. -/
theorem bind {c : Emit α} {f : α → Emit β} (hc : EmitsSome sc c P)
    (hf : ∀ a code, P a code → EmitsSome sc (f a) fun b code' => Q b (code ++ code')) :
    EmitsSome sc (c >>= f) Q := by
  obtain ⟨code, r, hcode, hr⟩ := hc
  cases r with
  | error e => exact of_error hcode.bind_error
  | ok a =>
    obtain ⟨code', r', hcode', hr'⟩ := hf a code (hr a rfl)
    exact ⟨code ++ code', r', hcode.bind hcode', hr'⟩

/-- A sequence whose second part fails. -/
theorem bind_fails {c : Emit α} {f : α → Emit β} (hc : EmitsSome sc c P)
    (hf : ∀ a (Q : β → Code → Prop), EmitsSome sc (f a) Q) : EmitsSome sc (c >>= f) Q :=
  hc.bind fun a _ _ => hf a _

/-- A first part that emits nothing. -/
theorem bind_nil {c : Emit α} {f : α → Emit β} {a : α} (hc : Emits sc c [] (.ok a))
    (hf : EmitsSome sc (f a) Q) : EmitsSome sc (c >>= f) Q := by
  obtain ⟨code, r, hcode, hr⟩ := hf
  exact ⟨code, r, hc.bind_nil hcode, hr⟩

/-- A first part that emits nothing and may fail. -/
theorem bind_orFault {x : Except Fault α} {f : α → Emit β}
    (hf : ∀ a, x = .ok a → EmitsSome sc (f a) Q) : EmitsSome sc (orFault x >>= f) Q := by
  cases x with
  | error e => exact of_error (Emits.fault e).bind_error
  | ok a => exact bind_nil (.orFault_ok a) (hf a rfl)

/-- A weaker property holds of the code as well. -/
theorem mono {P' : α → Code → Prop} {c : Emit α} (hc : EmitsSome sc c P)
    (h : ∀ a code, P a code → P' a code) : EmitsSome sc c P' := by
  obtain ⟨code, r, hcode, hr⟩ := hc
  exact ⟨code, r, hcode, fun a ha => h a code (hr a ha)⟩

/-- A computation that is repeated. -/
theorem repeatEmit {c : Emit Unit} {code : Code} (hc : EmitsSome sc c fun _ code' => code' = code)
    (n : Nat) :
    EmitsSome sc (repeatEmit n c) fun _ code' => code' = (List.replicate n code).flatten := by
  induction n with
  | zero => exact of_emits (.pure ()) rfl
  | succ n ih =>
    refine hc.bind fun _ code' h => ih.mono fun _ code'' h' => ?_
    rw [h, h', List.replicate_succ, List.flatten_cons]

/-- Computations one after the other, with a property that sequences of code have. -/
theorem forM {P : Code → Prop} {as : List α} {f : α → Emit Unit} (hnil : P [])
    (happend : ∀ code code', P code → P code' → P (code ++ code'))
    (hf : ∀ a ∈ as, EmitsSome sc (f a) fun _ code => P code) :
    EmitsSome sc (as.forM f) fun _ code => P code := by
  induction as with
  | nil => exact of_emits (.pure ()) hnil
  | cons a as ih =>
    refine (hf a List.mem_cons_self).bind fun _ code hcode => ?_
    exact (ih fun a' ha' => hf a' (List.mem_cons_of_mem _ ha')).mono fun _ => (happend code · hcode)

/-- A depth that may be out of reach. -/
theorem reachable (depth : Nat) : EmitsSome sc (reachable depth) fun _ code => code = [] := by
  unfold WordPlaces.reachable
  split
  · exact fault _
  · split
    · exact reject _
    · exact of_emits (.pure ()) rfl

/-- A copy is one instruction, if the slot is within reach. -/
theorem dupSlot (depth : Nat) : EmitsSome sc (dupSlot depth) fun _ code => code = [.dup depth] := by
  refine (reachable depth).bind fun _ code h => of_emits (.emit _) ?_
  rw [h]
  rfl

/-- An exchange is one instruction, if the slot is within reach. -/
theorem swapSlot (depth : Nat) :
    EmitsSome sc (swapSlot depth) fun _ code => code = [.swap depth] := by
  refine (reachable depth).bind fun _ code h => of_emits (.emit _) ?_
  rw [h]
  rfl

/-- Copies are as many instructions at the same depth, if the slot is within reach. -/
theorem copyToTop (depth size : Nat) : EmitsSome sc (copyToTop depth size)
    fun _ code => code = (List.replicate size [.dup depth]).flatten := repeatEmit (dupSlot depth) size

end EmitsSome

/-! ## Counts -/

/-- A count that is checked is not changed. -/
theorem checkedCount_eq_ok {n k : Nat} (h : checkedCount n = .ok k) : k = n := by
  rw [checkedCount] at h
  split at h
  · exact (Except.ok.inj h).symm
  · contradiction

/-- A count that is too high is no missing input. -/
theorem isUnderflow_of_checkedCount {n : Nat} {f : Fault} (h : checkedCount n = .error f) :
    (Failure.fault f).isUnderflow = false := by
  rw [checkedCount] at h
  split at h
  · contradiction
  · obtain rfl := Except.error.inj h
    rfl

namespace Balances

variable {strict : Prop} {h h' h'' : Nat}

/-- What is known of the height if the computation succeeds. -/
theorem takes {c : Emit α} (hc : Balances strict sc c h h') : Takes sc c h h' := by
  obtain ⟨code, r, hcode, hok, -⟩ := hc
  exact ⟨code, r, hcode, hok⟩

/-- Nothing more is said about a computation that is not strict. -/
theorem of_takes {c : Emit α} (hstrict : ¬strict) (hc : Takes sc c h h') :
    Balances strict sc c h h' := by
  obtain ⟨code, r, hcode, hok⟩ := hc
  exact ⟨code, r, hcode, hok, fun hs => absurd hs hstrict⟩

/-- A computation that emits code which takes the stack from one height to the other. -/
theorem of_emits {c : Emit α} {code : Code} {a : α} (hc : Emits sc c code (.ok a))
    (hh : heightFrom h code = some h') : Balances strict sc c h h' :=
  ⟨code, _, hc, fun _ _ => hh, fun _ _ he => by contradiction⟩

/-- A computation that is refused before it emits anything. -/
theorem of_error {c : Emit α} {e : Failure} (hc : Emits sc c [] (.error e))
    (he : e.isUnderflow = false) : Balances strict sc c h h' :=
  ⟨[], _, hc, fun _ ha => by contradiction, fun _ _ he' => Except.error.inj he' ▸ ⟨rfl, he⟩⟩

/-- A value is returned with the stack as high as it was. -/
theorem pure (a : α) : Balances strict sc (pure a) h h := of_emits (.pure a) rfl

/-- A fault that is no missing input may come at any height. -/
theorem fault {f : Fault} (hf : (Failure.fault f).isUnderflow = false) :
    Balances strict sc (fault f : Emit α) h h' := of_error (.fault f) hf

/-- A rejection may come at any height. -/
theorem reject (d : Span → Diagnostic) : Balances strict sc (reject d : Emit α) h h' :=
  of_error (.reject d) rfl

/-- Instructions that take the stack from one height to the other. -/
theorem emitAll {code : Code} (hh : heightFrom h code = some h') :
    Balances strict sc (emitAll code) h h' := of_emits (.emitAll code) hh

/-- An instruction that has its inputs replaces them by its outputs. -/
theorem emit {op : Instruction} (hop : op.inputs ≤ h) :
    Balances strict sc (emit op) h (h - op.inputs + op.outputs) :=
  of_emits (.emit op) (heightFrom_cons_of_le [] hop)

/-! ### Sequences -/

/-- A sequence changes the height as its parts do one after the other. -/
theorem bind {c : Emit α} {f : α → Emit β} (hc : Balances strict sc c h h')
    (hf : ∀ a, Balances strict sc (f a) h' h'') : Balances strict sc (c >>= f) h h'' := by
  obtain ⟨code, r, hcode, hok, herror⟩ := hc
  cases r with
  | error e =>
    refine ⟨code, _, hcode.bind_error, fun _ ha => by contradiction, fun hs e' he' => ?_⟩
    obtain rfl := Except.error.inj he'
    exact herror hs e rfl
  | ok a =>
    obtain ⟨code', r', hcode', hok', herror'⟩ := hf a
    have happend := heightFrom_append h code code'
    rw [hok a rfl, Option.bind_some] at happend
    refine ⟨code ++ code', r', hcode.bind hcode', fun b hb => happend.trans (hok' b hb), ?_⟩
    rw [happend]
    exact herror'

/-- A first part that emits nothing. -/
theorem bind_nil {c : Emit α} {f : α → Emit β} {a : α} (hc : Emits sc c [] (.ok a))
    (hf : Balances strict sc (f a) h h') : Balances strict sc (c >>= f) h h' := by
  obtain ⟨code, r, hcode, hr⟩ := hf
  exact ⟨code, r, hc.bind_nil hcode, hr⟩

/-- A first part that is refused. -/
theorem bind_error {c : Emit α} {f : α → Emit β} {e : Failure} (hc : Emits sc c [] (.error e))
    (he : e.isUnderflow = false) : Balances strict sc (c >>= f) h h' := of_error hc.bind_error he

/-- A first part that emits nothing and may fail. -/
theorem bind_orFault {x : Except Fault α} {f : α → Emit β}
    (hx : ∀ e, x = .error e → (Failure.fault e).isUnderflow = false)
    (hf : ∀ a, x = .ok a → Balances strict sc (f a) h h') :
    Balances strict sc (orFault x >>= f) h h' := by
  cases x with
  | error e => exact bind_error (.fault e) (hx e rfl)
  | ok a => exact bind_nil (.orFault_ok a) (hf a rfl)

/-- The slots below those that are taken are left alone. -/
theorem add {c : Emit α} (hc : Balances strict sc c h h') (k : Nat) :
    Balances strict sc c (h + k) (h' + k) := by
  obtain ⟨code, r, hcode, hok, herror⟩ := hc
  refine ⟨code, r, hcode, fun a ha => heightFrom_add k (hok a ha), fun hs e he => ?_⟩
  obtain ⟨hsome, hunderflow⟩ := herror hs e he
  obtain ⟨low, hlow⟩ := Option.isSome_iff_exists.1 hsome
  rw [heightFrom_add k hlow]
  exact ⟨rfl, hunderflow⟩

/-- Computations that all keep the height. -/
theorem forM {as : List α} {f : α → Emit Unit} (hf : ∀ a ∈ as, Balances strict sc (f a) h h) :
    Balances strict sc (as.forM f) h h := by
  induction as with
  | nil => exact .pure ()
  | cons a as ih =>
    exact (hf a List.mem_cons_self).bind fun _ => ih fun a' ha' => hf a' (List.mem_cons_of_mem _ ha')

/-- A computation that is repeated, with the heights that it leaves one after the other. -/
theorem repeatEmit {c : Emit Unit} {n : Nat} (height : Nat → Nat)
    (hc : ∀ i < n, Balances strict sc c (height i) (height (i + 1))) :
    Balances strict sc (repeatEmit n c) (height 0) (height n) := by
  induction n generalizing height with
  | zero => exact .pure ()
  | succ n ih =>
    refine (hc 0 (Nat.zero_lt_succ n)).bind fun _ => ?_
    exact ih (fun i => height (i + 1)) fun i hi => hc (i + 1) (Nat.succ_lt_succ hi)

/-! ### Copies -/

/-- A depth that may be out of reach. -/
theorem reachable (depth : Nat) : Balances strict sc (reachable depth) h h := by
  unfold WordPlaces.reachable
  split
  · exact fault rfl
  · split
    · exact reject _
    · exact pure ()

/-- A copy of a slot that is there makes the stack one slot higher. -/
theorem dupSlot {depth : Nat} (hle : depth ≤ h) : Balances strict sc (dupSlot depth) h (h + 1) :=
  (reachable depth).bind fun _ => of_emits (.emit _) (heightFrom_copyToTop hle 1)

/-- Copies of slots that are there make the stack higher by their number. -/
theorem copyToTop {depth : Nat} (hle : depth ≤ h) (size : Nat) :
    Balances strict sc (copyToTop depth size) h (h + size) :=
  repeatEmit (h + ·) fun i _ => dupSlot (by omega)

/-- Slots that are there are dropped. -/
theorem popSlots (count : Nat) : Balances strict sc (popSlots count) (h + count) h :=
  of_emits (.popSlots count) (heightFrom_popSlots h count)

end Balances

/-! ## Success -/

/-- What a computation has appended if it succeeds, and that it also succeeds on every lower stack
that has the inputs of its code. -/
theorem EmitsSome.exec_eq_ok {c : Emit α} {P : α → Code → Prop} {out out' : Output} {a : α}
    (hc : EmitsSome sc c P) (hexec : c.exec sc out = (.ok a, out')) :
    ∃ code, P a code ∧ out.code.extend code = (out'.code, none) ∧
      ∀ (low : Output) (h' : Nat), low.code.height ≤ out.code.height →
        heightFrom low.code.height code = some h' → ∃ low', c.exec sc low = (.ok a, low') ∧
          low'.code.ops = low.code.ops ++ code.toArray ∧ low'.code.height = h' := by
  obtain ⟨code, r, hcode, hr⟩ := hc
  obtain ⟨rfl, hextend⟩ := (hcode _).of_exec_eq_ok hexec
  refine ⟨code, hr a rfl, hextend, fun low h' hle hlow => ?_⟩
  obtain ⟨events, hevents⟩ := (hcode _).exec_eq (CodeSection.extend_lower hextend hle hlow)
  exact ⟨_, hevents, rfl, rfl⟩

/-- A computation that takes the topmost slots and succeeds leaves all others, and it also succeeds
if some of them are missing. -/
theorem Takes.exec_eq_ok {c : Emit α} {h k : Nat} {out out' : Output} {a : α}
    (hc : Takes sc c h 0) (hheight : out.code.height = h + k)
    (hexec : c.exec sc out = (.ok a, out')) :
    ∃ code, out'.code.ops = out.code.ops ++ code.toArray ∧ heightFrom h code = some 0 ∧
      out'.code.height = k ∧
      ∀ (low : Output) (k' : Nat), low.code.height = h + k' → k' ≤ k →
        ∃ low', c.exec sc low = (.ok a, low') ∧
          low'.code.ops = low.code.ops ++ code.toArray ∧ low'.code.height = k' := by
  obtain ⟨code, hcode, hextend, hlow⟩ := EmitsSome.exec_eq_ok hc hexec
  obtain ⟨hout, hops⟩ := CodeSection.extend_eq_none hextend
  refine ⟨code, hops, hcode, ?_, fun low k' hlowHeight hle => ?_⟩
  · rw [heightFrom_unique hcode hout hheight, Nat.zero_add]
  · refine hlow low k' (by omega) ?_
    rw [hlowHeight]
    exact (heightFrom_add k' hcode).trans (congrArg some (Nat.zero_add k'))

/-- Code that has its inputs is appended up to where the height cannot be counted. -/
theorem CodeSection.isUnderflow_of_extend {s s' : CodeSection} {code : Code} {f : Fault}
    (hh : (heightFrom s.height code).isSome) (hs : s.extend code = (s', some f)) :
    (Failure.fault f).isUnderflow = false := by
  induction code generalizing s with
  | nil => exact absurd (Prod.mk.inj hs).2 (by simp)
  | cons op code ih =>
    obtain ⟨h', hh⟩ := Option.isSome_iff_exists.1 hh
    obtain ⟨hin, hcode⟩ := inputs_le_of_heightFrom hh
    rw [extend] at hs
    split at hs
    · rename_i height hop
      obtain ⟨-, rfl, -⟩ := heightAfter_eq_ok hop
      exact ih (Option.isSome_iff_exists.2 ⟨h', hcode⟩) hs
    · rename_i f' hop
      obtain rfl : f' = f := Option.some.inj (Prod.mk.inj hs).2
      rw [heightAfter, if_neg (Nat.not_lt.2 hin)] at hop
      exact isUnderflow_of_checkedCount hop

/-- On a stack of height `h`, the computation misses no operand, and if it succeeds, the stack has
height `h'`. -/
def BalancesFrom {α : Type} (sc : Scope) (c : Emit α) (h h' : Nat) : Prop :=
  ∀ out : Output, out.code.height = h →
    (∀ e out', c.exec sc out = (.error e, out') → e.isUnderflow = false) ∧
    ∀ a out', c.exec sc out = (.ok a, out') → out'.code.height = h'

/-- A strict computation that has the slots it takes misses no operand, and all slots below them stay
there. -/
theorem Balances.balancesFrom {c : Emit α} {h h' : Nat} (hc : Balances True sc c h h') (k : Nat) :
    BalancesFrom sc c (h + k) (h' + k) := by
  obtain ⟨code, r, hcode, hok, herror⟩ := hc
  intro out hheight
  obtain ⟨events, hexec⟩ := hcode _ out rfl
  have hsome : (heightFrom out.code.height code).isSome := by
    have hlow : (heightFrom h code).isSome := by
      cases r with
      | error e => exact (herror trivial e rfl).1
      | ok a => exact Option.isSome_iff_exists.2 ⟨h', hok a rfl⟩
    obtain ⟨low, hlow⟩ := Option.isSome_iff_exists.1 hlow
    rw [hheight, heightFrom_add k hlow]
    rfl
  rw [hexec]
  rcases hs : out.code.extend code with ⟨s, _ | f⟩
  · refine ⟨fun e out' he => ?_, fun a out' ha => ?_⟩
    · exact (herror trivial e (Prod.mk.inj he).1).2
    · obtain ⟨rfl, rfl⟩ := Prod.mk.inj ha
      exact heightFrom_unique (hok a rfl) (CodeSection.extend_eq_none hs).1 hheight
  · refine ⟨fun e out' he => ?_, fun a out' ha => by simp at ha⟩
    obtain ⟨he, -⟩ := Prod.mk.inj he
    rw [← Except.error.inj he]
    exact CodeSection.isUnderflow_of_extend hsome hs

namespace BalancesFrom

variable {h h' h'' : Nat}

/-- A value is returned with the stack as high as it was. -/
theorem pure (a : α) : BalancesFrom sc (pure a) h h := by
  refine fun out hout => ⟨fun e out' he => ?_, fun a' out' ha => ?_⟩
  · exact absurd (Prod.mk.inj he).1 (by simp)
  · obtain rfl := (Prod.mk.inj ha).2
    exact hout

/-- A fault that is no missing input may come at any height. -/
theorem fault {f : Fault} (hf : (Failure.fault f).isUnderflow = false) :
    BalancesFrom sc (fault f : Emit α) h h' := by
  refine fun out _ => ⟨fun e out' he => ?_, fun a out' ha => ?_⟩
  · obtain rfl := Except.error.inj (Prod.mk.inj he).1
    exact hf
  · exact absurd (Prod.mk.inj ha).1 (by simp)

/-- A sequence changes the height as its parts do one after the other. -/
theorem bind {c : Emit α} {f : α → Emit β} (hc : BalancesFrom sc c h h')
    (hf : ∀ a, BalancesFrom sc (f a) h' h'') : BalancesFrom sc (c >>= f) h h'' := by
  intro out hout
  obtain ⟨herror, hok⟩ := hc out hout
  rw [Emit.exec_bind]
  rcases hexec : c.exec sc out with ⟨_ | a, mid⟩
  · refine ⟨fun e' out' he' => ?_, fun a out' ha => absurd (Prod.mk.inj ha).1 (by simp)⟩
    obtain rfl := Except.error.inj (Prod.mk.inj he').1
    exact herror _ _ hexec
  · exact hf a mid (hok a mid hexec)

/-- A first part that emits nothing on a stack of this height. -/
theorem bind_nil {c : Emit α} {f : α → Emit β} {a : α} (hc : EmitsFrom sc h c [] (.ok a))
    (hf : BalancesFrom sc (f a) h h') : BalancesFrom sc (c >>= f) h h' := by
  intro out hout
  obtain ⟨events, hexec⟩ := hc out hout
  rw [Emit.exec_bind, hexec]
  exact hf ⟨out.code, events⟩ hout

/-- A first part that is refused before it emits anything. -/
theorem bind_error {c : Emit α} {f : α → Emit β} {e : Failure}
    (hc : EmitsFrom sc h c [] (.error e)) (he : e.isUnderflow = false) :
    BalancesFrom sc (c >>= f) h h' := by
  intro out hout
  obtain ⟨events, hexec⟩ := hc out hout
  rw [Emit.exec_bind, hexec]
  refine ⟨fun e' out' he' => ?_, fun a out' ha => absurd (Prod.mk.inj ha).1 (by simp)⟩
  obtain rfl := Except.error.inj (Prod.mk.inj he').1
  exact he

end BalancesFrom

end WordPlaces
