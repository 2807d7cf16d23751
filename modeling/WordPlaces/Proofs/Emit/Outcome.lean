import WordPlaces.Proofs.Emit.ValueTakes

/-!
# How a computation ends

A computation on a stack that has its operands is refused for what it is asked to do, or it succeeds.
Apart from that the height of the stack can leave the range of a counter, which takes a stack that is
nearly as high as can be counted: every computation makes the stack higher by a few slots only.

## Main definitions

* `RisesBy` — how much higher a computation makes the stack.
* `LosesCount` — a computation on a stack that is too high for it.
* `RefusesIff` — a computation that is refused exactly if a condition holds.

## Main results

* `RisesBy.bind`, `RefusesIff.bind`, `RefusesIff.forM` — sequences of such computations.
* `Emits.exec_of_risesBy` — a computation ends as its code says, or loses count.
* `RisesBy.unpackValue`, `RisesBy.packValue`, `RisesBy.loadFromMemory` — the handling of values.
-/

set_option autoImplicit false

namespace WordPlaces

open Fragment

variable {α β : Type} {sc : Scope}

/-! ## Losing count -/

/-- Code whose inputs are there can only be too much for a counter. -/
theorem CodeSection.eq_countOverflow_of_extend {s s' : CodeSection} {code : Code} {f : Fault}
    (hs : s.extend code = (s', some f)) (hf : (Failure.fault f).isUnderflow = false) :
    f = .countOverflow ∧ countLimit ≤ s.height + growth code := by
  induction code generalizing s with
  | nil => exact absurd (Prod.mk.inj hs).2 (by simp)
  | cons op code ih =>
    rw [growth]
    rw [extend] at hs
    split at hs
    · rename_i height hop
      obtain ⟨hin, rfl, -⟩ := heightAfter_eq_ok hop
      obtain ⟨heq, hle⟩ := ih hs
      rw [push] at hle
      dsimp only at hle
      exact ⟨heq, by omega⟩
    · rename_i f' hop
      obtain rfl : f' = f := Option.some.inj (Prod.mk.inj hs).2
      rw [heightAfter] at hop
      split at hop
      · obtain rfl := Except.error.inj hop
        contradiction
      · rw [checkedCount] at hop
        split at hop
        · contradiction
        · exact ⟨(Except.error.inj hop).symm, by omega⟩

/-- The computation makes the stack at most `k` slots higher.  So it loses count only on a stack that is
closer than that to what can be counted. -/
structure RisesBy (sc : Scope) (c : Emit α) (k : Nat) : Prop where
  height_le : ∀ {out out' : Output} {a : α}, c.exec sc out = (.ok a, out') →
    out'.code.height ≤ out.code.height + k
  limit_le : ∀ {out out' : Output}, c.exec sc out = (.error (.fault .countOverflow), out') →
    countLimit ≤ out.code.height + k

namespace RisesBy

variable {k k' : Nat}

/-- The stack rises by what the code can add to it. -/
theorem of_emits {c : Emit α} {code : Code} {r : Except Failure α} (hc : Emits sc c code r)
    (hr : r ≠ .error (.fault .countOverflow)) (hk : growth code = k) : RisesBy sc c k where
  height_le h := by
    rw [← hk]
    exact le_add_growth (CodeSection.extend_eq_none ((hc _).of_exec_eq_ok h).2).1
  limit_le {out out'} h := by
    obtain ⟨events, hexec⟩ := hc _ out rfl
    rw [h] at hexec
    rw [← hk]
    split at hexec
    · exact absurd (Prod.mk.inj hexec).1.symm hr
    · rename_i f hs
      obtain ⟨⟨rfl⟩, -⟩ := Prod.mk.inj hexec
      exact (CodeSection.eq_countOverflow_of_extend hs rfl).2

/-- A higher bound is a bound. -/
theorem mono {c : Emit α} (hc : RisesBy sc c k) (hle : k ≤ k') : RisesBy sc c k' where
  height_le h := Nat.le_trans (hc.height_le h) (Nat.add_le_add_left hle _)
  limit_le h := Nat.le_trans (hc.limit_le h) (Nat.add_le_add_left hle _)

/-- A value is returned without a slot more. -/
theorem pure (a : α) : RisesBy sc (pure a) 0 := of_emits (.pure a) (by simp) rfl

/-- A rejection comes without a slot more. -/
theorem reject (d : Span → Diagnostic) : RisesBy sc (reject d : Emit α) 0 :=
  of_emits (.reject d) (by simp) rfl

/-- A fault other than the loss of count comes without a slot more. -/
theorem fault {f : Fault} (hf : f ≠ .countOverflow) : RisesBy sc (fault f : Emit α) 0 :=
  of_emits (.fault f) (by simpa using hf) rfl

/-- Instructions make the stack as much higher as they can add to it. -/
theorem emitAll {code : Code} (hk : growth code = k) : RisesBy sc (emitAll code) k :=
  of_emits (.emitAll code) (by simp) hk

/-- An instruction makes the stack higher by its outputs beyond its inputs. -/
theorem emit {op : Instruction} (hk : op.outputs - op.inputs = k) : RisesBy sc (emit op) k :=
  of_emits (.emit op) (by simp) hk

/-! ### Sequences -/

/-- A sequence makes the stack as much higher as its parts do together. -/
theorem bind {c : Emit α} {f : α → Emit β} (hc : RisesBy sc c k) (hf : ∀ a, RisesBy sc (f a) k') :
    RisesBy sc (c >>= f) (k + k') where
  height_le h := by
    obtain ⟨a, mid, hmid, hout⟩ := Emit.exec_bind_eq_ok.1 h
    have hfirst := hc.height_le hmid
    have hsecond := (hf a).height_le hout
    omega
  limit_le {out out'} h := by
    rw [Emit.exec_bind] at h
    rcases hmid : c.exec sc out with ⟨e | a, mid⟩
    · rw [hmid] at h
      obtain ⟨⟨rfl⟩, -⟩ := Prod.mk.inj h
      have hfirst := hc.limit_le hmid
      omega
    · rw [hmid] at h
      have hfirst := hc.height_le hmid
      have hsecond := (hf a).limit_le h
      omega

/-- A first part that emits nothing. -/
theorem bind_nil {c : Emit α} {f : α → Emit β} {a : α} (hc : Emits sc c [] (.ok a))
    (hf : RisesBy sc (f a) k) : RisesBy sc (c >>= f) k := by
  have hexec : ∀ out, ∃ events, (c >>= f).exec sc out = (f a).exec sc ⟨out.code, events⟩ := by
    intro out
    obtain ⟨events, he⟩ := hc _ out rfl
    exact ⟨events, by rw [Emit.exec_bind, he]; rfl⟩
  refine ⟨fun {out out' b} h => ?_, fun {out out'} h => ?_⟩ <;> obtain ⟨events, he⟩ := hexec out
  · have hle := hf.height_le (he.symm.trans h)
    exact hle
  · have hle := hf.limit_le (he.symm.trans h)
    exact hle

/-- A first part that emits nothing and may fail. -/
theorem bind_orFault {x : Except Fault α} {f : α → Emit β} (hx : x ≠ .error .countOverflow)
    (hf : ∀ a, x = .ok a → RisesBy sc (f a) k) : RisesBy sc (orFault x >>= f) k := by
  cases x with
  | error e =>
    have hfails : Emits sc (WordPlaces.fault e : Emit β) [] (.error (.fault e)) := .fault e
    exact (of_emits hfails (by simpa using hx) rfl).mono (Nat.zero_le k)
  | ok a => exact bind_nil (.orFault_ok a) (hf a rfl)

/-- A computation that is repeated makes the stack as much higher each time. -/
theorem repeatEmit {c : Emit Unit} (hc : RisesBy sc c k) (n : Nat) :
    RisesBy sc (repeatEmit n c) (n * k) := by
  induction n with
  | zero => exact (pure ()).mono (Nat.zero_le _)
  | succ n ih =>
    have hmore : RisesBy sc (WordPlaces.repeatEmit (n + 1) c) (k + n * k) := hc.bind fun _ => ih
    rwa [Nat.succ_mul, Nat.add_comm (n * k)]

/-- A copy makes the stack one slot higher, if the slot is within reach. -/
theorem dupSlot (depth : Nat) : RisesBy sc (dupSlot depth) 1 := by
  have hreachable : RisesBy sc (reachable depth) 0 := by
    unfold reachable
    split
    · exact fault (by simp)
    · split
      · exact reject _
      · exact pure ()
  have hdup : RisesBy sc (WordPlaces.emit (.dup depth)) 1 := emit (Nat.add_sub_cancel_left depth 1)
  exact hreachable.bind fun _ => hdup

/-- Copies make the stack higher by their number. -/
theorem copyToTop (depth size : Nat) : RisesBy sc (copyToTop depth size) size := by
  have hcopy : RisesBy sc (WordPlaces.copyToTop depth size) (size * 1) := (dupSlot depth).repeatEmit size
  rwa [Nat.mul_one] at hcopy

/-- Dropping slots does not make the stack higher. -/
theorem popSlots (count : Nat) : RisesBy sc (popSlots count) 0 := repeatEmit (emit rfl) count

/-! ### Values -/

variable {source ty : Ty} {e : Encoding}

/-- What comes after the encoding of a type has been looked for. -/
theorem bind_encoding {f : Encoding → Emit α} (hf : ∀ e, ty.encoding? = .ok e → RisesBy sc (f e) k) :
    RisesBy sc (orFault ty.encoding? >>= f) k :=
  bind_orFault (fun he => by simpa using Ty.encoding?_eq_error he) hf

/-- What comes after the unused bits of a word have been counted. -/
theorem bind_unusedBits {width : Nat} {f : Nat → Emit α} (hf : ∀ bits, RisesBy sc (f bits) k) :
    RisesBy sc (orFault (unusedBits width) >>= f) k := by
  refine bind_orFault ?_ fun bits _ => hf bits
  unfold unusedBits
  split <;> simp

/-- The width of a sign extension is one slot more for a while. -/
theorem signExtendFrom (width : Nat) : RisesBy sc (signExtendFrom width) 1 := by
  unfold WordPlaces.signExtendFrom
  split
  · exact (fault (by simp)).mono (Nat.zero_le 1)
  · exact emitAll rfl

/-- The distance of a shift is one slot more for a while. -/
theorem leftShift (bits : Nat) : RisesBy sc (leftShift bits) 1 := by
  unfold WordPlaces.leftShift shiftLeft
  split
  · split
    · exact (pure ()).mono (Nat.zero_le 1)
    · exact emitAll rfl
  · exact (fault (by simp)).mono (Nat.zero_le 1)

/-- The distance of a shift is one slot more for a while. -/
theorem rightShift (bits : Nat) : RisesBy sc (rightShift bits) 1 := by
  unfold WordPlaces.rightShift shiftRight
  split
  · split
    · exact (pure ()).mono (Nat.zero_le 1)
    · exact emitAll rfl
  · exact (fault (by simp)).mono (Nat.zero_le 1)

/-- The mask or the width of a canonical form is one slot more for a while. -/
theorem cleanupValue (ty : Ty) : RisesBy sc (cleanupValue ty) 1 := by
  unfold WordPlaces.cleanupValue
  refine bind_encoding fun e _ => ?_
  split
  · exact (pure ()).mono (Nat.zero_le 1)
  · split
    · exact (emitAll rfl).mono (Nat.zero_le 1)
    · split
      · exact emitAll rfl
      · exact signExtendFrom _
      · exact emitAll rfl

/-- A value is cleaned, and its sign may be cut off. -/
theorem convertType (hsource : source.isValueType = true) (hvalue : ty.isValueType = true)
    (chopSignBits : Bool) : RisesBy sc (convertType source ty true chopSignBits) 2 := by
  unfold WordPlaces.convertType
  rw [hsource, hvalue, Bool.and_true, if_pos rfl]
  simp only [if_true]
  have hchop : RisesBy sc (do
      let e ← orFault ty.encoding?
      if chopSignBits && e.isSigned && !e.isFullWord then
        WordPlaces.emitAll (keepLowBytes e.bytes)) 1 := by
    refine bind_encoding fun e _ => ?_
    split
    · exact emitAll rfl
    · exact (pure ()).mono (Nat.zero_le 1)
  exact (cleanupValue ty).bind fun _ => hchop

/-- A packed word becomes a value of at most two slots, with little more for a while. -/
theorem unpackValue (e : Encoding) : RisesBy sc (unpackValue e) 4 := by
  unfold WordPlaces.unpackValue
  split
  · exact (reject _).mono (Nat.zero_le 4)
  · exact emitAll rfl
  · have htag : RisesBy sc (WordPlaces.emitAll assignedTag) 2 := emitAll rfl
    have hkeep : RisesBy sc (WordPlaces.emitAll (keepLowBytes e.bytes)) 1 := emitAll rfl
    exact (htag.bind fun _ => hkeep).mono (Nat.le_succ 3)
  · exact bind_unusedBits fun _ => (leftShift _).mono (by decide)
  · exact (signExtendFrom _).mono (by decide)
  · exact (emitAll rfl).mono (show 1 ≤ 4 by decide)

/-- A value becomes a packed word, with little more for a while. -/
theorem packValue (hsource : source.isValueType = true) : RisesBy sc (packValue source ty) 3 := by
  unfold WordPlaces.packValue
  refine bind_encoding fun e he => ?_
  split
  · exact (reject _).mono (Nat.zero_le 3)
  · exact emitAll rfl
  · exact (emitAll rfl).mono (show 1 ≤ 3 by decide)
  · exact bind_unusedBits fun _ => (rightShift _).mono (by decide)
  · exact (convertType hsource (Ty.isValueType_of_encoding?_eq_ok he) true).mono (Nat.le_succ 2)

/-- A padded value is read as a whole word. -/
theorem loadFromMemory (ty : Ty) : RisesBy sc (loadFromMemory ty true) 4 := by
  unfold WordPlaces.loadFromMemory
  refine bind_encoding fun e _ => ?_
  have hload : RisesBy sc (WordPlaces.emit .mload) 0 := emit rfl
  refine (hload.bind fun _ => ?_).mono (Nat.le_of_eq (Nat.zero_add 4))
  split
  · exact emitAll rfl
  · rw [if_pos (show ty.memoryBytes true = 32 from rfl)]
    exact (pure ()).mono (Nat.zero_le 4)

end RisesBy

/-- The computation loses count, on a stack that has no room for the slots up to `top` in place of the `h`
topmost ones. -/
def LosesCount (sc : Scope) (c : Emit α) (h top : Nat) (out : Output) : Prop :=
  (∃ out', c.exec sc out = (.error (.fault .countOverflow), out')) ∧
    countLimit + h ≤ out.code.height + top

/-- A computation that has its inputs ends as it does once all of its code is there, or loses count. -/
theorem Emits.exec_of_risesBy {c : Emit α} {code : Code} {r : Except Failure α} {h h' k top : Nat}
    (hc : Emits sc c code r) (hh : heightFrom h code = some h') (hk : RisesBy sc c k)
    (htop : h + k ≤ top) {out : Output} (hle : h ≤ out.code.height) :
    (∃ out', c.exec sc out = (r, out') ∧ out'.code.height + h = out.code.height + h') ∨
      LosesCount sc c h top out := by
  obtain ⟨x, hx⟩ := Nat.exists_eq_add_of_le hle
  have hheight := heightFrom_add x hh
  rw [← hx] at hheight
  obtain ⟨events, hexec⟩ := hc _ out rfl
  rcases hs : out.code.extend code with ⟨s, _ | f⟩ <;> rw [hs] at hexec
  · have hend := (CodeSection.extend_eq_none hs).1
    rw [hheight] at hend
    refine .inl ⟨_, hexec, ?_⟩
    rw [← Option.some.inj hend]
    omega
  · have hunderflow := CodeSection.isUnderflow_of_extend (Option.isSome_iff_exists.2 ⟨_, hheight⟩) hs
    obtain ⟨rfl, -⟩ := CodeSection.eq_countOverflow_of_extend hs hunderflow
    have hlimit := hk.limit_le hexec
    exact .inr ⟨⟨_, hexec⟩, by omega⟩

namespace LosesCount

variable {c : Emit α} {f : α → Emit β} {h h' top : Nat} {out mid : Output} {a : α}

/-- The first part of a sequence loses count. -/
theorem bind (hc : LosesCount sc c h top out) : LosesCount sc (c >>= f) h top out := by
  obtain ⟨⟨out', hexec⟩, hle⟩ := hc
  exact ⟨⟨out', by rw [Emit.exec_bind, hexec]⟩, hle⟩

/-- The second part of a sequence loses count, after the first one has changed the height. -/
theorem after (hc : c.exec sc out = (.ok a, mid))
    (hheight : mid.code.height + h = out.code.height + h') (hf : LosesCount sc (f a) h' top mid) :
    LosesCount sc (c >>= f) h top out := by
  obtain ⟨⟨out', hexec⟩, hle⟩ := hf
  exact ⟨⟨out', by rw [Emit.exec_bind, hc]; exact hexec⟩, by omega⟩

/-- There is even less room below other slots. -/
theorem mono {x y : Nat} (hc : LosesCount sc c h top out) (hle : top + y ≤ x + h) :
    LosesCount sc c y x out := ⟨hc.1, by have := hc.2; omega⟩

end LosesCount

/-! ## Refusals -/

/-- On a stack of height `h` or more, the computation is refused with the diagnostic if the condition
holds, and else it succeeds and changes the height from `h` to `h'`.  It does something else only where
the stack has no room for the slots up to `top`. -/
structure RefusesIff (sc : Scope) (d : Diagnostic) (p : Prop) (c : Emit Unit) (h h' top : Nat) :
    Prop where
  refuses : p → ∀ out : Output, h ≤ out.code.height →
    (∃ out', c.exec sc out = (.error (.diagnostic d), out')) ∨ LosesCount sc c h top out
  succeeds : ¬p → ∀ out : Output, h ≤ out.code.height →
    (∃ out', c.exec sc out = (.ok (), out') ∧ out'.code.height + h = out.code.height + h') ∨
      LosesCount sc c h top out

namespace RefusesIff

variable {d : Diagnostic} {p q : Prop} {c c' : Emit Unit} {h h' h'' k top : Nat} {code : Code}

/-- A computation that is refused after code that has its inputs. -/
theorem of_refused (hp : p) (hc : Emits sc c code (.error (.diagnostic d)))
    (hh : heightFrom h code = some h'') (hk : RisesBy sc c k) (htop : h + k ≤ top) :
    RefusesIff sc d p c h h' top where
  refuses _ _ hle := (hc.exec_of_risesBy hh hk htop hle).imp_left fun ⟨out', hexec, _⟩ => ⟨out', hexec⟩
  succeeds hnot := absurd hp hnot

/-- A computation that emits code that has its inputs. -/
theorem of_emits (hp : ¬p) (hc : Emits sc c code (.ok ())) (hh : heightFrom h code = some h')
    (hk : RisesBy sc c k) (htop : h + k ≤ top) : RefusesIff sc d p c h h' top where
  refuses hyes := absurd hyes hp
  succeeds _ _ hle := hc.exec_of_risesBy hh hk htop hle

/-- A computation whose code is known and that is never refused. -/
theorem of_code (hc : Emits sc c code (.ok ())) (hh : heightFrom h code = some h')
    (htop : h + growth code ≤ top) : RefusesIff sc d False c h h' top :=
  of_emits not_false hc hh (.of_emits hc (by simp) rfl) htop

/-- The condition can be put in other words. -/
theorem congr (hc : RefusesIff sc d p c h h' top) (hpq : p ↔ q) : RefusesIff sc d q c h h' top where
  refuses hq := hc.refuses (hpq.2 hq)
  succeeds hq := hc.succeeds (mt hpq.1 hq)

/-- More room does no harm. -/
theorem mono {x : Nat} (hc : RefusesIff sc d p c h h' top) (hle : top ≤ x) :
    RefusesIff sc d p c h h' x where
  refuses hp out hheight :=
    (hc.refuses hp out hheight).imp_right (·.mono (Nat.add_le_add_right hle h))
  succeeds hp out hheight :=
    (hc.succeeds hp out hheight).imp_right (·.mono (Nat.add_le_add_right hle h))

/-- The slots below those that are taken are left alone. -/
theorem add (hc : RefusesIff sc d p c h h' top) (x : Nat) :
    RefusesIff sc d p c (h + x) (h' + x) (top + x) where
  refuses hp out hle := (hc.refuses hp out (by omega)).imp_right (·.mono (by omega))
  succeeds hp out hle := by
    rcases hc.succeeds hp out (by omega) with ⟨out', hexec, hheight⟩ | hcount
    · exact .inl ⟨out', hexec, by omega⟩
    · exact .inr (hcount.mono (by omega))

/-- A sequence is refused where one of its parts is. -/
theorem bind (hc : RefusesIff sc d p c h h' top) (hc' : RefusesIff sc d q c' h' h'' top) :
    RefusesIff sc d (p ∨ q) (c >>= fun _ => c') h h'' top where
  refuses hpq out hle := by
    by_cases hp : p
    · rcases hc.refuses hp out hle with ⟨out', hexec⟩ | hcount
      · exact .inl ⟨out', by rw [Emit.exec_bind, hexec]⟩
      · exact .inr hcount.bind
    · rcases hc.succeeds hp out hle with ⟨mid, hexec, hheight⟩ | hcount
      · rcases hc'.refuses (hpq.resolve_left hp) mid (by omega) with ⟨out', hexec'⟩ | hcount
        · exact .inl ⟨out', by rw [Emit.exec_bind, hexec]; exact hexec'⟩
        · exact .inr (.after hexec hheight hcount)
      · exact .inr hcount.bind
  succeeds hpq out hle := by
    obtain ⟨hp, hq⟩ := not_or.1 hpq
    rcases hc.succeeds hp out hle with ⟨mid, hexec, hheight⟩ | hcount
    · rcases hc'.succeeds hq mid (by omega) with ⟨out', hexec', hheight'⟩ | hcount
      · exact .inl ⟨out', by rw [Emit.exec_bind, hexec]; exact hexec', by omega⟩
      · exact .inr (.after hexec hheight hcount)
    · exact .inr hcount.bind

/-- A first part that emits nothing. -/
theorem bind_nil {m : Emit α} {f : α → Emit Unit} {a : α} (hm : Emits sc m [] (.ok a))
    (hf : RefusesIff sc d p (f a) h h' top) : RefusesIff sc d p (m >>= f) h h' top := by
  have hexec : ∀ out : Output, ∃ mid : Output, m.exec sc out = (.ok a, mid) ∧ mid.code = out.code := by
    intro out
    obtain ⟨events, he⟩ := hm _ out rfl
    exact ⟨⟨out.code, events⟩, he, rfl⟩
  refine ⟨fun hp out hle => ?_, fun hp out hle => ?_⟩ <;> obtain ⟨mid, hm, hcode⟩ := hexec out <;>
    have hmid : (m >>= f).exec sc out = (f a).exec sc mid := by rw [Emit.exec_bind, hm]
  · refine (hf.refuses hp mid (by rwa [hcode])).imp (fun ⟨out', h'⟩ => ⟨out', hmid.trans h'⟩) ?_
    exact .after hm (by rw [hcode])
  · rw [hmid, ← hcode]
    exact (hf.succeeds hp mid (by rwa [hcode])).imp_right (.after hm (by rw [hcode]))

/-- A first part that is never refused. -/
theorem succeeds_bind (hc : RefusesIff sc d False c h h' top) (hc' : RefusesIff sc d p c' h' h'' top) :
    RefusesIff sc d p (c >>= fun _ => c') h h'' top :=
  (hc.bind hc').congr (iff_of_eq (false_or p))

/-- A second part that is never refused. -/
theorem bind_succeeds (hc : RefusesIff sc d p c h h' top) (hc' : RefusesIff sc d False c' h' h'' top) :
    RefusesIff sc d p (c >>= fun _ => c') h h'' top :=
  (hc.bind hc').congr (iff_of_eq (or_false p))

/-- Instructions that are there whatever comes after them. -/
theorem emitAll_bind (hh : heightFrom h code = some h') (htop : h + growth code ≤ top)
    (hc : RefusesIff sc d p c h' h'' top) :
    RefusesIff sc d p (emitAll code >>= fun _ => c) h h'' top :=
  (of_code (.emitAll code) hh htop).succeeds_bind hc

/-- Computations that all keep the height are refused where one of them is. -/
theorem forM {as : List α} {f : α → Emit Unit} {p : α → Prop}
    (hf : ∀ a ∈ as, RefusesIff sc d (p a) (f a) h h top) :
    RefusesIff sc d (∃ a ∈ as, p a) (as.forM f) h h top := by
  induction as with
  | nil => exact ⟨by simp, fun _ out _ => .inl ⟨out, rfl, rfl⟩⟩
  | cons a as ih =>
    have hrest := ih fun a' ha' => hf a' (List.mem_cons_of_mem _ ha')
    exact ((hf a List.mem_cons_self).bind hrest).congr (by simp)

/-- The ways in which such a computation ends. -/
theorem exec_fst_eq (hc : RefusesIff sc d p c h h' top) {out : Output} (hle : h ≤ out.code.height) :
    (p ∧ (c.exec sc out).1 = .error (.diagnostic d) ∨ ¬p ∧ (c.exec sc out).1 = .ok ()) ∨
      LosesCount sc c h top out := by
  by_cases hp : p
  · refine (hc.refuses hp out hle).imp_left fun ⟨out', hexec⟩ => .inl ⟨hp, ?_⟩
    rw [hexec]
  · refine (hc.succeeds hp out hle).imp_left fun ⟨out', hexec, _⟩ => .inr ⟨hp, ?_⟩
    rw [hexec]

/-- No other diagnostic is told, however high the stack is. -/
theorem exec_fst_ne (hc : RefusesIff sc d p c h h' top) {out : Output} (hle : h ≤ out.code.height)
    {other : Diagnostic} (hne : other ≠ d) : (c.exec sc out).1 ≠ .error (.diagnostic other) := by
  rcases hc.exec_fst_eq hle with (⟨-, hexec⟩ | ⟨-, hexec⟩) | ⟨⟨out', hexec⟩, -⟩ <;> rw [hexec]
  · intro h
    exact hne (Failure.diagnostic.inj (Except.error.inj h)).symm
  · simp
  · simp

/-- With room on the stack, the condition decides between the two ways to end. -/
theorem exec_fst_eq_iff (hc : RefusesIff sc d p c h h' top) {out : Output} (hle : h ≤ out.code.height)
    (hroom : out.code.height + top < countLimit + h) :
    ((c.exec sc out).1 = .error (.diagnostic d) ↔ p) ∧ ((c.exec sc out).1 = .ok () ↔ ¬p) := by
  rcases hc.exec_fst_eq hle with (⟨hp, hexec⟩ | ⟨hp, hexec⟩) | ⟨-, hcount⟩
  · rw [hexec]
    exact ⟨iff_of_true rfl hp, iff_of_false (by simp) (not_not_intro hp)⟩
  · rw [hexec]
    exact ⟨iff_of_false (by simp) hp, iff_of_true rfl hp⟩
  · exact absurd hcount (Nat.not_le.2 hroom)

end RefusesIff

end WordPlaces
