import Mathlib.Data.List.Rotate
import WordPlaces.Proofs.Emit.Rotation

/-!
# Moving blocks on the stack

Two blocks on top of the stack are exchanged by rotations, and a block is copied to the top slot by slot.
Both rearrange the slots exactly, whatever they hold, and they fail exactly where a slot is out of reach of
the stack instructions.

## Main definitions

* `Rearranges` — a computation that replaces the topmost slots by others.
* `ReachesIff` — a computation that fails exactly if a condition does not hold, since a slot is too deep.
* `MoveReaches` — the blocks that can be exchanged.

## Main results

* `Rearranges.bind` — one rearrangement after the other.
* `rearranges_moveInto`, `rearranges_rotateUp`, `rearranges_rotateDown`, `rearranges_copyToTop` — what the
  computations make of the slots.
* `reachesIff_moveInto`, `reachesIff_rotateUp`, `reachesIff_rotateDown` — where they fail.
* `blockMoves_exact` — block moves are exact and fail exactly at the window.
-/

set_option autoImplicit false

namespace WordPlaces

/-! ## Rearranging the topmost slots -/

/-- The computation replaces the topmost slots `before` by `after`.  On every stack that has as many slots as
`before`, it succeeds as long as the height with `after` in their place can be counted, and executing the code
that it appends turns `before` into `after`, whatever lies below.  The top of the stack comes first. -/
def Rearranges (sc : Scope) (c : Emit Unit) (before after : List Word) : Prop :=
  ∀ out : Output, before.length ≤ out.code.height →
    out.code.height - before.length + after.length < countLimit →
    ∃ out' code, c.exec sc out = (.ok (), out') ∧ out'.code.ops = out.code.ops ++ code.toArray ∧
      out'.code.height = out.code.height - before.length + after.length ∧
      ∀ (m : Machine) (rest : List Word),
        (m.withStack (before ++ rest)).run code = .ok (m.withStack (after ++ rest))

/-- On stacks that have `n` slots, as many as can be counted, the computation succeeds if the condition
holds.  Otherwise it is rejected since the slot at `depth` is too deep. -/
def ReachesIff (sc : Scope) (c : Emit Unit) (n : Nat) (p : Prop) (depth : Nat) : Prop :=
  ∀ out : Output, n ≤ out.code.height → out.code.height < countLimit →
    ((∃ out', c.exec sc out = (.ok (), out')) ↔ p) ∧
      (¬ p → ∃ out', c.exec sc out = (.error (.diagnostic (.stackTooDeep depth sc.site)), out'))

section Rules

variable {sc : Scope} {c c' : Emit Unit} {before mid after : List Word}

/-- A computation rearranges the slots as its code does. -/
theorem Rearranges.of_emits {code : Code} (hc : Emits sc c code (.ok ()))
    (hh : heightFrom before.length code = some after.length)
    (hgrowth : before.length + growth code ≤ after.length)
    (hrun : ∀ (m : Machine) (rest : List Word),
      (m.withStack (before ++ rest)).run code = .ok (m.withStack (after ++ rest))) :
    Rearranges sc c before after := by
  intro out hle hlt
  obtain ⟨k, hk⟩ := Nat.exists_eq_add_of_le hle
  obtain ⟨out', hexec, hops, hheight⟩ := hc.appendsFrom hh out hle (by omega)
  rw [hk, heightFrom_add k hh] at hheight
  have hout := Option.some.inj hheight
  exact ⟨out', code, hexec, hops, by omega, hrun⟩

/-- One rearrangement after the other, where there are not more slots between the two than after them. -/
theorem Rearranges.bind (hc : Rearranges sc c before mid) (hc' : Rearranges sc c' mid after)
    (hle : mid.length ≤ after.length) : Rearranges sc (c >>= fun _ => c') before after := by
  intro out hbefore hlt
  obtain ⟨out₁, code, hexec, hops, hheight, hrun⟩ := hc out hbefore (by omega)
  obtain ⟨out₂, code', hexec', hops', hheight', hrun'⟩ := hc' out₁ (by omega) (by omega)
  refine ⟨out₂, code ++ code', Emit.exec_bind_eq_ok.2 ⟨(), out₁, hexec, hexec'⟩, ?_, by omega, ?_⟩
  · rw [hops', hops, ← Array.toList_inj]
    simp
  · intro m rest
    rw [Machine.run_append, hrun]
    exact hrun' m rest

/-- Nothing is rearranged. -/
theorem Rearranges.pure (slots : List Word) : Rearranges sc (pure ()) slots slots :=
  .of_emits (.pure ()) rfl (Nat.le_refl _) fun _ _ => rfl

/-- Code that needs its slots only, and no further ones, is appended to every stack that has them. -/
theorem ReachesIff.of_emits {code code' : Code} {n depth : Nat} {p : Prop}
    (hok : p → Emits sc c code (.ok ()))
    (hdeep : ¬ p → Emits sc c code' (.error (.diagnostic (.stackTooDeep depth sc.site))))
    (hh : p → heightFrom n code = some n) (hgrowth : growth code = 0)
    (hh' : ¬ p → heightFrom n code' = some n) (hgrowth' : growth code' = 0) :
    ReachesIff sc c n p depth := by
  intro out hle hlt
  obtain ⟨k, hk⟩ := Nat.exists_eq_add_of_le hle
  have hextend : ∀ {code : Code}, heightFrom n code = some n → growth code = 0 →
      ∃ s, out.code.extend code = (s, none) := by
    intro code hh hgrowth
    have hheight := heightFrom_add k hh
    rw [← hk] at hheight
    exact ⟨_, CodeSection.extend_of_heightFrom hheight (by omega)⟩
  have hrejected : ¬ p → ∃ out', c.exec sc out =
      (.error (.diagnostic (.stackTooDeep depth sc.site)), out') := by
    intro hp
    obtain ⟨s, hs⟩ := hextend (hh' hp) hgrowth'
    obtain ⟨events, hexec⟩ := (hdeep hp _).exec_eq hs
    exact ⟨_, hexec⟩
  refine ⟨⟨fun ⟨out', hexec⟩ => ?_, fun hp => ?_⟩, hrejected⟩
  · by_contra hp
    obtain ⟨out'', hexec'⟩ := hrejected hp
    rw [hexec] at hexec'
    exact absurd (congrArg Prod.fst hexec') nofun
  · exact (hok hp _).exists_exec_eq_ok_iff.2 (hextend (hh hp) hgrowth)

end Rules

/-! ## Blocks out of reach -/

namespace Emits

variable {sc : Scope}

/-- Exchanges with deeper and deeper slots are emitted up to the first that is out of reach. -/
theorem swapsFrom_of_lt {depth count : Nat} (hpos : depth ≠ 0) (hle : depth ≤ stackWindow + 1)
    (hlt : stackWindow + 1 < depth + count) :
    Emits sc (WordPlaces.swapsFrom depth count) (swapsFromCode depth (stackWindow + 1 - depth))
      (.error (.diagnostic (.stackTooDeep (stackWindow + 1) sc.site))) := by
  induction count generalizing depth with
  | zero => omega
  | succ count ih =>
    by_cases hreach : depth ≤ stackWindow
    · have hnext : stackWindow + 1 - depth = stackWindow + 1 - (depth + 1) + 1 := by omega
      rw [hnext]
      exact (swapSlot hpos hreach).bind (ih (Nat.succ_ne_zero _) (by omega) (by omega))
    · obtain rfl : depth = stackWindow + 1 := by omega
      rw [Nat.sub_self]
      exact (swapSlot_of_lt (Nat.lt_succ_self _)).bind_error

/-- The first of the exchanges with shallower and shallower slots is the one that may be out of reach. -/
theorem swapsDownFrom_of_lt {depth : Nat} (hlt : stackWindow < depth) :
    Emits sc (WordPlaces.swapsDownFrom depth) []
      (.error (.diagnostic (.stackTooDeep depth sc.site))) := by
  cases depth with
  | zero => contradiction
  | succ depth => exact (swapSlot_of_lt hlt).bind_error

/-- A rotation down of more than seventeen slots fails at the last slot but sixteen. -/
theorem rotateDown_of_lt {count : Nat} (hlt : 17 < count) :
    Emits sc (rotateDown count) (swapsFromCode 1 16) (.error (.diagnostic (.stackTooDeep 17 sc.site))) :=
  swapsFrom_of_lt Nat.one_ne_zero (by decide) (show stackWindow + 1 < 1 + (count - 1) by
    rw [stackWindow]
    omega)

/-- A rotation up of more than seventeen slots fails at the lowest of them. -/
theorem rotateUp_of_lt {count : Nat} (hlt : 17 < count) :
    Emits sc (rotateUp count) [] (.error (.diagnostic (.stackTooDeep (count - 1) sc.site))) :=
  swapsDownFrom_of_lt (show stackWindow < count - 1 by
    rw [stackWindow]
    omega)

end Emits

/-- The blocks that can be exchanged: one of them is empty, or they have no more than seventeen slots, which
are the top and those that stack instructions exchange it with. -/
def MoveReaches (depth size : Nat) : Prop := depth = 0 ∨ size = 0 ∨ depth + size ≤ 17

/-- What can be exchanged can be exchanged back. -/
theorem MoveReaches.symm {depth size : Nat} (h : MoveReaches depth size) : MoveReaches size depth := by
  unfold MoveReaches at h ⊢
  omega

/-- The slot that is too deep when two blocks cannot be exchanged: rotating down comes to it from above, and
rotating up starts with the lowest slot of the lower block. -/
def moveDepth (depth size : Nat) : Nat := if depth ≤ size then 17 else depth + size - 1

namespace Emits

variable {sc : Scope} {depth size : Nat}

/-- Blocks are exchanged if one is empty, since no slot is moved, or if they are within reach. -/
theorem moveInto_of_reaches (h : MoveReaches depth size) :
    Emits sc (WordPlaces.moveInto depth size) (moveCode depth size) (.ok ()) := by
  rcases h with rfl | rfl | hle
  · unfold WordPlaces.moveInto moveCode
    rw [if_pos (Nat.zero_le size), if_pos (Nat.zero_le size)]
    exact .pure ()
  · unfold WordPlaces.moveInto moveCode
    split
    · obtain rfl : depth = 0 := Nat.le_zero.1 ‹_›
      exact .pure ()
    · exact .pure ()
  · exact .moveInto hle

/-- Other blocks are not exchanged. -/
theorem moveInto_of_not_reaches (h : ¬ MoveReaches depth size) (hcount : depth + size < countLimit) :
    Emits sc (WordPlaces.moveInto depth size) (if depth ≤ size then swapsFromCode 1 16 else [])
      (.error (.diagnostic (.stackTooDeep (moveDepth depth size) sc.site))) := by
  unfold MoveReaches at h
  have hchecked : Emits sc (WordPlaces.orFault (checkedCount (depth + size))) [] (.ok (depth + size)) :=
    orFault (if_pos hcount)
  unfold WordPlaces.moveInto moveDepth
  split
  · exact repeatEmit_error (hchecked.bind_nil (rotateDown_of_lt (by omega))) (by omega)
  · exact repeatEmit_error (hchecked.bind_nil (rotateUp_of_lt (by omega))) (by omega)

end Emits

/-! ## Where moves fail -/

section Reach

variable (sc : Scope)

/-- Blocks are exchanged exactly if they are within reach. -/
theorem reachesIff_moveInto (depth size : Nat) :
    ReachesIff sc (moveInto depth size) (depth + size) (MoveReaches depth size)
      (moveDepth depth size) := by
  intro out hle hlt
  refine ReachesIff.of_emits .moveInto_of_reaches (fun h => .moveInto_of_not_reaches h (by omega))
    (fun _ => heightFrom_moveCode (Nat.le_refl _)) (growth_moveCode depth size) (fun h => ?_) ?_ out hle hlt
  · unfold MoveReaches at h
    split
    · exact heightFrom_swapsFromCode (by omega)
    · rfl
  · split
    · exact growth_swapsFromCode 1 16
    · rfl

/-- Slots are rotated up exactly if there are no more than seventeen of them. -/
theorem reachesIff_rotateUp (count : Nat) :
    ReachesIff sc (rotateUp count) count (count ≤ 17) (count - 1) := by
  refine ReachesIff.of_emits (fun h => .swapsDownFrom ?_) (fun h => .rotateUp_of_lt (Nat.lt_of_not_ge h))
    (fun _ => ?_) (growth_swapsDownCode _) (fun _ => rfl) rfl
  · rw [stackWindow]
    omega
  · cases count with
    | zero => rfl
    | succ count => exact heightFrom_swapsDownCode (Nat.lt_succ_self count)

/-- Slots are rotated down exactly if there are no more than seventeen of them. -/
theorem reachesIff_rotateDown (count : Nat) :
    ReachesIff sc (rotateDown count) count (count ≤ 17) 17 := by
  refine ReachesIff.of_emits (fun h => .swapsFrom Nat.one_ne_zero ?_)
    (fun h => .rotateDown_of_lt (Nat.lt_of_not_ge h)) (fun _ => ?_) (growth_swapsFromCode _ _)
    (fun h => heightFrom_swapsFromCode (by omega)) (growth_swapsFromCode 1 16)
  · rw [stackWindow]
    omega
  · cases count with
    | zero => rfl
    | succ count => exact heightFrom_swapsFromCode (by omega)

end Reach

/-! ## What moves do -/

section Moves

variable (sc : Scope)

/-- A block is moved below another one, both in their order. -/
theorem rearranges_moveInto (block below : List Word) (h : MoveReaches below.length block.length) :
    Rearranges sc (moveInto below.length block.length) (block ++ below) (below ++ block) := by
  have hlength : (below ++ block).length = (block ++ below).length := by
    rw [List.length_append, List.length_append, Nat.add_comm]
  have hdepth : below.length + block.length ≤ (block ++ below).length :=
    Nat.le_of_eq (List.length_append.symm.trans hlength)
  refine .of_emits (.moveInto_of_reaches h) ?_ ?_ fun m rest => ?_
  · rw [hlength]
    exact heightFrom_moveCode hdepth
  · rw [growth_moveCode]
    exact Nat.le_of_eq hlength.symm
  · have hrun := Machine.run_moveInto m rest [] block below rfl rfl
    simpa using hrun

/-- Slots are shifted by one, so that the top becomes the lowest of them. -/
theorem rearranges_rotateUp (slots : List Word) (h : slots.length ≤ 17) :
    Rearranges sc (rotateUp slots.length) slots (slots.rotate 1) := by
  cases slots with
  | nil => exact .pure []
  | cons a above =>
    rw [List.rotate_cons_succ, List.rotate_zero]
    refine .of_emits (.swapsDownFrom (Nat.le_of_succ_le_succ h)) ?_ ?_ fun m rest => ?_
    · rw [List.length_append]
      exact heightFrom_swapsDownCode (Nat.lt_succ_self above.length)
    · rw [growth_swapsDownCode]
      simp
    · have hrun := Machine.run_swapsDown m a rest [] above
      simpa using hrun

/-- Slots are shifted by one the other way, so that the lowest of them becomes the top. -/
theorem rearranges_rotateDown (slots : List Word) (h : slots.length ≤ 17) :
    Rearranges sc (rotateDown slots.length) slots (slots.rotate (slots.length - 1)) := by
  rcases List.eq_nil_or_concat slots with rfl | ⟨above, a, rfl⟩
  · exact .pure []
  · rw [List.concat_eq_append] at h ⊢
    rw [List.length_append, List.length_singleton] at h ⊢
    rw [Nat.add_sub_cancel, List.rotate_append_length_eq]
    refine .of_emits (.swapsFrom Nat.one_ne_zero ?_) ?_ ?_ fun m rest => ?_
    · rw [stackWindow]
      omega
    · rw [List.length_append, List.length_append, Nat.add_comm [a].length]
      exact heightFrom_swapsFromCode (by rw [List.length_singleton]; omega)
    · rw [growth_swapsFromCode]
      simp
    · have hrun := Machine.run_swapsFrom m a rest [] above
      simpa using hrun

/-- Shifting by one and by all but one, in either order, leaves the slots as they were. -/
theorem rotate_one_rotate_pred {α : Type} (slots : List α) :
    (slots.rotate 1).rotate (slots.length - 1) = slots ∧
      (slots.rotate (slots.length - 1)).rotate 1 = slots := by
  cases slots with
  | nil => exact ⟨rfl, rfl⟩
  | cons a slots =>
    have hlength : slots.length + 1 = (a :: slots).length := rfl
    rw [List.rotate_rotate, List.rotate_rotate, List.length_cons, Nat.add_sub_cancel, Nat.add_comm 1,
      hlength, List.rotate_length]
    exact ⟨rfl, rfl⟩

/-- A block that lies below others is copied to the top, in its order. -/
theorem rearranges_copyToTop (above block : List Word) (hblock : block ≠ [])
    (h : above.length + block.length ≤ 16) :
    Rearranges sc (copyToTop (above.length + block.length) block.length) (above ++ block)
      (block ++ (above ++ block)) := by
  have hpos := List.length_pos_iff.2 hblock
  refine .of_emits (.copyToTop (by omega) h block.length) ?_ ?_ fun m rest => ?_
  · rw [heightFrom_copyToTop (Nat.le_of_eq List.length_append.symm)]
    simp
    omega
  · rw [growth_copyToTop]
    simp
    omega
  · have hrun := Machine.run_copyToTop m rest [] above block rfl rfl
    simpa using hrun

/-- Moving a block into the stack and to the top again leaves the slots as they were. -/
theorem rearranges_moveInto_moveToTop (block below : List Word)
    (h : MoveReaches below.length block.length) :
    Rearranges sc (do moveInto below.length block.length; moveToTop below.length block.length)
      (block ++ below) (block ++ below) := by
  refine (rearranges_moveInto sc block below h).bind (rearranges_moveInto sc below block h.symm) ?_
  rw [List.length_append, List.length_append, Nat.add_comm]

/-- The two rotations undo each other. -/
theorem rearranges_rotateUp_rotateDown (slots : List Word) (h : slots.length ≤ 17) :
    Rearranges sc (do rotateUp slots.length; rotateDown slots.length) slots slots ∧
      Rearranges sc (do rotateDown slots.length; rotateUp slots.length) slots slots := by
  obtain ⟨hup, hdown⟩ := rotate_one_rotate_pred slots
  constructor
  · have hback := rearranges_rotateDown sc (slots.rotate 1) (by rwa [List.length_rotate])
    rw [List.length_rotate, hup] at hback
    exact (rearranges_rotateUp sc slots h).bind hback (Nat.le_of_eq (List.length_rotate _ _))
  · have hback := rearranges_rotateUp sc (slots.rotate (slots.length - 1)) (by rwa [List.length_rotate])
    rw [List.length_rotate, hdown] at hback
    exact (rearranges_rotateDown sc slots h).bind hback (Nat.le_of_eq (List.length_rotate _ _))

end Moves

/-- Block moves are exact, and they fail exactly at the window.

On every stack that has the slots, a block of `size` slots is moved below `depth` slots exactly if one of the
two is empty or both together have no more than seventeen slots, and otherwise the unit is rejected since the
stack is too deep.  A move exchanges the two blocks, both in their order, and the move to the top undoes it.
Rotations up and down are the cyclic shifts of up to seventeen slots by one, which undo each other, and a block
in the sixteen topmost slots is copied to the top in its order.

**Proof sketch.** The number of slots decides which exchanges are emitted, and whether one of them is too deep:
rotating down exchanges the top with deeper and deeper slots, and rotating up starts with the deepest
(`Emits.swapsFrom_of_lt`, `Emits.swapsDownFrom_of_lt`).  One rotation moves one slot of the smaller block to
the other side of the other one, so as many rotations as it has slots exchange the two
(`Machine.run_rotationsUp`, `Machine.run_rotationsDown`). -/
theorem blockMoves_exact (sc : Scope) :
    (∀ depth size, ReachesIff sc (moveInto depth size) (depth + size)
      (depth = 0 ∨ size = 0 ∨ depth + size ≤ 17) (if depth ≤ size then 17 else depth + size - 1)) ∧
    (∀ block below : List Word,
      below.length = 0 ∨ block.length = 0 ∨ below.length + block.length ≤ 17 →
      Rearranges sc (moveInto below.length block.length) (block ++ below) (below ++ block) ∧
      Rearranges sc (do moveInto below.length block.length; moveToTop below.length block.length)
        (block ++ below) (block ++ below)) ∧
    (∀ count, ReachesIff sc (rotateUp count) count (count ≤ 17) (count - 1) ∧
      ReachesIff sc (rotateDown count) count (count ≤ 17) 17) ∧
    (∀ slots : List Word, slots.length ≤ 17 →
      Rearranges sc (rotateUp slots.length) slots (slots.rotate 1) ∧
      Rearranges sc (rotateDown slots.length) slots (slots.rotate (slots.length - 1)) ∧
      Rearranges sc (do rotateUp slots.length; rotateDown slots.length) slots slots ∧
      Rearranges sc (do rotateDown slots.length; rotateUp slots.length) slots slots) ∧
    ∀ above block : List Word, block ≠ [] → above.length + block.length ≤ 16 →
      Rearranges sc (copyToTop (above.length + block.length) block.length) (above ++ block)
        (block ++ (above ++ block)) :=
  ⟨reachesIff_moveInto sc,
    fun block below h => ⟨rearranges_moveInto sc block below h, rearranges_moveInto_moveToTop sc block below h⟩,
    fun count => ⟨reachesIff_rotateUp sc count, reachesIff_rotateDown sc count⟩,
    fun slots h => ⟨rearranges_rotateUp sc slots h, rearranges_rotateDown sc slots h,
      rearranges_rotateUp_rotateDown sc slots h⟩,
    rearranges_copyToTop sc⟩

/-- Two slots are moved below three and back, three are shifted, and two of three are copied.  Nine slots are
not moved below nine. -/
theorem blockMoves_exact_five :
    (Rearranges {} (moveInto 3 2) [5, 4, 3, 2, 1] [3, 2, 1, 5, 4] ∧
      Rearranges {} (do moveInto 3 2; moveToTop 3 2) [5, 4, 3, 2, 1] [5, 4, 3, 2, 1]) ∧
    (Rearranges {} (rotateUp 3) [3, 2, 1] [2, 1, 3] ∧ Rearranges {} (rotateDown 3) [3, 2, 1] [1, 3, 2]) ∧
    Rearranges {} (copyToTop 3 2) [3, 2, 1] [2, 1, 3, 2, 1] ∧
    ∃ out', (moveInto 9 9).exec {} { code := .ofHeight 18 } =
      (.error (.diagnostic (.stackTooDeep 17 .dummy)), out') := by
  obtain ⟨hreaches, hmoves, -, hrotations, hcopies⟩ := blockMoves_exact {}
  have hshift := hrotations [3, 2, 1] (by decide)
  exact ⟨hmoves [5, 4] [3, 2, 1] (by decide), ⟨hshift.1, hshift.2.1⟩, hcopies [3] [2, 1] (by decide) (by decide),
    (hreaches 9 9 { code := .ofHeight 18 } (Nat.le_refl _) (by decide)).2 (by decide)⟩

end WordPlaces
