import WordPlaces.Proofs.Emit.Takes

/-!
# Exchanging blocks

Two blocks on top of the stack are exchanged by rotating the slots of both, once for each slot of the
smaller block.  A rotation is a sequence of exchanges with the top.

## Main definitions

* `swapsFromCode`, `swapsDownCode` — the exchanges of one rotation.
* `moveCode` — the code that exchanges two blocks.

## Main results

* `EmitsSome.moveInto` — a computation that succeeds has emitted this code.
* `Emits.moveInto` — blocks within the reach of stack instructions are exchanged.
* `Balances.moveInto` — the stack stays as high as it was, and no operand is missed.
* `Machine.run_moveInto` — executing the code exchanges the blocks.
-/

set_option autoImplicit false

namespace WordPlaces

/-! ## The code -/

/-- Exchanges of the top with the slots `depth`, `depth + 1`, … below it, `count` in all. -/
def swapsFromCode (depth count : Nat) : Code :=
  match count with
  | 0 => []
  | count + 1 => .swap depth :: swapsFromCode (depth + 1) count

/-- Exchanges of the top with the slots `depth`, `depth - 1`, …, one below it. -/
def swapsDownCode : Nat → Code
  | 0 => []
  | depth + 1 => .swap (depth + 1) :: swapsDownCode depth

/-- The code that moves the topmost `size` slots below the `depth` slots under them. -/
def moveCode (depth size : Nat) : Code :=
  if depth ≤ size then (List.replicate depth (swapsFromCode 1 (depth + size - 1))).flatten
  else (List.replicate size (swapsDownCode (depth + size - 1))).flatten

namespace Emits

variable {sc : Scope}

/-- Exchanges with slots that are in reach, each deeper than the one before. -/
theorem swapsFrom {depth count : Nat} (hpos : depth ≠ 0) (hle : depth + count ≤ stackWindow + 1) :
    Emits sc (swapsFrom depth count) (swapsFromCode depth count) (.ok ()) := by
  induction count generalizing depth with
  | zero => exact .pure ()
  | succ count ih => exact (swapSlot hpos (by omega)).bind (ih (by omega) (by omega))

/-- Exchanges with slots that are in reach, each higher than the one before. -/
theorem swapsDownFrom {depth : Nat} (hle : depth ≤ stackWindow) :
    Emits sc (swapsDownFrom depth) (swapsDownCode depth) (.ok ()) := by
  induction depth with
  | zero => exact .pure ()
  | succ depth ih => exact (swapSlot (Nat.succ_ne_zero _) hle).bind (ih (by omega))

/-- Blocks within the reach of stack instructions are exchanged. -/
theorem moveInto {depth size : Nat} (hle : depth + size ≤ stackWindow + 1) :
    Emits sc (moveInto depth size) (moveCode depth size) (.ok ()) := by
  have hwindow : stackWindow + 1 < countLimit := by decide
  have hcount : checkedCount (depth + size) = .ok (depth + size) := if_pos (by omega)
  unfold WordPlaces.moveInto moveCode
  split
  · have hrotate : Emits sc (rotateDown (depth + size)) (swapsFromCode 1 (depth + size - 1)) (.ok ()) :=
      swapsFrom Nat.one_ne_zero (by omega)
    exact repeatEmit (bind_nil (.orFault hcount) hrotate) depth
  · have hrotate : Emits sc (rotateUp (depth + size)) (swapsDownCode (depth + size - 1)) (.ok ()) :=
      swapsDownFrom (by omega)
    exact repeatEmit (bind_nil (.orFault hcount) hrotate) size

end Emits

namespace EmitsSome

variable {sc : Scope}

/-- What is emitted if no exchange is out of reach. -/
theorem swapsFrom (depth count : Nat) :
    EmitsSome sc (swapsFrom depth count) fun _ code => code = swapsFromCode depth count := by
  induction count generalizing depth with
  | zero => exact of_emits (.pure ()) rfl
  | succ count ih =>
    refine (swapSlot depth).bind fun _ code h => (ih (depth + 1)).mono fun _ code' h' => ?_
    rw [h, h']
    rfl

/-- What is emitted if no exchange is out of reach. -/
theorem swapsDownFrom (depth : Nat) :
    EmitsSome sc (swapsDownFrom depth) fun _ code => code = swapsDownCode depth := by
  induction depth with
  | zero => exact of_emits (.pure ()) rfl
  | succ depth ih =>
    refine (swapSlot (depth + 1)).bind fun _ code h => ih.mono fun _ code' h' => ?_
    rw [h, h']
    rfl

/-- A block is moved below another by rotations of both. -/
theorem moveInto (depth size : Nat) :
    EmitsSome sc (moveInto depth size) fun _ code => code = moveCode depth size := by
  unfold WordPlaces.moveInto moveCode
  split
  · refine repeatEmit (bind_orFault fun n hn => ?_) depth
    rw [checkedCount_eq_ok hn]
    exact swapsFrom 1 _
  · refine repeatEmit (bind_orFault fun n hn => ?_) size
    rw [checkedCount_eq_ok hn]
    exact swapsDownFrom _

end EmitsSome

/-! ## Heights -/

/-- Exchanges with deeper and deeper slots keep the height. -/
theorem heightFrom_swapsFromCode {h depth count : Nat} (hle : depth + count ≤ h) :
    heightFrom h (swapsFromCode depth count) = some h := by
  induction count generalizing depth with
  | zero => rfl
  | succ count ih =>
    have hin : (Instruction.swap depth).inputs ≤ h := by
      simp only [Instruction.inputs]
      omega
    have hnext := ih (show depth + 1 + count ≤ h by omega)
    rw [swapsFromCode, heightFrom_cons_of_le _ hin, ← hnext]
    congr 1
    simp only [Instruction.inputs, Instruction.outputs]
    omega

/-- Exchanges with higher and higher slots keep the height. -/
theorem heightFrom_swapsDownCode {h depth : Nat} (hlt : depth < h) :
    heightFrom h (swapsDownCode depth) = some h := by
  induction depth with
  | zero => rfl
  | succ depth ih =>
    have hin : (Instruction.swap (depth + 1)).inputs ≤ h := by
      simp only [Instruction.inputs]
      omega
    have hnext := ih (by omega)
    rw [swapsDownCode, heightFrom_cons_of_le _ hin, ← hnext]
    congr 1
    simp only [Instruction.inputs, Instruction.outputs]
    omega

/-- Code that keeps the height does so however often it is repeated. -/
theorem heightFrom_flatten_replicate {h : Nat} {code : Code} (hh : heightFrom h code = some h)
    (n : Nat) : heightFrom h (List.replicate n code).flatten = some h := by
  induction n with
  | zero => rfl
  | succ n ih =>
    rw [List.replicate_succ, List.flatten_cons, heightFrom_append, hh]
    exact ih

/-- Exchanging blocks keeps the height. -/
theorem heightFrom_moveCode {h depth size : Nat} (hle : depth + size ≤ h) :
    heightFrom h (moveCode depth size) = some h := by
  unfold moveCode
  split
  · by_cases hdepth : depth = 0
    · subst hdepth
      rfl
    · exact heightFrom_flatten_replicate (heightFrom_swapsFromCode (by omega)) depth
  · by_cases hsize : size = 0
    · subst hsize
      rfl
    · exact heightFrom_flatten_replicate (heightFrom_swapsDownCode (by omega)) size

/-- Exchanges with deeper and deeper slots take no further slots. -/
theorem growth_swapsFromCode (depth count : Nat) : growth (swapsFromCode depth count) = 0 := by
  induction count generalizing depth with
  | zero => rfl
  | succ count ih =>
    rw [swapsFromCode, growth, ih]
    simp only [Instruction.inputs, Instruction.outputs]
    omega

/-- Exchanges with higher and higher slots take no further slots. -/
theorem growth_swapsDownCode (depth : Nat) : growth (swapsDownCode depth) = 0 := by
  induction depth with
  | zero => rfl
  | succ depth ih =>
    rw [swapsDownCode, growth, ih]
    simp only [Instruction.inputs, Instruction.outputs]
    omega

/-- Code that takes no further slots does not take any when it is repeated. -/
theorem growth_flatten_replicate {code : Code} (h : growth code = 0) (n : Nat) :
    growth (List.replicate n code).flatten = 0 := by
  induction n with
  | zero => rfl
  | succ n ih => rw [List.replicate_succ, List.flatten_cons, growth_append, h, ih]

/-- Exchanging blocks takes no slots beside theirs. -/
theorem growth_moveCode (depth size : Nat) : growth (moveCode depth size) = 0 := by
  unfold moveCode
  split
  · exact growth_flatten_replicate (growth_swapsFromCode _ _) depth
  · exact growth_flatten_replicate (growth_swapsDownCode _) size

/-! ## Blocks that may be out of reach -/

namespace Balances

variable {strict : Prop} {sc : Scope} {h : Nat}

/-- An exchange with a slot that lies below the top keeps the height, or is refused. -/
theorem swapSlot {depth : Nat} (hlt : depth < h) : Balances strict sc (swapSlot depth) h h := by
  refine (reachable depth).bind fun _ => of_emits (.emit _) ?_
  rw [heightFrom_cons_of_le [] hlt]
  simp only [heightFrom_nil, Instruction.inputs, Instruction.outputs]
  congr 1
  omega

/-- Exchanges with deeper and deeper slots keep the height, or are refused. -/
theorem swapsFrom {depth count : Nat} (hle : depth + count ≤ h) :
    Balances strict sc (swapsFrom depth count) h h := by
  induction count generalizing depth with
  | zero => exact .pure ()
  | succ count ih => exact (swapSlot (by omega)).bind fun _ => ih (by omega)

/-- Exchanges with higher and higher slots keep the height, or are refused. -/
theorem swapsDownFrom {depth : Nat} (hlt : depth < h) :
    Balances strict sc (swapsDownFrom depth) h h := by
  induction depth with
  | zero => exact .pure ()
  | succ depth ih => exact (swapSlot hlt).bind fun _ => ih (by omega)

/-- A block is moved below another where both are there. -/
theorem moveInto {depth size : Nat} (hle : depth + size ≤ h) :
    Balances strict sc (moveInto depth size) h h := by
  unfold WordPlaces.moveInto
  split
  · refine repeatEmit (fun _ => h) fun i hi => ?_
    refine bind_orFault (fun _ => isUnderflow_of_checkedCount) fun n hn => ?_
    rw [checkedCount_eq_ok hn]
    exact swapsFrom (by omega)
  · refine repeatEmit (fun _ => h) fun i hi => ?_
    refine bind_orFault (fun _ => isUnderflow_of_checkedCount) fun n hn => ?_
    rw [checkedCount_eq_ok hn]
    exact swapsDownFrom (by omega)

end Balances

/-! ## Executing -/

namespace Machine

section Run

variable (m : Machine) (a b : Word) (rest : List Word) (code : Code)

/-- Exchanging the top with a slot that lies below others. -/
theorem run_swap_append (above : List Word) :
    (m.withStack (a :: (above ++ b :: rest))).run (.swap (above.length + 1) :: code) =
      (m.withStack (b :: (above ++ a :: rest))).run code := by
  rw [run_swap _ _ (by simp)]
  simp [List.getElem_append_right, List.set_append_right]

/-- The top of the topmost slots becomes the lowest of them. -/
theorem run_swapsDown (above : List Word) :
    (m.withStack (a :: (above ++ rest))).run (swapsDownCode above.length ++ code) =
      (m.withStack (above ++ a :: rest)).run code := by
  induction above using List.reverseRecOn generalizing a rest with
  | nil => rfl
  | append_singleton above b ih =>
    have hcode : swapsDownCode (above ++ [b]).length =
        .swap (above.length + 1) :: swapsDownCode above.length := by
      rw [List.length_append]
      rfl
    rw [hcode, List.append_assoc, List.singleton_append, List.cons_append, run_swap_append, ih,
      List.append_assoc, List.singleton_append]

/-- The lowest of some slots becomes the top, with slots between the top and the others. -/
theorem run_swapsFrom_between (between slots : List Word) :
    (m.withStack (a :: (between ++ (slots ++ rest)))).run
        (swapsFromCode (between.length + 1) slots.length ++ code) =
      (m.withStack ((a :: slots).getLast (List.cons_ne_nil _ _) ::
        (between ++ ((a :: slots).dropLast ++ rest)))).run code := by
  induction slots generalizing a between with
  | nil => rfl
  | cons b slots ih =>
    have hnext := ih b (between ++ [a])
    rw [List.length_append, List.length_singleton] at hnext
    rw [List.length_cons, swapsFromCode, List.cons_append, List.cons_append, run_swap_append]
    simpa using hnext

/-- The lowest of the topmost slots becomes the top. -/
theorem run_swapsFrom (above : List Word) :
    (m.withStack (above ++ a :: rest)).run (swapsFromCode 1 above.length ++ code) =
      (m.withStack (a :: (above ++ rest))).run code := by
  cases above with
  | nil => rfl
  | cons b above =>
    have h := run_swapsFrom_between m b rest code [] (above ++ [a])
    have hlast : (b :: (above ++ [a])).getLast (List.cons_ne_nil _ _) = a :=
      List.getLast_append_of_ne_nil (l := b :: above) _ (List.cons_ne_nil _ _)
    have hinit : (b :: (above ++ [a])).dropLast = b :: above := by
      rw [← List.cons_append, List.dropLast_concat]
    rw [hlast, hinit] at h
    simpa using h

/-- Rotating a block down, its top first, below the block under it. -/
theorem run_rotationsUp {n : Nat} (block below : List Word)
    (hn : n + 1 = block.length + below.length) :
    (m.withStack (block ++ (below ++ rest))).run
        ((List.replicate block.length (swapsDownCode n)).flatten ++ code) =
      (m.withStack (below ++ (block ++ rest))).run code := by
  induction block generalizing below with
  | nil => rfl
  | cons a block ih =>
    have hlength : n = (block ++ below).length := by
      rw [List.length_append]
      rw [List.length_cons] at hn
      omega
    have hstack : a :: block ++ (below ++ rest) = a :: ((block ++ below) ++ rest) := by simp
    have hrotate := run_swapsDown m a rest
      ((List.replicate block.length (swapsDownCode n)).flatten ++ code) (block ++ below)
    rw [← hlength] at hrotate
    have hnext := ih (below ++ [a]) (by simp at hn ⊢; omega)
    rw [List.length_cons, List.replicate_succ, List.flatten_cons, List.append_assoc, hstack, hrotate]
    simpa using hnext

/-- Rotating a block up, its lowest slot first, above the block on top of it. -/
theorem run_rotationsDown {n : Nat} (block below : List Word)
    (hn : n + 1 = block.length + below.length) :
    (m.withStack (block ++ (below ++ rest))).run
        ((List.replicate below.length (swapsFromCode 1 n)).flatten ++ code) =
      (m.withStack (below ++ (block ++ rest))).run code := by
  induction below using List.reverseRecOn generalizing block with
  | nil => rfl
  | append_singleton below a ih =>
    have hlength : n = (block ++ below).length := by
      simp at hn ⊢
      omega
    have hstack : block ++ (below ++ [a] ++ rest) = (block ++ below) ++ a :: rest := by simp
    have hrotate := run_swapsFrom m a rest
      ((List.replicate below.length (swapsFromCode 1 n)).flatten ++ code) (block ++ below)
    rw [← hlength, ← hstack] at hrotate
    have hnext := ih (a :: block) (by simp at hn ⊢; omega)
    rw [List.length_append, List.length_singleton, List.replicate_succ, List.flatten_cons,
      List.append_assoc (swapsFromCode 1 n), hrotate]
    simpa using hnext

/-- Moving a block below the one under it. -/
theorem run_moveInto {depth size : Nat} (block below : List Word) (hblock : block.length = size)
    (hbelow : below.length = depth) :
    (m.withStack (block ++ (below ++ rest))).run (moveCode depth size ++ code) =
      (m.withStack (below ++ (block ++ rest))).run code := by
  subst hblock hbelow
  unfold moveCode
  split
  · by_cases hempty : below = []
    · subst hempty
      rfl
    · have hpos := List.length_pos_iff.2 hempty
      exact run_rotationsDown m rest code block below (by omega)
  · by_cases hempty : block = []
    · subst hempty
      rfl
    · have hpos := List.length_pos_iff.2 hempty
      exact run_rotationsUp m rest code block below (by omega)

end Run

end Machine

end WordPlaces
