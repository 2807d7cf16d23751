import WordPlaces.Place.StackVariable
import WordPlaces.Proofs.Emit.Rotation

/-!
# Writing a local variable

The slots of a local variable lie somewhere below the value that is written.  Every word of the value
is exchanged with the slot that it replaces, all of which are found at the same distance.

## Main definitions

* `overwriteCode` — the exchanges.

## Main results

* `StackVariable.exec_store_eq_ok` — a write that is compiled appends this code, and so does one on a
  lower stack.
* `Machine.run_overwrite` — executing the code replaces the slots of the variable.
-/

set_option autoImplicit false

namespace WordPlaces

/-- The exchanges of `size` words on top of the stack with the slots `distance` below them. -/
def overwriteCode (size distance : Nat) : Code := (List.replicate size [.swap distance, .pop]).flatten

/-- Writing a variable takes the words that are written. -/
theorem heightFrom_overwriteCode (size distance : Nat) :
    heightFrom (size + distance) (overwriteCode size distance) = some distance := by
  induction size with
  | zero =>
    rw [Nat.zero_add]
    rfl
  | succ size ih =>
    have hcode : overwriteCode (size + 1) distance =
        .swap distance :: .pop :: overwriteCode size distance := rfl
    rw [hcode, heightFrom_cons_of_le _ (by simp only [Instruction.inputs]; omega),
      heightFrom_cons_of_le _ (by simp only [Instruction.inputs, Instruction.outputs]; omega), ← ih]
    congr 1
    simp only [Instruction.inputs, Instruction.outputs]
    omega

/-- Writing a variable takes no further slots. -/
theorem growth_overwriteCode (size distance : Nat) : growth (overwriteCode size distance) = 0 := by
  induction size with
  | zero => rfl
  | succ size ih =>
    have hcode : overwriteCode (size + 1) distance =
        .swap distance :: .pop :: overwriteCode size distance := rfl
    rw [hcode, growth, growth, ih]
    simp only [Instruction.inputs, Instruction.outputs]
    omega

/-! ## Emitting -/

namespace StackVariable

variable {sc : Scope} {v : StackVariable} {distance : Nat}

/-- The distance to a slot below the top is found. -/
theorem emitsFrom_distanceToTop {h base : Nat} (hlt : base < h) :
    EmitsFrom sc h (distanceToTop base) [] (.ok (h - base - 1)) := by
  refine EmitsFrom.stackHeight.bind fun h' hh => ?_
  obtain rfl := Option.some.inj hh
  rw [if_neg (Nat.not_le.2 hlt)]
  exact .pure _

/-- There is no distance to a slot that the stack does not have. -/
theorem emitsFrom_distanceToTop_of_le {h base : Nat} (hle : h ≤ base) :
    EmitsFrom sc h (distanceToTop base) [] (.error (.fault .slotAboveTop)) := by
  refine EmitsFrom.stackHeight.bind fun h' hh => ?_
  obtain rfl := Option.some.inj hh
  rw [if_pos hle]
  exact .throw _

/-- The distance at which a variable is written. -/
theorem emitsFrom_store_of_overwrite {code : Code} {r : Except Failure Unit} (hpos : 0 < distance)
    (h : Emits sc (v.overwrite distance) code r) :
    EmitsFrom sc (v.size + distance + v.base) (v.store true) code r := by
  have hdepth : v.size + distance + v.base - v.base - 1 + 1 = v.size + distance := by omega
  refine (emitsFrom_distanceToTop (by omega)).bind fun h' hh => ?_
  simp only [hdepth]
  rw [if_neg (by omega), if_pos (by omega), Nat.add_sub_cancel_left]
  cases r with
  | error e => exact (h h').bind_error
  | ok _ =>
    have hpure : ∀ h'', EmitsFrom sc h'' (pure ()) [] (.ok ()) := fun _ => .pure ()
    have hbind := (h h').bind fun h'' _ => hpure h''
    rw [List.append_nil] at hbind
    exact hbind

/-- A variable within the reach of stack instructions is written. -/
theorem emitsFrom_store (hpos : 0 < distance) (hle : v.size = 0 ∨ distance ≤ stackWindow) :
    EmitsFrom sc (v.size + distance + v.base) (v.store true) (overwriteCode v.size distance)
      (.ok ()) := by
  refine emitsFrom_store_of_overwrite hpos ?_
  unfold overwrite
  rcases hle with hsize | hle
  · rw [hsize]
    exact .pure ()
  · exact .repeatEmit ((Emits.swapSlot (Nat.ne_of_gt hpos) hle).bind (.emit .pop)) _

/-- A variable out of their reach is not. -/
theorem emitsFrom_store_of_lt (hsize : v.size ≠ 0) (hlt : stackWindow < distance) :
    EmitsFrom sc (v.size + distance + v.base) (v.store true) []
      (.error (.diagnostic (.stackTooDeep distance sc.site))) := by
  refine emitsFrom_store_of_overwrite (Nat.zero_lt_of_lt hlt) ?_
  unfold overwrite
  exact .repeatEmit_error (Emits.swapSlot_of_lt hlt).bind_error hsize

/-- A variable that is written lies within the reach of stack instructions.  What is appended then
takes the value, and so it does on every lower stack. -/
theorem exec_store_eq_ok {out out' : Output} (hpos : 0 < distance)
    (hheight : out.code.height = v.size + distance + v.base)
    (hexec : (v.store true).exec sc out = (.ok (), out')) :
    out'.code.ops = out.code.ops ++ (overwriteCode v.size distance).toArray ∧
      out'.code.height = distance + v.base ∧
      ∀ (low : Output) (distance' : Nat), 0 < distance' → distance' ≤ distance →
        low.code.height = v.size + distance' + v.base →
        ∃ low', (v.store true).exec sc low = (.ok (), low') ∧
          low'.code.ops = low.code.ops ++ (overwriteCode v.size distance').toArray ∧
          low'.code.height = distance' + v.base := by
  have hle : v.size = 0 ∨ distance ≤ stackWindow := by
    by_contra hnot
    have herror : EmitsFrom sc (v.size + distance + v.base) (v.store true) []
        (.error (.diagnostic (.stackTooDeep distance sc.site))) :=
      emitsFrom_store_of_lt (by omega) (by omega)
    rw [← hheight] at herror
    have := (herror.of_exec_eq_ok hexec).1
    contradiction
  have hcode : ∀ d, 0 < d → d ≤ distance → EmitsFrom sc (v.size + d + v.base) (v.store true)
      (overwriteCode v.size d) (.ok ()) := fun d hd hdle => emitsFrom_store hd (by omega)
  have hheightFrom : ∀ d, heightFrom (v.size + d + v.base) (overwriteCode v.size d) =
      some (d + v.base) := fun d => heightFrom_add v.base (heightFrom_overwriteCode v.size d)
  have hstore := hcode distance hpos (Nat.le_refl _)
  rw [← hheight] at hstore
  obtain ⟨-, hextend⟩ := hstore.of_exec_eq_ok hexec
  obtain ⟨hout, hops⟩ := CodeSection.extend_eq_none hextend
  refine ⟨hops, ?_, fun low distance' hpos' hle' hlow => ?_⟩
  · rw [hheight, hheightFrom] at hout
    exact (Option.some.inj hout).symm
  · have hlowStore := hcode distance' hpos' hle'
    have hlowFrom := hheightFrom distance'
    rw [← hlow] at hlowStore hlowFrom
    have hlowExtend : low.code.extend (overwriteCode v.size distance') =
        (⟨low.code.ops ++ (overwriteCode v.size distance').toArray, distance' + v.base⟩, none) := by
      cases hsize : v.size with
      | zero =>
        rw [hsize] at hlowFrom
        obtain hzero := Option.some.inj hlowFrom
        rw [← hzero]
        simp [overwriteCode, CodeSection.extend]
      | succ size =>
        -- the height before is that after an exchange, which was counted
        have hlt : out.code.height < countLimit := by
          rw [hsize] at hextend
          have := CodeSection.lt_of_extend_eq_none hextend
          simp only [Instruction.inputs, Instruction.outputs] at this
          omega
        rw [← hsize]
        refine CodeSection.extend_of_heightFrom hlowFrom ?_
        rw [growth_overwriteCode]
        omega
    obtain ⟨events, hevents⟩ := hlowStore.exec_eq hlowExtend
    exact ⟨_, hevents, rfl, rfl⟩

end StackVariable

/-! ## Executing -/

namespace Machine

/-- The words of a value replace as many slots that lie below others. -/
theorem run_overwrite {distance : Nat} (m : Machine) (value above old below : List Word) (code : Code)
    (hold : old.length = value.length) (hdistance : distance = value.length + above.length) :
    (m.withStack (value ++ (above ++ (old ++ below)))).run
        (overwriteCode value.length distance ++ code) =
      (m.withStack (above ++ (value ++ below))).run code := by
  induction value generalizing above old with
  | nil =>
    obtain rfl := List.eq_nil_of_length_eq_zero hold
    rfl
  | cons a value ih =>
    obtain ⟨b, old, rfl⟩ := List.exists_cons_of_length_eq_add_one hold
    have hcode : overwriteCode (a :: value).length distance ++ code =
        .swap distance :: .pop :: (overwriteCode value.length distance ++ code) := rfl
    have hreach : distance = (value ++ above).length + 1 := by
      rw [hdistance, List.length_append, List.length_cons]
      omega
    have hstack : a :: value ++ (above ++ (b :: old ++ below)) =
        a :: ((value ++ above) ++ b :: (old ++ below)) := by simp
    have hnext := ih (above ++ [a]) old (Nat.succ.inj hold) (by simp at hdistance ⊢; omega)
    rw [hcode, hstack, hreach, run_swap_append, run_pop, ← hreach]
    simpa using hnext

end Machine

end WordPlaces
