import WordPlaces.Proofs.Place.Assignment

/-!
# Tuple assignments

The values of a tuple lie below the operands of all its components.  The components are assigned from
the last to the first: each value is copied to the top and moved below the operands of its component,
which are on top by then.  Where a value is found is followed in a signed counter, which is right up
to multiples of the range of the counter, and that is enough to find it.

## Main definitions

* `Place.Tracks` — the positions that find a slot.
* `Place.PerformsCopied` — code that assigns a copy of a value which stays where it is.
* `Place.AssignsComponents` — the stores to the components of a tuple, compiled and executed.

## Main results

* `Place.Assigns.exec_copied` — one component: its value is found, copied and assigned.
* `Place.assigns_of_accepts` — all places, and tuples that are components of tuples.
* `Place.store_tuple_eq_assign` — a tuple assignment is the sequence of the assignments of its
  components.
* `Place.store_tuple_callback_takes_below` — a component that takes more than its value and operands.
-/

set_option autoImplicit false

namespace WordPlaces

namespace Place

/-! ## Positions -/

/-- The position is that of a slot, up to multiples of the range of a counter. -/
def Tracks (position : Int) (depth : Nat) : Prop :=
  ∃ k : Int, position = depth + k * 0x10000000000000000

/-- The position of a slot itself. -/
theorem Tracks.of_eq {position : Int} {depth : Nat} (h : position = depth) :
    Tracks position depth := ⟨0, by omega⟩

/-- Positions are those of equal depths. -/
theorem Tracks.congr {position : Int} {depth depth' : Nat} (h : Tracks position depth)
    (hdepth : depth = depth') : Tracks position depth' := hdepth ▸ h

/-- The position of a slot that lies deeper. -/
theorem Tracks.add {position : Int} {depth : Nat} (h : Tracks position depth) (size : Nat) :
    Tracks (position + size) (depth + size) := by
  obtain ⟨k, rfl⟩ := h
  exact ⟨k, by omega⟩

/-- The slot that a position is that of is found. -/
theorem Tracks.depthOf_eq {position : Int} {depth : Nat} (h : Tracks position depth)
    (hlt : depth < countLimit) : depthOf position = depth := by
  obtain ⟨k, rfl⟩ := h
  simp only [depthOf, countLimit] at hlt ⊢
  omega

/-- A signed counter differs from what is counted by multiples of its range. -/
theorem tracks_signedCount (n : Nat) : Tracks (signedCount n) n := by
  refine ⟨-(((n : Int) + 0x8000000000000000) / 0x10000000000000000), ?_⟩
  simp only [signedCount, countLimit, Int.bmod_def]
  split <;> omega

/-- A signed counter is exact in its range. -/
theorem signedCount_of_lt {n : Nat} (hlt : n < signedLimit) : signedCount n = n := by
  simp only [signedCount, countLimit, signedLimit, Int.bmod_def] at hlt ⊢
  split <;> omega

/-- A signed number that is in range stays as it is. -/
theorem checkedSigned_eq_ok {n n' : Int} (h : checkedSigned n = .ok n') : n' = n := by
  rw [checkedSigned] at h
  split at h
  · exact (Except.ok.inj h).symm
  · contradiction

/-- A position follows the height of the stack. -/
theorem Tracks.positionAfter_eq_ok {position position' : Int} {depth depth' before after : Nat}
    (h : Tracks position depth) (hdepth : depth' + before = depth + after)
    (hposition : positionAfter position before after = .ok position') : Tracks position' depth' := by
  rw [positionAfter] at hposition
  obtain ⟨growth, hgrowth, hposition⟩ := Except.exists_of_bind_eq_ok hposition
  obtain ⟨k, rfl⟩ := h
  obtain ⟨kAfter, hafter⟩ := tracks_signedCount after
  obtain ⟨kBefore, hbefore⟩ := tracks_signedCount before
  rw [checkedSigned_eq_ok hposition, checkedSigned_eq_ok hgrowth, hafter, hbefore]
  exact ⟨k + kAfter - kBefore, by omega⟩

/-- Within a signed counter, a position moves by as much as the height of the stack. -/
theorem positionAfter_of_lt {position position' : Int} {before after : Nat}
    (hbefore : before < signedLimit) (hafter : after < signedLimit) (hle : 0 ≤ position')
    (hlt : position' < signedLimit) (hmoved : position' + before = position + after) :
    positionAfter position before after = .ok position' := by
  rw [positionAfter, signedCount_of_lt hbefore, signedCount_of_lt hafter]
  have hgrowth : checkedSigned ((after : Int) - before) = .ok ((after : Int) - before) :=
    if_pos (by omega)
  have hposition : checkedSigned (position + ((after : Int) - before)) = .ok position' := by
    have hsum : position + ((after : Int) - before) = position' := by omega
    rw [hsum, checkedSigned, if_pos (by omega)]
  rw [hgrowth]
  exact hposition

/-! ## One component -/

variable {sc : Scope} {base : Nat} {place : Place} {source : Ty}

/-- The slots that a value is copied from, if there are any, are found. -/
theorem exec_copyToTop_eq_ok {position : Int} {n size : Nat} {out out' : Output}
    (hn : n ≤ out.code.height) (hposition : Tracks position n)
    (hexec : (copyToTop (depthOf position) size).exec sc out = (.ok (), out')) :
    out'.code.ops = out.code.ops ++ (List.replicate size [Instruction.dup n]).flatten.toArray ∧
      out'.code.height = out.code.height + size ∧
      ∀ low : Output, n ≤ low.code.height → low.code.height ≤ out.code.height →
        ∃ low', (copyToTop (depthOf position) size).exec sc low = (.ok (), low') ∧
          low'.code.height = low.code.height + size := by
  obtain ⟨code, rfl, hextend, hlow⟩ := EmitsSome.exec_eq_ok (.copyToTop _ _) hexec
  obtain ⟨hheight, hops⟩ := CodeSection.extend_eq_none hextend
  have hcode : (List.replicate size [Instruction.dup (depthOf position)]).flatten =
      (List.replicate size [.dup n]).flatten := by
    cases size with
    | zero => rfl
    | succ size =>
      have hlt := CodeSection.lt_of_extend_eq_none hextend
      simp only [Instruction.inputs, Instruction.outputs] at hlt
      rw [hposition.depthOf_eq (by omega)]
  rw [hcode] at hops hheight hlow
  rw [heightFrom_copyToTop hn] at hheight
  refine ⟨hops, (Option.some.inj hheight).symm, fun low hnlow hle => ?_⟩
  obtain ⟨low', hlow', -, hlowHeight⟩ := hlow low _ hle (heightFrom_copyToTop hnlow size)
  exact ⟨low', hlow', hlowHeight⟩

/-- Executing the code assigns a copy of the value, which stays where it is: the operands are on top of
the stack and `others` slots lie between them and the value. -/
def PerformsCopied (sc : Scope) (base : Nat) (place : Place) (source : Ty) (others gap : Nat)
    (code : Code) : Prop :=
  ∀ (m : Machine) (operands other value between : List Word),
    operands.length = place.referenceSize → other.length = others →
    value.length = source.sizeOnStack → between.length = gap → m.stack.length = base →
    (m.topped (operands ++ (other ++ (value ++ between)))).run code =
      (place.assign sc source operands value m).map (·.topped (other ++ (value ++ between))) ∧
    ∀ m', place.assign sc source operands value m = .ok m' → place.Keeps m m'

/-- A value that is copied to the top and moved below the operands is assigned. -/
theorem Performs.copied {others gap : Nat} {code : Code}
    (h : place.Performs sc base source (others + source.sizeOnStack + gap) code) :
    place.PerformsCopied sc base source others gap
      ((List.replicate source.sizeOnStack [Instruction.dup (place.referenceSize + others +
        source.sizeOnStack)]).flatten ++
          (moveCode place.referenceSize source.sizeOnStack ++ code)) := by
  intro m operands other value between hoperands hother hvalue hbetween hbase
  obtain ⟨hassign, hkeeps⟩ := h m operands value (other ++ (value ++ between)) hoperands hvalue
    (by simp [hother, hvalue, hbetween]; omega) hbase
  refine ⟨?_, hkeeps⟩
  have hcopied := Machine.run_copyToTop m (between ++ m.stack)
    (moveCode place.referenceSize source.sizeOnStack ++ code) (operands ++ other) value hvalue rfl
  rw [List.length_append, hoperands, hother] at hcopied
  have hmoved := Machine.run_moveInto m (other ++ (value ++ (between ++ m.stack))) code value
    operands hvalue hoperands
  rw [← hassign]
  simp only [Machine.topped, List.append_assoc] at hcopied hmoved ⊢
  rw [hcopied, hmoved]

/-- A component whose operands are on top is assigned a copy of its value.

**Proof sketch.** The value lies below the operands and `others` more slots.  Its copy on top of the
operands is moved below them, and the store does what it does on its own
(`Place.Assigns`). -/
theorem Assigns.exec_copied {others gap : Nat} {position : Int} {out copied moved out' : Output}
    (h : place.Assigns sc base source)
    (hheight : out.code.height =
      place.referenceSize + others + source.sizeOnStack + (gap + base))
    (hposition : Tracks position (place.referenceSize + others + source.sizeOnStack))
    (hcopy : (copyToTop (depthOf position) source.sizeOnStack).exec sc out = (.ok (), copied))
    (hmove : (moveToTop source.sizeOnStack place.referenceSize).exec sc copied = (.ok (), moved))
    (hstore : (place.store source true).exec sc moved = (.ok (), out')) :
    ∃ code, out'.code.ops = out.code.ops ++ code.toArray ∧
      out'.code.height = others + source.sizeOnStack + (gap + base) ∧
      place.Compiles sc base source ∧
      (out.code.height + growth code < signedLimit → place.CompilesAlone sc base source ∧
        ∀ (gap' : Nat) (low : Output), gap' ≤ gap →
        low.code.height = place.referenceSize + others + source.sizeOnStack + (gap' + base) →
        ∃ copied' moved' low',
          (copyToTop (depthOf position) source.sizeOnStack).exec sc low = (.ok (), copied') ∧
          (moveToTop source.sizeOnStack place.referenceSize).exec sc copied' = (.ok (), moved') ∧
          (place.store source true).exec sc moved' = (.ok (), low')) ∧
      place.PerformsCopied sc base source others gap code := by
  obtain ⟨hcopyOps, hcopyHeight, hcopyLow⟩ :=
    exec_copyToTop_eq_ok (by omega) hposition hcopy
  obtain ⟨moveOps, rfl, hmoveExtend, hmoveLow⟩ := EmitsSome.exec_eq_ok (.moveInto _ _) hmove
  obtain ⟨hmoveHeight, hmoveOps⟩ := CodeSection.extend_eq_none hmoveExtend
  rw [heightFrom_moveCode (by omega)] at hmoveHeight
  have hmoveHeight := (Option.some.inj hmoveHeight).symm
  obtain ⟨code, hops, hout, hcompiles, hlow, hrun⟩ :=
    h (others + source.sizeOnStack + gap) moved out' (by omega) hstore
  refine ⟨(List.replicate source.sizeOnStack [Instruction.dup (place.referenceSize + others +
    source.sizeOnStack)]).flatten ++ (moveCode place.referenceSize source.sizeOnStack ++ code),
    ?_, by omega, hcompiles, fun hlt => ?_, hrun.copied⟩
  · rw [hops, hmoveOps, hcopyOps, ← Array.toList_inj]
    simp
  · have hgrowth : moved.code.height + growth code < signedLimit := by
      have hcopyFrom : heightFrom out.code.height (List.replicate source.sizeOnStack
          [Instruction.dup (place.referenceSize + others + source.sizeOnStack)]).flatten =
          some (out.code.height + source.sizeOnStack) := heightFrom_copyToTop (by omega) _
      have := le_add_growth hcopyFrom
      rw [growth_append, growth_append] at hlt
      omega
    have hlow := hlow hgrowth
    refine ⟨hlow 0 { code := .ofHeight (place.referenceSize + source.sizeOnStack + base) }
      (Nat.zero_le _) (by rw [Nat.zero_add]; rfl), fun gap' low hgap hlowHeight => ?_⟩
    obtain ⟨copied', hcopied', hcopiedHeight⟩ := hcopyLow low (by omega) (by omega)
    obtain ⟨moved', hmoved', -, hmovedHeight⟩ := hmoveLow copied' copied'.code.height (by omega)
      (heightFrom_moveCode (by omega))
    obtain ⟨low', hlow'⟩ := hlow (others + source.sizeOnStack + gap') moved' (by omega)
      (by omega)
    exact ⟨copied', moved', low', hcopied', hmoved', hlow'⟩

/-! ## All components -/

variable {components : List (Option Place)} {types : List Ty}

/-- A component that is present is assigned after the later ones. -/
theorem exec_storeComponents_some {top position : Int} {out out' : Output} :
    (store.storeComponents top (some place :: components) (source :: types)).exec sc out =
        (.ok position, out') ↔
      ∃ (later : Int) (mid copied moved : Output),
        (store.storeComponents top components types).exec sc out = (.ok later, mid) ∧
        (copyToTop (depthOf (later + source.sizeOnStack)) source.sizeOnStack).exec sc mid =
          (.ok (), copied) ∧
        (moveToTop source.sizeOnStack place.referenceSize).exec sc copied = (.ok (), moved) ∧
        (place.store source true).exec sc moved = (.ok (), out') ∧
        positionAfter (later + source.sizeOnStack) mid.code.height out'.code.height =
          .ok position := by
  rw [store.storeComponents]
  simp only [Emit.exec_bind_eq_ok, Emit.exec_stackHeight, Emit.exec_orFault_eq_ok]
  constructor
  · rintro ⟨later, mid, hlater, height, mid', hmid, _, copied, hcopied, _, moved, hmoved, _, stored,
      hstored, height', stored', hstored', hposition, rfl⟩
    obtain ⟨⟨rfl⟩, rfl⟩ := Prod.mk.inj hmid
    obtain ⟨⟨rfl⟩, rfl⟩ := Prod.mk.inj hstored'
    exact ⟨later, mid, copied, moved, hlater, hcopied, hmoved, hstored, hposition⟩
  · rintro ⟨later, mid, copied, moved, hlater, hcopied, hmoved, hstored, hposition⟩
    exact ⟨later, mid, hlater, _, mid, rfl, (), copied, hcopied, (), moved, hmoved, (), out', hstored,
      _, out', rfl, hposition, rfl⟩

/-- A component that is absent leaves its value where it is. -/
theorem exec_storeComponents_none {top position : Int} {out out' : Output} :
    (store.storeComponents top (none :: components) (source :: types)).exec sc out =
        (.ok position, out') ↔
      ∃ later : Int, (store.storeComponents top components types).exec sc out = (.ok later, out') ∧
        position = later + source.sizeOnStack := by
  rw [store.storeComponents]
  simp only [Emit.exec_bind_eq_ok, Emit.exec_pure]
  constructor
  · rintro ⟨later, mid, hlater, hpure⟩
    obtain ⟨⟨rfl⟩, rfl⟩ := Prod.mk.inj hpure
    exact ⟨later, hlater, rfl⟩
  · rintro ⟨later, hlater, rfl⟩
    exact ⟨later, out', hlater, rfl⟩

/-- Stores to the components that are compiled perform the assignments, one after the other, while the
operands of earlier components lie between and the values stay where they are.  They are compiled as
well if less lies below the values, as long as the height of the stack stays within a signed
counter. -/
def AssignsComponents (sc : Scope) (base : Nat) (components : List (Option Place))
    (types : List Ty) : Prop :=
  ∀ (earlier gap : Nat) (top position : Int) (out out' : Output),
    out.code.height = referenceSize.sizes components + earlier + Ty.sizeOnStack.sizes types +
      (gap + base) →
    Tracks top (referenceSize.sizes components + earlier) →
    (store.storeComponents top components types).exec sc out = (.ok position, out') →
    ∃ code, out'.code.ops = out.code.ops ++ code.toArray ∧
      out'.code.height = earlier + Ty.sizeOnStack.sizes types + (gap + base) ∧
      Tracks position (earlier + Ty.sizeOnStack.sizes types) ∧
      Compiles.compilesComponents sc base components types ∧
      (out.code.height + growth code < signedLimit →
        top = (referenceSize.sizes components + earlier : Nat) →
        position = (earlier + Ty.sizeOnStack.sizes types : Nat) ∧
        (∀ place ty, (some place, ty) ∈ components.zip types → place.CompilesAlone sc base ty) ∧
        ∀ (gap' : Nat) (low : Output), gap' ≤ gap →
          low.code.height = referenceSize.sizes components + earlier +
            Ty.sizeOnStack.sizes types + (gap' + base) →
          ∃ low', (store.storeComponents top components types).exec sc low = (.ok position, low')) ∧
      PerformsCopied sc base (.tuple components) (.tuple types) earlier gap code

/-! ### Executing the assignments -/

/-- The empty tuple is assigned by no code. -/
theorem performsCopied_nil {earlier gap : Nat} :
    PerformsCopied sc base (.tuple []) (.tuple []) earlier gap [] := by
  intro m operands other value between hoperands _ _ _ _
  obtain rfl := List.eq_nil_of_length_eq_zero hoperands
  refine ⟨rfl, fun m' hm' => ?_⟩
  obtain rfl := Except.ok.inj hm'
  exact ⟨rfl, fun _ _ => rfl⟩

/-- The value of an absent component lies below those of the later ones. -/
theorem performsCopied_none {earlier gap : Nat} {code : Code}
    (h : PerformsCopied sc base (.tuple components) (.tuple types) earlier
      (source.sizeOnStack + gap) code) :
    PerformsCopied sc base (.tuple (none :: components)) (.tuple (source :: types)) earlier gap
      code := by
  intro m operands other values between hoperands hother hvalues hbetween hbase
  have hoperands : operands.length = referenceSize.sizes components := hoperands
  have hvalues : values.length = source.sizeOnStack + Ty.sizeOnStack.sizes types := hvalues
  obtain ⟨hassign, hkeeps⟩ := h m operands other (values.take (Ty.sizeOnStack.sizes types))
    (values.drop (Ty.sizeOnStack.sizes types) ++ between) hoperands hother
    (by simp [Ty.sizeOnStack]; omega) (by simp; omega) hbase
  have hdef : assign sc (.tuple (none :: components)) (.tuple (source :: types)) operands values m =
      assign sc (.tuple components) (.tuple types) operands
        (values.take (Ty.sizeOnStack.sizes types)) m := by
    rw [assign, assign.assignComponents, List.take_of_length_le (Nat.le_of_eq hoperands), assign]
    cases assign.assignComponents sc components types operands
      (values.take (Ty.sizeOnStack.sizes types)) m <;> rfl
  have hvalue : values.take (Ty.sizeOnStack.sizes types) ++
      (values.drop (Ty.sizeOnStack.sizes types) ++ between) = values ++ between := by
    rw [← List.append_assoc, List.take_append_drop]
  rw [hvalue] at hassign
  rw [hdef]
  exact ⟨hassign, hkeeps⟩

/-- The local variables of a component are changed after those of the later ones. -/
theorem keeps_some {m later m' : Machine} (h : (Place.tuple components).Keeps m later)
    (h' : place.Keeps later m') : (Place.tuple (some place :: components)).Keeps m m' := by
  refine ⟨h'.1.trans h.1, fun slot hslot => ?_⟩
  have hnot : ¬(place.Changes slot ∨ (Place.tuple components).Changes slot) := hslot
  exact (h'.2 slot fun hp => hnot (.inl hp)).trans (h.2 slot fun hc => hnot (.inr hc))

/-- The operands and the value of a component lie below those of the later ones, which are assigned
first. -/
theorem performsCopied_some {earlier gap : Nat} {code code' : Code}
    (h : PerformsCopied sc base (.tuple components) (.tuple types)
      (place.referenceSize + earlier) (source.sizeOnStack + gap) code)
    (h' : place.PerformsCopied sc base source (earlier + Ty.sizeOnStack.sizes types) gap code') :
    PerformsCopied sc base (.tuple (some place :: components)) (.tuple (source :: types)) earlier gap
      (code ++ code') := by
  intro m operands other values between hoperands hother hvalues hbetween hbase
  have hoperands : operands.length = place.referenceSize + referenceSize.sizes components := hoperands
  have hvalues : values.length = source.sizeOnStack + Ty.sizeOnStack.sizes types := hvalues
  obtain ⟨hassign, hkeeps⟩ := h m (operands.take (referenceSize.sizes components))
    (operands.drop (referenceSize.sizes components) ++ other)
    (values.take (Ty.sizeOnStack.sizes types)) (values.drop (Ty.sizeOnStack.sizes types) ++ between)
    (by simp [referenceSize]; omega) (by simp; omega) (by simp [Ty.sizeOnStack]; omega)
    (by simp; omega) hbase
  have hstack : operands ++ (other ++ (values ++ between)) =
      operands.take (referenceSize.sizes components) ++
        (operands.drop (referenceSize.sizes components) ++ other ++
          (values.take (Ty.sizeOnStack.sizes types) ++
            (values.drop (Ty.sizeOnStack.sizes types) ++ between))) := by
    rw [← List.append_assoc (values.take _), List.take_append_drop, List.append_assoc
      (operands.drop _), ← List.append_assoc (operands.take _), List.take_append_drop]
  rw [assign] at hassign hkeeps
  rw [hstack, Machine.run_append, hassign, assign, assign.assignComponents]
  cases hlater : assign.assignComponents sc components types
    (operands.take (referenceSize.sizes components)) (values.take (Ty.sizeOnStack.sizes types)) m with
  | error f => exact ⟨rfl, fun m' hm' => by cases hm'⟩
  | ok later =>
    have hkept := hkeeps later hlater
    obtain ⟨hassign', hkeeps'⟩ := h' later (operands.drop (referenceSize.sizes components))
      (other ++ values.take (Ty.sizeOnStack.sizes types))
      (values.drop (Ty.sizeOnStack.sizes types)) between (by simp; omega) (by simp; omega)
      (by simp; omega) hbetween (hkept.1.trans hbase)
    have hvalue : other ++ values.take (Ty.sizeOnStack.sizes types) ++
        (values.drop (Ty.sizeOnStack.sizes types) ++ between) = other ++ (values ++ between) := by
      rw [List.append_assoc, ← List.append_assoc (values.take _), List.take_append_drop]
    refine ⟨?_, fun m' hm' => keeps_some hkept (hkeeps' m' hm')⟩
    rw [← hvalue]
    refine Eq.trans (congrArg (fun stack => (later.topped stack).run code') ?_) hassign'
    simp only [List.append_assoc]

/-- The values are dropped after all components have been assigned. -/
theorem PerformsCopied.dropped {gap : Nat} {code : Code}
    (h : place.PerformsCopied sc base source 0 gap code) :
    place.Performs sc base source gap
      (code ++ (List.replicate source.sizeOnStack [Instruction.pop]).flatten) := by
  intro m operands value between hoperands hvalue hbetween hbase
  obtain ⟨hassign, hkeeps⟩ := h m operands [] value between hoperands rfl hvalue hbetween hbase
  refine ⟨?_, hkeeps⟩
  rw [List.nil_append] at hassign
  rw [Machine.run_append, hassign]
  cases place.assign sc source operands value m with
  | error f => rfl
  | ok m' =>
    have hpopped := Machine.run_popSlots m' (between ++ m'.stack) [] value hvalue
    rw [List.append_nil] at hpopped
    simp only [Machine.topped, Except.map, List.append_assoc]
    exact hpopped

/-! ### Compiling the stores -/

/-- Nothing is stored for no components. -/
theorem assignsComponents_nil : AssignsComponents sc base [] [] := by
  intro earlier gap top position out out' hheight htop hexec
  obtain ⟨⟨rfl⟩, rfl⟩ := Prod.mk.inj hexec
  refine ⟨[], by simp, ?_, ?_, trivial,
    fun _ hexact => ⟨?_, by simp, fun gap' low _ _ => ⟨low, rfl⟩⟩, performsCopied_nil⟩
  · simpa [referenceSize.sizes] using hheight
  · simpa [referenceSize.sizes, Ty.sizeOnStack.sizes] using htop
  · simpa [referenceSize.sizes, Ty.sizeOnStack.sizes] using hexact

/-- An absent component is passed over: the later ones are stored around its value. -/
theorem assignsComponents_none (h : AssignsComponents sc base components types) :
    AssignsComponents sc base (none :: components) (source :: types) := by
  intro earlier gap top position out out' hheight htop hexec
  obtain ⟨later, hlater, rfl⟩ := exec_storeComponents_none.1 hexec
  have hrefs : referenceSize.sizes (none :: components) = referenceSize.sizes components := rfl
  have hsizes : Ty.sizeOnStack.sizes (source :: types) =
      source.sizeOnStack + Ty.sizeOnStack.sizes types := rfl
  rw [hrefs] at hheight htop ⊢
  rw [hsizes] at hheight ⊢
  obtain ⟨code, hops, hout, htracks, hcompiles, hlow, hrun⟩ :=
    h earlier (source.sizeOnStack + gap) top later out out' (by omega) htop hlater
  refine ⟨code, hops, by omega, (htracks.add source.sizeOnStack).congr (by omega), hcompiles,
    fun hlt hexact => ?_, performsCopied_none hrun⟩
  obtain ⟨hposition, halone, hlow⟩ := hlow hlt hexact
  refine ⟨by omega, fun place ty hmem => halone place ty (by simpa using hmem),
    fun gap' low hgap hlowHeight => ?_⟩
  obtain ⟨low', hlow'⟩ := hlow (source.sizeOnStack + gap') low (by omega) (by omega)
  exact ⟨low', exec_storeComponents_none.2 ⟨later, hlow', rfl⟩⟩

/-- A component is stored after the later ones, from a copy of its value.

**Proof sketch.** The stores of the later components leave the operands of this one on top.  What is
emitted then is the code of the copy and of the assignment, and the position follows the height before and
after them. -/
theorem assignsComponents_some (hplace : place.Assigns sc base source)
    (h : AssignsComponents sc base components types) :
    AssignsComponents sc base (some place :: components) (source :: types) := by
  intro earlier gap top position out out' hheight htop hexec
  obtain ⟨later, mid, copied, moved, hlater, hcopied, hmoved, hstored, hposition⟩ :=
    exec_storeComponents_some.1 hexec
  have hrefs : referenceSize.sizes (some place :: components) =
      place.referenceSize + referenceSize.sizes components := rfl
  have hsizes : Ty.sizeOnStack.sizes (source :: types) =
      source.sizeOnStack + Ty.sizeOnStack.sizes types := rfl
  rw [hrefs] at hheight htop ⊢
  rw [hsizes] at hheight ⊢
  -- for the later components, the operands of this one are among those of the earlier ones
  obtain ⟨code, hops, hmid, htracks, hcompiles, hlow, hrun⟩ := h (place.referenceSize + earlier)
    (source.sizeOnStack + gap) top later out mid (by omega)
    (htop.congr (by omega)) hlater
  have hfound : Tracks (later + source.sizeOnStack) (place.referenceSize +
      (earlier + Ty.sizeOnStack.sizes types) + source.sizeOnStack) :=
    (htracks.add source.sizeOnStack).congr (by omega)
  have hmidHeight : mid.code.height = place.referenceSize + (earlier + Ty.sizeOnStack.sizes types) +
      source.sizeOnStack + (gap + base) := by omega
  obtain ⟨code', hops', hout, hcompiles', hlow', hrun'⟩ :=
    hplace.exec_copied hmidHeight hfound hcopied hmoved hstored
  refine ⟨code ++ code', ?_, by omega, ?_, ⟨hcompiles', hcompiles⟩, fun hlt hexact => ?_,
    performsCopied_some hrun hrun'⟩
  · rw [hops', hops, ← Array.toList_inj]
    simp
  · exact hfound.positionAfter_eq_ok (by omega) hposition
  · rw [growth_append] at hlt
    obtain ⟨hlaterExact, halone, hlow⟩ := hlow (by omega) (by omega)
    obtain ⟨halone', hlow'⟩ := hlow' (by omega)
    have hpositionExact : position = (earlier + (source.sizeOnStack +
        Ty.sizeOnStack.sizes types) : Nat) := by
      have hfollowed := hposition.symm.trans (positionAfter_of_lt (by omega) (by omega)
        (Int.natCast_nonneg (earlier + (source.sizeOnStack + Ty.sizeOnStack.sizes types)))
        (by omega) (by omega))
      exact Except.ok.inj hfollowed
    refine ⟨hpositionExact, ?_, fun gap' low hgap hlowHeight => ?_⟩
    · intro component ty hmem
      rw [List.zip_cons_cons, List.mem_cons] at hmem
      rcases hmem with heq | hmem
      · obtain ⟨⟨rfl⟩, rfl⟩ := Prod.mk.inj heq
        exact halone'
      · exact halone component ty hmem
    -- the heights after the stores on the lower stack are those of stores that were compiled
    obtain ⟨lowMid, hlowMid⟩ := hlow (source.sizeOnStack + gap') low (by omega) (by omega)
    obtain ⟨-, -, hlowMidHeight, -⟩ := h (place.referenceSize + earlier)
      (source.sizeOnStack + gap') top later low lowMid (by omega) (htop.congr (by omega))
      hlowMid
    have hlowMidHeight : lowMid.code.height = place.referenceSize +
        (earlier + Ty.sizeOnStack.sizes types) + source.sizeOnStack + (gap' + base) := by omega
    obtain ⟨copied', moved', low', hcopied', hmoved', hstored'⟩ :=
      hlow' gap' lowMid (by omega) hlowMidHeight
    obtain ⟨-, -, hlowEnd, -⟩ :=
      hplace.exec_copied hlowMidHeight hfound hcopied' hmoved' hstored'
    refine ⟨low', exec_storeComponents_some.2 ⟨later, lowMid, copied', moved', hlowMid, hcopied',
      hmoved', hstored', ?_⟩⟩
    exact positionAfter_of_lt (by omega) (by omega) (by omega) (by omega) (by omega)

/-! ## Tuples -/

/-- A tuple is stored to component by component, and its value is dropped. -/
theorem exec_store_tuple {move : Bool} {out out' : Output} :
    ((Place.tuple components).store (.tuple types) move).exec sc out = (.ok (), out') ↔
      types.length = components.length ∧ ∃ (position : Int) (mid : Output),
        (store.storeComponents (referenceSize (.tuple components)) components types).exec sc
          { out with events := out.events.push (.store (Place.tuple components).kind
              (.tuple types) move) } = (.ok position, mid) ∧
        (popElement (.tuple types)).exec sc mid = (.ok (), out') := by
  rw [store, Emit.exec_bind, Emit.exec_logEvent]
  simp only
  split
  · rename_i hlength
    simp only [Emit.exec_bind_eq_ok, hlength, true_and]
  · rename_i hlength
    simp only [hlength, false_and, iff_false]
    exact fun h => absurd (Prod.mk.inj h).1 (by simp)

/-- A tuple assignment that is compiled assigns all components, whether the value is to be moved or
not. -/
theorem exec_store_tuple_eq_ok (h : AssignsComponents sc base components types) {move : Bool}
    {gap : Nat} {out out' : Output}
    (hheight : out.code.height = referenceSize.sizes components + Ty.sizeOnStack.sizes types +
      (gap + base))
    (hexec : ((Place.tuple components).store (.tuple types) move).exec sc out = (.ok (), out')) :
    ∃ code, out'.code.ops = out.code.ops ++ code.toArray ∧ out'.code.height = gap + base ∧
      Compiles.compilesComponents sc base components types ∧
      (out.code.height + growth code < signedLimit →
        (∀ place ty, (some place, ty) ∈ components.zip types → place.CompilesAlone sc base ty) ∧
        ∀ (gap' : Nat) (low : Output), gap' ≤ gap →
          low.code.height = referenceSize.sizes components + Ty.sizeOnStack.sizes types +
            (gap' + base) →
          ∃ low', ((Place.tuple components).store (.tuple types) move).exec sc low =
            (.ok (), low')) ∧
      Performs sc base (.tuple components) (.tuple types) gap code := by
  obtain ⟨hlength, position, mid, hcomponents, hpop⟩ := exec_store_tuple.1 hexec
  have htop : (referenceSize (.tuple components) : Int) =
      (referenceSize.sizes components + 0 : Nat) := by simp [referenceSize]
  obtain ⟨code, hops, hmid, -, hcompiles, hlow, hrun⟩ := h 0 gap _ position _ mid
    (by exact hheight) (.of_eq htop) hcomponents
  have hpops : EmitsSome sc (popElement (.tuple types)) fun _ code =>
      code = (List.replicate (Ty.sizeOnStack.sizes types) [Instruction.pop]).flatten :=
    .of_emits (.popSlots _) rfl
  obtain ⟨pops, rfl, hpopExtend, hpopLow⟩ := EmitsSome.exec_eq_ok hpops hpop
  obtain ⟨hpopHeight, hpopOps⟩ := CodeSection.extend_eq_none hpopExtend
  have hheightPops : ∀ g : Nat, heightFrom (0 + Ty.sizeOnStack.sizes types + (g + base))
      (List.replicate (Ty.sizeOnStack.sizes types) [Instruction.pop]).flatten = some (g + base) := by
    intro g
    rw [Nat.zero_add, Nat.add_comm]
    exact heightFrom_popSlots _ _
  rw [hmid, hheightPops] at hpopHeight
  refine ⟨code ++ (List.replicate (Ty.sizeOnStack.sizes types) [Instruction.pop]).flatten, ?_,
    (Option.some.inj hpopHeight).symm, hcompiles, fun hlt => ?_, hrun.dropped⟩
  · rw [hpopOps, hops, ← Array.toList_inj]
    simp
  · rw [growth_append] at hlt
    obtain ⟨-, halone, hlow⟩ := hlow (by simp only; omega) htop
    refine ⟨halone, fun gap' low hgap hlowHeight => ?_⟩
    obtain ⟨lowMid, hlowMid⟩ := hlow gap'
      { low with events := low.events.push (.store (Place.tuple components).kind (.tuple types) move) }
      hgap (by exact hlowHeight)
    obtain ⟨-, -, hlowMidHeight, -⟩ := h 0 gap' _ position _ lowMid (by exact hlowHeight)
      (.of_eq htop) hlowMid
    obtain ⟨low', hlow', -⟩ := hpopLow lowMid (gap' + base) (by omega)
      (by rw [hlowMidHeight]; exact hheightPops gap')
    exact ⟨low', exec_store_tuple.2 ⟨hlength, position, lowMid, hlowMid, hlow'⟩⟩

/-- Storing a tuple stores its components and drops the values at the end. -/
theorem assigns_tuple (h : AssignsComponents sc base components types) :
    Assigns sc base (.tuple components) (.tuple types) := by
  intro gap out out' hheight hexec
  obtain ⟨code, hops, hout, hcompiles, hlow, hrun⟩ := exec_store_tuple_eq_ok h hheight hexec
  exact ⟨code, hops, hout, hcompiles, fun hlt => (hlow hlt).2, hrun⟩

mutual

/-- A place is assigned from the types that it accepts. -/
theorem assigns_of_accepts (place : Place) (source : Ty)
    (h : Accepts base place source) : place.Assigns sc base source := by
  cases place with
  | stack v => exact assigns_stack h
  | memory cell => exact assigns_memory h
  | storage item => exact assigns_storage h
  | immutable v => exact assigns_immutable h
  | byteElement => exact assigns_byteElement h
  | tuple components =>
    cases source with
    | tuple types => exact assigns_tuple (assignsComponents_of_accepts components types h)
    | _ => exact h.elim

/-- The components of a tuple are assigned from the types that they accept. -/
theorem assignsComponents_of_accepts (components : List (Option Place)) (types : List Ty)
    (h : Accepts.acceptsComponents base components types) :
    AssignsComponents sc base components types := by
  match components, types, h with
  | [], [], _ => exact assignsComponents_nil
  | none :: components, _ :: types, h =>
    exact assignsComponents_none (assignsComponents_of_accepts components types h)
  | some place :: components, source :: types, h =>
    exact assignsComponents_some (assigns_of_accepts place source h.1)
      (assignsComponents_of_accepts components types h.2)

end

/-- A component accepts the type that it is matched with. -/
theorem accepts_of_mem_zip (h : Accepts.acceptsComponents base components types)
    (hmem : (some place, source) ∈ components.zip types) : Accepts base place source := by
  induction components generalizing types with
  | nil => simp at hmem
  | cons component components ih =>
    obtain _ | ⟨ty, types⟩ := types
    · simp at hmem
    · rw [List.zip_cons_cons, List.mem_cons] at hmem
      cases component with
      | none => exact ih h (by simpa using hmem)
      | some first =>
        rcases hmem with heq | hmem
        · obtain ⟨⟨rfl⟩, rfl⟩ := Prod.mk.inj heq
          exact h.1
        · exact ih h.2 hmem

/-- Where nothing lies between the value and the local variables, nothing is left above them. -/
theorem Performs.run_eq {code : Code} (h : place.Performs sc base source 0 code) {m : Machine}
    {operands value : List Word} (hoperands : operands.length = place.referenceSize)
    (hvalue : value.length = source.sizeOnStack) (hbase : m.stack.length = base) :
    (m.topped (operands ++ value)).run code = place.assign sc source operands value m ∧
    ∀ m', place.assign sc source operands value m = .ok m' → place.Keeps m m' := by
  obtain ⟨hassign, hkeeps⟩ := h m operands value [] hoperands hvalue rfl hbase
  refine ⟨?_, hkeeps⟩
  rw [List.append_nil] at hassign
  rw [hassign]
  cases place.assign sc source operands value m <;> rfl

/-- The store of a place on its own is its assignment. -/
theorem Assigns.storeAlone_eq (h : place.Assigns sc base source)
    (hcompiles : place.CompilesAlone sc base source) {m : Machine} {operands value : List Word}
    (hoperands : operands.length = place.referenceSize) (hvalue : value.length = source.sizeOnStack)
    (hbase : m.stack.length = base) :
    place.storeAlone sc source (operands ++ value) m = place.assign sc source operands value m := by
  obtain ⟨own, hown⟩ := hcompiles
  obtain ⟨code, hops, -, -, -, hrun⟩ := h 0 _ own (by rw [Nat.zero_add]; rfl) hown
  have hheight : (operands ++ value).length + m.stack.length =
      place.referenceSize + source.sizeOnStack + base := by
    rw [List.length_append, hoperands, hvalue, hbase]
  rw [storeAlone, hheight, codeAt_eq hown hops]
  exact (hrun.run_eq hoperands hvalue hbase).1

/-- A tuple assignment that is compiled is the sequence of the assignments of its components, from the
last to the first.

The values of the components lie on top of the stack below the operands of the components that are
present, and those of later components lie above those of earlier ones.  The code that is appended
takes all of them.  It does to the machine what the assignments of the components do one after the
other, each of them with its own operands and value right above the local variables, and only changes
slots of the local variables that are assigned.

Every store that these assignments consist of is compiled on its own.  A component that is a tuple
itself is assigned in the same way, and this is what its own store does.  All this needs components that
are written as the words of their types (`Place.Accepts`).

**Proof sketch.** By induction over the components and the tuples among them.  Every store takes its
operands and its value, wherever they lie, and all other words on the stack stay where they are until
the values are dropped. -/
theorem store_tuple_eq_assign {move : Bool} {out out' : Output}
    (haccepts : Accepts base (.tuple components) (.tuple types))
    (hheight : out.code.height = referenceSize (.tuple components) +
      (Ty.tuple types).sizeOnStack + base)
    (hexec : ((Place.tuple components).store (.tuple types) move).exec sc out = (.ok (), out')) :
    ∃ code, out'.code.ops = out.code.ops ++ code.toArray ∧ out'.code.height = base ∧
      (∀ (m : Machine) (operands values : List Word),
        operands.length = referenceSize (.tuple components) →
        values.length = (Ty.tuple types).sizeOnStack → m.stack.length = base →
        (m.topped (operands ++ values)).run code =
          assign.assignComponents sc components types operands values m ∧
        ∀ m', assign.assignComponents sc components types operands values m = .ok m' →
          (Place.tuple components).Keeps m m') ∧
      Compiles.compilesComponents sc base components types ∧
      ∀ place ty, (some place, ty) ∈ components.zip types →
        (out.code.height + growth code < signedLimit → place.CompilesAlone sc base ty) ∧
        (place.CompilesAlone sc base ty → ∀ (m : Machine) (operands value : List Word),
          operands.length = place.referenceSize → value.length = ty.sizeOnStack →
          m.stack.length = base →
          place.storeAlone sc ty (operands ++ value) m = place.assign sc ty operands value m) := by
  have hcomponents : AssignsComponents sc base components types :=
    assignsComponents_of_accepts components types haccepts
  obtain ⟨code, hops, hout, hcompiles, halone, hrun⟩ :=
    exec_store_tuple_eq_ok hcomponents (by rw [Nat.zero_add]; exact hheight) hexec
  rw [Nat.zero_add] at hout
  refine ⟨code, hops, hout, fun m operands values hoperands hvalues hbase =>
    hrun.run_eq hoperands hvalues hbase, hcompiles, fun place ty hmem =>
    ⟨fun hlt => (halone hlt).1 place ty hmem, fun hown m operands value => ?_⟩⟩
  exact (assigns_of_accepts place ty (accepts_of_mem_zip haccepts hmem)).storeAlone_eq hown

/-- A local variable and, in a tuple of their own, two places in storage are assigned while a value
between them is let go. -/
theorem store_tuple_eq_assign_nested :
    ∃ (components : List (Option Place)) (types : List Ty) (out' : Output) (code : Code) (m' : Machine),
      components = [some (.stack ⟨.int 256 false, 0⟩), none,
        some (.tuple [some (.storage ⟨.int 8 false, .persistent⟩),
          some (.storage ⟨.int 256 false, .persistent⟩)])] ∧
      types = [.int 256 false, .bool, .tuple [.int 8 false, .int 256 false]] ∧
      Accepts 1 (.tuple components) (.tuple types) ∧
      ((Place.tuple components).store (.tuple types) true).exec {} { code := .ofHeight 9 } =
        (.ok (), out') ∧
      out'.code.ops = code.toArray ∧ out'.code.height = 1 ∧
      ({ stack := [0, 10, 4, 9, 3, 2, 7, 1, 0] } : Machine).run code = .ok m' ∧
      m'.stack = [1] ∧ m'.persistent.read 9 = 2 <<< 32 ∧ m'.persistent.read 10 = 3 := by
  obtain ⟨components, hcomponents⟩ : ∃ components : List (Option Place), components =
      [some (.stack ⟨.int 256 false, 0⟩), none,
        some (.tuple [some (.storage ⟨.int 8 false, .persistent⟩),
          some (.storage ⟨.int 256 false, .persistent⟩)])] := ⟨_, rfl⟩
  obtain ⟨types, htypes⟩ : ∃ types : List Ty, types =
      [.int 256 false, .bool, .tuple [.int 8 false, .int 256 false]] := ⟨_, rfl⟩
  have hnamed : ∀ bits, (Ty.int bits false).WellNamed := by
    intro bits e he hform
    obtain rfl := Except.ok.inj he
    cases hform
  have haccepts : Accepts 1 (.tuple components) (.tuple types) := by
    rw [hcomponents, htypes]
    exact ⟨⟨by decide, by decide, rfl⟩, ⟨⟨hnamed 8, rfl⟩, ⟨hnamed 256, rfl⟩, trivial⟩, trivial⟩
  obtain ⟨out', hexec⟩ : ∃ out', ((Place.tuple components).store (.tuple types) true).exec {}
      { code := .ofHeight 9 } = (.ok (), out') :=
    Emit.exists_exec_eq_ok (by rw [hcomponents, htypes]; decide +kernel)
  obtain ⟨code, hops, hheight, hrun, -⟩ := store_tuple_eq_assign haccepts
    (by rw [hcomponents, htypes]; rfl) hexec
  obtain ⟨hassign, -⟩ := hrun { stack := [0] } [0, 10, 4, 9] [3, 2, 7, 1]
    (by rw [hcomponents]; rfl) (by rw [htypes]; rfl) rfl
  have hresult : (assign.assignComponents {} components types [0, 10, 4, 9] [3, 2, 7, 1]
      { stack := [0] }).map (fun m => (m.stack, m.persistent.read 9, m.persistent.read 10)) =
      .ok ([1], 2 <<< 32, 3) := by
    rw [hcomponents, htypes]
    decide +kernel
  obtain ⟨m', hm, hvalues⟩ := Except.exists_of_map_eq_ok hresult
  rw [hm] at hassign
  refine ⟨components, types, out', code, m', hcomponents, htypes, haccepts, hexec, ?_, hheight,
    hassign, (congrArg (·.1) hvalues).symm, (congrArg (·.2.1) hvalues).symm,
    (congrArg (·.2.2) hvalues).symm⟩
  rw [hops]
  exact Array.empty_append

/-- A component in storage whose type is another name of external functions takes a word more than its
own.  With the words 0xbb and 0xaa below a tuple of the value 7, and the slot 5 above it, the slot 7 is
written and 0xaa is gone. -/
theorem store_tuple_callback_takes_below :
    ∃ (callback : Ty) (component : Place) (out' : Output) (code : Code) (m' : Machine),
      callback = .named "Callback" (.function .external) ∧
      component = .storage ⟨callback, .persistent⟩ ∧ component.sizeOnStack = callback.sizeOnStack ∧
      ((Place.tuple [some component]).store (.tuple [callback]) true).exec {} { code := .ofHeight 5 } =
        (.ok (), out') ∧
      out'.code.ops = code.toArray ∧ out'.code.height = 1 ∧
      ({ stack := [0, 5, 7, 0xaa, 0xbb] } : Machine).run code = .ok m' ∧
      m'.stack = [0xbb] ∧ m'.persistent.read 5 = 0 ∧ m'.persistent.read 7 = 5 := by
  obtain ⟨store, hstore⟩ : ∃ store, store = (Place.tuple [some (.storage
      ⟨.named "Callback" (.function .external), .persistent⟩)]).store
        (.tuple [.named "Callback" (.function .external)]) true := ⟨_, rfl⟩
  have hheight : (store.exec {} { code := .ofHeight 5 }).2.code.height = 1 := by
    rw [hstore]
    decide +kernel
  have hresult : (({ stack := [0, 5, 7, 0xaa, 0xbb] } : Machine).run
      (store.exec {} { code := .ofHeight 5 }).2.code.ops.toList).map
        (fun m => (m.stack, m.persistent.read 5, m.persistent.read 7)) = .ok ([0xbb], 0, 5) := by
    rw [hstore]
    decide +kernel
  obtain ⟨out', m', hexec, hrun, hvalues⟩ :=
    Emit.exists_run_eq_ok (by rw [hstore]; decide +kernel) hresult
  rw [hexec] at hheight
  rw [hstore] at hexec
  exact ⟨_, _, out', out'.code.ops.toList, m', rfl, rfl, rfl, hexec, rfl, hheight, hrun,
    (congrArg (·.1) hvalues).symm, (congrArg (·.2.1) hvalues).symm, (congrArg (·.2.2) hvalues).symm⟩

end Place

end WordPlaces
