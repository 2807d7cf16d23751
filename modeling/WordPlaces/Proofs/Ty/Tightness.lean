import Mathlib
import WordPlaces.Proofs.Ty.Placement

/-!
# The layout is the tightest that keeps declaration order

The layout is greedy: it puts each member at the first place that is left and has room for it.
Against any other placement of the same members it therefore never falls behind: where the
greedy cursor is not after the other's, it is not after it behind the next member either.

## Main definitions

* `IsPlacement` — members that follow each other in declaration order, those of fewer than 32
  bytes within one slot and the others in slots of their own.
* `StorageOffset.position` — the slot and the byte of a place, ordered lexicographically.
* `slotsNeeded` — the slots up to the end of the last member of a placement.

## Main results

* `StorageOffset.fitted_index_le` — one greedy step does not fall behind.
* `layoutFrom_least` — nor does a run of the layout.
* `layoutOf_tightest` — the layout is a placement, and no placement has a member at an earlier
  place or needs fewer slots.
-/

set_option autoImplicit false

namespace WordPlaces

/-! ## Placements -/

/-- A place as a pair of its slot and its byte, in the lexicographic order. -/
def StorageOffset.position (o : StorageOffset) : ℕ ×ₗ ℕ := toLex (o.slot, o.byte)

/-- The offsets place the members in declaration order, without overlap: a member that may share
its slot lies within one, and a member of whole slots starts at a slot and takes all of its own. -/
structure IsPlacement (sizes : List StorageSize) (offsets : List StorageOffset) : Prop where
  length_eq : offsets.length = sizes.length
  in_order : (sizes.zip offsets).IsChain fun p q => p.2.index + p.1.span ≤ q.2.index
  within_slot : ∀ p ∈ sizes.zip offsets, p.1.bytes < 32 → p.2.byte + p.1.bytes ≤ 32
  whole_slots : ∀ p ∈ sizes.zip offsets, p.1.bytes = 32 → p.2.byte = 0

instance (size : StorageSize) : Decidable size.Regular :=
  decidable_of_iff (1 ≤ size.bytes ∧ size.bytes ≤ 32 ∧ (1 < size.slots → size.bytes = 32))
    ⟨fun h => ⟨h.1, h.2.1, h.2.2⟩, fun h => ⟨h.one_le_bytes, h.bytes_le, h.bytes_eq⟩⟩

instance (sizes : List StorageSize) (offsets : List StorageOffset) :
    Decidable (IsPlacement sizes offsets) :=
  decidable_of_iff
    (offsets.length = sizes.length ∧
      ((sizes.zip offsets).IsChain fun p q => p.2.index + p.1.span ≤ q.2.index) ∧
      (∀ p ∈ sizes.zip offsets, p.1.bytes < 32 → p.2.byte + p.1.bytes ≤ 32) ∧
      ∀ p ∈ sizes.zip offsets, p.1.bytes = 32 → p.2.byte = 0)
    ⟨fun h => ⟨h.1, h.2.1, h.2.2.1, h.2.2.2⟩,
      fun h => ⟨h.length_eq, h.in_order, h.within_slot, h.whole_slots⟩⟩

/-- The slots from the first up to the last one that a member lies in. -/
def slotsNeeded (sizes : List StorageSize) (offsets : List StorageOffset) : Nat :=
  ((sizes.zip offsets).map fun p => p.2.slot + p.1.slots).foldr max 0

/-- A placement is that of its first member and one of the others that starts behind it. -/
theorem isPlacement_cons {size : StorageSize} {sizes : List StorageSize} {start : StorageOffset}
    {offsets : List StorageOffset} :
    IsPlacement (size :: sizes) (start :: offsets) ↔
      (size.bytes < 32 → start.byte + size.bytes ≤ 32) ∧ (size.bytes = 32 → start.byte = 0) ∧
        IsPlacement sizes offsets ∧ ∀ o ∈ offsets.head?, start.index + size.span ≤ o.index := by
  constructor
  · rintro ⟨hlength, hchain, hwithin, hwhole⟩
    rw [List.zip_cons_cons] at hchain hwithin hwhole
    have hlength : offsets.length = sizes.length := Nat.succ.inj hlength
    refine ⟨hwithin _ List.mem_cons_self, hwhole _ List.mem_cons_self,
      ⟨hlength, (List.isChain_cons.1 hchain).2, fun p hp => hwithin p (List.mem_cons_of_mem _ hp),
        fun p hp => hwhole p (List.mem_cons_of_mem _ hp)⟩, ?_⟩
    cases sizes with
    | nil => simp [List.eq_nil_of_length_eq_zero hlength]
    | cons =>
      cases offsets with
      | nil => simp
      | cons => simpa using (List.isChain_cons.1 hchain).1
  · rintro ⟨hwithin, hwhole, h, hnext⟩
    refine ⟨congrArg (· + 1) h.length_eq, List.isChain_cons.2 ⟨?_, h.in_order⟩,
      List.forall_mem_cons.2 ⟨hwithin, h.within_slot⟩,
      List.forall_mem_cons.2 ⟨hwhole, h.whole_slots⟩⟩
    cases sizes with
    | nil => simp
    | cons =>
      cases offsets with
      | nil => simp
      | cons => simpa using hnext

/-- A placement of regular members is one where they lie one after the other. -/
theorem isPlacement_iff_placed {sizes : List StorageSize} {offsets : List StorageOffset} {k : Nat}
    (hsizes : ∀ s ∈ sizes, 1 ≤ s.slots ∧ s.Regular) :
    IsPlacement sizes offsets ∧ (∀ o ∈ offsets.head?, k ≤ o.index) ↔
      ∃ stop, Placed k sizes offsets stop := by
  induction sizes generalizing offsets k with
  | nil =>
    constructor
    · rintro ⟨h, -⟩
      obtain rfl := List.eq_nil_of_length_eq_zero h.length_eq
      exact ⟨k, .nil k⟩
    · rintro ⟨stop, ⟨⟩⟩
      exact ⟨⟨rfl, .nil, by simp, by simp⟩, by simp⟩
  | cons size sizes ih =>
    obtain ⟨⟨hslots, hsize⟩, hrest⟩ := List.forall_mem_cons.1 hsizes
    have hbytes := hsize.bytes_le
    constructor
    · rintro ⟨h, hk⟩
      cases offsets with
      | nil => simpa using h.length_eq
      | cons start offsets =>
        obtain ⟨hwithin, hwhole, h⟩ := isPlacement_cons.1 h
        obtain ⟨stop, hplaced⟩ := (ih hrest).1 h
        exact ⟨stop, .cons (hk start rfl) (by omega) hslots hplaced⟩
    · rintro ⟨stop, hplaced⟩
      cases hplaced with
      | cons le fits one_le_slots rest =>
        exact ⟨isPlacement_cons.2 ⟨fun _ => fits, fun heq => by omega, (ih hrest).2 ⟨stop, rest⟩⟩,
          fun o ho => Option.some.inj ho ▸ le⟩

/-- The slots that a placement needs are those up to the end of its last member. -/
theorem Placed.slotsNeeded_bounds {k stop : Nat} {sizes : List StorageSize}
    {offsets : List StorageOffset} (h : Placed k sizes offsets stop)
    (hsizes : ∀ s ∈ sizes, 1 ≤ s.bytes ∧ s.Regular) :
    stop ≤ max k (32 * slotsNeeded sizes offsets) ∧ 32 * slotsNeeded sizes offsets < stop + 32 := by
  induction h with
  | nil k => simp [slotsNeeded]
  | @cons k stop size start sizes offsets le fits one_le_slots rest ih =>
    obtain ⟨hle, hlt⟩ := ih fun s hs => hsizes s (List.mem_cons_of_mem _ hs)
    obtain ⟨hbytes, hsize⟩ := hsizes size List.mem_cons_self
    have hregular := hsize.bytes_eq
    have hstop := rest.le
    have hneeded : slotsNeeded (size :: sizes) (start :: offsets) =
        max (start.slot + size.slots) (slotsNeeded sizes offsets) := rfl
    -- The member ends within its last slot, and behind the start of it.
    have hend : start.index + size.span ≤ 32 * (start.slot + size.slots) ∧
        32 * (start.slot + size.slots) < start.index + size.span + 32 := by
      simp only [StorageOffset.index, StorageSize.span]
      split <;> omega
    omega

/-! ## The layout never falls behind -/

namespace StorageOffset

/-- A place at an earlier byte of storage has an earlier position. -/
theorem position_le_of_index_le {a b : StorageOffset} (h : a.index ≤ b.index)
    (hb : b.byte < 32) : a.position ≤ b.position := by
  rw [position, position, Prod.Lex.toLex_le_toLex]
  simp only [index] at h
  omega

/-- A member is placed no later than at any place behind the cursor that has room for it. -/
theorem fitted_index_le {cursor start o : StorageOffset} {bytes : Nat}
    (hcursor : cursor.byte < 32) (h : cursor.fitted bytes = .ok start)
    (hle : cursor.index ≤ o.index) (hroom : o.byte + bytes ≤ 32) : start.index ≤ o.index := by
  simp only [fitted] at h
  split at h
  · -- What is left of the cursor's slot is too short, so the other place is in a later slot.
    obtain rfl := skip_eq_ok h
    simp only [index] at hle ⊢
    omega
  · exact Except.ok.inj h ▸ hle

/-- The slots that are started up to the cursor. -/
def begun (cursor : StorageOffset) : Nat :=
  if cursor.byte = 0 then cursor.slot else cursor.slot + 1

/-- Slots that can be counted can be skipped. -/
theorem skip_of_lt {cursor : StorageOffset} {count : Nat} (h : cursor.slot + count < countLimit) :
    cursor.skip count = .ok ⟨cursor.slot + count, 0⟩ := by
  rw [skip, checkedCount, if_pos h]
  rfl

/-- A member gets a place without another slot before it being started. -/
theorem exists_fitted {cursor : StorageOffset} {bytes : Nat} (hbytes : bytes ≤ 32)
    (hlt : cursor.begun < countLimit) :
    ∃ start, cursor.fitted bytes = .ok start ∧ start.begun = cursor.begun := by
  rw [fitted]
  split
  · have hbegun : cursor.begun = cursor.slot + 1 := if_neg (by omega)
    exact ⟨_, skip_of_lt (hbegun ▸ hlt), hbegun.symm⟩
  · exact ⟨cursor, rfl, rfl⟩

/-- A member starts no more slots than it takes. -/
theorem exists_after {start : StorageOffset} {size : StorageSize}
    (hlt : start.begun + size.slots < countLimit) :
    ∃ next, start.after size = .ok next ∧ next.begun ≤ start.begun + size.slots := by
  have hslot : start.slot ≤ start.begun := by
    rw [begun]
    split <;> omega
  rw [after]
  split
  · refine ⟨_, rfl, ?_⟩
    rw [begun]
    split <;> simp only <;> omega
  · refine ⟨_, skip_of_lt (by omega), ?_⟩
    rw [begun, if_pos rfl]
    exact Nat.add_le_add_right hslot _

end StorageOffset

/-- The layout succeeds where the slots of all members can be counted. -/
theorem exists_layoutFrom {cursor : StorageOffset} {sizes : List StorageSize}
    (hsizes : ∀ s ∈ sizes, 1 ≤ s.slots ∧ s.Regular)
    (hlt : cursor.begun + (sizes.map (·.slots)).sum < countLimit) :
    ∃ l, layoutFrom cursor sizes = .ok l := by
  induction sizes generalizing cursor with
  | nil =>
    rw [layoutFrom]
    split
    · exact ⟨_, rfl⟩
    · have hbegun : cursor.begun = cursor.slot + 1 := if_neg ‹_›
      rw [StorageOffset.skip_of_lt (hbegun ▸ hlt)]
      exact ⟨_, rfl⟩
  | cons size sizes ih =>
    obtain ⟨hslots, hsize⟩ := hsizes size List.mem_cons_self
    rw [List.map_cons, List.sum_cons] at hlt
    obtain ⟨start, hstart, hbegun⟩ :=
      StorageOffset.exists_fitted hsize.bytes_le (show cursor.begun < countLimit by omega)
    obtain ⟨next, hnext, hle⟩ :=
      StorageOffset.exists_after (show start.begun + size.slots < countLimit by omega)
    have hrest : next.begun + (sizes.map (·.slots)).sum < countLimit := by omega
    obtain ⟨l, hl⟩ := ih (fun s hs => hsizes s (List.mem_cons_of_mem _ hs)) hrest
    refine ⟨{ l with offsets := start :: l.offsets }, ?_⟩
    rw [layoutFrom_cons (Nat.ne_of_gt hslots) hstart hnext, hl]
    rfl

/-- Against any other placement from no earlier a byte on, the layout puts every member no later,
and counts no more slots than those up to the other's end.

**Proof sketch.** Induction on the members.  The greedy cursor is not after the other's before a
member, so the member starts no later (`fitted_index_le`); both move on by the bytes of the
member (`after_eq_ok`), which keeps the order of the cursors. -/
theorem layoutFrom_least {cursor : StorageOffset} {sizes : List StorageSize} {l : Layout}
    {offsets : List StorageOffset} {k stop : Nat} (hcursor : cursor.byte < 32)
    (hsizes : ∀ s ∈ sizes, 1 ≤ s.bytes ∧ s.Regular) (h : layoutFrom cursor sizes = .ok l)
    (hother : Placed k sizes offsets stop) (hle : cursor.index ≤ k) :
    List.Forall₂ (fun a b => a.position ≤ b.position) l.offsets offsets ∧
      32 * l.slots < stop + 32 := by
  induction hother generalizing cursor l with
  | nil k =>
    rw [layoutFrom] at h
    simp only [StorageOffset.index] at hle
    split at h
    · obtain rfl := Except.ok.inj h
      exact ⟨.nil, by simp only; omega⟩
    · obtain ⟨last, hlast, hl⟩ := Except.exists_of_bind_eq_ok h
      obtain rfl := StorageOffset.skip_eq_ok hlast
      obtain rfl := Except.ok.inj hl
      exact ⟨.nil, by simp only; omega⟩
  | @cons k stop size o sizes offsets le fits one_le_slots rest ih =>
    rw [layoutFrom, if_neg (by omega)] at h
    obtain ⟨start, hstart, h⟩ := Except.exists_of_bind_eq_ok h
    obtain ⟨next, hnext, h⟩ := Except.exists_of_bind_eq_ok h
    obtain ⟨l', hrest, hl⟩ := Except.exists_of_bind_eq_ok h
    obtain rfl := Except.ok.inj hl
    obtain ⟨hbytes, hsize⟩ := hsizes size List.mem_cons_self
    have hstartle : start.index ≤ o.index :=
      StorageOffset.fitted_index_le hcursor hstart (hle.trans le) fits
    obtain ⟨-, hfits⟩ := StorageOffset.fitted_eq_ok hsize.bytes_le hstart hcursor
    obtain ⟨hindex, hbyte⟩ := StorageOffset.after_eq_ok hsize hfits (by omega) hnext
    obtain ⟨hoffsets, hslots⟩ := ih hbyte (fun s hs => hsizes s (List.mem_cons_of_mem _ hs)) hrest
      (by omega)
    exact ⟨.cons (StorageOffset.position_le_of_index_le hstartle (by omega)) hoffsets, hslots⟩

/-- Members whose slots can be counted have a layout.  It is a placement of them and counts the
slots that this placement needs; and in every placement of them each member is at the same place
or a later one, and the slots needed are no fewer.

**Proof sketch.** The layout succeeds (`exists_layoutFrom`) and places members one after the other
(`layoutFrom_placed`), which is what a placement is (`isPlacement_iff_placed`).  It does not fall
behind any other placement (`layoutFrom_least`), nor does the end of its last member, and the slots
up to that end are those it counts (`Placed.slotsNeeded_bounds`). -/
theorem layoutOf_tightest {sizes : List StorageSize}
    (hsizes : ∀ s ∈ sizes, 1 ≤ s.slots ∧ s.Regular)
    (hsum : (sizes.map (·.slots)).sum < countLimit) :
    ∃ l, layoutOf sizes = .ok l ∧ IsPlacement sizes l.offsets ∧
      l.slots = slotsNeeded sizes l.offsets ∧
      ∀ offsets, IsPlacement sizes offsets →
        List.Forall₂ (fun a b => a.position ≤ b.position) l.offsets offsets ∧
          l.slots ≤ slotsNeeded sizes offsets := by
  have hregular : ∀ s ∈ sizes, s.Regular := fun s hs => (hsizes s hs).2
  have hbytes : ∀ s ∈ sizes, 1 ≤ s.bytes ∧ s.Regular :=
    fun s hs => ⟨(hregular s hs).one_le_bytes, hregular s hs⟩
  have hbegun : StorageOffset.zero.begun + (sizes.map (·.slots)).sum < countLimit := by
    rw [show StorageOffset.zero.begun = 0 from rfl, Nat.zero_add]
    exact hsum
  obtain ⟨l, hl⟩ := exists_layoutFrom hsizes hbegun
  obtain ⟨stop, hplaced, hstople, hstoplt⟩ := layoutFrom_placed (by decide) hregular hl
  obtain ⟨hneededle, hneededlt⟩ := hplaced.slotsNeeded_bounds hbytes
  have hzero : StorageOffset.zero.index = 0 := rfl
  refine ⟨l, hl, ((isPlacement_iff_placed hsizes).2 ⟨stop, hplaced⟩).1, by omega, ?_⟩
  intro offsets hoffsets
  obtain ⟨stop', hother⟩ := (isPlacement_iff_placed hsizes (k := 0)).1 ⟨hoffsets, fun _ _ => Nat.zero_le _⟩
  obtain ⟨hle, hslots⟩ := layoutFrom_least (by decide) hbytes hl hother (by omega)
  obtain ⟨hneededle', -⟩ := hother.slotsNeeded_bounds hbytes
  exact ⟨hle, by omega⟩

/-- Five members, one of them of three slots, against a placement that leaves gaps: they have a
layout, and its slots are no more than the eight that the other needs. -/
theorem layoutOf_tightest_gaps :
    IsPlacement [⟨1, 20⟩, ⟨1, 16⟩, ⟨1, 1⟩, ⟨3, 32⟩, ⟨1, 1⟩]
        [⟨0, 12⟩, ⟨1, 0⟩, ⟨2, 5⟩, ⟨3, 0⟩, ⟨7, 31⟩] ∧
      ∃ l, layoutOf [⟨1, 20⟩, ⟨1, 16⟩, ⟨1, 1⟩, ⟨3, 32⟩, ⟨1, 1⟩] = .ok l ∧
        List.Forall₂ (fun a b : StorageOffset => a.position ≤ b.position) l.offsets
          [⟨0, 12⟩, ⟨1, 0⟩, ⟨2, 5⟩, ⟨3, 0⟩, ⟨7, 31⟩] ∧ l.slots ≤ 8 := by
  have hother : IsPlacement [⟨1, 20⟩, ⟨1, 16⟩, ⟨1, 1⟩, ⟨3, 32⟩, ⟨1, 1⟩]
      [⟨0, 12⟩, ⟨1, 0⟩, ⟨2, 5⟩, ⟨3, 0⟩, ⟨7, 31⟩] := by decide
  have hsizes : ∀ s ∈ ([⟨1, 20⟩, ⟨1, 16⟩, ⟨1, 1⟩, ⟨3, 32⟩, ⟨1, 1⟩] : List StorageSize),
      1 ≤ s.slots ∧ s.Regular := by decide
  obtain ⟨l, hl, -, -, hleast⟩ := layoutOf_tightest hsizes (by decide)
  exact ⟨hother, l, hl, hleast _ hother⟩

end WordPlaces
