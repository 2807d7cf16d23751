import Mathlib.Data.List.Basic
import WordPlaces.Proofs.Ty.Leaves

/-!
# The words of a struct in memory

In memory every member of a struct but a mapping takes a word, in the order of declaration.  The word
of a nested struct is a pointer to the words of that struct, so that a struct is read by following the
pointers that memory holds.

## Main definitions

* `StructWord` — a word of memory that a struct is read from, with the leaf that it is the value of.
* `StructTable.structWords` — all words that a struct is read from.

## Main results

* `StructTable.structWords_eq` — the words of a struct are those of its members, each at the offset
  that its field has in memory.
* `StructTable.filterMap_structWords` — every leaf but the mappings has one word.
-/

set_option autoImplicit false

namespace WordPlaces

/-- A word of memory that a struct is read from. -/
structure StructWord where
  /-- The leaf that the word is the value of; a pointer to a nested struct is that of none. -/
  leaf? : Option Leaf
  address : Word
  deriving Repr, DecidableEq

/-- The word of a struct that lies a number of slots further on in storage. -/
def StructWord.shift (slots : Nat) (w : StructWord) : StructWord :=
  { w with leaf? := w.leaf?.map (Leaf.shift slots) }

namespace StructTable

variable {structs : StructTable} {load : Nat → Word} {d : StructId} {pointer : Word}

/-- The words that a struct behind a pointer is read from, through the pointers that are loaded.
Member `k`, without counting mappings, has its word `32 * k` bytes behind the pointer. -/
def structWords (structs : StructTable) (load : Nat → Word) (d : StructId) (pointer : Word) :
    List StructWord :=
  ((structs.fields d).filter fun f => !f.ty.isMapping).zipIdx.attach.flatMap fun ⟨(f, k), _⟩ =>
    let address := pointer + BitVec.ofNat 256 (32 * k)
    match _ : f.ty with
    | .struct d' _ =>
      ⟨none, address⟩ ::
        (structs.structWords load d' (load address.toNat)).map (StructWord.shift f.storage.slot)
    | ty => [⟨some ⟨ty, f.storage⟩, address⟩]
termination_by d
decreasing_by
  exact lt_of_mem_fields (List.mem_filter.1 (List.fst_mem_of_mem_zipIdx ‹_›)).1 ‹_›

/-- The words of one member whose word is at an offset from the pointer. -/
def wordsOf (structs : StructTable) (load : Nat → Word) (pointer : Word) (f : Field)
    (offset : Nat) : List StructWord :=
  let address := pointer + BitVec.ofNat 256 offset
  match f.ty with
  | .struct d' _ =>
    ⟨none, address⟩ ::
      (structs.structWords load d' (load address.toNat)).map (StructWord.shift f.storage.slot)
  | ty => [⟨some ⟨ty, f.storage⟩, address⟩]

/-- The members that are no mappings have offsets that count words. -/
theorem flatMap_fieldsFrom {β : Type} (g : Field → Nat → List β)
    (members : List (Member × StorageOffset)) (k : Nat) :
    (((fieldsFrom (32 * k) members).filter fun f => !f.ty.isMapping).zipIdx k).flatMap
        (fun x => g x.1 (32 * x.2)) =
      (fieldsFrom (32 * k) members).flatMap fun f => f.memoryOffset.elim [] (g f) := by
  induction members generalizing k with
  | nil => rfl
  | cons p members ih =>
    rw [fieldsFrom]
    split
    · rename_i hmapping
      rw [List.filter_cons_of_neg (by simp [hmapping]), List.flatMap_cons, Option.elim_none,
        List.nil_append, ih]
    · rename_i hmapping
      rw [List.filter_cons_of_pos (by simp [hmapping]), List.zipIdx_cons, List.flatMap_cons,
        List.flatMap_cons, Option.elim_some]
      exact congrArg (_ ++ ·) (ih (k + 1))

/-- The words of a struct are those of its members that have a place in memory. -/
theorem structWords_eq (structs : StructTable) (load : Nat → Word) (d : StructId) (pointer : Word) :
    structs.structWords load d pointer =
      (structs.fields d).flatMap fun f => f.memoryOffset.elim [] (structs.wordsOf load pointer f) := by
  have hmember : ∀ x : { x // x ∈ ((structs.fields d).filter fun f => !f.ty.isMapping).zipIdx },
      (match _ : x.1.1.ty with
        | .struct d' _ => ⟨none, pointer + BitVec.ofNat 256 (32 * x.1.2)⟩ ::
          (structs.structWords load d'
            (load (pointer + BitVec.ofNat 256 (32 * x.1.2)).toNat)).map
              (StructWord.shift x.1.1.storage.slot)
        | ty => [⟨some ⟨ty, x.1.1.storage⟩, pointer + BitVec.ofNat 256 (32 * x.1.2)⟩]) =
        structs.wordsOf load pointer x.1.1 (32 * x.1.2) := by
    intro x
    rw [wordsOf]
    split <;> rename_i hty <;> simp only [hty]
  rw [structWords]
  simp only [hmember]
  rw [List.flatMap_subtype (g := fun x => structs.wordsOf load pointer x.1 (32 * x.2))
    (fun x _ => rfl), List.unattach_attach]
  exact flatMap_fieldsFrom (structs.wordsOf load pointer) _ 0

/-- Every leaf of a struct but the mappings is the value of one of its words, in the order of the
leaves.

**Proof sketch.** Induction on the number of the struct, member by member. -/
theorem filterMap_structWords (structs : StructTable) (load : Nat → Word) (d : StructId)
    (pointer : Word) :
    (structs.structWords load d pointer).filterMap (·.leaf?) =
      (structs.leaves d).filter fun leaf => !leaf.ty.isMapping := by
  induction d using Nat.strongRecOn generalizing pointer with
  | ind d ih =>
    have hmember : ∀ f ∈ structs.fields d,
        (f.memoryOffset.elim [] (structs.wordsOf load pointer f)).filterMap (·.leaf?) =
          (structs.leavesOf f).filter fun leaf => !leaf.ty.isMapping := by
      intro f hf
      have hplace := memoryOffset_isNone hf
      cases hm : f.memoryOffset with
      | none =>
        rw [hm] at hplace
        cases hty : f.ty with
        | mapping => simp only [leavesOf, hty]; rfl
        | _ => rw [hty] at hplace; contradiction
      | some offset =>
        rw [hm] at hplace
        rw [Option.elim_some]
        cases hty : f.ty with
        | struct d' declared =>
          have hleaves : (fun leaf : Leaf => !leaf.ty.isMapping) ∘ Leaf.shift f.storage.slot =
              fun leaf => !leaf.ty.isMapping := rfl
          have hwords : (fun w : StructWord => w.leaf?) ∘ StructWord.shift f.storage.slot =
              fun w => w.leaf?.map (Leaf.shift f.storage.slot) := rfl
          simp only [wordsOf, leavesOf, hty]
          rw [List.filterMap_cons_none rfl, List.filterMap_map, hwords, List.filter_map, hleaves,
            ← ih d' (lt_of_mem_fields hf hty), List.map_filterMap]
        | mapping => rw [hty] at hplace; contradiction
        | _ => simp only [wordsOf, leavesOf, hty]; rfl
    rw [structWords_eq, leaves_eq, List.filterMap_flatMap, List.filter_flatMap]
    exact List.flatMap_congr hmember

end StructTable

end WordPlaces
