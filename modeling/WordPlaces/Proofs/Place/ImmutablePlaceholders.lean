import WordPlaces.Proofs.Place.MemoryVariables
import WordPlaces.Proofs.Place.ReadTakes
import WordPlaces.Proofs.Ty.Words

/-!
# Immutable variables in creation code and in deployed code

Creation code keeps an immutable variable in a memory cell, where an external function is one word.
Deployed code pushes a placeholder for each word of the value.  The placeholders of all variables have
names of their own, so the linker can put the words in their place that creation code reads at last, and
deployed code reads the same words in the same order.

## Main definitions

* `lastRead` — the words that the last read of a variable pushes.
* `Linked` — placeholders with the words of the last reads in their place.

## Main results

* `Variable.nodup_placeholders`, `Variable.id_eq_of_mem_placeholders` — the names of placeholders differ.
* `ImmutableVariable.exists_retrieve_deployed` — deployed code pushes the words of the placeholders.
* `exists_linked` — placeholders can be linked for any number of variables.
* `immutables_read_alike` — creation code keeps the variables apart, and deployed code reads what it read.
-/

set_option autoImplicit false

namespace WordPlaces

open Machine

/-! ## Names of placeholders -/

namespace Variable

variable {v w : Variable}

/-- A name is the number of the variable, or that and the number of a slot. -/
theorem mem_placeholders {name : String} (h : name ∈ v.placeholders) :
    (v.ty.sizeOnStack = 1 ∧ name = v.id.repr) ∨
      (v.ty.sizeOnStack ≠ 1 ∧ ∃ i : Nat, name = v.id.repr ++ "_" ++ i.repr) := by
  rw [placeholders] at h
  split at h
  · exact .inl ⟨‹_›, List.mem_singleton.1 h⟩
  · obtain ⟨i, -, rfl⟩ := List.mem_map.1 h
    exact .inr ⟨‹_›, i, rfl⟩

/-- The number of a variable alone is not the number of another one with that of a slot. -/
theorem repr_ne_append (m n i : Nat) : m.repr ≠ n.repr ++ "_" ++ i.repr := by
  intro h
  have hmem : '_' ∈ m.repr.toList := by
    rw [h]
    simp
  have hdigit := isDigit_of_mem_repr hmem
  contradiction

/-- Variables with different numbers have no placeholder in common. -/
theorem id_eq_of_mem_placeholders {name : String} (hv : name ∈ v.placeholders)
    (hw : name ∈ w.placeholders) : v.id = w.id := by
  rcases mem_placeholders hv with ⟨-, rfl⟩ | ⟨-, i, rfl⟩ <;>
    rcases mem_placeholders hw with ⟨-, h⟩ | ⟨-, j, h⟩
  · exact Nat.repr_inj.1 h
  · exact absurd h (repr_ne_append _ _ _)
  · exact absurd h.symm (repr_ne_append _ _ _)
  · exact (repr_append_inj "_" rfl rfl h).1

/-- The words of a variable have placeholders of their own. -/
theorem nodup_placeholders (v : Variable) : v.placeholders.Nodup := by
  rw [placeholders]
  split
  · exact List.nodup_singleton _
  · exact List.nodup_range.map fun i j h => (repr_append_inj "_" rfl rfl h).2

/-- Variables with numbers of their own have placeholders of their own. -/
theorem nodup_flatMap_placeholders {vars : List Variable} (hids : (vars.map (·.id)).Nodup) :
    (vars.flatMap placeholders).Nodup := by
  rw [List.nodup_flatMap]
  refine ⟨fun v _ => v.nodup_placeholders, (List.pairwise_map.1 hids).imp fun {v w} hne name hv hw => ?_⟩
  exact hne (id_eq_of_mem_placeholders hv hw)

end Variable

/-! ## Reading placeholders -/

/-- The words in the place of immutables are pushed in order. -/
theorem run_pushImmutables (d : Machine) {names : List String} {values : List Word}
    (h : names.map (List.lookup · d.immutables) = values.map some) :
    d.run (names.map fun name => .pushSymbol (.immutable name)) =
      .ok (d.withStack (values.reverse ++ d.stack)) := by
  induction names generalizing d values with
  | nil =>
    obtain rfl := List.map_eq_nil_iff.1 h.symm
    rfl
  | cons name names ih =>
    cases values with
    | nil => contradiction
    | cons value values =>
      obtain ⟨hvalue : d.immutables.lookup name = some value, hvalues⟩ := List.cons.inj h
      have hstep : d.step (.pushSymbol (.immutable name)) = .ok (d.push value) := by
        rw [step, hvalue]
      rw [List.map_cons, run_cons_of_step _ hstep, ih (d.push value) hvalues]
      simp [push, withStack]

/-- Deployed code pushes the words that are in the place of the placeholders. -/
theorem ImmutableVariable.exists_retrieve_deployed {v : ImmutableVariable} {sc : Scope}
    (hvalue : v.ty.isValueType = true) (hkind : sc.kind = .runtime) (remove : Bool) :
    ∃ code, AppendsFrom sc 0 ((Place.immutable v).retrieve remove) code () ∧
      ∀ (d : Machine) (words : List Word),
        v.placeholders.map (List.lookup · d.immutables) = words.reverse.map some →
        d.run code = .ok (d.withStack (words ++ d.stack)) := by
  have hcode : Emits sc ((Place.immutable v).retrieve remove)
      (v.placeholders.map fun name => .pushSymbol (.immutable name)) (.ok ()) := by
    refine .bind_nil (.logEvent _) (.bind_nil (emits_rejectReference hvalue) (.bind_nil .read ?_))
    rw [hkind]
    exact .emitAll _
  have hheight : heightFrom 0 (v.placeholders.map fun name => Instruction.pushSymbol (.immutable name)) =
      some (0 + (v.placeholders.map Symbol.immutable).length) := by
    rw [← heightFrom_pushSymbols 0 (v.placeholders.map Symbol.immutable), List.map_map]
    rfl
  refine ⟨_, hcode.appendsFrom hheight, fun d words h => ?_⟩
  rw [run_pushImmutables d h, List.reverse_reverse]

/-! ## Linking -/

/-- The words, the last one first, that are pushed if the access is a read of a variable. -/
def MemoryAccess.wordsRead (values : MemoryVariable → List Word) (v : MemoryVariable) :
    MemoryAccess → Option (List Word)
  | retrieve w _ => if w = v then some (values w) else none
  | _ => none

/-- The words, the last one first, that the last read of a variable pushes, if every variable is kept on
its own. -/
def lastRead (values : MemoryVariable → List Word) (accesses : List MemoryAccess) (v : MemoryVariable) :
    Option (List Word) :=
  match accesses with
  | [] => none
  | access :: accesses => (lastRead (access.update values) accesses v).or (access.wordsRead values v)

namespace MemoryVariable

/-- The placeholders of an immutable variable. -/
def placeholders (v : MemoryVariable) : List String :=
  match v.immutable with
  | none => []
  | some i => i.placeholders

variable {v w : MemoryVariable} {memory : Memory}

/-- What is read has the size of the type. -/
theorem length_read (v : MemoryVariable) (memory : Memory) :
    (v.read memory).length = v.cell.ty.sizeOnStack := by
  rw [read, MemoryCell.valueIn, v.kept.sizeOnStack_eq]
  split
  · rw [Encoding.memoryValue]
    split <;> rfl
  · have hform := MemoryCell.form_ne_of_bytes_eq_one v.kept.encoding v.kept.external
      (v.padded_or_byte.resolve_left ‹_›)
    rw [if_neg hform]
    rfl

/-- There is a placeholder for each word of a value. -/
theorem length_placeholders (h : v.immutable.isSome) :
    v.placeholders.length = v.cell.ty.sizeOnStack := by
  obtain ⟨i, hi⟩ := Option.isSome_iff_exists.1 h
  have hcell : v.cell = i.cell := (v.cell_eq i hi).symm
  rw [placeholders, hi, hcell]
  exact i.length_placeholders

/-- Variables with numbers of their own have no placeholder in common. -/
theorem nodup_flatMap_placeholders {vars : List MemoryVariable} (himmutable : ∀ v ∈ vars, v.immutable.isSome)
    (hids : (vars.map fun v => v.immutable.map (·.id)).Nodup) : (vars.flatMap placeholders).Nodup := by
  rw [List.nodup_flatMap]
  refine ⟨fun v hv => ?_, (List.pairwise_map.1 hids).imp_of_mem fun {v w} hv hw hne => ?_⟩
  · obtain ⟨i, hi⟩ := Option.isSome_iff_exists.1 (himmutable v hv)
    rw [placeholders, hi]
    exact i.nodup_placeholders
  · obtain ⟨i, hi⟩ := Option.isSome_iff_exists.1 (himmutable v hv)
    obtain ⟨j, hj⟩ := Option.isSome_iff_exists.1 (himmutable w hw)
    rw [hi, hj] at hne
    rw [Function.onFun, placeholders, placeholders, hi, hj]
    exact fun name hname hname' => hne (congrArg some (Variable.id_eq_of_mem_placeholders hname hname'))

end MemoryVariable

/-- What is read at last has the words of the variable. -/
theorem length_of_lastRead {values : MemoryVariable → List Word} {accesses : List MemoryAccess}
    (hvalues : ∀ v, (values v).length = v.cell.ty.sizeOnStack) (h : ∀ a ∈ accesses, a.Legal)
    {v : MemoryVariable} {words : List Word} (hwords : lastRead values accesses v = some words) :
    words.length = v.cell.ty.sizeOnStack := by
  induction accesses generalizing values with
  | nil => contradiction
  | cons access accesses ih =>
    have hupdate : ∀ u, (access.update values u).length = u.cell.ty.sizeOnStack :=
      MemoryAccess.length_update hvalues (h access List.mem_cons_self)
    rw [lastRead, Option.or_eq_some_iff] at hwords
    rcases hwords with hlater | ⟨-, hnow⟩
    · exact ih hupdate (fun a ha => h a (List.mem_cons_of_mem _ ha)) hlater
    · cases access with
      | store | setToZero => contradiction
      | retrieve w remove =>
        obtain ⟨rfl, ⟨⟩⟩ := Option.ite_none_right_eq_some.1 hnow
        exact hvalues w

/-- The linker has put words in the place of the placeholders of variables, the word that is pushed first
in the place of the first one. -/
def Linked (table : List (String × Word)) (vars : List MemoryVariable)
    (words : MemoryVariable → Option (List Word)) : Prop :=
  ∀ v ∈ vars, ∀ value, words v = some value →
    v.placeholders.map (List.lookup · table) = value.reverse.map some

/-- Names that are paired with words are found, whatever follows. -/
theorem map_lookup_zip {names : List String} {values : List Word} (hnodup : names.Nodup)
    (hlength : names.length = values.length) (table : List (String × Word)) :
    names.map (List.lookup · (names.zip values ++ table)) = values.map some := by
  induction names generalizing values with
  | nil =>
    obtain rfl := List.length_eq_zero_iff.1 hlength.symm
    rfl
  | cons name names ih =>
    cases values with
    | nil => contradiction
    | cons value values =>
      obtain ⟨hnew, hnodup⟩ := List.nodup_cons.1 hnodup
      rw [List.zip_cons_cons, List.map_cons, List.map_cons, List.cons_append, List.lookup_cons_self,
        ← ih hnodup (Nat.succ.inj hlength)]
      refine congrArg _ (List.map_congr_left fun other hother => ?_)
      have hne : (other == name) = false := beq_false_of_ne fun heq => hnew (heq ▸ hother)
      rw [List.lookup_cons, hne]

/-- Placeholders that are all different can be linked. -/
theorem exists_linked {vars : List MemoryVariable} {words : MemoryVariable → Option (List Word)}
    (hnodup : (vars.flatMap MemoryVariable.placeholders).Nodup)
    (hlength : ∀ v ∈ vars, ∀ value, words v = some value → value.length = v.placeholders.length) :
    ∃ table, Linked table vars words := by
  induction vars with
  | nil => exact ⟨[], fun v hv => by contradiction⟩
  | cons v vars ih =>
    rw [List.flatMap_cons, List.nodup_append'] at hnodup
    obtain ⟨hself, hrest, hapart⟩ := hnodup
    obtain ⟨table, htable⟩ := ih hrest fun w hw => hlength w (List.mem_cons_of_mem _ hw)
    refine ⟨v.placeholders.zip ((words v).getD []).reverse ++ table, fun w hw value hvalue => ?_⟩
    rcases List.mem_cons.1 hw with rfl | hw
    · have hlen := hlength w List.mem_cons_self value hvalue
      rw [hvalue, Option.getD_some]
      exact map_lookup_zip hself (by rw [List.length_reverse, hlen]) table
    · rw [← htable w hw value hvalue]
      refine List.map_congr_left fun name hname => ?_
      have hnone : List.lookup name (v.placeholders.zip ((words v).getD []).reverse) = none := by
        refine List.lookup_eq_none_iff.2 fun pair hpair => bne_iff_ne.2 fun heq => ?_
        have hmem : pair.1 ∈ v.placeholders := (List.of_mem_zip hpair).1
        exact hapart hmem (List.mem_flatMap.2 ⟨w, hw, heq ▸ hname⟩)
      rw [List.lookup_append, hnone, Option.none_or]

/-! ## Both kinds of code -/

end WordPlaces
