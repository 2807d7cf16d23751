import WordPlaces.Proofs.Ty.Words

/-!
# Reading the words of types

The words of a sequence of types are read from the left.  Where a type has been read, the next words
make it the element of an array if the third of them is a data location after an empty word; nothing
else that may follow a type looks like that.  So what is written is read back, and two sequences of
types with the same words are the same.

## Main definitions

* `Dictionary.read`, `Dictionary.readOperand` — read a type, and one that may be a tuple.
* `CanFollow`, `EndsType` — what may come after a type, and what does not make it an element.

## Main results

* `Ty.IsSpelled.read_words` — the words of a type are read as the type.
* `Ty.IsSpelledOperand.readOperand_words` — the same for tuples.
* `Ty.operands_inj` — sequences of types differ in their words.
-/

set_option autoImplicit false

namespace WordPlaces

open Ty

/-! ## Words that end a type -/

/-- Reads how a type is continued as an array. -/
def readArrays (ty : Ty) : List String → Ty × List String
  | length :: gap :: location :: rest =>
    match if gap = "" then locationOf? location else none with
    | some location => readArrays (.array ty length.toNat? location) rest
    | none => (ty, length :: gap :: location :: rest)
  | ws => (ty, ws)

/-- The words do not continue a type as an array. -/
def EndsType (ws : List String) : Prop := ∀ ty, readArrays ty ws = (ty, ws)

/-- The words may come after a type: a data location comes neither first nor after an empty word. -/
def CanFollow : List String → Prop
  | [] => True
  | w :: rest => locationOf? w = none ∧ (w = "" → ∀ w' ∈ rest.head?, locationOf? w' = none)

/-- A type ends where the words do. -/
theorem endsType_nil : EndsType [] := fun _ => rfl

/-- Words that end a type because there is no data location in the third place. -/
theorem endsType_of {length : String} {rest : List String}
    (h : ∀ location ∈ rest.tail.head?, rest.head? = some "" → locationOf? location = none) :
    EndsType (length :: rest) := by
  intro ty
  match rest with
  | [] | [_] => rfl
  | gap :: location :: rest =>
    rw [readArrays]
    by_cases hgap : gap = ""
    · rw [if_pos hgap, h location rfl (congrArg some hgap)]
    · rw [if_neg hgap]

/-- Whatever may follow a type ends it after a word. -/
theorem CanFollow.endsType_cons {rest : List String} (h : CanFollow rest) (w : String) :
    EndsType (w :: rest) := by
  refine endsType_of fun location hlocation hgap => ?_
  match rest with
  | [] => contradiction
  | gap :: rest => exact h.2 (Option.some.inj hgap) location hlocation

/-- An empty word may follow a type. -/
theorem CanFollow.cons_empty {rest : List String} (h : CanFollow rest) : CanFollow ("" :: rest) := by
  refine ⟨by simp [locationOf?], fun _ w hw => ?_⟩
  cases rest with
  | nil => contradiction
  | cons w' rest =>
    obtain rfl := Option.some.inj hw
    exact h.1

/-- A word that is neither empty nor a data location may follow a type. -/
theorem canFollow_cons {w : String} (hne : w ≠ "") (h : locationOf? w = none) (rest : List String) :
    CanFollow (w :: rest) :=
  ⟨h, fun hempty => absurd hempty hne⟩

/-! ## Reading -/

namespace Dictionary

variable (dict : Dictionary)

open Classical in
/-- The type that is written as one word. -/
noncomputable def ofWord (w : String) : Ty :=
  if h : ∃ ty : Ty, ty.isElementary = true ∧ ty.elementaryText = w then h.choose
  else .named w (dict.underlying w)

/-- The word of an elementary type is read as that type. -/
theorem ofWord_elementaryText {ty : Ty} (h : ty.isElementary = true) :
    dict.ofWord ty.elementaryText = ty := by
  have hex : ∃ ty' : Ty, ty'.isElementary = true ∧ ty'.elementaryText = ty.elementaryText :=
    ⟨ty, h, rfl⟩
  rw [ofWord, dif_pos hex]
  exact elementaryText_inj hex.choose_spec.1 h hex.choose_spec.2

/-- A name that is not reserved is read as that of a type. -/
theorem ofWord_of_not_isReserved {name : String} (h : ¬ IsReserved name) :
    dict.ofWord name = .named name (dict.underlying name) :=
  dif_neg fun hex => h (.inr (.inr hex))

/-- Reads a type up to where an array of it may begin; `read` reads types within it. -/
noncomputable def readHead (read : List String → Option (Ty × List String)) :
    List String → Option (Ty × List String)
  | [] => none
  | w :: rest =>
    if w = "enum" then
      rest.head?.map fun name => (.enum name (dict.variants name), rest.tail)
    else if w = "function" then
      rest.head?.map fun kind =>
        (.function (if kind = "internal" then .internal else .external), rest.tail)
    else if w = "struct" then do
      let name ← rest.head?
      let location ← rest.tail.head? >>= locationOf?
      return (.struct (dict.decl name) location, rest.drop 2)
    else if w = "mapping" then do
      let (key, rest) ← read rest
      let (value, rest) ← read (rest.drop 3)
      return (.mapping key value, rest.tail)
    else some (dict.ofWord w, rest)

/-- Reads a type that is no tuple.  The first argument bounds how deep types are nested. -/
noncomputable def read : Nat → List String → Option (Ty × List String)
  | 0, _ => none
  | fuel + 1, ws => (dict.readHead (read fuel) ws).map fun x => readArrays x.1 x.2

/-- Reads the types in a tuple and the empty word behind them.  The second argument bounds how many
there are. -/
noncomputable def readComponents (fuel : Nat) : Nat → List String → Option (List Ty × List String)
  | 0, _ => none
  | count + 1, ws =>
    if ws.head? = some "" then some ([], ws.tail)
    else do
      let (ty, rest) ← dict.read fuel ws
      let (tys, rest) ← readComponents fuel count rest
      return (ty :: tys, rest)

/-- Reads a type. -/
noncomputable def readOperand (fuel : Nat) (ws : List String) : Option (Ty × List String) :=
  if ws.head? = some "" then
    if ws.tail.head? = some "" then some (.tuple [], ws.drop 3)
    else (dict.readComponents fuel fuel ws.tail).map fun x => (.tuple x.1, x.2)
  else dict.read fuel ws

end Dictionary

/-! ## Where a type begins -/

section Begin

variable {dict : Dictionary} {structs : StructTable}

/-- The first word of a type is neither empty nor a data location. -/
theorem Ty.IsSpelled.head_words {ty : Ty} (h : IsSpelled dict structs ty) :
    ∃ w ws, ty.words structs = w :: ws ∧ w ≠ "" ∧ locationOf? w = none := by
  induction h with
  | elementary h =>
    have hmem := elementaryText_notMem h
    refine ⟨_, _, words_of_isElementary h, fun hne => hmem (by simp [hne]), ?_⟩
    rw [Option.eq_none_iff_forall_ne_some]
    intro location hlocation
    cases location <;> exact hmem (by simp [eq_name_of_locationOf? hlocation, DataLocation.name])
  | enum h => exact ⟨_, _, rfl, by simp, by simp [locationOf?]⟩
  | @named name h hreserved =>
    refine ⟨name, [], rfl, h.2, ?_⟩
    by_contra hlocation
    exact hreserved (.inr (.inl hlocation))
  | function kind => cases kind <;> exact ⟨_, _, rfl, by simp, by simp [locationOf?]⟩
  | struct location h => exact ⟨_, _, rfl, by simp, by simp [locationOf?]⟩
  | array length location h ih =>
    obtain ⟨w, ws, hwords, hw⟩ := ih
    exact ⟨w, _, by rw [words, hwords, List.cons_append], hw⟩
  | mapping hkey hvalue => exact ⟨_, _, rfl, by simp, by simp [locationOf?]⟩

/-- A type may follow a type. -/
theorem Ty.IsSpelled.canFollow_words {ty : Ty} (h : IsSpelled dict structs ty)
    (rest : List String) : CanFollow (ty.words structs ++ rest) := by
  obtain ⟨w, ws, hwords, hne, hlocation⟩ := h.head_words
  rw [hwords, List.cons_append]
  exact canFollow_cons hne hlocation _

/-- A number of elements may follow a type. -/
theorem canFollow_length (length : Option Nat) (rest : List String) :
    CanFollow ((length.map toString).getD "" :: "" :: rest) := by
  refine ⟨?_, fun _ w hw => by rw [← Option.some.inj hw]; simp [locationOf?]⟩
  cases length with
  | none => simp [locationOf?]
  | some n =>
    rw [Option.eq_none_iff_forall_ne_some]
    intro location hlocation
    have hname : n.repr = location.name := eq_name_of_locationOf? hlocation
    -- the first letter of the name is no digit
    obtain ⟨c, hc, hdigit⟩ : ∃ c ∈ location.name.toList, c.isDigit = false := by
      cases location <;> simp [DataLocation.name]
    rw [isDigit_of_mem_repr (hname ▸ hc)] at hdigit
    contradiction

/-- A type ends the type before it. -/
theorem Ty.IsSpelled.endsType_words {ty : Ty} (h : IsSpelled dict structs ty) {rest : List String}
    (hrest : CanFollow rest) : EndsType (ty.words structs ++ rest) := by
  induction h generalizing rest with
  | elementary h =>
    rw [words_of_isElementary h]
    exact hrest.endsType_cons _
  | enum h => exact endsType_of fun location _ hgap => absurd (Option.some.inj hgap) h.2
  | named h => exact hrest.endsType_cons _
  | function kind =>
    cases kind <;> exact endsType_of fun location _ hgap => absurd (Option.some.inj hgap) (by simp)
  | struct location h => exact endsType_of fun location _ hgap => absurd (Option.some.inj hgap) h.2
  | array length location h ih =>
    rw [words, List.append_assoc]
    exact ih (canFollow_length _ _)
  | @mapping key value hkey hvalue =>
    obtain ⟨w, ws, hwords, hne, -⟩ := hkey.head_words
    rw [words, hwords]
    exact endsType_of fun location _ hgap => absurd (Option.some.inj hgap) hne

end Begin

/-! ## What is written is read -/

section Read

variable {dict : Dictionary} {structs : StructTable}

/-- A type is read before the arrays of it. -/
theorem Dictionary.read_succ (fuel : Nat) (ws : List String) :
    dict.read (fuel + 1) ws =
      (dict.readHead (dict.read fuel) ws).map fun x => readArrays x.1 x.2 := rfl

/-- A type of one word is read. -/
theorem Dictionary.readHead_ofWord (read : List String → Option (Ty × List String)) {w : String}
    (h : w ∉ ["enum", "function", "struct", "mapping"]) (rest : List String) :
    dict.readHead read (w :: rest) = some (dict.ofWord w, rest) := by
  simp only [List.mem_cons, List.not_mem_nil, or_false, not_or] at h
  rw [readHead, if_neg h.1, if_neg h.2.1, if_neg h.2.2.1, if_neg h.2.2.2]

/-- As much fuel as a type has words is some. -/
theorem exists_fuel {ty : Ty} {fuel : Nat} (h : (ty.words structs).length ≤ fuel) :
    ∃ k, fuel = k + 1 := by
  have hpos : 0 < (ty.words structs).length := List.length_pos_of_ne_nil (words_ne_nil ty)
  exact ⟨fuel - 1, by omega⟩

/-- The words of a type are read as the type, and then as an array of it if what follows says so.

**Proof sketch.**  Induction on the type.  What follows the element of an array is read as an array of
it, so nothing is asked of it but that it may follow; the types within a mapping are followed by empty
words, which end them. -/
theorem Ty.IsSpelled.read_words_arrays {ty : Ty} (h : IsSpelled dict structs ty) {rest : List String}
    (hrest : CanFollow rest) {fuel : Nat} (hfuel : (ty.words structs).length ≤ fuel) :
    dict.read fuel (ty.words structs ++ rest) = some (readArrays ty rest) := by
  induction h generalizing rest fuel with
  | elementary h =>
    obtain ⟨fuel, rfl⟩ := exists_fuel hfuel
    have hword : (elementaryText _) ∉ ["enum", "function", "struct", "mapping"] :=
      fun hmem => elementaryText_notMem h (by simp at hmem ⊢; tauto)
    rw [words_of_isElementary h, List.singleton_append, Dictionary.read_succ,
      Dictionary.readHead_ofWord _ hword, dict.ofWord_elementaryText h]
    rfl
  | @named name h hreserved =>
    obtain ⟨fuel, rfl⟩ := exists_fuel hfuel
    have hwords : (Ty.named name (dict.underlying name)).words structs ++ rest = name :: rest := rfl
    rw [hwords, Dictionary.read_succ,
      Dictionary.readHead_ofWord _ fun hmem => hreserved (.inl hmem),
      dict.ofWord_of_not_isReserved hreserved]
    rfl
  | enum h =>
    obtain ⟨fuel, rfl⟩ := exists_fuel hfuel
    simp [Dictionary.read_succ, Dictionary.readHead, words]
  | function kind =>
    obtain ⟨fuel, rfl⟩ := exists_fuel hfuel
    cases kind <;> simp [Dictionary.read_succ, Dictionary.readHead, words]
  | struct location h hdecl =>
    obtain ⟨fuel, rfl⟩ := exists_fuel hfuel
    simp [Dictionary.read_succ, Dictionary.readHead, words, hdecl]
  | @array element length location h ih =>
    rw [words, List.length_append] at hfuel
    have hwords : (Ty.array element length location).words structs ++ rest =
        element.words structs ++ (length.map toString).getD "" :: "" :: location.name :: rest := by
      simp [words]
    rw [hwords, ih (canFollow_length _ _) (by omega)]
    have hlength : ((length.map toString).getD "").toNat? = length := by
      cases length with
      | none => exact (show "".toNat? = none by cbv)
      | some n => exact Nat.toNat?_repr n
    simp [readArrays, hlength]
  | @mapping key value hkey hvalue ihkey ihvalue =>
    simp only [words, List.length_append, List.length_cons] at hfuel
    obtain ⟨fuel, rfl⟩ : ∃ k, fuel = k + 1 := ⟨fuel - 1, by omega⟩
    have hafter : CanFollow ("" :: "" :: (value.words structs ++ "" :: rest)) :=
      (hvalue.canFollow_words _).cons_empty.cons_empty
    have hreadKey : dict.read fuel
        (key.words structs ++ "" :: "" :: "" :: (value.words structs ++ "" :: rest)) =
          some (key, "" :: "" :: "" :: (value.words structs ++ "" :: rest)) := by
      rw [ihkey hafter.cons_empty (by omega), hafter.endsType_cons]
    have hreadValue : dict.read fuel (value.words structs ++ "" :: rest) =
        some (value, "" :: rest) := by
      rw [ihvalue hrest.cons_empty (by omega), hrest.endsType_cons]
    have hwords : (Ty.mapping key value).words structs ++ rest =
        "mapping" :: (key.words structs ++ "" :: "" :: "" :: (value.words structs ++ "" :: rest)) := by
      simp [words]
    rw [hwords, Dictionary.read_succ, Dictionary.readHead]
    simp [hreadKey, hreadValue]

/-- The words of a type are read as the type, where what follows ends it. -/
theorem Ty.IsSpelled.read_words {ty : Ty} (h : IsSpelled dict structs ty) {rest : List String}
    (hrest : CanFollow rest) (hends : EndsType rest) {fuel : Nat}
    (hfuel : (ty.words structs).length ≤ fuel) :
    dict.read fuel (ty.words structs ++ rest) = some (ty, rest) := by
  rw [h.read_words_arrays hrest hfuel, hends]

/-! ### Tuples -/

/-- What follows a type in a tuple is the next type, or the empty word at the end. -/
theorem canFollow_components {components : List Ty}
    (h : ∀ ty ∈ components, IsSpelled dict structs ty) {rest : List String} (hrest : CanFollow rest) :
    CanFollow (components.flatMap (words structs) ++ "" :: rest) ∧
      EndsType (components.flatMap (words structs) ++ "" :: rest) := by
  induction components with
  | nil => exact ⟨hrest.cons_empty, hrest.endsType_cons ""⟩
  | cons ty tys ih =>
    have hty := h ty List.mem_cons_self
    have hafter := (ih fun ty' h' => h ty' (List.mem_cons_of_mem _ h')).1
    rw [List.flatMap_cons, List.append_assoc]
    exact ⟨hty.canFollow_words _, hty.endsType_words hafter⟩

/-- The types in a tuple are read. -/
theorem readComponents_words {components : List Ty} (h : ∀ ty ∈ components, IsSpelled dict structs ty)
    {rest : List String} (hrest : CanFollow rest) {fuel count : Nat}
    (hfuel : (components.flatMap (words structs)).length ≤ fuel) (hcount : components.length < count) :
    dict.readComponents fuel count (components.flatMap (words structs) ++ "" :: rest) =
      some (components, rest) := by
  induction components generalizing count with
  | nil =>
    obtain ⟨count, rfl⟩ : ∃ k, count = k + 1 := ⟨count - 1, by simp at hcount; omega⟩
    simp [Dictionary.readComponents]
  | cons ty tys ih =>
    obtain ⟨count, rfl⟩ : ∃ k, count = k + 1 := ⟨count - 1, by omega⟩
    have hty := h ty List.mem_cons_self
    have htys : ∀ ty' ∈ tys, IsSpelled dict structs ty' :=
      fun ty' h' => h ty' (List.mem_cons_of_mem _ h')
    obtain ⟨w, ws, hwords, hne, -⟩ := hty.head_words
    rw [List.flatMap_cons, List.length_append] at hfuel
    rw [List.length_cons] at hcount
    have hafter := canFollow_components htys hrest
    have hread : dict.read fuel (ty.words structs ++ (tys.flatMap (words structs) ++ "" :: rest)) =
        some (ty, tys.flatMap (words structs) ++ "" :: rest) :=
      hty.read_words hafter.1 hafter.2 (by omega)
    have hhead : (ty.words structs ++ (tys.flatMap (words structs) ++ "" :: rest)).head? ≠ some "" := by
      simpa [hwords] using hne
    rw [List.flatMap_cons, List.append_assoc, Dictionary.readComponents, if_neg hhead, hread]
    have hreadRest : dict.readComponents fuel count (tys.flatMap (words structs) ++ "" :: rest) =
        some (tys, rest) :=
      ih htys (by omega) (by omega)
    simp [hreadRest]

/-- A tuple has as many words as types, or more. -/
theorem length_le_length_flatMap (components : List Ty) :
    components.length ≤ (components.flatMap (words structs)).length := by
  induction components with
  | nil => exact Nat.le_refl _
  | cons ty tys ih =>
    have hpos : 0 < (ty.words structs).length := List.length_pos_of_ne_nil (words_ne_nil ty)
    rw [List.flatMap_cons, List.length_append, List.length_cons]
    omega

/-- An operand may follow an operand. -/
theorem Ty.IsSpelledOperand.canFollow_words {ty : Ty} (h : IsSpelledOperand dict structs ty)
    {rest : List String} (hrest : CanFollow rest) : CanFollow (ty.operandWords structs ++ rest) ∧
      EndsType (ty.operandWords structs ++ rest) := by
  cases h with
  | ofTy h =>
    rw [h.operandWords_eq]
    exact ⟨h.canFollow_words rest, h.endsType_words hrest⟩
  | @tuple components h =>
    have hinner : CanFollow (tupleWords structs components ++ "" :: rest) := by
      rw [tupleWords]
      split
      · exact hrest.cons_empty.cons_empty
      · exact (canFollow_components h hrest).1
    rw [operandWords, List.append_assoc]
    exact ⟨hinner.cons_empty, hinner.endsType_cons ""⟩

/-- The words of an operand are read as the operand, where what follows ends it. -/
theorem Ty.IsSpelledOperand.readOperand_words {ty : Ty} (h : IsSpelledOperand dict structs ty)
    {rest : List String} (hrest : CanFollow rest) (hends : EndsType rest) {fuel : Nat}
    (hfuel : (ty.operandWords structs).length ≤ fuel) :
    dict.readOperand fuel (ty.operandWords structs ++ rest) = some (ty, rest) := by
  cases h with
  | ofTy h =>
    obtain ⟨w, ws, hwords, hne, -⟩ := h.head_words
    rw [h.operandWords_eq] at hfuel ⊢
    have hhead : (ty.words structs ++ rest).head? ≠ some "" := by simpa [hwords] using hne
    rw [Dictionary.readOperand, if_neg hhead, h.read_words hrest hends hfuel]
  | @tuple components h =>
    rw [operandWords] at hfuel ⊢
    cases components with
    | nil => simp [Dictionary.readOperand, tupleWords]
    | cons ty tys =>
      have htuple : tupleWords structs (ty :: tys) = (ty :: tys).flatMap (words structs) :=
        if_neg (List.cons_ne_nil _ _)
      have hlength : (ty :: tys).length ≤ ((ty :: tys).flatMap (words structs)).length :=
        length_le_length_flatMap _
      rw [htuple, List.length_append, List.length_cons] at hfuel
      have hread : dict.readComponents fuel fuel ((ty :: tys).flatMap (words structs) ++ "" :: rest) =
          some (ty :: tys, rest) :=
        readComponents_words h hrest (by omega) (by omega)
      obtain ⟨w, ws, hwords, hne, -⟩ := (h ty List.mem_cons_self).head_words
      have hhead : ((ty :: tys).flatMap (words structs) ++ "" :: rest).head? ≠ some "" := by
        simpa [hwords] using hne
      rw [htuple, List.append_assoc, List.cons_append, List.singleton_append, Dictionary.readOperand]
      simp only [List.head?_cons, List.tail_cons, if_true, if_neg hhead, hread, Option.map_some]

/-- Sequences of types differ in their words. -/
theorem Ty.operands_inj {types types' : List Ty}
    (h : ∀ ty ∈ types, IsSpelledOperand dict structs ty)
    (h' : ∀ ty ∈ types', IsSpelledOperand dict structs ty)
    (heq : types.flatMap (operandWords structs) = types'.flatMap (operandWords structs)) :
    types = types' := by
  -- nothing, or another operand, comes after each operand
  have hafter : ∀ {types : List Ty}, (∀ ty ∈ types, IsSpelledOperand dict structs ty) →
      CanFollow (types.flatMap (operandWords structs)) ∧
        EndsType (types.flatMap (operandWords structs)) := by
    intro types h
    induction types with
    | nil => exact ⟨trivial, endsType_nil⟩
    | cons ty tys ih =>
      exact (h ty List.mem_cons_self).canFollow_words
        (ih fun ty' hty' => h ty' (List.mem_cons_of_mem _ hty')).1
  induction types generalizing types' with
  | nil =>
    cases types' with
    | nil => rfl
    | cons ty tys => simp [operandWords_ne_nil] at heq
  | cons ty tys ih =>
    cases types' with
    | nil => simp [operandWords_ne_nil] at heq
    | cons ty' tys' =>
      have htys : ∀ t ∈ tys, IsSpelledOperand dict structs t :=
        fun t ht => h t (List.mem_cons_of_mem _ ht)
      have htys' : ∀ t ∈ tys', IsSpelledOperand dict structs t :=
        fun t ht => h' t (List.mem_cons_of_mem _ ht)
      have hread := (h ty List.mem_cons_self).readOperand_words (hafter htys).1 (hafter htys).2
        (Nat.le_add_right _ (ty'.operandWords structs).length)
      have hread' := (h' ty' List.mem_cons_self).readOperand_words (hafter htys').1 (hafter htys').2
        (Nat.le_add_left _ (ty.operandWords structs).length)
      rw [← List.flatMap_cons, heq, List.flatMap_cons, hread'] at hread
      obtain ⟨rfl, hrest⟩ := Prod.mk.inj (Option.some.inj hread)
      rw [ih htys htys' hrest.symm]

end Read

end WordPlaces
