import Mathlib
import WordPlaces.Ty.Display

/-!
# The words of a type

In the name of a routine the text of a type is written in letters, digits and underscores only.  It is
then a sequence of words with underscores between them: the names and numbers in the text, and an empty
word wherever two other characters of the text meet.

## Main definitions

* `foldChar`, `foldText` — a text in letters, digits and underscores.
* `IsWord` — texts of letters and digits.
* `Ty.isElementary` — the types that are written as one word that is no name.
* `Dictionary` — what names stand for.
* `Ty.IsSpelled`, `Ty.IsSpelledOperand` — the names in a type are words that stand for what the
  dictionary says.
* `Ty.words`, `Ty.operandWords` — the words of a type, without and with those of tuples.

## Main results

* `eq_of_intercalate_eq` — joined words are told apart.
* `Ty.elementaryText_inj` — elementary types differ in their texts.
* `Ty.IsSpelledOperand.isWord_of_mem_words` — the words of a type are words.
* `Ty.IsSpelledOperand.foldText_display` — the folded text of a type is its words, joined.
-/

set_option autoImplicit false

namespace WordPlaces

/-! ## Folding -/

/-- A character in letters, digits and underscores. -/
def foldChar (c : Char) : Char := if c.isAlphanum then c else '_'

/-- A text in letters, digits and underscores. -/
def foldText (s : String) : String := s.map foldChar

/-- Texts one after the other are folded one after the other. -/
theorem foldText_append (s t : String) : foldText (s ++ t) = foldText s ++ foldText t := by
  rw [← String.toList_inj]
  simp [foldText, String.toList_map]

/-- A text of letters and digits. -/
def IsWord (w : String) : Prop := ∀ c ∈ w.toList, c.isAlphanum = true

/-- Two words without anything between them are a word. -/
theorem IsWord.append {v w : String} (hv : IsWord v) (hw : IsWord w) : IsWord (v ++ w) := by
  intro c hc
  rw [String.toList_append, List.mem_append] at hc
  exact hc.elim (hv c) (hw c)

/-- A word stays as it is. -/
theorem IsWord.foldText {w : String} (hw : IsWord w) : foldText w = w := by
  rw [← String.toList_inj, WordPlaces.foldText, String.toList_map]
  exact (List.map_congr_left fun c hc => if_pos (hw c hc)).trans (List.map_id _)

/-- A number is written in digits. -/
theorem isDigit_of_mem_repr {n : Nat} {c : Char} (h : c ∈ n.repr.toList) : c.isDigit = true := by
  rw [Nat.toList_repr] at h
  exact Nat.isDigit_of_mem_toDigits (by decide) (by decide) h

/-- A number is written as a word. -/
theorem isWord_repr (n : Nat) : IsWord n.repr := by
  intro c hc
  rw [Char.isAlphanum, isDigit_of_mem_repr hc, Bool.or_true]

/-- Numbers before and after a text that does not start with a digit. -/
theorem repr_append_inj (sep : String) {c : Char} {rest : List Char} (hsep : sep.toList = c :: rest)
    (hc : c.isDigit = false) {m n m' n' : Nat} (h : m.repr ++ sep ++ n.repr = m'.repr ++ sep ++ n'.repr) :
    m = m' ∧ n = n' := by
  have before (m n : Nat) :
      (m.repr ++ sep ++ n.repr).toList.takeWhile Char.isDigit = m.repr.toList := by
    rw [String.append_assoc, String.toList_append,
      List.takeWhile_append_of_pos fun _ => isDigit_of_mem_repr, String.toList_append, hsep,
      List.cons_append, List.takeWhile_cons_of_neg (by rw [hc]; exact Bool.false_ne_true)]
    exact List.append_nil _
  have hm : m = m' := by
    have hlist := before m n
    rw [h, before m' n'] at hlist
    exact Nat.repr_inj.1 (String.toList_injective hlist.symm)
  subst hm
  exact ⟨rfl, Nat.repr_inj.1 ((String.append_right_inj _).1 h)⟩

/-- There is no underscore in a word. -/
theorem IsWord.underscore_notMem {w : String} (hw : IsWord w) : '_' ∉ w.toList :=
  fun h => absurd (hw '_' h) (by decide)

/-- Joined words are told apart. -/
theorem eq_of_intercalate_eq {ws ws' : List String} (h : ∀ w ∈ ws, IsWord w)
    (h' : ∀ w ∈ ws', IsWord w) (hne : ws ≠ []) (hne' : ws' ≠ [])
    (heq : "_".intercalate ws = "_".intercalate ws') : ws = ws' := by
  have split : ∀ {ws : List String}, (∀ w ∈ ws, IsWord w) → ws ≠ [] →
      ("_".intercalate ws).toList.splitOn '_' = ws.map String.toList := by
    intro ws hws hne
    rw [String.toList_intercalate]
    refine List.splitOn_intercalate '_' (fun l hl => ?_) (by simpa using hne)
    obtain ⟨w, hw, rfl⟩ := List.mem_map.1 hl
    exact (hws w hw).underscore_notMem
  have hmap := split h hne
  rw [heq, split h' hne'] at hmap
  exact List.map_injective_iff.2 (fun _ _ => String.toList_injective) hmap.symm

/-! ## Elementary types -/

namespace Ty

/-- The type is written as one word that is no name. -/
def isElementary : Ty → Bool
  | .bool | .int .. | .address | .fixedBytes _ | .fixedPoint .. => true
  | _ => false

/-- The text of an elementary type, in which no declarations occur. -/
def elementaryText (ty : Ty) : String := ty.display default

/-- The text of an elementary type does not depend on the structs. -/
theorem display_of_isElementary {ty : Ty} (h : ty.isElementary = true) (structs : StructTable) :
    ty.display structs = ty.elementaryText := by
  cases ty <;> first | rfl | contradiction

/-- The text of an integer type. -/
theorem elementaryText_int (bits : Nat) (signed : Bool) :
    (Ty.int bits signed).elementaryText = (if signed then "int" else "uint") ++ bits.repr := by
  cases signed <;> rfl

/-- The text of a type of some bytes. -/
theorem elementaryText_fixedBytes (count : Nat) :
    (Ty.fixedBytes count).elementaryText = "bytes" ++ count.repr := rfl

/-- The text of a fixed-point type. -/
theorem elementaryText_fixedPoint (bits digits : Nat) (signed : Bool) :
    (Ty.fixedPoint bits digits signed).elementaryText =
      (if signed then "fixed" else "ufixed") ++ bits.repr ++ "x" ++ digits.repr := by
  cases signed <;> rfl

/-- The text of an elementary type is a word. -/
theorem isWord_elementaryText {ty : Ty} (h : ty.isElementary = true) : IsWord ty.elementaryText := by
  cases ty with
  | bool => simp [IsWord, elementaryText, display]
  | address => simp [IsWord, elementaryText, display]
  | int bits signed =>
    rw [elementaryText_int]
    exact .append (by cases signed <;> simp [IsWord]) (isWord_repr bits)
  | fixedBytes count =>
    rw [elementaryText_fixedBytes]
    exact .append (by simp [IsWord]) (isWord_repr count)
  | fixedPoint bits digits signed =>
    rw [elementaryText_fixedPoint]
    exact .append (.append (.append (by cases signed <;> simp [IsWord]) (isWord_repr bits))
      (by simp [IsWord])) (isWord_repr digits)
  | _ => contradiction

/-- The first two letters of the text of an elementary type. -/
def mark : Ty → List Char
  | .bool => ['b', 'o']
  | .int _ signed => if signed then ['i', 'n'] else ['u', 'i']
  | .address => ['a', 'd']
  | .fixedBytes _ => ['b', 'y']
  | .fixedPoint _ _ signed => if signed then ['f', 'i'] else ['u', 'f']
  | _ => []

/-- The text of an elementary type begins with its mark. -/
theorem take_elementaryText {ty : Ty} (h : ty.isElementary = true) :
    ty.elementaryText.toList.take 2 = ty.mark := by
  cases ty with
  | bool => simp [elementaryText, display, mark]
  | address => simp [elementaryText, display, mark]
  | int bits signed => cases signed <;> simp [elementaryText_int, mark]
  | fixedBytes count => simp [elementaryText_fixedBytes, mark]
  | fixedPoint bits digits signed => cases signed <;> simp [elementaryText_fixedPoint, mark]
  | _ => contradiction

/-- The marks that there are. -/
theorem mark_mem {ty : Ty} (h : ty.isElementary = true) :
    ty.mark ∈ [['b', 'o'], ['i', 'n'], ['u', 'i'], ['a', 'd'], ['b', 'y'], ['f', 'i'], ['u', 'f']] := by
  cases ty with
  | int bits signed => cases signed <;> simp [mark]
  | fixedPoint bits digits signed => cases signed <;> simp [mark]
  | bool | address | fixedBytes => simp [mark]
  | _ => contradiction

/-- The text of an elementary type is none of the words in the texts of the others. -/
theorem elementaryText_notMem {ty : Ty} (h : ty.isElementary = true) :
    ty.elementaryText ∉
      ["", "enum", "function", "struct", "mapping", "storage", "memory", "calldata"] := by
  intro hmem
  have hmark := mark_mem h
  rw [← take_elementaryText h] at hmark
  simp only [List.mem_cons, List.not_mem_nil, or_false] at hmem
  rcases hmem with hw | hw | hw | hw | hw | hw | hw | hw <;> simp [hw] at hmark

/-- Elementary types differ in their texts. -/
theorem elementaryText_inj {a b : Ty} (ha : a.isElementary = true) (hb : b.isElementary = true)
    (h : a.elementaryText = b.elementaryText) : a = b := by
  have hmark : a.mark = b.mark := by rw [← take_elementaryText ha, h, take_elementaryText hb]
  cases a with
  | bool | address => cases b <;> grind [mark, isElementary]
  | int bits signed =>
    cases b with
    | int bits' signed' =>
      obtain rfl : signed = signed' := by cases signed <;> cases signed' <;> simp_all [mark]
      rw [elementaryText_int, elementaryText_int, String.append_right_inj, Nat.repr_inj] at h
      rw [h]
    | _ => grind [mark, isElementary]
  | fixedBytes count =>
    cases b with
    | fixedBytes count' =>
      rw [elementaryText_fixedBytes, elementaryText_fixedBytes, String.append_right_inj,
        Nat.repr_inj] at h
      rw [h]
    | _ => grind [mark, isElementary]
  | fixedPoint bits digits signed =>
    cases b with
    | fixedPoint bits' digits' signed' =>
      obtain rfl : signed = signed' := by cases signed <;> cases signed' <;> simp_all [mark]
      rw [elementaryText_fixedPoint, elementaryText_fixedPoint, String.append_assoc,
        String.append_assoc, String.append_assoc, String.append_assoc, String.append_right_inj,
        ← String.append_assoc, ← String.append_assoc] at h
      obtain ⟨rfl, rfl⟩ := repr_append_inj "x" rfl rfl h
      rfl
    | _ => grind [mark, isElementary]
  | _ => contradiction

end Ty

/-! ## Names -/

/-- What names stand for: every name is that of one struct, of one enum and of one type. -/
structure Dictionary where
  decl : String → StructId
  variants : String → Nat
  underlying : String → Ty

/-- The data location with the given name. -/
def locationOf? (w : String) : Option DataLocation :=
  if w = "storage" then some .storage
  else if w = "memory" then some .memory
  else if w = "calldata" then some .calldata
  else none

/-- The name of a data location is that location's. -/
@[simp] theorem locationOf?_name (location : DataLocation) :
    locationOf? location.name = some location := by
  cases location <;> simp [locationOf?, DataLocation.name]

/-- A data location is found by its name only. -/
theorem eq_name_of_locationOf? {w : String} {location : DataLocation}
    (h : locationOf? w = some location) : w = location.name := by
  unfold locationOf? at h
  split_ifs at h with h1 h2 h3 <;> obtain rfl := Option.some.inj h <;> assumption

/-- Names are words that are not empty. -/
def IsName (w : String) : Prop := IsWord w ∧ w ≠ ""

/-- Words that do not name a type because they are written in types of other kinds. -/
def IsReserved (w : String) : Prop :=
  w ∈ ["enum", "function", "struct", "mapping"] ∨ locationOf? w ≠ none ∨
    ∃ ty : Ty, ty.isElementary = true ∧ ty.elementaryText = w

namespace Ty

section Words

variable (dict : Dictionary) (structs : StructTable)

/-- The names in the type stand for what the dictionary says, those of types are not reserved, and
there are no tuples. -/
inductive IsSpelled : Ty → Prop
  | elementary {ty : Ty} (h : ty.isElementary = true) : IsSpelled ty
  | enum {name : String} (h : IsName name) : IsSpelled (.enum name (dict.variants name))
  | named {name : String} (h : IsName name) (hreserved : ¬ IsReserved name) :
    IsSpelled (.named name (dict.underlying name))
  | function (kind : FunctionKind) : IsSpelled (.function kind)
  | struct {d : StructId} (location : DataLocation) (h : IsName (structs.decl d).name)
    (hdecl : dict.decl (structs.decl d).name = d) : IsSpelled (.struct d location)
  | array {element : Ty} (length : Option Nat) (location : DataLocation)
    (h : IsSpelled element) : IsSpelled (.array element length location)
  | mapping {key value : Ty} (hkey : IsSpelled key) (hvalue : IsSpelled value) :
    IsSpelled (.mapping key value)

/-- The same, where the type may be a tuple of such types. -/
inductive IsSpelledOperand : Ty → Prop
  | ofTy {ty : Ty} (h : IsSpelled dict structs ty) : IsSpelledOperand ty
  | tuple {components : List Ty} (h : ∀ ty ∈ components, IsSpelled dict structs ty) :
    IsSpelledOperand (.tuple components)

/-- The words of a type that is no tuple. -/
def words : Ty → List String
  | .enum name _ => ["enum", name]
  | .function .internal => ["function", "internal"]
  | .function .external => ["function", "external"]
  | .array element length location =>
    element.words ++ [(length.map toString).getD "", "", location.name]
  | .struct d location => ["struct", (structs.decl d).name, location.name]
  | .mapping key value => "mapping" :: key.words ++ "" :: "" :: "" :: value.words ++ [""]
  | ty => [ty.display structs]

/-- The words of the types in a tuple. -/
def tupleWords (components : List Ty) : List String :=
  if components = [] then [""] else components.flatMap (words structs)

/-- The words of a type. -/
def operandWords : Ty → List String
  | .tuple components => "" :: tupleWords structs components ++ [""]
  | ty => ty.words structs

variable {dict structs}

/-- Every type has a word. -/
theorem words_ne_nil (ty : Ty) : ty.words structs ≠ [] := by
  cases ty with
  | function kind => cases kind <;> simp [words]
  | _ => simp [words]

/-- Every operand has a word. -/
theorem operandWords_ne_nil (ty : Ty) : ty.operandWords structs ≠ [] := by
  cases ty with
  | tuple components => simp [operandWords]
  | _ => exact words_ne_nil _

/-- The name of a data location is a word. -/
theorem isWord_name (location : DataLocation) : IsWord location.name := by
  cases location <;> simp [IsWord, DataLocation.name]

/-- The number of elements of an array is written as a word. -/
theorem isWord_length (length : Option Nat) : IsWord ((length.map toString).getD "") := by
  cases length with
  | none => simp [IsWord]
  | some n => exact isWord_repr n

/-- An elementary type is written as one word. -/
theorem words_of_isElementary {ty : Ty} (h : ty.isElementary = true) :
    ty.words structs = [ty.elementaryText] := by
  cases ty <;> first | rfl | contradiction

/-- The words of a type are words. -/
theorem IsSpelled.isWord_of_mem_words {ty : Ty} (h : IsSpelled dict structs ty) :
    ∀ w ∈ ty.words structs, IsWord w := by
  have hempty : IsWord "" := by simp [IsWord]
  induction h with
  | elementary h =>
    rw [words_of_isElementary h]
    exact List.forall_mem_singleton.2 (isWord_elementaryText h)
  | enum h => simpa [words, IsWord] using h.1
  | named h => simpa [words, display] using h.1
  | function kind => cases kind <;> simp [words, IsWord]
  | struct location h =>
    simp only [words, List.forall_mem_cons, List.not_mem_nil, false_implies, implies_true, and_true]
    exact ⟨by simp [IsWord], h.1, isWord_name location⟩
  | array length location h ih =>
    simp only [words, List.forall_mem_append, List.forall_mem_cons, List.not_mem_nil, false_implies,
      implies_true, and_true]
    exact ⟨ih, isWord_length length, hempty, isWord_name location⟩
  | mapping hkey hvalue ihkey ihvalue =>
    intro w hw
    simp only [words, List.mem_append, List.mem_cons, List.not_mem_nil, or_false] at hw
    rcases hw with ((rfl | hw) | rfl | rfl | rfl | hw) | rfl
    · simp [IsWord]
    · exact ihkey w hw
    · exact hempty
    · exact hempty
    · exact hempty
    · exact ihvalue w hw
    · exact hempty

/-- The folded text of a type is its words, joined. -/
theorem IsSpelled.foldText_display {ty : Ty} (h : IsSpelled dict structs ty) :
    foldText (ty.display structs) = "_".intercalate (ty.words structs) := by
  induction h with
  | elementary h =>
    rw [words_of_isElementary h, display_of_isElementary h, (isWord_elementaryText h).foldText,
      String.intercalate_singleton]
  | @enum name h =>
    have htext : (Ty.enum name (dict.variants name)).display structs = "enum " ++ name := rfl
    rw [htext, foldText_append, h.1.foldText, words, String.intercalate_cons_cons,
      String.intercalate_singleton]
    simp only [show foldText "enum " = "enum" ++ "_" by cbv, String.append_assoc]
  | @named name h =>
    have htext : (Ty.named name (dict.underlying name)).display structs = name := rfl
    have hwords : (Ty.named name (dict.underlying name)).words structs = [name] := rfl
    rw [htext, hwords, h.1.foldText, String.intercalate_singleton]
  | function kind => cases kind <;> cbv
  | @struct d location h =>
    have htext : (Ty.struct d location).display structs =
        "struct " ++ (structs.decl d).name ++ " " ++ location.name := rfl
    simp only [htext, foldText_append, h.1.foldText, (isWord_name location).foldText, words,
      String.intercalate_cons_cons, String.intercalate_singleton, String.append_assoc,
      show foldText "struct " = "struct" ++ "_" by cbv, show foldText " " = "_" by cbv]
  | @array element length location h ih =>
    have hne : [(length.map toString).getD "", "", location.name] ≠ [] := List.cons_ne_nil _ _
    simp only [display, foldText_append, ih, (isWord_length length).foldText,
      (isWord_name location).foldText, words,
      String.intercalate_append_of_ne_nil (words_ne_nil element) hne,
      String.intercalate_cons_cons, String.intercalate_singleton, String.append_assoc,
      String.empty_append, show foldText "[" = "_" by cbv, show foldText "] " = "_" ++ "_" by cbv]
  | @mapping key value hkey hvalue ihkey ihvalue =>
    rw [words, String.intercalate_append_of_ne_nil (by simp) (List.cons_ne_nil _ _),
      String.intercalate_append_of_ne_nil (List.cons_ne_nil _ _) (List.cons_ne_nil _ _),
      String.intercalate_cons_of_ne_nil (words_ne_nil key)]
    simp only [display, foldText_append, ihkey, ihvalue, String.intercalate_cons_cons,
      String.intercalate_cons_of_ne_nil (words_ne_nil value), String.intercalate_singleton,
      String.append_assoc, String.empty_append, String.append_empty,
      show foldText "mapping(" = "mapping" ++ "_" by cbv,
      show foldText " => " = "_" ++ ("_" ++ ("_" ++ "_")) by cbv, show foldText ")" = "_" by cbv]

/-! ### Tuples -/

/-- The components of a tuple are written as types. -/
theorem displays_eq_map (components : List Ty) :
    display.displays structs components = components.map (display structs) := by
  induction components with
  | nil => rfl
  | cons ty tys ih => rw [display.displays, ih, List.map_cons]

/-- A list with commas is folded into one with underscores. -/
theorem foldText_intercalate (texts : List String) :
    foldText (",".intercalate texts) = "_".intercalate (texts.map foldText) := by
  induction texts with
  | nil => cbv
  | cons text texts ih =>
    cases texts with
    | nil => simp
    | cons text' texts =>
      simp only [String.intercalate_cons_cons, foldText_append, ih, List.map_cons,
        show foldText "," = "_" by cbv]

/-- Joining what is joined. -/
theorem intercalate_map_words (components : List Ty) :
    "_".intercalate (components.map fun ty => "_".intercalate (ty.words structs)) =
      "_".intercalate (components.flatMap (words structs)) := by
  induction components with
  | nil => rfl
  | cons ty tys ih =>
    cases tys with
    | nil => simp
    | cons ty' tys =>
      have hne : (ty' :: tys).flatMap (words structs) ≠ [] := by simp [words_ne_nil]
      rw [List.flatMap_cons, String.intercalate_append_of_ne_nil (words_ne_nil ty) hne, ← ih]
      simp only [List.map_cons, String.intercalate_cons_cons]

/-- A type that is no tuple has the same words as an operand. -/
theorem IsSpelled.operandWords_eq {ty : Ty} (h : IsSpelled dict structs ty) :
    ty.operandWords structs = ty.words structs := by
  cases h with
  | elementary h => cases ty <;> first | rfl | contradiction
  | _ => rfl

/-- The words of an operand are words. -/
theorem IsSpelledOperand.isWord_of_mem_words {ty : Ty} (h : IsSpelledOperand dict structs ty) :
    ∀ w ∈ ty.operandWords structs, IsWord w := by
  have hempty : IsWord "" := by simp [IsWord]
  cases h with
  | ofTy h =>
    rw [h.operandWords_eq]
    exact h.isWord_of_mem_words
  | @tuple components h =>
    have hcomponents : ∀ w ∈ tupleWords structs components, IsWord w := by
      rw [tupleWords]
      split
      · exact List.forall_mem_singleton.2 hempty
      · intro w hw
        obtain ⟨ty, hty, hw⟩ := List.mem_flatMap.1 hw
        exact (h ty hty).isWord_of_mem_words w hw
    intro w hw
    simp only [operandWords, List.cons_append, List.mem_cons, List.mem_append, List.not_mem_nil,
      or_false] at hw
    rcases hw with rfl | hw | rfl
    · exact hempty
    · exact hcomponents w hw
    · exact hempty

/-- The folded text of an operand is its words, joined. -/
theorem IsSpelledOperand.foldText_display {ty : Ty} (h : IsSpelledOperand dict structs ty) :
    foldText (ty.display structs) = "_".intercalate (ty.operandWords structs) := by
  cases h with
  | ofTy h => rw [h.operandWords_eq, h.foldText_display]
  | @tuple components h =>
    have htexts : foldText (",".intercalate (display.displays structs components)) =
        "_".intercalate (tupleWords structs components) := by
      rw [displays_eq_map, foldText_intercalate, List.map_map, tupleWords]
      split
      · rename_i hnil
        rw [hnil]
        cbv
      · rw [← intercalate_map_words]
        exact congrArg _ (List.map_congr_left fun ty hty => (h ty hty).foldText_display)
    have hne : tupleWords structs components ≠ [] := by
      rw [tupleWords]
      split
      · exact List.cons_ne_nil _ _
      · rename_i hnil
        simpa [words_ne_nil] using List.exists_mem_of_ne_nil _ hnil
    rw [operandWords, String.intercalate_append_of_ne_nil (List.cons_ne_nil _ _)
      (List.cons_ne_nil _ _), String.intercalate_cons_of_ne_nil hne, String.intercalate_singleton]
    simp only [display, foldText_append, htexts, String.append_assoc, String.empty_append,
      String.append_empty, show foldText "(" = "_" by cbv, show foldText ")" = "_" by cbv]

end Words

end Ty

end WordPlaces
