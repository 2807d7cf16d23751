import WordPlaces.Proofs.Ty.Interning
import WordPlaces.Proofs.Ty.Words

/-!
# Recursion over numbered types

A question about a numbered type may ask the same question about the numbers that the type mentions.
The numbers get smaller, so that every question is answered, with what it is for the type itself.
Work on the members of a struct goes on to types with greater numbers, since members are relocated;
there it is the numbers of the structs that get smaller.

## Main definitions

* `TypeTable.Query`, `TypeTable.answer` — a recursive question, and its answer within a depth.
* `TypeTable.stackQuery`, `TypeTable.widthQuery`, `TypeTable.slotsQuery`, `TypeTable.encodingQuery`,
  `TypeTable.displayQuery` — the questions about a type.
* `TypeTable.relocateWithin` — relocating a type and its elements, within a depth.
* `TypeTable.Leads` — what a type mentions, what a struct type has as members, what relocating gives.
* `TypeTable.GoesOn` — work on a struct type goes on with one of its members.

## Main results

* `TypeTable.Closed.answer_eq` — a question is answered within a depth above the number.
* `TypeTable.Closed.relocateWithin_eq` — the same for relocating.
* `TypeTable.Closed.lt_of_leads` — what the members of a struct lead to mentions earlier structs only.
* `TypeTable.exists_goesOn`, `TypeTable.wellFounded_goesOn` — work on a struct goes on with the structs
  that it nests, and comes to an end.
* `TypeTable.interns_of_calls` — all of it for the tables that calls lead to.
-/

set_option autoImplicit false

namespace WordPlaces

namespace TypeTable

/-! ## Questions -/

/-- A recursive question: the answer for a level of a type, from the answers for the numbers that are
asked about. -/
abbrev Query (α : Type) := (TypeId → Option α) → TypeInfo → Option α

/-- The answer to a question about a number, if it is found in `depth` levels. -/
def answer {α : Type} (query : Query α) (table : TypeTable) : Nat → TypeId → Option α
  | 0, _ => none
  | depth + 1, id => (table.info? id).bind (query (answer query table depth))

/-- The operand stack slots of a value. -/
def stackQuery : Query Nat
  | _, .function .external => some 2
  | _, .array _ none .calldata => some 2
  | ask, .tuple components => (components.mapM ask).map List.sum
  | _, _ => some 1

/-- The bytes a value takes inside a storage slot. -/
def widthQuery : Query Nat
  | _, .bool => some 1
  | _, .int bits _ | _, .fixedPoint bits _ _ => some (bits / 8 % 256)
  | _, .address => some 20
  | _, .fixedBytes count => some count
  | _, .enum _ variants => some (enumBytes variants)
  | ask, .named _ underlying => ask underlying
  | _, .function .internal => some 8
  | _, .function .external => some 24
  | _, .array .. | _, .struct .. | _, .mapping .. | _, .tuple _ => some 32

/-- The storage slots of a value; `width` answers how many bytes an element takes. -/
def slotsQuery (table : TypeTable) (width : TypeId → Option Nat) : Query (Except Fault Nat)
  | ask, .array element (some length) _ =>
    (width element).bind fun bytes => (ask element).map fun slots =>
      slots.bind fun slots => StructTable.arraySlots ⟨slots, bytes⟩ length
  | _, .struct d _ => (table.struct? d).map fun s => .ok s.layout.slots
  | _, _ => some (.ok 1)

/-- The packed encoding of a value type. -/
def encodingQuery : Query (Except Fault Encoding)
  | _, .bool => some (.ok (.plain 1 .right .notApplicable))
  | _, .address => some (.ok (.plain 20 .right .notApplicable))
  | _, .int bits signed => some (.ok (.plain (bits / 8 % 256) .right (Ty.signednessOf signed)))
  | _, .enum _ variants => some (.ok (.plain (enumBytes variants) .right .unsigned))
  | _, .fixedBytes count => some (.ok (.plain count .left .notApplicable))
  | _, .fixedPoint bits _ signed =>
    some (.ok ⟨bits / 8 % 256, .right, Ty.signednessOf signed, .fixedPoint⟩)
  | ask, .named _ underlying => ask underlying
  | _, .function .internal => some (.ok ⟨8, .right, .notApplicable, .internalFunction⟩)
  | _, .function .external => some (.ok ⟨24, .right, .notApplicable, .externalFunction⟩)
  | _, .array .. | _, .struct .. | _, .mapping .. | _, .tuple _ =>
    some (.error .referenceEncoding)

/-- The text of a type. -/
def displayQuery (table : TypeTable) : Query String
  | _, .bool => some "bool"
  | _, .int bits signed => some s!"{Ty.display.unsignedMark signed}int{bits}"
  | _, .address => some "address"
  | _, .fixedBytes count => some s!"bytes{count}"
  | _, .fixedPoint bits digits signed =>
    some s!"{Ty.display.unsignedMark signed}fixed{bits}x{digits}"
  | _, .enum name _ => some s!"enum {name}"
  | _, .named name _ => some name
  | _, .function .internal => some "function internal"
  | _, .function .external => some "function external"
  | ask, .array element length location => (ask element).map fun element =>
    element ++ "[" ++ (length.map toString).getD "" ++ "] " ++ location.name
  | _, .struct d location =>
    (table.struct? d).map fun s => s!"struct {s.name} {location.name}"
  | ask, .mapping key value => (ask key).bind fun key => (ask value).map fun value =>
    "mapping(" ++ key ++ " => " ++ value ++ ")"
  | ask, .tuple components =>
    (components.mapM ask).map fun texts => "(" ++ ",".intercalate texts ++ ")"

/-! ## Answers -/

/-- The question asks for `f`: from what `f` is for the components, it answers what it is for the
type. -/
def Query.AsksFor {α : Type} (query : Query α) (table : TypeTable) (f : Ty → α) : Prop :=
  ∀ (ask : TypeId → Option α) (info : TypeInfo) (ty : Ty),
    (∀ d ∈ info.structs, d < table.structs.decls.size) →
    TypeNode.Rel (fun c ty => table.get? c = some ty ∧ ask c = some (f ty)) info ty.node →
    query ask info = some (f ty)

variable {table table' : TypeTable}

/-- A question about a number is answered within any greater depth, with what it asks for of the type.

**Proof sketch.** Induction on the depth: the components have numbers below that of the type, and so
below the depth that is left for them. -/
theorem Closed.answer_eq {α : Type} {query : Query α} {f : Ty → α} (h : table.Closed)
    (hquery : query.AsksFor table f) {id : TypeId} {ty : Ty} (hty : table.get? id = some ty)
    {depth : Nat} (hdepth : id < depth) : answer query table depth id = some (f ty) := by
  induction depth generalizing id ty with
  | zero => exact absurd hdepth (Nat.not_lt_zero id)
  | succ depth ih =>
    obtain ⟨info, hinfo, hnode⟩ := h.exists_info? hty
    have hrel := TypeNode.traverse_eq_some_iff.1 hnode
    have hlt : ∀ c ∈ info.components, c < depth := fun c hc =>
      Nat.lt_of_lt_of_le (h.lt_of_mem_components hinfo hc) (Nat.lt_succ_iff.1 hdepth)
    rw [answer, hinfo, Option.bind_some]
    refine hquery _ info ty ?_ ((hrel.and_left hlt).imp fun c ty' ⟨hlt, hget⟩ => ⟨hget, ih hget hlt⟩)
    rw [hrel.structs_eq]
    exact (Ty.mentionsBelow_iff.1 (h.mentions hty)).1

/-! ### The questions about a type -/

/-- The answers for the components of a tuple are those for its types. -/
theorem mapM_ask {α : Type} {ask : TypeId → Option α} {f : Ty → α} {ids : List TypeId} {tys : List Ty}
    (h : List.Forall₂ (fun c ty => table.get? c = some ty ∧ ask c = some (f ty)) ids tys) :
    ids.mapM ask = some (tys.map f) :=
  List.mapM_eq_some_iff.2 (List.forall₂_map_right_iff.2 (h.imp fun _ _ hc => hc.2))

/-- The size of a tuple is the sum of those of its components. -/
theorem sizes_eq_sum (tys : List Ty) :
    Ty.sizeOnStack.sizes tys = (tys.map Ty.sizeOnStack).sum := by
  induction tys with
  | nil => rfl
  | cons ty tys ih => rw [Ty.sizeOnStack.sizes, ih, List.map_cons, List.sum_cons]

/-- The question about words on the stack. -/
theorem asksFor_stackQuery : stackQuery.AsksFor table Ty.sizeOnStack := by
  rintro ask info ty - hrel
  cases ty with
  | function kind => cases hrel; cases kind <;> rfl
  | array element length location =>
    cases hrel
    cases length <;> cases location <;> rfl
  | tuple components =>
    cases hrel with
    | tuple h => rw [stackQuery, mapM_ask h, Option.map_some, Ty.sizeOnStack, sizes_eq_sum]
  | _ => cases hrel; rfl

/-- The question about bytes in a slot. -/
theorem asksFor_widthQuery : widthQuery.AsksFor table Ty.storageBytes := by
  rintro ask info ty - hrel
  cases ty with
  | named name underlying =>
    cases hrel with
    | named _ h => exact h.2
  | function kind => cases hrel; cases kind <;> rfl
  | _ => cases hrel; rfl

/-- The question about the form of values. -/
theorem asksFor_encodingQuery : encodingQuery.AsksFor table Ty.encoding? := by
  rintro ask info ty - hrel
  cases ty with
  | named name underlying =>
    cases hrel with
    | named _ h => exact h.2
  | function kind => cases hrel; cases kind <;> rfl
  | _ => cases hrel; rfl

namespace Closed

/-- A declared struct is found with its name and its layout. -/
theorem struct?_of_lt (h : table.Closed) {d : StructId} (hd : d < table.structs.decls.size) :
    ∃ s, table.struct? d = some s ∧ s.name = (table.structs.decl d).name ∧
      s.layout = (table.structs.decl d).layout := by
  obtain ⟨s, hs⟩ := h.exists_struct? hd
  obtain ⟨-, hname, hlayout, -⟩ := h.struct?_eq_some_iff.1 hs
  exact ⟨s, hs, hname, hlayout⟩

/-- The question about slots, given the widths of elements. -/
theorem asksFor_slotsQuery (h : table.Closed) {width : TypeId → Option Nat}
    (hwidth : ∀ {c ty}, table.get? c = some ty → width c = some ty.storageBytes) :
    (slotsQuery table width).AsksFor table table.structs.storageSlots := by
  rintro ask info ty hstructs hrel
  cases ty with
  | array element length location =>
    cases hrel with
    | array _ _ hc =>
      cases length with
      | none => rfl
      | some length => simp [slotsQuery, hwidth hc.1, hc.2, StructTable.storageSlots]; rfl
  | struct d location =>
    cases hrel
    obtain ⟨s, hs, -, hlayout⟩ := h.struct?_of_lt (hstructs d List.mem_cons_self)
    rw [slotsQuery, hs, Option.map_some, hlayout, StructTable.storageSlots]
  | _ => cases hrel; rfl

/-- The question about the text of a type. -/
theorem asksFor_displayQuery (h : table.Closed) :
    (displayQuery table).AsksFor table (Ty.display table.structs) := by
  rintro ask info ty hstructs hrel
  cases ty with
  | function kind => cases hrel; cases kind <;> rfl
  | array element length location =>
    cases hrel with
    | array _ _ hc => rw [displayQuery, hc.2, Option.map_some, Ty.display]
  | struct d location =>
    cases hrel
    obtain ⟨s, hs, hname, -⟩ := h.struct?_of_lt (hstructs d List.mem_cons_self)
    rw [displayQuery, hs, Option.map_some, hname, Ty.display]
  | mapping key value =>
    cases hrel with
    | mapping hkey hvalue =>
      rw [displayQuery, hkey.2, hvalue.2, Option.bind_some, Option.map_some, Ty.display]
  | tuple components =>
    cases hrel with
    | tuple hc => rw [displayQuery, mapM_ask hc, Option.map_some, Ty.display, Ty.displays_eq_map]
  | _ => cases hrel; rfl

end Closed

/-! ## Relocation -/

/-- The number of a type seen through another data location, if it is found in `depth` levels.  The
element of an array is relocated first. -/
def relocateWithin (location : DataLocation) : Nat → TypeTable → TypeId → Option (TypeId × TypeTable)
  | 0, _, _ => none
  | depth + 1, table, id => (table.info? id).bind fun
    | .array element length _ =>
      (relocateWithin location depth table element).bind fun (element, table) =>
        table.insertInfo (.array element length location)
    | .struct d _ => table.insertInfo (.struct d location)
    | _ => some (id, table)

namespace Closed

/-- A type that has been met keeps its number. -/
theorem insert_of_get? (h : table.Closed) {id : TypeId} {ty : Ty} (hty : table.get? id = some ty) :
    table.insert ty = (id, table) := by
  rw [TypeTable.insert, meet_of_met ⟨id, hty⟩, h.idOf?_eq_some_iff.2 hty]
  rfl

/-- An array is met after its element. -/
theorem meet_array (h : table.Closed) (element : Ty) (length : Option Nat) (location : DataLocation) :
    table.meet (.array element length location) =
      (table.meet element).insertNode (.array element length location) := by
  by_cases hmet : table.Met (.array element length location)
  · rw [meet_of_met hmet, meet_of_met (h.met_component hmet List.mem_cons_self), insertNode_of_met hmet]
  · rw [meet_eq, if_neg (mt met_iff.2 hmet)]
    rfl

/-- An array whose element has just been numbered gets the number that it would have got before. -/
theorem insert_array (h : table.Closed) {element : Ty}
    (helement : element.mentionsBelow table.structs.decls.size = true) (length : Option Nat)
    (location : DataLocation) :
    (table.insert element).2.insert (.array element length location) =
      table.insert (.array element length location) := by
  have hmeet : (table.insert element).2.meet (.array element length location) =
      table.meet (.array element length location) := by
    rw [(h.insert helement).meet_array, meet_of_met ⟨_, get?_insert table element⟩,
      h.meet_array]
    rfl
  exact congrArg (fun table : TypeTable =>
    ((table.idOf? (.array element length location)).getD 0, table)) hmeet

/-- A type is relocated within any depth above its number.

**Proof sketch.** Induction on the depth.  The element of an array has a smaller number; once it is
relocated, numbering the array over the relocated element is all that numbering the relocated array
comes to. -/
theorem relocateWithin_eq (h : table.Closed) {id : TypeId} {ty : Ty} (hty : table.get? id = some ty)
    (location : DataLocation) {depth : Nat} (hdepth : id < depth) :
    relocateWithin location depth table id = some (table.insert (ty.located location)) := by
  induction depth generalizing id ty with
  | zero => exact absurd hdepth (Nat.not_lt_zero id)
  | succ depth ih =>
    obtain ⟨info, hinfo, hnode⟩ := h.exists_info? hty
    have hrel := TypeNode.traverse_eq_some_iff.1 hnode
    rw [relocateWithin, hinfo, Option.bind_some]
    cases ty with
    | array element length location' =>
      cases hrel with
      | array _ _ hc =>
        have hlt := Nat.lt_of_lt_of_le (h.lt_of_mem_components hinfo List.mem_cons_self)
          (Nat.lt_succ_iff.1 hdepth)
        have hbelow := Ty.mentionsBelow_located location (h.mentions hc)
        simp only [ih hc hlt, Option.bind_some]
        refine insertInfo_eq_some_iff.2 ⟨.array (element.located location) length location, ?_,
          h.insert_array hbelow length location⟩
        simp [TypeNode.traverse, get?_insert]
    | struct d location' =>
      cases hrel
      rfl
    | _ =>
      cases hrel
      exact congrArg some (h.insert_of_get? hty).symm

end Closed

/-! ## What the members of a struct lead to -/

/-- One step from a number: to a component of the type, to a member of the struct, or to the same type in
another data location. -/
inductive Leads (table : TypeTable) : TypeId → TypeId → Prop
  | component {id c : TypeId} {info : TypeInfo} (hinfo : table.info? id = some info)
      (hc : c ∈ info.components) : Leads table id c
  | member {id : TypeId} {d : StructId} {location : DataLocation} {s : StructInfo}
      {m : String × TypeId} (hinfo : table.info? id = some (.struct d location))
      (hs : table.struct? d = some s) (hm : m ∈ s.members) : Leads table id m.2
  | relocated {location : DataLocation} {id id' : TypeId}
      (h : table.relocate location id = some (id', table)) : Leads table id id'

namespace Closed

/-- The members of a declaration mention earlier structs only. -/
theorem member_of_struct? (h : table.Closed) {d : StructId} {s : StructInfo}
    (hs : table.struct? d = some s) {m : String × TypeId} (hm : m ∈ s.members) :
    ∃ ty, table.get? m.2 = some ty ∧ ty.mentionsBelow d = true := by
  obtain ⟨hd, -, -, hmembers⟩ := h.struct?_eq_some_iff.1 hs
  obtain ⟨i, hi, rfl⟩ := List.getElem_of_mem hm
  have hi' := hmembers.length_eq ▸ hi
  exact ⟨_, (hmembers.get hi hi').1, h.member_mentions d hd _ (List.getElem_mem hi')⟩

/-- A step leads to types that mention structs below the same bound. -/
theorem mentionsBelow_of_leads (h : table.Closed) {bound : StructId} {id id' : TypeId}
    (hleads : table.Leads id id')
    (hid : ∃ ty, table.get? id = some ty ∧ ty.mentionsBelow bound = true) :
    ∃ ty, table.get? id' = some ty ∧ ty.mentionsBelow bound = true := by
  obtain ⟨ty, hty, hbelow⟩ := hid
  cases hleads with
  | component hinfo hc =>
    obtain ⟨ty', hty', hnode⟩ := h.info?_eq_some_iff.1 hinfo
    obtain rfl := Option.some.inj (hty.symm.trans hty')
    obtain ⟨c, hmem, hget⟩ := (TypeNode.traverse_eq_some_iff.1 hnode).exists_of_mem hc
    exact ⟨c, hget, (Ty.mentionsBelow_iff.1 hbelow).2 c hmem⟩
  | @member _ d location s m hinfo hs hm =>
    obtain ⟨ty', hty', hnode⟩ := h.info?_eq_some_iff.1 hinfo
    obtain rfl := Option.some.inj (hty.symm.trans hty')
    have hd : d < bound := by
      have hstructs := (TypeNode.traverse_eq_some_iff.1 hnode).structs_eq
      exact (Ty.mentionsBelow_iff.1 hbelow).1 d (hstructs ▸ List.mem_cons_self)
    obtain ⟨m', hget, hmentions⟩ := h.member_of_struct? hs hm
    exact ⟨m', hget, Ty.mentionsBelow_mono (Nat.le_of_lt hd) hmentions⟩
  | @relocated location _ _ hrelocate =>
    obtain ⟨ty', hty', heq⟩ := relocate_eq_some_iff.1 hrelocate
    obtain rfl := Option.some.inj (hty.symm.trans hty')
    have hget := get?_insert table (ty.located location)
    rw [heq] at hget
    exact ⟨_, hget, Ty.mentionsBelow_located location hbelow⟩

/-- Whatever the members of a struct lead to mentions earlier structs only. -/
theorem lt_of_leads (h : table.Closed) {d : StructId} {s : StructInfo}
    (hs : table.struct? d = some s) {m : String × TypeId} (hm : m ∈ s.members) {id : TypeId}
    (hleads : Relation.ReflTransGen table.Leads m.2 id) {info : TypeInfo}
    (hinfo : table.info? id = some info) : ∀ d' ∈ info.structs, d' < d := by
  have hbelow : ∃ ty, table.get? id = some ty ∧ ty.mentionsBelow d = true := by
    clear hinfo
    induction hleads with
    | refl => exact h.member_of_struct? hs hm
    | tail _ hstep ih => exact h.mentionsBelow_of_leads hstep ih
  obtain ⟨ty, hty, hmentions⟩ := hbelow
  obtain ⟨ty', hty', hnode⟩ := h.info?_eq_some_iff.1 hinfo
  obtain rfl := Option.some.inj (hty.symm.trans hty')
  rw [(TypeNode.traverse_eq_some_iff.1 hnode).structs_eq]
  exact (Ty.mentionsBelow_iff.1 hmentions).1

end Closed

/-! ## Work on the members of a struct -/

/-- Work on a struct type asks for its members and goes on with one of them, perhaps after more calls, as
copying and clearing a struct do. -/
inductive GoesOn : TypeTable × TypeId → TypeTable × TypeId → Prop
  | member {table after later : TypeTable} {id : TypeId}
      {numbered : List (TypeId × StructTable.Field)} {p : TypeId × StructTable.Field}
      (hmembers : table.structMembers id = some (numbered, after)) (hp : p ∈ numbered)
      (hcalls : after.Calls later) : GoesOn (table, id) (later, p.1)

/-- Every struct that a struct nests is gone on with, seen through the same data location. -/
theorem exists_goesOn {id : TypeId} {d d' : StructId} {location location' : DataLocation}
    {f : StructTable.Field} (hid : table.get? id = some (.struct d location))
    (hf : f ∈ table.structs.fields d) (hty : f.ty = .struct d' location') :
    ∃ next, GoesOn (table, id) next ∧ next.1.get? next.2 = some (.struct d' location) := by
  obtain ⟨numbered, after, hmembers, hfields, hids⟩ := exists_structMembers hid
  have hmem : { f with ty := f.ty.located location } ∈ numbered.map Prod.snd := by
    rw [hfields]
    exact List.mem_map_of_mem hf
  obtain ⟨p, hp, hpf⟩ := List.mem_map.1 hmem
  refine ⟨(after, p.1), .member hmembers hp .refl, ?_⟩
  rw [hids p hp, hpf, hty]
  rfl

/-- One more than the number of the struct that work is done on, and zero for other types. -/
def structRank (now : TypeTable × TypeId) : Nat :=
  match now.1.get? now.2 with
  | some (.struct d _) => d + 1
  | _ => 0

/-- Work goes on with earlier structs. -/
theorem GoesOn.structRank_lt {now next : TypeTable × TypeId} (h : GoesOn now next) :
    structRank next < structRank now := by
  cases h with
  | @member table after later id numbered p hmembers hp hcalls =>
    obtain ⟨d, location, hid, hfields, hids⟩ := exists_struct_of_structMembers hmembers
    have hmem : p.2 ∈ numbered.map Prod.snd := List.mem_map_of_mem hp
    rw [hfields] at hmem
    obtain ⟨f, hf, hpf⟩ := List.mem_map.1 hmem
    have hnext : later.get? p.1 = some (f.ty.located location) := by
      rw [hcalls.reaches.keeps (hids p hp), ← hpf]
    simp only [structRank, hid, hnext]
    cases hty : f.ty with
    | struct d' location' =>
      have hlt := StructTable.lt_of_mem_fields hf hty
      simpa [Ty.located] using hlt
    | _ => simp [Ty.located]

/-- Work on the members of structs comes to an end. -/
theorem wellFounded_goesOn : WellFounded fun next now => GoesOn now next :=
  Subrelation.wf (fun h => h.structRank_lt) (measure structRank).wf

/-! ## Tables that calls lead to -/

/-- How the numbers of a table stand for types and structs, up to a later table. -/
structure Interns (table later : TypeTable) : Prop where
  /-- A type built from numbers that have been given gets a number, which stands for it. -/
  info?_insertInfo : ∀ info, table.Knows info →
    ∃ id after, table.insertInfo info = some (id, after) ∧ after.info? id = some info
  /-- Types get the same number, now and later, exactly if they are the same. -/
  insertInfo_eq_iff : ∀ {info info' : TypeInfo} {id id' : TypeId} {after after' : TypeTable},
    table.Knows info → table.insertInfo info = some (id, after) → after.Calls later →
    later.Knows info' → later.insertInfo info' = some (id', after') → (id = id' ↔ info = info')
  /-- Relocating a type gives the number of the relocated type. -/
  get?_relocate : ∀ {id : TypeId} {ty : Ty}, table.get? id = some ty → ∀ location,
    ∃ id' after, table.relocate location id = some (id', after) ∧
      after.get? id' = some (ty.located location)
  /-- The members of a struct type are those of its declaration, relocated, with their numbers. -/
  get?_structMembers : ∀ {id : TypeId} {d : StructId} {location : DataLocation},
    table.get? id = some (.struct d location) →
    ∃ numbered after, table.structMembers id = some (numbered, after) ∧
      numbered.map Prod.snd =
        (table.structs.fields d).map (fun f => { f with ty := f.ty.located location }) ∧
      ∀ p ∈ numbered, after.get? p.1 = some p.2.ty
  /-- A number that has been given stands for one level of a type, for ever after. -/
  info?_eq : ∀ id < table.types.size,
    ∃ info, table.info? id = some info ∧ later.info? id = some info
  /-- The number of a declaration stands for it. -/
  struct?_insertStruct : ∀ {name : String} {members : List (String × TypeId)} {d : StructId}
    {after : TypeTable}, table.insertStruct name members = some (d, after) →
    ∃ layout, after.struct? d = some ⟨name, members, layout⟩
  /-- The number of a struct stands for the same declaration and places for ever after. -/
  struct?_eq : ∀ d < table.structs.decls.size,
    ∃ s, table.struct? d = some s ∧ later.struct? d = some s
  /-- A type mentions smaller numbers only. -/
  component_lt : ∀ {id : TypeId} {info : TypeInfo}, table.info? id = some info →
    ∀ c ∈ info.components, c < id
  /-- Whatever the members of a struct lead to mentions earlier structs only. -/
  struct_lt : ∀ {d : StructId} {s : StructInfo} {m : String × TypeId} {id : TypeId} {info : TypeInfo},
    table.struct? d = some s → m ∈ s.members → Relation.ReflTransGen table.Leads m.2 id →
    table.info? id = some info → ∀ d' ∈ info.structs, d' < d

/-- The recursions over the numbers that a type mentions find what they do for the type itself, within
`depth` levels. -/
structure AnswersWithin (table : TypeTable) (depth : Nat) (id : TypeId) (ty : Ty) : Prop where
  sizeOnStack : answer stackQuery table depth id = some ty.sizeOnStack
  storageBytes : answer widthQuery table depth id = some ty.storageBytes
  storageSlots : answer (slotsQuery table (answer widthQuery table table.types.size)) table depth id =
    some (table.structs.storageSlots ty)
  encoding : answer encodingQuery table depth id = some ty.encoding?
  display : answer (displayQuery table) table depth id = some (ty.display table.structs)
  located : ∀ location, relocateWithin location depth table id = table.relocate location id

/-- Every closed table interns types. -/
theorem Closed.interns (h : table.Closed) {later : TypeTable} (hcalls : table.Calls later) :
    table.Interns later where
  info?_insertInfo info hknows := by
    obtain ⟨id, after, hinsert⟩ := exists_insertInfo hknows
    exact ⟨id, after, hinsert, h.info?_insertInfo hknows hinsert⟩
  insertInfo_eq_iff hknows hinsert hafter hknows' hinsert' :=
    h.insertInfo_eq_iff hknows hinsert hafter hknows' hinsert'
  get?_relocate {id ty} hty location := by
    refine ⟨_, _, ?_, get?_insert table (ty.located location)⟩
    rw [relocate, hty]
    rfl
  get?_structMembers hid := exists_structMembers hid
  info?_eq id hid := by
    obtain ⟨info, hinfo, -⟩ := h.exists_info? (Array.getElem?_eq_getElem hid)
    exact ⟨info, hinfo, hcalls.info?_eq h hinfo⟩
  struct?_insertStruct hinsert := h.struct?_insertStruct hinsert
  struct?_eq d hd := by
    obtain ⟨s, hs⟩ := h.exists_struct? hd
    exact ⟨s, hs, hcalls.struct?_eq h hs⟩
  component_lt hinfo := fun _ hc => h.lt_of_mem_components hinfo hc
  struct_lt hs hm hleads hinfo := h.lt_of_leads hs hm hleads hinfo

/-- Recursions over the numbers that a type mentions need no more levels than its own number allows. -/
theorem Closed.answersWithin (h : table.Closed) {id : TypeId} {ty : Ty}
    (hty : table.get? id = some ty) {depth : Nat} (hdepth : id < depth) :
    table.AnswersWithin depth id ty where
  sizeOnStack := h.answer_eq asksFor_stackQuery hty hdepth
  storageBytes := h.answer_eq asksFor_widthQuery hty hdepth
  storageSlots := h.answer_eq (h.asksFor_slotsQuery fun hc =>
    h.answer_eq asksFor_widthQuery hc (Array.getElem?_eq_some_iff.1 hc).1) hty hdepth
  encoding := h.answer_eq asksFor_encodingQuery hty hdepth
  display := h.answer_eq h.asksFor_displayQuery hty hdepth
  located location := by
    rw [h.relocateWithin_eq hty location hdepth, relocate, hty]
    rfl

/-- Along every sequence of calls from an empty table that mention only numbers which have been given:
numbers stand for types and declarations without confusion and for ever after, and types and structs
mention smaller numbers only.  Every recursion over the numbers that a type mentions therefore ends, and
so does work that goes from a struct type to its members, however many types are relocated on the way.

**Proof sketch.** Calls leave nothing missing in the table (`Closed.calls`) and keep every number
(`Step.keeps`).  A recursion over the mentioned numbers ends within a depth above the number
(`Closed.answersWithin`), work on members by the numbers of the structs (`wellFounded_goesOn`). -/
theorem interns_of_calls {later : TypeTable} (hbuilt : Calls {} table) (hcalls : table.Calls later) :
    table.Interns later ∧
    (∀ id < table.types.size, ∃ ty, table.get? id = some ty ∧
      ∀ depth, id < depth → table.AnswersWithin depth id ty) ∧
    (∀ {id d location}, table.get? id = some (.struct d location) →
      ∀ f ∈ table.structs.fields d, ∀ {d' location'}, f.ty = .struct d' location' →
        ∃ next, GoesOn (table, id) next ∧ next.1.get? next.2 = some (.struct d' location)) ∧
    WellFounded fun next now => GoesOn now next := by
  have hclosed : table.Closed := Closed.empty.calls hbuilt
  refine ⟨hclosed.interns hcalls, fun id hid => ?_, fun {_ _ _} hid _ hf {_ _} hty =>
    exists_goesOn hid hf hty, wellFounded_goesOn⟩
  have hget : table.get? id = some table.types[id] := Array.getElem?_eq_getElem hid
  exact ⟨_, hget, fun depth hdepth => hclosed.answersWithin hget hdepth⟩

/-- An array of structs that is relocated gets a number, and so does the struct type in it. -/
theorem interns_of_calls_relocated :
    ∃ table later : TypeTable, Calls {} table ∧ table.Calls later ∧
      table.info? 2 = some (.array 1 none .storage) ∧ later.info? 4 = some (.array 3 none .memory) ∧
      table.Interns later ∧
      ∀ id < table.types.size, ∃ ty, table.get? id = some ty ∧
        ∀ depth, id < depth → table.AnswersWithin depth id ty := by
  have hrun : (insertInfo {} (.int 8 false)).bind (fun p₁ =>
      (p₁.2.insertStruct "Pair" [("a", 0), ("b", 0)]).bind fun p₂ =>
      (p₂.2.insertInfo (.struct 0 .storage)).bind fun p₃ =>
      (p₃.2.insertInfo (.array 1 none .storage)).bind fun p₄ =>
      (p₄.2.relocate .memory 2).map fun p₅ =>
        (p₂.2.structs.decls.size, p₃.2.types.size, p₄.2.info? 2, p₅.2.info? 4)) =
      some (1, 2, some (.array 1 none .storage), some (.array 3 none .memory)) := by
    decide +kernel
  obtain ⟨⟨id₁, t₁⟩, h₁, hrun⟩ := Option.bind_eq_some_iff.1 hrun
  obtain ⟨⟨d, t₂⟩, h₂, hrun⟩ := Option.bind_eq_some_iff.1 hrun
  obtain ⟨⟨id₃, t₃⟩, h₃, hrun⟩ := Option.bind_eq_some_iff.1 hrun
  obtain ⟨⟨id₄, t₄⟩, h₄, hrun⟩ := Option.bind_eq_some_iff.1 hrun
  obtain ⟨⟨id₅, t₅⟩, h₅, hrun⟩ := Option.map_eq_some_iff.1 hrun
  simp only [Prod.mk.injEq] at hrun
  obtain ⟨hdecls, htypes, hinfo, hinfo'⟩ := hrun
  have hint : Knows {} (.int 8 false) :=
    ⟨fun c hc => absurd hc List.not_mem_nil, fun d hd => absurd hd List.not_mem_nil⟩
  have hstruct : t₂.Knows (.struct 0 .storage) :=
    ⟨fun c hc => absurd hc List.not_mem_nil, by simp [TypeNode.structs, hdecls]⟩
  have harray : t₃.Knows (.array 1 none .storage) :=
    ⟨by simp [TypeNode.components, htypes], fun d hd => absurd hd List.not_mem_nil⟩
  have hbuilt : Calls {} t₄ :=
    (((Relation.ReflTransGen.single (.insert hint h₁)).tail (.insertStruct h₂)).tail
      (.insert hstruct h₃)).tail (.insert harray h₄)
  have hcalls : t₄.Calls t₅ := .single (.relocate h₅)
  obtain ⟨hinterns, hanswers, -, -⟩ := interns_of_calls hbuilt hcalls
  exact ⟨t₄, t₅, hbuilt, hcalls, hinfo, hinfo', hinterns, hanswers⟩

end TypeTable

end WordPlaces
