import WordPlaces.Proofs.Ty.Leaves
import WordPlaces.Proofs.Ty.Recursion

/-!
# Types seen through another data location

A type that is seen through one data location and then through another is the type seen through
the second.  In a type table this is a statement about numbers, which are drawn at different times:
relocating may number new types, and it goes on to answer with the same number after whatever calls.
What a type takes in storage does not depend on where it is seen, and the members of a struct type
keep their names and places.

## Main definitions

* `StructTable.Field.SamePlace` — members that differ in their types at most.
* `TypeTable.RelocatesTo` — relocating a number gives another, now and after any calls.
* `TypeTable.SeenAs` — what the number of a relocated type has to do with the number of the type.

## Main results

* `Ty.located_located`, `StructTable.storageSlots_located` — relocation composes and keeps sizes.
* `StructTable.filterMap_memoryOffset_fields` — members other than mappings take the words of
  memory in order.
* `TypeTable.seenAs_of_relocate` — relocation of numbers composes, and keeps sizes and members.
-/

set_option autoImplicit false

/-- Lists that are related to one list are related to each other. -/
theorem List.Forall₂.trans_of {α β γ : Type} {R : α → β → Prop} {S : β → γ → Prop}
    {T : α → γ → Prop} {as : List α} {bs : List β} {cs : List γ} (h : List.Forall₂ R as bs)
    (hT : ∀ a b c, R a b → S b c → T a c) (h' : List.Forall₂ S bs cs) : List.Forall₂ T as cs := by
  induction h generalizing cs with
  | nil =>
    cases h'
    exact .nil
  | cons hab _ ih =>
    cases h' with
    | cons hbc hrest => exact .cons (hT _ _ _ hab hbc) (ih hrest)

namespace WordPlaces

/-! ## Types -/

namespace Ty

/-- Only the last data location counts. -/
theorem located_located (ty : Ty) (a b : DataLocation) :
    (ty.located a).located b = ty.located b := by
  fun_induction Ty.located a ty with
  | case1 element length location ih => rw [located, located, ih]
  | case2 d location => rfl
  | case3 ty harray hstruct => rfl

/-- The data location does not change the width of a type. -/
theorem storageBytes_located (ty : Ty) (location : DataLocation) :
    (ty.located location).storageBytes = ty.storageBytes := by
  cases ty <;> rfl

end Ty

namespace StructTable

/-- A type takes the same slots wherever it is seen. -/
theorem storageSlots_located (structs : StructTable) (ty : Ty) (location : DataLocation) :
    structs.storageSlots (ty.located location) = structs.storageSlots ty := by
  fun_induction Ty.located location ty with
  | case1 element length location' ih =>
    cases length with
    | none => rfl
    | some length => rw [storageSlots, storageSlots, ih, Ty.storageBytes_located]
  | case2 d location' => rfl
  | case3 ty harray hstruct => rfl

/-! ## Members -/

/-- The members have the same name, and the same places in storage and in memory. -/
structure Field.SamePlace (f f' : Field) : Prop where
  name_eq : f'.name = f.name
  storage_eq : f'.storage = f.storage
  memoryOffset_eq : f'.memoryOffset = f.memoryOffset

/-- Members have their names, their types and their places in storage. -/
theorem map_fieldsFrom (members : List (Member × StorageOffset)) (offset : Nat) :
    (fieldsFrom offset members).map (fun f => (Member.mk f.name f.ty, f.storage)) = members := by
  induction members generalizing offset with
  | nil => rfl
  | cons p members ih =>
    rw [fieldsFrom]
    split <;> rw [List.map_cons, ih]

/-- The members of a declaration that is laid out are its fields. -/
theorem LaidOut.map_fields {structs : StructTable} (hlaid : structs.LaidOut) {d : StructId}
    (hd : d < structs.decls.size) :
    (structs.fields d).map (fun f => Member.mk f.name f.ty) = (structs.decl d).members := by
  obtain ⟨sizes, hsizes, hlayout⟩ := Except.exists_of_bind_eq_ok (hlaid d hd)
  have hlength := (length_layoutFrom hlayout).trans
    (List.forall₂_of_mapM_eq_ok hsizes).length_eq.symm
  have hfields := congrArg (List.map Prod.fst) (map_fieldsFrom
    ((structs.decl d).members.zip (structs.decl d).layout.offsets) 0)
  rw [List.map_map, List.map_fst_zip hlength.ge] at hfields
  exact hfields

/-- Members other than mappings take words of memory one after the other. -/
theorem filterMap_memoryOffset_fieldsFrom (members : List (Member × StorageOffset))
    (offset : Nat) :
    (fieldsFrom offset members).filterMap (·.memoryOffset) =
      (List.range ((fieldsFrom offset members).countP fun f => !f.ty.isMapping)).map
        (offset + 32 * ·) := by
  induction members generalizing offset with
  | nil => rfl
  | cons p members ih =>
    rw [fieldsFrom]
    split
    · rename_i hmapping
      rw [List.countP_cons_of_neg (by simp [hmapping]), ← ih]
      rfl
    · rename_i hmapping
      rw [List.countP_cons_of_pos (by simp [hmapping]), List.range_succ_eq_map, List.map_cons,
        List.map_map]
      refine (congrArg (offset :: ·) (ih (offset + 32))).trans ?_
      refine congrArg (offset :: ·) (List.map_congr_left fun i _ => ?_)
      simp only [Function.comp_apply]
      omega

/-- Members other than mappings take the words of memory in order, from the first one on. -/
theorem filterMap_memoryOffset_fields (structs : StructTable) (d : StructId) :
    (structs.fields d).filterMap (·.memoryOffset) =
      (List.range ((structs.fields d).countP fun f => !f.ty.isMapping)).map (32 * ·) := by
  rw [fields, filterMap_memoryOffset_fieldsFrom]
  simp only [Nat.zero_add]

end StructTable

/-! ## Numbers -/

namespace TypeTable

variable {table : TypeTable}

/-- In the table, and after whatever calls, the type with the first number seen through the location
has the second one, and asking for it adds nothing. -/
def RelocatesTo (table : TypeTable) (location : DataLocation) (id id' : TypeId) : Prop :=
  ∀ later, table.Calls later → later.relocate location id = some (id', later)

/-- The second number is that of the type with the first one, seen through the location. -/
structure SeenAs (table : TypeTable) (location : DataLocation) (id id' : TypeId) : Prop where
  relocatesTo : table.RelocatesTo location id id'
  /-- Relocating once more changes nothing. -/
  idempotent : table.RelocatesTo location id' id'
  /-- Seen through any other location, both have the same number for ever after. -/
  composes : ∀ later, table.Calls later → ∀ location', ∃ id'' after,
    later.relocate location' id = some (id'', after) ∧
    later.relocate location' id' = some (id'', after) ∧
    after.RelocatesTo location' id id'' ∧ after.RelocatesTo location' id' id''
  /-- Both take the same room in storage. -/
  sameSize : ∀ later, table.Calls later → ∃ ty ty', later.get? id = some ty ∧
    later.get? id' = some ty' ∧ later.structs.storageSlots ty' = later.structs.storageSlots ty ∧
    ty'.storageBytes = ty.storageBytes ∧ ty'.isValueType = ty.isValueType
  /-- Struct types are of the same declaration, whose members they have at the same places, with the
  types of the one seen through the location. -/
  sameMembers : ∀ {d : StructId} {location' : DataLocation},
    table.get? id = some (.struct d location') → ∀ later later', table.Calls later →
    table.Calls later' → ∃ s ty' numbered after numbered' after', table.struct? d = some s ∧
      table.get? id' = some ty' ∧ (Ty.struct d location').sameStruct ty' = true ∧
      later.structMembers id = some (numbered, after) ∧
      later'.structMembers id' = some (numbered', after') ∧
      List.Forall₂ (fun p p' => p.2.SamePlace p'.2) numbered numbered' ∧
      List.Forall₂ (fun m p' => p'.2.name = m.1 ∧ after'.RelocatesTo location m.2 p'.1)
        s.members numbered' ∧
      (numbered'.filterMap fun p' => p'.2.memoryOffset) =
        (List.range (numbered'.countP fun p' => !p'.2.ty.isMapping)).map (32 * ·) ∧
      ∀ p' ∈ numbered', after'.get? p'.1 = some p'.2.ty ∧
        (p'.2.memoryOffset = none ↔ p'.2.ty.isMapping = true)

/-- A relocated type that has been met has its number for ever after. -/
theorem Closed.relocatesTo (h : table.Closed) {id id' : TypeId} {ty : Ty}
    {location : DataLocation} (hid : table.get? id = some ty)
    (hid' : table.get? id' = some (ty.located location)) : table.RelocatesTo location id id' := by
  intro later hcalls
  have hkeeps := hcalls.reaches.keeps
  rw [relocate, hkeeps hid, Option.map_some, (h.calls hcalls).insert_of_get? (hkeeps hid')]

/-- A number that has been given can be relocated, and goes on to be relocated to the same. -/
theorem Closed.exists_relocate (h : table.Closed) {id : TypeId} {ty : Ty}
    (hid : table.get? id = some ty) (location : DataLocation) :
    ∃ id' after, table.relocate location id = some (id', after) ∧ table.Call after ∧
      after.get? id = some ty ∧ after.get? id' = some (ty.located location) ∧
      after.RelocatesTo location id id' := by
  have hrelocate : table.relocate location id = some (table.insert (ty.located location)) := by
    rw [relocate, hid]
    rfl
  have hcall : table.Call (table.insert (ty.located location)).2 := .relocate hrelocate
  have hkept := hcall.step.keeps hid
  have hid' := get?_insert table (ty.located location)
  exact ⟨_, _, hrelocate, hcall, hkept, hid', (h.call hcall).relocatesTo hkept hid'⟩

/-- Seen through another location, a relocated type gets the number that the type itself gets. -/
theorem Closed.relocate_composes (h : table.Closed) {id id' : TypeId} {ty : Ty}
    {location : DataLocation} (hid : table.get? id = some ty)
    (hid' : table.get? id' = some (ty.located location)) (location' : DataLocation) :
    ∃ id'' after, table.relocate location' id = some (id'', after) ∧
      table.relocate location' id' = some (id'', after) ∧
      after.RelocatesTo location' id id'' ∧ after.RelocatesTo location' id' id'' := by
  obtain ⟨id'', after, hrelocate, hcall, -, hid'', hto⟩ := h.exists_relocate hid location'
  have hrelocate' : table.relocate location' id' = some (id'', after) := by
    rw [← hrelocate, relocate, relocate, hid, hid', Option.map_some, Option.map_some,
      Ty.located_located]
  refine ⟨id'', after, hrelocate, hrelocate', hto, ?_⟩
  refine (h.call hcall).relocatesTo (hcall.step.keeps hid') ?_
  rw [Ty.located_located]
  exact hid''

/-- The fields of a declaration are its members, whose types have the numbers that it was declared
with. -/
theorem Closed.forall₂_fields (h : table.Closed) (hlaid : table.structs.LaidOut) {d : StructId}
    {s : StructInfo} (hs : table.struct? d = some s) :
    List.Forall₂ (fun m f => table.get? m.2 = some f.ty ∧ f.name = m.1) s.members
      (table.structs.fields d) := by
  obtain ⟨hd, -, -, hmembers⟩ := h.struct?_eq_some_iff.1 hs
  rw [← hlaid.map_fields hd, List.forall₂_map_right_iff] at hmembers
  exact hmembers

/-- A struct type that has been given mentions a declaration. -/
theorem Closed.lt_of_get?_struct (h : table.Closed) {id : TypeId} {d : StructId}
    {location : DataLocation} (hid : table.get? id = some (.struct d location)) :
    d < table.structs.decls.size :=
  (Ty.mentionsBelow_iff.1 (h.mentions hid)).1 d List.mem_cons_self

/-- The members of a struct type, whenever they are asked for, are the fields of its declaration
seen through its data location. -/
theorem Calls.exists_structMembers {later : TypeTable} (hcalls : table.Calls later)
    (h : table.Closed) {id : TypeId} {d : StructId} {location : DataLocation}
    (hid : table.get? id = some (.struct d location)) :
    ∃ numbered after, later.structMembers id = some (numbered, after) ∧
      numbered.map Prod.snd =
        (table.structs.fields d).map (fun f => { f with ty := f.ty.located location }) ∧
      ∀ p ∈ numbered, after.get? p.1 = some p.2.ty := by
  have hfields : later.structs.fields d = table.structs.fields d := by
    rw [StructTable.fields, hcalls.reaches.extends.decl_eq d (h.lt_of_get?_struct hid)]
    rfl
  rw [← hfields]
  exact TypeTable.exists_structMembers (hcalls.reaches.keeps hid)

/-- The numbered members are the fields seen through a data location, one by one. -/
theorem forall₂_of_map_eq {fields : List StructTable.Field} {location : DataLocation}
    {numbered : List (TypeId × StructTable.Field)}
    (h : numbered.map Prod.snd = fields.map fun f => { f with ty := f.ty.located location }) :
    List.Forall₂ (fun f p => p.2 = { f with ty := f.ty.located location }) fields numbered := by
  have heq : List.Forall₂ Eq (numbered.map Prod.snd)
      (fields.map fun f => { f with ty := f.ty.located location }) := by
    rw [List.forall₂_eq_eq_eq]
    exact h
  rw [List.forall₂_map_left_iff, List.forall₂_map_right_iff] at heq
  exact heq.flip

/-- Numbered members other than mappings take the words of memory in order. -/
theorem memoryOffsets_of_map_eq {structs : StructTable} {d : StructId} {location : DataLocation}
    {numbered : List (TypeId × StructTable.Field)}
    (h : numbered.map Prod.snd =
      (structs.fields d).map fun f => { f with ty := f.ty.located location }) :
    (numbered.filterMap fun p => p.2.memoryOffset) =
      (List.range (numbered.countP fun p => !p.2.ty.isMapping)).map (32 * ·) := by
  have hoffsets := congrArg (List.filterMap fun f : StructTable.Field => f.memoryOffset) h
  have hcount := congrArg (List.countP fun f : StructTable.Field => !f.ty.isMapping) h
  simp only [List.filterMap_map, List.countP_map, Function.comp_def, Ty.isMapping_located]
    at hoffsets hcount
  rw [hoffsets, hcount, StructTable.filterMap_memoryOffset_fields]

/-- Whatever is asked of relocated types in a table where they have their numbers.

**Proof sketch.** Both numbers stand for the type and its relocation in every later table
(`Step.keeps`), so that all that is asked of them is asked of the types: relocations compose
(`Closed.relocate_composes`) and keep sizes, and the members of both struct types are the fields of
one declaration (`Calls.exists_structMembers`). -/
theorem Closed.seenAs (h : table.Closed) (hlaid : table.structs.LaidOut) {id id' : TypeId} {ty : Ty}
    {location : DataLocation} (hid : table.get? id = some ty)
    (hid' : table.get? id' = some (ty.located location)) : table.SeenAs location id id' where
  relocatesTo := h.relocatesTo hid hid'
  idempotent := h.relocatesTo hid' (by rw [Ty.located_located]; exact hid')
  composes later hcalls :=
    have hkeeps := hcalls.reaches.keeps
    (h.calls hcalls).relocate_composes (hkeeps hid) (hkeeps hid')
  sameSize later hcalls :=
    have hkeeps := hcalls.reaches.keeps
    ⟨ty, _, hkeeps hid, hkeeps hid', StructTable.storageSlots_located _ ty location,
      Ty.storageBytes_located ty location, Ty.isValueType_located ty location⟩
  sameMembers := by
    intro d location' hstruct later later' hcalls hcalls'
    obtain rfl := Option.some.inj (hid.symm.trans hstruct)
    obtain ⟨s, hs⟩ := h.exists_struct? (h.lt_of_get?_struct hid)
    obtain ⟨numbered, after, hmembers, hfields, -⟩ := hcalls.exists_structMembers h hid
    obtain ⟨numbered', after', hmembers', hfields', hids'⟩ := hcalls'.exists_structMembers h hid'
    have hafter' : table.Calls after' := hcalls'.tail (.structMembers hmembers')
    have hall := forall₂_of_map_eq hfields'
    refine ⟨s, _, numbered, after, numbered', after', hs, hid', by simp [Ty.located, Ty.sameStruct],
      hmembers, hmembers', ?_, ?_, ?_, fun p' hp' => ⟨hids' p' hp', ?_⟩⟩
    · refine (forall₂_of_map_eq hfields).flip.trans_of ?_ hall
      rintro p f p' hp hp'
      exact ⟨hp ▸ hp' ▸ rfl, hp ▸ hp' ▸ rfl, hp ▸ hp' ▸ rfl⟩
    · refine (h.forall₂_fields hlaid hs).trans_of ?_
        ((List.forall₂_and_left _ _).2 ⟨hids', hall.flip⟩).flip
      rintro m f p' ⟨hm, hname⟩ ⟨hp', heq⟩
      have hty : p'.2.ty = f.ty.located location := heq ▸ rfl
      exact ⟨heq ▸ hname, (h.calls hafter').relocatesTo (hafter'.reaches.keeps hm) (hty ▸ hp')⟩
    · exact memoryOffsets_of_map_eq hfields'
    · obtain ⟨f, hf, heq⟩ : ∃ f ∈ table.structs.fields d,
          { f with ty := f.ty.located location } = p'.2 :=
        List.mem_map.1 (hfields' ▸ List.mem_map_of_mem hp')
      rw [← heq, Ty.isMapping_located, ← StructTable.memoryOffset_isNone hf,
        Option.isNone_iff_eq_none]

/-- Along every sequence of calls from an empty table that mention only numbers which have been
given: a type that is seen through a data location has a number, which the recursion over numbers
finds, and goes on to have it.  Seen through a second location, it has the number of the type seen
through the second location alone; it takes the same room in storage; and a struct type has the
members of the same declaration at the same places, with their types seen through the location.

**Proof sketch.** Calls leave nothing missing in the table (`Closed.calls`) and every declaration
with its layout (`Reaches.laidOut`), and so does relocating the type, after which both types have
their numbers (`Closed.seenAs`). -/
theorem seenAs_of_relocate (hbuilt : Calls {} table) {id : TypeId} (hid : id < table.types.size)
    (location : DataLocation) :
    ∃ id' after, table.relocate location id = some (id', after) ∧
      (∀ depth, id < depth → relocateWithin location depth table id = some (id', after)) ∧
      after.SeenAs location id id' := by
  have hclosed : table.Closed := Closed.empty.calls hbuilt
  have hget : table.get? id = some table.types[id] := Array.getElem?_eq_getElem hid
  obtain ⟨id', after, hrelocate, hcall, hkept, hid', -⟩ := hclosed.exists_relocate hget location
  have hafter : Calls {} after := hbuilt.tail hcall
  refine ⟨id', after, hrelocate, fun depth hdepth => ?_,
    (hclosed.call hcall).seenAs hafter.reaches.laidOut hkept hid'⟩
  rw [(hclosed.answersWithin hget hdepth).located, hrelocate]

/-- A struct of a number, a mapping and a number, relocated to memory. -/
theorem seenAs_of_relocate_struct :
    ∃ table after : TypeTable, Calls {} table ∧ table.info? 2 = some (.struct 0 .storage) ∧
      table.struct? 0 = some ⟨"Entry", [("a", 0), ("m", 1), ("b", 0)],
        ⟨[⟨0, 0⟩, ⟨1, 0⟩, ⟨2, 0⟩], 3⟩⟩ ∧
      table.relocate .memory 2 = some (3, after) ∧ after.SeenAs .memory 2 3 := by
  have hrun : (insertInfo {} (.int 8 false)).bind (fun p₁ =>
      (p₁.2.insertInfo (.mapping 0 0)).bind fun p₂ =>
      (p₂.2.insertStruct "Entry" [("a", 0), ("m", 1), ("b", 0)]).bind fun p₃ =>
      (p₃.2.insertInfo (.struct 0 .storage)).bind fun p₄ =>
      (p₄.2.relocate .memory 2).map fun p₅ =>
        ([p₁.2.types.size, p₃.2.structs.decls.size, p₄.2.types.size, p₅.1], p₄.2.info? 2,
          p₄.2.struct? 0)) =
      some ([1, 1, 3, 3], some (.struct 0 .storage),
        some ⟨"Entry", [("a", 0), ("m", 1), ("b", 0)], ⟨[⟨0, 0⟩, ⟨1, 0⟩, ⟨2, 0⟩], 3⟩⟩) := by
    decide +kernel
  obtain ⟨⟨id₁, t₁⟩, h₁, hrun⟩ := Option.bind_eq_some_iff.1 hrun
  obtain ⟨⟨id₂, t₂⟩, h₂, hrun⟩ := Option.bind_eq_some_iff.1 hrun
  obtain ⟨⟨d, t₃⟩, h₃, hrun⟩ := Option.bind_eq_some_iff.1 hrun
  obtain ⟨⟨id₄, t₄⟩, h₄, hrun⟩ := Option.bind_eq_some_iff.1 hrun
  obtain ⟨⟨id₅, t₅⟩, h₅, hrun⟩ := Option.map_eq_some_iff.1 hrun
  simp only [Prod.mk.injEq, List.cons.injEq, and_true] at hrun
  obtain ⟨⟨hone, hdecls, hthree, rfl⟩, hinfo, hstruct⟩ := hrun
  have hint : Knows {} (.int 8 false) :=
    ⟨fun c hc => absurd hc List.not_mem_nil, fun d hd => absurd hd List.not_mem_nil⟩
  have hmapping : t₁.Knows (.mapping 0 0) :=
    ⟨by simp [TypeNode.components, hone], fun d hd => absurd hd List.not_mem_nil⟩
  have hstruct' : t₃.Knows (.struct 0 .storage) :=
    ⟨fun c hc => absurd hc List.not_mem_nil, by simp [TypeNode.structs, hdecls]⟩
  have hbuilt : Calls {} t₄ :=
    (((Relation.ReflTransGen.single (.insert hint h₁)).tail (.insert hmapping h₂)).tail
      (.insertStruct h₃)).tail (.insert hstruct' h₄)
  have hid : 2 < t₄.types.size := Nat.lt_of_lt_of_eq (by decide) hthree.symm
  obtain ⟨id', after, hrelocate, -, hseen⟩ := seenAs_of_relocate hbuilt hid .memory
  obtain ⟨rfl, rfl⟩ := Prod.mk.inj (Option.some.inj (hrelocate.symm.trans h₅))
  exact ⟨t₄, after, hbuilt, hinfo, hstruct, hrelocate, hseen⟩

end TypeTable

end WordPlaces
