import WordPlaces.Proofs.Ty.Numbering

/-!
# Types known by number

Whoever uses a type table holds numbers: a type is asked for by its topmost level, with the numbers of
its components, and a table answers a number with the same.

## Main definitions

* `TypeInfo`, `StructInfo` — one level of a type and a declaration, with numbers for their types.
* `TypeTable.info?`, `TypeTable.struct?` — what a number stands for.
* `TypeTable.insertInfo`, `TypeTable.insertStruct`, `TypeTable.relocate`, `TypeTable.structMembers` —
  the calls, by number.
* `TypeTable.Knows` — a type is built from numbers that have been given.
* `TypeTable.Call`, `TypeTable.Calls` — one call, and any number of them.

## Main results

* `TypeTable.Closed.calls` — calls leave nothing missing in a table.
* `TypeTable.Closed.info?_insertInfo`, `TypeTable.Closed.info?_inj` — a type gets a number that stands
  for it, and no other number does.
* `TypeTable.Calls.info?_eq`, `TypeTable.Calls.struct?_eq` — numbers go on to stand for what they
  stand for.
-/

set_option autoImplicit false

namespace WordPlaces

/-- One level of a type, with numbers for its components. -/
abbrev TypeInfo := TypeNode TypeId

/-- A struct declaration, with numbers for the types of its members. -/
structure StructInfo where
  name : String
  members : List (String × TypeId)
  layout : Layout
  deriving Repr, DecidableEq

namespace TypeTable

/-! ## Numbers in place of types -/

/-- What a number stands for. -/
def info? (table : TypeTable) (id : TypeId) : Option TypeInfo :=
  (table.get? id).bind fun ty => ty.node.traverse table.idOf?

/-- The declaration with a number. -/
def struct? (table : TypeTable) (d : StructId) : Option StructInfo :=
  table.structs.decls[d]?.bind fun decl =>
    (decl.members.mapM fun m => (table.idOf? m.ty).map (m.name, ·)).map
      (⟨decl.name, ·, decl.layout⟩)

/-- The number of a type that is built from numbered types. -/
def insertInfo (table : TypeTable) (info : TypeInfo) : Option (TypeId × TypeTable) :=
  (info.traverse table.get?).map fun node => table.insert node.toTy

/-- Declares a struct with members of numbered types. -/
def insertStruct (table : TypeTable) (name : String) (members : List (String × TypeId)) :
    Option (StructId × TypeTable) :=
  (members.mapM fun m => (table.get? m.2).map (Member.mk m.1)).bind fun members =>
    (table.declareStruct name members).toOption

/-- The number of a type seen through another data location. -/
def relocate (table : TypeTable) (location : DataLocation) (id : TypeId) :
    Option (TypeId × TypeTable) :=
  (table.get? id).map fun ty => table.insert (ty.located location)

/-- The members of a struct type, with the numbers of their relocated types. -/
def structMembers (table : TypeTable) (id : TypeId) :
    Option (List (TypeId × StructTable.Field) × TypeTable) :=
  (table.get? id).bind fun ty => (table.insertMembers ty).toOption

/-- The member with a numbered type is the declared member. -/
def Declares (table : TypeTable) (m : String × TypeId) (m' : Member) : Prop :=
  table.get? m.2 = some m'.ty ∧ m'.name = m.1

/-- The type is built from numbers that have been given. -/
structure Knows (table : TypeTable) (info : TypeInfo) : Prop where
  components : ∀ c ∈ info.components, c < table.types.size
  structs : ∀ d ∈ info.structs, d < table.structs.decls.size

/-- A call that mentions only numbers that have been given, and leads to an answer. -/
inductive Call : TypeTable → TypeTable → Prop
  | insert {table table' : TypeTable} {info : TypeInfo} {id : TypeId} (hknows : table.Knows info)
      (h : table.insertInfo info = some (id, table')) : Call table table'
  | insertStruct {table table' : TypeTable} {name : String} {members : List (String × TypeId)}
      {d : StructId} (h : table.insertStruct name members = some (d, table')) : Call table table'
  | relocate {table table' : TypeTable} {location : DataLocation} {id id' : TypeId}
      (h : table.relocate location id = some (id', table')) : Call table table'
  | structMembers {table table' : TypeTable} {id : TypeId}
      {numbered : List (TypeId × StructTable.Field)}
      (h : table.structMembers id = some (numbered, table')) : Call table table'

/-- The second table is the first one after any number of calls. -/
def Calls : TypeTable → TypeTable → Prop := Relation.ReflTransGen Call

variable {table table' : TypeTable}

/-! ## Calls -/

/-- A level of a type is inserted as the type that its numbers stand for. -/
theorem insertInfo_eq_some_iff {info : TypeInfo} {id : TypeId} :
    table.insertInfo info = some (id, table') ↔
      ∃ node, info.traverse table.get? = some node ∧ table.insert node.toTy = (id, table') :=
  Option.map_eq_some_iff

/-- A number is relocated as the type that it stands for. -/
theorem relocate_eq_some_iff {location : DataLocation} {id id' : TypeId} :
    table.relocate location id = some (id', table') ↔
      ∃ ty, table.get? id = some ty ∧ table.insert (ty.located location) = (id', table') :=
  Option.map_eq_some_iff

/-- The members of a number are those of the type that it stands for. -/
theorem structMembers_eq_some_iff {id : TypeId} {numbered : List (TypeId × StructTable.Field)} :
    table.structMembers id = some (numbered, table') ↔
      ∃ ty, table.get? id = some ty ∧ table.insertMembers ty = .ok (numbered, table') := by
  rw [structMembers, Option.bind_eq_some_iff]
  refine exists_congr fun ty => and_congr_right fun _ => ?_
  cases table.insertMembers ty <;> simp [Except.toOption]

/-- The member that a name and a number declare. -/
theorem declares_iff {m : String × TypeId} {m' : Member} :
    (table.get? m.2).map (Member.mk m.1) = some m' ↔ table.Declares m m' := by
  rw [Option.map_eq_some_iff]
  constructor
  · rintro ⟨ty, hty, rfl⟩
    exact ⟨hty, rfl⟩
  · rintro ⟨hty, hname⟩
    exact ⟨m'.ty, hty, hname ▸ rfl⟩

/-- A struct is declared with the types that the numbers of its members stand for. -/
theorem insertStruct_eq_some_iff {name : String} {members : List (String × TypeId)} {d : StructId} :
    table.insertStruct name members = some (d, table') ↔
      ∃ declared, List.Forall₂ table.Declares members declared ∧
        table.declareStruct name declared = .ok (d, table') := by
  rw [insertStruct, Option.bind_eq_some_iff]
  refine exists_congr fun declared => and_congr ?_ ?_
  · simp only [List.mapM_eq_some_iff, declares_iff]
  · cases table.declareStruct name declared <;> simp [Except.toOption]

/-- The members of a struct type are those of its declaration, relocated, and their numbers stand for
their types. -/
theorem exists_struct_of_structMembers {id : TypeId} {numbered : List (TypeId × StructTable.Field)}
    (h : table.structMembers id = some (numbered, table')) :
    ∃ d location, table.get? id = some (.struct d location) ∧
      numbered.map Prod.snd =
        (table.structs.fields d).map (fun f => { f with ty := f.ty.located location }) ∧
      ∀ p ∈ numbered, table'.get? p.1 = some p.2.ty := by
  obtain ⟨ty, hty, h⟩ := structMembers_eq_some_iff.1 h
  obtain ⟨-, -, hmembers, hids⟩ :=
    insertMembers_eq_ok (P := fun _ => True) h trivial fun _ _ _ _ _ _ => trivial
  cases ty with
  | struct d location => exact ⟨d, location, hty, (Except.ok.inj hmembers).symm, hids⟩
  | _ => contradiction

/-- Every struct type has members. -/
theorem exists_structMembers {id : TypeId} {d : StructId} {location : DataLocation}
    (hid : table.get? id = some (.struct d location)) :
    ∃ numbered table', table.structMembers id = some (numbered, table') ∧
      numbered.map Prod.snd =
        (table.structs.fields d).map (fun f => { f with ty := f.ty.located location }) ∧
      ∀ p ∈ numbered, table'.get? p.1 = some p.2.ty := by
  obtain ⟨numbered, table', hmembers⟩ :
      ∃ numbered table', table.structMembers id = some (numbered, table') :=
    ⟨_, _, structMembers_eq_some_iff.2 ⟨_, hid, rfl⟩⟩
  obtain ⟨d', location', hid', hfields, hids⟩ := exists_struct_of_structMembers hmembers
  obtain ⟨rfl, rfl⟩ := Ty.struct.inj (Option.some.inj (hid.symm.trans hid'))
  exact ⟨numbered, table', hmembers, hfields, hids⟩

/-- A call adds to a type table. -/
theorem Call.step (h : table.Call table') : table.Step table' := by
  cases h with
  | insert _ h =>
    obtain ⟨node, -, h⟩ := insertInfo_eq_some_iff.1 h
    obtain rfl := congrArg Prod.snd h
    exact .insert table node.toTy
  | insertStruct h =>
    obtain ⟨declared, -, h⟩ := insertStruct_eq_some_iff.1 h
    exact .declareStruct h
  | relocate h =>
    obtain ⟨ty, -, h⟩ := relocate_eq_some_iff.1 h
    obtain rfl := congrArg Prod.snd h
    exact .insert table _
  | structMembers h =>
    obtain ⟨ty, -, h⟩ := structMembers_eq_some_iff.1 h
    exact .insertMembers h

/-- Calls add to a type table one after the other. -/
theorem Calls.reaches (h : table.Calls table') : table.Reaches table' :=
  Relation.ReflTransGen.mono (fun _ _ => Call.step) table table' h

/-! ## Numbers and types -/

/-- Numbers that have been given stand for types. -/
theorem exists_traverse_get? {info : TypeInfo} (h : table.Knows info) :
    ∃ node, info.traverse table.get? = some node :=
  TypeNode.exists_traverse_eq_some fun c hc => ⟨_, Array.getElem?_eq_getElem (h.components c hc)⟩

/-- Numbers go on to stand for their types in a table that keeps them. -/
theorem traverse_get?_keeps (hkeeps : table.Keeps table') {info : TypeInfo} {node : TypeNode Ty}
    (h : info.traverse table.get? = some node) : info.traverse table'.get? = some node :=
  TypeNode.traverse_eq_some_iff.2 ((TypeNode.traverse_eq_some_iff.1 h).imp fun _ _ hc => hkeeps hc)

namespace Closed

/-- Numbers stand for types as types have numbers. -/
theorem traverse_idOf?_eq_some_iff (h : table.Closed) {info : TypeInfo} {node : TypeNode Ty} :
    node.traverse table.idOf? = some info ↔ info.traverse table.get? = some node := by
  rw [TypeNode.traverse_eq_some_iff, TypeNode.traverse_eq_some_iff]
  exact ⟨fun hrel => hrel.symm.imp fun _ _ hc => h.idOf?_eq_some_iff.1 hc,
    fun hrel => hrel.symm.imp fun _ _ hc => h.idOf?_eq_some_iff.2 hc⟩

/-- What a number stands for is the topmost level of the type that it stands for. -/
theorem info?_eq_some_iff (h : table.Closed) {id : TypeId} {info : TypeInfo} :
    table.info? id = some info ↔
      ∃ ty, table.get? id = some ty ∧ info.traverse table.get? = some ty.node := by
  simp only [info?, Option.bind_eq_some_iff, h.traverse_idOf?_eq_some_iff]

/-- Every number stands for a level of a type. -/
theorem exists_info? (h : table.Closed) {id : TypeId} {ty : Ty} (hty : table.get? id = some ty) :
    ∃ info, table.info? id = some info ∧ info.traverse table.get? = some ty.node := by
  obtain ⟨info, hinfo⟩ := TypeNode.exists_traverse_eq_some (f := table.idOf?) (n := ty.node)
    fun c hc => Option.isSome_iff_exists.1 (met_iff.1 (h.met_component ⟨id, hty⟩ hc))
  have hinfo := h.traverse_idOf?_eq_some_iff.1 hinfo
  exact ⟨info, h.info?_eq_some_iff.2 ⟨ty, hty, hinfo⟩, hinfo⟩

/-- A level of a type has one number. -/
theorem info?_inj (h : table.Closed) {id id' : TypeId} {info : TypeInfo}
    (hid : table.info? id = some info) (hid' : table.info? id' = some info) : id = id' := by
  obtain ⟨ty, hty, hnode⟩ := h.info?_eq_some_iff.1 hid
  obtain ⟨ty', hty', hnode'⟩ := h.info?_eq_some_iff.1 hid'
  have heq : ty = ty' := by
    rw [← Ty.toTy_node ty, ← Ty.toTy_node ty', Option.some.inj (hnode.symm.trans hnode')]
  exact h.unique hty (heq ▸ hty')

/-- A type that mentions numbers which have been given mentions declared structs. -/
theorem mentions_of_knows (h : table.Closed) {info : TypeInfo} (hknows : table.Knows info)
    {node : TypeNode Ty} (hnode : info.traverse table.get? = some node) :
    node.toTy.mentionsBelow table.structs.decls.size = true := by
  have hrel := TypeNode.traverse_eq_some_iff.1 hnode
  rw [Ty.mentionsBelow_iff, Ty.node_toTy, ← hrel.structs_eq]
  refine ⟨hknows.structs, fun c hc => ?_⟩
  obtain ⟨k, -, hk⟩ := hrel.symm.exists_of_mem hc
  exact h.mentions hk

/-! ### What a call leaves -/

/-- A closed table stays closed. -/
theorem call (h : table.Closed) (hcall : table.Call table') : table'.Closed := by
  cases hcall with
  | insert hknows hinsert =>
    obtain ⟨node, hnode, hinsert⟩ := insertInfo_eq_some_iff.1 hinsert
    obtain rfl := congrArg Prod.snd hinsert
    exact h.insert (h.mentions_of_knows hknows hnode)
  | insertStruct hinsert =>
    obtain ⟨declared, hdeclared, hinsert⟩ := insertStruct_eq_some_iff.1 hinsert
    refine h.declareStruct (fun m hm => ?_) hinsert
    obtain ⟨i, hi, rfl⟩ := List.getElem_of_mem hm
    exact ⟨_, (hdeclared.get (hdeclared.length_eq ▸ hi) hi).1⟩
  | relocate hinsert =>
    obtain ⟨ty, hty, hinsert⟩ := relocate_eq_some_iff.1 hinsert
    obtain rfl := congrArg Prod.snd hinsert
    exact h.insert (Ty.mentionsBelow_located _ (h.mentions hty))
  | structMembers hinsert =>
    obtain ⟨ty, hty, hinsert⟩ := structMembers_eq_some_iff.1 hinsert
    exact h.insertMembers (h.mentions hty) hinsert

/-- A closed table stays closed along calls. -/
theorem calls (h : table.Closed) (hcalls : table.Calls table') : table'.Closed := by
  induction hcalls with
  | refl => exact h
  | tail _ hcall ih => exact ih.call hcall

end Closed

/-! ## What numbers stand for -/

/-- A type that is built from numbers which have been given is given a number. -/
theorem exists_insertInfo {info : TypeInfo} (hknows : table.Knows info) :
    ∃ id table', table.insertInfo info = some (id, table') := by
  obtain ⟨node, hnode⟩ := exists_traverse_get? hknows
  exact ⟨_, _, insertInfo_eq_some_iff.2 ⟨node, hnode, rfl⟩⟩

namespace Closed

/-- The number that a type is given stands for it. -/
theorem info?_insertInfo (h : table.Closed) {info : TypeInfo} (hknows : table.Knows info)
    {id : TypeId} (hinsert : table.insertInfo info = some (id, table')) :
    table'.info? id = some info := by
  have hclosed := h.call (.insert hknows hinsert)
  have hkeeps := (Call.insert hknows hinsert).step.keeps
  obtain ⟨node, hnode, heq⟩ := insertInfo_eq_some_iff.1 hinsert
  have hget := get?_insert table node.toTy
  rw [heq] at hget
  exact hclosed.info?_eq_some_iff.2 ⟨node.toTy, hget,
    (Ty.node_toTy node).symm ▸ traverse_get?_keeps hkeeps hnode⟩

/-- The components of a type have smaller numbers. -/
theorem lt_of_mem_components (h : table.Closed) {id c : TypeId} {info : TypeInfo}
    (hinfo : table.info? id = some info) (hc : c ∈ info.components) : c < id := by
  obtain ⟨ty, hty, hnode⟩ := h.info?_eq_some_iff.1 hinfo
  obtain ⟨ty', hmem, hget⟩ := (TypeNode.traverse_eq_some_iff.1 hnode).exists_of_mem hc
  obtain ⟨j, hlt, hj⟩ := h.component hty ty' hmem
  exact h.unique hj hget ▸ hlt

end Closed

/-! ### Later tables -/

/-- A number goes on to stand for what it stands for. -/
theorem Calls.info?_eq (hcalls : table.Calls table') (h : table.Closed) {id : TypeId}
    {info : TypeInfo} (hinfo : table.info? id = some info) : table'.info? id = some info := by
  have hkeeps := hcalls.reaches.keeps
  obtain ⟨ty, hty, hnode⟩ := h.info?_eq_some_iff.1 hinfo
  exact (h.calls hcalls).info?_eq_some_iff.2 ⟨ty, hkeeps hty, traverse_get?_keeps hkeeps hnode⟩

/-- Types get the same number, at whatever times, exactly if they are the same. -/
theorem Closed.insertInfo_eq_iff (h : table.Closed) {after later after' : TypeTable}
    {info info' : TypeInfo} {id id' : TypeId} (hknows : table.Knows info)
    (hinsert : table.insertInfo info = some (id, after)) (hcalls : after.Calls later)
    (hknows' : later.Knows info') (hinsert' : later.insertInfo info' = some (id', after')) :
    id = id' ↔ info = info' := by
  have hafter := h.call (.insert hknows hinsert)
  have hlater := hafter.calls hcalls
  have hcall : later.Call after' := .insert hknows' hinsert'
  have hinfo : after'.info? id = some info :=
    Calls.info?_eq (hcalls.tail hcall) hafter (h.info?_insertInfo hknows hinsert)
  have hinfo' : after'.info? id' = some info' := hlater.info?_insertInfo hknows' hinsert'
  constructor
  · rintro rfl
    exact Option.some.inj (hinfo.symm.trans hinfo')
  · rintro rfl
    exact (hlater.call hcall).info?_inj hinfo hinfo'

/-! ## Declarations -/

namespace Closed

/-- In a closed table, the name and the number that declare a member. -/
theorem declares_iff (h : table.Closed) {m : String × TypeId} {m' : Member} :
    (table.idOf? m'.ty).map (m'.name, ·) = some m ↔ table.Declares m m' := by
  simp only [Option.map_eq_some_iff, h.idOf?_eq_some_iff]
  constructor
  · rintro ⟨k, hk, rfl⟩
    exact ⟨hk, rfl⟩
  · rintro ⟨hk, hname⟩
    exact ⟨m.2, hk, hname ▸ rfl⟩

/-- What the number of a struct stands for is its declaration. -/
theorem struct?_eq_some_iff (h : table.Closed) {d : StructId} {s : StructInfo} :
    table.struct? d = some s ↔ d < table.structs.decls.size ∧
      s.name = (table.structs.decl d).name ∧ s.layout = (table.structs.decl d).layout ∧
      List.Forall₂ table.Declares s.members (table.structs.decl d).members := by
  by_cases hd : d < table.structs.decls.size
  · have hmembers : ∀ members, ((table.structs.decl d).members.mapM fun m =>
        (table.idOf? m.ty).map (m.name, ·)) = some members ↔
          List.Forall₂ table.Declares members (table.structs.decl d).members := by
      intro members
      simp only [List.mapM_eq_some_iff, h.declares_iff]
      exact ⟨fun hm => hm.flip, fun hm => hm.flip⟩
    have hdecl : table.structs.decls[d]? = some (table.structs.decl d) := by
      rw [StructTable.decl, Array.getElem?_eq_getElem hd, Option.getD_some]
    rw [struct?, hdecl, Option.bind_some, Option.map_eq_some_iff]
    simp only [hmembers, hd, true_and]
    constructor
    · rintro ⟨members, hdeclares, rfl⟩
      exact ⟨rfl, rfl, hdeclares⟩
    · rintro ⟨hname, hlayout, hdeclares⟩
      exact ⟨s.members, hdeclares, by rw [← hname, ← hlayout]⟩
  · simp [struct?, hd]

/-- Every declaration has a number that stands for it. -/
theorem exists_struct? (h : table.Closed) {d : StructId} (hd : d < table.structs.decls.size) :
    ∃ s, table.struct? d = some s := by
  have hmembers : ∀ m ∈ (table.structs.decl d).members,
      ∃ p, (table.idOf? m.ty).map (m.name, ·) = some p := by
    intro m hm
    obtain ⟨k, hk⟩ := h.member_met d hd m hm
    exact ⟨(m.name, k), h.declares_iff.2 ⟨hk, rfl⟩⟩
  obtain ⟨members, hall⟩ := List.exists_mapM_eq_some hmembers
  simp only [List.mapM_eq_some_iff, h.declares_iff] at hall
  exact ⟨⟨_, members, _⟩, h.struct?_eq_some_iff.2 ⟨hd, rfl, rfl, hall.flip⟩⟩

/-- The number that a struct is given stands for its declaration. -/
theorem struct?_insertStruct (h : table.Closed) {name : String} {members : List (String × TypeId)}
    {d : StructId} (hinsert : table.insertStruct name members = some (d, table')) :
    ∃ layout, table'.struct? d = some ⟨name, members, layout⟩ := by
  have hclosed := h.call (.insertStruct hinsert)
  obtain ⟨declared, hdeclared, hdeclare⟩ := insertStruct_eq_some_iff.1 hinsert
  obtain ⟨structs, hstructs, heq⟩ := Except.exists_of_map_eq_ok hdeclare
  obtain ⟨rfl, rfl⟩ := Prod.mk.inj heq
  obtain ⟨-, layout, -, hdecls⟩ := StructTable.declare_eq_ok hstructs
  have hdecl : structs.decl table.structs.decls.size = ⟨name, declared, layout⟩ := by
    rw [StructTable.decl, hdecls, Array.getElem?_push_size, Option.getD_some]
  refine ⟨layout, hclosed.struct?_eq_some_iff.2 ⟨?_, ?_, ?_, ?_⟩⟩
  · simp [hdecls]
  all_goals simp only [hdecl]
  exact hdeclared

end Closed

/-- The number of a struct goes on to stand for the same declaration and places. -/
theorem Calls.struct?_eq (hcalls : table.Calls table') (h : table.Closed) {d : StructId}
    {s : StructInfo} (hs : table.struct? d = some s) : table'.struct? d = some s := by
  have hext := hcalls.reaches.extends
  obtain ⟨hd, hname, hlayout, hmembers⟩ := h.struct?_eq_some_iff.1 hs
  rw [(h.calls hcalls).struct?_eq_some_iff, hext.decl_eq d hd]
  exact ⟨Nat.lt_of_lt_of_le hd hext.size_le, hname, hlayout,
    hmembers.imp fun _ _ hm => ⟨hcalls.reaches.keeps hm.1, hm.2⟩⟩

end TypeTable

end WordPlaces
