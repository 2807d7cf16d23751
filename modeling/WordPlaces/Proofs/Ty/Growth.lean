import Mathlib.Logic.Relation
import WordPlaces.Proofs.Ty.Node
import WordPlaces.Ty.Table

/-!
# How a type table grows

Types and struct declarations are only ever added to a type table.  A declaration keeps its number
and its layout, and the sizes that the layout was computed from stay as they are.

## Main definitions

* `StructTable.layoutMembers` — the layout that members get in a table of declarations.
* `StructTable.Extends` — a table of declarations that begins with those of another.
* `StructTable.LaidOut` — every declaration has the layout that its members get now.
* `TypeTable.Met`, `TypeTable.Keeps` — a type has a number; every number stands for the same type.
* `TypeTable.Step`, `TypeTable.Reaches` — one addition to a type table, and any number of them.

## Main results

* `TypeTable.meet_induction` — what stays true while a type is numbered with all its components.
* `TypeTable.Reaches.extends`, `TypeTable.Reaches.keeps`, `TypeTable.Reaches.laidOut` — what holds
  along all additions.
-/

set_option autoImplicit false

namespace WordPlaces

namespace StructTable

/-! ## Declarations -/

/-- The layout that members get in a table of declarations. -/
def layoutMembers (structs : StructTable) (members : List Member) : Except Fault Layout := do
  layoutOf (← members.mapM fun m => structs.storageSize m.ty)

/-- What is added by a declaration that is accepted. -/
theorem declare_eq_ok {structs structs' : StructTable} {name : String} {members : List Member}
    (h : structs.declare name members = .ok structs') :
    (∀ m ∈ members, m.ty.nestsBelow structs.decls.size = true) ∧
      ∃ layout, structs.layoutMembers members = .ok layout ∧
        structs'.decls = structs.decls.push ⟨name, members, layout⟩ := by
  rw [declare] at h
  split at h
  · rename_i hnests
    obtain ⟨sizes, hsizes, h⟩ := Except.exists_of_bind_eq_ok h
    obtain ⟨layout, hlayout, h⟩ := Except.exists_of_bind_eq_ok h
    obtain rfl := Except.ok.inj h
    refine ⟨hnests, layout, ?_, rfl⟩
    rw [layoutMembers, hsizes]
    exact hlayout
  · contradiction

/-- A table of declarations that begins with those of another. -/
structure Extends (structs structs' : StructTable) : Prop where
  size_le : structs.decls.size ≤ structs'.decls.size
  decl_eq : ∀ d < structs.decls.size, structs'.decl d = structs.decl d

namespace Extends

/-- A table extends itself. -/
theorem refl (structs : StructTable) : structs.Extends structs := ⟨Nat.le_refl _, fun _ _ => rfl⟩

/-- Extensions follow one another. -/
theorem trans {a b c : StructTable} (hab : a.Extends b) (hbc : b.Extends c) : a.Extends c where
  size_le := Nat.le_trans hab.size_le hbc.size_le
  decl_eq d hd :=
    (hbc.decl_eq d (Nat.lt_of_lt_of_le hd hab.size_le)).trans (hab.decl_eq d hd)

/-- A declaration extends the table. -/
theorem of_declare {structs structs' : StructTable} {name : String} {members : List Member}
    (h : structs.declare name members = .ok structs') : structs.Extends structs' := by
  obtain ⟨-, layout, -, hdecls⟩ := declare_eq_ok h
  refine ⟨by simp [hdecls], fun d hd => ?_⟩
  rw [decl, decl, hdecls, Array.getElem?_push_lt hd, Array.getElem?_eq_getElem hd]

/-- The size of a type that nests declarations of the smaller table only. -/
theorem storageSlots_eq {structs structs' : StructTable} (h : structs.Extends structs') {ty : Ty}
    (hty : ty.nestsBelow structs.decls.size = true) :
    structs'.storageSlots ty = structs.storageSlots ty := by
  induction ty using storageSlots.induct with
  | case1 element length location ih =>
    rw [storageSlots, storageSlots, ih (by simpa [Ty.nestsBelow] using hty)]
  | case2 d location =>
    rw [storageSlots, storageSlots, h.decl_eq d (by simpa [Ty.nestsBelow] using hty)]
  | case3 ty harray hstruct => rw [storageSlots, storageSlots] <;> assumption

/-- The layout of members that nest declarations of the smaller table only. -/
theorem layoutMembers_eq {structs structs' : StructTable} (h : structs.Extends structs')
    {members : List Member} (hm : ∀ m ∈ members, m.ty.nestsBelow structs.decls.size = true) :
    structs'.layoutMembers members = structs.layoutMembers members := by
  have hsizes : members.mapM (fun m => structs'.storageSize m.ty) =
      members.mapM (fun m => structs.storageSize m.ty) :=
    List.mapM_except_congr fun m hmem => by
      rw [storageSize, storageSize, h.storageSlots_eq (hm m hmem)]
  rw [layoutMembers, hsizes]
  rfl

end Extends

/-! ## Layouts -/

/-- A type that nests declarations below a number nests those below a greater one. -/
theorem nestsBelow_mono {ty : Ty} {d d' : StructId} (hd : d ≤ d')
    (h : ty.nestsBelow d = true) : ty.nestsBelow d' = true := by
  induction ty using Ty.nestsBelow.induct with
  | case1 element length location ih =>
    rw [Ty.nestsBelow] at h ⊢
    exact ih h
  | case2 d'' location =>
    simp only [Ty.nestsBelow, decide_eq_true_eq] at h ⊢
    exact Nat.lt_of_lt_of_le h hd
  | case3 ty harray hstruct => rw [Ty.nestsBelow] <;> assumption

/-- Every declaration has the layout that its members get. -/
def LaidOut (structs : StructTable) : Prop :=
  ∀ d < structs.decls.size,
    structs.layoutMembers (structs.decl d).members = .ok (structs.decl d).layout

/-- The members of a declaration nest earlier ones only. -/
theorem nestsBelow_of_mem_members {structs : StructTable} {d : StructId} {m : Member}
    (hd : d < structs.decls.size) (hm : m ∈ (structs.decl d).members) :
    m.ty.nestsBelow d = true := by
  rw [decl, Array.getElem?_eq_getElem hd, Option.getD_some] at hm
  exact structs.ordered d hd m hm

/-- An accepted declaration leaves every declaration with the layout that its members get. -/
theorem LaidOut.declare {structs structs' : StructTable} {name : String} {members : List Member}
    (hlaid : structs.LaidOut) (h : structs.declare name members = .ok structs') :
    structs'.LaidOut := by
  have hext := Extends.of_declare h
  obtain ⟨hnests, layout, hlayout, hdecls⟩ := declare_eq_ok h
  intro d hd
  rw [hdecls, Array.size_push] at hd
  rcases Nat.lt_succ_iff_lt_or_eq.1 hd with hlt | rfl
  · rw [hext.decl_eq d hlt, hext.layoutMembers_eq, hlaid d hlt]
    intro m hm
    exact nestsBelow_mono (Nat.le_of_lt hlt) (nestsBelow_of_mem_members hlt hm)
  · have hdecl : structs'.decl structs.decls.size = ⟨name, members, layout⟩ := by
      rw [decl, hdecls, Array.getElem?_push_size, Option.getD_some]
    rw [hdecl, hext.layoutMembers_eq hnests, hlayout]

end StructTable

/-! ## Type tables -/

namespace TypeTable

/-! ### Types that have been met -/

/-- The type has a number. -/
def Met (table : TypeTable) (ty : Ty) : Prop := ∃ k, table.get? k = some ty

/-- The types that have been met are those with numbers. -/
theorem met_iff {table : TypeTable} {ty : Ty} : table.Met ty ↔ (table.idOf? ty).isSome = true := by
  simp [Met, idOf?, get?, Array.getElem?_eq_some_iff]

/-- Every number stands for the type that it stood for. -/
def Keeps (table table' : TypeTable) : Prop :=
  ∀ ⦃k ty⦄, table.get? k = some ty → table'.get? k = some ty

/-- A table keeps its own numbers. -/
theorem Keeps.refl (table : TypeTable) : table.Keeps table := fun _ _ h => h

/-- Numbers that are kept twice are kept. -/
theorem Keeps.trans {a b c : TypeTable} (hab : a.Keeps b) (hbc : b.Keeps c) : a.Keeps c :=
  fun _ _ h => hbc (hab h)

/-- A type that has been met stays one. -/
theorem Met.keeps {table table' : TypeTable} {ty : Ty} (h : table.Met ty)
    (hkeeps : table.Keeps table') : table'.Met ty := h.imp fun _ hk => hkeeps hk

/-! ### One more type -/

/-- A type that has been met is not numbered again. -/
theorem insertNode_of_met {table : TypeTable} {ty : Ty} (h : table.Met ty) :
    table.insertNode ty = table := if_pos (met_iff.1 h)

/-- A type that has not been met gets the next number. -/
theorem insertNode_of_not_met {table : TypeTable} {ty : Ty} (h : ¬ table.Met ty) :
    table.insertNode ty = { table with types := table.types.push ty } :=
  if_neg (mt met_iff.2 h)

/-- A type that is met for the first time gets the next number. -/
theorem get?_push {table : TypeTable} {ty ty' : Ty} {k : TypeId} :
    get? { table with types := table.types.push ty } k = some ty' ↔
      table.get? k = some ty' ∨ k = table.types.size ∧ ty = ty' := by
  rw [get?, get?, Array.getElem?_push]
  split
  · rename_i hk
    simp [hk]
  · rename_i hk
    simp [hk]

/-- Numbering a type declares no struct. -/
theorem structs_insertNode (table : TypeTable) (ty : Ty) :
    (table.insertNode ty).structs = table.structs := by
  rw [insertNode]
  split <;> rfl

/-- Numbering a type keeps the numbers of others. -/
theorem keeps_insertNode (table : TypeTable) (ty : Ty) : table.Keeps (table.insertNode ty) := by
  by_cases h : table.Met ty
  · rw [insertNode_of_met h]
    exact .refl table
  · rw [insertNode_of_not_met h]
    exact fun k ty' hk => get?_push.2 (.inl hk)

/-- A type has been met once it has a number. -/
theorem met_insertNode (table : TypeTable) (ty : Ty) : (table.insertNode ty).Met ty := by
  by_cases h : table.Met ty
  · rwa [insertNode_of_met h]
  · rw [insertNode_of_not_met h]
    exact ⟨table.types.size, get?_push.2 (.inr ⟨rfl, rfl⟩)⟩

/-! ### A type after its components -/

/-- A type is numbered after its components. -/
theorem meet_eq (table : TypeTable) (ty : Ty) : table.meet ty =
    if (table.idOf? ty).isSome then table
    else (meet.meetAll table ty.node.components).insertNode ty := by
  cases ty <;> unfold meet <;> rfl

/-- Meeting a type again changes nothing. -/
theorem meet_of_met {table : TypeTable} {ty : Ty} (h : table.Met ty) : table.meet ty = table := by
  rw [meet_eq, if_pos (met_iff.1 h)]

/-- What holds of a table, and stays true when one more type is numbered whose components are met,
stays true when a type is numbered with everything that it is built from.  `Q` is what is known of
the types.

**Proof sketch.** Induction on the type: its components are met one after the other, each keeping
the numbers of those before it, and then the type is numbered. -/
theorem meet_induction {P : TypeTable → Prop} {Q : Ty → Prop}
    (hQ : ∀ ty, Q ty → ∀ c ∈ ty.node.components, Q c)
    (hP : ∀ table ty, Q ty → (∀ c ∈ ty.node.components, table.Met c) → P table →
      P (table.insertNode ty))
    {table : TypeTable} {ty : Ty} (hty : Q ty) (htable : P table) :
    P (table.meet ty) ∧ table.Keeps (table.meet ty) ∧ (table.meet ty).Met ty := by
  induction ty using Ty.induction_components generalizing table with
  | node ty ih =>
    have hall : ∀ tys : List Ty, (∀ c ∈ tys, c ∈ ty.node.components) → ∀ {table}, P table →
        P (meet.meetAll table tys) ∧ table.Keeps (meet.meetAll table tys) ∧
          ∀ c ∈ tys, (meet.meetAll table tys).Met c := by
      intro tys
      induction tys with
      | nil => exact fun _ table htable => ⟨htable, .refl table, by simp⟩
      | cons c tys ihtys =>
        intro hmem table htable
        have hc := hmem c List.mem_cons_self
        obtain ⟨hfirst, hkeeps, hmet⟩ := ih c hc (hQ ty hty c hc) htable
        obtain ⟨hrest, hkeeps', hmet'⟩ := ihtys (fun c hc => hmem c (List.mem_cons_of_mem _ hc)) hfirst
        exact ⟨hrest, hkeeps.trans hkeeps', List.forall_mem_cons.2 ⟨hmet.keeps hkeeps', hmet'⟩⟩
    by_cases h : table.Met ty
    · rw [meet_of_met h]
      exact ⟨htable, .refl table, h⟩
    · rw [meet_eq, if_neg (mt met_iff.2 h)]
      obtain ⟨hcomponents, hkeeps, hmet⟩ := hall _ (fun _ hc => hc) htable
      exact ⟨hP _ ty hty hmet hcomponents, hkeeps.trans (keeps_insertNode _ ty), met_insertNode _ ty⟩

/-- Meeting a type declares no struct. -/
theorem structs_meet (table : TypeTable) (ty : Ty) :
    (table.meet ty).structs = table.structs :=
  (meet_induction (P := fun table' => table'.structs = table.structs) (Q := fun _ => True)
    (fun _ _ _ _ => trivial) (fun _ _ _ _ h => (structs_insertNode _ _).trans h) trivial rfl).1

/-- Meeting a type keeps the numbers of others. -/
theorem keeps_meet (table : TypeTable) (ty : Ty) : table.Keeps (table.meet ty) :=
  (meet_induction (P := fun _ => True) (Q := fun _ => True)
    (fun _ _ _ _ => trivial) (fun _ _ _ _ _ => trivial) trivial trivial).2.1

/-! ### Numbering a type, or the members of a struct -/

/-- The number of a type stands for it. -/
theorem get?_of_idOf?_eq_some {table : TypeTable} {ty : Ty} {k : TypeId}
    (h : table.idOf? ty = some k) : table.get? k = some ty := by
  obtain ⟨hk, hty, -⟩ := Array.findIdx?_eq_some_iff_getElem.1 h
  rw [get?, Array.getElem?_eq_getElem hk, eq_of_beq hty]

/-- The number that a type is given stands for the type. -/
theorem get?_insert (table : TypeTable) (ty : Ty) :
    (table.insert ty).2.get? (table.insert ty).1 = some ty := by
  have hmet : (table.meet ty).Met ty :=
    (meet_induction (P := fun _ => True) (Q := fun _ => True)
      (fun _ _ _ _ => trivial) (fun _ _ _ _ _ => trivial) trivial trivial).2.2
  obtain ⟨k, hk⟩ := Option.isSome_iff_exists.1 (met_iff.1 hmet)
  rw [insert]
  exact get?_of_idOf?_eq_some (by rw [hk]; rfl)

/-- Inserting a type declares no struct. -/
theorem structs_insert (table : TypeTable) (ty : Ty) :
    (table.insert ty).2.structs = table.structs := structs_meet table ty

/-- Inserting a type keeps the numbers of others. -/
theorem keeps_insert (table : TypeTable) (ty : Ty) : table.Keeps (table.insert ty).2 :=
  keeps_meet table ty

/-- Numbering types one after the other: what numbering one of them leaves true stays true, and
every number stands for its type in the end. -/
theorem foldl_insert {P : TypeTable → Prop} {fields : List StructTable.Field}
    (hP : ∀ table, ∀ f ∈ fields, P table → P (table.insert f.ty).2)
    (start : List (TypeId × StructTable.Field) × TypeTable)
    {finish : List (TypeId × StructTable.Field) × TypeTable} (hstart : P start.2)
    (hids : ∀ p ∈ start.1, start.2.get? p.1 = some p.2.ty)
    (h : fields.foldl (fun (numbered, table) f =>
      let (id, table) := table.insert f.ty
      (numbered ++ [(id, f)], table)) start = finish) :
    P finish.2 ∧ start.2.Keeps finish.2 ∧ finish.1.map Prod.snd = start.1.map Prod.snd ++ fields ∧
      ∀ p ∈ finish.1, finish.2.get? p.1 = some p.2.ty := by
  induction fields generalizing start with
  | nil =>
    obtain rfl := h
    exact ⟨hstart, .refl _, by simp, hids⟩
  | cons f fields ih =>
    have hkeeps := keeps_insert start.2 f.ty
    obtain ⟨hfinish, hkeeps', hfields, hids'⟩ := ih
      (fun table g hg => hP table g (List.mem_cons_of_mem _ hg)) _ (hP _ f List.mem_cons_self hstart)
      (by
        intro p hp
        rcases List.mem_append.1 hp with hp | hp
        · exact hkeeps (hids p hp)
        · obtain rfl := List.mem_singleton.1 hp
          exact get?_insert start.2 f.ty) h
    exact ⟨hfinish, hkeeps.trans hkeeps', by simpa using hfields, hids'⟩

/-- The members of a struct are numbered one after the other. -/
theorem insertMembers_eq_ok {P : TypeTable → Prop} {table table' : TypeTable} {ty : Ty}
    {numbered : List (TypeId × StructTable.Field)}
    (h : table.insertMembers ty = .ok (numbered, table')) (htable : P table)
    (hP : ∀ fields, table.structs.membersOf ty = .ok fields →
      ∀ table, ∀ f ∈ fields, P table → P (table.insert f.ty).2) :
    P table' ∧ table.Keeps table' ∧ table.structs.membersOf ty = .ok (numbered.map Prod.snd) ∧
      ∀ p ∈ numbered, table'.get? p.1 = some p.2.ty := by
  obtain ⟨fields, hfields, h⟩ := Except.exists_of_map_eq_ok h
  obtain ⟨htable', hkeeps, hsnd, hids⟩ := foldl_insert (hP fields hfields) ([], table) htable
    (fun p hp => absurd hp List.not_mem_nil) h.symm
  exact ⟨htable', hkeeps, hfields.trans (congrArg Except.ok hsnd.symm), hids⟩

/-- Numbering the members of a struct leaves the declarations alone. -/
theorem structs_insertMembers {table table' : TypeTable} {ty : Ty}
    {numbered : List (TypeId × StructTable.Field)}
    (h : table.insertMembers ty = .ok (numbered, table')) :
    table'.structs = table.structs :=
  (insertMembers_eq_ok (P := fun table' => table'.structs = table.structs) h rfl
    fun _ _ table f _ htable => (structs_insert table f.ty).trans htable).1

/-- Additions to a type table. -/
inductive Step : TypeTable → TypeTable → Prop
  /-- A type is numbered. -/
  | insert (table : TypeTable) (ty : Ty) : Step table (table.insert ty).2
  /-- The types of the members of a struct are numbered. -/
  | insertMembers {table table' : TypeTable} {ty : Ty}
      {numbered : List (TypeId × StructTable.Field)}
      (h : table.insertMembers ty = .ok (numbered, table')) : Step table table'
  /-- A struct is declared. -/
  | declareStruct {table table' : TypeTable} {name : String} {members : List Member}
      {d : StructId} (h : table.declareStruct name members = .ok (d, table')) : Step table table'

/-- The second table is the first one after any number of additions. -/
def Reaches : TypeTable → TypeTable → Prop := Relation.ReflTransGen Step

variable {table table' : TypeTable}

/-! ### What any number of additions keeps -/

/-- An addition leaves the declarations there are as they are. -/
theorem Step.extends (h : table.Step table') : table.structs.Extends table'.structs := by
  cases h with
  | insert ty => rw [structs_insert]; exact .refl _
  | insertMembers h => rw [structs_insertMembers h]; exact .refl _
  | declareStruct h =>
    obtain ⟨structs, hdeclare, h⟩ := Except.exists_of_map_eq_ok h
    obtain rfl := congrArg Prod.snd h
    exact .of_declare hdeclare

/-- An addition leaves every number with the type that it stands for. -/
theorem Step.keeps (h : table.Step table') : table.Keeps table' := by
  cases h with
  | insert ty => exact keeps_insert table ty
  | insertMembers h =>
    exact (insertMembers_eq_ok (P := fun _ => True) h trivial fun _ _ _ _ _ _ => trivial).2.1
  | declareStruct h =>
    obtain ⟨structs, -, h⟩ := Except.exists_of_map_eq_ok h
    obtain rfl := congrArg Prod.snd h
    exact .refl table

/-- An addition leaves every declaration with the layout that its members get. -/
theorem Step.laidOut (h : table.Step table') (hlaid : table.structs.LaidOut) :
    table'.structs.LaidOut := by
  cases h with
  | insert ty => rw [structs_insert]; exact hlaid
  | insertMembers h => rw [structs_insertMembers h]; exact hlaid
  | declareStruct h =>
    obtain ⟨structs, hdeclare, h⟩ := Except.exists_of_map_eq_ok h
    obtain rfl := congrArg Prod.snd h
    exact hlaid.declare hdeclare

/-- The declarations there are stay as they are. -/
theorem Reaches.extends (h : table.Reaches table') : table.structs.Extends table'.structs := by
  induction h with
  | refl => exact .refl _
  | tail _ hstep ih => exact ih.trans hstep.extends

/-- Every number goes on to stand for the type that it stands for. -/
theorem Reaches.keeps (h : table.Reaches table') : table.Keeps table' := by
  induction h with
  | refl => exact .refl _
  | tail _ hstep ih => exact ih.trans hstep.keeps

/-- Every declaration of a table that was built from nothing has the layout that its members get. -/
theorem Reaches.laidOut (h : Reaches {} table) : table.structs.LaidOut := by
  induction h with
  | refl => exact fun d hd => absurd hd (Nat.not_lt_zero d)
  | tail _ hstep ih => exact hstep.laidOut ih

end TypeTable

end WordPlaces
