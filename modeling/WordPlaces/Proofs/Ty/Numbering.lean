import WordPlaces.Proofs.Ty.Growth

/-!
# Tables with nothing missing

A type table that is only asked for types and members built from what it has numbered has a number
for everything that is mentioned in it, and each type has one number.

## Main definitions

* `Ty.mentionsBelow` — the structs that are mentioned anywhere in a type have numbers below a bound.
* `TypeTable.Closed` — one number for each type, smaller ones for its components, and every struct
  mentions earlier structs only.

## Main results

* `TypeTable.Closed.idOf?_eq_some_iff` — in a closed table the number of a type stands for it.
* `TypeTable.Closed.insert`, `TypeTable.Closed.insertMembers`, `TypeTable.Closed.declareStruct` — a
  closed table stays closed.
-/

set_option autoImplicit false

namespace WordPlaces

/-! ## The structs that a type mentions -/

namespace Ty

/-- The structs that are mentioned anywhere in the type have numbers below `bound`. -/
def mentionsBelow (bound : StructId) : Ty → Bool
  | .named _ underlying => underlying.mentionsBelow bound
  | .array element _ _ => element.mentionsBelow bound
  | .struct d _ => d < bound
  | .mapping key value => key.mentionsBelow bound && value.mentionsBelow bound
  | .tuple components => all components
  | _ => true
where
  /-- The same of every type of a list. -/
  all : List Ty → Bool
  | [] => true
  | ty :: tys => ty.mentionsBelow bound && all tys

/-- Types mention structs below a bound if each of them does. -/
theorem mentionsBelow_all_iff {bound : StructId} {tys : List Ty} :
    mentionsBelow.all bound tys = true ↔ ∀ ty ∈ tys, ty.mentionsBelow bound = true := by
  induction tys with
  | nil => simp [mentionsBelow.all]
  | cons ty tys ih => rw [mentionsBelow.all, Bool.and_eq_true, ih, List.forall_mem_cons]

/-- What a type mentions is what its topmost level and its components mention. -/
theorem mentionsBelow_iff {bound : StructId} {ty : Ty} :
    ty.mentionsBelow bound = true ↔
      (∀ d ∈ ty.node.structs, d < bound) ∧ ∀ c ∈ ty.node.components, c.mentionsBelow bound = true := by
  cases ty with
  | tuple components =>
    rw [mentionsBelow, mentionsBelow_all_iff]
    simp [node, TypeNode.structs, TypeNode.components]
  | _ => simp [mentionsBelow, node, TypeNode.structs, TypeNode.components]

/-- A bound may be raised. -/
theorem mentionsBelow_mono {bound bound' : StructId} (hle : bound ≤ bound') {ty : Ty}
    (h : ty.mentionsBelow bound = true) : ty.mentionsBelow bound' = true := by
  induction ty using induction_components with
  | node ty ih =>
    obtain ⟨hstructs, hcomponents⟩ := mentionsBelow_iff.1 h
    exact mentionsBelow_iff.2 ⟨fun d hd => Nat.lt_of_lt_of_le (hstructs d hd) hle,
      fun c hc => ih c hc (hcomponents c hc)⟩

/-- A type mentions the same structs in every data location. -/
theorem mentionsBelow_located {bound : StructId} (location : DataLocation) {ty : Ty}
    (h : ty.mentionsBelow bound = true) : (ty.located location).mentionsBelow bound = true := by
  induction ty using located.induct with
  | case1 element length location' ih => exact ih h
  | case2 d location' => exact h
  | case3 ty harray hstruct => rwa [located] <;> assumption

end Ty

namespace TypeTable

/-! ## Closed tables -/

/-- A table with nothing missing: one number for each type, smaller numbers for its components, and
declarations for the structs that are mentioned, in an order in which they mention earlier ones
only. -/
structure Closed (table : TypeTable) : Prop where
  unique : ∀ {i j ty}, table.get? i = some ty → table.get? j = some ty → i = j
  component : ∀ {k ty}, table.get? k = some ty →
    ∀ c ∈ ty.node.components, ∃ j < k, table.get? j = some c
  mentions : ∀ {k ty}, table.get? k = some ty →
    ty.mentionsBelow table.structs.decls.size = true
  member_met : ∀ d < table.structs.decls.size, ∀ m ∈ (table.structs.decl d).members, table.Met m.ty
  member_mentions : ∀ d < table.structs.decls.size, ∀ m ∈ (table.structs.decl d).members,
    m.ty.mentionsBelow d = true

namespace Closed

variable {table table' : TypeTable}

/-- The empty table is closed. -/
theorem empty : Closed {} where
  unique h := by simp [get?] at h
  component h := by simp [get?] at h
  mentions h := by simp [get?] at h
  member_met d hd := absurd hd (Nat.not_lt_zero d)
  member_mentions d hd := absurd hd (Nat.not_lt_zero d)

/-- The number of a type is the one that stands for it. -/
theorem idOf?_eq_some_iff (h : table.Closed) {ty : Ty} {k : TypeId} :
    table.idOf? ty = some k ↔ table.get? k = some ty := by
  refine ⟨get?_of_idOf?_eq_some, fun hk => ?_⟩
  obtain ⟨j, hj⟩ := Option.isSome_iff_exists.1 (met_iff.1 ⟨k, hk⟩)
  rw [hj, h.unique hk (get?_of_idOf?_eq_some hj)]

/-- The components of a type that has been met have been met. -/
theorem met_component (h : table.Closed) {ty c : Ty} (hty : table.Met ty)
    (hc : c ∈ ty.node.components) : table.Met c := by
  obtain ⟨k, hk⟩ := hty
  obtain ⟨j, -, hj⟩ := h.component hk c hc
  exact ⟨j, hj⟩

/-- A type that has been met mentions declared structs. -/
theorem mentions_of_met (h : table.Closed) {ty : Ty} (hty : table.Met ty) :
    ty.mentionsBelow table.structs.decls.size = true := hty.elim fun _ hk => h.mentions hk

/-! ### What keeps a table closed -/

/-- A type whose components have been met may be numbered. -/
theorem insertNode (h : table.Closed) {ty : Ty}
    (hty : ty.mentionsBelow table.structs.decls.size = true)
    (hmet : ∀ c ∈ ty.node.components, table.Met c) : (table.insertNode ty).Closed := by
  by_cases hold : table.Met ty
  · rwa [insertNode_of_met hold]
  · rw [insertNode_of_not_met hold]
    refine ⟨?_, ?_, ?_, ?_, h.member_mentions⟩
    · intro i j ty' hi hj
      rcases get?_push.1 hi with hi | ⟨rfl, rfl⟩ <;> rcases get?_push.1 hj with hj | ⟨rfl, heq⟩
      · exact h.unique hi hj
      · exact absurd ⟨i, heq ▸ hi⟩ hold
      · exact absurd ⟨j, hj⟩ hold
      · rfl
    · intro k ty' hk c hc
      rcases get?_push.1 hk with hk | ⟨rfl, rfl⟩
      · obtain ⟨j, hlt, hj⟩ := h.component hk c hc
        exact ⟨j, hlt, get?_push.2 (.inl hj)⟩
      · obtain ⟨j, hj⟩ := hmet c hc
        exact ⟨j, (Array.getElem?_eq_some_iff.1 hj).1, get?_push.2 (.inl hj)⟩
    · intro k ty' hk
      rcases get?_push.1 hk with hk | ⟨-, rfl⟩
      · exact h.mentions hk
      · exact hty
    · exact fun d hd m hm =>
        (h.member_met d hd m hm).imp fun _ hk => get?_push.2 (.inl hk)

/-- A closed table stays closed when a type is numbered that mentions declared structs only. -/
theorem insert (h : table.Closed) {ty : Ty}
    (hty : ty.mentionsBelow table.structs.decls.size = true) : (table.insert ty).2.Closed := by
  refine (meet_induction
    (P := fun table' => table'.structs = table.structs ∧ table'.Closed)
    (Q := fun ty => ty.mentionsBelow table.structs.decls.size = true)
    (fun ty hty => (Ty.mentionsBelow_iff.1 hty).2) ?_ hty ⟨rfl, h⟩).1.2
  rintro table' ty hty hmet ⟨hstructs, hclosed⟩
  exact ⟨(structs_insertNode table' ty).trans hstructs,
    hclosed.insertNode (hstructs.symm ▸ hty) hmet⟩

/-- The type of a member mentions declared structs only, in every data location. -/
theorem mentions_of_membersOf (h : table.Closed) {ty : Ty} {fields : List StructTable.Field}
    (hty : ty.mentionsBelow table.structs.decls.size = true)
    (hfields : table.structs.membersOf ty = .ok fields) {f : StructTable.Field} (hf : f ∈ fields) :
    f.ty.mentionsBelow table.structs.decls.size = true := by
  cases ty with
  | struct d location =>
    obtain rfl := Except.ok.inj hfields
    obtain ⟨g, hg, rfl⟩ := List.mem_map.1 hf
    obtain ⟨p, hp, hgty⟩ := StructTable.exists_member_of_mem_fieldsFrom hg
    have hd : d < table.structs.decls.size := by simpa [Ty.mentionsBelow] using hty
    have hm := h.member_mentions d hd p.1 (List.of_mem_zip hp).1
    exact Ty.mentionsBelow_located location (hgty ▸ Ty.mentionsBelow_mono (Nat.le_of_lt hd) hm)
  | _ => contradiction

/-- A closed table stays closed when the members of a struct are numbered. -/
theorem insertMembers (h : table.Closed) {ty : Ty} {numbered : List (TypeId × StructTable.Field)}
    (hty : ty.mentionsBelow table.structs.decls.size = true)
    (hmembers : table.insertMembers ty = .ok (numbered, table')) : table'.Closed := by
  refine (insertMembers_eq_ok
    (P := fun table' => table'.structs = table.structs ∧ table'.Closed) hmembers ⟨rfl, h⟩ ?_).1.2
  rintro fields hfields table' f hf ⟨hstructs, hclosed⟩
  exact ⟨(structs_insert table' f.ty).trans hstructs,
    hclosed.insert (hstructs.symm ▸ h.mentions_of_membersOf hty hfields hf)⟩

/-- A closed table stays closed when a struct is declared with members that have been met. -/
theorem declareStruct (h : table.Closed) {name : String} {members : List Member} {d : StructId}
    (hmet : ∀ m ∈ members, table.Met m.ty)
    (hdeclare : table.declareStruct name members = .ok (d, table')) : table'.Closed := by
  obtain ⟨structs, hstructs, heq⟩ := Except.exists_of_map_eq_ok hdeclare
  obtain rfl := congrArg Prod.snd heq
  have hext := StructTable.Extends.of_declare hstructs
  obtain ⟨-, layout, -, hdecls⟩ := StructTable.declare_eq_ok hstructs
  -- the members of a declaration are those it had, or the ones that are declared
  have hmember : ∀ d < structs.decls.size, ∀ m ∈ (structs.decl d).members,
      (d < table.structs.decls.size ∧ m ∈ (table.structs.decl d).members) ∨
        d = table.structs.decls.size ∧ m ∈ members := by
    intro d hd m hm
    rw [hdecls, Array.size_push] at hd
    rcases Nat.lt_succ_iff_lt_or_eq.1 hd with hlt | rfl
    · exact .inl ⟨hlt, hext.decl_eq d hlt ▸ hm⟩
    · rw [StructTable.decl, hdecls, Array.getElem?_push_size, Option.getD_some] at hm
      exact .inr ⟨rfl, hm⟩
  refine ⟨h.unique, h.component, fun hk => Ty.mentionsBelow_mono hext.size_le (h.mentions hk),
    fun d hd m hm => ?_, fun d hd m hm => ?_⟩ <;>
      rcases hmember d hd m hm with ⟨hlt, hold⟩ | ⟨rfl, hnew⟩
  · exact h.member_met d hlt m hold
  · exact hmet m hnew
  · exact h.member_mentions d hlt m hold
  · exact h.mentions_of_met (hmet m hnew)

end Closed

end TypeTable

end WordPlaces
