import WordPlaces.Proofs.Except
import WordPlaces.Ty.Basic

/-!
# One level of a type

A type is a node whose components are types.  With the numbers of the components in their place, a node is
what a type table is asked for and what it answers.

## Main definitions

* `TypeNode` — one level of a type, with anything in the place of its components.
* `TypeNode.components`, `TypeNode.structs` — what a node mentions.
* `TypeNode.traverse` — a node with every component replaced, where each of them can be.
* `TypeNode.Rel` — nodes of one shape with related components.
* `Ty.node`, `TypeNode.toTy` — the topmost level of a type, and back.

## Main results

* `TypeNode.traverse_eq_some_iff` — replacing components gives the node whose components are related.
* `Ty.induction_components` — induction on types by their components.
-/

set_option autoImplicit false

namespace WordPlaces

/-- One level of a type, with anything in the place of its components. -/
inductive TypeNode (α : Type) where
  | bool
  | int (bits : Nat) (signed : Bool)
  | address
  | fixedBytes (count : Nat)
  | fixedPoint (bits fractionalDigits : Nat) (signed : Bool)
  | enum (name : String) (variants : Nat)
  | named (name : String) (underlying : α)
  | function (kind : FunctionKind)
  | array (element : α) (length : Option Nat) (location : DataLocation)
  | struct (decl : StructId) (location : DataLocation)
  | mapping (key value : α)
  | tuple (components : List α)
  deriving Repr, DecidableEq

namespace TypeNode

variable {α β : Type}

/-- The components of a node. -/
def components : TypeNode α → List α
  | .named _ underlying => [underlying]
  | .array element _ _ => [element]
  | .mapping key value => [key, value]
  | .tuple components => components
  | _ => []

/-- The structs that a node mentions. -/
def structs : TypeNode α → List StructId
  | .struct d _ => [d]
  | _ => []

/-- The node with every component replaced, if each of them has a replacement. -/
def traverse (f : α → Option β) : TypeNode α → Option (TypeNode β)
  | .bool => some .bool
  | .int bits signed => some (.int bits signed)
  | .address => some .address
  | .fixedBytes count => some (.fixedBytes count)
  | .fixedPoint bits digits signed => some (.fixedPoint bits digits signed)
  | .enum name variants => some (.enum name variants)
  | .named name underlying => (f underlying).map (.named name)
  | .function kind => some (.function kind)
  | .array element length location => (f element).map (.array · length location)
  | .struct d location => some (.struct d location)
  | .mapping key value => (f key).bind fun key => (f value).map (.mapping key)
  | .tuple components => (components.mapM f).map .tuple

/-- Nodes that have the same shape, and related components. -/
inductive Rel (R : α → β → Prop) : TypeNode α → TypeNode β → Prop
  | bool : Rel R .bool .bool
  | int (bits : Nat) (signed : Bool) : Rel R (.int bits signed) (.int bits signed)
  | address : Rel R .address .address
  | fixedBytes (count : Nat) : Rel R (.fixedBytes count) (.fixedBytes count)
  | fixedPoint (bits digits : Nat) (signed : Bool) :
      Rel R (.fixedPoint bits digits signed) (.fixedPoint bits digits signed)
  | enum (name : String) (variants : Nat) : Rel R (.enum name variants) (.enum name variants)
  | named {a : α} {b : β} (name : String) (h : R a b) : Rel R (.named name a) (.named name b)
  | function (kind : FunctionKind) : Rel R (.function kind) (.function kind)
  | array {a : α} {b : β} (length : Option Nat) (location : DataLocation) (h : R a b) :
      Rel R (.array a length location) (.array b length location)
  | struct (d : StructId) (location : DataLocation) : Rel R (.struct d location) (.struct d location)
  | mapping {a a' : α} {b b' : β} (h : R a b) (h' : R a' b') :
      Rel R (.mapping a a') (.mapping b b')
  | tuple {as : List α} {bs : List β} (h : List.Forall₂ R as bs) : Rel R (.tuple as) (.tuple bs)

namespace Rel

variable {R : α → β → Prop} {n : TypeNode α} {n' : TypeNode β}

/-- Related nodes are related by a weaker relation. -/
theorem imp {R' : α → β → Prop} (h : Rel R n n') (himp : ∀ a b, R a b → R' a b) : Rel R' n n' := by
  cases h with
  | named name h => exact .named name (himp _ _ h)
  | array length location h => exact .array length location (himp _ _ h)
  | mapping h h' => exact .mapping (himp _ _ h) (himp _ _ h')
  | tuple h => exact .tuple (h.imp himp)
  | _ => constructor

/-- What holds of the components of a node holds of the related ones. -/
theorem and_left {p : α → Prop} (h : Rel R n n') (hp : ∀ a ∈ n.components, p a) :
    Rel (fun a b => p a ∧ R a b) n n' := by
  cases h with
  | named name h => exact .named name ⟨hp _ List.mem_cons_self, h⟩
  | array length location h => exact .array length location ⟨hp _ List.mem_cons_self, h⟩
  | mapping h h' =>
    exact .mapping ⟨hp _ List.mem_cons_self, h⟩ ⟨hp _ (List.mem_cons_of_mem _ List.mem_cons_self), h'⟩
  | tuple h => exact .tuple ((List.forall₂_and_left _ _).2 ⟨hp, h⟩)
  | _ => constructor

/-- Nodes that are related are related the other way round. -/
theorem symm (h : Rel R n n') : Rel (fun b a => R a b) n' n := by
  cases h with
  | named name h => exact .named name h
  | array length location h => exact .array length location h
  | mapping h h' => exact .mapping h h'
  | tuple h => exact .tuple h.flip
  | _ => constructor

/-- The components are related one by one. -/
theorem components (h : Rel R n n') : List.Forall₂ R n.components n'.components := by
  cases h with
  | named name h => exact .cons h .nil
  | array length location h => exact .cons h .nil
  | mapping h h' => exact .cons h (.cons h' .nil)
  | tuple h => exact h
  | _ => exact .nil

/-- Both nodes mention the same structs. -/
theorem structs_eq (h : Rel R n n') : n.structs = n'.structs := by cases h <;> rfl

/-- A component of the one node is related to one of the other node. -/
theorem exists_of_mem (h : Rel R n n') {a : α} (ha : a ∈ n.components) :
    ∃ b ∈ n'.components, R a b := by
  obtain ⟨i, hi, rfl⟩ := List.getElem_of_mem ha
  have hi' : i < n'.components.length := h.components.length_eq ▸ hi
  exact ⟨_, List.getElem_mem hi', h.components.get hi hi'⟩

end Rel

/-- Replacing the components of a node gives a node of the same shape. -/
theorem traverse_eq_some_iff {f : α → Option β} {n : TypeNode α} {n' : TypeNode β} :
    n.traverse f = some n' ↔ Rel (fun a b => f a = some b) n n' := by
  constructor
  · intro h
    cases n with
    | named name a =>
      obtain ⟨b, hb, rfl⟩ := Option.map_eq_some_iff.1 h
      exact .named name hb
    | array a length location =>
      obtain ⟨b, hb, rfl⟩ := Option.map_eq_some_iff.1 h
      exact .array length location hb
    | mapping a a' =>
      obtain ⟨b, hb, h⟩ := Option.bind_eq_some_iff.1 h
      obtain ⟨b', hb', rfl⟩ := Option.map_eq_some_iff.1 h
      exact .mapping hb hb'
    | tuple as =>
      obtain ⟨bs, hbs, rfl⟩ := Option.map_eq_some_iff.1 h
      exact .tuple (List.mapM_eq_some_iff.1 hbs)
    | _ =>
      obtain rfl := Option.some.inj h
      constructor
  · intro h
    cases h with
    | named name h => simp [traverse, h]
    | array length location h => simp [traverse, h]
    | mapping h h' => simp [traverse, h, h']
    | tuple h => simp [traverse, List.mapM_eq_some_iff.2 h]
    | _ => rfl

/-- The components of a node can be replaced if each of them has a replacement. -/
theorem exists_traverse_eq_some {f : α → Option β} {n : TypeNode α}
    (h : ∀ a ∈ n.components, ∃ b, f a = some b) : ∃ n', n.traverse f = some n' := by
  cases n with
  | named name a =>
    obtain ⟨b, hb⟩ := h a List.mem_cons_self
    exact ⟨.named name b, by simp [traverse, hb]⟩
  | array a length location =>
    obtain ⟨b, hb⟩ := h a List.mem_cons_self
    exact ⟨.array b length location, by simp [traverse, hb]⟩
  | mapping a a' =>
    obtain ⟨b, hb⟩ := h a List.mem_cons_self
    obtain ⟨b', hb'⟩ := h a' (List.mem_cons_of_mem _ List.mem_cons_self)
    exact ⟨.mapping b b', by simp [traverse, hb, hb']⟩
  | tuple as =>
    have hbs : ∃ bs, as.mapM f = some bs := List.exists_mapM_eq_some h
    exact hbs.elim fun bs hbs => ⟨.tuple bs, by simp [traverse, hbs]⟩
  | _ => exact ⟨_, rfl⟩

/-- The type with a node as its topmost level. -/
def toTy : TypeNode Ty → Ty
  | .bool => .bool
  | .int bits signed => .int bits signed
  | .address => .address
  | .fixedBytes count => .fixedBytes count
  | .fixedPoint bits digits signed => .fixedPoint bits digits signed
  | .enum name variants => .enum name variants
  | .named name underlying => .named name underlying
  | .function kind => .function kind
  | .array element length location => .array element length location
  | .struct d location => .struct d location
  | .mapping key value => .mapping key value
  | .tuple components => .tuple components

end TypeNode

namespace Ty

/-- The topmost level of a type. -/
def node : Ty → TypeNode Ty
  | .bool => .bool
  | .int bits signed => .int bits signed
  | .address => .address
  | .fixedBytes count => .fixedBytes count
  | .fixedPoint bits digits signed => .fixedPoint bits digits signed
  | .enum name variants => .enum name variants
  | .named name underlying => .named name underlying
  | .function kind => .function kind
  | .array element length location => .array element length location
  | .struct d location => .struct d location
  | .mapping key value => .mapping key value
  | .tuple components => .tuple components

/-- A type is what its topmost level and its components make. -/
@[simp] theorem toTy_node (ty : Ty) : ty.node.toTy = ty := by cases ty <;> rfl

/-- The topmost level of what a node makes. -/
@[simp] theorem node_toTy (n : TypeNode Ty) : n.toTy.node = n := by cases n <;> rfl

/-- The components of a type are smaller than the type. -/
theorem sizeOf_lt_of_mem_components {ty c : Ty} (h : c ∈ ty.node.components) :
    sizeOf c < sizeOf ty := by
  cases ty with
  | tuple components =>
    have hlt : sizeOf c < sizeOf components := List.sizeOf_lt_of_mem h
    rw [tuple.sizeOf_spec]
    omega
  | _ => simp [node, TypeNode.components] at h <;> grind

/-- What holds of a type whenever it holds of its components holds of every type. -/
@[elab_as_elim]
theorem induction_components {P : Ty → Prop}
    (node : ∀ ty : Ty, (∀ c ∈ ty.node.components, P c) → P ty) (ty : Ty) : P ty :=
  node ty fun c _ => induction_components node c
termination_by sizeOf ty
decreasing_by exact sizeOf_lt_of_mem_components ‹_›

end Ty

end WordPlaces
