import Mathlib.Data.List.Forall2

/-!
# Computations that may fail

## Main results

* `Except.exists_of_bind_eq_ok`, `Except.exists_of_map_eq_ok` — what a computation that succeeded
  was made of.
* `List.forall₂_of_mapM_eq_ok`, `List.exists_mem_of_mem_mapM`, `List.mapM_except_congr` — the same
  for a computation on each member of a list.
* `List.mapM_eq_some_iff`, `List.exists_mapM_eq_some` — a partial function on each member of a list.
-/

set_option autoImplicit false

namespace Except

variable {ε α β : Type} {x : Except ε α}

/-- Both parts of a sequence that succeeded did. -/
theorem exists_of_bind_eq_ok {f : α → Except ε β} {b : β} (h : x >>= f = .ok b) :
    ∃ a, x = .ok a ∧ f a = .ok b :=
  match x, h with
  | .ok a, h => ⟨a, rfl, h⟩

/-- A mapped result comes from a result. -/
theorem exists_of_map_eq_ok {f : α → β} {b : β} (h : x.map f = .ok b) :
    ∃ a, x = .ok a ∧ b = f a :=
  match x, h with
  | .ok a, h => ⟨a, rfl, (Except.ok.inj h).symm⟩

end Except

namespace List

variable {ε α β : Type}

/-- A computation on each member of a list that succeeded did so on each. -/
theorem forall₂_of_mapM_eq_ok {f : α → Except ε β} {as : List α} {bs : List β}
    (h : as.mapM f = .ok bs) : Forall₂ (fun a b => f a = .ok b) as bs := by
  induction as generalizing bs with
  | nil =>
    obtain rfl := Except.ok.inj h
    exact .nil
  | cons a as ih =>
    rw [mapM_cons] at h
    obtain ⟨b, hb, h⟩ := Except.exists_of_bind_eq_ok h
    obtain ⟨bs', hbs, h⟩ := Except.exists_of_bind_eq_ok h
    obtain rfl := Except.ok.inj h
    exact .cons hb (ih hbs)

/-- The results are those of members. -/
theorem exists_mem_of_mem_mapM {f : α → Except ε β} {as : List α} {bs : List β} {b : β}
    (h : as.mapM f = .ok bs) (hb : b ∈ bs) : ∃ a ∈ as, f a = .ok b := by
  obtain ⟨i, hi, rfl⟩ := getElem_of_mem hb
  have hforall := forall₂_of_mapM_eq_ok h
  have hi' : i < as.length := hforall.length_eq ▸ hi
  exact ⟨as[i], getElem_mem hi', hforall.get hi' hi⟩

/-- Computations that agree on the members of a list agree on the list. -/
theorem mapM_except_congr {f g : α → Except ε β} {as : List α} (h : ∀ a ∈ as, f a = g a) :
    as.mapM f = as.mapM g := by
  induction as with
  | nil => rfl
  | cons a as ih =>
    rw [mapM_cons, mapM_cons, h a mem_cons_self, ih fun a' ha' => h a' (mem_cons_of_mem _ ha')]

/-- A partial function gives the members of a list one by one. -/
theorem mapM_eq_some_iff {f : α → Option β} {as : List α} {bs : List β} :
    as.mapM f = some bs ↔ Forall₂ (fun a b => f a = some b) as bs := by
  induction as generalizing bs with
  | nil => simp [eq_comm]
  | cons a as ih =>
    rw [mapM_cons, forall₂_cons_left_iff]
    simp only [Option.bind_eq_bind, Option.bind_eq_some_iff, Option.pure_def, Option.some.injEq, ih]
    constructor
    · rintro ⟨b, hb, bs', hbs, rfl⟩
      exact ⟨b, bs', hb, hbs, rfl⟩
    · rintro ⟨b, bs', hb, hbs, rfl⟩
      exact ⟨b, hb, bs', hbs, rfl⟩

/-- A partial function that is defined on every member of a list is defined on the list. -/
theorem exists_mapM_eq_some {f : α → Option β} {as : List α} (h : ∀ a ∈ as, ∃ b, f a = some b) :
    ∃ bs, as.mapM f = some bs := by
  induction as with
  | nil => exact ⟨[], rfl⟩
  | cons a as ih =>
    obtain ⟨b, hb⟩ := h a mem_cons_self
    obtain ⟨bs, hbs⟩ := ih fun a' ha' => h a' (mem_cons_of_mem _ ha')
    exact ⟨b :: bs, by simp [mapM_cons, hb, hbs]⟩

end List
