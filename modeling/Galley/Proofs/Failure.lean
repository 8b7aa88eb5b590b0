import Galley.Pass

/-! The failure of a computation, if it has one. -/

namespace Galley

def failure? {α : Type} : Except Failure α → Option Failure
  | .ok _ => none
  | .error f => some f

theorem failure?_eq_some {α : Type} {r : Except Failure α} {f : Failure} :
    failure? r = some f ↔ r = .error f := by
  cases r <;> simp [failure?]

theorem failure?_eq_none {α : Type} {r : Except Failure α} : failure? r = none ↔ ∃ a, r = .ok a := by
  cases r <;> simp [failure?]

theorem bind_eq_ok {ε α β : Type} {r : Except ε α} {g : α → Except ε β} {b : β}
    (h : r >>= g = .ok b) : ∃ a, r = .ok a ∧ g a = .ok b := by
  cases r with
  | error f => cases h
  | ok a => exact ⟨a, rfl, h⟩

theorem guard_eq_ok {ε α : Type} {P : Prop} [Decidable P] {e : ε} {g : PUnit → Except ε α} {a : α}
    (h : (if P then throw e >>= g else g ⟨⟩) = .ok a) : ¬ P ∧ g ⟨⟩ = .ok a := by
  by_cases hp : P
  · rw [if_pos hp] at h
    cases h
  · rw [if_neg hp] at h
    exact ⟨hp, h⟩

theorem bind_congr_of_ok {α β : Type} {r : Except Failure α} {g g' : α → Except Failure β}
    (h : ∀ a, r = .ok a → g a = g' a) : r >>= g = r >>= g' := by
  cases r with
  | error f => rfl
  | ok a => exact h a rfl

theorem failure?_bind {α β : Type} {r : Except Failure α} {g : α → Except Failure β} {o : Option Failure}
    (h : ∀ a, r = .ok a → failure? (g a) = o) : failure? (r >>= g) = (failure? r).or o := by
  cases r with
  | error f => rfl
  | ok a => exact h a rfl

theorem failure?_map {α β : Type} (r : Except Failure α) (g : α → β) :
    failure? (do return g (← r)) = failure? r := by
  cases r <;> rfl

theorem findSome?_cons_or {α β : Type} (f : α → Option β) (a : α) (as : List α) :
    (a :: as).findSome? f = (f a).or (as.findSome? f) := by
  rw [List.findSome?_cons]
  cases f a <;> rfl

theorem mapError_eq_ok {α ε ε' : Type} {r : Except ε α} {g : ε → ε'} {a : α} :
    r.mapError g = .ok a ↔ r = .ok a := by
  constructor
  · intro h
    cases r with
    | error e => cases h
    | ok b =>
      cases h
      rfl
  · intro h
    rw [h]
    rfl

theorem required_eq_ok {attributes : Attributes} {element name value : String}
    (h : attributes.required element name = .ok value) : attributes.lookup name = some value := by
  rw [Attributes.required] at h
  split at h
  · cases h
    assumption
  · cases h

theorem toOption_eq_some {ε α : Type} {r : Except ε α} {a : α} : r.toOption = some a ↔ r = .ok a := by
  cases r <;> simp [Except.toOption]

end Galley
