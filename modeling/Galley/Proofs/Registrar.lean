import Mathlib
import Galley.Error

/-! Registries as last writes. Whatever of its registrations failed, a registry holds under each name what was
registered last under it, and that carries the name. -/

namespace Galley

/-! Writes under names, newest first. -/

section writes

variable {α : Type} {table : Std.HashMap String α} {writes : List (String × α)} {name other : String}

theorem lookup_newest (writes : List (String × α)) (name : String) (a : α) (other : String) :
    ((name, a) :: writes).lookup other = if name = other then some a else writes.lookup other := by
  rw [List.lookup_cons]
  by_cases h : name = other
  · rw [if_pos h, beq_iff_eq.mpr h.symm]
  · rw [if_neg h, beq_false_of_ne (Ne.symm h)]

/-- The writes with one more before them, if it comes about. -/
def record (writes : List (String × α)) (name : String) (written : Except AssetError α) : List (String × α) :=
  match written with
  | .ok a => (name, a) :: writes
  | .error _ => writes

/-- A table that holds under each name what was written last. -/
structure HoldsLast (table : Std.HashMap String α) (writes : List (String × α)) : Prop where
  found : ∀ name, table[name]? = writes.lookup name
  counted : table.size = (writes.map Prod.fst).toFinset.card

namespace HoldsLast

theorem empty : HoldsLast ({} : Std.HashMap String α) [] where
  found _ := Std.HashMap.getElem?_empty
  counted := Std.HashMap.size_empty

theorem mem_iff (h : HoldsLast table writes) (name : String) :
    name ∈ table ↔ name ∈ (writes.map Prod.fst).toFinset := by
  rw [Std.HashMap.mem_iff_isSome_getElem?, h.found, List.lookup_isSome_iff, List.mem_toFinset, List.mem_map]
  constructor
  · rintro ⟨write, hw, hn⟩
    exact ⟨write, hw, (beq_iff_eq.mp hn).symm⟩
  · rintro ⟨write, hw, hn⟩
    exact ⟨write, hw, beq_iff_eq.mpr hn.symm⟩

theorem insert (h : HoldsLast table writes) (name : String) (a : α) :
    HoldsLast (table.insert name a) ((name, a) :: writes) where
  found other := by
    rw [Std.HashMap.getElem?_insert, lookup_newest, h.found]
    simp only [beq_iff_eq]
  counted := by
    rw [Std.HashMap.size_insert, List.map_cons, List.toFinset_cons, Finset.card_insert_eq_ite, h.counted]
    simp only [h.mem_iff]

end HoldsLast

end writes

/-- A kind of registry by its registrations. Each has a name and makes a handle, which may depend on the writes
before it, or fails. -/
structure Registrar (σ ω α : Type) where
  empty : σ
  table : σ → Std.HashMap String α
  perform : σ → ω → Except AssetError σ
  name : ω → String
  handle : List (String × α) → ω → Except AssetError α
  nameOf : α → String
  table_empty : HoldsLast (table empty) []
  perform_error {s : σ} {writes : List (String × α)} {registration : ω} {fault : AssetError}
    (h : HoldsLast (table s) writes) (hf : handle writes registration = .error fault) :
    perform s registration = .error fault
  perform_ok {s : σ} {writes : List (String × α)} {registration : ω} {a : α}
    (h : HoldsLast (table s) writes) (ha : handle writes registration = .ok a) :
    ∃ s', perform s registration = .ok s' ∧ HoldsLast (table s') ((name registration, a) :: writes)
  nameOf_handle {writes : List (String × α)} {registration : ω} {a : α}
    (ha : handle writes registration = .ok a) : nameOf a = name registration

namespace Registrar

variable {σ ω α : Type} (k : Registrar σ ω α)

/-- After a failure the registry is the old one. -/
def attempt (s : σ) (registration : ω) : σ × Option AssetError :=
  match k.perform s registration with
  | .ok s' => (s', none)
  | .error fault => (s, some fault)

def run (registrations : List ω) : σ :=
  registrations.foldl (fun s registration => (k.attempt s registration).1) k.empty

/-- The handles that are registered, each with the name that it is registered under, newest first. -/
def history (registrations : List ω) : List (String × α) :=
  registrations.foldl (fun writes registration =>
    record writes (k.name registration) (k.handle writes registration)) []

/-- What is found under a name is the handle of the last registration under it that did not fail. -/
structure LastWins (get? : String → Option α) (size : Nat) (registrations : List ω) : Prop where
  found : ∀ name, get? name = (k.history registrations).lookup name
  named : ∀ {name a}, get? name = some a → k.nameOf a = name
  counted : size = ((k.history registrations).map Prod.fst).toFinset.card
  failed : ∀ {registration fault}, k.perform (k.run registrations) registration = .error fault ↔
    k.handle (k.history registrations) registration = .error fault
  unchanged : ∀ {registration fault}, k.perform (k.run registrations) registration = .error fault →
    k.run (registrations ++ [registration]) = k.run registrations

theorem run_append (registrations : List ω) (registration : ω) :
    k.run (registrations ++ [registration]) = (k.attempt (k.run registrations) registration).1 := by
  rw [run, List.foldl_append]
  rfl

theorem history_append (registrations : List ω) (registration : ω) : k.history (registrations ++ [registration]) =
    record (k.history registrations) (k.name registration) (k.handle (k.history registrations) registration) := by
  rw [history, List.foldl_append]
  rfl

theorem fails_iff {s : σ} {writes : List (String × α)} (h : HoldsLast (k.table s) writes) {registration : ω}
    {fault : AssetError} :
    k.perform s registration = .error fault ↔ k.handle writes registration = .error fault := by
  constructor
  · intro hfault
    cases ha : k.handle writes registration with
    | ok a =>
      obtain ⟨s', hs, -⟩ := k.perform_ok h ha
      rw [hs] at hfault
      cases hfault
    | error other =>
      rw [k.perform_error h ha] at hfault
      cases hfault
      rfl
  · exact k.perform_error h

theorem attempt_holdsLast {s : σ} {writes : List (String × α)} (h : HoldsLast (k.table s) writes)
    (registration : ω) : HoldsLast (k.table (k.attempt s registration).1)
      (record writes (k.name registration) (k.handle writes registration)) := by
  rw [attempt]
  cases ha : k.handle writes registration with
  | ok a =>
    obtain ⟨s', hs, hlast⟩ := k.perform_ok h ha
    rw [hs]
    exact hlast
  | error fault =>
    rw [k.perform_error h ha]
    exact h

theorem run_holdsLast (registrations : List ω) :
    HoldsLast (k.table (k.run registrations)) (k.history registrations) := by
  induction registrations using List.reverseRecOn with
  | nil => exact k.table_empty
  | append_singleton registrations registration ih =>
    rw [run_append, history_append]
    exact k.attempt_holdsLast ih registration

theorem history_named (registrations : List ω) :
    ∀ write ∈ k.history registrations, k.nameOf write.2 = write.1 := by
  induction registrations using List.reverseRecOn with
  | nil => exact fun write hw => absurd hw List.not_mem_nil
  | append_singleton registrations registration ih =>
    rw [history_append]
    cases ha : k.handle (k.history registrations) registration with
    | ok a =>
      intro write hw
      rcases List.mem_cons.mp hw with rfl | hw
      · exact k.nameOf_handle ha
      · exact ih write hw
    | error fault => exact ih

theorem lastWins (registrations : List ω) : k.LastWins ((k.table (k.run registrations))[·]?)
    (k.table (k.run registrations)).size registrations where
  found := (k.run_holdsLast registrations).found
  named := by
    intro name a ha
    rw [(k.run_holdsLast registrations).found] at ha
    obtain ⟨newer, older, hsplit, -⟩ := List.lookup_eq_some_iff.mp ha
    have hmem : (name, a) ∈ k.history registrations := by
      rw [hsplit]
      exact List.mem_append_right newer List.mem_cons_self
    exact k.history_named registrations (name, a) hmem
  counted := (k.run_holdsLast registrations).counted
  failed := k.fails_iff (k.run_holdsLast registrations)
  unchanged hfault := by rw [run_append, attempt, hfault]

/-- What was registered once stays in the history. -/
theorem history_grows (registrations more : List ω) :
    ∃ newer, k.history (registrations ++ more) = newer ++ k.history registrations := by
  induction more using List.reverseRecOn with
  | nil => exact ⟨[], by rw [List.append_nil, List.nil_append]⟩
  | append_singleton more registration ih =>
    obtain ⟨newer, hnewer⟩ := ih
    rw [← List.append_assoc, history_append, hnewer]
    cases k.handle (newer ++ k.history registrations) registration with
    | ok a => exact ⟨(k.name registration, a) :: newer, rfl⟩
    | error fault => exact ⟨newer, rfl⟩

end Registrar

end Galley
