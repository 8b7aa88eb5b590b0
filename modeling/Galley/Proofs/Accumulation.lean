import Mathlib
import Galley.Proofs.Containment

/-! Fragments laid out on one target. Each call leaves the target with all that the fragment gives by itself,
or as it was. What a target holds in the end is then read off what the fragments give. -/

namespace Galley

instance : RightCommutative Size.union where
  right_comm a b c := by simp only [Size.union, max_right_comm]

namespace Compiled

structure Nonneg (target : Compiled) : Prop where
  width : 0 ≤ target.size.width
  height : 0 ≤ target.size.height

theorem Nonneg.append {target : Compiled} (h : target.Nonneg) (more : Compiled) :
    (target.append more).Nonneg :=
  ⟨h.width.trans (le_max_left _ _), h.height.trans (le_max_left _ _)⟩

/-- A height can be below zero, but not on a target, and then it is the old height that counts. -/
theorem append_empty_append {target : Compiled} (h : target.Nonneg) (more : Compiled) :
    target.append (({} : Compiled).append more) = target.append more := by
  have hw : max target.size.width (max 0 more.size.width) = max target.size.width more.size.width := by
    rw [← max_assoc, max_eq_left h.width]
  have hh : max target.size.height (max 0 more.size.height) = max target.size.height more.size.height := by
    rw [← max_assoc, max_eq_left h.height]
  simp only [append, Size.union, hw, hh, List.nil_append, String.empty_append]

section all

variable (target : Compiled) (outs : List Compiled)

theorem elements_appendAll :
    (outs.foldl append target).elements = target.elements ++ outs.flatMap elements := by
  induction outs generalizing target with
  | nil => simp
  | cons out rest ih => simp [ih, append]

theorem size_appendAll : (outs.foldl append target).size = (outs.map size).foldl Size.union target.size := by
  induction outs generalizing target with
  | nil => rfl
  | cons out rest ih => exact ih _

theorem source_appendAll :
    (outs.foldl append target).source = target.source ++ String.join (outs.map source) := by
  induction outs generalizing target with
  | nil => simp
  | cons out rest ih => simp [ih, append, String.append_assoc]

end all

end Compiled

namespace Call

def result (call : Call) : Except Failure Compiled := call.compiler.compile call.markup call.maxWidth

def answer (target : Compiled) (call : Call) : Option Failure :=
  (call.compiler.compileInto call.markup call.maxWidth target).2

def answers (target : Compiled) : List Call → List (Option Failure)
  | [] => []
  | call :: rest => answer target call :: answers (run target call) rest

def succeeds (call : Call) : Bool := (failure? call.result).isNone

def outputs (calls : List Call) : List Compiled := calls.filterMap fun call => call.result.toOption

variable {target : Compiled} {call : Call} {calls : List Call}

theorem answer_eq (target : Compiled) (call : Call) : answer target call = failure? call.result := by
  rw [answer, result, Compiler.compile]
  cases hf : call.compiler.fragment call.markup call.maxWidth with
  | error f =>
    rw [Compiler.compileInto_of_error hf]
    rfl
  | ok more =>
    rw [Compiler.compileInto_of_ok hf]
    rfl

theorem answers_eq (target : Compiled) (calls : List Call) :
    answers target calls = calls.map fun call => failure? call.result := by
  induction calls generalizing target with
  | nil => rfl
  | cons call rest ih => rw [answers, answer_eq, ih, List.map_cons]

theorem run_of_error {f : Failure} (h : call.result = .error f) : run target call = target := by
  rw [result, Compiler.compile] at h
  rw [run]
  cases hf : call.compiler.fragment call.markup call.maxWidth with
  | error g => rw [Compiler.compileInto_of_error hf]
  | ok more =>
    rw [hf] at h
    cases h

theorem run_of_ok (ht : target.Nonneg) {out : Compiled} (h : call.result = .ok out) :
    run target call = target.append out := by
  obtain ⟨more, hf, h⟩ := bind_eq_ok h
  cases h
  rw [run, Compiler.compileInto_of_ok hf, Compiled.append_empty_append ht]

theorem run_nonneg (ht : target.Nonneg) : (run target call).Nonneg := by
  cases h : call.result with
  | error f => rwa [run_of_error h]
  | ok out =>
    rw [run_of_ok ht h]
    exact ht.append out

theorem runAll_nonneg (ht : target.Nonneg) : (runAll target calls).Nonneg := by
  induction calls generalizing target with
  | nil => exact ht
  | cons call rest ih => exact ih (run_nonneg ht)

theorem runAll_eq_appendAll (ht : target.Nonneg) :
    runAll target calls = (outputs calls).foldl Compiled.append target := by
  induction calls generalizing target with
  | nil => rfl
  | cons call rest ih =>
    have hrun : (run target call).Nonneg := run_nonneg ht
    have hrest := ih hrun
    rw [outputs, List.filterMap_cons]
    cases h : call.result with
    | error f =>
      rw [run_of_error h] at hrest
      exact (congrArg (runAll · rest) (run_of_error h)).trans hrest
    | ok out =>
      rw [run_of_ok ht h] at hrest
      exact (congrArg (runAll · rest) (run_of_ok ht h)).trans hrest

theorem source_of_ok {out : Compiled} (h : call.result = .ok out) : out.source = call.markup := by
  obtain ⟨more, hf, h⟩ := bind_eq_ok h
  cases h
  obtain ⟨nodes, k, _, _, rfl⟩ := Compiler.fragment_eq_ok hf
  exact String.empty_append

theorem outputs_sources (calls : List Call) :
    (outputs calls).map Compiled.source = (calls.filter succeeds).map Call.markup := by
  induction calls with
  | nil => rfl
  | cons call rest ih =>
    rw [outputs] at ih
    rw [outputs, List.filterMap_cons, List.filter_cons]
    cases h : call.result with
    | error f => simpa [succeeds, h, failure?, Except.toOption] using ih
    | ok out => simpa [succeeds, h, failure?, Except.toOption, source_of_ok h] using ih

/-- A call on a target fails as the fragment does by itself, and then changes nothing. Otherwise it adds the
elements and the text of the fragment behind those there are, and the size grows to hold both. -/
theorem runAll_accumulates (earlier calls : List Call) :
    let target := runAll {} earlier
    answers target calls = calls.map (fun call => failure? call.result) ∧
    (∀ call f (reached : Compiled), call.result = .error f → run reached call = reached) ∧
    (runAll target calls).elements = target.elements ++ (outputs calls).flatMap Compiled.elements ∧
    (runAll target calls).size = ((outputs calls).map Compiled.size).foldl Size.union target.size ∧
    (∀ calls' : List Call, calls.Perm calls' → (runAll target calls').size = (runAll target calls).size) ∧
    (runAll target calls).source =
      target.source ++ String.join ((calls.filter succeeds).map Call.markup) := by
  intro target
  have ht : target.Nonneg := runAll_nonneg ⟨le_rfl, le_rfl⟩
  have hsize : ∀ calls : List Call,
      (runAll target calls).size = ((outputs calls).map Compiled.size).foldl Size.union target.size := by
    intro calls
    rw [runAll_eq_appendAll ht, Compiled.size_appendAll]
  refine ⟨answers_eq target calls, fun call f reached => run_of_error, ?_, hsize calls, ?_, ?_⟩
  · rw [runAll_eq_appendAll ht, Compiled.elements_appendAll]
  · intro calls' hp
    rw [hsize, hsize]
    exact ((hp.filterMap _).map Compiled.size).symm.foldl_eq _
  · rw [runAll_eq_appendAll ht, Compiled.source_appendAll, outputs_sources]

end Call

end Galley
