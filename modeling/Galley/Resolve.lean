import Std.Data.HashMap
import Galley.Element
import Galley.Error

/-! Resolvers turn the names that markup uses into fonts, images and truth values. -/

namespace Galley

abbrev FontResolver := String → Except ResolveError Font

abbrev ImageResolver := String → Except ResolveError Image

abbrev ConditionResolver := String → Except ResolveError Bool

def unconfigured {α : Type} (resource : Resource) : String → Except ResolveError α :=
  fun _ => .error (.unconfigured resource)

structure ConditionSet where
  values : Std.HashMap String Bool := {}

namespace ConditionSet

def set (s : ConditionSet) (name : String) (value : Bool) : ConditionSet :=
  ⟨s.values.insert name value⟩

def get? (s : ConditionSet) (name : String) : Option Bool := s.values[name]?

def ofList (entries : List (String × Bool)) : ConditionSet :=
  entries.foldl (fun s entry => s.set entry.1 entry.2) {}

def resolve (s : ConditionSet) : ConditionResolver := fun name =>
  match s.get? name with
  | some value => .ok value
  | none => .error (.unknownCondition name)

end ConditionSet

end Galley
