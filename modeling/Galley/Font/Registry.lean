import Galley.Font.Sized

/-! Fonts under names. A later registration replaces an earlier one of the same name. -/

namespace Galley

structure FontRegistry where
  fonts : Std.HashMap String SizedFont := {}

namespace FontRegistry

def get? (r : FontRegistry) (name : String) : Option SizedFont := r.fonts[name]?

def size (r : FontRegistry) : Nat := r.fonts.size

def register (r : FontRegistry) (font : SizedFont) : FontRegistry := ⟨r.fonts.insert font.name font⟩

def registerData (r : FontRegistry) (name : String) (data : ByteArray) (size : Length) :
    Except AssetError FontRegistry := do
  return r.register (← SizedFont.ofData name data size)

def registerFile (r : FontRegistry) (name path : String) (contents : Except String ByteArray)
    (size : Length) : Except AssetError FontRegistry :=
  match contents with
  | .ok data => r.registerData name data size
  | .error reason => .error (.unreadableFont path reason)

def registerSize (r : FontRegistry) (base name : String) (size : Length) :
    Except AssetError FontRegistry :=
  match r.get? base with
  | some font => .ok (r.register (font.withSize name size))
  | none => .error (.unknownBaseFont base)

def find (r : FontRegistry) (name : String) : Except ResolveError SizedFont :=
  match r.get? name with
  | some font => .ok font
  | none => .error (.unregisteredFont name)

def resolve (r : FontRegistry) : FontResolver := fun name => (r.find name).map SizedFont.toFont

def measureAll (r : FontRegistry) (name : String) (texts : List String) :
    Except ResolveError (Except Overflow (List Size) × FontRegistry) := do
  let (sizes, font) := (← r.find name).measureEach texts
  return (sizes, ⟨r.fonts.insert name font⟩)

end FontRegistry

end Galley
