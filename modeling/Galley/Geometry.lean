import Galley.Length

/-! Points and sizes. The union of two sizes is the smallest size that holds both. -/

namespace Galley

structure Size where
  width : Length := 0
  height : Length := 0
  deriving DecidableEq, Inhabited

structure Point where
  x : Length := 0
  y : Length := 0
  deriving DecidableEq, Inhabited

namespace Size

def union (a b : Size) : Size := ⟨max a.width b.width, max a.height b.height⟩

def ofSingles (width height : UInt32) : Except Overflow Size := do
  return ⟨← Length.ofSingle width, ← Length.ofSingle height⟩

end Size

namespace Point

def origin : Point := {}

instance : Add Point := ⟨fun a b => ⟨a.x + b.x, a.y + b.y⟩⟩

def ofSingles (x y : UInt32) : Except Overflow Point := do
  return ⟨← Length.ofSingle x, ← Length.ofSingle y⟩

end Point

end Galley
