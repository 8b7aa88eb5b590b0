import Galley.Resolve
import Galley.Image.Decode
import Galley.Image.DataUri
import Galley.Text.Quoted

/-! Images under names. Names that are data URIs need no registration. -/

namespace Galley

structure ImageRegistry where
  images : Std.HashMap String Image := {}

namespace ImageRegistry

def size (r : ImageRegistry) : Nat := r.images.size

variable (scans : Jpeg.Decoder)

def register (r : ImageRegistry) (name : String) (data : ByteArray) : Except AssetError ImageRegistry := do
  return ⟨r.images.insert name (← Image.decode scans name data none)⟩

def registerFile (r : ImageRegistry) (name path : String) (contents : Except String ByteArray) :
    Except AssetError ImageRegistry :=
  match contents with
  | .ok data => r.register scans name data
  | .error reason => .error (.unreadableImage path reason)

def lookup (r : ImageRegistry) (name : String) : Except AssetError Image := do
  match r.images[name]? with
  | some image => return image
  | none =>
    match ← DataUri.read name with
    | some uri => Image.decode scans name uri.data (some uri.mime)
    | none => throw (.unregisteredImage name)

def resolve (r : ImageRegistry) : ImageResolver := fun name => (r.lookup scans name).mapError .asset

end ImageRegistry

def Image.describe (i : Image) : String :=
  "RasterImage \x7b name: " ++ Text.quoted i.name ++ ", width: " ++ i.width.toNat.repr ++ ", height: " ++
    i.height.toNat.repr ++ " \x7d"

end Galley
