import Galley.Text.Search
import Galley.Element
import Galley.Error
import Galley.Image.Png
import Galley.Image.Jpeg

/-! Image files of the known formats. -/

namespace Galley

inductive ImageFormat where
  | png
  | jpeg
  deriving DecidableEq

namespace ImageFormat

def mentions (mime format : String) : Bool := Text.occurs format.toList mime.toList

def ofMime? (mime : String) : Option ImageFormat :=
  if mentions mime "png" then some png
  else if mentions mime "jpeg" || mentions mime "jpg" then some jpeg
  else none

def ofData? (data : ByteArray) : Option ImageFormat :=
  if Png.hasSignature data then some png
  else if (data.extract 0 3).toList == [0xFF, 0xD8, 0xFF] then some jpeg
  else none

end ImageFormat

namespace Image

/-- Decodes a file in the format its media type names, or else in the one it looks like. -/
def decode (scans : Jpeg.Decoder) (name : String) (data : ByteArray) (mime : Option String) :
    Except AssetError Image :=
  match (mime.bind ImageFormat.ofMime?).or (ImageFormat.ofData? data) with
  | some .png =>
    match Png.decode? data with
    | some p => .ok ⟨name, UInt32.ofNat p.width, UInt32.ofNat p.height, some p.rgba⟩
    | none => .error (.imageData name)
  | some .jpeg =>
    match Jpeg.size? data, scans data with
    | some (width, height), some rgba => .ok ⟨name, UInt32.ofNat width, UInt32.ofNat height, some rgba⟩
    | _, _ => .error (.imageData name)
  | none => .error (.imageData name)

end Image

end Galley
