import Galley.Bytes
import Galley.Error

/-! The table directory at the start of font data, and of the first face of a collection. -/

namespace Galley.Sfnt

open Bytes

/-- Tables by their four-letter tags. A table that does not lie inside the data is none. -/
abbrev Directory := List (String × Option ByteArray)

def faceMagics : List UInt32 := [0x00010000, 0x74727565, 0x4F54544F]

def collectionMagic : UInt32 := 0x74746366

def orFault {α : Type} (value : Option α) (fault : FontFault) : Except FontFault α :=
  match value with
  | some a => .ok a
  | none => .error fault

def checkMagic (magic : Option UInt32) : Except FontFault Unit :=
  if magic.any faceMagics.contains then .ok () else .error .unknownMagic

def faceStart (data : ByteArray) : Except FontFault Nat := do
  let magic ← orFault (u32? data 0) .unknownMagic
  if magic ≠ collectionMagic then
    checkMagic (some magic)
    return 0
  let count ← orFault (u32? data 8) .malformed
  if data.size < 12 + 4 * count.toNat then throw .malformed
  if count = 0 then throw .faceIndexOutOfBounds
  let start := ((u32? data 12).getD 0).toNat
  if start < 12 + 4 * count.toNat ∨ data.size < start then throw .malformed
  checkMagic (u32? data start)
  return start

def tagAt (data : ByteArray) (i : Nat) : String :=
  String.ofList ((data.extract i (i + 4)).toList.map fun b => Char.ofNat b.toNat)

def directory (data : ByteArray) : Except FontFault Directory := do
  let start ← faceStart data
  let count := (← orFault (u16? data (start + 4)) .malformed).toNat
  if data.size < start + 12 + 16 * count then throw .malformed
  return (List.range count).map fun k =>
    let record := start + 12 + 16 * k
    let offset := ((u32? data (record + 8)).getD 0).toNat
    let length := ((u32? data (record + 12)).getD 0).toNat
    (tagAt data record, slice? data offset length)

namespace Directory

def table? (d : Directory) (tag : String) : Option ByteArray := (d.reverse.lookup tag).join

end Directory

end Galley.Sfnt
