import Galley.Error

/-! Bytes written four symbols for three, with padding at the end. Each sequence of bytes has one written
form, and reading refuses all others. -/

namespace Galley.Base64

def symbols : List Char :=
  "ABCDEFGHIJKLMNOPQRSTUVWXYZabcdefghijklmnopqrstuvwxyz0123456789+/".toList

def symbol (value : Nat) : UInt8 := UInt8.ofNat ((symbols[value]?.getD 'A').toNat)

def value? (b : UInt8) : Option Nat := symbols.findIdx? fun c => c.toNat == b.toNat

def pad : UInt8 := 61

def encode : List UInt8 → List UInt8
  | [] => []
  | [a] =>
    let n := a.toNat * 16
    [symbol (n / 64), symbol (n % 64), pad, pad]
  | [a, b] =>
    let n := (a.toNat * 256 + b.toNat) * 4
    [symbol (n / 4096), symbol (n / 64 % 64), symbol (n % 64), pad]
  | a :: b :: c :: rest =>
    let n := a.toNat * 65536 + b.toNat * 256 + c.toNat
    symbol (n / 262144) :: symbol (n / 4096 % 64) :: symbol (n / 64 % 64) ::
      symbol (n % 64) :: encode rest

def valueAt (b : UInt8) (offset : Nat) : Except Base64Fault Nat :=
  match value? b with
  | some v => .ok v
  | none => .error (.symbol b.toNat offset)

/-- The values of the last symbols and the number of pads behind them. A pad may only follow two symbols
or more, and only pads may follow a pad. -/
def lastValues (offset : Nat) : List UInt8 → List Nat → Nat → Except Base64Fault (List Nat × Nat)
  | [], values, pads => .ok (values.reverse, pads)
  | b :: rest, values, pads =>
    let place := offset + values.length + pads
    if b = pad then
      if values.length + pads < 2 then .error (.symbol b.toNat place)
      else lastValues offset rest values (pads + 1)
    else if 0 < pads then .error (.symbol pad.toNat (offset + values.length))
    else do lastValues offset rest ((← valueAt b place) :: values) pads

def lastBytes (offset : Nat) (last : UInt8) : List Nat → Except Base64Fault (List UInt8)
  | [a, b] =>
    let n := a * 64 + b
    if n % 16 = 0 then .ok [UInt8.ofNat (n / 16)] else .error (.lastSymbol last.toNat (offset + 1))
  | [a, b, c] =>
    let n := (a * 64 + b) * 64 + c
    if n % 4 = 0 then .ok [UInt8.ofNat (n / 1024), UInt8.ofNat (n / 4)]
    else .error (.lastSymbol last.toNat (offset + 2))
  | [a, b, c, d] =>
    let n := ((a * 64 + b) * 64 + c) * 64 + d
    .ok [UInt8.ofNat (n / 65536), UInt8.ofNat (n / 256), UInt8.ofNat n]
  | _ => .ok []

def decodeLast (offset : Nat) (bytes : List UInt8) : Except Base64Fault (List UInt8) := do
  let (values, pads) ← lastValues offset bytes [] 0
  if bytes.isEmpty then return []
  if values.length < 2 then throw (.length (offset + values.length))
  if (values.length + pads) % 4 ≠ 0 then throw .padding
  lastBytes offset ((bytes.drop (values.length - 1)).headD 0) values

def decodeFrom (offset : Nat) : List UInt8 → Except Base64Fault (List UInt8)
  | a :: b :: c :: d :: e :: rest => do
    let a ← valueAt a offset
    let b ← valueAt b (offset + 1)
    let c ← valueAt c (offset + 2)
    let d ← valueAt d (offset + 3)
    return (← lastBytes offset 0 [a, b, c, d]) ++ (← decodeFrom (offset + 4) (e :: rest))
  | bytes => decodeLast offset bytes

/-- Reads a written form. A lone last byte that is no symbol is reported before all else. -/
def decode (bytes : List UInt8) : Except Base64Fault (List UInt8) :=
  match bytes.getLast? with
  | some last =>
    if bytes.length % 4 = 1 ∧ last ≠ pad ∧ (value? last).isNone then
      .error (.symbol last.toNat (bytes.length - 1))
    else decodeFrom 0 bytes
  | none => .ok []

end Galley.Base64
