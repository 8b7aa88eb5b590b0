/-! IEEE single-precision numbers as bit patterns. A finite pattern denotes a dyadic rational, and a
dyadic rational has a nearest pattern; both directions are exact integer arithmetic. -/

namespace Galley

structure Dyadic where
  mantissa : Int
  exponent : Int
  deriving DecidableEq, Repr

namespace Single

def negative (bits : UInt32) : Bool := bits.toNat / 0x80000000 == 1

def exponentField (bits : UInt32) : Nat := bits.toNat / 0x800000 % 256

def fractionField (bits : UInt32) : Nat := bits.toNat % 0x800000

def decode? (bits : UInt32) : Option Dyadic :=
  let e := exponentField bits
  if e = 255 then none else
  let m : Nat := if e = 0 then fractionField bits else fractionField bits + 0x800000
  some ⟨if negative bits then -(m : Int) else m, (max e 1 : Nat) - 150⟩

/-- The quotient of `n` by `2 ^ k` rounded to the nearest integer, a tie to the even one. -/
def shiftRoundEven (n k : Nat) : Nat :=
  let den := 1 <<< k
  let q := n / den
  let twice := 2 * (n % den)
  if twice < den ∨ (twice = den ∧ q % 2 = 0) then q else q + 1

/-- The magnitude bits of the single nearest to `n / 2 ^ k`, a tie to the even one, while that value
lies in the normal range. The rounded mantissa carries into the exponent field by itself. -/
def magnitude (n k : Nat) : Nat :=
  if n = 0 then 0 else
  let top := n.log2
  let m := if top ≤ 23 then n <<< (23 - top) else shiftRoundEven n (top - 23)
  (top + 126 - k) * 0x800000 + m

def nearest (n : Int) (k : Nat) : UInt32 :=
  UInt32.ofNat ((if n < 0 then 0x80000000 else 0) + magnitude n.natAbs k)

end Single

end Galley
