import Galley.Single

/-! Lengths are binary fixed-point numbers with 32 fractional bits. Every operation goes through whole
millipoints and saturates, so equal inputs always give equal coordinates. -/

namespace Galley

/-- The quotient rounded to the nearest integer, a half away from zero. Division by zero gives zero. -/
def roundDiv (num den : Int) : Int :=
  if den = 0 then 0 else
  let magnitude : Int := ((num.natAbs + den.natAbs / 2) / den.natAbs : Nat)
  if decide (0 ≤ num) = decide (0 < den) then magnitude else -magnitude

/-- A number left the bits it is kept in. Whoever asked for it gets no answer at all. -/
structure Overflow where
  deriving DecidableEq

/-- A length of `bits / 2 ^ 32` points. -/
structure Length where
  bits : Int64
  deriving DecidableEq

namespace Length

def onePoint : Nat := 0x100000000

def millis (l : Length) : Int := roundDiv (l.bits.toInt * 1000) onePoint

/-- The length nearest to a number of millipoints, saturated at both ends. -/
def ofMillis (m : Int) : Length := ⟨.ofIntClamp (roundDiv (m * onePoint) 1000)⟩

def ofPoints (n : Int) : Length := ofMillis (n * 1000)

def zero : Length := ⟨0⟩

instance : Inhabited Length := ⟨zero⟩
instance : OfNat Length 0 := ⟨zero⟩

instance : LT Length := ⟨fun a b => a.bits < b.bits⟩
instance : LE Length := ⟨fun a b => a.bits ≤ b.bits⟩

instance (a b : Length) : Decidable (a < b) := inferInstanceAs (Decidable (a.bits < b.bits))
instance (a b : Length) : Decidable (a ≤ b) := inferInstanceAs (Decidable (a.bits ≤ b.bits))

instance : Max Length := ⟨fun a b => if a < b then b else a⟩

instance : Add Length := ⟨fun a b => ofMillis (a.millis + b.millis)⟩

instance : Sub Length := ⟨fun a b => ofMillis (a.millis - b.millis)⟩

instance : HMul Length Int Length := ⟨fun a n => ofMillis (a.millis * n)⟩

instance : HDiv Length Int Length := ⟨fun a n => ofMillis (roundDiv a.millis n)⟩

def scale (l : Length) (num den : Int) : Length := ofMillis (roundDiv (l.millis * num) den)

def half (l : Length) : Length := l / (2 : Int)

def nearestMillis (points : Dyadic) : Int :=
  if 0 ≤ points.exponent then points.mantissa * 1000 * (1 <<< points.exponent.toNat : Nat)
  else roundDiv (points.mantissa * 1000) (1 <<< (-points.exponent).toNat : Nat)

/-- Whether integers of 128 bits are enough to round a number of millipoints to bits. -/
def isWithinReach (m : Int) : Bool := m.natAbs * onePoint + 500 ≤ 170141183460469231731687303715884105727

/-- What is not finite is read as zero. A number beyond the ends is cut off only after it is rounded, so one that
is much too large overflows. -/
def ofSingle (bits : UInt32) : Except Overflow Length :=
  match Single.decode? bits with
  | none => .ok 0
  | some points =>
    if isWithinReach (nearestMillis points) then .ok (ofMillis (nearestMillis points)) else .error {}

def toSingle (l : Length) : UInt32 := Single.nearest l.bits.toInt 32

def padDigits (width n : Nat) : String :=
  let digits := n.repr
  String.ofList (List.replicate (width - digits.length) '0') ++ digits

def toText (l : Length) : String :=
  let m := l.millis
  (if m < 0 then "-" else "") ++ (m.natAbs / 1000).repr ++ "." ++ padDigits 3 (m.natAbs % 1000)

def tenTo (k : Nat) : Nat := Nat.pow 10 k

/-- How many decimals name `n / 2 ^ 32`: the fewest from one to ten whose nearest decimal is closer
than half a unit in the last bit. -/
def decimalPlaces (n : Nat) : Nat :=
  let near (k : Nat) : Bool :=
    let r := n * tenTo k % onePoint
    2 * r < tenTo k || 2 * (onePoint - r) < tenTo k
  ((List.range 9).map (· + 1)).find? near |>.getD 10

def toExactText (l : Length) : String :=
  let n := l.bits.toInt.natAbs
  let k := decimalPlaces n
  let scaled := Single.shiftRoundEven (n * tenTo k) 32
  let decimals := (padDigits k (scaled % tenTo k)).toList.reverse.dropWhile (· == '0') |>.reverse
  (if l.bits < 0 then "-" else "") ++ (scaled / tenTo k).repr ++
    (if decimals.isEmpty then "" else "." ++ String.ofList decimals)

end Length

end Galley
