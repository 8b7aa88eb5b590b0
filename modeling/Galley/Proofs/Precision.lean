import Mathlib
import Galley.Proofs.Length

/-! Arithmetic of lengths as exact arithmetic of millipoints. What an operation gives is what rational
arithmetic gives, rounded once and cut off at the ends, and no number on the way to it needs more than 128 bits. -/

namespace Galley

/-- The integer nearest to a rational number. Of two that are as near it is the one further from zero. -/
def roundAway (q : ℚ) : ℤ := if 0 ≤ q then ⌊q + 1 / 2⌋ else ⌈q - 1 / 2⌉

theorem roundAway_neg (q : ℚ) : roundAway (-q) = -roundAway q := by
  rcases lt_trichotomy q 0 with h | h | h
  · have hq : ¬ 0 ≤ q := not_le.mpr h
    have hn : 0 ≤ -q := by linarith
    rw [roundAway, roundAway, if_pos hn, if_neg hq, ← Int.floor_neg]
    congr 1
    ring
  · subst h
    norm_num [roundAway]
  · have hq : ¬ 0 ≤ -q := by linarith
    rw [roundAway, roundAway, if_neg hq, if_pos h.le, ← Int.ceil_neg]
    congr 1
    ring

theorem roundAway_of_nonneg {q : ℚ} (h : 0 ≤ q) : roundAway q = ⌊q + 1 / 2⌋ := if_pos h

theorem roundAway_nonneg {q : ℚ} (h : 0 ≤ q) : 0 ≤ roundAway q := by
  rw [roundAway_of_nonneg h]
  exact Int.floor_nonneg.mpr (by linarith)

theorem roundAway_le_roundAway {p q : ℚ} (hp : 0 ≤ p) (h : p ≤ q) : roundAway p ≤ roundAway q := by
  rw [roundAway_of_nonneg hp, roundAway_of_nonneg (hp.trans h)]
  exact Int.floor_le_floor (by linarith)

theorem roundDiv_neg_den {den : Int} (hd : den ≠ 0) (num : Int) : roundDiv num (-den) = -roundDiv num den := by
  have hd' : -den ≠ 0 := by omega
  have hsign : decide (0 < -den) = !decide (0 < den) := by
    rw [← decide_not]
    exact decide_eq_decide.mpr (by omega)
  rw [roundDiv, roundDiv, if_neg hd, if_neg hd', hsign, Int.natAbs_neg]
  cases decide (0 ≤ num) <;> cases decide (0 < den) <;> simp

theorem roundDiv_eq_of_nonneg {num den : Int} (hn : 0 ≤ num) (hd : 0 < den) :
    roundDiv num den = roundAway ((num : ℚ) / den) := by
  have hq : (0 : ℚ) ≤ (num : ℚ) / den := by positivity
  have hd' : (den : ℚ) ≠ 0 := by positivity
  have hhalf : ⌊(num : ℚ) + (den : ℚ) / 2⌋ = num + den / 2 := by
    rw [Int.floor_intCast_add]
    exact congrArg (num + ·) (Rat.floor_intCast_div_natCast den 2)
  calc roundDiv num den = (num + den / 2) / den := roundDiv_of_nonneg hn hd
    _ = ⌊((num : ℚ) + (den : ℚ) / 2) / den⌋ := by rw [Int.floor_div_cast_of_nonneg hd.le, hhalf]
    _ = ⌊(num : ℚ) / den + 1 / 2⌋ := by
      congr 1
      field_simp
    _ = roundAway ((num : ℚ) / den) := (if_pos hq).symm

theorem roundDiv_eq_of_pos {den : Int} (hd : 0 < den) (num : Int) :
    roundDiv num den = roundAway ((num : ℚ) / den) := by
  rcases lt_or_ge num 0 with hn | hn
  · have hneg := roundDiv_eq_of_nonneg (show 0 ≤ -num by omega) hd
    rw [roundDiv_of_nonneg (by omega) hd] at hneg
    have hq : (num : ℚ) / den = -(((-num : ℤ) : ℚ) / den) := by
      push_cast
      ring
    rw [roundDiv_of_neg hn hd, hneg, hq, roundAway_neg]
  · exact roundDiv_eq_of_nonneg hn hd

/-- Rounded division is division rounded, whatever the signs are. -/
theorem roundDiv_eq_roundAway {den : Int} (hd : den ≠ 0) (num : Int) :
    roundDiv num den = roundAway ((num : ℚ) / den) := by
  rcases lt_or_gt_of_ne hd with hneg | hpos
  · have hh := roundDiv_eq_of_pos (show 0 < -den by omega) num
    have hq : (num : ℚ) / den = -((num : ℚ) / ((-den : ℤ) : ℚ)) := by
      push_cast
      rw [div_neg, neg_neg]
    rw [hq, roundAway_neg, ← hh, roundDiv_neg_den hd, neg_neg]
  · exact roundDiv_eq_of_pos hpos num

theorem natAbs_roundDiv_le (num den : Int) : (roundDiv num den).natAbs ≤ num.natAbs := by
  rw [roundDiv]
  by_cases hd : den = 0
  · rw [if_pos hd]
    exact Nat.zero_le _
  · rw [if_neg hd]
    have hpos : 0 < den.natAbs := Int.natAbs_pos.mpr hd
    have hle : (num.natAbs + den.natAbs / 2) / den.natAbs ≤ num.natAbs := by
      refine Nat.le_of_lt_succ ((Nat.div_lt_iff_lt_mul hpos).mpr ?_)
      have hmul : num.natAbs * 1 ≤ num.natAbs * den.natAbs := Nat.mul_le_mul_left _ hpos
      rw [Nat.succ_mul]
      omega
    by_cases hs : decide (0 ≤ num) = decide (0 < den)
    · rw [if_pos hs, Int.natAbs_natCast]
      exact hle
    · rw [if_neg hs, Int.natAbs_neg, Int.natAbs_natCast]
      exact hle

/-! Each operation again, on numbers of 128 bits. A step whose result does not fit gives nothing, be it an
overflow or a product that would be cut off. -/

namespace Wide

def greatest : Int := 170141183460469231731687303715884105727

def fit (n : Int) : Option Int := if -greatest - 1 ≤ n ∧ n ≤ greatest then some n else none

def roundDiv (num den : Int) : Option Int :=
  if den = 0 then some 0 else do
    let d ← fit den.natAbs
    let n ← fit num.natAbs
    let sum ← fit (n + d / 2)
    let magnitude ← fit (sum / d)
    if decide (0 ≤ num) = decide (0 < den) then return magnitude else fit (-magnitude)

def millis (l : Length) : Option Int := do roundDiv (← fit (l.bits.toInt * 1000)) Length.onePoint

def ofMillis (m : Int) : Option Length := do
  return ⟨.ofIntClamp (← roundDiv (← fit (m * Length.onePoint)) 1000)⟩

def ofPoints (n : Int) : Option Length := do ofMillis (← fit (n * 1000))

def add (a b : Length) : Option Length := do ofMillis (← fit ((← millis a) + (← millis b)))

def sub (a b : Length) : Option Length := do ofMillis (← fit ((← millis a) - (← millis b)))

def mul (a : Length) (n : Int) : Option Length := do ofMillis (← fit ((← millis a) * n))

def div (a : Length) (n : Int) : Option Length := do ofMillis (← roundDiv (← millis a) n)

def scale (a : Length) (num den : Int) : Option Length := do
  ofMillis (← roundDiv (← fit ((← millis a) * num)) den)

def toText (l : Length) : Option String := do
  let m ← millis l
  let magnitude ← fit m.natAbs
  return (if m < 0 then "-" else "") ++ (magnitude.toNat / 1000).repr ++ "." ++
    Length.padDigits 3 (magnitude.toNat % 1000)

theorem fit_eq {n : Int} (h : n.natAbs ≤ greatest.natAbs) : fit n = some n := by
  have hg : (greatest.natAbs : Int) = greatest := rfl
  exact if_pos ⟨by omega, by omega⟩

theorem fit_bind {α : Type} {n : Int} (h : n.natAbs ≤ greatest.natAbs) (f : Int → Option α) :
    fit n >>= f = f n := by
  rw [fit_eq h]
  rfl

theorem roundDiv_eq {num den : Int} (h : num.natAbs + den.natAbs ≤ greatest.natAbs) :
    roundDiv num den = some (Galley.roundDiv num den) := by
  rw [roundDiv, Galley.roundDiv]
  by_cases hd : den = 0
  · rw [if_pos hd, if_pos hd]
  · have hquotient : ((num.natAbs : Int) + den.natAbs / 2) / den.natAbs =
        ((num.natAbs + den.natAbs / 2) / den.natAbs : Nat) := by
      rw [Int.natCast_ediv, Int.natCast_add, Int.natCast_ediv]
      rfl
    have hle : (num.natAbs + den.natAbs / 2) / den.natAbs ≤ num.natAbs + den.natAbs / 2 := Nat.div_le_self _ _
    rw [if_neg hd, if_neg hd, fit_bind (by omega), fit_bind (by omega), fit_bind (by omega), hquotient]
    generalize (num.natAbs + den.natAbs / 2) / den.natAbs = magnitude at hle ⊢
    rw [fit_bind (by omega)]
    by_cases hs : decide (0 ≤ num) = decide (0 < den)
    · rw [if_pos hs, if_pos hs]
      rfl
    · rw [if_neg hs, if_neg hs]
      exact fit_eq (by omega)

theorem natAbs_greatest : greatest.natAbs = 170141183460469231731687303715884105727 := rfl

theorem onePoint_eq : (Length.onePoint : Int) = 4294967296 := rfl

theorem isWithinReach_iff {m : Int} :
    Length.isWithinReach m = true ↔ m.natAbs * 4294967296 + 500 ≤ greatest.natAbs := decide_eq_true_iff

theorem fit_eq_some {n m : Int} (h : fit n = some m) : m = n := by
  rw [fit] at h
  split at h
  · exact (Option.some.inj h).symm
  · cases h

theorem roundDiv_eq_none {num : Int} (h : greatest.natAbs < num.natAbs) : roundDiv num 1000 = none := by
  have hg : (greatest.natAbs : Int) = greatest := rfl
  have hnone : fit num.natAbs = none := if_neg (by omega)
  rw [roundDiv, if_neg (by decide), fit_bind (by decide), hnone]
  rfl

/-- A number of millipoints has a length in 128 bits exactly if it is within reach. -/
theorem ofMillis_eq_ite (m : Int) : ofMillis m = if Length.isWithinReach m then some (.ofMillis m) else none := by
  have hg := natAbs_greatest
  by_cases h : Length.isWithinReach m = true
  · rw [if_pos h]
    rw [isWithinReach_iff] at h
    rw [ofMillis, Length.ofMillis, onePoint_eq, fit_bind (by omega), roundDiv_eq (by omega)]
    rfl
  · rw [if_neg h]
    rw [isWithinReach_iff] at h
    rw [ofMillis, onePoint_eq]
    -- The least product still fits, but not its magnitude, from which the division starts.
    cases hproduct : fit (m * 4294967296) with
    | none => rfl
    | some product =>
      have hnone : roundDiv product 1000 = none := roundDiv_eq_none (by rw [fit_eq_some hproduct]; omega)
      rw [Option.bind_eq_bind, Option.bind_some, hnone]
      rfl

theorem eq_of_ofMillis {m : Int} {l : Length} (h : ofMillis m = some l) : l = .ofMillis m := by
  rw [ofMillis_eq_ite] at h
  split at h
  · exact (Option.some.inj h).symm
  · cases h

/-- Numbers of no more than 80 bits, as all are that become a length here, leave room for 32 bits of a
fraction. -/
theorem ofMillis_eq {m : Int} (h : m.natAbs ≤ 0x100000000000000000000) : ofMillis m = some (.ofMillis m) := by
  have hg := natAbs_greatest
  rw [ofMillis_eq_ite, if_pos (isWithinReach_iff.mpr (by omega))]

theorem millis_eq (l : Length) : millis l = some l.millis := by
  have hb := l.toInt_bounds
  have hg := natAbs_greatest
  rw [millis, Length.millis, onePoint_eq, fit_bind (by omega)]
  exact roundDiv_eq (by omega)

theorem millis_bind {α : Type} (l : Length) (f : Int → Option α) : millis l >>= f = f l.millis := by
  rw [millis_eq]
  rfl

theorem natAbs_millis_le (l : Length) : l.millis.natAbs ≤ 2147483648000 := by
  have hb := l.millis_bounds
  rw [Length.maxMillis] at hb
  omega

theorem natAbs_toInt_le (n : Int32) : n.toInt.natAbs ≤ 2147483648 := by
  have hlow := n.le_toInt
  have hhigh := n.toInt_lt
  omega

theorem natAbs_millis_mul_le (l : Length) (n : Int32) :
    (l.millis * n.toInt).natAbs ≤ 2147483648000 * 2147483648 := by
  rw [Int.natAbs_mul]
  exact Nat.mul_le_mul (natAbs_millis_le l) (natAbs_toInt_le n)

section operations

variable (a b : Length) (n num den : Int32)

theorem add_eq : add a b = some (a + b) := by
  have ha := natAbs_millis_le a
  have hb := natAbs_millis_le b
  have hg := natAbs_greatest
  rw [add, millis_bind, millis_bind, fit_bind (by omega)]
  exact ofMillis_eq (by omega)

theorem sub_eq : sub a b = some (a - b) := by
  have ha := natAbs_millis_le a
  have hb := natAbs_millis_le b
  have hg := natAbs_greatest
  rw [sub, millis_bind, millis_bind, fit_bind (by omega)]
  exact ofMillis_eq (by omega)

theorem mul_eq : mul a n.toInt = some (a * n.toInt) := by
  have ha := natAbs_millis_mul_le a n
  have hg := natAbs_greatest
  rw [mul, millis_bind, fit_bind (by omega)]
  exact ofMillis_eq (by omega)

theorem div_eq : div a n.toInt = some (a / n.toInt) := by
  have ha := natAbs_millis_le a
  have hn := natAbs_toInt_le n
  have hg := natAbs_greatest
  have hq := natAbs_roundDiv_le a.millis n.toInt
  rw [div, millis_bind, roundDiv_eq (by omega)]
  exact ofMillis_eq (by omega)

theorem scale_eq : scale a num.toInt den.toInt = some (a.scale num.toInt den.toInt) := by
  have ha := natAbs_millis_mul_le a num
  have hd := natAbs_toInt_le den
  have hg := natAbs_greatest
  have hq := natAbs_roundDiv_le (a.millis * num.toInt) den.toInt
  rw [scale, millis_bind, fit_bind (by omega), roundDiv_eq (by omega)]
  exact ofMillis_eq (by omega)

theorem ofPoints_eq {p : Int} (h : p.natAbs ≤ 4294967295) : ofPoints p = some (.ofPoints p) := by
  have hg := natAbs_greatest
  rw [ofPoints, fit_bind (by omega)]
  exact ofMillis_eq (by omega)

theorem toText_eq : toText a = some a.toText := by
  have ha := natAbs_millis_le a
  have hg := natAbs_greatest
  rw [toText, millis_bind, fit_bind (by omega)]
  rfl

end operations

end Wide

namespace Length

theorem toInt_eq_zero_iff {n : Int32} : n.toInt = 0 ↔ n = 0 := Int32.toInt_inj (y := 0)

theorem millis_mul (a : Length) (n : Int) : (a * n).millis = saturate (n * a.millis) := by
  rw [Int.mul_comm n]
  exact millis_ofMillis _

theorem millis_div (a : Length) (n : Int) :
    (a / n).millis = if n = 0 then 0 else saturate (roundAway ((a.millis : ℚ) / n)) := by
  have hh : (a / n).millis = saturate (roundDiv a.millis n) := millis_ofMillis _
  by_cases hn : n = 0
  · rw [hh, if_pos hn, roundDiv, if_pos hn]
    rfl
  · rw [hh, if_neg hn, roundDiv_eq_roundAway hn]

theorem millis_scale (a : Length) (num den : Int) : (a.scale num den).millis =
    if den = 0 then 0 else saturate (roundAway ((a.millis : ℚ) * num / den)) := by
  have hh : (a.scale num den).millis = saturate (roundDiv (a.millis * num) den) := millis_ofMillis _
  by_cases hd : den = 0
  · rw [hh, if_pos hd, roundDiv, if_pos hd]
    rfl
  · rw [hh, if_neg hd, roundDiv_eq_roundAway hd, Int.cast_mul]

/-- Every operation on lengths is the operation on their millipoints, rounded at most once and cut off at the
ends, and is carried out without a number of more than 128 bits. -/
theorem arithmetic_exact (a b : Length) (n num den : Int32) (u : UInt32) :
    (a + b).millis = saturate (a.millis + b.millis) ∧
    (a - b).millis = saturate (a.millis - b.millis) ∧
    (a * n.toInt).millis = saturate (n.toInt * a.millis) ∧
    (a / n.toInt).millis = (if n = 0 then 0 else saturate (roundAway ((a.millis : ℚ) / n.toInt))) ∧
    (a.scale num.toInt den.toInt).millis =
      (if den = 0 then 0 else saturate (roundAway ((a.millis : ℚ) * num.toInt / den.toInt))) ∧
    Wide.add a b = some (a + b) ∧ Wide.sub a b = some (a - b) ∧ Wide.mul a n.toInt = some (a * n.toInt) ∧
    Wide.div a n.toInt = some (a / n.toInt) ∧
    Wide.scale a num.toInt den.toInt = some (a.scale num.toInt den.toInt) ∧
    Wide.ofPoints n.toInt = some (.ofPoints n.toInt) ∧ Wide.ofPoints u.toNat = some (.ofPoints u.toNat) ∧
    Wide.toText a = some a.toText := by
  have hn := Wide.natAbs_toInt_le n
  have hu := u.toNat_lt
  have hdiv := millis_div a n.toInt
  have hscale := millis_scale a num.toInt den.toInt
  simp only [toInt_eq_zero_iff] at hdiv hscale
  exact ⟨millis_add a b, millis_sub a b, millis_mul a n.toInt, hdiv, hscale, Wide.add_eq a b, Wide.sub_eq a b,
    Wide.mul_eq a n, Wide.div_eq a n, Wide.scale_eq a num den, Wide.ofPoints_eq (by omega),
    Wide.ofPoints_eq (by omega), Wide.toText_eq a⟩

end Length

end Galley
