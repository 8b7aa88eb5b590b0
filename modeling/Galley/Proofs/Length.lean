import Mathlib.Order.Defs.LinearOrder
import Mathlib.Order.Lattice
import Galley.Element

/-! Lengths in whole millipoints. Turning millipoints into a length and back changes nothing but what lies
beyond the ends, so sums, differences and halves of lengths are sums, differences and halves of
millipoints, cut off at the ends. -/

namespace Galley

theorem roundDiv_of_nonneg {num den : Int} (hn : 0 ≤ num) (hd : 0 < den) :
    roundDiv num den = (num + den / 2) / den := by
  have hz : den ≠ 0 := by omega
  have he : decide (0 ≤ num) = decide (0 < den) := by simp [hn, hd]
  simp only [roundDiv, hz, if_false, he, if_true]
  have ha : (num.natAbs : Int) = num := by omega
  have hb : (den.natAbs : Int) = den := by omega
  have hc : ((den.natAbs / 2 : Nat) : Int) = den / 2 := by omega
  rw [Int.natCast_ediv, Int.natCast_add, hc, ha, hb]

theorem roundDiv_of_neg {num den : Int} (hn : num < 0) (hd : 0 < den) :
    roundDiv num den = -((-num + den / 2) / den) := by
  have hz : den ≠ 0 := by omega
  have he : ¬ decide (0 ≤ num) = decide (0 < den) := by simp [hd]; omega
  simp only [roundDiv, hz, if_false, he]
  have ha : (num.natAbs : Int) = -num := by omega
  have hb : (den.natAbs : Int) = den := by omega
  have hc : ((den.natAbs / 2 : Nat) : Int) = den / 2 := by omega
  rw [Int.natCast_ediv, Int.natCast_add, hc, ha, hb]

theorem roundDiv_mono {a b den : Int} (h : a ≤ b) (hd : 0 < den) : roundDiv a den ≤ roundDiv b den := by
  have hh : 0 ≤ den / 2 := Int.ediv_nonneg hd.le (by omega)
  rcases lt_or_ge a 0 with ha | ha
  · rw [roundDiv_of_neg ha hd]
    rcases lt_or_ge b 0 with hb | hb
    · rw [roundDiv_of_neg hb hd]
      have hq := Int.ediv_le_ediv hd (show -b + den / 2 ≤ -a + den / 2 by omega)
      omega
    · rw [roundDiv_of_nonneg hb hd]
      have hp := Int.ediv_nonneg (show 0 ≤ -a + den / 2 by omega) hd.le
      have hq := Int.ediv_nonneg (show 0 ≤ b + den / 2 by omega) hd.le
      omega
  · rw [roundDiv_of_nonneg ha hd, roundDiv_of_nonneg (ha.trans h) hd]
    exact Int.ediv_le_ediv hd (by omega)

namespace Length

theorem le_iff_toInt_le {a b : Length} : a ≤ b ↔ a.bits.toInt ≤ b.bits.toInt := Int64.le_iff_toInt_le

theorem lt_iff_toInt_lt {a b : Length} : a < b ↔ a.bits.toInt < b.bits.toInt := Int64.lt_iff_toInt_lt

theorem eq_of_toInt_eq {a b : Length} (h : a.bits.toInt = b.bits.toInt) : a = b := by
  cases a
  cases b
  exact congrArg mk (Int64.toInt_inj.mp h)

instance : LinearOrder Length where
  le_refl a := le_iff_toInt_le.mpr le_rfl
  le_trans a b c hab hbc := le_iff_toInt_le.mpr ((le_iff_toInt_le.mp hab).trans (le_iff_toInt_le.mp hbc))
  lt_iff_le_not_ge a b := by
    simp only [le_iff_toInt_le, lt_iff_toInt_lt]
    omega
  le_antisymm a b hab hba :=
    eq_of_toInt_eq (le_antisymm (le_iff_toInt_le.mp hab) (le_iff_toInt_le.mp hba))
  le_total a b := by
    simp only [le_iff_toInt_le]
    omega
  toDecidableLE := inferInstance
  toDecidableLT := inferInstance
  toDecidableEq := inferInstance
  max_def a b := by
    change (if a < b then b else a) = _
    rcases lt_trichotomy a.bits.toInt b.bits.toInt with h | h | h
    · rw [if_pos (lt_iff_toInt_lt.mpr h), if_pos (le_iff_toInt_le.mpr h.le)]
    · simp [eq_of_toInt_eq h]
    · rw [if_neg (fun hh => by have := lt_iff_toInt_lt.mp hh; omega),
        if_neg (fun hh => by have := le_iff_toInt_le.mp hh; omega)]

def maxMillis : Int := 2147483648000

def saturate (m : Int) : Int := max (-maxMillis) (min m maxMillis)

theorem toInt_ofIntClamp (b : Int) :
    (Int64.ofIntClamp b).toInt = max (-9223372036854775808) (min b 9223372036854775807) := by
  have hmin : Int64.minValue.toInt = -9223372036854775808 := by decide
  have hmax : Int64.maxValue.toInt = 9223372036854775807 := by decide
  by_cases hl : Int64.minValue.toInt ≤ b
  · by_cases hr : b ≤ Int64.maxValue.toInt
    · rw [Int64.toInt_ofIntClamp hl hr]
      omega
    · rw [Int64.ofIntClamp, dif_pos hl, dif_neg hr]
      omega
  · rw [Int64.ofIntClamp, dif_neg hl]
    omega

theorem toInt_bounds (l : Length) :
    -9223372036854775808 ≤ l.bits.toInt ∧ l.bits.toInt ≤ 9223372036854775807 := by
  have hl := l.bits.le_toInt
  have hr := l.bits.toInt_lt
  omega

theorem toInt_ofMillis (m : Int) : (ofMillis m).bits.toInt =
    max (-9223372036854775808) (min (roundDiv (m * 4294967296) 1000) 9223372036854775807) :=
  toInt_ofIntClamp _

/-- Millipoints that a length can have come back from it unchanged: the two roundings together are off
by less than half a millipoint. -/
theorem millis_ofMillis (m : Int) : (ofMillis m).millis = saturate m := by
  change roundDiv ((ofMillis m).bits.toInt * 1000) 4294967296 = _
  rw [toInt_ofMillis]
  simp only [saturate, maxMillis]
  rcases lt_or_ge m 0 with h | h
  · rw [roundDiv_of_neg (show m * 4294967296 < 0 by omega) (by decide),
      roundDiv_of_neg (by omega) (by decide)]
    omega
  · rw [roundDiv_of_nonneg (show 0 ≤ m * 4294967296 by omega) (by decide),
      roundDiv_of_nonneg (by omega) (by decide)]
    omega

theorem ofMillis_saturate (m : Int) : ofMillis (saturate m) = ofMillis m := by
  apply eq_of_toInt_eq
  simp only [toInt_ofMillis, saturate, maxMillis]
  rcases lt_or_ge m 0 with h | h
  · rw [roundDiv_of_neg (by omega) (by decide), roundDiv_of_neg (by omega) (by decide)]
    omega
  · rw [roundDiv_of_nonneg (by omega) (by decide), roundDiv_of_nonneg (by omega) (by decide)]
    omega

theorem millis_mono {a b : Length} (h : a ≤ b) : a.millis ≤ b.millis := by
  have hh := le_iff_toInt_le.mp h
  exact roundDiv_mono (by omega) (by decide)

theorem ofMillis_mono {m n : Int} (h : m ≤ n) : ofMillis m ≤ ofMillis n := by
  have hh := roundDiv_mono (show m * 4294967296 ≤ n * 4294967296 by omega)
    (show (0 : Int) < 1000 by decide)
  simp only [le_iff_toInt_le, toInt_ofMillis]
  omega

/-- A length that is a whole number of millipoints, as every computed length is. -/
def Snapped (l : Length) : Prop := ofMillis l.millis = l

theorem snapped_ofMillis (m : Int) : (ofMillis m).Snapped := by
  rw [Snapped, millis_ofMillis, ofMillis_saturate]

theorem Snapped.le_iff {a b : Length} (ha : a.Snapped) (hb : b.Snapped) :
    a ≤ b ↔ a.millis ≤ b.millis := by
  refine ⟨millis_mono, fun h => ?_⟩
  rw [← ha, ← hb]
  exact ofMillis_mono h

theorem snapped_add (a b : Length) : (a + b).Snapped := snapped_ofMillis _

theorem snapped_sub (a b : Length) : (a - b).Snapped := snapped_ofMillis _

theorem snapped_zero : (0 : Length).Snapped := snapped_ofMillis 0

theorem Snapped.add_eq {a b c : Length} (hc : c.Snapped) (h : c.millis = a.millis + b.millis) : a + b = c := by
  rw [Snapped, h] at hc
  exact hc

theorem millis_zero : (0 : Length).millis = 0 := by decide

theorem millis_add (a b : Length) : (a + b).millis = saturate (a.millis + b.millis) := millis_ofMillis _

theorem millis_sub (a b : Length) : (a - b).millis = saturate (a.millis - b.millis) := millis_ofMillis _

theorem millis_bounds (l : Length) : -maxMillis ≤ l.millis ∧ l.millis ≤ maxMillis := by
  have hb := l.toInt_bounds
  have hl := roundDiv_mono (show -9223372036854775808 * 1000 ≤ l.bits.toInt * 1000 by omega)
    (show (0 : Int) < onePoint by decide)
  have hr := roundDiv_mono (show l.bits.toInt * 1000 ≤ 9223372036854775807 * 1000 by omega)
    (show (0 : Int) < onePoint by decide)
  exact ⟨hl, hr⟩

theorem millis_nonneg {l : Length} (h : 0 ≤ l) : 0 ≤ l.millis := by
  have hh := millis_mono h
  rwa [millis_zero] at hh

theorem millis_half {l : Length} (h : 0 ≤ l.millis) : l.half.millis = (l.millis + 1) / 2 := by
  have hb := l.millis_bounds
  have he : l.half.millis = saturate (roundDiv l.millis 2) := millis_ofMillis _
  rw [he, roundDiv_of_nonneg h (by decide)]
  simp only [saturate, maxMillis] at hb ⊢
  omega

theorem ofMillis_zero : ofMillis 0 = 0 := by decide

theorem ofMillis_nonneg {m : Int} (h : 0 ≤ m) : 0 ≤ ofMillis m := by
  have hh := ofMillis_mono h
  rwa [ofMillis_zero] at hh

theorem add_le_add {a b c d : Length} (h : a ≤ b) (h' : c ≤ d) : a + c ≤ b + d := by
  have hm := millis_mono h
  have hm' := millis_mono h'
  exact ofMillis_mono (by omega)

theorem half_mono {a b : Length} (h : a ≤ b) : a.half ≤ b.half :=
  ofMillis_mono (roundDiv_mono (millis_mono h) (by decide))

theorem add_nonneg {a b : Length} (ha : 0 ≤ a) (hb : 0 ≤ b) : 0 ≤ a + b := by
  have ha' := millis_nonneg ha
  have hb' := millis_nonneg hb
  exact ofMillis_nonneg (by omega)

theorem le_add {a b : Length} (ha : a.Snapped) (hb : 0 ≤ b) : a ≤ a + b := by
  have hb' := millis_nonneg hb
  have hm := a.millis_bounds
  rw [ha.le_iff (snapped_add a b), millis_add]
  simp only [saturate, maxMillis] at hm ⊢
  omega

theorem add_le_add_of_nonneg {a b c : Length} (hc : 0 ≤ c) : a + b ≤ a + (b + c) := by
  have hc' := millis_nonneg hc
  have hm := b.millis_bounds
  have hs := millis_add b c
  refine ofMillis_mono ?_
  simp only [saturate, maxMillis] at hm hs
  omega

theorem half_nonneg {l : Length} (h : 0 ≤ l) : 0 ≤ l.half := by
  have hh := millis_nonneg h
  refine ofMillis_nonneg ?_
  rw [roundDiv_of_nonneg hh (by decide)]
  omega

theorem add_half_le (a : Length) {l : Length} (h : 0 ≤ l) : a + l.half ≤ a + l := by
  have hh := millis_nonneg h
  have hhalf := millis_half hh
  refine ofMillis_mono ?_
  omega

/-- A box no higher than a line, with its middle at the middle of the line, is within the line. Of an odd
height the larger half is above the middle, in the box no more than in the line. -/
theorem box_within_line {top height box : Length} (ht : 0 ≤ top) (hb : 0 ≤ box) (hh : box ≤ height) :
    0 ≤ top + height.half - box.half ∧ top + height.half - box.half + box ≤ top + height := by
  have ht' := millis_nonneg ht
  have hb' := millis_nonneg hb
  have hh' := millis_mono hh
  have hm := height.millis_bounds
  have hhalf := millis_half (hb'.trans hh')
  have bhalf := millis_half hb'
  have hy := millis_add top height.half
  have hz := millis_sub (top + height.half) box.half
  simp only [saturate, maxMillis] at hm hy hz
  constructor
  · refine ofMillis_nonneg ?_
    omega
  · refine ofMillis_mono ?_
    omega

/-- The sum of two lengths is not cut off. -/
def Exact (a b : Length) : Prop := (a + b).millis = a.millis + b.millis

instance (a b : Length) : Decidable (Exact a b) := inferInstanceAs (Decidable (_ = _))

theorem millis_middle {top height : Length} (hh : 0 ≤ height) (hx : top.Exact height) :
    (top + height.half).millis = top.millis + height.half.millis := by
  have hh' := millis_nonneg hh
  have ht := top.millis_bounds
  have hm := (top + height).millis_bounds
  have hhalf := millis_half hh'
  have hy := millis_add top height.half
  rw [Exact] at hx
  simp only [saturate, maxMillis] at ht hm hy
  omega

section box

variable {top height box : Length} (ht : 0 ≤ top) (hb : 0 ≤ box) (hh : box ≤ height) (hx : top.Exact height)

include ht hb hh hx

theorem millis_box_top : (top + height.half - box.half).millis =
    top.millis + (height.millis + 1) / 2 - (box.millis + 1) / 2 := by
  have ht' := millis_nonneg ht
  have hb' := millis_nonneg hb
  have hh' := millis_mono hh
  have hm := (top + height).millis_bounds
  have hhalf := millis_half (hb'.trans hh')
  have bhalf := millis_half hb'
  have hy := millis_add top height.half
  have hz := millis_sub (top + height.half) box.half
  rw [Exact] at hx
  simp only [saturate, maxMillis] at hm hy hz
  omega

theorem millis_box_bottom : (top + height.half - box.half + box).millis =
    top.millis + (height.millis + 1) / 2 + box.millis / 2 := by
  have ht' := millis_nonneg ht
  have hb' := millis_nonneg hb
  have hh' := millis_mono hh
  have hm := (top + height).millis_bounds
  have htop := millis_box_top ht hb hh hx
  have hs := millis_add (top + height.half - box.half) box
  rw [Exact] at hx
  simp only [saturate, maxMillis] at hm hs
  omega

theorem top_le_box (hs : top.Snapped) : top ≤ top + height.half - box.half := by
  have hh' := millis_mono hh
  have htop := millis_box_top ht hb hh hx
  rw [hs.le_iff (snapped_sub _ _)]
  omega

/-- Of an odd height the larger half is above the middle, in the box as in the line. So the gaps on both
sides of the box differ when one of the two heights is odd, and by no more than that. -/
theorem box_gaps : ((top + height.half - box.half).millis - top.millis -
    ((top + height).millis - (top + height.half - box.half + box).millis)).natAbs ≤ 1 := by
  have htop := millis_box_top ht hb hh hx
  have hbottom := millis_box_bottom ht hb hh hx
  rw [Exact] at hx
  omega

end box

theorem foldl_max_le {a b : Length} {ls : List Length} :
    ls.foldl max a ≤ b ↔ a ≤ b ∧ ∀ l ∈ ls, l ≤ b := by
  induction ls generalizing a with
  | nil => simp
  | cons l ls ih => simp [ih, and_assoc]

theorem le_foldl_max {a l : Length} {ls : List Length} (h : l ∈ ls) : l ≤ ls.foldl max a :=
  (foldl_max_le.mp le_rfl).2 l h

theorem init_le_foldl_max (a : Length) (ls : List Length) : a ≤ ls.foldl max a :=
  (foldl_max_le.mp le_rfl).1

end Length

end Galley
