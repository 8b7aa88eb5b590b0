import Mathlib
import Galley.Proofs.Canonical
import Galley.Proofs.Nearest

/-! Lengths as singles, and singles as lengths. Up to 16384 points three roundings together stay below half a
millipoint: to millipoints and to bits of a length, then to the 24 bits of a single. So a length comes back. -/

namespace Galley

/-! Rounding to integers, of numbers of either sign. -/

theorem roundAway_mono {p q : ℚ} (h : p ≤ q) : roundAway p ≤ roundAway q := by
  rcases le_or_gt 0 p with hp | hp
  · exact roundAway_le_roundAway hp h
  · rcases le_or_gt 0 q with hq | hq
    · have hzero : roundAway 0 = 0 := by norm_num [roundAway]
      have hupper := roundAway_le_roundAway le_rfl hq
      have hlower := roundAway_le_roundAway le_rfl (show 0 ≤ -p by linarith)
      rw [roundAway_neg] at hlower
      omega
    · have hh := roundAway_le_roundAway (show 0 ≤ -q by linarith) (neg_le_neg h)
      rw [roundAway_neg, roundAway_neg] at hh
      omega

theorem roundAway_near (q : ℚ) : |roundAway q - q| ≤ 1 / 2 := by
  rw [roundAway]
  split_ifs
  · have hl := Int.lt_floor_add_one (q + 1 / 2)
    have hr := Int.floor_le (q + 1 / 2)
    rw [abs_le]
    constructor <;> linarith
  · have hl := Int.ceil_lt_add_one (q - 1 / 2)
    have hr := Int.le_ceil (q - 1 / 2)
    rw [abs_le]
    constructor <;> linarith

theorem roundAway_eq_of_near {q : ℚ} {m : ℤ} (h : |q - m| < 1 / 2) : roundAway q = m := by
  have hq := roundAway_near q
  have hdist : |(roundAway q - m : ℤ)| < (1 : ℤ) := by
    have hh : |(roundAway q : ℚ) - m| < 1 := by
      calc |(roundAway q : ℚ) - m| ≤ |roundAway q - q| + |q - m| := abs_sub_le _ _ _
        _ < 1 := by linarith
    exact_mod_cast hh
  rw [Int.abs_lt_one_iff] at hdist
  omega

theorem roundAway_intCast (m : ℤ) : roundAway m = m := roundAway_eq_of_near (by norm_num)

/-- The numbers that a double can stand for. -/
def InDoublePrecision (q : ℚ) : Prop :=
  ∃ m e : ℤ, |m| < 2 ^ 53 ∧ -1074 ≤ e ∧ e ≤ 971 ∧ q = m * 2 ^ e

namespace Length

theorem nearestMillis_eq (d : Dyadic) : nearestMillis d = roundAway (1000 * d.toRat) := by
  obtain ⟨m, e⟩ := d
  rw [nearestMillis, Dyadic.toRat]
  dsimp only
  by_cases he : 0 ≤ e
  · rw [if_pos he]
    obtain ⟨k, rfl⟩ := Int.eq_ofNat_of_zero_le he
    have hval : (1000 : ℚ) * (m * 2 ^ (k : ℤ)) = ((m * 1000 * (2 ^ k : ℕ) : ℤ) : ℚ) := by
      push_cast
      rw [zpow_natCast]
      ring
    rw [hval, roundAway_intCast]
    simp [Nat.shiftLeft_eq]
  · rw [if_neg he]
    obtain ⟨k, hk⟩ := Int.eq_ofNat_of_zero_le (show 0 ≤ -e by omega)
    have hek : e = -(k : ℤ) := by omega
    subst hek
    have hpow : (((1 <<< k : ℕ) : ℤ)) ≠ 0 := by simp [Nat.shiftLeft_eq]
    rw [hk, Int.toNat_natCast, roundDiv_eq_roundAway hpow]
    congr 1
    simp [Nat.shiftLeft_eq]
    field_simp

/-- A single is read by the steps of 128 bits, and overflows where one of these does. -/
theorem ofSingle_eq_wide {bits : UInt32} {d : Dyadic} (h : Single.decode? bits = some d) :
    ofSingle bits = (Wide.ofMillis (roundAway (1000 * d.toRat))).elim (.error {}) .ok := by
  rw [ofSingle, h, Wide.ofMillis_eq_ite]
  dsimp only
  rw [nearestMillis_eq]
  split <;> rfl

/-- Up to 80 bits nothing overflows. -/
theorem ofSingle_eq {bits : UInt32} {d : Dyadic} (h : Single.decode? bits = some d)
    (hd : (roundAway (1000 * d.toRat)).natAbs ≤ 0x100000000000000000000) :
    ofSingle bits = .ok (ofMillis (roundAway (1000 * d.toRat))) := by
  rw [ofSingle_eq_wide h, Wide.ofMillis_eq hd, Option.elim_some]

/-- A length in points. -/
def toRat (l : Length) : ℚ := l.bits.toInt / 2 ^ 32

theorem natAbs_bits_lt (l : Length) : l.bits.toInt.natAbs < 2 ^ 64 := by
  have hb := l.toInt_bounds
  omega

theorem toSingle_nearest (l : Length) : ∃ d, Single.decode? l.toSingle = some d ∧
    ∀ bits d', Single.decode? bits = some d' → |d.toRat - l.toRat| ≤ |d'.toRat - l.toRat| ∧
      (|d.toRat - l.toRat| = |d'.toRat - l.toRat| → d'.toRat = d.toRat ∨ Even d.mantissa) :=
  Single.nearest_of_all l.natAbs_bits_lt

theorem bits_ofMillis_near {m : Int} (h : |m| ≤ 16384000) :
    |((ofMillis m).bits.toInt : ℚ) - m * 2 ^ 32 / 1000| ≤ 1 / 2 := by
  obtain ⟨hl, hr⟩ := abs_le.mp h
  have hden : (0 : Int) < 1000 := by decide
  have hlower := roundDiv_mono (show -16384000 * 4294967296 ≤ m * 4294967296 by omega) hden
  have hupper := roundDiv_mono (show m * 4294967296 ≤ 16384000 * 4294967296 by omega) hden
  have hlow : roundDiv (-16384000 * 4294967296) 1000 = -70368744177664 := by decide
  have hhigh : roundDiv (16384000 * 4294967296) 1000 = 70368744177664 := by decide
  have hbits : (ofMillis m).bits.toInt = roundDiv (m * 4294967296) 1000 := by
    rw [toInt_ofMillis]
    omega
  have hnear := roundAway_near (((m * 4294967296 : ℤ) : ℚ) / ((1000 : ℤ) : ℚ))
  rw [hbits, roundDiv_eq_roundAway (by decide)]
  push_cast at hnear ⊢
  norm_num at hnear ⊢
  exact hnear

/-- Below 16384 points the unit of the last place of a single is at most `2 ^ (-10)`. -/
theorem toSingle_near {l : Length} (h : l.bits.toInt.natAbs < 2 ^ 46) {d : Dyadic}
    (hd : Single.decode? l.toSingle = some d) : |d.toRat - l.toRat| ≤ 1 / 2 ^ 11 := by
  by_cases hzero : l.bits.toInt = 0
  · rw [toSingle, hzero, Single.decode_nearest_zero] at hd
    cases hd
    rw [toRat, hzero, Dyadic.toRat]
    norm_num
  · obtain ⟨d', hd', hvalue, -⟩ := Single.decode_nearest hzero l.natAbs_bits_lt
    rw [toSingle, hd'] at hd
    cases hd
    obtain ⟨hnear, -⟩ := Single.roundedMantissa_near l.bits.toInt.natAbs
    have htop := Single.log2_le (Int.natAbs_ne_zero.mpr hzero) h
    have hunit : (2 : ℚ) ^ ((l.bits.toInt.natAbs.log2 : ℤ) - 23) ≤ 2 ^ 22 :=
      zpow_le_zpow_right₀ (by norm_num) (show (l.bits.toInt.natAbs.log2 : ℤ) - 23 ≤ (22 : ℕ) by omega)
    have hscale : (1 / 2 ^ 11 * 2 ^ 32 : ℚ) = 2 ^ 22 / 2 := by norm_num
    rw [toRat, hvalue, Single.abs_signed_sub hzero, div_le_iff₀ (by norm_num), hscale]
    linarith

theorem natAbs_bits_ofMillis_lt {m : Int} (h : |m| < 16384000) : (ofMillis m).bits.toInt.natAbs < 2 ^ 46 := by
  obtain ⟨hl, hr⟩ := abs_lt.mp h
  obtain ⟨hl', hr'⟩ := abs_le.mp (bits_ofMillis_near h.le)
  have hm : (-16383999 : ℚ) ≤ m := by exact_mod_cast (show (-16383999 : ℤ) ≤ m by omega)
  have hm' : (m : ℚ) ≤ 16383999 := by exact_mod_cast (show m ≤ 16383999 by omega)
  have hlow : -(2 ^ 46 : ℚ) < (ofMillis m).bits.toInt := by linarith
  have hhigh : ((ofMillis m).bits.toInt : ℚ) < 2 ^ 46 := by linarith
  have hlow' : -(2 ^ 46 : ℤ) < (ofMillis m).bits.toInt := by exact_mod_cast hlow
  have hhigh' : (ofMillis m).bits.toInt < (2 ^ 46 : ℤ) := by exact_mod_cast hhigh
  omega

/-- Half a bit and half a unit of the last place, a thousandfold, are less than half a millipoint. -/
theorem roundAway_toSingle {m : Int} (h : |m| < 16384000) {d : Dyadic}
    (hd : Single.decode? (ofMillis m).toSingle = some d) : roundAway (1000 * d.toRat) = m := by
  have hbits := bits_ofMillis_near h.le
  have hsingle := toSingle_near (natAbs_bits_ofMillis_lt h) hd
  apply roundAway_eq_of_near
  have hsplit : 1000 * d.toRat - m = 1000 * (d.toRat - (ofMillis m).toRat) +
      1000 / 2 ^ 32 * ((ofMillis m).bits.toInt - m * 2 ^ 32 / 1000) := by
    rw [toRat]
    ring
  rw [hsplit]
  obtain ⟨hl, hr⟩ := abs_le.mp hsingle
  obtain ⟨hl', hr'⟩ := abs_le.mp hbits
  rw [abs_lt]
  constructor <;> linarith

theorem ofSingle_toSingle {l : Length} (hs : l.Snapped) (h : |l.millis| ≤ 16384000) :
    ofSingle l.toSingle = .ok l := by
  rcases lt_or_eq_of_le h with hlt | heq
  · obtain ⟨d, hd, -⟩ := toSingle_nearest (ofMillis l.millis)
    have hround := roundAway_toSingle hlt hd
    obtain ⟨hlow, hhigh⟩ := abs_lt.mp hlt
    rw [hs] at hd
    rw [ofSingle_eq hd (by omega), hround, hs]
  -- From 16384 points on the unit is twice as large, but that length itself is a single.
  · rw [← hs]
    rcases abs_eq (by norm_num) |>.mp heq with hm | hm
    · rw [hm]
      decide +kernel
    · rw [hm]
      decide +kernel

/-! A single has few enough bits for a thousandfold of it to fit a double. -/

theorem inDoublePrecision_single {bits : UInt32} {d : Dyadic} (h : Single.decode? bits = some d) {k : ℤ}
    (hk : |k| ≤ 2 ^ 29) : InDoublePrecision (k * d.toRat) := by
  obtain ⟨hm, hl, hr⟩ := Single.decode_bounds h
  refine ⟨k * d.mantissa, d.exponent, ?_, by omega, by omega, ?_⟩
  · calc |k * d.mantissa| = |k| * |d.mantissa| := abs_mul _ _
      _ ≤ 2 ^ 29 * |d.mantissa| := by gcongr
      _ < 2 ^ 53 := by omega
  · rw [Dyadic.toRat]
    push_cast
    ring

theorem inDoublePrecision_intCast {m : ℤ} (h : |m| < 2 ^ 53) : InDoublePrecision m :=
  ⟨m, 0, h, by decide, by decide, by rw [zpow_zero, mul_one]⟩

theorem abs_roundAway_le {q : ℚ} (h : |q| ≤ 2 ^ 31) : |roundAway (1000 * q)| ≤ maxMillis := by
  obtain ⟨hl, hr⟩ := abs_le.mp h
  have hlow : roundAway (((-2147483648000 : ℤ) : ℚ)) ≤ roundAway (1000 * q) :=
    roundAway_mono (by push_cast; linarith)
  have hhigh : roundAway (1000 * q) ≤ roundAway ((2147483648000 : ℤ) : ℚ) :=
    roundAway_mono (by push_cast; linarith)
  rw [roundAway_intCast] at hlow hhigh
  exact abs_le.mpr ⟨hlow, hhigh⟩

theorem ofSingle_of_le {bits : UInt32} {d : Dyadic} (h : Single.decode? bits = some d) (hd : |d.toRat| ≤ 2 ^ 31) :
    ofSingle bits = .ok (ofMillis (roundAway (1000 * d.toRat))) ∧
      (ofMillis (roundAway (1000 * d.toRat))).millis = roundAway (1000 * d.toRat) := by
  obtain ⟨hl, hr⟩ := abs_le.mp (abs_roundAway_le hd)
  have hbits : (roundAway (1000 * d.toRat)).natAbs ≤ 0x100000000000000000000 := by
    simp only [maxMillis] at hl hr
    omega
  exact ⟨ofSingle_eq h hbits, by rw [millis_ofMillis, saturate_eq hl hr]⟩

/-- A computed length of up to 16384 points comes back from the nearest single. A single of up to `2 ^ 31` points
is read as its thousandfold, rounded to an integer, and of two of them the greater is not read as less. -/
theorem single_round_trip {l : Length} (hl : l.Computed) (hlow : ofPoints (-16384) ≤ l)
    (hhigh : l ≤ ofPoints 16384) {v w : UInt32} {x y : Dyadic} (hv : Single.decode? v = some x)
    (hw : Single.decode? w = some y) (hx : |x.toRat| ≤ 2 ^ 31) (hy : |y.toRat| ≤ 2 ^ 31) :
    ofSingle l.toSingle = .ok l ∧
    (∃ d, Single.decode? l.toSingle = some d ∧ ∀ bits d', Single.decode? bits = some d' →
      |d.toRat - l.toRat| ≤ |d'.toRat - l.toRat| ∧
      (|d.toRat - l.toRat| = |d'.toRat - l.toRat| → d'.toRat = d.toRat ∨ Even d.mantissa)) ∧
    InDoublePrecision x.toRat ∧ InDoublePrecision (1000 * x.toRat) ∧
    InDoublePrecision (roundAway (1000 * x.toRat)) ∧
    ∃ a b, ofSingle v = .ok a ∧ ofSingle w = .ok b ∧ a.millis = roundAway (1000 * x.toRat) ∧
      (x.toRat ≤ y.toRat → a ≤ b) := by
  have hmillis : |l.millis| ≤ 16384000 := by
    have hl' := millis_mono hlow
    have hr' := millis_mono hhigh
    rw [show (ofPoints (-16384)).millis = -16384000 by decide] at hl'
    rw [show (ofPoints 16384).millis = 16384000 by decide] at hr'
    exact abs_le.mpr ⟨hl', hr'⟩
  have hsingle := inDoublePrecision_single hv (k := 1) (by decide)
  have hproduct := inDoublePrecision_single hv (k := 1000) (by decide)
  have hrounded := inDoublePrecision_intCast ((abs_roundAway_le hx).trans_lt (by decide))
  rw [Int.cast_one, one_mul] at hsingle
  obtain ⟨hread, hexact⟩ := ofSingle_of_le hv hx
  obtain ⟨hread', -⟩ := ofSingle_of_le hw hy
  exact ⟨ofSingle_toSingle hl.snapped hmillis, l.toSingle_nearest, hsingle, by exact_mod_cast hproduct, hrounded,
    _, _, hread, hread', hexact, fun hle => ofMillis_mono (roundAway_mono (by linarith))⟩

/-- The last millipoint before 16384 points, and the singles that are `1 / 16` and 1.5. The sixteenth is
62.5 millipoints. -/
theorem single_round_trip_sixteenth :
    ofSingle (ofPoints 16384 - ofPoints 1 / (1000 : Int)).toSingle =
      .ok (ofPoints 16384 - ofPoints 1 / (1000 : Int)) ∧
    (ofPoints 16384 - ofPoints 1 / (1000 : Int)).millis = 16383999 ∧
    ∃ a b, ofSingle 0x3D800000 = .ok a ∧ ofSingle 0x3FC00000 = .ok b ∧ a.millis = 63 ∧ a ≤ b := by
  have hl : (ofPoints 16384 - ofPoints 1 / (1000 : Int)).Computed :=
    .sub (.ofSigned 16384) (.div (.ofSigned 1) 1000)
  have hv : Single.decode? 0x3D800000 = some ⟨8388608, -27⟩ := by decide
  have hw : Single.decode? 0x3FC00000 = some ⟨12582912, -23⟩ := by decide
  have hx : Dyadic.toRat ⟨8388608, -27⟩ = 1 / 16 := by norm_num [Dyadic.toRat]
  have hy : Dyadic.toRat ⟨12582912, -23⟩ = 3 / 2 := by norm_num [Dyadic.toRat]
  obtain ⟨hback, -, -, -, -, a, b, ha, hb, hmillis, hmono⟩ := single_round_trip hl (by decide) (by decide) hv hw
    (by rw [hx, abs_of_pos] <;> norm_num) (by rw [hy, abs_of_pos] <;> norm_num)
  refine ⟨hback, by decide, a, b, ha, hb, ?_, hmono ?_⟩
  · rw [hmillis, hx, roundAway]
    norm_num
  · rw [hx, hy]
    norm_num

/-- A millipoint beyond 16384 points is lost. -/
example : ofSingle (ofMillis 16384001).toSingle ≠ .ok (ofMillis 16384001) := by decide +kernel

/-- The single nearest to `10 ^ 30` is too large to be read. -/
example : ofSingle 0x7149F2CA = .error {} := by decide +kernel

end Length

end Galley
