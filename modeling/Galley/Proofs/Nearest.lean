import Mathlib
import Galley.Single

/-! The single nearest to a binary fraction. Its mantissa is the number in units of the last place, rounded;
no single is nearer, and if one is as near, the mantissa that was taken is even. -/

namespace Galley

/-- The number that mantissa and exponent stand for. -/
def Dyadic.toRat (d : Dyadic) : ℚ := d.mantissa * 2 ^ d.exponent

namespace Single

theorem decode_bounds {bits : UInt32} {d : Dyadic} (h : decode? bits = some d) :
    |d.mantissa| < 2 ^ 24 ∧ -149 ≤ d.exponent ∧ d.exponent ≤ 104 := by
  have hb := bits.toNat_lt
  simp only [decode?] at h
  split at h
  · cases h
  · rename_i he
    cases h
    have hf : fractionField bits < 2 ^ 23 := Nat.mod_lt _ (by decide)
    have hx : exponentField bits < 256 := Nat.mod_lt _ (by decide)
    refine ⟨?_, by simp; omega, by simp; omega⟩
    dsimp only
    rw [abs_lt]
    split_ifs <;> omega

/-- The mantissa of the single nearest to a number, before it carries. -/
def roundedMantissa (n : Nat) : Nat :=
  if n.log2 ≤ 23 then n <<< (23 - n.log2) else shiftRoundEven n (n.log2 - 23)

theorem shiftRoundEven_near (n k : Nat) : 2 * (shiftRoundEven n k * 2 ^ k) ≤ 2 * n + 2 ^ k ∧
    2 * n ≤ 2 * (shiftRoundEven n k * 2 ^ k) + 2 ^ k ∧
    (2 * (shiftRoundEven n k * 2 ^ k) = 2 * n + 2 ^ k ∨
      2 * n = 2 * (shiftRoundEven n k * 2 ^ k) + 2 ^ k → Even (shiftRoundEven n k)) := by
  have hpow : 1 <<< k = 2 ^ k := by simp [Nat.shiftLeft_eq]
  have hpos : 0 < 2 ^ k := Nat.two_pow_pos k
  have hsplit : n / 2 ^ k * 2 ^ k + n % 2 ^ k = n := Nat.div_add_mod' n (2 ^ k)
  have hlt : n % 2 ^ k < 2 ^ k := Nat.mod_lt n hpos
  have hnext : (n / 2 ^ k + 1) * 2 ^ k = n / 2 ^ k * 2 ^ k + 2 ^ k := by ring
  rw [Nat.even_iff]
  simp only [shiftRoundEven, hpow]
  split_ifs with h
  · refine ⟨by omega, by omega, fun htie => ?_⟩
    omega
  · rw [hnext]
    exact ⟨by omega, by omega, fun htie => by omega⟩

theorem log2_bounds {n : Nat} (h : n ≠ 0) : 2 ^ n.log2 ≤ n ∧ n < 2 ^ (n.log2 + 1) :=
  ⟨Nat.log2_self_le h, Nat.lt_log2_self⟩

theorem roundedMantissa_bounds {n : Nat} (h : n ≠ 0) :
    2 ^ 23 ≤ roundedMantissa n ∧ roundedMantissa n ≤ 2 ^ 24 := by
  obtain ⟨hl, hr⟩ := log2_bounds h
  rw [roundedMantissa]
  split_ifs with htop
  · have hlow : 2 ^ n.log2 * 2 ^ (23 - n.log2) = 2 ^ 23 := by
      rw [← Nat.pow_add, Nat.add_sub_cancel' htop]
    have hhigh : 2 ^ (n.log2 + 1) * 2 ^ (23 - n.log2) = 2 ^ 24 := by
      rw [← Nat.pow_add, show n.log2 + 1 + (23 - n.log2) = 24 by omega]
    rw [Nat.shiftLeft_eq, ← hlow, ← hhigh]
    exact ⟨Nat.mul_le_mul_right _ hl, Nat.mul_le_mul_right _ hr.le⟩
  · have hlow : 2 ^ 23 * 2 ^ (n.log2 - 23) ≤ n := by
      rw [← Nat.pow_add, show 23 + (n.log2 - 23) = n.log2 by omega]
      exact hl
    have hhigh : n < 2 ^ 24 * 2 ^ (n.log2 - 23) := by
      rw [← Nat.pow_add, show 24 + (n.log2 - 23) = n.log2 + 1 by omega]
      exact hr
    have hpos : 0 < 2 ^ (n.log2 - 23) := Nat.two_pow_pos _
    obtain ⟨hupper, hlower, -⟩ := shiftRoundEven_near n (n.log2 - 23)
    constructor
    · by_contra hlt
      have hm : shiftRoundEven n (n.log2 - 23) + 1 ≤ 2 ^ 23 := by omega
      have hmul := Nat.mul_le_mul_right (2 ^ (n.log2 - 23)) hm
      rw [Nat.add_mul] at hmul
      omega
    · by_contra hlt
      have hm : 2 ^ 24 + 1 ≤ shiftRoundEven n (n.log2 - 23) := by omega
      have hmul := Nat.mul_le_mul_right (2 ^ (n.log2 - 23)) hm
      rw [Nat.add_mul] at hmul
      omega

theorem roundedMantissa_near (n : Nat) :
    let unit : ℚ := 2 ^ ((n.log2 : ℤ) - 23)
    |roundedMantissa n * unit - n| ≤ unit / 2 ∧
      (|roundedMantissa n * unit - n| = unit / 2 → Even (roundedMantissa n)) := by
  intro unit
  by_cases htop : n.log2 ≤ 23
  · have hunit : unit = 1 / 2 ^ (23 - n.log2) := by
      have hexponent : (n.log2 : ℤ) - 23 = -((23 - n.log2 : ℕ) : ℤ) := by omega
      show (2 : ℚ) ^ ((n.log2 : ℤ) - 23) = _
      rw [hexponent, zpow_neg, zpow_natCast, one_div]
    have hpos : (0 : ℚ) < 1 / 2 ^ (23 - n.log2) := by positivity
    have hexact : (roundedMantissa n : ℚ) * unit - n = 0 := by
      rw [roundedMantissa, if_pos htop, hunit, Nat.shiftLeft_eq]
      push_cast
      field_simp
      ring
    rw [hexact, hunit, abs_zero]
    exact ⟨by positivity, fun hh => by linarith⟩
  · have hunit : unit = (2 ^ (n.log2 - 23) : ℕ) := by
      have hexponent : (n.log2 : ℤ) - 23 = ((n.log2 - 23 : ℕ) : ℤ) := by omega
      show (2 : ℚ) ^ ((n.log2 : ℤ) - 23) = _
      rw [hexponent, zpow_natCast, Nat.cast_pow]
      rfl
    obtain ⟨hupper, hlower, htie⟩ := shiftRoundEven_near n (n.log2 - 23)
    rw [roundedMantissa, if_neg htop, hunit]
    qify at hupper hlower htie
    constructor
    · rw [abs_le]
      push_cast
      constructor <;> linarith
    · intro hh
      apply htie
      push_cast at hh
      rcases abs_eq_abs.mp (hh.trans (abs_of_nonneg (by positivity)).symm) with heq | heq
      · left; linarith
      · right; linarith

theorem log2_le {n : Nat} (h : n ≠ 0) {k : Nat} (hn : n < 2 ^ (k + 1)) : n.log2 ≤ k := by
  have hlt := (Nat.log2_lt h).mpr hn
  omega

/-- The fields of a single number as it is put together. -/
theorem toNat_nearest {n : Int} (hn : n ≠ 0) (hb : n.natAbs < 2 ^ 64) : (nearest n 32).toNat =
    (if n < 0 then 2 ^ 31 else 0) + ((n.natAbs.log2 + 94) * 2 ^ 23 + roundedMantissa n.natAbs) := by
  have habs : n.natAbs ≠ 0 := Int.natAbs_ne_zero.mpr hn
  have htop := log2_le habs hb
  obtain ⟨hl, hr⟩ := roundedMantissa_bounds habs
  have hm : magnitude n.natAbs 32 = (n.natAbs.log2 + 94) * 2 ^ 23 + roundedMantissa n.natAbs := by
    rw [magnitude, if_neg habs]
    rfl
  rw [nearest, hm, UInt32.toNat_ofNat']
  split_ifs
  · exact Nat.mod_eq_of_lt (by omega)
  · exact Nat.mod_eq_of_lt (by omega)

theorem decode_normal {bits : UInt32} (hl : 0 < exponentField bits) (hr : exponentField bits < 255) :
    decode? bits = some ⟨if negative bits then -((fractionField bits + 2 ^ 23 : ℕ) : ℤ)
      else (fractionField bits + 2 ^ 23 : ℕ), exponentField bits - 150⟩ := by
  have hmax : max (exponentField bits) 1 = exponentField bits := max_eq_left hl
  have hne : exponentField bits ≠ 255 := by omega
  have hne' : exponentField bits ≠ 0 := by omega
  simp only [decode?, if_neg hne, if_neg hne', hmax]
  rfl

/-- A mantissa that carries makes the exponent greater by one, and stands for the same number. -/
theorem fields_nearest {n : Int} (hn : n ≠ 0) (hb : n.natAbs < 2 ^ 64) :
    0 < exponentField (nearest n 32) ∧ exponentField (nearest n 32) < 255 ∧
    negative (nearest n 32) = decide (n < 0) ∧
    ((fractionField (nearest n 32) + 2 ^ 23 : ℕ) : ℚ) * 2 ^ ((exponentField (nearest n 32) : ℤ) - 150) =
      roundedMantissa n.natAbs * 2 ^ ((n.natAbs.log2 : ℤ) - 55) ∧
    (Even (roundedMantissa n.natAbs) → Even (fractionField (nearest n 32) + 2 ^ 23)) := by
  have habs : n.natAbs ≠ 0 := Int.natAbs_ne_zero.mpr hn
  have htop := log2_le habs hb
  have hbits := toNat_nearest hn hb
  obtain ⟨hl, hr⟩ := roundedMantissa_bounds habs
  generalize roundedMantissa n.natAbs = m at *
  generalize n.natAbs.log2 = top at *
  have hsign : negative (nearest n 32) = decide (n < 0) := by
    rw [negative, hbits]
    split_ifs with h
    · simp only [h, decide_true, beq_iff_eq]
      omega
    · simp only [h, decide_false, beq_eq_false_iff_ne]
      omega
  have hexponent : exponentField (nearest n 32) = if m = 2 ^ 24 then top + 96 else top + 95 := by
    rw [exponentField, hbits]
    split_ifs <;> omega
  have hfraction : fractionField (nearest n 32) + 2 ^ 23 = if m = 2 ^ 24 then 2 ^ 23 else m := by
    rw [fractionField, hbits]
    split_ifs <;> omega
  rw [hexponent, hfraction, hsign]
  by_cases hcarry : m = 2 ^ 24
  · rw [if_pos hcarry, if_pos hcarry, hcarry]
    have hstep : ((top + 96 : ℕ) : ℤ) - 150 = (top - 55 : ℤ) + 1 := by omega
    refine ⟨by omega, by omega, rfl, ?_, fun _ => by decide⟩
    rw [hstep, zpow_add_one₀ (by norm_num)]
    push_cast
    ring
  · rw [if_neg hcarry, if_neg hcarry]
    have hstep : ((top + 95 : ℕ) : ℤ) - 150 = (top - 55 : ℤ) := by omega
    exact ⟨by omega, by omega, rfl, by rw [hstep], id⟩

/-- The single of a number, its sign apart, in units of the last place. -/
theorem decode_nearest {n : Int} (hn : n ≠ 0) (hb : n.natAbs < 2 ^ 64) :
    ∃ d, decode? (nearest n 32) = some d ∧
    d.toRat = n.sign * (roundedMantissa n.natAbs * 2 ^ ((n.natAbs.log2 : ℤ) - 23) / 2 ^ 32) ∧
    (Even (roundedMantissa n.natAbs) → Even d.mantissa) := by
  obtain ⟨hl, hr, hsign, hvalue, heven⟩ := fields_nearest hn hb
  have hunit : (2 : ℚ) ^ ((n.natAbs.log2 : ℤ) - 55) = 2 ^ ((n.natAbs.log2 : ℤ) - 23) / 2 ^ 32 := by
    rw [show (n.natAbs.log2 : ℤ) - 55 = (n.natAbs.log2 : ℤ) - 23 - (32 : ℕ) by omega,
      zpow_sub₀ (by norm_num), zpow_natCast]
  rw [hunit, ← mul_div_assoc] at hvalue
  refine ⟨_, decode_normal hl hr, ?_, fun h => ?_⟩
  · rw [Dyadic.toRat, hsign, ← hvalue]
    rcases lt_or_gt_of_ne hn with h | h
    · rw [Int.sign_eq_neg_one_of_neg h, decide_eq_true h, if_pos rfl]
      push_cast
      ring
    · rw [Int.sign_eq_one_of_pos h, decide_eq_false (not_lt.mpr h.le), if_neg Bool.false_ne_true]
      push_cast
      ring
  · have hmantissa := heven h
    dsimp only
    split_ifs
    · exact Even.neg (by exact_mod_cast hmantissa)
    · exact_mod_cast hmantissa

theorem unit_le {n : Nat} (h : n ≠ 0) : (2 ^ 23 : ℚ) * 2 ^ ((n.log2 : ℤ) - 23) ≤ n := by
  have hsplit : (2 ^ 23 : ℚ) * 2 ^ ((n.log2 : ℤ) - 23) = 2 ^ n.log2 := by
    rw [← zpow_natCast, ← zpow_natCast, ← zpow_add₀ (by norm_num)]
    congr 1
    omega
  rw [hsplit]
  exact_mod_cast Nat.log2_self_le h

/-- Of the multiples of a unit only one is nearer than half of it. -/
theorem half_le_of_ne {unit x : ℚ} (hu : 0 < unit) {m k : ℤ} (hm : |m * unit - x| ≤ unit / 2) (hk : k ≠ m) :
    unit / 2 ≤ |k * unit - x| := by
  have hone : (1 : ℚ) ≤ |(k : ℚ) - m| := by exact_mod_cast Int.one_le_abs (sub_ne_zero.mpr hk)
  have hunit : unit ≤ |k * unit - m * unit| := by
    rw [← sub_mul, abs_mul, abs_of_pos hu]
    exact le_mul_of_one_le_left hu.le hone
  have htriangle := abs_sub_le (k * unit) x (m * unit)
  rw [abs_sub_comm x] at htriangle
  linarith

/-- No number with a mantissa of 24 bits is nearer than the rounded one. If one is as near, the rounded
mantissa is even. -/
theorem roundedMantissa_nearest {n : Nat} (hn : n ≠ 0) {k e : ℤ} (hk : |k| < 2 ^ 24) :
    let unit : ℚ := 2 ^ ((n.log2 : ℤ) - 23)
    |roundedMantissa n * unit - n| ≤ |(k : ℚ) * 2 ^ e - n| ∧
      (|roundedMantissa n * unit - n| = |(k : ℚ) * 2 ^ e - n| →
        (k : ℚ) * 2 ^ e = roundedMantissa n * unit ∨ Even (roundedMantissa n)) := by
  intro unit
  obtain ⟨hnear, htie⟩ := roundedMantissa_near n
  have hu : 0 < unit := by positivity
  have hnear' : |((roundedMantissa n : ℤ) : ℚ) * unit - n| ≤ unit / 2 := by exact_mod_cast hnear
  by_cases he : (n.log2 : ℤ) - 23 ≤ e
  · obtain ⟨j, hj⟩ := Int.eq_ofNat_of_zero_le (show 0 ≤ e - ((n.log2 : ℤ) - 23) by omega)
    have hgrid : (k : ℚ) * 2 ^ e = ((k * 2 ^ j : ℤ) : ℚ) * unit := by
      have hsplit : e = j + ((n.log2 : ℤ) - 23) := by omega
      rw [hsplit, zpow_add₀ (by norm_num), zpow_natCast]
      push_cast
      ring
    rw [hgrid]
    by_cases hsame : k * 2 ^ j = roundedMantissa n
    · rw [hsame]
      exact ⟨le_rfl, fun _ => .inl rfl⟩
    · have hfar := half_le_of_ne hu hnear' hsame
      exact ⟨hnear.trans hfar, fun heq => .inr (htie (le_antisymm hnear (heq ▸ hfar)))⟩
  · have hlow := unit_le hn
    have hpow : (2 : ℚ) ^ e ≤ unit / 2 := by
      have hhalf : unit / 2 = 2 ^ ((n.log2 : ℤ) - 23 - 1) := by rw [zpow_sub_one₀ (by norm_num)]; rfl
      rw [hhalf]
      exact zpow_le_zpow_right₀ (by norm_num) (by omega)
    have hk' : (k : ℚ) < 2 ^ 24 := by exact_mod_cast (abs_lt.mp hk).2
    have hbelow : (k : ℚ) * 2 ^ e < 2 ^ 23 * unit := by
      calc (k : ℚ) * 2 ^ e < 2 ^ 24 * 2 ^ e := by gcongr
        _ ≤ 2 ^ 24 * (unit / 2) := by gcongr
        _ = 2 ^ 23 * unit := by ring
    have hedge : |roundedMantissa n * unit - n| ≤ |2 ^ 23 * unit - n| := by
      by_cases hm : (2 ^ 23 : ℤ) = roundedMantissa n
      · have hm' : ((roundedMantissa n : ℕ) : ℚ) = 2 ^ 23 := by exact_mod_cast hm.symm
        rw [hm']
      · have hfar := half_le_of_ne hu hnear' hm
        push_cast at hfar
        exact hnear.trans hfar
    have hstrict : |2 ^ 23 * unit - n| < |(k : ℚ) * 2 ^ e - n| := by
      rw [abs_of_nonpos (by linarith), abs_of_neg (by linarith)]
      linarith
    exact ⟨(hedge.trans_lt hstrict).le, fun heq => absurd heq (hedge.trans_lt hstrict).ne⟩


theorem sign_cases {n : ℤ} (h : n ≠ 0) : n.sign = 1 ∨ n.sign = -1 := by
  rcases lt_or_gt_of_ne h with h | h
  · exact .inr (Int.sign_eq_neg_one_of_neg h)
  · exact .inl (Int.sign_eq_one_of_pos h)

theorem abs_signed_sub {n : ℤ} (hn : n ≠ 0) (x : ℚ) :
    |n.sign * (x / 2 ^ 32) - n / 2 ^ 32| = |x - n.natAbs| / 2 ^ 32 := by
  have hsplit : (n.sign : ℚ) * (n.natAbs : ℚ) = n := by
    have hcast := congrArg (Int.cast : ℤ → ℚ) (Int.sign_mul_natAbs n)
    rwa [Int.cast_mul, Int.cast_natCast] at hcast
  have hone : |(n.sign : ℚ)| = 1 := by rcases sign_cases hn with h | h <;> simp [h]
  have hscale : |(2 ^ 32 : ℚ)| = 2 ^ 32 := abs_of_pos (by norm_num)
  calc |n.sign * (x / 2 ^ 32) - n / 2 ^ 32| = |n.sign * ((x - n.natAbs) / 2 ^ 32)| := by
        congr 1
        linear_combination hsplit / 2 ^ 32
    _ = |x - n.natAbs| / 2 ^ 32 := by rw [abs_mul, hone, one_mul, abs_div, hscale]

theorem decode_nearest_zero : decode? (nearest 0 32) = some ⟨0, -149⟩ := by decide

/-- No single is nearer to `n / 2 ^ 32` than its own. If another one is as near, its own is even. -/
theorem nearest_of_all {n : ℤ} (hb : n.natAbs < 2 ^ 64) : ∃ d, decode? (nearest n 32) = some d ∧
    ∀ bits d', decode? bits = some d' → |d.toRat - n / 2 ^ 32| ≤ |d'.toRat - n / 2 ^ 32| ∧
      (|d.toRat - n / 2 ^ 32| = |d'.toRat - n / 2 ^ 32| → d'.toRat = d.toRat ∨ Even d.mantissa) := by
  by_cases hn : n = 0
  · subst hn
    have hd : Dyadic.toRat ⟨0, -149⟩ = 0 := by rw [Dyadic.toRat, Int.cast_zero, zero_mul]
    refine ⟨_, decode_nearest_zero, fun bits d' _ => ?_⟩
    rw [hd, Int.cast_zero, zero_div, sub_self, abs_zero]
    exact ⟨abs_nonneg _, fun _ => .inr Even.zero⟩
  · obtain ⟨d, hd, hvalue, heven⟩ := decode_nearest hn hb
    have habs : n.natAbs ≠ 0 := Int.natAbs_ne_zero.mpr hn
    have hsign := sign_cases hn
    refine ⟨d, hd, fun bits d' hd' => ?_⟩
    obtain ⟨hk, -, -⟩ := decode_bounds hd'
    have hk' : |n.sign * d'.mantissa| < 2 ^ 24 := by
      rcases hsign with hs | hs <;> simpa [hs] using hk
    obtain ⟨hle, htie⟩ := roundedMantissa_nearest habs (e := d'.exponent + 32) hk'
    have hother : d'.toRat = n.sign * (((n.sign * d'.mantissa : ℤ) : ℚ) * 2 ^ (d'.exponent + 32) / 2 ^ 32) := by
      have hsquare : (n.sign : ℚ) * n.sign = 1 := by
        rcases hsign with hs | hs <;> simp [hs]
      have hscale : (2 : ℚ) ^ (d'.exponent + 32) = 2 ^ d'.exponent * 2 ^ 32 := by
        rw [zpow_add₀ (by norm_num)]
        rfl
      rw [Dyadic.toRat, hscale, Int.cast_mul]
      linear_combination -(d'.mantissa * 2 ^ d'.exponent) * hsquare
    rw [hvalue, hother, abs_signed_sub hn, abs_signed_sub hn]
    constructor
    · exact div_le_div_of_nonneg_right hle (by norm_num)
    · intro heq
      have heq' := (div_left_inj' (show (2 ^ 32 : ℚ) ≠ 0 by norm_num)).mp heq
      rcases htie heq' with hsame | htie
      · exact .inl (by rw [hsame])
      · exact .inr (heven htie)

end Single

end Galley
