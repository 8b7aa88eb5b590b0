import Mathlib
import Galley.Font.Registry
import Galley.Proofs.Precision

/-! The width of a text is that of its advances together, scaled once. The advances are added in 32 bits,
which is exact for as long as the sum fits, and overflows beyond. -/

namespace Galley

/-- Each rounding is off by half of one at most, so three of them by less than two. -/
theorem roundAway_add {p q : ℚ} (hp : 0 ≤ p) (hq : 0 ≤ q) :
    (roundAway (p + q) - (roundAway p + roundAway q)).natAbs ≤ 1 := by
  rw [roundAway_of_nonneg hp, roundAway_of_nonneg hq, roundAway_of_nonneg (add_nonneg hp hq)]
  have hp₁ := Int.floor_le (p + 1 / 2)
  have hp₂ := Int.lt_floor_add_one (p + 1 / 2)
  have hq₁ := Int.floor_le (q + 1 / 2)
  have hq₂ := Int.lt_floor_add_one (q + 1 / 2)
  have hs₁ := Int.floor_le (p + q + 1 / 2)
  have hs₂ := Int.lt_floor_add_one (p + q + 1 / 2)
  have hupper : ⌊p + q + 1 / 2⌋ < ⌊p + 1 / 2⌋ + ⌊q + 1 / 2⌋ + 2 := by
    have hh : (⌊p + q + 1 / 2⌋ : ℚ) < ⌊p + 1 / 2⌋ + ⌊q + 1 / 2⌋ + 2 := by linarith
    exact_mod_cast hh
  have hlower : ⌊p + 1 / 2⌋ + ⌊q + 1 / 2⌋ < ⌊p + q + 1 / 2⌋ + 2 := by
    have hh : (⌊p + 1 / 2⌋ : ℚ) + ⌊q + 1 / 2⌋ < ⌊p + q + 1 / 2⌋ + 2 := by linarith
    exact_mod_cast hh
  omega

namespace SizedFont

def totalAdvance (f : SizedFont) (text : String) : Nat :=
  (text.toList.map fun c => (f.face.advance c).toNat).sum

/-- What an exact sum of advances comes to in millipoints before it is rounded. -/
def exactWidth (f : SizedFont) (text : String) : ℚ :=
  f.size.millis * f.totalAdvance text / f.face.unitsPerEm

theorem toInt_advance (a : UInt16) : a.toUInt32.toInt32.toInt = a.toNat := by
  have ha := a.toNat_lt
  change a.toUInt32.toBitVec.toInt = _
  rw [BitVec.toInt_eq_toNat_of_lt]
  · rfl
  · change 2 * a.toNat < 4294967296
    omega

/-- A sum that was added up within 32 bits. -/
def sumInBits (n : Nat) : Except Overflow Int32 := if n < 2147483648 then .ok (.ofNat n) else .error {}

theorem sumInBits_of_lt {n : Nat} (h : n < 2147483648) : sumInBits n = .ok (.ofNat n) := if_pos h

theorem sumInBits_of_ge {n : Nat} (h : 2147483648 ≤ n) : sumInBits n = .error {} := if_neg (not_lt.mpr h)

theorem addAdvance_eq (f : SizedFont) {sum : Nat} (hsum : sum < 2147483648) (c : Char) :
    f.addAdvance (.ofNat sum) c = sumInBits (sum + (f.face.advance c).toNat) := by
  have hadvance := toInt_advance (f.face.advance c)
  have hstart := Int32.toInt_ofNat_of_lt hsum
  have hwrapped := Int32.toInt_add (.ofNat sum) (f.face.advance c).toUInt32.toInt32
  have hlt := (Int32.ofNat sum + (f.face.advance c).toUInt32.toInt32).toInt_lt
  rw [hadvance, hstart] at hwrapped
  rw [addAdvance, checkedAdd, hadvance, hstart]
  rcases lt_or_ge (sum + (f.face.advance c).toNat) 2147483648 with h | h
  · rw [Int.bmod_eq_of_le (by omega) (by omega)] at hwrapped
    rw [if_pos hwrapped, sumInBits_of_lt h]
    refine congrArg Except.ok (Int32.toInt_inj.mp ?_)
    rw [hwrapped, Int32.toInt_ofNat_of_lt h, Int.natCast_add]
  · rw [if_neg (by omega), sumInBits_of_ge h]

theorem foldlM_addAdvance (f : SizedFont) (cs : List Char) {sum : Nat} (hsum : sum < 2147483648) :
    cs.foldlM f.addAdvance (.ofNat sum) = sumInBits (sum + (cs.map fun c => (f.face.advance c).toNat).sum) := by
  induction cs generalizing sum with
  | nil => exact (sumInBits_of_lt hsum).symm
  | cons c cs ih =>
    rw [List.foldlM_cons, f.addAdvance_eq hsum, List.map_cons, List.sum_cons, ← Nat.add_assoc]
    rcases lt_or_ge (sum + (f.face.advance c).toNat) 2147483648 with h | h
    · rw [sumInBits_of_lt h]
      exact ih h
    -- Advances are not negative, so what was too much stays too much.
    · rw [sumInBits_of_ge h, sumInBits_of_ge (h.trans (Nat.le_add_right _ _))]
      rfl

theorem advanceSum_eq (f : SizedFont) (text : String) :
    f.advanceSum text.toList = sumInBits (f.totalAdvance text) := by
  have hh := f.foldlM_addAdvance text.toList (show 0 < 2147483648 by decide)
  rwa [Nat.zero_add] at hh

theorem totalAdvance_append (f : SizedFont) (s t : String) :
    f.totalAdvance (s ++ t) = f.totalAdvance s + f.totalAdvance t := by
  rw [totalAdvance, String.toList_append, List.map_append, List.sum_append]
  rfl

theorem totalAdvance_of_perm (f : SizedFont) {s t : String} (h : s.toList.Perm t.toList) :
    f.totalAdvance s = f.totalAdvance t := (h.map _).sum_eq

theorem totalAdvance_of_constant {f : SizedFont} {a : UInt16} (h : ∀ c, f.face.advance c = a) (text : String) :
    f.totalAdvance text = text.length * a.toNat := by
  simp [totalAdvance, h, String.length_toList]

theorem totalAdvance_le (f : SizedFont) (text : String) : f.totalAdvance text ≤ text.length * 65535 := by
  have hh := List.sum_le_card_nsmul (text.toList.map fun c => (f.face.advance c).toNat) 65535 ?_
  · simpa [totalAdvance, String.length_toList] using hh
  · intro n hn
    obtain ⟨c, -, rfl⟩ := List.mem_map.mp hn
    have ha := (f.face.advance c).toNat_lt
    omega

theorem unitsPerEm_pos (f : SizedFont) : 0 < f.face.unitsPerEm := f.face.head.unitsPerEm_pos

theorem units_totalAdvance (f : SizedFont) (text : String) :
    f.units (f.totalAdvance text) = .ofMillis (roundAway (f.exactWidth text)) := by
  have hd : (f.face.unitsPerEm : Int) ≠ 0 := by
    have hpos := f.unitsPerEm_pos
    omega
  rw [units, Length.scale, roundDiv_eq_roundAway hd, exactWidth]
  push_cast
  rfl

/-- Measuring overflows exactly if the advances together do not fit. -/
theorem measure_eq (f : SizedFont) (text : String) : f.measure text =
    if f.totalAdvance text < 2147483648 then .ok ⟨.ofMillis (roundAway (f.exactWidth text)), f.height⟩
    else .error {} := by
  rw [measure, width, advanceSum_eq, sumInBits]
  by_cases h : f.totalAdvance text < 2147483648
  · rw [if_pos h, if_pos h, ← units_totalAdvance, ← Int32.toInt_ofNat_of_lt h]
    rfl
  · rw [if_neg h, if_neg h]
    rfl

theorem measure_of_fits {f : SizedFont} {text : String} (h : f.totalAdvance text < 2147483648) :
    f.measure text = .ok ⟨.ofMillis (roundAway (f.exactWidth text)), f.height⟩ := by
  rw [measure_eq, if_pos h]

theorem measure_of_perm (f : SizedFont) {s t : String} (h : s.toList.Perm t.toList) : f.measure s = f.measure t := by
  rw [measure_eq, measure_eq, exactWidth, exactWidth, f.totalAdvance_of_perm h]

theorem exactWidth_nonneg {f : SizedFont} (h : 0 ≤ f.size) (text : String) : 0 ≤ f.exactWidth text := by
  have hm : (0 : ℚ) ≤ f.size.millis := by exact_mod_cast Length.millis_nonneg h
  rw [exactWidth]
  positivity

theorem exactWidth_append (f : SizedFont) (s t : String) :
    f.exactWidth (s ++ t) = f.exactWidth s + f.exactWidth t := by
  rw [exactWidth, totalAdvance_append, Nat.cast_add, mul_add, add_div]
  rfl

/-- The widths of two texts together are that of one text, but for what each of the three is rounded by. -/
theorem exactWidth_append_near {f : SizedFont} (h : 0 ≤ f.size) {s t : String}
    (hmax : roundAway (f.exactWidth (s ++ t)) ≤ Length.maxMillis) :
    ((Length.ofMillis (roundAway (f.exactWidth (s ++ t)))).millis -
      (Length.ofMillis (roundAway (f.exactWidth s)) + Length.ofMillis (roundAway (f.exactWidth t))).millis).natAbs ≤
        1 := by
  have hs := exactWidth_nonneg h s
  have ht := exactWidth_nonneg h t
  have hnear := roundAway_add hs ht
  have hs' := roundAway_nonneg hs
  have ht' := roundAway_nonneg ht
  have hsle := roundAway_le_roundAway hs (show f.exactWidth s ≤ f.exactWidth s + f.exactWidth t by linarith)
  have htle := roundAway_le_roundAway ht (show f.exactWidth t ≤ f.exactWidth s + f.exactWidth t by linarith)
  rw [exactWidth_append] at hmax
  rw [Length.millis_add, exactWidth_append, Length.millis_ofMillis, Length.millis_ofMillis, Length.millis_ofMillis]
  simp only [Length.saturate, Length.maxMillis] at hmax ⊢
  omega

/-- A font of a thousand units to the em in which every character advances by 65535. -/
def wideData : ByteArray := ⟨#[
  0, 1, 0, 0, 0, 4, 0, 0, 0, 0, 0, 0,
  104, 101, 97, 100, 0, 0, 0, 0, 0, 0, 0, 76, 0, 0, 0, 54, 104, 104, 101, 97, 0, 0, 0, 0, 0, 0, 0, 130, 0, 0, 0, 36,
  104, 109, 116, 120, 0, 0, 0, 0, 0, 0, 0, 166, 0, 0, 0, 4, 109, 97, 120, 112, 0, 0, 0, 0, 0, 0, 0, 170, 0, 0, 0, 6,
  0, 1, 0, 0, 0, 0, 0, 0, 0, 0, 0, 0, 0, 0, 0, 0, 0, 0, 3, 232, 0, 0, 0, 0, 0, 0, 0, 0, 0, 0, 0, 0, 0, 0, 0, 0,
  0, 0, 0, 0, 0, 0, 0, 0, 0, 0, 0, 0, 0, 0, 0, 0, 0, 0,
  0, 1, 0, 0, 3, 32, 255, 56, 0, 100, 0, 0, 0, 0, 0, 0, 0, 0, 0, 0, 0, 0, 0, 0, 0, 0, 0, 0, 0, 0, 0, 0, 0, 0, 0, 1,
  255, 255, 0, 0,
  0, 0, 80, 0, 0, 1]⟩

theorem wide_face : ∃ face, Sfnt.Face.read wideData = .ok face ∧ face.unitsPerEm = 1000 ∧
    ∀ c, face.advance c = 65535 := by
  have hread : (Sfnt.Face.read wideData).toOption.map (fun face =>
      (face.unitsPerEm, face.encodings.isEmpty, face.advances.bind (·.advance? 0))) =
        some (1000, true, some 65535) := by decide +kernel
  cases hface : Sfnt.Face.read wideData with
  | error fault =>
    rw [hface] at hread
    cases hread
  | ok face =>
    rw [hface] at hread
    simp only [Except.toOption, Option.map_some, Option.some.injEq, Prod.mk.injEq, List.isEmpty_iff] at hread
    obtain ⟨hunits, hencodings, hadvance⟩ := hread
    refine ⟨face, rfl, hunits, fun c => ?_⟩
    have hglyph : face.glyph c = 0 := by
      rw [Sfnt.Face.glyph, hencodings]
      rfl
    rw [Sfnt.Face.advance, hglyph, hadvance]
    rfl

theorem wide_font (size : Length) : ∃ f, SizedFont.ofData "wide" wideData size = .ok f ∧ f.size = size ∧
    f.face.unitsPerEm = 1000 ∧ ∀ c, f.face.advance c = 65535 := by
  obtain ⟨face, hread, hunits, hadvance⟩ := wide_face
  refine ⟨ofFace "wide" wideData face size, ?_, rfl, hunits, hadvance⟩
  have hz : ¬ face.unitsPerEm = 0 := by
    rw [hunits]
    decide
  rw [ofData, hread]
  exact if_neg hz

def letters (n : Nat) : String := String.ofList (List.replicate n 'a')

theorem length_letters (n : Nat) : (letters n).length = n := by
  rw [letters, String.length_ofList, List.length_replicate]

/-- Texts whose advances sum to less than `2 ^ 31`, and with them all texts of up to 32768 characters, have the
sum as their width, scaled and rounded once. It is not negative, does not become less when text is added, and is
that of two parts together but for a millipoint. All other texts overflow. -/
theorem width_scales_total {f : SizedFont} (hsize : 0 ≤ f.size) {s t : String}
    (hfits : f.totalAdvance (s ++ t) < 2147483648) :
    (∀ text, f.measure text =
      if f.totalAdvance text < 2147483648 then .ok ⟨.ofMillis (roundAway (f.exactWidth text)), f.height⟩
      else .error {}) ∧
    (∀ text, text.length ≤ 32768 → f.totalAdvance text < 2147483648) ∧
    (∀ text text', text.toList.Perm text'.toList → f.measure text = f.measure text') ∧
    ∃ first second both, f.measure s = .ok first ∧ f.measure t = .ok second ∧ f.measure (s ++ t) = .ok both ∧
      0 ≤ first.width ∧ first.width ≤ both.width ∧
      (roundAway (f.exactWidth (s ++ t)) ≤ Length.maxMillis →
        (both.width.millis - (first.width + second.width).millis).natAbs ≤ 1) := by
  have happend := f.totalAdvance_append s t
  have hs := exactWidth_nonneg hsize s
  have ht := exactWidth_nonneg hsize t
  refine ⟨f.measure_eq, ?_, fun text text' h => f.measure_of_perm h, _, _, _, measure_of_fits (by omega),
    measure_of_fits (by omega), measure_of_fits hfits, Length.ofMillis_nonneg (roundAway_nonneg hs), ?_,
    exactWidth_append_near hsize⟩
  · intro text hlength
    have hle := f.totalAdvance_le text
    omega
  · rw [exactWidth_append]
    exact Length.ofMillis_mono (roundAway_le_roundAway hs (by linarith))

theorem width_scales_total_wide : ∃ f, SizedFont.ofData "wide" wideData (.ofPoints 1) = .ok f ∧ 0 ≤ f.size ∧
    f.totalAdvance (letters 32767 ++ letters 1) < 2147483648 ∧
    f.measure (letters 32767) =
      .ok ⟨.ofMillis (roundAway (f.exactWidth (letters 32767))), f.height⟩ ∧
    ∃ first both, f.measure (letters 32767) = .ok first ∧ f.measure (letters 32767 ++ letters 1) = .ok both ∧
      0 ≤ first.width ∧ first.width ≤ both.width := by
  obtain ⟨f, hf, hsize, -, hadvance⟩ := wide_font (.ofPoints 1)
  have hnonneg : 0 ≤ f.size := by
    rw [hsize]
    decide
  have hfits : f.totalAdvance (letters 32767 ++ letters 1) < 2147483648 := by
    rw [totalAdvance_append, totalAdvance_of_constant hadvance, totalAdvance_of_constant hadvance, length_letters,
      length_letters]
    decide
  obtain ⟨hmeasure, hshort, -, first, -, both, hfirst, -, hboth, hpos, hle, -⟩ := width_scales_total hnonneg hfits
  have hwidth := hmeasure (letters 32767)
  rw [if_pos (hshort _ (by rw [length_letters]; decide))] at hwidth
  exact ⟨f, hf, hnonneg, hfits, hwidth, first, both, hfirst, hboth, hpos, hle⟩

/-- One letter more than always fits overflows, though its width is far from the ends. -/
theorem long_text_overflows : ∃ f, SizedFont.ofData "wide" wideData (.ofPoints 1) = .ok f ∧ 0 ≤ f.size ∧
    f.totalAdvance (letters 32769) = 2147516415 ∧ roundAway (f.exactWidth (letters 32769)) = 2147516415 ∧
    2147516415 < Length.maxMillis ∧ f.measure (letters 32769) = .error {} := by
  obtain ⟨f, hf, hsize, hunits, hadvance⟩ := wide_font (.ofPoints 1)
  have htotal : f.totalAdvance (letters 32769) = 2147516415 := by
    rw [totalAdvance_of_constant hadvance, length_letters]
    rfl
  have hmillis : f.size.millis = 1000 := by
    rw [hsize]
    decide
  refine ⟨f, hf, ?_, htotal, ?_, by decide, ?_⟩
  · rw [hsize]
    decide
  · rw [exactWidth, htotal, hmillis, hunits, roundAway]
    norm_num
  · rw [measure_eq, htotal]
    rfl

end SizedFont

end Galley
