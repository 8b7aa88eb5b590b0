import Mathlib
import Galley.Proofs.Precision

/-! Lengths that were computed are whole millipoints, each in the one form that its millipoints have. So
lengths are equal, and ordered, as their millipoints are, and no two of them are written alike. -/

namespace Galley

namespace Length

/-! Millipoints in range and beyond. -/

theorem saturate_eq {m : Int} (hl : -maxMillis ≤ m) (hr : m ≤ maxMillis) : saturate m = m := by
  simp only [saturate, maxMillis] at hl hr ⊢
  omega

theorem ofMillis_lt {j k : Int} (hj : -maxMillis ≤ j) (h : j < k) (hk : k ≤ maxMillis) :
    ofMillis j < ofMillis k := by
  refine lt_of_not_ge fun hle => ?_
  have hm := millis_mono hle
  rw [millis_ofMillis, millis_ofMillis, saturate_eq (by omega) hk, saturate_eq hj (by omega)] at hm
  omega

theorem ofMillis_above {k : Int} (h : maxMillis ≤ k) : ofMillis k = ofMillis maxMillis := by
  rw [← ofMillis_saturate k]
  congr 1
  simp only [saturate, maxMillis] at h ⊢
  omega

theorem ofMillis_below {k : Int} (h : k ≤ -maxMillis) : ofMillis k = ofMillis (-maxMillis) := by
  rw [← ofMillis_saturate k]
  congr 1
  simp only [saturate, maxMillis] at h ⊢
  omega

/-! Written lengths read back as their millipoints: without sign and point, the digits are those of the
millipoints, as there are always three behind the point. -/

def readMillis (text : String) : Int :=
  let n : Nat := Nat.ofDigitChars 10 (text.toList.filter Char.isDigit) 0
  if text.toList.head? = some '-' then -n else n

theorem toList_padDigits (width n : Nat) : (padDigits width n).toList =
    List.replicate (width - (Nat.toDigits 10 n).length) '0' ++ Nat.toDigits 10 n := by
  rw [padDigits, String.toList_append, String.toList_ofList, ← String.length_toList, Nat.toList_repr]

theorem length_padDigits {width n : Nat} (hw : 0 < width) (hn : n < 10 ^ width) :
    (padDigits width n).toList.length = width := by
  have hle := (Nat.length_toDigits_le_iff (b := 10) (by decide) hw).mpr hn
  rw [toList_padDigits, List.length_append, List.length_replicate]
  omega

theorem ofDigitChars_padDigits (width n : Nat) : Nat.ofDigitChars 10 (padDigits width n).toList 0 = n := by
  rw [toList_padDigits, Nat.ofDigitChars_append, Nat.ofDigitChars_replicate_zero, Nat.mul_zero,
    Nat.ofDigitChars_ten_toDigits]

theorem isDigit_of_mem_padDigits {width n : Nat} {c : Char} (h : c ∈ (padDigits width n).toList) :
    c.isDigit := by
  rw [toList_padDigits, List.mem_append] at h
  rcases h with h | h
  · rw [List.eq_of_mem_replicate h]
    decide
  · exact Nat.isDigit_of_mem_toDigits (by decide) (by decide) h

theorem toList_toText (l : Length) : l.toText.toList = (if l.millis < 0 then ['-'] else []) ++
    Nat.toDigits 10 (l.millis.natAbs / 1000) ++ '.' :: (padDigits 3 (l.millis.natAbs % 1000)).toList := by
  by_cases h : l.millis < 0 <;> simp [toText, h, Nat.toList_repr]

theorem digits_toText (l : Length) : l.toText.toList.filter Char.isDigit =
    Nat.toDigits 10 (l.millis.natAbs / 1000) ++ (padDigits 3 (l.millis.natAbs % 1000)).toList := by
  have hsign : (if l.millis < 0 then ['-'] else []).filter Char.isDigit = [] := by
    by_cases h : l.millis < 0
    · rw [if_pos h]
      rfl
    · rw [if_neg h]
      rfl
  have hwhole : (Nat.toDigits 10 (l.millis.natAbs / 1000)).filter Char.isDigit = _ :=
    List.filter_eq_self.mpr fun c hc => Nat.isDigit_of_mem_toDigits (by decide) (by decide) hc
  have hrest : (padDigits 3 (l.millis.natAbs % 1000)).toList.filter Char.isDigit = _ :=
    List.filter_eq_self.mpr fun c hc => isDigit_of_mem_padDigits hc
  rw [toList_toText, List.filter_append, List.filter_append, hsign, hwhole, List.nil_append,
    List.filter_cons_of_neg (by decide), hrest]

theorem head_toText (l : Length) : l.toText.toList.head? = some '-' ↔ l.millis < 0 := by
  rw [toList_toText]
  by_cases h : l.millis < 0
  · rw [if_pos h]
    simp [h]
  · rw [if_neg h, List.nil_append]
    refine iff_of_false (fun hh => ?_) h
    obtain ⟨c, cs, hc⟩ := List.exists_cons_of_ne_nil (Nat.toDigits_ne_nil (n := l.millis.natAbs / 1000) (b := 10))
    have hd : c.isDigit := Nat.isDigit_of_mem_toDigits (by decide) (by decide) (hc ▸ List.mem_cons_self)
    rw [hc, List.cons_append, List.head?_cons, Option.some.injEq] at hh
    rw [hh] at hd
    exact absurd hd (by decide)

theorem readMillis_toText (l : Length) : readMillis l.toText = l.millis := by
  have hn : Nat.ofDigitChars 10 (l.toText.toList.filter Char.isDigit) 0 = l.millis.natAbs := by
    rw [digits_toText, Nat.ofDigitChars_append, Nat.ofDigitChars_ten_toDigits,
      Nat.ofDigitChars_eq_ofDigitChars_zero, length_padDigits (by decide) (by omega), ofDigitChars_padDigits]
    omega
  rw [readMillis, hn]
  simp only [head_toText]
  by_cases h : l.millis < 0
  · rw [if_pos h]
    omega
  · rw [if_neg h]
    omega

theorem millis_eq_of_toText_eq {a b : Length} (h : a.toText = b.toText) : a.millis = b.millis := by
  rw [← readMillis_toText a, h, readMillis_toText]

/-- The lengths that can be had: read from numbers, and whatever the operations make of those. -/
inductive Computed : Length → Prop
  | zero : Computed 0
  | ofSingle {bits : UInt32} {l : Length} (h : ofSingle bits = .ok l) : Computed l
  | ofSigned (n : Int32) : Computed (.ofPoints n.toInt)
  | ofUnsigned (n : UInt32) : Computed (.ofPoints n.toNat)
  | add {a b : Length} (ha : Computed a) (hb : Computed b) : Computed (a + b)
  | sub {a b : Length} (ha : Computed a) (hb : Computed b) : Computed (a - b)
  | mul {a : Length} (ha : Computed a) (n : Int32) : Computed (a * n.toInt)
  | div {a : Length} (ha : Computed a) (n : Int32) : Computed (a / n.toInt)
  | scale {a : Length} (ha : Computed a) (num den : Int32) : Computed (a.scale num.toInt den.toInt)
  | max {a b : Length} (ha : Computed a) (hb : Computed b) : Computed (max a b)

theorem snapped_ofSingle {bits : UInt32} {l : Length} (h : ofSingle bits = .ok l) : l.Snapped := by
  rw [ofSingle] at h
  split at h
  · cases h
    exact snapped_zero
  · split at h
    · cases h
      exact snapped_ofMillis _
    · cases h

theorem Computed.snapped {l : Length} (h : l.Computed) : l.Snapped := by
  induction h with
  | zero => exact snapped_zero
  | ofSingle h => exact snapped_ofSingle h
  | max ha hb iha ihb => exact max_rec (fun _ => iha) (fun _ => ihb)
  | _ => exact snapped_ofMillis _

namespace Snapped

variable {a b : Length} (ha : a.Snapped) (hb : b.Snapped)

include ha hb

theorem eq_iff : a = b ↔ a.millis = b.millis := by
  constructor
  · intro h
    rw [h]
  · intro h
    rw [← ha, h, hb]

theorem lt_iff : a < b ↔ a.millis < b.millis := by
  rw [← not_le, ← not_le, hb.le_iff ha]

theorem max_eq : max a b = if a.millis < b.millis then b else a := by
  by_cases h : a.millis < b.millis
  · rw [if_pos h, max_eq_right ((ha.lt_iff hb).mpr h).le]
  · rw [if_neg h, max_eq_left (not_lt.mp (mt (ha.lt_iff hb).mp h))]

theorem toText_eq_iff : a.toText = b.toText ↔ a = b := by
  constructor
  · intro h
    exact (ha.eq_iff hb).mpr (millis_eq_of_toText_eq h)
  · intro h
    rw [h]

end Snapped

/-- Millipoints and lengths correspond, one to one as far as lengths reach. The length of some millipoints
has them again, cut off at the ends; every computed length is the length of its millipoints; and what is
asked of two computed lengths is answered by their millipoints. -/
theorem computed_canonical (j k : Int) {a b c d : Length} (ha : a.Computed) (hb : b.Computed)
    (hc : c.Computed) (hd : d.Computed) :
    (∀ l, Wide.ofMillis k = some l → l = ofMillis k) ∧ (ofMillis k).millis = saturate k ∧
    (-maxMillis ≤ j → j < k → k ≤ maxMillis → ofMillis j < ofMillis k) ∧
    (maxMillis ≤ k → ofMillis k = ofMillis maxMillis) ∧ (k ≤ -maxMillis → ofMillis k = ofMillis (-maxMillis)) ∧
    ofMillis a.millis = a ∧ (a = b ↔ a.millis = b.millis) ∧ (a < b ↔ a.millis < b.millis) ∧
    (a ≤ b ↔ a.millis ≤ b.millis) ∧ max a b = (if a.millis < b.millis then b else a) ∧
    Size.union ⟨a, c⟩ ⟨b, d⟩ =
      ⟨if a.millis < b.millis then b else a, if c.millis < d.millis then d else c⟩ ∧
    (a.toText = b.toText ↔ a = b) := by
  have sa := ha.snapped
  have sb := hb.snapped
  have hmax := sa.max_eq sb
  have hunion : Size.union ⟨a, c⟩ ⟨b, d⟩ = ⟨max a b, max c d⟩ := rfl
  rw [hmax, hc.snapped.max_eq hd.snapped] at hunion
  exact ⟨fun l hl => Wide.eq_of_ofMillis hl, millis_ofMillis k, ofMillis_lt, ofMillis_above, ofMillis_below,
    sa, sa.eq_iff sb, sa.lt_iff sb, sa.le_iff sb, hmax, hunion, sa.toText_eq_iff sb⟩

/-- A third of a point, taken in two ways, next to the greatest length. -/
theorem computed_canonical_third :
    (ofPoints 1 / (3 : Int)).millis = 333 ∧ ((ofPoints 10).scale 1 30).millis = 333 ∧
    (ofPoints 1 / (3 : Int)).toText = ((ofPoints 10).scale 1 30).toText ∧
    ofPoints 1 / (3 : Int) = (ofPoints 10).scale 1 30 ∧
    (ofPoints 4294967295).toText ≠ (ofPoints 1 / (3 : Int)).toText ∧
    ofMillis 2147483647999 < ofMillis 2147483648000 ∧
    Size.union ⟨ofPoints 1 / (3 : Int), 0⟩ ⟨(ofPoints 10).scale 1 30, ofPoints 4294967295⟩ =
      ⟨(ofPoints 10).scale 1 30, ofPoints 4294967295⟩ := by
  have hthird : (ofPoints 1 / (3 : Int)).Computed := .div (.ofSigned 1) 3
  have hthird' : ((ofPoints 10).scale 1 30).Computed := .scale (.ofSigned 10) 1 30
  have hgreatest : (ofPoints 4294967295).Computed := .ofUnsigned 4294967295
  have hm : (ofPoints 1 / (3 : Int)).millis = 333 := by decide
  have hm' : ((ofPoints 10).scale 1 30).millis = 333 := by decide
  obtain ⟨-, -, hlt, -, -, -, heq, -, -, -, hunion, htext⟩ :=
    computed_canonical 2147483647999 2147483648000 hthird hthird' .zero hgreatest
  obtain ⟨-, -, -, -, -, -, hne, -, -, -, -, htext'⟩ :=
    computed_canonical 0 0 hgreatest hthird .zero .zero
  have hthirds := heq.mpr (hm.trans hm'.symm)
  refine ⟨hm, hm', htext.mpr hthirds, hthirds, ?_, hlt (by decide) (by decide) (by decide), ?_⟩
  · rw [Ne, htext', hne]
    decide
  · rw [hunion, hthirds, ite_self, if_pos (by decide)]

end Length

end Galley
