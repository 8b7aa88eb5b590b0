import Mathlib
import Galley.Color

/-! Color literals and what they mean. A literal means a color if and only if it spells the digits of the
color, and each way to fail is told by the bytes of the literal. -/

namespace Galley

namespace Color

def lowercase : List Char := ['0', '1', '2', '3', '4', '5', '6', '7', '8', '9', 'a', 'b', 'c', 'd', 'e', 'f']

def uppercase : List Char := ['0', '1', '2', '3', '4', '5', '6', '7', '8', '9', 'A', 'B', 'C', 'D', 'E', 'F']

/-- A character that stands for a digit, the letters in either case. -/
def Writes (c : Char) (d : Nat) : Prop := lowercase[d]? = some c ∨ uppercase[d]? = some c

instance (c : Char) (d : Nat) : Decidable (Writes c d) := inferInstanceAs (Decidable (_ ∨ _))

def Spells (cs : List Char) (ds : List Nat) : Prop := List.Forall₂ Writes cs ds

def pairs (channels : List UInt8) : List Nat := channels.flatMap fun v => [v.toNat / 16, v.toNat % 16]

def digits (c : Color) : List Nat := pairs [c.r, c.g, c.b, c.a]

def opaqueDigits (c : Color) : List Nat := pairs [c.r, c.g, c.b]

def spelled (upper : Bool) (ds : List Nat) : String :=
  String.ofList (ds.map fun d => (if upper then uppercase else lowercase).getD d '0')

/-- A literal without one leading `#`. -/
def body (literal : String) : String := String.ofList (withoutHash literal.toList)

def bytes (text : String) : List UInt8 := text.toUTF8.data.toList

def IsHexByte (b : UInt8) : Prop := 48 ≤ b ∧ b ≤ 57 ∨ 65 ≤ b ∧ b ≤ 70 ∨ 97 ≤ b ∧ b ≤ 102

instance (b : UInt8) : Decidable (IsHexByte b) := inferInstanceAs (Decidable (_ ∨ _))

/-- The number that hexadecimal digits write, as long as 32 bits hold it. -/
def numberFrom? (n : Nat) : List Char → Option Nat
  | [] => some n
  | c :: cs => do
    let n := 16 * n + (← hexDigit? c)
    if n < 0x100000000 then numberFrom? n cs else none

def number? (text : String) : Option Nat := numberFrom? 0 text.toList

def bigEndian (n : Nat) : List UInt8 := [24, 16, 8, 0].map fun k => UInt8.ofNat (n >>> k)

/-! Characters. None but the first 128 can be digits, and those are looked through. -/

theorem hexDigit_beyond {c : Char} (h : 128 ≤ c.toNat) : hexDigit? c = none := by
  have h9 : ¬ c ≤ '9' := by
    simp only [Char.le_def, UInt32.le_iff_toNat_le]
    change ¬ c.toNat ≤ 57
    omega
  have hf : ¬ c ≤ 'f' := by
    simp only [Char.le_def, UInt32.le_iff_toNat_le]
    change ¬ c.toNat ≤ 102
    omega
  have hF : ¬ c ≤ 'F' := by
    simp only [Char.le_def, UInt32.le_iff_toNat_le]
    change ¬ c.toNat ≤ 70
    omega
  rw [hexDigit?, if_neg (fun hh => h9 hh.2), if_neg (fun hh => hf hh.2), if_neg (fun hh => hF hh.2)]

theorem ascii_writes : ∀ n < 128, ∀ d ∈ hexDigit? (Char.ofNat n), Writes (Char.ofNat n) d := by decide

theorem lowercase_digit : ∀ d < 16, hexDigit? (lowercase.getD d '0') = some d := by decide

theorem uppercase_digit : ∀ d < 16, hexDigit? (uppercase.getD d '0') = some d := by decide

theorem ascii_hexByte : ∀ n < 128, IsHexByte (UInt8.ofNat n) ↔ (hexDigit? (Char.ofNat n)).isSome := by decide

theorem digit_lt {c : Char} {d : Nat} (h : Writes c d) : d < 16 := by
  rcases h with h | h
  · exact (List.getElem?_eq_some_iff.mp h).1
  · exact (List.getElem?_eq_some_iff.mp h).1

theorem toNat_lt_of_hexDigit {c : Char} {d : Nat} (h : hexDigit? c = some d) : c.toNat < 128 := by
  by_contra hc
  rw [hexDigit_beyond (by omega)] at h
  cases h

theorem hexDigit_iff {c : Char} {d : Nat} : hexDigit? c = some d ↔ Writes c d := by
  constructor
  · intro h
    have hh := ascii_writes c.toNat (toNat_lt_of_hexDigit h) d
    rw [Char.ofNat_toNat] at hh
    exact hh h
  · intro h
    have hd := digit_lt h
    rcases h with h | h
    · have hh := lowercase_digit d hd
      rwa [List.getD_eq_getElem?_getD, h] at hh
    · have hh := uppercase_digit d hd
      rwa [List.getD_eq_getElem?_getD, h] at hh

/-! Texts. -/

theorem mapM_eq_some {cs : List Char} {ds : List Nat} : cs.mapM hexDigit? = some ds ↔ Spells cs ds := by
  induction cs generalizing ds with
  | nil =>
    cases ds with
    | nil => exact iff_of_true rfl .nil
    | cons d ds => exact iff_of_false (fun h => by cases h) (fun h => by cases h)
  | cons c cs ih =>
    rw [List.mapM_cons, Spells, List.forall₂_cons_left_iff]
    constructor
    · intro h
      obtain ⟨d, hd, h⟩ := Option.bind_eq_some_iff.mp h
      obtain ⟨ds', hds, h⟩ := Option.bind_eq_some_iff.mp h
      exact ⟨d, ds', hexDigit_iff.mp hd, ih.mp hds, (Option.some.inj h).symm⟩
    · rintro ⟨d, ds', hd, hds, rfl⟩
      rw [hexDigit_iff.mpr hd, ih.mpr hds]
      rfl

theorem mapM_eq_none {cs : List Char} : cs.mapM hexDigit? = none ↔ ∃ c ∈ cs, hexDigit? c = none := by
  induction cs with
  | nil => simp
  | cons c cs ih =>
    rw [List.mapM_cons, List.exists_mem_cons_iff]
    cases hc : hexDigit? c with
    | none => simp
    | some d =>
      rw [← ih]
      cases hcs : cs.mapM hexDigit? with
      | none => simp
      | some ds => simp

theorem Spells.digit_lt {cs : List Char} {ds : List Nat} (h : Spells cs ds) : ∀ d ∈ ds, d < 16 := by
  induction h with
  | nil => simp
  | cons hc _ ih => simpa using ⟨Color.digit_lt hc, ih⟩

theorem spells_spelled (upper : Bool) {ds : List Nat} (h : ∀ d ∈ ds, d < 16) :
    Spells (spelled upper ds).toList ds := by
  rw [spelled, String.toList_ofList, Spells, List.forall₂_map_left_iff, List.forall₂_same]
  intro d hd
  cases upper with
  | false => exact hexDigit_iff.mp (lowercase_digit d (h d hd))
  | true => exact hexDigit_iff.mp (uppercase_digit d (h d hd))

theorem withoutHash_of_spells {cs : List Char} {ds : List Nat} (h : Spells cs ds) : withoutHash cs = cs := by
  cases h with
  | nil => rfl
  | cons hc _ =>
    rw [withoutHash]
    rintro rest hcs
    rw [(List.cons.inj hcs).1] at hc
    cases hexDigit_iff.mpr hc

theorem withoutHash_append (text : String) : withoutHash ("#" ++ text).toList = text.toList := by
  rw [String.toList_append]
  rfl

theorem bytes_ofList (cs : List Char) : bytes (String.ofList cs) = cs.flatMap String.utf8EncodeChar := by
  rw [bytes, String.toUTF8, ← String.utf8Encode_toList, String.toList_ofList, List.utf8Encode,
    List.toList_data_toByteArray]

theorem encode_ascii {c : Char} (h : c.toNat < 128) : String.utf8EncodeChar c = [UInt8.ofNat c.toNat] := by
  rw [String.utf8EncodeChar]
  exact if_pos (by change c.toNat ≤ 127; omega)

/-- Of the bytes that encode a character beyond the first 128, the first alone shows that it is no digit. -/
theorem encode_beyond {c : Char} (h : 128 ≤ c.toNat) : ∃ b ∈ String.utf8EncodeChar c, ¬ IsHexByte b := by
  have hfirst : ∀ n : Nat, 192 ≤ n → n < 256 → ¬ IsHexByte (UInt8.ofNat n) := by
    intro n hl hr
    simp only [IsHexByte, UInt8.le_iff_toNat_le, UInt8.toNat_ofNat']
    change ¬ (48 ≤ _ ∧ _ ≤ 57 ∨ 65 ≤ _ ∧ _ ≤ 70 ∨ 97 ≤ _ ∧ _ ≤ 102)
    omega
  rw [String.utf8EncodeChar]
  change ∃ b ∈ if c.toNat ≤ 127 then _ else _, _
  rw [if_neg (by omega)]
  split_ifs
  · exact ⟨_, List.mem_cons_self, hfirst _ (by omega) (by omega)⟩
  · exact ⟨_, List.mem_cons_self, hfirst _ (by omega) (by omega)⟩
  · exact ⟨_, List.mem_cons_self, hfirst _ (by omega) (by omega)⟩

theorem hexDigit_eq_none {c : Char} : hexDigit? c = none ↔ ∃ b ∈ String.utf8EncodeChar c, ¬ IsHexByte b := by
  by_cases hc : c.toNat < 128
  · have hh := ascii_hexByte c.toNat hc
    rw [Char.ofNat_toNat] at hh
    rw [encode_ascii hc]
    simp [hh]
  · exact iff_of_true (hexDigit_beyond (by omega)) (encode_beyond (by omega))

theorem mapM_eq_none_iff_bytes {cs : List Char} :
    cs.mapM hexDigit? = none ↔ ∃ b ∈ bytes (String.ofList cs), ¬ IsHexByte b := by
  rw [mapM_eq_none, bytes_ofList]
  simp only [hexDigit_eq_none, List.mem_flatMap]
  constructor
  · rintro ⟨c, hc, b, hb, hn⟩
    exact ⟨b, ⟨c, hc, hb⟩, hn⟩
  · rintro ⟨b, ⟨c, hc, hb⟩, hn⟩
    exact ⟨c, hc, b, hb, hn⟩

theorem Spells.length_bytes {cs : List Char} {ds : List Nat} (h : Spells cs ds) :
    (bytes (String.ofList cs)).length = ds.length := by
  rw [bytes_ofList]
  induction h with
  | nil => rfl
  | cons hc _ ih =>
    rw [List.flatMap_cons, encode_ascii (toNat_lt_of_hexDigit (hexDigit_iff.mpr hc)), List.singleton_append,
      List.length_cons, List.length_cons, ih]

/-! Colors. -/

theorem toNat_channel {high low : Nat} (hh : high < 16) (hl : low < 16) :
    (channel high low).toNat = 16 * high + low := by
  rw [channel, UInt8.toNat_ofNat']
  omega

theorem channel_pair (v : UInt8) : channel (v.toNat / 16) (v.toNat % 16) = v := by
  have hv := v.toNat_lt
  apply UInt8.toNat_inj.mp
  rw [toNat_channel (by omega) (by omega)]
  omega

theorem pair_channel {high low : Nat} (hh : high < 16) (hl : low < 16) :
    (channel high low).toNat / 16 = high ∧ (channel high low).toNat % 16 = low := by
  rw [toNat_channel hh hl]
  omega

theorem ofDigits_digits (c : Color) : ofDigits? c.digits = some c := by
  change some (Color.mk (channel _ _) (channel _ _) (channel _ _) (channel _ _)) = _
  simp only [channel_pair]

theorem ofDigits_opaqueDigits (c : Color) : ofDigits? c.opaqueDigits = some { c with a := 255 } := by
  change some (Color.mk (channel _ _) (channel _ _) (channel _ _) 255) = _
  simp only [channel_pair]

theorem ofDigits_eq_some {ds : List Nat} (hd : ∀ d ∈ ds, d < 16) {c : Color} :
    ofDigits? ds = some c ↔ ds = c.digits ∨ c.a = 255 ∧ ds = c.opaqueDigits := by
  constructor
  · intro h
    rw [ofDigits?.eq_def] at h
    split at h
    case h_1 r r' g g' b b' =>
      simp only [List.forall_mem_cons] at hd
      obtain ⟨hr, hr', hg, hg', hb, hb', -⟩ := hd
      cases h
      refine .inr ⟨rfl, ?_⟩
      simp [opaqueDigits, pairs, pair_channel, hr, hr', hg, hg', hb, hb']
    case h_2 r r' g g' b b' a a' =>
      simp only [List.forall_mem_cons] at hd
      obtain ⟨hr, hr', hg, hg', hb, hb', ha, ha', -⟩ := hd
      cases h
      refine .inl ?_
      simp [digits, pairs, pair_channel, hr, hr', hg, hg', hb, hb', ha, ha']
    case h_3 => cases h
  · rintro (rfl | ⟨ha, rfl⟩)
    · exact ofDigits_digits c
    · rw [ofDigits_opaqueDigits, ← ha]

theorem ofDigits_eq_none {ds : List Nat} : ofDigits? ds = none ↔ ds.length ≠ 6 ∧ ds.length ≠ 8 := by
  rcases ds with _ | ⟨_, _ | ⟨_, _ | ⟨_, _ | ⟨_, _ | ⟨_, _ | ⟨_, _ | ⟨_, _ | ⟨_, _ | ⟨_, _⟩⟩⟩⟩⟩⟩⟩⟩⟩ <;>
    simp [ofDigits?]

/-! The number of a text. -/

theorem numberFrom_of_spells {cs : List Char} {ds : List Nat} (h : Spells cs ds) (n : Nat)
    (hn : (n + 1) * 16 ^ ds.length ≤ 0x100000000) :
    numberFrom? n cs = some (ds.foldl (fun n d => 16 * n + d) n) := by
  induction h generalizing n with
  | nil => rfl
  | @cons c d cs ds hc _ ih =>
    have hd := digit_lt hc
    have hnext : (16 * n + d + 1) * 16 ^ ds.length ≤ 0x100000000 := by
      refine le_trans ?_ hn
      rw [List.length_cons, pow_succ, ← mul_assoc, mul_right_comm]
      exact Nat.mul_le_mul_right _ (by omega)
    have hfits : 16 * n + d < 0x100000000 :=
      lt_of_lt_of_le (Nat.lt_succ_self _) ((Nat.le_mul_of_pos_right _ (by positivity)).trans hnext)
    rw [numberFrom?, hexDigit_iff.mpr hc]
    change (if 16 * n + d < 0x100000000 then numberFrom? (16 * n + d) cs else none) = _
    rw [if_pos hfits, ih _ hnext]
    rfl

theorem number_digits (c : Color) : c.digits.foldl (fun n d => 16 * n + d) 0 =
    c.r.toNat * 0x1000000 + c.g.toNat * 0x10000 + c.b.toNat * 0x100 + c.a.toNat := by
  simp only [digits, pairs, List.flatMap_cons, List.flatMap_nil, List.cons_append, List.nil_append, List.foldl_cons,
    List.foldl_nil]
  omega

theorem number_opaqueDigits (c : Color) : c.opaqueDigits.foldl (fun n d => 16 * n + d) 0 =
    c.r.toNat * 0x10000 + c.g.toNat * 0x100 + c.b.toNat := by
  simp only [opaqueDigits, pairs, List.flatMap_cons, List.flatMap_nil, List.cons_append, List.nil_append,
    List.foldl_cons, List.foldl_nil]
  omega

theorem bigEndian_channels (r g b a : UInt8) :
    bigEndian (r.toNat * 0x1000000 + g.toNat * 0x10000 + b.toNat * 0x100 + a.toNat) = [r, g, b, a] := by
  have hr := r.toNat_lt
  have hg := g.toNat_lt
  have hb := b.toNat_lt
  have ha := a.toNat_lt
  simp only [bigEndian, List.map_cons, List.map_nil, Nat.shiftRight_eq_div_pow]
  congr
  all_goals
    apply UInt8.toNat_inj.mp
    rw [UInt8.toNat_ofNat']
    omega

/-! Literals. -/

theorem pairs_lt (channels : List UInt8) : ∀ d ∈ pairs channels, d < 16 := by
  intro d hd
  obtain ⟨v, -, hv⟩ := List.mem_flatMap.mp hd
  have hlt := v.toNat_lt
  simp only [List.mem_cons, List.not_mem_nil, or_false] at hv
  omega

theorem Spells.unique {cs : List Char} {ds ds' : List Nat} (h : Spells cs ds) : Spells cs ds' ↔ ds = ds' := by
  rw [← mapM_eq_some, mapM_eq_some.mpr h, Option.some.injEq]

/-- All that can come of a literal. -/
theorem parse_cases (s : String) :
    (parse s = .error (.notHexadecimal s) ∧ (∃ b ∈ bytes (body s), ¬ IsHexByte b) ∧
      ∀ ds, ¬ Spells (body s).toList ds) ∨
    ∃ ds, Spells (body s).toList ds ∧ (∀ b ∈ bytes (body s), IsHexByte b) ∧
      (parse s = .error (.wrongLength s ds.length) ∧ ofDigits? ds = none ∨
        ∃ c, parse s = .ok c ∧ ofDigits? ds = some c) := by
  rw [body, String.toList_ofList, parse]
  cases hm : (withoutHash s.toList).mapM hexDigit? with
  | none =>
    refine .inl ⟨rfl, mapM_eq_none_iff_bytes.mp hm, fun ds hs => ?_⟩
    rw [mapM_eq_some.mpr hs] at hm
    cases hm
  | some ds =>
    refine .inr ⟨ds, mapM_eq_some.mp hm, ?_, ?_⟩
    · by_contra hb
      have hn := mapM_eq_none_iff_bytes.mpr (by simpa only [not_forall, exists_prop] using hb)
      rw [hm] at hn
      cases hn
    · cases hd : ofDigits? ds with
      | none => exact .inl ⟨by simp only [hd], rfl⟩
      | some c => exact .inr ⟨c, by simp only [hd], rfl⟩

theorem parse_eq_ok {s : String} {c : Color} : parse s = .ok c ↔
    Spells (body s).toList c.digits ∨ c.a = 255 ∧ Spells (body s).toList c.opaqueDigits := by
  rcases parse_cases s with ⟨hp, -, hn⟩ | ⟨ds, hs, -, ⟨hp, hd⟩ | ⟨c', hp, hd⟩⟩
  · simp [hp, hn]
  · rw [hs.unique, hs.unique, ← ofDigits_eq_some hs.digit_lt, hp, hd]
    simp
  · rw [hs.unique, hs.unique, ← ofDigits_eq_some hs.digit_lt, hp, hd]
    simp

theorem parse_eq_notHexadecimal {s : String} :
    parse s = .error (.notHexadecimal s) ↔ ∃ b ∈ bytes (body s), ¬ IsHexByte b := by
  rcases parse_cases s with ⟨hp, hb, -⟩ | ⟨ds, -, hb, ⟨hp, -⟩ | ⟨c, hp, -⟩⟩
  · exact iff_of_true hp hb
  · simpa [hp] using hb
  · simpa [hp] using hb

theorem length_bytes_of_spells {s : String} {ds : List Nat} (h : Spells (body s).toList ds) :
    (bytes (body s)).length = ds.length := by
  have hh := h.length_bytes
  rwa [String.ofList_toList] at hh

theorem parse_eq_wrongLength {s : String} {n : Nat} : parse s = .error (.wrongLength s n) ↔
    (∀ b ∈ bytes (body s), IsHexByte b) ∧ n = (bytes (body s)).length ∧ n ≠ 6 ∧ n ≠ 8 := by
  rcases parse_cases s with ⟨hp, ⟨b, hb, hn⟩, -⟩ | ⟨ds, hs, hb, ⟨hp, hd⟩ | ⟨c, hp, hd⟩⟩
  · refine iff_of_false (by simp [hp]) fun h => hn (h.1 b hb)
  · rw [hp, length_bytes_of_spells hs]
    have hlength := ofDigits_eq_none.mp hd
    constructor
    · intro h
      cases h
      exact ⟨hb, rfl, hlength⟩
    · rintro ⟨-, rfl, -⟩
      rfl
  · rw [hp, length_bytes_of_spells hs]
    refine iff_of_false (by simp) ?_
    rintro ⟨-, rfl, hlength⟩
    rw [ofDigits_eq_none.mpr hlength] at hd
    cases hd

theorem exists_parse_eq_ok {s : String} : (∃ c, parse s = .ok c) ↔ (∀ b ∈ bytes (body s), IsHexByte b) ∧
    ((bytes (body s)).length = 6 ∨ (bytes (body s)).length = 8) := by
  rcases parse_cases s with ⟨hp, ⟨b, hb, hn⟩, -⟩ | ⟨ds, hs, hb, ⟨hp, hd⟩ | ⟨c, hp, hd⟩⟩
  · exact iff_of_false (by simp [hp]) fun h => hn (h.1 b hb)
  · have hlength := ofDigits_eq_none.mp hd
    rw [length_bytes_of_spells hs]
    refine iff_of_false (by simp [hp]) ?_
    rintro ⟨-, h | h⟩
    · exact hlength.1 h
    · exact hlength.2 h
  · refine iff_of_true ⟨c, hp⟩ ⟨hb, ?_⟩
    rw [length_bytes_of_spells hs]
    by_contra hlength
    rw [ofDigits_eq_none.mpr (not_or.mp hlength)] at hd
    cases hd

theorem length_opaqueDigits (c : Color) : c.opaqueDigits.length = 6 := rfl

theorem number_of_spells {s : String} {ds : List Nat} (h : Spells (body s).toList ds) (hl : ds.length ≤ 8) :
    number? (body s) = some (ds.foldl (fun n d => 16 * n + d) 0) := by
  refine numberFrom_of_spells h 0 ?_
  calc (0 + 1) * 16 ^ ds.length = 16 ^ ds.length := by rw [Nat.zero_add, Nat.one_mul]
    _ ≤ 16 ^ 8 := Nat.pow_le_pow_right (by decide) hl
    _ = 0x100000000 := by decide

theorem number_of_parse {s : String} {c : Color} (h : parse s = .ok c) : ∃ n, number? (body s) = some n ∧
    ((bytes (body s)).length = 8 ∧ bigEndian n = [c.r, c.g, c.b, c.a] ∨
      (bytes (body s)).length = 6 ∧ bigEndian n = [0, c.r, c.g, c.b] ∧ c.a = 255) := by
  rcases parse_eq_ok.mp h with hs | ⟨ha, hs⟩
  · refine ⟨_, number_of_spells hs le_rfl, .inl ⟨length_bytes_of_spells hs, ?_⟩⟩
    rw [number_digits, bigEndian_channels]
  · refine ⟨_, number_of_spells hs (by rw [length_opaqueDigits]; decide), .inr ⟨length_bytes_of_spells hs, ?_, ha⟩⟩
    have hh := bigEndian_channels 0 c.r c.g c.b
    rwa [UInt8.toNat_zero, Nat.zero_mul, Nat.zero_add, ← number_opaqueDigits] at hh

theorem parse_eq_ok_iff_number {s : String} {c : Color} : parse s = .ok c ↔
    (∀ b ∈ bytes (body s), IsHexByte b) ∧ ∃ n, number? (body s) = some n ∧
      ((bytes (body s)).length = 8 ∧ bigEndian n = [c.r, c.g, c.b, c.a] ∨
        (bytes (body s)).length = 6 ∧ bigEndian n = [0, c.r, c.g, c.b] ∧ c.a = 255) := by
  constructor
  · intro h
    exact ⟨(exists_parse_eq_ok.mp ⟨c, h⟩).1, number_of_parse h⟩
  · rintro ⟨hb, n, hn, hc⟩
    have hlength : (bytes (body s)).length = 6 ∨ (bytes (body s)).length = 8 := by
      rcases hc with ⟨h8, -⟩ | ⟨h6, -⟩
      · exact .inr h8
      · exact .inl h6
    obtain ⟨c', hp⟩ := exists_parse_eq_ok.mpr ⟨hb, hlength⟩
    obtain ⟨n', hn', hc'⟩ := number_of_parse hp
    cases hn.symm.trans hn'
    rw [hp]
    rcases hc with ⟨h8, hc⟩ | ⟨h6, hc, ha⟩ <;> rcases hc' with ⟨h8', hc'⟩ | ⟨h6', hc', ha'⟩
    · cases c
      cases c'
      simpa using hc'.symm.trans hc
    · omega
    · omega
    · cases c
      cases c'
      simp only at ha ha'
      simpa [ha, ha'] using hc'.symm.trans hc

theorem body_of_spells {text : String} {ds : List Nat} (h : Spells text.toList ds) : body text = text := by
  rw [body, withoutHash_of_spells h, String.ofList_toList]

theorem body_append (text : String) : body ("#" ++ text) = text := by
  rw [body, withoutHash_append, String.ofList_toList]

/-- Exactly the six or eight digits of a color, behind at most one `#`, mean the color: each channel is two
digits, in the order red, green, blue, alpha, and six digits mean an opaque color. Anything else but digits
is reported as such, however long the literal is, and otherwise the count of the digits is. -/
theorem parse_reads_digits (s : String) (c : Color) (n : Nat) (upper : Bool) :
    (parse s = .ok c ↔ Spells (body s).toList c.digits ∨ c.a = 255 ∧ Spells (body s).toList c.opaqueDigits) ∧
    ((∃ c, parse s = .ok c) ↔ (∀ b ∈ bytes (body s), IsHexByte b) ∧
      ((bytes (body s)).length = 6 ∨ (bytes (body s)).length = 8)) ∧
    (parse s = .error (.notHexadecimal s) ↔ ∃ b ∈ bytes (body s), ¬ IsHexByte b) ∧
    (parse s = .error (.wrongLength s n) ↔
      (∀ b ∈ bytes (body s), IsHexByte b) ∧ n = (bytes (body s)).length ∧ n ≠ 6 ∧ n ≠ 8) ∧
    (parse s = .ok c ↔ (∀ b ∈ bytes (body s), IsHexByte b) ∧ ∃ n, number? (body s) = some n ∧
      ((bytes (body s)).length = 8 ∧ bigEndian n = [c.r, c.g, c.b, c.a] ∨
        (bytes (body s)).length = 6 ∧ bigEndian n = [0, c.r, c.g, c.b] ∧ c.a = 255)) ∧
    parse (spelled upper c.digits) = .ok c ∧ parse ("#" ++ spelled upper c.digits) = .ok c ∧
    parse (spelled upper c.opaqueDigits) = .ok { c with a := 255 } ∧
    parse ("#" ++ spelled upper c.opaqueDigits) = .ok { c with a := 255 } := by
  have hs : Spells (spelled upper c.digits).toList c.digits := spells_spelled upper (pairs_lt _)
  have hs' : Spells (spelled upper c.opaqueDigits).toList c.opaqueDigits := spells_spelled upper (pairs_lt _)
  refine ⟨parse_eq_ok, exists_parse_eq_ok, parse_eq_notHexadecimal, parse_eq_wrongLength, parse_eq_ok_iff_number,
    parse_eq_ok.mpr (.inl ?_), parse_eq_ok.mpr (.inl ?_), parse_eq_ok.mpr (.inr ⟨rfl, ?_⟩),
    parse_eq_ok.mpr (.inr ⟨rfl, ?_⟩)⟩
  · rwa [body_of_spells hs]
  · rwa [body_append]
  · rwa [body_of_spells hs']
  · rwa [body_append]

end Color

end Galley
