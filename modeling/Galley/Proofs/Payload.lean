import Mathlib
import Galley.Image.DataUri
import Galley.Proofs.Literal

/-! Data inside a name. Reading base64 undoes writing it, and a URI is read by what is before its first comma: the
media type in front of the first semicolon and the parameters behind it. -/

namespace Galley

namespace Base64

/-! Symbols, looked through for every value. -/

theorem value_symbol : ∀ v < 64, value? (symbol v) = some v := by decide +kernel

theorem symbol_ne_pad : ∀ v < 64, symbol v ≠ pad := by decide +kernel

theorem ascii_symbols : ∀ v < 64, (symbol v).toNat < 128 := by decide +kernel

theorem valueAt_symbol {v : Nat} (h : v < 64) (offset : Nat) : valueAt (symbol v) offset = .ok v := by
  rw [valueAt, value_symbol v h]

theorem lastValues_symbols {vs : List Nat} (h : ∀ v ∈ vs, v < 64) (offset : Nat) (rest : List UInt8)
    (values : List Nat) :
    lastValues offset (vs.map symbol ++ rest) values 0 = lastValues offset rest (vs.reverse ++ values) 0 := by
  induction vs generalizing values with
  | nil => rfl
  | cons v vs ih =>
    have hv : v < 64 := h v List.mem_cons_self
    have hvs : ∀ w ∈ vs, w < 64 := fun w hw => h w (List.mem_cons_of_mem v hw)
    rw [List.map_cons, List.cons_append, lastValues, if_neg (symbol_ne_pad v hv), if_neg (by decide),
      valueAt_symbol hv]
    show lastValues offset (vs.map symbol ++ rest) (v :: values) 0 = _
    rw [ih hvs, List.reverse_cons, List.append_assoc]
    rfl

/-- Two symbols or more may be padded. -/
theorem lastValues_pads (offset k : Nat) {values : List Nat} {pads : Nat} (h : 2 ≤ values.length + pads) :
    lastValues offset (List.replicate k pad) values pads = .ok (values.reverse, pads + k) := by
  induction k generalizing pads with
  | zero => rfl
  | succ k ih =>
    rw [List.replicate_succ, lastValues, if_pos rfl, if_neg (by omega), ih (by omega)]
    rw [Nat.add_assoc, Nat.add_comm 1 k]

theorem decodeLast_symbols {vs : List Nat} (h : ∀ v ∈ vs, v < 64) (hlength : 2 ≤ vs.length) {k : Nat}
    (hfull : (vs.length + k) % 4 = 0) (offset : Nat) :
    ∃ last, decodeLast offset (vs.map symbol ++ List.replicate k pad) = lastBytes offset last vs := by
  have hvalues : lastValues offset (vs.map symbol ++ List.replicate k pad) [] 0 = .ok (vs, k) := by
    rw [lastValues_symbols h, lastValues_pads offset k (by simpa using hlength)]
    simp
  have hne : (vs.map symbol ++ List.replicate k pad).isEmpty = false := by
    cases vs with
    | nil => simp at hlength
    | cons => rfl
  have hshort : ¬ vs.length < 2 := by omega
  refine ⟨((vs.map symbol ++ List.replicate k pad).drop (vs.length - 1)).headD 0, ?_⟩
  rw [decodeLast, hvalues]
  simp [hne, hshort, hfull, bind, Except.bind]

/-! The values that one, two and three bytes are written as, and the bytes that they give again. -/

theorem lastBytes_one (offset : Nat) (last a : UInt8) :
    lastBytes offset last [a.toNat * 16 / 64, a.toNat * 16 % 64] = .ok [a] := by
  have hn : a.toNat * 16 / 64 * 64 + a.toNat * 16 % 64 = a.toNat * 16 := by omega
  rw [lastBytes, hn, if_pos (by omega), Nat.mul_div_cancel _ (by decide), UInt8.ofNat_toNat]

theorem lastBytes_two (offset : Nat) (last a b : UInt8) :
    let n := (a.toNat * 256 + b.toNat) * 4
    lastBytes offset last [n / 4096, n / 64 % 64, n % 64] = .ok [a, b] := by
  intro n
  have hb := b.toNat_lt
  have hn : (n / 4096 * 64 + n / 64 % 64) * 64 + n % 64 = n := by omega
  have hfirst : UInt8.ofNat (n / 1024) = a := by
    rw [show n / 1024 = a.toNat by omega, UInt8.ofNat_toNat]
  have hsecond : UInt8.ofNat (n / 4) = b := by
    apply UInt8.toNat_inj.mp
    rw [UInt8.toNat_ofNat']
    omega
  rw [lastBytes, hn, if_pos (by omega), hfirst, hsecond]

theorem lastBytes_three (offset : Nat) (last a b c : UInt8) :
    let n := a.toNat * 65536 + b.toNat * 256 + c.toNat
    lastBytes offset last [n / 262144, n / 4096 % 64, n / 64 % 64, n % 64] = .ok [a, b, c] := by
  intro n
  have hb := b.toNat_lt
  have hc := c.toNat_lt
  have hn : ((n / 262144 * 64 + n / 4096 % 64) * 64 + n / 64 % 64) * 64 + n % 64 = n := by omega
  have hfirst : UInt8.ofNat (n / 65536) = a := by
    rw [show n / 65536 = a.toNat by omega, UInt8.ofNat_toNat]
  have hsecond : UInt8.ofNat (n / 256) = b := by
    apply UInt8.toNat_inj.mp
    rw [UInt8.toNat_ofNat']
    omega
  have hthird : UInt8.ofNat n = c := by
    apply UInt8.toNat_inj.mp
    rw [UInt8.toNat_ofNat']
    omega
  rw [lastBytes, hn, hfirst, hsecond, hthird]

theorem encode_ne_nil {bytes : List UInt8} (h : bytes ≠ []) : encode bytes ≠ [] := by
  rcases bytes with _ | ⟨a, _ | ⟨b, _ | ⟨c, rest⟩⟩⟩
  · exact absurd rfl h
  · simp [encode]
  · simp [encode]
  · simp [encode]

theorem decodeFrom_encode (bytes : List UInt8) (offset : Nat) : decodeFrom offset (encode bytes) = .ok bytes := by
  induction bytes using encode.induct generalizing offset with
  | case1 => rfl
  | case2 a =>
    let n := a.toNat * 16
    have hvalues : ∀ v ∈ [n / 64, n % 64], v < 64 := by
      have ha := a.toNat_lt
      simp only [List.forall_mem_cons]
      exact ⟨by omega, by omega, by simp⟩
    obtain ⟨last, h⟩ := decodeLast_symbols (k := 2) hvalues (by simp) (by simp) offset
    exact h.trans (lastBytes_one offset last a)
  | case3 a b =>
    let n := (a.toNat * 256 + b.toNat) * 4
    have hvalues : ∀ v ∈ [n / 4096, n / 64 % 64, n % 64], v < 64 := by
      have ha := a.toNat_lt
      have hb := b.toNat_lt
      simp only [List.forall_mem_cons]
      exact ⟨by omega, by omega, by omega, by simp⟩
    obtain ⟨last, h⟩ := decodeLast_symbols (k := 1) hvalues (by simp) (by simp) offset
    exact h.trans (lastBytes_two offset last a b)
  | case4 a b c rest ih =>
    let n := a.toNat * 65536 + b.toNat * 256 + c.toNat
    have hfirst : n / 262144 < 64 := by
      have ha := a.toNat_lt
      have hb := b.toNat_lt
      have hc := c.toNat_lt
      omega
    have hlater (k : Nat) : k % 64 < 64 := Nat.mod_lt k (by decide)
    by_cases hrest : rest = []
    · subst hrest
      have hvalues : ∀ v ∈ [n / 262144, n / 4096 % 64, n / 64 % 64, n % 64], v < 64 := by
        simp only [List.forall_mem_cons]
        exact ⟨hfirst, hlater _, hlater _, hlater _, by simp⟩
      obtain ⟨last, h⟩ := decodeLast_symbols (k := 0) hvalues (by simp) (by simp) offset
      exact h.trans (lastBytes_three offset last a b c)
    · obtain ⟨e, more, hmore⟩ := List.exists_cons_of_ne_nil (encode_ne_nil hrest)
      have hdecoded := ih (offset + 4)
      rw [hmore] at hdecoded
      rw [encode, hmore, decodeFrom, valueAt_symbol hfirst, valueAt_symbol (hlater _), valueAt_symbol (hlater _),
        valueAt_symbol (hlater _)]
      show (do return (← lastBytes offset 0 [n / 262144, n / 4096 % 64, n / 64 % 64, n % 64]) ++
        (← decodeFrom (offset + 4) (e :: more))) = _
      rw [lastBytes_three, hdecoded]
      rfl

theorem length_encode (bytes : List UInt8) : (encode bytes).length % 4 = 0 := by
  induction bytes using encode.induct with
  | case1 => rfl
  | case2 a => simp [encode]
  | case3 a b => simp [encode]
  | case4 a b c rest ih =>
    simp only [encode, List.length_cons]
    omega

/-- What was written is read again. Its length is a multiple of four, so no lone last byte is looked at. -/
theorem decode_encode (bytes : List UInt8) : decode (encode bytes) = .ok bytes := by
  have hlength := length_encode bytes
  have hfrom := decodeFrom_encode bytes 0
  rw [decode]
  cases hlast : (encode bytes).getLast? with
  | none =>
    rw [List.getLast?_eq_none_iff.mp hlast] at hfrom
    exact hfrom
  | some last =>
    have hwhole : ¬ ((encode bytes).length % 4 = 1 ∧ last ≠ pad ∧ (value? last).isNone) := by omega
    simp only [if_neg hwhole, hfrom]

theorem symbol_ascii (v : Nat) : (symbol v).toNat < 128 := by
  by_cases hv : v < 64
  · exact ascii_symbols v hv
  · have hnone : symbols[v]? = none := List.getElem?_eq_none (Nat.le_of_not_lt hv)
    rw [symbol, hnone]
    decide

/-- The written form as characters. -/
def toText (bytes : List UInt8) : List Char := (encode bytes).map fun s => Char.ofNat s.toNat

theorem encode_ascii (bytes : List UInt8) : ∀ s ∈ encode bytes, s.toNat < 128 := by
  have hpad : pad.toNat < 128 := by decide
  induction bytes using encode.induct with
  | case1 => simp [encode]
  | case2 a =>
    simp only [encode, List.forall_mem_cons]
    exact ⟨symbol_ascii _, symbol_ascii _, hpad, hpad, by simp⟩
  | case3 a b =>
    simp only [encode, List.forall_mem_cons]
    exact ⟨symbol_ascii _, symbol_ascii _, symbol_ascii _, hpad, by simp⟩
  | case4 a b c rest ih =>
    simp only [encode, List.forall_mem_cons]
    exact ⟨symbol_ascii _, symbol_ascii _, symbol_ascii _, symbol_ascii _, ih⟩

end Base64

theorem toList_byteArray (bytes : ByteArray) : bytes.toList = bytes.data.toList := by
  have hloop (i : Nat) (read : List UInt8) :
      ByteArray.toList.loop bytes i read = read.reverse ++ bytes.data.toList.drop i := by
    induction i, read using ByteArray.toList.loop.induct bytes with
    | case1 i read h ih =>
      have hi : i < bytes.data.toList.length := h
      rw [ByteArray.toList.loop, if_pos h, ih, List.drop_eq_getElem_cons hi, List.reverse_cons, List.append_assoc]
      show _ ++ bytes.data[i]! :: _ = _
      rw [getElem!_pos bytes.data i h]
      rfl
    | case2 i read h =>
      have hi : bytes.data.toList.length ≤ i := Nat.le_of_not_lt h
      rw [ByteArray.toList.loop, if_neg h, List.drop_eq_nil_of_le hi, List.append_nil]
  exact hloop 0 []

namespace Text

theorem occurs_iff {part text : List Char} : occurs part text ↔ part <:+: text := by
  induction text with
  | nil => simp [occurs]
  | cons c text ih => simp [occurs, List.infix_cons_iff, ih]

end Text

namespace DataUri

/-! Headers. -/

/-- What follows the media type in a header, cut at every semicolon. -/
def parameters (header : List Char) : List (List Char) := (header.splitOn ';').tail

theorem splitOn_semicolon (header : List Char) : header.splitOn ';' = before ';' header :: parameters header := by
  rw [parameters]
  induction header with
  | nil => rfl
  | cons c header ih =>
    rw [List.splitOn_eq_splitOnP] at ih ⊢
    rw [List.splitOnP_cons_eq_if_modifyHead]
    by_cases hc : c = ';'
    · subst hc
      rfl
    · have hne : ¬ (c == ';') = true := by simpa using hc
      have hbefore : before ';' (c :: header) = c :: before ';' header := by simp [before, hc]
      rw [if_neg hne, ih, hbefore]
      rfl

theorem parameters_cons (c : Char) (header : List Char) : parameters (c :: header) =
    if c = ';' then before ';' header :: parameters header else parameters header := by
  rw [parameters, List.splitOn_eq_splitOnP, List.splitOnP_cons_eq_if_modifyHead, ← List.splitOn_eq_splitOnP,
    splitOn_semicolon]
  by_cases hc : c = ';'
  · rw [if_pos hc, if_pos (by simpa using hc)]
    rfl
  · rw [if_neg hc, if_neg (by simpa using hc)]
    rfl

theorem prefix_before {part : List Char} (h : ';' ∉ part) (header : List Char) :
    part <+: before ';' header ↔ part <+: header := by
  induction part generalizing header with
  | nil => simp
  | cons c part ih =>
    have hc : c ≠ ';' := by
      rintro rfl
      exact h List.mem_cons_self
    have hpart : ';' ∉ part := fun hh => h (List.mem_cons_of_mem c hh)
    cases header with
    | nil => rfl
    | cons d header =>
      by_cases hd : d = ';'
      · subst hd
        simp [before, List.cons_prefix_cons, hc]
      · have hbefore : before ';' (d :: header) = d :: before ';' header := by simp [before, hd]
        rw [hbefore, List.cons_prefix_cons, List.cons_prefix_cons, ih hpart]

/-- A word behind a semicolon stands at the start of a parameter, and what follows it is not looked at. -/
theorem infix_iff_parameter {part : List Char} (h : ';' ∉ part) (header : List Char) :
    ';' :: part <:+: header ↔ ∃ p ∈ parameters header, part <+: p := by
  induction header with
  | nil => simp [parameters]
  | cons c header ih =>
    rw [List.infix_cons_iff, List.cons_prefix_cons, ih, parameters_cons]
    by_cases hc : c = ';'
    · rw [if_pos hc, List.exists_mem_cons_iff, prefix_before h]
      simp [hc]
    · rw [if_neg hc]
      simp [Ne.symm hc]

/-- A media type by its text. An empty text says nothing about the data. -/
def typeNamed (text : List Char) : String :=
  if text = [] then "application/octet-stream" else String.ofList text

/-- The media type is what precedes the first semicolon of a header. -/
def mediaType (header : List Char) : String := typeNamed ((header.splitOn ';').headD [])

/-! URIs. -/

/-- A data URI by what is before and behind its first comma. -/
def ofParts (header text : List Char) : String := String.ofList (scheme ++ header ++ ',' :: text)

theorem before_comma {header : List Char} (h : ',' ∉ header) (text : List Char) :
    before ',' (header ++ ',' :: text) = header := by
  have hheader : ∀ c ∈ header, decide (c ≠ ',') = true := by
    intro c hc
    rw [decide_eq_true_eq]
    rintro rfl
    exact h hc
  rw [before, List.takeWhile_append_of_pos hheader, List.takeWhile_cons_of_neg (by simp), List.append_nil]

theorem before_of_not_mem {header : List Char} (h : ',' ∉ header) : before ',' header = header := by
  rw [before, List.takeWhile_eq_self_iff]
  intro c hc
  rw [decide_eq_true_eq]
  rintro rfl
  exact h hc

theorem read_of_other {uri : String} (h : ¬ scheme <+: uri.toList) : read uri = .ok none := by
  have hp : scheme.isPrefixOf uri.toList = false := by
    rw [Bool.eq_false_iff, Ne, List.isPrefixOf_iff_prefix]
    exact h
  rw [read, hp]
  rfl

theorem isPrefixOf_scheme (rest : List Char) : (!scheme.isPrefixOf (scheme ++ rest)) = false := by
  rw [List.isPrefixOf_iff_prefix.mpr (List.prefix_append _ _)]
  rfl

theorem read_of_no_comma {rest : List Char} (h : ',' ∉ rest) :
    read (String.ofList (scheme ++ rest)) = .error .dataUriWithoutPayload := by
  simp only [read, String.toList_ofList, isPrefixOf_scheme, List.drop_left, before_of_not_mem h, List.drop_length]
  rfl

theorem read_ofParts {header : List Char} (h : ',' ∉ header) (text : List Char) :
    read (ofParts header text) = (payload header text).map fun data => some ⟨mediaType header, data⟩ := by
  have htype : (if (before ';' header).isEmpty then "application/octet-stream"
      else String.ofList (before ';' header)) = mediaType header := by
    rw [mediaType, splitOn_semicolon, List.headD_cons, typeNamed]
    simp only [List.isEmpty_iff]
  simp only [read, ofParts, String.toList_ofList, List.append_assoc, isPrefixOf_scheme, List.drop_left,
    before_comma h, htype]
  cases payload header text <;> rfl

theorem bytesOf_toList (text : List Char) : (bytesOf text).toList = Color.bytes (String.ofList text) := by
  rw [toList_byteArray]
  rfl

theorem payload_decoded {header : List Char} (h : ∃ p ∈ parameters header, "base64".toList <+: p)
    (text : List Char) : payload header text =
      ((Base64.decode (Color.bytes (String.ofList text))).map List.toByteArray).mapError .dataUriBase64 := by
  have hoccurs : Text.occurs ";base64".toList header = true :=
    Text.occurs_iff.mpr ((infix_iff_parameter (by decide) header).mpr h)
  rw [payload, hoccurs, if_pos rfl, bytesOf_toList]
  cases Base64.decode (Color.bytes (String.ofList text)) <;> rfl

theorem payload_plain {header : List Char} (h : ¬ ∃ p ∈ parameters header, "base64".toList <+: p)
    (text : List Char) : payload header text = .ok (bytesOf text) := by
  have hoccurs : ¬ Text.occurs ";base64".toList header = true := fun hh =>
    h ((infix_iff_parameter (by decide) header).mp (Text.occurs_iff.mp hh))
  rw [payload, if_neg hoccurs]

theorem bytes_toText (bytes : List UInt8) :
    Color.bytes (String.ofList (Base64.toText bytes)) = Base64.encode bytes := by
  have hchar : ∀ s ∈ Base64.encode bytes, String.utf8EncodeChar (Char.ofNat s.toNat) = [s] := by
    intro s hs
    have hlt := Base64.encode_ascii bytes s hs
    have hn : (Char.ofNat s.toNat).toNat = s.toNat := by
      rw [Char.toNat_ofNat, if_pos]
      exact .inl (by omega)
    rw [Color.encode_ascii (by omega), hn, UInt8.ofNat_toNat]
  rw [Color.bytes_ofList, Base64.toText, List.flatMap_map, List.flatMap_congr hchar, List.flatMap_singleton']

theorem read_cases (uri : String) : ¬ scheme <+: uri.toList ∨
    (∃ rest, uri.toList = scheme ++ rest ∧ ',' ∉ rest) ∨
    ∃ header text, ',' ∉ header ∧ uri = ofParts header text := by
  by_cases hscheme : scheme <+: uri.toList
  · obtain ⟨rest, hrest⟩ := hscheme
    by_cases hcomma : ',' ∈ rest
    · obtain ⟨header, text, hsplit, hheader⟩ := List.eq_append_cons_of_mem hcomma
      refine .inr (.inr ⟨header, text, hheader, ?_⟩)
      rw [ofParts, List.append_assoc, ← hsplit, hrest, String.ofList_toList]
    · exact .inr (.inl ⟨rest, hrest.symm, hcomma⟩)
  · exact .inl hscheme

/-- A URI with a payload is refused for what the payload is, or read. -/
theorem read_ofParts_cases {header : List Char} (h : ',' ∉ header) (text : List Char) :
    (∃ fault, read (ofParts header text) = .error (.dataUriBase64 fault)) ∨
      ∃ data, read (ofParts header text) = .ok (some data) := by
  rw [read_ofParts h]
  by_cases hp : ∃ p ∈ parameters header, "base64".toList <+: p
  · rw [payload_decoded hp]
    cases Base64.decode (Color.bytes (String.ofList text)) with
    | error fault => exact .inl ⟨fault, rfl⟩
    | ok bytes => exact .inr ⟨_, rfl⟩
  · rw [payload_plain hp]
    exact .inr ⟨_, rfl⟩

theorem read_eq_none {uri : String} : read uri = .ok none ↔ ¬ scheme <+: uri.toList := by
  refine ⟨fun h => ?_, read_of_other⟩
  rcases read_cases uri with hscheme | ⟨rest, hrest, hcomma⟩ | ⟨header, text, hheader, rfl⟩
  · exact hscheme
  · have hread := read_of_no_comma hcomma
    rw [← hrest, String.ofList_toList, h] at hread
    cases hread
  · rcases read_ofParts_cases hheader text with ⟨fault, hread⟩ | ⟨data, hread⟩
    · rw [h] at hread
      cases hread
    · rw [h] at hread
      cases hread

theorem read_eq_without_payload {uri : String} :
    read uri = .error .dataUriWithoutPayload ↔ ∃ rest, uri.toList = scheme ++ rest ∧ ',' ∉ rest := by
  constructor
  · intro h
    rcases read_cases uri with hscheme | hrest | ⟨header, text, hheader, rfl⟩
    · rw [read_of_other hscheme] at h
      cases h
    · exact hrest
    · rcases read_ofParts_cases hheader text with ⟨fault, hread⟩ | ⟨data, hread⟩
      · rw [h] at hread
        cases hread
      · rw [h] at hread
        cases hread
  · rintro ⟨rest, hrest, hcomma⟩
    rw [← String.ofList_toList (s := uri), hrest]
    exact read_of_no_comma hcomma

theorem splitOn_of_not_mem {mime : List Char} (h : ';' ∉ mime) :
    before ';' mime = mime ∧ parameters mime = [] := by
  have hsplit : mime.splitOn ';' = [mime] := by
    have hh : (List.intercalate [';'] [mime]).splitOn ';' = [mime] :=
      List.splitOn_intercalate ';' (by simpa using h) (by simp)
    simpa using hh
  rw [splitOn_semicolon] at hsplit
  exact List.cons.inj hsplit

theorem append_base64 {mime : List Char} (h : ';' ∉ mime) :
    before ';' (mime ++ ";base64".toList) = mime ∧ parameters (mime ++ ";base64".toList) = ["base64".toList] := by
  have hsplit : (mime ++ ";base64".toList).splitOn ';' = [mime, "base64".toList] := by
    have hh : (List.intercalate [';'] [mime, "base64".toList]).splitOn ';' = [mime, "base64".toList] :=
      List.splitOn_intercalate ';' (by simpa using h) (by simp)
    simpa [List.intercalate] using hh
  rw [splitOn_semicolon] at hsplit
  exact List.cons.inj hsplit

theorem read_base64 {mime : List Char} (hcomma : ',' ∉ mime) (hsemicolon : ';' ∉ mime) (bytes : List UInt8) :
    read (ofParts (mime ++ ";base64".toList) (Base64.toText bytes)) =
      .ok (some ⟨typeNamed mime, bytes.toByteArray⟩) := by
  obtain ⟨htype, hparameters⟩ := append_base64 hsemicolon
  have hheader : ',' ∉ mime ++ ";base64".toList := by
    rw [List.mem_append, not_or]
    exact ⟨hcomma, by decide⟩
  have hbase64 : ∃ p ∈ parameters (mime ++ ";base64".toList), "base64".toList <+: p := by
    rw [hparameters]
    exact ⟨_, List.mem_singleton_self _, List.prefix_rfl⟩
  rw [read_ofParts hheader, payload_decoded hbase64, bytes_toText, Base64.decode_encode, mediaType,
    splitOn_semicolon, htype]
  rfl

theorem read_plain {mime : List Char} (hcomma : ',' ∉ mime) (hsemicolon : ';' ∉ mime) (text : List Char) :
    read (ofParts mime text) = .ok (some ⟨typeNamed mime, (String.ofList text).toUTF8⟩) := by
  obtain ⟨htype, hparameters⟩ := splitOn_of_not_mem hsemicolon
  have hplain : ¬ ∃ p ∈ parameters mime, "base64".toList <+: p := by
    rw [hparameters]
    simp
  rw [read_ofParts hcomma, payload_plain hplain, mediaType, splitOn_semicolon, htype]
  rfl

/-- A name is no data URI, or one without a payload, or it is read by what is before its first comma. The payload
is decoded if and only if a parameter begins with `base64`, and otherwise it is taken as it is. So what was written
as base64 behind a media type comes back, and so does a text behind a media type alone. -/
theorem read_by_header (uri : String) {header mime : List Char} (hheader : ',' ∉ header) (hcomma : ',' ∉ mime)
    (hsemicolon : ';' ∉ mime) (text : List Char) (bytes : List UInt8) :
    (read uri = .ok none ↔ ¬ scheme <+: uri.toList) ∧
    (read uri = .error .dataUriWithoutPayload ↔ ∃ rest, uri.toList = scheme ++ rest ∧ ',' ∉ rest) ∧
    (¬ scheme <+: uri.toList ∨ (∃ rest, uri.toList = scheme ++ rest ∧ ',' ∉ rest) ∨
      ∃ header text, ',' ∉ header ∧ uri = ofParts header text) ∧
    ((∃ p ∈ parameters header, "base64".toList <+: p) →
      (∀ data, Base64.decode (Color.bytes (String.ofList text)) = .ok data →
        read (ofParts header text) = .ok (some ⟨mediaType header, data.toByteArray⟩)) ∧
      ∀ fault, Base64.decode (Color.bytes (String.ofList text)) = .error fault →
        read (ofParts header text) = .error (.dataUriBase64 fault)) ∧
    ((¬ ∃ p ∈ parameters header, "base64".toList <+: p) →
      read (ofParts header text) = .ok (some ⟨mediaType header, (String.ofList text).toUTF8⟩)) ∧
    read (ofParts (mime ++ ";base64".toList) (Base64.toText bytes)) =
      .ok (some ⟨typeNamed mime, bytes.toByteArray⟩) ∧
    read (ofParts mime text) = .ok (some ⟨typeNamed mime, (String.ofList text).toUTF8⟩) := by
  refine ⟨read_eq_none, read_eq_without_payload, read_cases uri,
    fun h => ⟨fun data hdata => ?_, fun fault hfault => ?_⟩, fun h => ?_,
    read_base64 hcomma hsemicolon bytes, read_plain hcomma hsemicolon text⟩
  · rw [read_ofParts hheader, payload_decoded h, hdata]
    rfl
  · rw [read_ofParts hheader, payload_decoded h, hfault]
    rfl
  · rw [read_ofParts hheader, payload_plain h]
    rfl

/-- Neither a comma nor `;base64` behind the first comma is looked at. -/
theorem read_by_header_late : ',' ∉ "text/plain;charset=x;base64".toList ∧ ',' ∉ "image/png".toList ∧
    ';' ∉ "image/png".toList ∧
    read "data:image/png,a,b;base64" = .ok (some ⟨"image/png", "a,b;base64".toUTF8⟩) ∧
    read "data:text/plain;charset=x;base64,aGk=" = .ok (some ⟨"text/plain", [104, 105].toByteArray⟩) ∧
    read "data:image/png;base64,/w==" = .ok (some ⟨"image/png", [255].toByteArray⟩) := by
  have hheader : ',' ∉ "text/plain;charset=x;base64".toList := by decide
  have hcomma : ',' ∉ "image/png".toList := by decide
  have hsemicolon : ';' ∉ "image/png".toList := by decide
  obtain ⟨-, -, -, hdecoded, -, hwritten, -⟩ := read_by_header "" hheader hcomma hsemicolon "aGk=".toList [255]
  obtain ⟨-, -, -, -, -, -, hplain⟩ := read_by_header "" hheader hcomma hsemicolon "a,b;base64".toList []
  have hparameter : ∃ p ∈ parameters "text/plain;charset=x;base64".toList, "base64".toList <+: p :=
    ⟨"base64".toList, by decide, List.prefix_rfl⟩
  have hvalue : Base64.decode (Color.bytes (String.ofList "aGk=".toList)) = .ok [104, 105] := by decide +kernel
  exact ⟨hheader, hcomma, hsemicolon, hplain, (hdecoded hparameter).1 _ hvalue, hwritten⟩

/-- A parameter that only begins with `base64` has the payload decoded as well. -/
theorem read_longer_parameter : "base64".toList ∉ parameters "image/png;base64x=1".toList ∧
    read "data:image/png;base64x=1,aGk=" = .ok (some ⟨"image/png", [104, 105].toByteArray⟩) ∧
    "aGk=".toUTF8 ≠ [104, 105].toByteArray := by
  have hparameters : parameters "image/png;base64x=1".toList = ["base64x=1".toList] := by decide
  have hparameter : ∃ p ∈ parameters "image/png;base64x=1".toList, "base64".toList <+: p := by
    rw [hparameters]
    exact ⟨_, List.mem_singleton_self _, by decide⟩
  have hvalue : Base64.decode (Color.bytes (String.ofList "aGk=".toList)) = .ok [104, 105] := by decide +kernel
  have hread := read_ofParts (show ',' ∉ "image/png;base64x=1".toList by decide) "aGk=".toList
  rw [payload_decoded hparameter, hvalue] at hread
  refine ⟨?_, hread, ?_⟩
  · rw [hparameters]
    decide
  · intro h
    have hsize := congrArg ByteArray.size h
    revert hsize
    decide

end DataUri
end Galley
