import Mathlib
import Galley.Raster.Pixmap

/-! Images under a tint. The product of two channels is monotone and is no more than either of them, so a tint
only ever takes away, and no color channel of a tinted pixel exceeds its alpha. -/

namespace Galley

/-- One color is at most another if each of its channels is. -/
instance : LE Color := ⟨fun c d => c.r ≤ d.r ∧ c.g ≤ d.g ∧ c.b ≤ d.b ∧ c.a ≤ d.a⟩

instance (c d : Color) : Decidable (c ≤ d) := inferInstanceAs (Decidable (_ ∧ _))

/-- The pixels that straight bytes hold, four bytes each. What is left over at the end holds none. -/
def Color.ofBytes : List UInt8 → List Color
  | r :: g :: b :: a :: rest => ⟨r, g, b, a⟩ :: ofBytes rest
  | _ => []

namespace Raster

/-! Channels. -/

/-- The product of two channels and the bias that rounds it, in a number of any size. -/
def biasedProduct (c f : UInt8) : Nat := c.toNat * f.toNat + 127

theorem biasedProduct_le (c f : UInt8) : biasedProduct c f ≤ 65152 := by
  have hc := c.toNat_lt
  have hf := f.toNat_lt
  have hle : c.toNat * f.toNat ≤ 255 * 255 := Nat.mul_le_mul (by omega) (by omega)
  rw [biasedProduct]
  omega

/-- In sixteen bits the product is what it is in numbers of any size. -/
theorem toNat_mulChannel (c f : UInt8) :
    (mulChannel c f).toNat = (biasedProduct c f + biasedProduct c f / 256) / 256 := by
  have hle := biasedProduct_le c f
  have hproduct : (c.toUInt16 * f.toUInt16 + 127).toNat = biasedProduct c f := by
    rw [biasedProduct] at hle ⊢
    simp
    omega
  have hshift (n : UInt16) : (n >>> 8).toNat = n.toNat / 256 := by
    rw [UInt16.toNat_shiftRight]
    exact Nat.shiftRight_eq_div_pow _ _
  have hwrapped : (mulChannel c f).toNat = (biasedProduct c f + biasedProduct c f / 256) % 65536 / 256 % 256 := by
    rw [mulChannel, UInt16.toNat_toUInt8, hshift, UInt16.toNat_add, hshift, hproduct]
  omega

theorem mulChannel_comm (c f : UInt8) : mulChannel c f = mulChannel f c := by
  have hcomm : biasedProduct c f = biasedProduct f c := by
    rw [biasedProduct, biasedProduct, Nat.mul_comm]
  apply UInt8.toNat_inj.mp
  rw [toNat_mulChannel, toNat_mulChannel, hcomm]

theorem mulChannel_mono {c c' f f' : UInt8} (hc : c ≤ c') (hf : f ≤ f') :
    mulChannel c f ≤ mulChannel c' f' := by
  have hle : biasedProduct c f ≤ biasedProduct c' f' := Nat.add_le_add_right (Nat.mul_le_mul hc hf) 127
  show (mulChannel c f).toNat ≤ (mulChannel c' f').toNat
  rw [toNat_mulChannel, toNat_mulChannel]
  omega

/-- The bias is such that the full channel stands for one exactly. -/
theorem mulChannel_full (c : UInt8) : mulChannel c 255 = c := by
  have hc := c.toNat_lt
  have hbiased : biasedProduct c 255 = c.toNat * 255 + 127 := rfl
  apply UInt8.toNat_inj.mp
  rw [toNat_mulChannel, hbiased]
  omega

theorem mulChannel_le_left (c f : UInt8) : mulChannel c f ≤ c := by
  have hf : f ≤ 255 := Nat.le_of_lt_succ f.toNat_lt
  have hle := mulChannel_mono (UInt8.le_refl c) hf
  rwa [mulChannel_full] at hle

theorem mulChannel_le_right (c f : UInt8) : mulChannel c f ≤ f := by
  rw [mulChannel_comm]
  exact mulChannel_le_left f c

/-! Pixels. -/

namespace Pixel

instance : LE Pixel := ⟨fun p q => p.r ≤ q.r ∧ p.g ≤ q.g ∧ p.b ≤ q.b ∧ p.a ≤ q.a⟩

/-- What painting relies on: no color channel exceeds alpha. -/
def Sound (p : Pixel) : Prop := p.r ≤ p.a ∧ p.g ≤ p.a ∧ p.b ≤ p.a

instance (p : Pixel) : Decidable p.Sound := inferInstanceAs (Decidable (_ ∧ _))

theorem tinted_sound (source tint : Color) : (tinted source tint).Sound :=
  ⟨mulChannel_le_right _ _, mulChannel_le_right _ _, mulChannel_le_right _ _⟩

theorem tinted_mono {source source' tint tint' : Color} (hs : source ≤ source') (ht : tint ≤ tint') :
    tinted source tint ≤ tinted source' tint' := by
  obtain ⟨hr, hg, hb, ha⟩ := hs
  obtain ⟨hr', hg', hb', ha'⟩ := ht
  have hα := mulChannel_mono ha ha'
  exact ⟨mulChannel_mono (mulChannel_mono hr hr') hα, mulChannel_mono (mulChannel_mono hg hg') hα,
    mulChannel_mono (mulChannel_mono hb hb') hα, hα⟩

theorem tinted_alpha_full {tint : Color} (h : tint.a = 255) (source : Color) :
    (tinted source tint).a = source.a := by
  show mulChannel source.a tint.a = source.a
  rw [h, mulChannel_full]

theorem tinted_white {source : Color} (h : source.a = 255) :
    tinted source .white = ⟨source.r, source.g, source.b, 255⟩ := by
  have hα : mulChannel source.a 255 = 255 := by rw [mulChannel_full, h]
  simp only [tinted, Color.white, hα, mulChannel_full]

end Pixel

/-! Images. -/

namespace Pixmap

theorem getElem?_toByteArray (bytes : List UInt8) (i : Nat) : (ByteArray.mk ⟨bytes⟩)[i]? = bytes[i]? := by
  simp only [getElem?_def]
  rfl

theorem colorAt_succ (r g b a : UInt8) (rest : List UInt8) (i : Nat) :
    colorAt ⟨⟨r :: g :: b :: a :: rest⟩⟩ (i + 1) = colorAt ⟨⟨rest⟩⟩ i := by
  have hskip (k : Nat) : (r :: g :: b :: a :: rest)[4 * (i + 1) + k]? = rest[4 * i + k]? := by
    rw [show 4 * (i + 1) + k = 4 * i + k + 4 by omega]
    rfl
  simp only [colorAt, getElem?_toByteArray, hskip]

/-- Bytes taken by fours from the start and looked up at multiples of four are the same pixels. -/
theorem ofBytes_eq {bytes : List UInt8} {n : Nat} (h : bytes.length = 4 * n) :
    Color.ofBytes bytes = (List.range n).map (colorAt ⟨⟨bytes⟩⟩) := by
  induction n generalizing bytes with
  | zero =>
    rw [List.eq_nil_of_length_eq_zero h]
    rfl
  | succ n ih =>
    rcases bytes with _ | ⟨r, _ | ⟨g, _ | ⟨b, _ | ⟨a, rest⟩⟩⟩⟩ <;>
      simp only [List.length_cons, List.length_nil] at h
    · omega
    · omega
    · omega
    · omega
    · have hrest : rest.length = 4 * n := by omega
      rw [Color.ofBytes, ih hrest, List.range_succ_eq_map, List.map_cons, List.map_map]
      simp only [Function.comp_def, Nat.succ_eq_add_one, colorAt_succ]
      rfl

theorem toList_pixels {n : Nat} {bytes : ByteArray} (tint : Color) (h : bytes.size = 4 * n) :
    (Vector.ofFn fun i : Fin n => Pixel.tinted (colorAt bytes i) tint).toList =
      (Color.ofBytes bytes.data.toList).map (Pixel.tinted · tint) := by
  have hlength : bytes.data.toList.length = 4 * n := h
  rw [ofBytes_eq hlength, List.map_map]
  apply List.ext_getElem
  · simp
  · intro i hi hi'
    simp

theorem ofImage_eq_some {image : Image} {tint : Color} {m : Pixmap} : ofImage? image tint = some m ↔
    ∃ rgba, image.rgba = some rgba ∧ Fits image.width image.height ∧
      rgba.size = image.width.toNat * image.height.toNat * 4 ∧
      m = ⟨image.width.toNat, image.height.toNat, .ofFn fun i => .tinted (colorAt rgba i) tint⟩ := by
  cases hr : image.rgba with
  | none => simp [ofImage?, hr]
  | some rgba => simp [ofImage?, hr, and_assoc, eq_comm]

theorem ofImage_pixels {image : Image} {tint : Color} {m : Pixmap} (h : ofImage? image tint = some m) :
    ∃ rgba, image.rgba = some rgba ∧ m.width = image.width.toNat ∧ m.height = image.height.toNat ∧
      m.pixels.toList = (Color.ofBytes rgba.data.toList).map (Pixel.tinted · tint) := by
  obtain ⟨rgba, hr, -, hsize, rfl⟩ := ofImage_eq_some.mp h
  have hpixels : rgba.size = 4 * (image.height.toNat * image.width.toNat) := by
    rw [hsize, Nat.mul_comm, Nat.mul_comm image.width.toNat]
  exact ⟨rgba, hr, rfl, rfl, toList_pixels tint hpixels⟩

/-- An image has pixels under a tint if and only if it holds four bytes for each. Each pixel is that of its own
four bytes under the tint: it is sound, no less transparent than image and tint are, the more of a channel
either has the more it has, and under white it is an opaque pixel of the image itself. -/
theorem ofImage_premultiplied {image : Image} (hfits : Fits image.width image.height) (tint : Color) :
    ((∃ m, ofImage? image tint = some m) ↔
      ∃ rgba, image.rgba = some rgba ∧ rgba.size = image.width.toNat * image.height.toNat * 4) ∧
    (∀ m, ofImage? image tint = some m →
      ∃ rgba, image.rgba = some rgba ∧ m.width = image.width.toNat ∧ m.height = image.height.toNat ∧
        m.pixels.toList = (Color.ofBytes rgba.data.toList).map (Pixel.tinted · tint)) ∧
    (∀ source : Color, let p := Pixel.tinted source tint
      p.a ≤ source.a ∧ p.a ≤ tint.a ∧ (tint.a = 255 → p.a = source.a) ∧ p.Sound ∧
      (source.a = 255 → tint = .white → p = ⟨source.r, source.g, source.b, source.a⟩) ∧
      ∀ source' tint' : Color, source ≤ source' → tint ≤ tint' → p ≤ .tinted source' tint') ∧
    ∀ c f : UInt8, c.toNat * f.toNat + 127 + (c.toNat * f.toNat + 127) / 256 < 2 ^ 16 ∧
      (mulChannel c f).toNat = (c.toNat * f.toNat + 127 + (c.toNat * f.toNat + 127) / 256) / 256 := by
  refine ⟨⟨?_, ?_⟩, fun m h => ofImage_pixels h, ?_, ?_⟩
  · rintro ⟨m, hm⟩
    obtain ⟨rgba, hr, -, hsize, -⟩ := ofImage_eq_some.mp hm
    exact ⟨rgba, hr, hsize⟩
  · rintro ⟨rgba, hr, hsize⟩
    exact ⟨_, ofImage_eq_some.mpr ⟨rgba, hr, hfits, hsize, rfl⟩⟩
  · intro source p
    refine ⟨mulChannel_le_left _ _, mulChannel_le_right _ _, fun h => Pixel.tinted_alpha_full h source,
      Pixel.tinted_sound source tint, ?_, fun _ _ => Pixel.tinted_mono⟩
    intro hfull hwhite
    rw [hfull, ← Pixel.tinted_white hfull, ← hwhite]
  · intro c f
    have hle := biasedProduct_le c f
    have hproduct := toNat_mulChannel c f
    rw [biasedProduct] at hle hproduct
    exact ⟨by omega, hproduct⟩

/-- Two pixels, of which one is half transparent. -/
def pairOfPixels : Image := ⟨"pair", 1, 2, some ⟨#[10, 20, 30, 255, 200, 100, 50, 128]⟩⟩

theorem ofImage_premultiplied_pair : Fits pairOfPixels.width pairOfPixels.height ∧
    ∃ m, ofImage? pairOfPixels ⟨255, 128, 64, 255⟩ = some m ∧
      m.pixels.toList = [⟨10, 10, 8, 255⟩, ⟨100, 25, 7, 128⟩] ∧ (∀ p ∈ m.pixels.toList, p.Sound) ∧
      ofImage? { pairOfPixels with height := 1 } ⟨255, 128, 64, 255⟩ = none := by
  have hfits : Fits pairOfPixels.width pairOfPixels.height := by decide
  have hfits' : Fits { pairOfPixels with height := 1 }.width { pairOfPixels with height := 1 }.height := by decide
  obtain ⟨hsome, hpixels, -, -⟩ := ofImage_premultiplied hfits ⟨255, 128, 64, 255⟩
  obtain ⟨hnone, -, -, -⟩ := ofImage_premultiplied hfits' ⟨255, 128, 64, 255⟩
  obtain ⟨m, hm⟩ := hsome.mpr ⟨_, rfl, rfl⟩
  obtain ⟨rgba, hr, -, -, hlist⟩ := hpixels m hm
  cases hr
  have hvalue : m.pixels.toList = [⟨10, 10, 8, 255⟩, ⟨100, 25, 7, 128⟩] := by
    rw [hlist]
    decide
  refine ⟨hfits, m, hm, hvalue, ?_, ?_⟩
  · rw [hvalue]
    decide
  · rw [Option.eq_none_iff_forall_ne_some]
    intro m' hm'
    obtain ⟨rgba, hr, hsize⟩ := hnone.mp ⟨m', hm'⟩
    cases hr
    revert hsize
    decide

end Pixmap

end Raster

end Galley
