import Mathlib
import Galley.Font.Registry
import Galley.Proofs.Failure

/-! Widths that a font remembers. Each is the width the font would measure, whatever was forgotten to make
room, so a font that remembers tells the sizes that a new one of the same data and size does. -/

namespace Galley

namespace WidthCache

variable {c : WidthCache} {text known : String} {width w : Length}

/-- What is taken from the queue is its first text, and nothing else changes. -/
theorem popOldest?_eq_some {rest : WidthCache} (h : c.popOldest? = some (text, rest)) :
    c.order = text :: rest.order ∧ rest.widths = c.widths ∧ rest.capacity = c.capacity := by
  rw [popOldest?] at h
  cases hf : c.front with
  | cons oldest front =>
    rw [hf] at h
    cases h
    rw [order, hf]
    exact ⟨rfl, rfl, rfl⟩
  | nil =>
    rw [hf] at h
    cases hb : c.back.reverse with
    | nil =>
      rw [hb] at h
      cases h
    | cons oldest front =>
      rw [hb] at h
      cases h
      refine ⟨?_, rfl, rfl⟩
      rw [order, order, hf, hb, List.reverse_nil, List.append_nil, List.nil_append]

/-- Making room forgets widths and changes none. -/
theorem get?_of_evict {n : Nat} (h : (c.evict n).get? known = some w) : c.get? known = some w := by
  induction n generalizing c with
  | zero => exact h
  | succ n ih =>
    rw [evict] at h
    by_cases hroom : c.widths.size ≤ c.capacity
    · rwa [if_pos hroom] at h
    rw [if_neg hroom] at h
    cases hp : c.popOldest? with
    | none => rwa [hp] at h
    | some popped =>
      obtain ⟨oldest, rest⟩ := popped
      rw [hp] at h
      have hkept := ih h
      rw [get?, Std.HashMap.getElem?_erase] at hkept
      split at hkept
      · cases hkept
      · rwa [(popOldest?_eq_some hp).2.1] at hkept

theorem get?_of_insert (h : (c.insert text width).get? known = some w) :
    c.get? known = some w ∨ (known = text ∧ w = width) := by
  rw [insert] at h
  split at h
  · exact .inl h
  · have hkept := get?_of_evict h
    rw [get?, Std.HashMap.getElem?_insert] at hkept
    split at hkept
    · rename_i heq
      cases hkept
      exact .inr ⟨(eq_of_beq heq).symm, rfl⟩
    · exact .inl hkept

theorem get?_empty (capacity : Nat) (text : String) : ({ capacity } : WidthCache).get? text = none :=
  Std.HashMap.getElem?_empty

end WidthCache

namespace SizedFont

variable {f : SizedFont}

/-- The same font with nothing measured yet. -/
def fresh (f : SizedFont) : SizedFont := ofFace f.name f.data f.face f.size

/-- The font with the width of a text remembered. -/
def remember (f : SizedFont) (text : String) (width : Length) : SizedFont :=
  { f with cache := f.cache.insert text width }

/-- The face is the one that the data holds, and the widths remembered are those that the font measures. -/
structure Faithful (f : SizedFont) : Prop where
  read : Sfnt.Face.read f.data = .ok f.face
  remembered : ∀ {text width}, f.cache.get? text = some width → f.width text = .ok width

theorem faithful_ofFace {data : ByteArray} {face : Sfnt.Face} (h : Sfnt.Face.read data = .ok face)
    (name : String) (size : Length) : (ofFace name data face size).Faithful where
  read := h
  remembered hw := by
    rw [ofFace, WidthCache.get?_empty] at hw
    cases hw

theorem ofData_of_read {data : ByteArray} {face : Sfnt.Face} (h : Sfnt.Face.read data = .ok face)
    (name : String) (size : Length) : ofData name data size = .ok (ofFace name data face size) := by
  have hunits : ¬ face.unitsPerEm = 0 := Nat.pos_iff_ne_zero.mp face.head.unitsPerEm_pos
  rw [ofData, h]
  exact if_neg hunits

theorem ofData_eq_ok {name : String} {data : ByteArray} {size : Length} (h : ofData name data size = .ok f) :
    f.name = name ∧ f.Faithful := by
  obtain ⟨face, hread, -⟩ := bind_eq_ok h
  have hface := mapError_eq_ok.mp hread
  rw [ofData_of_read hface] at h
  cases h
  exact ⟨rfl, faithful_ofFace hface name size⟩

theorem measure_of_fresh {g : SizedFont} (h : f.fresh = g.fresh) : f.measure = g.measure :=
  congrArg (fun fresh => fresh.measure) h

theorem toFont_of_fresh {g : SizedFont} (h : f.fresh = g.fresh) : f.toFont = g.toFont :=
  congrArg (fun fresh => fresh.toFont) h

namespace Faithful

theorem ofData_fresh (h : f.Faithful) : ofData f.name f.data f.size = .ok f.fresh :=
  ofData_of_read h.read f.name f.size

theorem withSize (h : f.Faithful) (name : String) (size : Length) : (f.withSize name size).Faithful :=
  faithful_ofFace h.read name size

theorem remember (h : f.Faithful) {text : String} {width : Length} (hwidth : f.width text = .ok width) :
    (f.remember text width).Faithful where
  read := h.read
  remembered hw := by
    rcases WidthCache.get?_of_insert hw with hw | ⟨rfl, rfl⟩
    · exact h.remembered hw
    · exact hwidth

/-- A font that remembers measures as it would without, and so it does afterwards. -/
theorem measureCached (h : f.Faithful) (text : String) :
    (∃ size next, f.measureCached text = .ok (size, next) ∧ f.measure text = .ok size ∧ next.Faithful ∧
      next.fresh = f.fresh) ∨
    (f.measureCached text = .error {} ∧ f.measure text = .error {}) := by
  rw [SizedFont.measureCached, SizedFont.measure]
  cases hw : f.cache.get? text with
  | some width =>
    rw [h.remembered hw]
    exact .inl ⟨_, f, rfl, rfl, h, rfl⟩
  | none =>
    cases hwidth : f.width text with
    | ok width => exact .inl ⟨_, f.remember text width, rfl, rfl, h.remember hwidth, rfl⟩
    | error overflow => exact .inr ⟨rfl, rfl⟩

theorem measureEach (h : f.Faithful) (texts : List String) :
    (f.measureEach texts).1 = texts.mapM f.measure ∧ (f.measureEach texts).2.Faithful ∧
      (f.measureEach texts).2.fresh = f.fresh := by
  induction texts generalizing f with
  | nil => exact ⟨rfl, h, rfl⟩
  | cons text texts ih =>
    rw [SizedFont.measureEach, List.mapM_cons]
    rcases h.measureCached text with ⟨size, next, hcached, hsize, hnext, hfresh⟩ | ⟨hcached, hsize⟩
    · obtain ⟨hsizes, hlast, hsame⟩ := ih hnext
      rw [hcached, hsize]
      refine ⟨?_, hlast, hsame.trans hfresh⟩
      change (next.measureEach texts).1.map (size :: ·) = (texts.mapM f.measure).map (size :: ·)
      rw [hsizes, measure_of_fresh hfresh]
    · rw [hcached, hsize]
      exact ⟨rfl, h, rfl⟩

end Faithful

end SizedFont

namespace FontRegistry

variable {r r' : FontRegistry} {name : String} {f g : SizedFont}

/-- The registry with another font under a name. -/
def put (r : FontRegistry) (name : String) (font : SizedFont) : FontRegistry := ⟨r.fonts.insert name font⟩

theorem get?_put (r : FontRegistry) (name : String) (f : SizedFont) (other : String) :
    (r.put name f).get? other = if name = other then some f else r.get? other := by
  rw [put, get?, Std.HashMap.getElem?_insert]
  simp only [beq_iff_eq]
  rfl

theorem get?_put_self (r : FontRegistry) (name : String) (f : SizedFont) : (r.put name f).get? name = some f := by
  rw [get?_put, if_pos rfl]

theorem get?_put_eq_some {other : String} (h : (r.put name f).get? other = some g) :
    name = other ∧ f = g ∨ r.get? other = some g := by
  rw [get?_put] at h
  split at h
  · exact .inl ⟨by assumption, Option.some.inj h⟩
  · exact .inr h

/-- Every font is under its own name and remembers what it measures. -/
structure Sound (r : FontRegistry) : Prop where
  named : ∀ {name f}, r.get? name = some f → f.name = name
  faithful : ∀ {name f}, r.get? name = some f → f.Faithful

/-- The same fonts, apart from what each of them remembers. -/
def Agrees (r r' : FontRegistry) : Prop :=
  ∀ name, (r.get? name).map SizedFont.fresh = (r'.get? name).map SizedFont.fresh

theorem sound_empty : ({} : FontRegistry).Sound where
  named h := by
    rw [get?, Std.HashMap.getElem?_empty] at h
    cases h
  faithful h := by
    rw [get?, Std.HashMap.getElem?_empty] at h
    cases h

theorem Sound.put (h : r.Sound) (hf : f.Faithful) (hn : f.name = name) : (r.put name f).Sound where
  named hg := by
    rcases get?_put_eq_some hg with ⟨rfl, rfl⟩ | hg
    · exact hn
    · exact h.named hg
  faithful hg := by
    rcases get?_put_eq_some hg with ⟨rfl, rfl⟩ | hg
    · exact hf
    · exact h.faithful hg

theorem Agrees.refl (r : FontRegistry) : r.Agrees r := fun _ => rfl

theorem Agrees.trans {r'' : FontRegistry} (h : r.Agrees r') (h' : r'.Agrees r'') : r.Agrees r'' :=
  fun name => (h name).trans (h' name)

theorem agrees_put (hf : r.get? name = some f) (hg : g.fresh = f.fresh) : r.Agrees (r.put name g) := by
  intro other
  rw [get?_put]
  by_cases hn : name = other
  · rw [if_pos hn, ← hn, hf, Option.map_some, Option.map_some, hg]
  · rw [if_neg hn]

theorem Agrees.get? (h : r.Agrees r') (hf : r.get? name = some f) :
    ∃ g, r'.get? name = some g ∧ g.fresh = f.fresh := by
  have hh := h name
  rw [hf] at hh
  exact Option.map_eq_some_iff.mp hh.symm

theorem Agrees.get?_none (h : r.Agrees r') (hf : r.get? name = none) : r'.get? name = none := by
  have hh := h name
  rw [hf, Option.map_none] at hh
  exact Option.map_eq_none_iff.mp hh.symm

theorem find_eq_ok : r.find name = .ok f ↔ r.get? name = some f := by
  rw [find]
  cases r.get? name <;> simp

theorem resolve_eq_ok {font : Font} : r.resolve name = .ok font ↔ ∃ f, r.get? name = some f ∧ f.toFont = font := by
  rw [FontRegistry.resolve, find]
  cases r.get? name <;> simp [Except.map]

theorem Agrees.resolve (h : r.Agrees r') : r.resolve = r'.resolve := by
  funext name
  rw [FontRegistry.resolve, FontRegistry.resolve, find, find]
  cases hf : r.get? name with
  | some f =>
    obtain ⟨g, hg, hfresh⟩ := h.get? hf
    rw [hg]
    exact congrArg Except.ok (SizedFont.toFont_of_fresh hfresh.symm)
  | none => rw [h.get?_none hf]

theorem measureAll_sound (h : r.Sound) (hf : r.get? name = some f) (texts : List String) :
    ∃ r', r.measureAll name texts = .ok (texts.mapM f.measure, r') ∧ r'.Sound ∧ r.Agrees r' := by
  obtain ⟨hsizes, hlast, hsame⟩ := (h.faithful hf).measureEach texts
  refine ⟨_, ?_, h.put hlast ?_, agrees_put hf hsame⟩
  · rw [measureAll, find_eq_ok.mpr hf, ← hsizes]
    rfl
  · rw [← h.named hf]
    exact congrArg (fun fresh => fresh.name) hsame

end FontRegistry

end Galley
