import Mathlib
import Galley.Image.Registry
import Galley.Proofs.Depiction
import Galley.Proofs.Registrar
import Galley.Proofs.Replay
import Galley.Proofs.Replies

/-! Registered fonts and images. Each is found by the name that it carries, so whoever looks up a name that was
recorded finds the font or the image that was measured. -/

namespace Galley

namespace FontRegistry

inductive Registration where
  | fromData (name : String) (data : ByteArray) (size : Length)
  | fromFile (name path : String) (contents : Except String ByteArray) (size : Length)
  | resized (base name : String) (size : Length)
  | fromHandle (font : SizedFont)

namespace Registration

def name : Registration → String
  | fromData name _ _ => name
  | fromFile name _ _ _ => name
  | resized _ name _ => name
  | fromHandle font => font.name

def font (writes : List (String × SizedFont)) : Registration → Except AssetError SizedFont
  | fromData name data size => SizedFont.ofData name data size
  | fromFile name _ (.ok data) size => SizedFont.ofData name data size
  | fromFile _ path (.error reason) _ => .error (.unreadableFont path reason)
  | resized base name size =>
    match writes.lookup base with
    | some font => .ok (font.withSize name size)
    | none => .error (.unknownBaseFont base)
  | fromHandle font => .ok font

theorem font_resized {writes : List (String × SizedFont)} {base : String} {f : SizedFont}
    (h : writes.lookup base = some f) (name : String) (size : Length) :
    (resized base name size).font writes = .ok (f.withSize name size) := by
  rw [font, h]

theorem name_font {writes : List (String × SizedFont)} {registration : Registration} {f : SizedFont}
    (h : registration.font writes = .ok f) : f.name = registration.name := by
  cases registration with
  | fromData name data size => exact (SizedFont.ofData_eq_ok h).1
  | fromFile name path contents size =>
    cases contents with
    | ok data => exact (SizedFont.ofData_eq_ok h).1
    | error reason => cases h
  | resized base name size =>
    rw [font] at h
    split at h
    · cases h
      rfl
    · cases h
  | fromHandle font =>
    cases h
    rfl

end Registration

def perform (r : FontRegistry) : Registration → Except AssetError FontRegistry
  | .fromData name data size => r.registerData name data size
  | .fromFile name path contents size => r.registerFile name path contents size
  | .resized base name size => r.registerSize base name size
  | .fromHandle font => .ok (r.register font)

/-- A registration does with a registry what it does with the writes that the registry holds. -/
theorem perform_eq {r : FontRegistry} {writes : List (String × SizedFont)} (h : HoldsLast r.fonts writes)
    (registration : Registration) : r.perform registration = (registration.font writes).map r.register := by
  cases registration with
  | fromData name data size =>
    rw [perform, registerData, Registration.font]
    cases SizedFont.ofData name data size <;> rfl
  | fromFile name path contents size =>
    cases contents with
    | ok data =>
      rw [perform, registerFile, registerData, Registration.font]
      cases SizedFont.ofData name data size <;> rfl
    | error reason => rfl
  | resized base name size =>
    -- The only registration that reads the registry, and what it reads is in the writes.
    have hbase : r.get? base = writes.lookup base := h.found base
    rw [perform, registerSize, Registration.font, hbase]
    cases writes.lookup base <;> rfl
  | fromHandle font => rfl

def registrar : Registrar FontRegistry Registration SizedFont where
  empty := {}
  table := fonts
  perform := perform
  name := Registration.name
  handle := Registration.font
  nameOf := SizedFont.name
  table_empty := .empty
  perform_error h hf := by
    rw [perform_eq h, hf]
    rfl
  perform_ok h hf := by
    rw [perform_eq h, hf, ← Registration.name_font hf]
    exact ⟨_, rfl, h.insert _ _⟩
  nameOf_handle := Registration.name_font

theorem lastWins (registrations : List Registration) : registrar.LastWins (registrar.run registrations).get?
    (registrar.run registrations).size registrations := registrar.lastWins registrations

theorem resolve_eq (r : FontRegistry) (name : String) : r.resolve name =
    (r.get? name).elim (.error (.unregisteredFont name)) fun f => .ok f.toFont := by
  rw [resolve, find]
  cases r.get? name <;> rfl

/-- A font in another size is its base as it was then, whatever is registered later. -/
theorem history_resized {before : List Registration} {base : String} {f : SizedFont}
    (hf : (registrar.run before).get? base = some f) (name : String) (size : Length) (more : List Registration) :
    ∃ newer, registrar.history (before ++ .resized base name size :: more) =
      newer ++ (name, f.withSize name size) :: registrar.history before := by
  have hbase : (registrar.history before).lookup base = some f := by rw [← (lastWins before).found, hf]
  have hfont : registrar.handle (registrar.history before) (.resized base name size) =
      .ok (f.withSize name size) := Registration.font_resized hbase name size
  obtain ⟨newer, hnewer⟩ := registrar.history_grows (before ++ [.resized base name size]) more
  rw [registrar.history_append, hfont, ← List.append_cons] at hnewer
  exact ⟨newer, hnewer⟩

theorem get?_of_history {registrations : List Registration} {newer older : List (String × SizedFont)}
    {name : String} {f : SizedFont} (h : registrar.history registrations = newer ++ (name, f) :: older)
    (hnewer : ∀ write ∈ newer, write.1 ≠ name) : (registrar.run registrations).get? name = some f := by
  rw [(lastWins registrations).found, h]
  refine List.lookup_eq_some_iff.mpr ⟨newer, older, rfl, fun write hw => ?_⟩
  exact bne_iff_ne.mpr (hnewer write hw).symm

end FontRegistry

variable {scans : Jpeg.Decoder}

theorem Image.name_decode {name : String} {data : ByteArray} {mime : Option String} {image : Image}
    (h : Image.decode scans name data mime = .ok image) : image.name = name := by
  rw [Image.decode] at h
  split at h
  · split at h
    · cases h
      rfl
    · cases h
  · split at h
    · cases h
      rfl
    · cases h
  · cases h

namespace ImageRegistry

inductive Registration where
  | fromData (name : String) (data : ByteArray)
  | fromFile (name path : String) (contents : Except String ByteArray)

namespace Registration

def name : Registration → String
  | fromData name _ => name
  | fromFile name _ _ => name

def image (scans : Jpeg.Decoder) : Registration → Except AssetError Image
  | fromData name data => Image.decode scans name data none
  | fromFile name _ (.ok data) => Image.decode scans name data none
  | fromFile _ path (.error reason) => .error (.unreadableImage path reason)

theorem name_image {registration : Registration} {image : Image} (h : registration.image scans = .ok image) :
    image.name = registration.name := by
  cases registration with
  | fromData name data => exact Image.name_decode h
  | fromFile name path contents =>
    cases contents with
    | ok data => exact Image.name_decode h
    | error reason => cases h

end Registration

def perform (scans : Jpeg.Decoder) (r : ImageRegistry) : Registration → Except AssetError ImageRegistry
  | .fromData name data => r.register scans name data
  | .fromFile name path contents => r.registerFile scans name path contents

theorem perform_eq (r : ImageRegistry) (registration : Registration) : r.perform scans registration =
    (registration.image scans).map fun image => ⟨r.images.insert registration.name image⟩ := by
  cases registration with
  | fromData name data =>
    rw [perform, register, Registration.image]
    cases Image.decode scans name data none <;> rfl
  | fromFile name path contents =>
    cases contents with
    | ok data =>
      rw [perform, registerFile, register, Registration.image]
      cases Image.decode scans name data none <;> rfl
    | error reason => rfl

def registrar (scans : Jpeg.Decoder) : Registrar ImageRegistry Registration Image where
  empty := {}
  table := images
  perform := perform scans
  name := Registration.name
  handle _ := Registration.image scans
  nameOf := Image.name
  table_empty := .empty
  perform_error _ hf := by
    rw [perform_eq, hf]
    rfl
  perform_ok h hf := by
    rw [perform_eq, hf]
    exact ⟨_, rfl, h.insert _ _⟩
  nameOf_handle := Registration.name_image

variable {r : ImageRegistry} {name : String} {image : Image}

theorem lookup_registered (h : r.images[name]? = some image) : r.lookup scans name = .ok image := by
  rw [lookup, h]
  rfl

theorem lookup_unregistered (scans : Jpeg.Decoder) (h : r.images[name]? = none) :
    (∀ uri, DataUri.read name = .ok (some uri) →
      r.lookup scans name = Image.decode scans name uri.data (some uri.mime)) ∧
    (DataUri.read name = .ok none → r.lookup scans name = .error (.unregisteredImage name)) ∧
    ∀ fault, DataUri.read name = .error fault → r.lookup scans name = .error fault := by
  refine ⟨fun uri hread => ?_, fun hread => ?_, fun fault hread => ?_⟩
  · rw [lookup, h, hread]
    rfl
  · rw [lookup, h, hread]
    rfl
  · rw [lookup, h, hread]
    rfl

theorem name_lookup {registrations : List Registration}
    (h : ((registrar scans).run registrations).lookup scans name = .ok image) : image.name = name := by
  cases hi : ((registrar scans).run registrations).images[name]? with
  | some registered =>
    rw [lookup_registered hi] at h
    cases h
    exact ((registrar scans).lastWins registrations).named hi
  | none =>
    obtain ⟨huri, hother, hfault⟩ := lookup_unregistered scans hi
    cases hread : DataUri.read name with
    | error fault =>
      rw [hfault fault hread] at h
      cases h
    | ok data =>
      cases data with
      | none =>
        rw [hother hread] at h
        cases h
      | some uri =>
        rw [huri uri hread] at h
        exact Image.name_decode h

end ImageRegistry

/-- What is recorded of an element names the font or the image that the element was measured with. -/
inductive Names (scans : Jpeg.Decoder) (fonts : FontRegistry) (images : ImageRegistry) :
    Drawn → Element → Prop where
  | word {f : SizedFont} {text : String} {size : Size} {color : Color} {position place : Point}
    (hf : fonts.get? f.name = some f) (hm : f.measure text = .ok size) : Names scans fonts images
      (.text text place size (some f.name) (some color)) ⟨.word text ⟨f.toFont, color⟩, size, position⟩
  | image {image : Image} {tint : Color} {position place : Point}
    (hi : images.lookup scans image.name = .ok image) : Names scans fonts images
      (.image image.name tint place image.size) ⟨.image image tint, image.size, position⟩

namespace Compiler

def withRegistries (c : Compiler) (scans : Jpeg.Decoder) (fonts : FontRegistry) (images : ImageRegistry) :
    Compiler :=
  { c with fonts := fonts.resolve, images := images.resolve scans }

variable {c : Compiler} {fonts : FontRegistry} {images : ImageRegistry}

theorem exists_related {α β : Type} {R : α → β → Prop} {as : List α} {bs : List β}
    (h : List.Forall₂ R as bs) {b : β} (hb : b ∈ bs) : ∃ a, R a b := by
  induction h with
  | nil => cases hb
  | cons hr _ ih =>
    rcases List.mem_cons.mp hb with rfl | hb
    · exact ⟨_, hr⟩
    · exact ih hb

theorem exists_depicts {markup : String} {maxWidth : Length} {out : Compiled}
    (ho : c.compile markup maxWidth = .ok out) {e : Element} (he : e ∈ out.elements) :
    ∃ shown, c.Depicts shown e.content := by
  cases hn : Markup.parseFragment markup with
  | error fault =>
    rw [compile_of_fault hn] at ho
    cases ho
  | ok nodes =>
    rw [compile_of_parse hn] at ho
    obtain ⟨k, hk, ho⟩ := bind_eq_ok ho
    cases ho
    have hall := depicts_all (settled_of_layout hk) (firstOffence_of_layout hk)
    have hcontent : e.content ∈ k.elements.map Element.content := List.mem_map_of_mem he
    rw [layout_content hk] at hcontent
    exact exists_related hall hcontent

/-- A handle that carries its name is found again by the name that is recorded of it. -/
theorem names_of_depicts (hfonts : ∀ {name f}, fonts.get? name = some f → f.name = name)
    (himages : ∀ {name image}, images.lookup scans name = .ok image → image.name = name) {shown : Shown}
    {e : Element} (h : (c.withRegistries scans fonts images).Depicts shown e.content) (offset : Point) :
    Names scans fonts images (e.drawn offset) e := by
  obtain ⟨body, size, position⟩ := e
  generalize hcontent : (Element.mk body size position).content = content at h
  cases h with
  | word hf hr hc hp hm =>
    obtain ⟨rfl, rfl⟩ := Prod.mk.inj hcontent
    obtain ⟨f, hget, rfl⟩ := FontRegistry.resolve_eq_ok.mp hr
    rw [← hfonts hget] at hget
    exact .word hget hm
  | image hs hr hc =>
    obtain ⟨rfl, rfl⟩ := Prod.mk.inj hcontent
    have hlookup := mapError_eq_ok.mp hr
    rw [← himages hlookup] at hlookup
    exact .image hlookup
  | tinted hs hr hc hp =>
    obtain ⟨rfl, rfl⟩ := Prod.mk.inj hcontent
    have hlookup := mapError_eq_ok.mp hr
    rw [← himages hlookup] at hlookup
    exact .image hlookup

theorem drawn_names (hfonts : ∀ {name f}, fonts.get? name = some f → f.name = name)
    (himages : ∀ {name image}, images.lookup scans name = .ok image → image.name = name) {markup : String}
    {maxWidth : Length} {out : Compiled}
    (ho : (c.withRegistries scans fonts images).compile markup maxWidth = .ok out) (offset : Point) :
    List.Forall₂ (Names scans fonts images) (Graphics.replay {} (out.draw ({} : Canvas) offset).commands)
      out.elements := by
  have hdrawn : Graphics.replay {} (out.draw ({} : Canvas) offset).commands = out.elements.map (·.drawn offset) :=
    (Canvas.run_replay [.draw out offset]).trans (List.append_nil _)
  rw [hdrawn, List.forall₂_map_left_iff, List.forall₂_same]
  intro e he
  obtain ⟨shown, hshown⟩ := exists_depicts ho he
  exact names_of_depicts hfonts himages hshown offset

end Compiler

/-- Registries hold under each name the handle that was registered last, named so, however many registrations
failed. A font in another size stays what its base was. A name that was recorded when elements were drawn is
that of the handle they were measured with. How the scans of an image are decoded has no part in it. -/
theorem registered_handles (c : Compiler) (scans : Jpeg.Decoder) (fontsMade : List FontRegistry.Registration)
    (imagesMade : List ImageRegistry.Registration) :
    let fonts := FontRegistry.registrar.run fontsMade
    let images := (ImageRegistry.registrar scans).run imagesMade
    FontRegistry.registrar.LastWins fonts.get? fonts.size fontsMade ∧
    (∀ name, fonts.resolve name =
      (fonts.get? name).elim (.error (.unregisteredFont name)) fun f => .ok f.toFont) ∧
    (∀ base name size f more, fonts.get? base = some f →
      ∃ g newer, g.name = name ∧ g.size = size ∧ g.data = f.data ∧ g.face = f.face ∧
        FontRegistry.registrar.history (fontsMade ++ .resized base name size :: more) =
          newer ++ (name, g) :: FontRegistry.registrar.history fontsMade ∧
        ((∀ write ∈ newer, write.1 ≠ name) →
          (FontRegistry.registrar.run (fontsMade ++ .resized base name size :: more)).get? name = some g)) ∧
    (ImageRegistry.registrar scans).LastWins (images.images[·]?) images.size imagesMade ∧
    (∀ name image, images.images[name]? = some image → images.lookup scans name = .ok image) ∧
    (∀ name, images.images[name]? = none →
      (∀ uri, DataUri.read name = .ok (some uri) →
        images.lookup scans name = Image.decode scans name uri.data (some uri.mime)) ∧
      (DataUri.read name = .ok none → images.lookup scans name = .error (.unregisteredImage name)) ∧
      ∀ fault, DataUri.read name = .error fault → images.lookup scans name = .error fault) ∧
    (∀ name image, images.lookup scans name = .ok image → image.name = name) ∧
    ∀ markup maxWidth out offset, (c.withRegistries scans fonts images).compile markup maxWidth = .ok out →
      List.Forall₂ (Names scans fonts images) (Graphics.replay {} (out.draw ({} : Canvas) offset).commands)
        out.elements := by
  intro fonts images
  have hfonts := FontRegistry.lastWins fontsMade
  have himages := (ImageRegistry.registrar scans).lastWins imagesMade
  refine ⟨hfonts, fonts.resolve_eq, ?_, himages, fun _ _ => ImageRegistry.lookup_registered,
    fun _ => ImageRegistry.lookup_unregistered scans, fun _ _ => ImageRegistry.name_lookup, ?_⟩
  · intro base name size f more hf
    obtain ⟨newer, hnewer⟩ := FontRegistry.history_resized hf name size more
    exact ⟨f.withSize name size, newer, rfl, rfl, rfl, rfl, hnewer, FontRegistry.get?_of_history hnewer⟩
  · intro markup maxWidth out offset ho
    exact Compiler.drawn_names hfonts.named ImageRegistry.name_lookup ho offset

/-- A font is replaced by another size of itself, and then by nothing, as there is no such base. -/
def wideSizes : List FontRegistry.Registration :=
  [.fromData "wide" SizedFont.wideData (.ofPoints 1), .resized "wide" "wide" (.ofPoints 2),
    .resized "narrow" "wide" (.ofPoints 3)]

def wideMarkup : String := "<text font=\"wide\" color=\"000000\">a</text>"

def wideNodes : List Markup.Node :=
  [.element "text" [("font", "wide"), ("color", "000000")] [.text "a"]]

theorem firstOffence_wide {c : Compiler} {font : Font} (hf : c.fonts "wide" = .ok font)
    (hm : ∀ text, text.length ≤ 1 → ∃ size, font.measure text = .ok size) :
    c.firstOffence [] (sitesOfAll [] wideNodes) = none := by
  have hmeasure : ∀ text, text.length ≤ 1 → failure? (Format.measure ⟨font, .black⟩ text) = none := by
    intro text htext
    obtain ⟨size, hsize⟩ := hm text htext
    exact failure?_eq_none.mpr ⟨size, Format.measure_eq_ok.mpr hsize⟩
  have hformat : c.formatIn [⟨"text", [("font", "wide"), ("color", "000000")]⟩] = some ⟨font, .black⟩ :=
    Compiler.formatIn_eq_some.mpr ⟨⟨"wide", rfl, hf⟩, "000000", rfl, rfl⟩
  have hsize : c.sizeOffence [⟨"text", [("font", "wide"), ("color", "000000")]⟩] ["a"] = none := by
    rw [Compiler.sizeOffence, hformat, Option.bind_some, List.findSome?_eq_none_iff]
    refine List.forall_mem_cons.mpr ⟨hmeasure " " (by decide), ?_⟩
    exact List.forall_mem_singleton.mpr (hmeasure "a" (by decide))
  have hfont : failure? (resolveBy .font c.fonts "wide") = none := by
    rw [resolveBy, hf]
    rfl
  change ((failure? (resolveBy .font c.fonts "wide")).or none).or
    ((c.sizeOffence [⟨"text", [("font", "wide"), ("color", "000000")]⟩] ["a"]).or none) = none
  rw [hfont, hsize]
  rfl

/-- The fonts are a variable, so that Lean does not read the data of a font to lay out with it. -/
theorem layout_wide {fonts : FontRegistry} {font : Font} (hf : fonts.resolve "wide" = .ok font)
    (hm : ∀ text, text.length ≤ 1 → ∃ size, font.measure text = .ok size) :
    ∃ k, (Compiler.monospaced.withRegistries scans fonts {}).layout wideNodes (.ofPoints 20) = .ok k :=
  Compiler.exists_layout (firstOffence_wide hf hm) _

theorem registered_handles_wide : ∃ f, SizedFont.ofData "wide" SizedFont.wideData (.ofPoints 1) = .ok f ∧
    let scans : Jpeg.Decoder := fun _ => none
    let fonts := FontRegistry.registrar.run wideSizes
    fonts.get? "wide" = some (f.withSize "wide" (.ofPoints 2)) ∧ fonts.size = 1 ∧
    ∃ out, (Compiler.monospaced.withRegistries scans fonts {}).compile wideMarkup (.ofPoints 20) = .ok out ∧
      List.Forall₂ (Names scans fonts {}) (Graphics.replay {} (out.draw ({} : Canvas) ⟨0, 0⟩).commands)
        out.elements := by
  obtain ⟨f, hf, -⟩ := SizedFont.wide_font (.ofPoints 1)
  have hhistory : FontRegistry.registrar.history wideSizes =
      [("wide", f.withSize "wide" (.ofPoints 2)), ("wide", f)] := by
    have hfirst : FontRegistry.registrar.handle [] (.fromData "wide" SizedFont.wideData (.ofPoints 1)) = .ok f := hf
    rw [wideSizes, Registrar.history, List.foldl_cons, List.foldl_cons, List.foldl_cons, List.foldl_nil, hfirst]
    rfl
  obtain ⟨hfonts, hresolve, -, -, -, -, -, hnames⟩ :=
    registered_handles Compiler.monospaced (fun _ => none) wideSizes []
  have hget : (FontRegistry.registrar.run wideSizes).get? "wide" = some (f.withSize "wide" (.ofPoints 2)) := by
    rw [hfonts.found, hhistory]
    rfl
  have hsize : (FontRegistry.registrar.run wideSizes).size = 1 := by
    rw [hfonts.counted, hhistory]
    rfl
  have hn : Markup.parseFragment wideMarkup = .ok wideNodes := by cbv
  have hfound : (FontRegistry.registrar.run wideSizes).resolve "wide" =
      .ok (f.withSize "wide" (.ofPoints 2)).toFont := by
    rw [hresolve, hget]
    rfl
  have hmeasured : ∀ text, text.length ≤ 1 →
      ∃ size, (f.withSize "wide" (.ofPoints 2)).toFont.measure text = .ok size := by
    intro text htext
    have hle := (f.withSize "wide" (.ofPoints 2)).totalAdvance_le text
    exact ⟨_, SizedFont.measure_of_fits (by omega)⟩
  obtain ⟨k, hk⟩ := layout_wide hfound hmeasured
  have ho := Compiler.compile_of_layout hn hk
  exact ⟨f, hf, hget, hsize, _, ho, hnames _ _ _ ⟨0, 0⟩ ho⟩

end Galley
