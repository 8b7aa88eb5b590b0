import Mathlib
import Galley.Proofs.Advances
import Galley.Proofs.Sharing

/-! Replies of shared fonts. Whatever was measured and compiled with the fonts of a registry before, and
whatever else is at the same time, each request has the reply of fonts that were never asked. -/

namespace Galley

namespace FontRegistry

/-- Registries that come about: fonts are registered from data, in another size or from another registry,
and measured alone or shared by any tasks. -/
inductive Reachable : FontRegistry → Prop where
  | empty : Reachable {}
  | registerData {r r' : FontRegistry} {name : String} {data : ByteArray} {size : Length}
      (hr : Reachable r) (h : r.registerData name data size = .ok r') : Reachable r'
  | registerFile {r r' : FontRegistry} {name path : String} {contents : Except String ByteArray} {size : Length}
      (hr : Reachable r) (h : r.registerFile name path contents size = .ok r') : Reachable r'
  | registerSize {r r' : FontRegistry} {base name : String} {size : Length}
      (hr : Reachable r) (h : r.registerSize base name size = .ok r') : Reachable r'
  | register {r other : FontRegistry} {name : String} {f : SizedFont}
      (hr : Reachable r) (ho : Reachable other) (hf : other.get? name = some f) : Reachable (r.register f)
  | measureAll {r r' : FontRegistry} {name : String} {texts : List String} {sizes : Except Overflow (List Size)}
      (hr : Reachable r) (h : r.measureAll name texts = .ok (sizes, r')) : Reachable r'
  | shared {α : Type} {r : FontRegistry} (hr : Reachable r) (inquiries : List (Inquiry α)) (schedule : List Turn) :
      Reachable ((Sharing.start r inquiries).run schedule).fonts

section registered

variable {r r' : FontRegistry} {name : String} {f : SizedFont} {data : ByteArray} {size : Length}

theorem register_eq_put (r : FontRegistry) (f : SizedFont) : r.register f = r.put f.name f := rfl

theorem Sound.ofData_fresh (h : r.Sound) (hf : r.get? name = some f) :
    SizedFont.ofData name f.data f.size = .ok f.fresh := by
  have hname : f.name = name := h.named hf
  rw [← hname]
  exact (h.faithful hf).ofData_fresh

theorem registerData_eq_ok (h : r.registerData name data size = .ok r') :
    ∃ f, SizedFont.ofData name data size = .ok f ∧ r' = r.put name f := by
  obtain ⟨f, hf, h⟩ := bind_eq_ok h
  cases h
  refine ⟨f, hf, ?_⟩
  rw [← (SizedFont.ofData_eq_ok hf).1]
  rfl

theorem registerFile_eq_ok {path : String} {contents : Except String ByteArray}
    (h : r.registerFile name path contents size = .ok r') : ∃ data, r.registerData name data size = .ok r' := by
  cases contents with
  | ok data => exact ⟨data, h⟩
  | error reason => cases h

theorem registerSize_eq_ok {base : String} (h : r.registerSize base name size = .ok r') :
    ∃ f, r.get? base = some f ∧ r' = r.put name (f.withSize name size) := by
  rw [registerSize] at h
  split at h
  · cases h
    exact ⟨_, by assumption, rfl⟩
  · cases h

theorem registerSize_of_get? {base : String} (hf : r.get? base = some f) (name : String) (size : Length) :
    r.registerSize base name size = .ok (r.put name (f.withSize name size)) := by
  rw [registerSize, hf]
  rfl

theorem Sound.registerData (hr : r.Sound) (h : r.registerData name data size = .ok r') : r'.Sound := by
  obtain ⟨f, hf, rfl⟩ := registerData_eq_ok h
  obtain ⟨hname, hfont⟩ := SizedFont.ofData_eq_ok hf
  exact hr.put hfont hname

theorem Reachable.sound (h : r.Reachable) : r.Sound := by
  induction h with
  | empty => exact sound_empty
  | registerData hr h ih => exact ih.registerData h
  | registerFile hr h ih =>
    obtain ⟨data, h⟩ := registerFile_eq_ok h
    exact ih.registerData h
  | registerSize hr h ih =>
    obtain ⟨f, hf, rfl⟩ := registerSize_eq_ok h
    exact ih.put ((ih.faithful hf).withSize _ _) rfl
  | register hr ho hf ih iho => exact ih.put (iho.faithful hf) rfl
  | @measureAll r r' name texts sizes hr h ih =>
    obtain ⟨f, hf, -⟩ := bind_eq_ok h
    obtain ⟨r'', hall, hsound, -⟩ := measureAll_sound ih (find_eq_ok.mp hf) texts
    rw [hall] at h
    cases h
    exact hsound
  | shared hr inquiries schedule ih =>
    exact (Sharing.run_follows (Sharing.sound_start ih inquiries) schedule).sound.fonts

end registered

end FontRegistry

/-- What is asked of fonts that are shared. -/
inductive Request where
  | measure (font text : String)
  | compile (c : Compiler) (markup : String) (maxWidth : Length)

inductive Reply where
  | size (size : Size)
  | compiled (compiled : Compiled)

/-- A compiler that finds its fonts in a registry. -/
def Compiler.withFonts (c : Compiler) (r : FontRegistry) : Compiler := { c with fonts := r.resolve }

namespace Request

def inquiry (r : FontRegistry) : Request → Inquiry Reply
  | measure name text => do
    let font ← .answer (resolveBy .font r.resolve name)
    return .size (← Inquiry.sizeIn font.name text)
  | compile c markup maxWidth => do return .compiled (← Inquiry.compile (c.withFonts r) markup maxWidth)

def sized : Except Overflow Size → Except Failure Reply
  | .ok size => .ok (.size size)
  | .error _ => .error .overflow

/-- The reply of fonts that do not remember anything. -/
def reply (r : FontRegistry) : Request → Except Failure Reply
  | measure name text => do sized ((← resolveBy .font r.resolve name).measure text)
  | compile c markup maxWidth => do return .compiled (← (c.withFonts r).compile markup maxWidth)

variable {r r' : FontRegistry} {name : String} {f : SizedFont}

theorem measures_of_sound (h : r.Sound) (c : Compiler) :
    Inquiry.Measures r.sizeOf (c.withFonts r) := by
  intro name font hfont text
  obtain ⟨f, hf, rfl⟩ := FontRegistry.resolve_eq_ok.mp hfont
  exact h.sizeOf_toFont hf text

theorem run_inquiry (h : r.Sound) (request : Request) :
    (request.inquiry r).run r.sizeOf = request.reply r := by
  cases request with
  | measure name text =>
    rw [inquiry, reply, Inquiry.run_bind]
    refine bind_congr_of_ok fun font hfont => ?_
    obtain ⟨f, hf, rfl⟩ := FontRegistry.resolve_eq_ok.mp (mapError_eq_ok.mp hfont)
    rw [Inquiry.run_bind, Inquiry.sizeIn, Inquiry.run, h.sizeOf_toFont hf text]
    cases f.toFont.measure text <;> rfl
  | compile c markup maxWidth =>
    rw [inquiry, reply, Inquiry.run_bind, Inquiry.run_compile (measures_of_sound h c)]
    rfl

theorem reply_of_agrees (h : r.Agrees r') (request : Request) : request.reply r' = request.reply r := by
  cases request with
  | measure name text => rw [reply, reply, h.resolve]
  | compile c markup maxWidth => rw [reply, reply, Compiler.withFonts, Compiler.withFonts, h.resolve]

theorem resolveBy_of_get? (hf : r.get? name = some f) : resolveBy .font r.resolve name = .ok f.toFont :=
  mapError_eq_ok.mpr (FontRegistry.resolve_eq_ok.mpr ⟨f, hf, rfl⟩)

theorem reply_measure (hf : r.get? name = some f) (text : String) :
    (measure name text).reply r = sized (f.measure text) := by
  rw [reply, resolveBy_of_get? hf]
  rfl

theorem questions_measure (hf : r.get? name = some f) (text : String) :
    ((measure name text).inquiry r).questions r.sizeOf = 1 := by
  rw [inquiry, resolveBy_of_get? hf]
  change (Inquiry.measure f.toFont.name text fun size => .answer (.ok (Reply.size size))).questions r.sizeOf = 1
  rw [Inquiry.questions]
  split <;> rfl

theorem answer?_of_request (h : r.Sound) {requests : List Request} {i : Nat} {request : Request}
    (hi : requests[i]? = some request) (schedule : List Turn) :
    let after := (Sharing.start r (requests.map (·.inquiry r))).run schedule
    (∀ reply, after.answer? i = some reply → reply = request.reply r) ∧
    (2 * (request.inquiry r).questions r.sizeOf ≤ Sharing.turns schedule i →
      after.answer? i = some (request.reply r)) := by
  have hinquiry : (requests.map (·.inquiry r))[i]? = some (request.inquiry r) := by
    rw [List.getElem?_map, hi, Option.map_some]
  rw [← run_inquiry h request]
  exact Sharing.answer?_run h hinquiry schedule

theorem compileAll_cons_of_overflow {c : Compiler} {job : String × Length}
    (h : c.compile job.1 job.2 = .error .overflow) (jobs : List (String × Length)) :
    c.compileAll (job :: jobs) = .error {} := by
  rw [Compiler.compileAll, List.mapM_cons, h]
  rfl

theorem compileAll_cons_of_returns {c : Compiler} {job : String × Length}
    (h : c.compile job.1 job.2 ≠ .error .overflow) (jobs : List (String × Length)) :
    c.compileAll (job :: jobs) = (c.compile job.1 job.2 :: ·) <$> c.compileAll jobs := by
  rw [Compiler.compileAll, List.mapM_cons]
  split
  · contradiction
  · rw [map_eq_pure_bind]
    rfl

theorem compileAll_of_overflow {c : Compiler} {jobs : List (String × Length)} {job : String × Length}
    (hj : job ∈ jobs) (h : c.compile job.1 job.2 = .error .overflow) : c.compileAll jobs = .error {} := by
  induction jobs with
  | nil => cases hj
  | cons first rest ih =>
    by_cases hfirst : c.compile first.1 first.2 = .error .overflow
    · exact compileAll_cons_of_overflow hfirst rest
    · have hrest : job ∈ rest := by
        rcases List.mem_cons.mp hj with rfl | hj
        · exact absurd h hfirst
        · exact hj
      rw [compileAll_cons_of_returns hfirst, ih hrest]
      rfl

theorem compileAll_of_returns {c : Compiler} {jobs : List (String × Length)}
    (h : ∀ job ∈ jobs, c.compile job.1 job.2 ≠ .error .overflow) :
    c.compileAll jobs = .ok (jobs.map fun job => c.compile job.1 job.2) := by
  induction jobs with
  | nil => rfl
  | cons first rest ih =>
    obtain ⟨hfirst, hrest⟩ := List.forall_mem_cons.mp h
    rw [compileAll_cons_of_returns hfirst, ih hrest]
    rfl

theorem reply_compile_eq_overflow {c : Compiler} {markup : String} {maxWidth : Length} :
    (compile c markup maxWidth).reply r = .error .overflow ↔
      (c.withFonts r).compile markup maxWidth = .error .overflow := by
  rw [reply, ← failure?_eq_some, failure?_map, failure?_eq_some]

/-- However tasks share the fonts of a registry, each that is done has the reply of fonts that remember nothing,
and it is done when it has had two turns for each of its questions. Later requests have the same replies. A text
that overflows has no size in any font of its data and size, and one such text leaves all jobs that are compiled
together without a result. -/
theorem replies_of_any_schedule {r : FontRegistry} (hr : r.Reachable) (requests : List Request)
    (schedule : List Turn) :
    let after := (Sharing.start r (requests.map (·.inquiry r))).run schedule
    after.fonts.Reachable ∧
    (∀ i request, requests[i]? = some request →
      (∀ reply, after.answer? i = some reply → reply = request.reply r) ∧
      (2 * (request.inquiry r).questions r.sizeOf ≤ Sharing.turns schedule i →
        after.answer? i = some (request.reply r))) ∧
    (∀ request : Request, request.reply after.fonts = request.reply r) ∧
    (∀ name f, r.get? name = some f → ∃ fresh, SizedFont.ofData name f.data f.size = .ok fresh ∧
      (∀ text, (measure name text).reply r = sized (fresh.measure text)) ∧
      ∀ texts, ∃ r', r.measureAll name texts = .ok (texts.mapM fresh.measure, r') ∧ r'.Reachable ∧
        ∀ request : Request, request.reply r' = request.reply r) ∧
    (∀ base f name size, r.get? base = some f → ∃ r' fresh, r.registerSize base name size = .ok r' ∧
      r'.Reachable ∧ SizedFont.ofData name f.data size = .ok fresh ∧
      ∀ text, (measure name text).reply r' = sized (fresh.measure text)) ∧
    ∀ (c : Compiler) (jobs : List (String × Length)),
      (c.withFonts after.fonts).compileAll jobs = (c.withFonts r).compileAll jobs ∧
      ((∃ job ∈ jobs, (compile c job.1 job.2).reply r = .error .overflow) →
        (c.withFonts r).compileAll jobs = .error {}) ∧
      ((∀ job ∈ jobs, (compile c job.1 job.2).reply r ≠ .error .overflow) →
        ∃ results, (c.withFonts r).compileAll jobs = .ok results ∧
          jobs.map (fun job => (compile c job.1 job.2).reply r) =
            results.map fun result => do return .compiled (← result)) := by
  intro after
  have hsound := hr.sound
  have hfollows := Sharing.run_follows (Sharing.sound_start hsound (requests.map (·.inquiry r))) schedule
  refine ⟨hr.shared _ schedule, fun i request hi => answer?_of_request hsound hi schedule,
    reply_of_agrees hfollows.agrees, ?_, ?_, ?_⟩
  · intro name f hf
    have hreply := reply_measure hf
    refine ⟨f.fresh, hsound.ofData_fresh hf, hreply, fun texts => ?_⟩
    obtain ⟨r', hall, -, hagrees⟩ := FontRegistry.measureAll_sound hsound hf texts
    exact ⟨r', hall, hr.measureAll hall, reply_of_agrees hagrees⟩
  · intro base f name size hf
    have hregister := FontRegistry.registerSize_of_get? hf name size
    have hreach := hr.registerSize hregister
    have hget := r.get?_put_self name (f.withSize name size)
    have hreply := reply_measure hget
    exact ⟨_, _, hregister, hreach, hreach.sound.ofData_fresh hget, hreply⟩
  · intro c jobs
    have hresolve := hfollows.agrees.resolve
    refine ⟨?_, ?_, fun h => ?_⟩
    · rw [Compiler.withFonts, Compiler.withFonts, ← hresolve]
      rfl
    · rintro ⟨job, hj, hoverflow⟩
      exact compileAll_of_overflow hj (reply_compile_eq_overflow.mp hoverflow)
    · refine ⟨_, compileAll_of_returns fun job hj => mt reply_compile_eq_overflow.mpr (h job hj), ?_⟩
      rw [List.map_map]
      rfl

/-- Two tasks look for a width before either has it remembered, and the text of a third one overflows. -/
theorem replies_of_any_schedule_wide : ∃ r f size,
    ({} : FontRegistry).registerData "wide" SizedFont.wideData (.ofPoints 1) = .ok r ∧ r.Reachable ∧
    r.get? "wide" = some f ∧ f.measure "a" = .ok size ∧ size.width = .ofMillis 65535 ∧
    let requests := [measure "wide" "a", measure "wide" "a", measure "wide" (SizedFont.letters 32769)]
    let after := (Sharing.start r (requests.map (·.inquiry r))).run
      [⟨0, true⟩, ⟨1, true⟩, ⟨2, true⟩, ⟨0, true⟩, ⟨1, true⟩, ⟨2, true⟩]
    after.answer? 0 = some (.ok (.size size)) ∧ after.answer? 1 = some (.ok (.size size)) ∧
    after.answer? 2 = some (.error .overflow) := by
  obtain ⟨f, hf, hsize, hunits, hadvance⟩ := SizedFont.wide_font (.ofPoints 1)
  have hregister : ({} : FontRegistry).registerData "wide" SizedFont.wideData (.ofPoints 1) =
      .ok (({} : FontRegistry).register f) := by
    rw [FontRegistry.registerData, hf]
    rfl
  have hr := FontRegistry.Reachable.empty.registerData hregister
  have hname : f.name = "wide" := (SizedFont.ofData_eq_ok hf).1
  have hget : (({} : FontRegistry).register f).get? "wide" = some f := by
    rw [FontRegistry.register_eq_put, hname, FontRegistry.get?_put_self]
  have hshort : f.totalAdvance "a" = 65535 := SizedFont.totalAdvance_of_constant hadvance "a"
  have hlong : ¬ f.totalAdvance (SizedFont.letters 32769) < 2147483648 := by
    rw [SizedFont.totalAdvance_of_constant hadvance, SizedFont.length_letters]
    decide
  have hmeasure := SizedFont.measure_of_fits (show f.totalAdvance "a" < 2147483648 by rw [hshort]; decide)
  have hwidth : roundAway (f.exactWidth "a") = 65535 := by
    rw [SizedFont.exactWidth, hshort, hunits, hsize, show (Length.ofPoints 1).millis = 1000 by decide, roundAway]
    norm_num
  have hserved := (replies_of_any_schedule hr
    [measure "wide" "a", measure "wide" "a", measure "wide" (SizedFont.letters 32769)]
    [⟨0, true⟩, ⟨1, true⟩, ⟨2, true⟩, ⟨0, true⟩, ⟨1, true⟩, ⟨2, true⟩]).2.1
  have hfirst := (hserved 0 _ rfl).2 (by rw [questions_measure hget]; decide)
  have hsecond := (hserved 1 _ rfl).2 (by rw [questions_measure hget]; decide)
  have hthird := (hserved 2 _ rfl).2 (by rw [questions_measure hget]; decide)
  rw [reply_measure hget, hmeasure] at hfirst hsecond
  rw [reply_measure hget, SizedFont.measure_eq, if_neg hlong] at hthird
  exact ⟨_, f, _, hregister, hr, hget, hmeasure, congrArg Length.ofMillis hwidth, hfirst, hsecond, hthird⟩

end Request

end Galley
