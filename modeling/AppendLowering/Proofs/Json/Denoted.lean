import AppendLowering.Proofs.Json.RoundTrip

/-!
# The values that texts denote

Whatever is read from a text can be written again: its numbers are finite, whole ones have 64
bits, no object has a field twice, and the nesting is limited.
-/

namespace AppendLowering.Json

variable {json : Json} {items : List Json} {fields : List (String × Json)} {room : Nat}

theorem itemsDepth_le_iff {bound : Nat} :
    itemsDepth items ≤ bound ↔ ∀ item ∈ items, item.depth ≤ bound := by
  induction items with
  | nil => simp [itemsDepth]
  | cons item rest ih => simp [itemsDepth, ih]

theorem fieldsDepth_le_iff {bound : Nat} :
    fieldsDepth fields ≤ bound ↔ ∀ field ∈ fields, field.2.depth ≤ bound := by
  induction fields with
  | nil => simp [fieldsDepth]
  | cons field rest ih => simp [fieldsDepth, ih]

/-- The value can be written and is not nested more deeply than `room`. -/
def Fits (room : Nat) (json : Json) : Prop := json.Writable ∧ json.depth ≤ room

theorem fits_array (h : ∀ item ∈ items, item.Fits room) :
    (Json.array items).Fits (room + 1) :=
  ⟨.array fun item hitem => (h item hitem).1,
    Nat.succ_le_succ (itemsDepth_le_iff.mpr fun item hitem => (h item hitem).2)⟩

theorem fits_object (hnames : (fields.map Prod.fst).Nodup)
    (h : ∀ field ∈ fields, field.2.Fits room) : (Json.object fields).Fits (room + 1) :=
  ⟨.object hnames fun field hfield => (h field hfield).1,
    Nat.succ_le_succ (fieldsDepth_le_iff.mpr fun field hfield => (h field hfield).2)⟩

theorem Fits.mono {bound : Nat} (h : json.Fits room) (hle : room ≤ bound) : json.Fits bound :=
  ⟨h.1, h.2.trans hle⟩

theorem fits_string (text : String) : (Json.string text).Fits room := ⟨.string text, Nat.zero_le _⟩

theorem Fits.array_items (h : (Json.array items).Fits room) :
    ∃ inner, room = inner + 1 ∧ ∀ item ∈ items, item.Fits inner := by
  obtain ⟨hwritable, hdepth⟩ := h
  cases hwritable with
  | array hitems =>
      rw [depth] at hdepth
      refine ⟨room - 1, by omega, fun item hitem => ⟨hitems item hitem, ?_⟩⟩
      exact itemsDepth_le_iff.mp (by omega) item hitem

theorem Fits.object_fields (h : (Json.object fields).Fits room) :
    ∃ inner, room = inner + 1 ∧ ∀ field ∈ fields, field.2.Fits inner := by
  obtain ⟨hwritable, hdepth⟩ := h
  cases hwritable with
  | object _ hfields =>
      rw [depth] at hdepth
      refine ⟨room - 1, by omega, fun field hfield => ⟨hfields field hfield, ?_⟩⟩
      exact fieldsDepth_le_iff.mp (by omega) field hfield

theorem writable_of_ofWord? {word : List Char} (h : ofWord? word = some json) :
    json.Writable ∧ json.depth = 0 := by
  unfold ofWord? at h
  split at h
  · cases h
    exact ⟨.null, rfl⟩
  split at h
  · cases h
    exact ⟨.bool true, rfl⟩
  split at h
  · cases h
    exact ⟨.bool false, rfl⟩
  obtain ⟨parts, -, hvalue⟩ := Option.bind_eq_some_iff.mp h
  unfold NumberParts.value? at hvalue
  split at hvalue
  next hparts =>
    cases hvalue
    have := hparts.2.2
    simp only [Nat.pow_eq] at this
    exact ⟨.int ⟨by omega, by omega⟩, rfl⟩
  split at hvalue
  next hparts =>
    cases hvalue
    have := hparts.2.2.2
    simp only [Nat.pow_eq] at this
    exact ⟨.int ⟨by omega, by omega⟩, rfl⟩
  simp only at hvalue
  split at hvalue
  next hfinite =>
    cases hvalue
    exact ⟨.float hfinite, rfl⟩
  · cases hvalue

/-! ### What a reader holds -/

/-- The contents of an unfinished array or object fit into `room`. -/
def Frame.Fits (room : Nat) : Frame → Prop
  | .items done => ∀ item ∈ done, item.Fits room
  | .fields done _ => (done.map Prod.fst).Nodup ∧ ∀ field ∈ done, field.2.Fits room

namespace Builder

/-- The contents of every frame fit into the room that the frames around it leave. -/
def FramesFit : List Frame → Prop
  | [] => True
  | frame :: outer =>
      (∃ room, outer.length + 1 + room = depthLimit ∧ frame.Fits room) ∧ FramesFit outer

/-- What has been read can be written. -/
structure Sound (b : Builder) : Prop where
  frames : FramesFit b.frames
  value : ∀ value, b.expect = .separator value →
    value.Writable ∧ b.frames.length + value.depth ≤ depthLimit

variable {b b' : Builder} {frames : List Frame} {frame : Frame} {token : Token}

theorem Sound.of_frames {expect : Expect} (h : FramesFit frames)
    (hexpect : ∀ value, expect ≠ .separator value) : Sound { frames, expect } :=
  ⟨h, fun value hvalue => absurd hvalue (hexpect value)⟩

theorem FramesFit.length_le (h : FramesFit frames) : frames.length ≤ depthLimit := by
  cases frames with
  | nil => exact Nat.zero_le _
  | cons frame outer =>
      obtain ⟨⟨room, hroom, -⟩, -⟩ := h
      rw [List.length_cons]
      omega

theorem sound_enter {expect : Expect} (h : FramesFit frames) (hframe : ∀ room, frame.Fits room)
    (hexpect : ∀ value, expect ≠ .separator value) (henter : enter frames frame expect = some b') :
    b'.Sound := by
  unfold enter at henter
  split at henter
  next hlt =>
    cases henter
    exact .of_frames ⟨⟨depthLimit - (frames.length + 1), by omega, hframe _⟩, h⟩ hexpect
  · cases henter

theorem sound_beginValue (h : FramesFit frames) (hbegin : beginValue frames token = some b') :
    b'.Sound := by
  cases token with
  | openArray => exact sound_enter h (fun _ => by simp [Frame.Fits]) (by simp) hbegin
  | openObject => exact sound_enter h (fun _ => by simp [Frame.Fits]) (by simp) hbegin
  | text value =>
      cases hbegin
      refine ⟨h, fun _ hvalue => ?_⟩
      cases hvalue
      exact ⟨.string value, h.length_le⟩
  | word letters =>
      obtain ⟨value, hword, rfl⟩ := Option.map_eq_some_iff.mp hbegin
      refine ⟨h, fun _ hvalue => ?_⟩
      cases hvalue
      obtain ⟨hwritable, hdepth⟩ := writable_of_ofWord? hword
      exact ⟨hwritable, by simpa [hdepth] using h.length_le⟩
  | _ => cases hbegin

theorem sound_beginField (h : FramesFit frames) (hbegin : beginField frames token = some b') :
    b'.Sound := by
  unfold beginField at hbegin
  split at hbegin
  · cases hbegin
    exact .of_frames h (by simp)
  · cases hbegin

theorem fits_setField {done : List (String × Json)} {last : String} {value : Json}
    (name : String) (h : (Frame.fields done last).Fits room) (hvalue : value.Fits room) :
    (Frame.fields (setField done name value) last).Fits room := by
  obtain ⟨hnames, hfits⟩ := h
  unfold setField
  split
  case isTrue =>
    have hsame : (done.map fun field => if field.1 == name then (name, value) else field).map
        Prod.fst = done.map Prod.fst := by
      rw [List.map_map]
      refine List.map_congr_left fun field _ => ?_
      by_cases hname : field.1 = name <;> simp [hname]
    refine ⟨by rwa [hsame], ?_⟩
    intro field hfield
    obtain ⟨old, hold, rfl⟩ := List.mem_map.mp hfield
    split
    · exact hvalue
    · exact hfits old hold
  case isFalse hnew =>
    refine ⟨?_, ?_⟩
    · rw [List.map_append, List.nodup_append]
      refine ⟨hnames, by simp, ?_⟩
      rintro other hother _ hmem rfl
      simp only [List.map_cons, List.map_nil, List.mem_singleton] at hmem
      subst hmem
      exact hnew (by simpa using hother)
    · rw [List.forall_mem_append]
      exact ⟨hfits, by simpa using hvalue⟩

/-- An array or object that ends takes the place of its frame. -/
theorem sound_close {outer : List Frame} {value : Json} (houter : FramesFit outer)
    (hroom : outer.length + 1 + room = depthLimit) (hvalue : value.Fits (room + 1)) :
    Sound { frames := outer, expect := .separator value } := by
  refine ⟨houter, fun _ hexpect => ?_⟩
  cases hexpect
  have := hvalue.2
  exact ⟨hvalue.1, by simp only; omega⟩

theorem sound_closeEmpty {value : Json} (h : FramesFit frames)
    (hvalue : ∀ room, value.Fits (room + 1)) :
    Sound { frames := frames.drop 1, expect := .separator value } := by
  cases frames with
  | nil => exact sound_close h (Nat.add_sub_cancel' (by decide)) (hvalue _)
  | cons frame outer =>
      obtain ⟨⟨room, hroom, -⟩, houter⟩ := h
      exact sound_close houter hroom (hvalue room)

/-- What follows a value in an array or object. -/
theorem sound_separator {value : Json} (h : FramesFit frames) (hwritable : value.Writable)
    (hdepth : frames.length + value.depth ≤ depthLimit)
    (hstep : step { frames, expect := .separator value } token = some b') : b'.Sound := by
  simp only [step] at hstep
  split at hstep
  all_goals try cases hstep
  all_goals
    obtain ⟨⟨room, hroom, hfits⟩, houter⟩ := h
    have hvalue : value.Fits room := ⟨hwritable, by rw [List.length_cons] at hdepth; omega⟩
  next done outer =>
    exact .of_frames ⟨⟨room, hroom, List.forall_mem_cons.mpr ⟨hvalue, hfits⟩⟩, houter⟩ (by simp)
  next done outer =>
    refine sound_close houter hroom (fits_array fun item hitem => ?_)
    rcases List.mem_cons.mp (List.mem_reverse.mp hitem) with rfl | hdone
    · exact hvalue
    · exact hfits item hdone
  next done name outer =>
    exact .of_frames ⟨⟨room, hroom, fits_setField name hfits hvalue⟩, houter⟩ (by simp)
  next done name outer =>
    obtain ⟨hnames, hfields⟩ := fits_setField name hfits hvalue
    exact sound_close houter hroom (fits_object hnames hfields)

/-- Reading one token keeps what has been read writable. -/
theorem sound_step (h : b.Sound) (hstep : step b token = some b') : b'.Sound := by
  obtain ⟨frames, expect⟩ := b
  cases expect with
  | value => exact sound_beginValue h.frames hstep
  | firstItem =>
      by_cases hclose : token = .closeArray
      · subst hclose
        cases hstep
        exact sound_closeEmpty h.frames fun room => fits_array (by simp)
      · have htakes : Expect.firstItem.TakesValue := trivial
        rw [step_value htakes hclose] at hstep
        exact sound_beginValue h.frames hstep
  | firstName =>
      cases token
      case closeObject =>
        cases hstep
        exact sound_closeEmpty h.frames fun room => fits_object (by simp) (by simp)
      all_goals exact sound_beginField h.frames hstep
  | name => exact sound_beginField h.frames hstep
  | colon =>
      cases token
      case colon =>
        cases hstep
        exact .of_frames h.frames (by simp)
      all_goals cases hstep
  | separator value =>
      obtain ⟨hwritable, hdepth⟩ := h.value value rfl
      exact sound_separator h.frames hwritable hdepth hstep

theorem sound_run {tokens : List Token} (h : b.Sound) (hrun : tokens.foldlM step b = some b') :
    b'.Sound := by
  induction tokens generalizing b with
  | nil =>
      cases hrun
      exact h
  | cons token tokens ih =>
      obtain ⟨next, hstep, hrest⟩ := Option.bind_eq_some_iff.mp hrun
      exact ih (sound_step h hstep) hrest

end Builder

/-- What is read from a text can be written, and is not nested too deeply. -/
theorem fits_of_parse? {text : String} (h : parse? text = some json) :
    json.Fits Builder.depthLimit := by
  obtain ⟨tokens, -, hbuild⟩ := Option.bind_eq_some_iff.mp h
  obtain ⟨b, hrun, hresult⟩ := Option.bind_eq_some_iff.mp hbuild
  have hinitial : Builder.initial.Sound := .of_frames trivial (by simp)
  have hsound := Builder.sound_run hinitial hrun
  unfold Builder.result? at hresult
  split at hresult
  next hframes hexpect =>
    cases hresult
    simpa [Fits, hframes] using hsound.value _ hexpect
  · cases hresult

end AppendLowering.Json
