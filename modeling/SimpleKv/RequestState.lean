import SimpleKv.RequestSyntax

/- The decoder between its calls. Inside a request it commits what it has read element by
   element, while the bytes stay in the buffer until the request is complete; so what is
   committed is what the grammar reads off the bytes before the cursor (`Progress`). Each
   exit of `decode_next` leaves it so, the errors included. Over a whole run no byte is lost
   or read twice, and `validate_eof`, which looks at the buffer alone, tells whether the
   bytes ended between two requests. -/
namespace SimpleKv
open Incremental Outcome Request

namespace RequestDecoder

/-- Before the cursor there are a header line for `n` elements and the elements taken over. -/
structure Committed (decoder : RequestDecoder) (n : Nat) : Prop where
  cursor_pos : 0 < decoder.cursor
  cursor_le : decoder.cursor ≤ decoder.buffer.length
  words : ∃ line items, HeaderLine arrayByte maxArrayLength n line ∧
    Words Item decoder.args items ∧ decoder.buffer.take decoder.cursor = line ++ items

/-- Nothing is committed before the header line is, and afterwards an element is missing. -/
structure Progress (decoder : RequestDecoder) : Prop where
  idle : decoder.expectedArgCount = none → decoder.cursor = 0 ∧ decoder.args = []
  under_way : ∀ n, decoder.expectedArgCount = some n → decoder.args.length < n ∧ decoder.Committed n

/-- What a call leaves. With no request and no error, it has met an item that is unfinished. -/
structure Leaves (out : Except RequestParseError (Option Request) × RequestDecoder) : Prop where
  progress : out.2.Progress
  waiting : out.1 = .ok none → UnfinishedItem out.2.unread

theorem Progress.leaves_error {decoder : RequestDecoder} (h : decoder.Progress)
    (e : RequestParseError) : Leaves (.error e, decoder) :=
  ⟨h, fun heq => by cases heq⟩

theorem Progress.leaves_some {decoder : RequestDecoder} (h : decoder.Progress)
    (request : Request) : Leaves (.ok (some request), decoder) :=
  ⟨h, fun heq => by cases heq⟩

theorem Progress.fresh (buffer : Bytes) (poisoned : Bool) : Progress { buffer, poisoned } where
  idle _ := ⟨rfl, rfl⟩
  under_way n h := by cases h

/-- The bytes up to the rest of what was unread. -/
theorem take_rest {self : RequestDecoder} {w r : Bytes} (h : self.unread = w ++ r) :
    self.buffer.take (self.buffer.length - r.length) = self.buffer.take self.cursor ++ w := by
  have hbuf : self.buffer = (self.buffer.take self.cursor ++ w) ++ r := by
    rw [List.append_assoc, ← h, unread, List.take_append_drop]
  generalize self.buffer.take self.cursor ++ w = q at hbuf ⊢
  rw [hbuf, List.length_append, Nat.add_sub_cancel, List.take_left]

/-! What each step of a call leaves. -/

namespace Committed
variable {self : RequestDecoder} {n : Nat}

theorem progress (h : self.Committed n) (hexp : self.expectedArgCount = some n)
    (hlt : self.args.length < n) : self.Progress where
  idle hnone := by
    rw [hexp] at hnone
    cases hnone
  under_way n' hn' := by
    rw [hexp] at hn'
    cases hn'
    exact ⟨hlt, h⟩

/-- The header line is taken over. -/
theorem start (hidle : self.cursor = 0 ∧ self.args = []) {r : Bytes}
    (h : (header arrayByte maxArrayLength .expectedArray .arrayTooLong).run self.buffer = .done n r) :
    Committed { self with expectedArgCount := some n, cursor := self.buffer.length - r.length } n := by
  obtain ⟨line, hline, hbuf⟩ := (header_parses (by decide)).done_iff.mp h
  have hunread : self.unread = line ++ r := by rw [unread, hidle.1, hbuf, List.drop_zero]
  have htake := take_rest hunread
  rw [hidle.1, List.take_zero, List.nil_append] at htake
  refine ⟨?_, Nat.sub_le _ _, line, [], hline, ?_, ?_⟩
  · have hpos := hline.length_pos
    have hlen := congrArg List.length hbuf
    rw [List.length_append] at hlen
    show 0 < self.buffer.length - r.length
    omega
  · show Words Item self.args []
    rw [hidle.2]
    exact .nil
  · rw [List.append_nil]
    exact htake

/-- One more element is taken over. -/
theorem push (h : self.Committed n) {cstr r : Bytes} (hitem : item.run self.unread = .done cstr r) :
    Committed { self with cursor := self.buffer.length - r.length, args := self.args ++ [cstr] } n := by
  obtain ⟨line, items, hline, hitems, htake⟩ := h.words
  obtain ⟨w, hw, hunread⟩ := item_parses.done_iff.mp hitem
  refine ⟨?_, Nat.sub_le _ _, line, items ++ w, hline, hitems.snoc hw, ?_⟩
  · have hlen := congrArg List.length hunread
    rw [unread, List.length_drop, List.length_append] at hlen
    have hpos := h.cursor_pos
    have hle := h.cursor_le
    show 0 < self.buffer.length - r.length
    omega
  · show self.buffer.take (self.buffer.length - r.length) = _
    rw [take_rest hunread, htake, List.append_assoc]

end Committed

theorem decodeArgs_leaves : ∀ (missing : Nat) (self : RequestDecoder) {n : Nat},
    self.expectedArgCount = some n → self.args.length + missing = n → self.Committed n →
    Yields (fun _ => False) (decodeArgs missing self) Leaves := by
  intro missing
  induction missing with
  | zero =>
    intro self n _ _ h
    rw [decodeArgs, decodeArgsWith, takeRequest, sliceFrom_ok h.cursor_le]
    exact (Progress.fresh _ _).leaves_some _
  | succ missing ih =>
    intro self n hexp hmissing h
    have hprogress := h.progress hexp (by omega)
    rw [decodeArgs, decodeArgsWith, ← decodeArgs, ← parseCstr, parseCstr_eq h.cursor_le]
    cases hitem : item.run self.unread with
    | more => exact ⟨hprogress, fun _ => item_parses.more_iff.mp hitem⟩
    | fail e => exact hprogress.leaves_error e
    | done cstr r =>
      refine ih _ hexp ?_ (h.push hitem)
      show (self.args ++ [cstr]).length + missing = n
      rw [List.length_append, List.length_singleton]
      omega

namespace Progress
variable {self : RequestDecoder}

theorem poison (h : self.Progress) : Progress { self with poisoned := true } where
  idle := h.idle
  under_way n hn := by
    obtain ⟨hlt, hpos, hle, hwords⟩ := h.under_way n hn
    exact ⟨hlt, hpos, hle, hwords⟩

/-- Bytes that arrive. -/
theorem receive (h : self.Progress) (chunk : Bytes) :
    Progress { self with buffer := self.buffer ++ chunk } where
  idle := h.idle
  under_way n hn := by
    obtain ⟨hlt, hpos, hle, line, items, hline, hitems, htake⟩ := h.under_way n hn
    refine ⟨hlt, hpos, ?_, line, items, hline, hitems, ?_⟩
    · rw [List.length_append]
      exact Nat.le_add_right_of_le hle
    · rw [← htake]
      exact List.take_append_of_le_length hle

theorem unread_eq (h : self.Progress) (hexp : self.expectedArgCount = none) :
    self.unread = self.buffer := by
  rw [unread, (h.idle hexp).1, List.drop_zero]

theorem decodeBuffered (h : self.Progress) :
    Yields (fun _ => False) self.decodeBuffered Leaves := by
  unfold RequestDecoder.decodeBuffered decodeBufferedWith
  rw [← decodeArgs, ← parseHeader]
  cases hexp : self.expectedArgCount with
  | some n =>
    obtain ⟨hlt, hcommitted⟩ := h.under_way n hexp
    exact decodeArgs_leaves _ self hexp (Nat.add_sub_of_le (Nat.le_of_lt hlt)) hcommitted
  | none =>
    have hidle := h.idle hexp
    rw [parseHeader_eq]
    cases hheader : (header arrayByte maxArrayLength .expectedArray .arrayTooLong).run self.buffer with
    | more =>
      refine ⟨h, fun _ => .inl ?_⟩
      rw [h.unread_eq hexp]
      exact (header_parses (by decide)).more_iff.mp hheader
    | fail e => exact h.leaves_error e
    | done n r =>
      refine decodeArgs_leaves _ _ rfl ?_ (.start hidle hheader)
      show self.args.length + (n - self.args.length) = n
      rw [hidle.2, List.length_nil]
      omega

theorem decodeNext (h : self.Progress) : Yields (fun _ => False) self.decodeNext Leaves := by
  unfold RequestDecoder.decodeNext decodeNextWith
  by_cases hpoisoned : self.poisoned = true
  · rw [if_pos hpoisoned]
    exact h.leaves_error .poisoned
  · rw [if_neg hpoisoned]
    refine h.decodeBuffered.bind (fun out hout => ?_)
    obtain ⟨result, self'⟩ := out
    cases result with
    | ok request => exact hout
    | error e => exact hout.progress.poison.leaves_error e

/-- What is missing completes the bytes of the buffer. -/
theorem ready (h : self.Progress) (hsound : self.poisoned = false) : self.Ready where
  sound := hsound
  cursor_le := by
    cases hexp : self.expectedArgCount with
    | none =>
      rw [(h.idle hexp).1]
      exact Nat.zero_le _
    | some n => exact (h.under_way n hexp).2.cursor_le
  idle := h.idle
  resumes t := by
    unfold pending unread
    cases hexp : self.expectedArgCount with
    | none =>
      rw [(h.idle hexp).1]
      rfl
    | some n =>
      obtain ⟨hlt, _, _, line, items, hline, hitems, htake⟩ := h.under_way n hexp
      have hbuf : self.buffer ++ t = line ++ (items ++ (self.buffer.drop self.cursor ++ t)) := by
        rw [← List.append_assoc line, ← htake, ← List.append_assoc, List.take_append_drop]
      have helements : (elements [] (self.args.length + (n - self.args.length))).run
          (items ++ (self.buffer.drop self.cursor ++ t)) =
          (elements self.args (n - self.args.length)).run (self.buffer.drop self.cursor ++ t) :=
        item_parses.run_collect hitems _ _ []
      rw [Nat.add_sub_of_le (Nat.le_of_lt hlt)] at helements
      rw [hbuf, frame, Parser.bind_done ((header_parses (by decide)).run_append hline _)]
      exact helements.symm

end Progress

/-! How a call ends. -/

/-- An error and a wait leave the buffer alone, and a request takes its own bytes off it. -/
inductive Exit (self : RequestDecoder) :
    Except RequestParseError (Option Request) → RequestDecoder → Prop where
  | failed {e : RequestParseError} {decoder : RequestDecoder} : decoder.poisoned = true →
      decoder.buffer = self.buffer → Exit self (.error e) decoder
  | waits {decoder : RequestDecoder} : decoder.poisoned = false → decoder.buffer = self.buffer →
      UnfinishedFrame self.buffer → UnfinishedItem decoder.unread → Exit self (.ok none) decoder
  | returns {request : Request} {w : Bytes} {decoder : RequestDecoder} : decoder.poisoned = false →
      Frame request w → self.buffer = w ++ decoder.buffer → Exit self (.ok (some request)) decoder

namespace Exit
variable {self decoder : RequestDecoder} {result : Except RequestParseError (Option Request)}

theorem error_iff (h : self.Exit result decoder) :
    (∃ e, result = .error e) ↔ decoder.poisoned = true := by
  cases h with
  | failed hpoisoned _ => simp [hpoisoned]
  | waits hsound _ _ _ => simp [hsound]
  | returns hsound _ _ => simp [hsound]

/-- Where no request is returned, none is complete, or there has been an error. -/
theorem unfinished (h : self.Exit result decoder) (hnone : ∀ request, result ≠ .ok (some request)) :
    decoder.poisoned = true ∨ UnfinishedFrame decoder.buffer := by
  cases h with
  | failed hpoisoned _ => exact .inl hpoisoned
  | waits _ hbuf hmore _ => exact .inr (by rwa [hbuf])
  | returns _ _ _ => exact absurd rfl (hnone _)

end Exit

theorem decodeNext_poisons {self decoder : RequestDecoder} {e : RequestParseError}
    (h : self.decodeNext = .ok (.error e, decoder)) : decoder.poisoned = true := by
  unfold decodeNext decodeNextWith at h
  by_cases hpoisoned : self.poisoned = true
  · rw [if_pos hpoisoned] at h
    cases h
    exact hpoisoned
  · rw [if_neg hpoisoned] at h
    obtain ⟨⟨result, self'⟩, _, h⟩ := bind_eq_ok.mp h
    cases result with
    | ok request => cases h
    | error e' =>
      cases h
      rfl

theorem Progress.exits {self : RequestDecoder} (h : self.Progress) :
    Yields (fun _ => False) self.decodeNext (fun out => out.2.Progress ∧ Exit self out.1 out.2) := by
  obtain ⟨⟨result, decoder⟩, hrun, hleaves⟩ := h.decodeNext.exists_ok
  suffices hexit : Exit self result decoder by
    rw [hrun]
    exact ⟨hleaves.progress, hexit⟩
  by_cases hpoisoned : self.poisoned = true
  · unfold RequestDecoder.decodeNext decodeNextWith at hrun
    rw [if_pos hpoisoned] at hrun
    cases hrun
    exact .failed hpoisoned rfl
  · have hspec := decodeNext_spec (h.ready (Bool.eq_false_iff.mpr hpoisoned))
    rw [hrun] at hspec
    cases hf : frame.run self.buffer with
    | fail e =>
      rw [hf] at hspec
      obtain ⟨_, heq, hbuf⟩ := hspec
      cases heq
      exact .failed (decodeNext_poisons hrun) hbuf
    | more =>
      rw [hf] at hspec
      obtain ⟨_, heq, hready, hbuf⟩ := hspec
      cases heq
      exact .waits hready.sound hbuf (frame_parses.more_iff.mp hf) (hleaves.waiting rfl)
    | done request r =>
      rw [hf] at hspec
      cases hspec
      obtain ⟨w, hw, hbuf⟩ := frame_parses.done_iff.mp hf
      exact .returns rfl hw hbuf

/-- After the array header, an unfinished item is waited for with the cursor before it. -/
theorem decodeNext_waits {n : Nat} {line s : Bytes}
    (hline : HeaderLine arrayByte maxArrayLength (n + 1) line) (hs : UnfinishedItem s) :
    ∃ decoder, decodeNext { buffer := line ++ s } = .ok (.ok none, decoder) ∧ decoder.unread = s := by
  let decoder : RequestDecoder :=
    { buffer := line ++ s, expectedArgCount := some (n + 1),
      cursor := (line ++ s).length - s.length }
  have hunread : decoder.unread = s := by
    show (line ++ s).drop ((line ++ s).length - s.length) = s
    rw [List.length_append, Nat.add_sub_cancel, List.drop_left]
  have hargs : decodeArgs (n + 1) decoder = .ok (.ok none, decoder) := by
    rw [decodeArgs, decodeArgsWith, ← decodeArgs, ← parseCstr, parseCstr_eq (Nat.sub_le _ _), hunread, item_parses.more_iff.mpr hs]
    rfl
  have hbuffered : decodeBuffered { buffer := line ++ s } = decodeArgs (n + 1) decoder := by
    unfold decodeBuffered decodeBufferedWith
    rw [← decodeArgs, ← parseHeader, parseHeader_eq, (header_parses (by decide)).run_append hline s]
    rfl
  refine ⟨decoder, ?_, hunread⟩
  unfold decodeNext decodeNextWith
  rw [← decodeBuffered, if_neg Bool.false_ne_true, hbuffered, hargs]
  rfl

theorem validateEof_eq_ok {self : RequestDecoder} :
    self.validateEof = .ok () ↔ self.poisoned = false ∧ self.buffer = [] := by
  unfold validateEof
  cases self.poisoned with
  | true => simp
  | false => simp

/-! Runs. -/

/-- What a decoder is given: bytes, in pieces of any length, and calls. -/
inductive Input where
  | chunk (bytes : Bytes)
  | call

/-- A decoder with the bytes it has been given and the requests it has returned. -/
structure Session where
  decoder : RequestDecoder := {}
  received : Bytes := []
  returned : List Request := []

namespace Session

/-- `decode_next` -/
def call (self : Session) : Rust (Except RequestParseError (Option Request) × Session) := do
  match ← self.decoder.decodeNext with
  | (.ok (some request), decoder) =>
    return (.ok (some request), { self with decoder, returned := self.returned ++ [request] })
  | (result, decoder) => return (result, { self with decoder })

def step (self : Session) : Input → Rust Session
  | .chunk bytes => return { self with decoder := Decoder.extend self.decoder bytes,
                                       received := self.received ++ bytes }
  | .call => do
    let (_, self) ← self.call
    return self

def run (inputs : List Input) : Rust Session := inputs.foldlM step {}

/-- The decoder's state is in order, and no byte is lost or read twice. -/
structure Sound (session : Session) : Prop where
  progress : session.decoder.Progress
  kept : ∃ read, Words Frame session.returned read ∧ session.received = read ++ session.decoder.buffer

theorem Sound.receive {self : Session} (h : self.Sound) (bytes : Bytes) :
    Sound { self with decoder := Decoder.extend self.decoder bytes,
                      received := self.received ++ bytes } where
  progress := h.progress.receive bytes
  kept := by
    obtain ⟨read, hread, hreceived⟩ := h.kept
    refine ⟨read, hread, ?_⟩
    show self.received ++ bytes = read ++ (self.decoder.buffer ++ bytes)
    rw [hreceived, List.append_assoc]

theorem Sound.call {self : Session} (h : self.Sound) :
    Yields (fun _ => False) self.call (fun out => out.2.Sound ∧
      Exit self.decoder out.1 out.2.decoder) := by
  obtain ⟨read, hread, hreceived⟩ := h.kept
  unfold Session.call
  refine h.progress.exits.bind (fun out hout => ?_)
  obtain ⟨result, decoder⟩ := out
  obtain ⟨hprogress, hexit⟩ := hout
  cases hexit with
  | failed hpoisoned hbuf =>
    refine ⟨⟨hprogress, read, hread, ?_⟩, .failed hpoisoned hbuf⟩
    rw [hreceived, ← hbuf]
  | waits hsound hbuf hmore hitem =>
    refine ⟨⟨hprogress, read, hread, ?_⟩, .waits hsound hbuf hmore hitem⟩
    rw [hreceived, ← hbuf]
  | @returns request w _ hsound hw hbuf =>
    refine ⟨⟨hprogress, read ++ w, hread.snoc hw, ?_⟩, .returns hsound hw hbuf⟩
    rw [hreceived, hbuf, List.append_assoc]

theorem Sound.step {self : Session} (h : self.Sound) (input : Input) :
    Yields (fun _ => False) (self.step input) Sound := by
  cases input with
  | chunk bytes => exact h.receive bytes
  | call => exact h.call.bind (fun out hout => hout.1)

theorem run_sound (inputs : List Input) : Yields (fun _ => False) (run inputs) Sound :=
  Yields.foldlM (fun _ => Sound) (fun input _ _ h => h.step input) inputs {}
    ⟨.fresh [] false, [], .nil, rfl⟩

theorem Sound.words_iff {self : Session} (h : self.Sound) :
    Words Frame self.returned self.received ↔ self.decoder.buffer = [] := by
  obtain ⟨read, hread, hreceived⟩ := h.kept
  refine ⟨fun hall => ?_, fun hnil => ?_⟩
  · exact frame_parses.rest_unique hread hall (by rw [List.append_nil, hreceived])
  · rwa [hreceived, hnil, List.append_nil]

/-- After a wait, the requests returned are all there are. -/
theorem Sound.exists_words_iff {self : Session} (h : self.Sound)
    (hmore : UnfinishedFrame self.decoder.buffer) :
    (∃ requests, Words Frame requests self.received) ↔ self.decoder.buffer = [] := by
  refine ⟨fun hwords => ?_, fun hnil => ⟨self.returned, h.words_iff.mpr hnil⟩⟩
  obtain ⟨requests, hrequests⟩ := hwords
  obtain ⟨read, hread, hreceived⟩ := h.kept
  obtain ⟨_, hprefix⟩ := frame_parses.longest hread (.inl hmore) hrequests
    (by rw [hreceived])
  have hlen := hprefix.length_le
  rw [hreceived, List.length_append] at hlen
  exact List.length_eq_zero_iff.mp (by omega)

/-- After each call of a run, whatever it returns, the decoder has committed what the
    grammar reads off the bytes before its cursor, and the bytes received are those of the
    requests returned and then its buffer. So `validate_eof` accepts exactly where the
    requests returned are all that has been received; when the call has returned none, that
    is where the bytes received are requests at all. -/
theorem call_sound (inputs : List Input) : ∃ session result session',
    run inputs = .ok session ∧ session.call = .ok (result, session') ∧
    session'.decoder.Progress ∧
    (∃ read, Words Frame session'.returned read ∧
      session'.received = read ++ session'.decoder.buffer) ∧
    ((∃ e, result = .error e) ↔ session'.decoder.poisoned = true) ∧
    (session'.decoder.validateEof = .ok () ↔
      session'.decoder.poisoned = false ∧ Words Frame session'.returned session'.received) ∧
    ((∀ request, result ≠ .ok (some request)) →
      (session'.decoder.validateEof = .ok () ↔
        session'.decoder.poisoned = false ∧ ∃ requests, Words Frame requests session'.received)) := by
  obtain ⟨session, hrun, hsession⟩ := (run_sound inputs).exists_ok
  obtain ⟨out, hcall, h, hexit⟩ := hsession.call.exists_ok
  refine ⟨session, out.1, out.2, hrun, hcall, h.progress, h.kept, hexit.error_iff, ?_, fun hnone => ?_⟩
  · rw [validateEof_eq_ok, h.words_iff]
  · rw [validateEof_eq_ok]
    rcases hexit.unfinished hnone with hpoisoned | hmore
    · simp [hpoisoned]
    · rw [h.exists_words_iff hmore]

theorem step_call {self : Session} {result : Except RequestParseError (Option Request)}
    {decoder : RequestDecoder} (h : self.decoder.decodeNext = .ok (result, decoder)) :
    ∃ self', self.step .call = .ok self' ∧ self'.decoder = decoder ∧
      self'.received = self.received := by
  unfold step call
  rw [h]
  rcases result with e | request | request
  · exact ⟨_, rfl, rfl, rfl⟩
  · exact ⟨_, rfl, rfl, rfl⟩
  · exact ⟨_, rfl, rfl, rfl⟩

/-- A call of a reader calls its decoder and gives it the chunks it reads in between. -/
theorem readNextLoop_runs : ∀ (fuel : Nat) {self : Session} {reader reader' : RequestReader}
    {result : Except RequestParseError (Option Request)},
    (∀ chunk ∈ reader.reader, chunk ≠ []) → self.decoder = reader.decoder →
    Reader.readNextLoop fuel reader = .ok (result, reader') →
    ∃ inputs self', List.foldlM step self inputs = .ok self' ∧ self'.decoder = reader'.decoder ∧
      self'.received ++ reader'.reader.flatten = self.received ++ reader.reader.flatten := by
  intro fuel
  induction fuel with
  | zero =>
    intro self reader reader' result _ _ hrun
    cases hrun
  | succ fuel ih =>
    intro self reader reader' result hne hdecoder hrun
    obtain ⟨hflat, _, hne'⟩ := Source.read_spec hne
    rw [Reader.readNextLoop, ← hdecoder] at hrun
    generalize reader.reader.read readChunkSize = taken at hflat hne' hrun
    obtain ⟨⟨answer, decoder⟩, hdecode, hrun⟩ := bind_eq_ok.mp hrun
    obtain ⟨self', hstep, rfl, hreceived⟩ := step_call hdecode
    have hcall : List.foldlM step self [.call] = .ok self' := by
      rw [List.foldlM_cons, hstep]
      rfl
    rcases answer with e | request | request
    · cases hrun
      exact ⟨[.call], self', hcall, rfl, by rw [hreceived]⟩
    · by_cases hlen : taken.1.length = 0
      · -- the source is at its end
        rw [List.eq_nil_of_length_eq_zero hlen, List.nil_append] at hflat
        simp only [if_pos hlen] at hrun
        have hreader' : reader' = { reader := taken.2, decoder := self'.decoder } := by
          split at hrun <;> (cases hrun; rfl)
        rw [hreader']
        exact ⟨[.call], self', hcall, rfl, by rw [hreceived, ← hflat]⟩
      · simp only [if_neg hlen] at hrun
        obtain ⟨inputs, self'', hinputs, hself'', hreceived'⟩ :=
          @ih { self' with decoder := Decoder.extend self'.decoder taken.1,
                           received := self'.received ++ taken.1 } _ _ _ hne' rfl hrun
        refine ⟨.call :: .chunk taken.1 :: inputs, self'', ?_, hself'', ?_⟩
        · rw [List.foldlM_cons, hstep, ok_bind, List.foldlM_cons, ← hinputs]
          rfl
        · rw [hreceived', ← hflat, hreceived, List.append_assoc]
    · cases hrun
      exact ⟨[.call], self', hcall, rfl, by rw [hreceived]⟩

/-- The decoders of a reader are those of runs on the bytes it has taken off its source. -/
theorem readNext_runs {inputs : List Input} {session : Session} {reader reader' : RequestReader}
    {result : Except RequestParseError (Option Request)} (hrun : run inputs = .ok session)
    (hdecoder : session.decoder = reader.decoder) (hne : ∀ chunk ∈ reader.reader, chunk ≠ [])
    (hread : reader.readNext = .ok (result, reader')) :
    ∃ inputs' session', run (inputs ++ inputs') = .ok session' ∧
      session'.decoder = reader'.decoder ∧
      session'.received ++ reader'.reader.flatten = session.received ++ reader.reader.flatten := by
  obtain ⟨inputs', session', hinputs, hrest⟩ := readNextLoop_runs _ hne hdecoder hread
  refine ⟨inputs', session', ?_, hrest⟩
  unfold run at hrun ⊢
  rw [List.foldlM_append, hrun]
  exact hinputs

/-! What a decoder waits with. -/

/-- What is unparsed after some run whose last call returns neither a request nor an error. -/
def Pending (s : Bytes) : Prop :=
  ∃ inputs session session', run inputs = .ok session ∧
    session.call = .ok (.ok none, session') ∧ session'.decoder.unread = s

theorem Pending.unfinished {s : Bytes} (h : Pending s) : UnfinishedItem s := by
  obtain ⟨inputs, session, session', hrun, hcall, rfl⟩ := h
  obtain ⟨_, hexit⟩ := ((run_sound inputs).of_ok hrun).call.of_ok hcall
  cases hexit with
  | waits _ _ _ hitem => exact hitem

theorem pending_of_unfinished {s : Bytes} (h : UnfinishedItem s) : Pending s := by
  have hline : HeaderLine arrayByte maxArrayLength 1 (asBytes "*1\r\n") :=
    ⟨[49], ⟨[49], .inl rfl, by simp, by simp, rfl, by decide⟩, by decide, rfl⟩
  obtain ⟨decoder, hrun, hunread⟩ := decodeNext_waits hline h
  refine ⟨[.chunk (asBytes "*1\r\n" ++ s)], _, { decoder, received := asBytes "*1\r\n" ++ s }, rfl,
    ?_, hunread⟩
  show (decodeNext { buffer := asBytes "*1\r\n" ++ s } >>= _) = _
  rw [hrun]
  rfl

/-- What can be unparsed when `decode_next` waits: a header line, which may be of any length,
    and after a complete one at most the bytes it announces and one of their CRLF. -/
theorem pending_iff (s : Bytes) : Pending s ↔ ∃ line rest, s = line ++ rest ∧
    rest.length ≤ maxComplexStringLength + 1 ∧
    (¬crlf <:+: line ∧ rest = [] ∨
      ∃ n, HeaderLine cstringByte maxComplexStringLength n line ∧ rest.length ≤ n + 1) := by
  refine ⟨fun h => ?_, fun h => pending_of_unfinished ?_⟩
  · rcases h.unfinished with hline | ⟨n, line, rest, hline, hrest, rfl⟩
    · exact ⟨s, [], (List.append_nil s).symm, Nat.zero_le _, .inl ⟨hline, rfl⟩⟩
    · have hle := hline.le
      exact ⟨line, rest, rfl, by omega, .inr ⟨n, hline, by omega⟩⟩
  · obtain ⟨line, rest, rfl, _, ⟨hline, rfl⟩ | ⟨n, hline, hrest⟩⟩ := h
    · rw [List.append_nil]
      exact .inl hline
    · exact .inr ⟨n, line, rest, hline, by omega, rfl⟩

/-- No bound holds, since a header line need not end: `$` and zeros are waited for. -/
theorem unread_unbounded : ¬∃ B, ∀ (inputs : List Input) (session session' : Session),
    run inputs = .ok session → session.call = .ok (.ok none, session') →
    session'.decoder.buffer.length - session'.decoder.cursor ≤ B := by
  intro hbound
  obtain ⟨B, hB⟩ := hbound
  have hline : (13 : UInt8) ∉ cstringByte :: List.replicate B 48 := by
    rw [List.mem_cons, List.mem_replicate]
    simp [cstringByte]
  obtain ⟨inputs, session, session', hrun, hcall, hunread⟩ :=
    pending_of_unfinished (.inl (Parser.not_infix_of_notMem hline))
  have hlen := congrArg List.length hunread
  rw [unread, List.length_drop, List.length_cons, List.length_replicate] at hlen
  have hle := hB inputs session session' hrun hcall
  omega

end Session
end RequestDecoder
end SimpleKv
