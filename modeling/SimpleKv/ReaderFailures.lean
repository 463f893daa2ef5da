import SimpleKv.RequestReading
import SimpleKv.ResponseReading
import SimpleKv.Server

/- Reads that fail. Every `read` of `read_next` may return an error, which becomes the
   variant `Io` and leaves the decoder as it was: its buffer holds what has been read so
   far, and it is not poisoned. So a call that fails takes nothing off the stream
   (`readNextFailing_spec`), and calls that are repeated after `Io` return what the
   stream holds, each value once and in order (`readRetrying_spec`). -/
namespace SimpleKv
open Incremental Outcome

/-- What the operating system refuses of one call: reads, after `done` that succeed, or the
    bytes after the first `done` of a write. -/
structure IoFailure where
  done : Nat
  error : IoError

/-- The failure as it stands after one more read. -/
def IoFailure.next (self : IoFailure) : IoFailure := { self with done := self.done - 1 }

/-- The errors of `read_next`, with its `Io` beside those of the decoder. -/
inductive ReadError (ε : Type) where
  | io (e : IoError)
  | decoder (e : ε)

namespace Reader
variable {D ε α : Type} [Decoder D ε α]

/-- The loop of `read_next` under a failure. -/
def readNextFailingLoop : Nat → Option IoFailure → Reader D →
    Rust (Except (ReadError ε) (Option α) × Reader D)
  | 0, _, _ => .error .spin
  | fuel+1, failure, self => do
    let (result, decoder) ← Decoder.decodeNext self.decoder
    match result with
    | .error e => return (.error (.decoder e), { self with decoder })
    | .ok (some value) => return (.ok (some value), { self with decoder })
    | .ok none =>
      match failure with
      | some ⟨0, error⟩ => return (.error (.io error), { self with decoder })
      | _ =>
        let (chunk, reader) := self.reader.read readChunkSize
        if chunk.length = 0 then
          match Decoder.validateEof decoder with
          | .error e => return (.error (.decoder e), { reader, decoder })
          | .ok () => return (.ok none, { reader, decoder })
        else
          readNextFailingLoop fuel (failure.map IoFailure.next)
            { reader, decoder := Decoder.extend decoder chunk }

def readNextFailing (failure : Option IoFailure) (self : Reader D) :
    Rust (Except (ReadError ε) (Option α) × Reader D) :=
  readNextFailingLoop (self.reader.flatten.length + 1) failure self

theorem readNextFailingLoop_none : ∀ (fuel : ℕ) (self : Reader D),
    readNextFailingLoop fuel none self =
      (fun (result, self') => (result.mapError .decoder, self')) <$> readNextLoop fuel self := by
  intro fuel
  induction fuel with
  | zero =>
    intro self
    rfl
  | succ fuel ih =>
    intro self
    rw [readNextFailingLoop, readNextLoop]
    cases hd : Decoder.decodeNext self.decoder with
    | error f => rfl
    | ok r =>
      obtain ⟨result, decoder⟩ := r
      cases result with
      | error e => rfl
      | ok value =>
        cases value with
        | some value => rfl
        | none =>
          simp only [ok_bind, Option.map_none]
          by_cases hchunk : (self.reader.read readChunkSize).1.length = 0
          · simp only [if_pos hchunk]
            cases Decoder.validateEof decoder <;> rfl
          · simp only [if_neg hchunk]
            exact ih _

/-- Under no failure the call is the one of `Reader`. -/
theorem readNextFailing_none (self : Reader D) : self.readNextFailing none =
    (fun (result, self') => (result.mapError .decoder, self')) <$> self.readNext :=
  readNextFailingLoop_none _ self

/-- Calls of `read_next`, one under each of the failures, up to `Ok(None)` or an error of the
    decoder: the values returned, the error if there was an end, and the reader. -/
def readRetrying : List (Option IoFailure) → Reader D →
    Rust (List α × Option (Option ε) × Reader D)
  | [], self => return ([], none, self)
  | failure :: failures, self => do
    match ← self.readNextFailing failure with
    | (.error (.io _), self) => readRetrying failures self
    | (.error (.decoder e), self) => return ([], some (some e), self)
    | (.ok none, self) => return ([], some none, self)
    | (.ok (some value), self) =>
      let (values, ending, self) ← readRetrying failures self
      return (value :: values, ending, self)

end Reader

section Grammar
variable {D ε α : Type} [Decoder D ε α]

namespace Reader
variable {frame : Parser UInt8 ε α} {stop : Bytes → Fault → Prop} {halt : Fault → Prop} {eof : ε}
  {P : D → Prop}

/-- What a call may return, against the grammar on everything to come. -/
def Answers (frame : Parser UInt8 ε α) (eof : ε) (P : D → Prop) (failure : Option IoFailure)
    (s : Bytes) (result : Except (ReadError ε) (Option α)) (self : Reader D) : Prop :=
  match result with
  | .error (.io e) =>
    failure.map IoFailure.error = some e ∧ self.Ready P ∧ self.remaining = s
  | .error (.decoder e) => frame.run s = .fail e ∨ (frame.run s = .more ∧ s ≠ [] ∧ e = eof)
  | .ok none => frame.run s = .more ∧ s = []
  | .ok (some value) => ∃ r, frame.run s = .done value r ∧ self.Ready P ∧ self.remaining = r

theorem readNextFailingLoop_spec (hD : Decodes frame stop eof P) : ∀ (fuel : ℕ)
    (failure : Option IoFailure) (self : Reader D), self.Ready P →
    self.reader.flatten.length < fuel →
    Yields (stop self.remaining) (readNextFailingLoop fuel failure self) (fun (result, self') =>
      Answers frame eof P failure self.remaining result self') := by
  intro fuel
  induction fuel with
  | zero =>
    intro failure self h hfuel
    omega
  | succ fuel ih =>
    intro failure self h hfuel
    rw [readNextFailingLoop]
    apply Yields.bind ((hD.decodeNext h.decoder).weaken (fun _ hf => hD.stop_append hf _))
    intro (result, decoder) hd
    cases hf : frame.run (Decoder.buffer self.decoder) with
    | fail e =>
      have hwhole : frame.run self.remaining = .fail e := frame.fail_append hf
      simp only [hf] at hd
      rw [show result = .error e from hd]
      exact .inl hwhole
    | done value r =>
      have hwhole : frame.run self.remaining = .done value (r ++ self.reader.flatten) :=
        frame.done_append hf
      simp only [hf] at hd
      obtain ⟨rfl, hready, rfl⟩ := hd
      exact ⟨_, hwhole, ⟨hready, h.nonempty⟩, rfl⟩
    | more =>
      simp only [hf] at hd
      obtain ⟨rfl, hready, hbuf⟩ := hd
      obtain ⟨hsplit, hempty, hne⟩ := Source.read_spec h.nonempty
      have hread : Yields (stop self.remaining) (if (self.reader.read readChunkSize).1.length = 0 then
            match Decoder.validateEof decoder with
            | .error e => pure (.error (.decoder e), ⟨(self.reader.read readChunkSize).2, decoder⟩)
            | .ok () => pure (.ok none, ⟨(self.reader.read readChunkSize).2, decoder⟩)
          else readNextFailingLoop fuel (failure.map IoFailure.next)
            ⟨(self.reader.read readChunkSize).2,
              Decoder.extend decoder (self.reader.read readChunkSize).1⟩)
          (fun (result, self') => Answers frame eof P failure self.remaining result self') := by
        by_cases hchunk : (self.reader.read readChunkSize).1 = []
        · -- the end of the source
          have hrem : self.remaining = Decoder.buffer decoder := by
            unfold remaining
            rw [hempty hchunk, hbuf]
            simp
          have hwhole : frame.run self.remaining = .more := by rw [hrem, hbuf]; exact hf
          rw [if_pos (by rw [hchunk]; rfl), hD.validateEof hready]
          by_cases hb : Decoder.buffer decoder = []
          · rw [if_pos hb]
            exact ⟨hwhole, hrem.trans hb⟩
          · rw [if_neg hb]
            exact .inr ⟨hwhole, by rw [hrem]; exact hb, rfl⟩
        · -- a chunk goes from the source to the buffer, and what remains is the same
          have hpos := List.length_pos_iff.mpr hchunk
          have hlen := congrArg List.length hsplit
          rw [List.length_append] at hlen
          obtain ⟨hready', hbuf'⟩ := hD.extend hready (self.reader.read readChunkSize).1
          have hrem : remaining ⟨(self.reader.read readChunkSize).2,
              Decoder.extend decoder (self.reader.read readChunkSize).1⟩ = self.remaining := by
            unfold remaining
            rw [hbuf', List.append_assoc, hsplit, hbuf]
          have hnext := ih (failure.map IoFailure.next) ⟨(self.reader.read readChunkSize).2,
            Decoder.extend decoder (self.reader.read readChunkSize).1⟩ ⟨hready', hne⟩ (by
              show (self.reader.read readChunkSize).2.flatten.length < fuel
              omega)
          rw [hrem] at hnext
          rw [if_neg (Nat.ne_of_gt hpos)]
          apply Yields.mono hnext
          intro (result, self') hanswers
          cases result with
          | ok value => cases value <;> exact hanswers
          | error e =>
            cases e with
            | decoder e => exact hanswers
            | io e =>
              refine ⟨?_, hanswers.2⟩
              rw [← hanswers.1, Option.map_map]
              rfl
      cases failure with
      | none => exact hread
      | some failure =>
        obtain ⟨done, error⟩ := failure
        cases done with
        | zero =>
          refine ⟨rfl, ⟨hready, h.nonempty⟩, ?_⟩
          show Decoder.buffer decoder ++ _ = _
          rw [hbuf]
          rfl
        | succ done => exact hread

/-- A call that fails has taken nothing off the stream, and any other answers as the grammar
    does. -/
theorem readNextFailing_spec (hD : Decodes frame stop eof P) (failure : Option IoFailure)
    {self : Reader D} (h : self.Ready P) :
    Yields (stop self.remaining) (self.readNextFailing failure) (fun (result, self') =>
      Answers frame eof P failure self.remaining result self') :=
  readNextFailingLoop_spec hD _ failure self h (Nat.lt_succ_self _)

/-- What a call makes of a stream of `values` that ends in `d`. -/
def Advances (frame : Parser UInt8 ε α) (eof : ε) (P : D → Prop) (failure : Option IoFailure)
    (values : List α) (d : End ε) (result : Except (ReadError ε) (Option α)) (self : Reader D) :
    Prop :=
  match result with
  | .error (.io e) => failure.map IoFailure.error = some e ∧ self.Ready P ∧
      Drains frame self.remaining values d
  | .error (.decoder e) => values = [] ∧ errorOf eof d = some e
  | .ok none => values = [] ∧ errorOf eof d = none
  | .ok (some value) => ∃ rest, values = value :: rest ∧ self.Ready P ∧
      Drains frame self.remaining rest d

theorem Answers.advances {failure : Option IoFailure} {s : Bytes}
    {result : Except (ReadError ε) (Option α)} {self : Reader D} {values : List α} {d : End ε}
    (h : Answers frame eof P failure s result self) (hd : Drains frame s values d) :
    Advances frame eof P failure values d result self := by
  cases result with
  | ok value =>
    cases value with
    | none =>
      obtain ⟨hmore, rfl⟩ := h
      obtain ⟨rfl, rfl⟩ := hd.unique (.clean hmore)
      exact ⟨rfl, rfl⟩
    | some value =>
      obtain ⟨r, hdone, hready, rfl⟩ := h
      obtain ⟨rest, rfl, hrest⟩ := hd.of_done hdone
      exact ⟨rest, rfl, hready, hrest⟩
  | error e =>
    cases e with
    | decoder e =>
      rcases h with hfail | ⟨hmore, hs, rfl⟩
      · obtain ⟨rfl, rfl⟩ := hd.unique (.failed hfail)
        exact ⟨rfl, rfl⟩
      · obtain ⟨rfl, rfl⟩ := hd.unique (.cut hs hmore)
        exact ⟨rfl, rfl⟩
    | io e =>
      obtain ⟨hfailure, hready, rfl⟩ := h
      exact ⟨hfailure, hready, hd⟩

theorem readNextFailing_advances (hD : Decodes frame stop eof P) (failure : Option IoFailure)
    {self : Reader D} (h : self.Ready P) {values : List α} {d : End ε}
    (hd : Drains frame self.remaining values d) :
    Yields (stop self.remaining) (self.readNextFailing failure) (fun (result, self') =>
      Advances frame eof P failure values d result self') :=
  Yields.mono (readNextFailing_spec hD failure h) (fun _ hanswers => hanswers.advances hd)

/-- Where a reader is in a stream of `values` that ends in `d`, after it returned `seen`. -/
def Position (frame : Parser UInt8 ε α) (eof : ε) (P : D → Prop) (values : List α) (d : End ε)
    (seen : List α) (ending : Option (Option ε)) (self : Reader D) : Prop :=
  match ending with
  | none => ∃ rest, values = seen ++ rest ∧ self.Ready P ∧ Drains frame self.remaining rest d
  | some ending => seen = values ∧ ending = errorOf eof d

theorem Position.cons {value : α} {values seen : List α} {d : End ε} {ending : Option (Option ε)}
    {self : Reader D} (h : Position frame eof P values d seen ending self) :
    Position frame eof P (value :: values) d (value :: seen) ending self := by
  cases ending with
  | none =>
    obtain ⟨rest, rfl, hrest⟩ := h
    exact ⟨rest, rfl, hrest⟩
  | some ending => exact ⟨by rw [h.1], h.2⟩

/-- Repeated calls return the values of the stream, however often reads fail; as many calls
    as there are values and one more, under no failure, reach the end. -/
theorem readRetrying_spec (hD : Decodes frame stop eof P) (hhalt : ∀ s f, stop s f → halt f) :
    ∀ (failures : List (Option IoFailure)) {self : Reader D} {values : List α} {d : End ε},
    self.Ready P → Drains frame self.remaining values d →
    Yields halt (readRetrying failures self) (fun (seen, ending, self') =>
      Position frame eof P values d seen ending self' ∧
        (values.length < failures.countP Option.isNone → ending ≠ none))
  | [], self, values, d, h, hd => ⟨⟨values, rfl, h, hd⟩, fun hlt => by simp at hlt⟩
  | failure :: failures, self, values, d, h, hd => by
    rw [readRetrying]
    apply Yields.bind ((readNextFailing_advances hD failure h hd).weaken (hhalt _))
    intro (result, self') hadvances
    rw [List.countP_cons]
    cases result with
    | ok value =>
      cases value with
      | none =>
        obtain ⟨rfl, hending⟩ := hadvances
        exact ⟨⟨rfl, hending.symm⟩, fun _ => nofun⟩
      | some value =>
        obtain ⟨rest, rfl, hready, hrest⟩ := hadvances
        apply Yields.bind (readRetrying_spec hD hhalt failures hready hrest)
        intro (seen, ending, self'') hrec
        refine ⟨hrec.1.cons, fun hlt => hrec.2 ?_⟩
        rw [List.length_cons] at hlt
        split at hlt <;> omega
    | error e =>
      cases e with
      | decoder e =>
        obtain ⟨rfl, hending⟩ := hadvances
        exact ⟨⟨rfl, hending.symm⟩, fun _ => nofun⟩
      | io e =>
        obtain ⟨hfailure, hready, hrest⟩ := hadvances
        obtain ⟨failure, rfl, rfl⟩ := Option.map_eq_some_iff.mp hfailure
        exact readRetrying_spec hD hhalt failures hready hrest

/-- What the stream holds is not changed by reads that fail: repeated calls return a first
    part of it, or all of it and its end, and in the first case the rest can still be read. -/
def Recovers (stop : Fault → Prop) (failures : List (Option IoFailure)) (self : Reader D) : Prop :=
  ∃ values ending, Yields stop (readAll readNext self) (· = (values, ending)) ∧
    Yields stop (readRetrying failures self) (fun (seen, ended, self') =>
      (match ended with
        | none => ∃ rest, values = seen ++ rest ∧
          Yields stop (readAll readNext self') (· = (rest, ending))
        | some ending' => seen = values ∧ ending' = ending) ∧
      (values.length < failures.countP Option.isNone → ended ≠ none))

theorem recovers (hD : Decodes frame stop eof P) (hhalt : ∀ s f, stop s f → halt f)
    (hconsumes : frame.Consumes) (failures : List (Option IoFailure)) {self : Reader D} (h : self.Ready P) {values : List α}
    {d : End ε} (hd : Drains frame self.remaining values d) : Recovers halt failures self := by
  refine ⟨values, errorOf eof d, (readAll_spec hD hconsumes h hd).weaken (hhalt _), ?_⟩
  apply Yields.mono (readRetrying_spec hD hhalt failures h hd)
  intro (seen, ended, self') hpost
  refine ⟨?_, hpost.2⟩
  cases ended with
  | none =>
    obtain ⟨rest, hvalues, hready, hrest⟩ := hpost.1
    exact ⟨rest, hvalues, (readAll_spec hD hconsumes hready hrest).weaken (hhalt _)⟩
  | some ending => exact hpost.1

/-- Requests and responses are read whatever reads fail in between. -/
theorem readRetrying_recovers {source : Source} (hne : ∀ chunk ∈ source, chunk ≠ [])
    (failures : List (Option IoFailure)) :
    Recovers (fun _ => False) failures (RequestReader.new source) ∧
      Recovers Fault.OutOfMemory failures (ResponseReader.new source) := by
  constructor
  · obtain ⟨requests, d, hd⟩ := RequestReader.exists_drains source.flatten
    exact recovers RequestDecoder.decodes (fun _ _ hf => hf) Request.frame_consumes failures
      (RequestReader.Ready.new hne) hd
  · obtain ⟨responses, d, hd⟩ := ResponseReader.exists_drains source.flatten
    exact recovers ResponseDecoder.decodes (fun _ _ hf => hf.1) Response.frame_consumes failures
      ⟨rfl, hne⟩ hd

/-- The read after the first chunk fails, and so does the next call. -/
theorem readRetrying_recovers_ping :
    Recovers (fun _ => False) [some ⟨1, ⟨"reset"⟩⟩, some ⟨0, ⟨"reset"⟩⟩, none, none]
        (RequestReader.new [asBytes "*1\r\n$4\r", asBytes "\nPING\r\n"]) ∧
      Recovers Fault.OutOfMemory [some ⟨1, ⟨"reset"⟩⟩, some ⟨0, ⟨"reset"⟩⟩, none, none]
        (ResponseReader.new [asBytes "*1\r\n$4\r", asBytes "\nPING\r\n"]) :=
  readRetrying_recovers (by decide) _

end Reader
end Grammar
end SimpleKv
