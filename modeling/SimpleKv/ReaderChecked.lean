import SimpleKv.RequestChecked

/- The readers around the decoders with checks. Everything a decoder is given comes from
   its source, so on a source that fits into a vector it never sees a larger buffer, and
   reading it to the end is what it is without the checks (`readAll_checked`). -/
namespace SimpleKv
open Outcome

section Substitution
variable {D ε α : Type} [Decoder D ε α]

/-- The decoder, with another `decode_next`. -/
abbrev Decoder.withDecodeNext (decodeNext : D → Rust (Except ε (Option α) × D)) : Decoder D ε α where
  buffer := Decoder.buffer
  extend := Decoder.extend
  decodeNext := decodeNext
  validateEof := Decoder.validateEof

/-- On buffers of up to `limit` bytes `decodeNext` is that of the decoder, which only ever
    takes bytes off its buffer. -/
structure Decoder.Agrees (limit : ℕ) (decodeNext : D → Rust (Except ε (Option α) × D)) : Prop where
  same : ∀ decoder : D, (Decoder.buffer decoder).length ≤ limit →
    decodeNext decoder = Decoder.decodeNext decoder
  shrinks : ∀ decoder : D, Yields (fun _ => True) (Decoder.decodeNext decoder) (fun r =>
    (Decoder.buffer r.2).length ≤ (Decoder.buffer decoder).length)
  extend : ∀ (decoder : D) chunk, (Decoder.buffer (Decoder.extend decoder chunk)).length =
    (Decoder.buffer decoder).length + chunk.length

/-- A read takes as many bytes off the source as it returns. -/
theorem Source.read_length (source : Source) (size : ℕ) :
    (source.read size).1.length + (source.read size).2.flatten.length = source.flatten.length := by
  cases source with
  | nil => rfl
  | cons chunk rest =>
    unfold Source.read
    by_cases h : chunk.length ≤ size
    · simp [h]
    · simp [h]
      omega

namespace Reader
variable {limit : ℕ} {decodeNext : D → Rust (Except ε (Option α) × D)}

/-- `read_next` of the reader around that decoder. -/
def readNextWith (decodeNext : D → Rust (Except ε (Option α) × D)) (self : Reader D) :
    Rust (Except ε (Option α) × Reader D) :=
  @readNext D ε α (Decoder.withDecodeNext decodeNext) self

theorem readNextLoop_with (h : Decoder.Agrees limit decodeNext) : ∀ (fuel : ℕ) (self : Reader D),
    self.remaining.length ≤ limit →
    @readNextLoop D ε α (Decoder.withDecodeNext decodeNext) fuel self = readNextLoop fuel self ∧
    Yields (fun _ => True) (readNextLoop fuel self) (fun r =>
      r.2.remaining.length ≤ self.remaining.length) := by
  intro fuel
  induction fuel with
  | zero =>
    intro self hlimit
    exact ⟨rfl, trivial⟩
  | succ fuel ih =>
    intro self hlimit
    have hlen : self.remaining.length =
      (Decoder.buffer self.decoder).length + self.reader.flatten.length := List.length_append
    have hshrinks := h.shrinks self.decoder
    show (decodeNext self.decoder >>= _) = (Decoder.decodeNext self.decoder >>= _) ∧
      Yields _ (Decoder.decodeNext self.decoder >>= _) _
    rw [h.same _ (by omega)]
    cases hrun : Decoder.decodeNext self.decoder with
    | error f => exact ⟨rfl, trivial⟩
    | ok r =>
      obtain ⟨result, decoder⟩ := r
      have hbuffer : (Decoder.buffer decoder).length ≤ (Decoder.buffer self.decoder).length :=
        hshrinks.of_ok hrun
      have hremaining : ∀ {source : Source}, source.flatten.length ≤ self.reader.flatten.length →
          (remaining ⟨source, decoder⟩).length ≤ self.remaining.length := by
        intro source hle
        rw [hlen]
        show (Decoder.buffer decoder ++ source.flatten).length ≤ _
        rw [List.length_append]
        omega
      -- a chunk goes to the buffer, which has no more than there was to come
      have hextend : ∀ {chunk : Bytes} {source : Source},
          chunk.length + source.flatten.length = self.reader.flatten.length →
          (remaining ⟨source, Decoder.extend decoder chunk⟩).length ≤ self.remaining.length := by
        intro chunk source hread
        rw [hlen]
        show (Decoder.buffer (Decoder.extend decoder chunk) ++ source.flatten).length ≤ _
        rw [List.length_append, h.extend]
        omega
      rcases result with e | value | value
      · exact ⟨rfl, hremaining (Nat.le_refl _)⟩
      · have hread := self.reader.read_length readChunkSize
        show (if (self.reader.read readChunkSize).1.length = 0 then _ else _) =
            (if (self.reader.read readChunkSize).1.length = 0 then _ else _) ∧
          Yields _ (if (self.reader.read readChunkSize).1.length = 0 then _ else _) _
        by_cases hchunk : (self.reader.read readChunkSize).1.length = 0
        · rw [if_pos hchunk, if_pos hchunk]
          refine ⟨rfl, ?_⟩
          have hrest := hremaining (show (self.reader.read readChunkSize).2.flatten.length ≤ _ by omega)
          cases Decoder.validateEof decoder <;> exact hrest
        · rw [if_neg hchunk, if_neg hchunk]
          obtain ⟨hsame, hrest⟩ := ih _ (Nat.le_trans (hextend hread) hlimit)
          exact ⟨hsame, hrest.mono (fun _ hle => Nat.le_trans hle (hextend hread))⟩
      · exact ⟨rfl, hremaining (Nat.le_refl _)⟩

theorem readNextWith_eq (h : Decoder.Agrees limit decodeNext) {self : Reader D}
    (hlimit : self.remaining.length ≤ limit) : readNextWith decodeNext self = self.readNext :=
  (readNextLoop_with h _ self hlimit).1

theorem readNext_shrinks (h : Decoder.Agrees limit decodeNext) {self : Reader D}
    (hlimit : self.remaining.length ≤ limit) :
    Yields (fun _ => True) self.readNext (fun r =>
      r.2.remaining.length ≤ self.remaining.length) :=
  (readNextLoop_with h _ self hlimit).2

theorem readAllLoop_with (h : Decoder.Agrees limit decodeNext) : ∀ (fuel : ℕ) {self : Reader D},
    self.remaining.length ≤ limit →
    readAllLoop (readNextWith decodeNext) fuel self = readAllLoop readNext fuel self := by
  intro fuel
  induction fuel with
  | zero =>
    intro self hlimit
    rfl
  | succ fuel ih =>
    intro self hlimit
    have hshrinks := readNext_shrinks h hlimit
    rw [readAllLoop, readAllLoop, readNextWith_eq h hlimit]
    cases hrun : self.readNext with
    | error f => rfl
    | ok r =>
      obtain ⟨result, self'⟩ := r
      have hle := hshrinks.of_ok hrun
      rcases result with e | value | value
      · rfl
      · rfl
      · show (readAllLoop (readNextWith decodeNext) fuel self' >>= _) = _
        rw [ih (Nat.le_trans hle hlimit)]
        rfl

/-- Reading to the end, with the other `decode_next`. -/
theorem readAll_with (h : Decoder.Agrees limit decodeNext) {self : Reader D}
    (hlimit : self.remaining.length ≤ limit) :
    readAll (readNextWith decodeNext) self = readAll readNext self :=
  readAllLoop_with h _ hlimit

end Reader
end Substitution

/-! The two decoders. -/

theorem sliceFrom_length {α : Type} (xs : List α) (a : ℕ) :
    Yields (fun _ => True) (sliceFrom xs a) (fun ys => ys.length ≤ xs.length) := by
  by_cases h : a ≤ xs.length
  · rw [sliceFrom_ok h]
    exact (List.drop_sublist a xs).length_le
  · unfold sliceFrom slice
    rw [if_neg (fun hle => h hle.1)]
    trivial

namespace RequestDecoder

theorem decodeArgs_shrinks : ∀ (missing : ℕ) (self : RequestDecoder),
    Yields (fun _ => True) (decodeArgs missing self) (fun r =>
      r.2.buffer.length ≤ self.buffer.length) := by
  intro missing
  induction missing with
  | zero =>
    intro self
    rw [decodeArgs, decodeArgsWith, takeRequest]
    apply Yields.bind (Yields.bind (sliceFrom_length self.buffer self.cursor) (fun _ hle => ?_))
    · intro r hle
      exact hle
    · exact hle
  | succ missing ih =>
    intro self
    rw [decodeArgs, decodeArgsWith, ← decodeArgs, ← parseCstr]
    apply Yields.bind (Checked.parseCstr_buffer self)
    intro r hbuffer
    obtain ⟨result, self'⟩ := r
    have hle : self'.buffer.length ≤ self.buffer.length := Nat.le_of_eq (congrArg _ hbuffer)
    rcases result with e | cstr | cstr
    · exact hle
    · exact hle
    · exact (ih _).mono (fun _ h => Nat.le_trans h hle)

theorem decodeNext_shrinks (self : RequestDecoder) :
    Yields (fun _ => True) self.decodeNext (fun r => r.2.buffer.length ≤ self.buffer.length) := by
  have hbuffered : Yields (fun _ => True) self.decodeBuffered (fun r =>
      r.2.buffer.length ≤ self.buffer.length) := by
    unfold decodeBuffered decodeBufferedWith
    rw [← decodeArgs]
    cases self.expectedArgCount with
    | some expected => exact decodeArgs_shrinks _ self
    | none =>
      apply Yields.bind_any
      intro header
      rcases header with e | header | header
      · exact Nat.le_refl _
      · exact Nat.le_refl _
      · exact decodeArgs_shrinks _ _
  unfold decodeNext decodeNextWith
  cases self.poisoned with
  | true => exact Nat.le_refl _
  | false =>
    apply Yields.bind hbuffered
    rintro ⟨result, self'⟩ hle
    cases result <;> exact hle

theorem Checked.agrees : Decoder.Agrees isizeMax Checked.decodeNext where
  same := Checked.decodeNext_eq
  shrinks := decodeNext_shrinks
  extend _ _ := List.length_append

end RequestDecoder

namespace ResponseDecoder

theorem decodeNext_shrinks (self : ResponseDecoder) :
    Yields (fun _ => True) self.decodeNext (fun r => r.2.buffer.length ≤ self.buffer.length) := by
  have hbuffered : Yields (fun _ => True) self.decodeBuffered (fun r =>
      r.2.buffer.length ≤ self.buffer.length) := by
    unfold decodeBuffered decodeBufferedWith
    apply Yields.bind_any
    intro result
    rcases result with e | parsed | parsed
    · exact Nat.le_refl _
    · exact Nat.le_refl _
    · exact Yields.bind (sliceFrom_length _ _) (fun _ hle => hle)
  unfold decodeNext decodeNextWith
  cases self.poisoned with
  | true => exact Nat.le_refl _
  | false =>
    apply Yields.bind hbuffered
    rintro ⟨result, self'⟩ hle
    cases result <;> exact hle

theorem Checked.agrees : Decoder.Agrees isizeMax Checked.decodeNext where
  same := Checked.decodeNext_eq
  shrinks := decodeNext_shrinks
  extend _ _ := List.length_append

end ResponseDecoder

/-! The two readers. -/

namespace Reader
open Incremental

/-- In a build with overflow checks a source that fits into a vector is read to its end as
    without them, for requests and for responses: no offset leaves `usize`, and nothing but
    the memory for the elements of a response array stops either. -/
theorem readAll_checked {source : Source} (hne : ∀ chunk ∈ source, chunk ≠ [])
    (hlen : source.flatten.length ≤ isizeMax) :
    (∃ requests ending,
      readAll (readNextWith RequestDecoder.Checked.decodeNext) (RequestReader.new source) =
        .ok (requests, ending) ∧
      readAll RequestReader.readNext (RequestReader.new source) = .ok (requests, ending)) ∧
    readAll (readNextWith ResponseDecoder.Checked.decodeNext) (ResponseReader.new source) =
      readAll ResponseReader.readNext (ResponseReader.new source) ∧
    Completes (readAll (readNextWith ResponseDecoder.Checked.decodeNext)
      (ResponseReader.new source)) (fun _ => True) := by
  have hrequest := readAll_with RequestDecoder.Checked.agrees
    (show (RequestReader.new source).remaining.length ≤ isizeMax from hlen)
  have hresponse := readAll_with ResponseDecoder.Checked.agrees
    (show (ResponseReader.new source).remaining.length ≤ isizeMax from hlen)
  obtain ⟨requests, d, hd⟩ := RequestReader.exists_drains source.flatten
  obtain ⟨responses, d', hd'⟩ := ResponseReader.exists_drains source.flatten
  have hread := RequestReader.readAll_spec hne hd
  have hread' := ResponseReader.readAll_spec hne hd'
  refine ⟨⟨requests, _, hrequest.trans hread, hread⟩, hresponse, ?_⟩
  rw [hresponse]
  exact hread'.mono (fun _ _ => trivial)

theorem readAll_checked_ping :
    (∃ requests ending,
      readAll (readNextWith RequestDecoder.Checked.decodeNext)
        (RequestReader.new [asBytes "*1\r\n$4", asBytes "\r\nPING\r\n"]) =
        .ok (requests, ending) ∧
      readAll RequestReader.readNext
        (RequestReader.new [asBytes "*1\r\n$4", asBytes "\r\nPING\r\n"]) =
        .ok (requests, ending)) ∧
    readAll (readNextWith ResponseDecoder.Checked.decodeNext)
      (ResponseReader.new [asBytes "*1\r\n$4", asBytes "\r\nPING\r\n"]) =
      readAll ResponseReader.readNext
        (ResponseReader.new [asBytes "*1\r\n$4", asBytes "\r\nPING\r\n"]) ∧
    Completes (readAll (readNextWith ResponseDecoder.Checked.decodeNext)
      (ResponseReader.new [asBytes "*1\r\n$4", asBytes "\r\nPING\r\n"])) (fun _ => True) :=
  readAll_checked (by decide) (by decide)

end Reader
end SimpleKv
