import SimpleKv.Util

/- Readers. `RequestReader` and `ResponseReader` are the same loop around two decoders:
   ask the decoder, and while it wants more, read a chunk and append it to the
   decoder's buffer. `Decodes` says of a decoder that each of its calls answers as an
   incremental grammar does on the buffer; then each call of the reader answers as
   the grammar does on everything still to come, and reading to the end gives what
   the stream holds. -/
namespace SimpleKv
open Incremental Outcome

def readChunkSize : Nat := 8192

/-- A source delivers its bytes in pieces, one for each `read` that is large enough. -/
abbrev Source := List Bytes

/-- `read` into a buffer of `size` bytes; at the end of the source it reads nothing. -/
def Source.read (self : Source) (size : Nat) : Bytes × Source :=
  match self with
  | [] => ([], [])
  | chunk :: rest =>
    (chunk.take size, if chunk.length ≤ size then rest else chunk.drop size :: rest)

/-- What a reader uses of its decoder; `extend` is `buffer.extend_from_slice`. -/
class Decoder (D : Type) (ε α : outParam Type) where
  buffer : D → Bytes
  extend : D → Bytes → D
  decodeNext : D → Rust (Except ε (Option α) × D)
  validateEof : D → Except ε Unit

structure Reader (D : Type) where
  reader : Source
  decoder : D

namespace Reader
variable {D ε α : Type} [Decoder D ε α]

/-- The loop of `read_next`: an iteration that does not return has read a byte. -/
def readNextLoop : Nat → Reader D → Rust (Except ε (Option α) × Reader D)
  | 0, _ => .error .spin
  | fuel+1, self => do
    let (result, decoder) ← Decoder.decodeNext self.decoder
    match result with
    | .error e => return (.error e, { self with decoder })
    | .ok (some value) => return (.ok (some value), { self with decoder })
    | .ok none =>
      let (chunk, reader) := self.reader.read readChunkSize
      if chunk.length = 0 then
        match Decoder.validateEof decoder with
        | .error e => return (.error e, { reader, decoder })
        | .ok () => return (.ok none, { reader, decoder })
      else
        readNextLoop fuel { reader, decoder := Decoder.extend decoder chunk }

def readNext (self : Reader D) : Rust (Except ε (Option α) × Reader D) :=
  readNextLoop (self.reader.flatten.length + 1) self

/-- Everything still to be decoded. -/
def remaining (self : Reader D) : Bytes := Decoder.buffer self.decoder ++ self.reader.flatten

/-- Calls of `next` until it returns `Ok(None)` or an error: the values returned, and
    the error if that was the end. -/
def readAllLoop (next : Reader D → Rust (Except ε (Option α) × Reader D)) :
    Nat → Reader D → Rust (List α × Option ε)
  | 0, _ => .error .spin
  | fuel+1, self => do
    match ← next self with
    | (.error e, _) => return ([], some e)
    | (.ok none, _) => return ([], none)
    | (.ok (some value), self) =>
      let (values, ending) ← readAllLoop next fuel self
      return (value :: values, ending)

/-- A call that returns a value has taken a byte off the source. -/
def readAll (next : Reader D → Rust (Except ε (Option α) × Reader D)) (self : Reader D) :
    Rust (List α × Option ε) := readAllLoop next (self.remaining.length + 1) self

end Reader

/-! Against a grammar. -/

/-- A read takes something off a source that has something, in pieces of one byte at
    least. -/
theorem Source.read_spec {source : Source} (hne : ∀ chunk ∈ source, chunk ≠ []) :
    (source.read readChunkSize).1 ++ (source.read readChunkSize).2.flatten = source.flatten ∧
      ((source.read readChunkSize).1 = [] → source = []) ∧
      ∀ chunk ∈ (source.read readChunkSize).2, chunk ≠ [] := by
  cases source with
  | nil => simp [Source.read]
  | cons chunk rest =>
    have hchunk : chunk ≠ [] := hne chunk List.mem_cons_self
    unfold Source.read
    by_cases hle : chunk.length ≤ readChunkSize
    · simp only [hle, if_true, List.take_of_length_le hle]
      exact ⟨rfl, fun h => absurd h hchunk, fun c hc => hne c (List.mem_cons_of_mem _ hc)⟩
    · simp only [hle, if_false]
      refine ⟨?_, fun h => ?_, fun c hc => ?_⟩
      · rw [List.flatten_cons, List.flatten_cons, ← List.append_assoc, List.take_append_drop]
      · exact absurd ((List.take_eq_nil_iff.mp h).resolve_left (by decide)) hchunk
      · rcases List.mem_cons.mp hc with rfl | hc
        · intro h
          exact hle (List.drop_eq_nil_iff.mp h)
        · exact hne c (List.mem_cons_of_mem _ hc)

section Grammar
variable {D ε α : Type} [Decoder D ε α]

/-- In the states with `Ready`, a decoder answers as `frame` does on its buffer, up to the
    faults that the bytes in it may `stop` it with. `eof` is its error for a stream that ends
    inside a value. -/
structure Decodes (frame : Parser UInt8 ε α) (stop : Bytes → Fault → Prop) (eof : ε)
    (Ready : D → Prop) : Prop where
  /-- What stops it, does so when more has arrived, and when values come before. -/
  stop_append : ∀ {s : Bytes} {f : Fault}, stop s f → ∀ t, stop (s ++ t) f
  stop_done : ∀ {s r : Bytes} {value : α} {f : Fault}, frame.run s = .done value r → stop r f → stop s f
  decodeNext : ∀ {decoder : D}, Ready decoder →
    Yields (stop (Decoder.buffer decoder)) (Decoder.decodeNext decoder) (fun (result, decoder') =>
      match frame.run (Decoder.buffer decoder) with
      | .fail e => result = .error e
      | .done value r => result = .ok (some value) ∧ Ready decoder' ∧ Decoder.buffer decoder' = r
      | .more => result = .ok none ∧ Ready decoder' ∧
          Decoder.buffer decoder' = Decoder.buffer decoder)
  extend : ∀ {decoder : D}, Ready decoder → ∀ chunk, Ready (Decoder.extend decoder chunk) ∧
    Decoder.buffer (Decoder.extend decoder chunk) = Decoder.buffer decoder ++ chunk
  validateEof : ∀ {decoder : D}, Ready decoder → Decoder.validateEof decoder =
    if Decoder.buffer decoder = [] then .ok () else .error eof

namespace Reader

/-- The error a reader reports for the end of a stream. -/
def errorOf (eof : ε) : End ε → Option ε
  | .clean => none
  | .cut => some eof
  | .failed e => some e

structure Ready (P : D → Prop) (reader : Reader D) : Prop where
  decoder : P reader.decoder
  nonempty : ∀ chunk ∈ reader.reader, chunk ≠ []

variable {frame : Parser UInt8 ε α} {stop : Bytes → Fault → Prop} {eof : ε} {P : D → Prop}

theorem readNextLoop_spec (hD : Decodes frame stop eof P) : ∀ (fuel : ℕ) (self : Reader D),
    self.Ready P → self.reader.flatten.length < fuel →
    Yields (stop self.remaining) (readNextLoop fuel self) (fun (result, self') =>
      match frame.run self.remaining with
      | .fail e => result = .error e
      | .done value r => result = .ok (some value) ∧ self'.Ready P ∧ self'.remaining = r
      | .more => result = if self.remaining = [] then .ok none else .error eof) := by
  intro fuel
  induction fuel with
  | zero =>
    intro self h hfuel
    omega
  | succ fuel ih =>
    intro self h hfuel
    rw [readNextLoop]
    apply Yields.bind ((hD.decodeNext h.decoder).weaken (fun _ hf => hD.stop_append hf _))
    intro (result, decoder) hd
    cases hf : frame.run (Decoder.buffer self.decoder) with
    | fail e =>
      have hwhole : frame.run self.remaining = .fail e := frame.fail_append hf
      simp only [hf] at hd
      simp [hd, hwhole]
    | done value r =>
      have hwhole : frame.run self.remaining = .done value (r ++ self.reader.flatten) :=
        frame.done_append hf
      simp only [hf] at hd
      obtain ⟨rfl, hready, rfl⟩ := hd
      simp only [hwhole, Yields.pure, true_and]
      exact ⟨⟨hready, h.nonempty⟩, rfl⟩
    | more =>
      simp only [hf] at hd
      obtain ⟨rfl, hready, hbuf⟩ := hd
      obtain ⟨hsplit, hempty, hne⟩ := Source.read_spec h.nonempty
      by_cases hchunk : (self.reader.read readChunkSize).1 = []
      · -- the end of the source
        have hrem : self.remaining = Decoder.buffer decoder := by
          unfold remaining
          rw [hempty hchunk, hbuf]
          simp
        have hwhole : frame.run self.remaining = .more := by rw [hrem, hbuf]; exact hf
        rw [hwhole, hrem]
        by_cases hb : Decoder.buffer decoder = []
        · simp [hchunk, hD.validateEof hready, hb]
        · simp [hchunk, hD.validateEof hready, hb]
      · -- a chunk goes from the source to the buffer, and what remains is the same
        have hpos := List.length_pos_iff.mpr hchunk
        have hlen := congrArg List.length hsplit
        rw [List.length_append] at hlen
        obtain ⟨hready', hbuf'⟩ := hD.extend hready (self.reader.read readChunkSize).1
        have hrem : remaining ⟨(self.reader.read readChunkSize).2,
            Decoder.extend decoder (self.reader.read readChunkSize).1⟩ = self.remaining := by
          unfold remaining
          rw [hbuf', List.append_assoc, hsplit, hbuf]
        have hnext := ih ⟨(self.reader.read readChunkSize).2,
          Decoder.extend decoder (self.reader.read readChunkSize).1⟩ ⟨hready', hne⟩ (by
            show (self.reader.read readChunkSize).2.flatten.length < fuel
            omega)
        rw [hrem] at hnext
        simp only [if_neg (Nat.ne_of_gt hpos)]
        exact hnext

/-- One call of a reader answers as the grammar does on everything to come. -/
theorem readNext_spec (hD : Decodes frame stop eof P) {self : Reader D} (h : self.Ready P) :
    Yields (stop self.remaining) self.readNext (fun (result, self') =>
      match frame.run self.remaining with
      | .fail e => result = .error e
      | .done value r => result = .ok (some value) ∧ self'.Ready P ∧ self'.remaining = r
      | .more => result = if self.remaining = [] then .ok none else .error eof) :=
  readNextLoop_spec hD _ self h (Nat.lt_succ_self _)

theorem readAllLoop_spec (hD : Decodes frame stop eof P)
    (hconsumes : frame.Consumes) :
    ∀ (fuel : ℕ) {self : Reader D} {values : List α} {d : End ε}, self.Ready P →
      self.remaining.length < fuel → Drains frame self.remaining values d →
      Yields (stop self.remaining) (readAllLoop readNext fuel self) (· = (values, errorOf eof d)) := by
  intro fuel
  induction fuel with
  | zero =>
    intro self values d h hfuel hd
    omega
  | succ fuel ih =>
    intro self values d h hfuel hd
    rw [readAllLoop]
    apply Yields.bind (readNext_spec hD h)
    intro (result, self') hn
    generalize self.remaining = s at hn hd hfuel ⊢
    cases hd with
    | clean hf =>
      simp only [hf, if_true] at hn
      simp [hn, errorOf]
    | cut hne hf =>
      simp only [hf, if_neg hne] at hn
      simp [hn, errorOf]
    | failed hf =>
      simp only [hf] at hn
      simp [hn, errorOf]
    | next hf hrest =>
      simp only [hf] at hn
      obtain ⟨rfl, hready, rfl⟩ := hn
      have hlt := hconsumes _ _ _ hf
      apply Yields.bind ((ih hready (by omega) hrest).weaken (fun _ hstop => hD.stop_done hf hstop))
      intro _ hall
      rw [hall]
      rfl

/-- What a stream holds is read off it, whichever way it arrives. -/
theorem readAll_spec (hD : Decodes frame stop eof P)
    (hconsumes : frame.Consumes)
    {self : Reader D} (h : self.Ready P) {values : List α} {d : End ε}
    (hd : Drains frame self.remaining values d) :
    Yields (stop self.remaining) (readAll readNext self) (· = (values, errorOf eof d)) :=
  readAllLoop_spec hD hconsumes _ h (Nat.lt_succ_self _) hd

end Reader
end Grammar
end SimpleKv
