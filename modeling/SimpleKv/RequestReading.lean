import SimpleKv.RequestGrammar

/- The decoder and the readers, against the grammar. Between calls the decoder holds
   the bytes of the request under way from its first byte on, with some of its
   elements already taken over; `Ready` says that what it will make of further bytes
   is what the grammar makes of the whole (`resumes`). So one call answers as the
   grammar does on the buffer (`decodeNext_spec`), one call of a reader answers as
   the grammar does on everything still to come (`readNext_spec`), and reading to
   the end gives what the stream holds (`readAll_spec`). -/
namespace SimpleKv
open Incremental Outcome Request

namespace RequestDecoder

/-- The bytes of the request under way that have not been taken over. -/
def unread (self : RequestDecoder) : Bytes := self.buffer.drop self.cursor

/-- What completes the request under way. -/
def pending (self : RequestDecoder) : Parser UInt8 RequestParseError Request :=
  match self.expectedArgCount with
  | none => frame
  | some expected => elements self.args (expected - self.args.length)

structure Ready (decoder : RequestDecoder) : Prop where
  sound : decoder.poisoned = false
  cursor_le : decoder.cursor ≤ decoder.buffer.length
  idle : decoder.expectedArgCount = none → decoder.cursor = 0 ∧ decoder.args = []
  resumes : ∀ t, decoder.pending.run (decoder.unread ++ t) = frame.run (decoder.buffer ++ t)

/-- Between two requests. -/
theorem Ready.fresh (buffer : Bytes) : Ready { buffer } :=
  ⟨rfl, Nat.zero_le _, fun _ => ⟨rfl, rfl⟩, fun _ => rfl⟩

/-- Bytes that arrive. -/
theorem Ready.receive {self : RequestDecoder} (h : self.Ready) (chunk : Bytes) :
    Ready { self with buffer := self.buffer ++ chunk } where
  sound := h.sound
  cursor_le := by
    rw [List.length_append]
    exact Nat.le_add_right_of_le h.cursor_le
  idle := h.idle
  resumes t := by
    have hunread : unread { self with buffer := self.buffer ++ chunk } = self.unread ++ chunk :=
      List.drop_append_of_le_length h.cursor_le
    rw [hunread, List.append_assoc, List.append_assoc]
    exact h.resumes (chunk ++ t)

/-! The pieces. -/

theorem parseHeader_eq (bytes : Bytes) (b : UInt8) (limit : Nat)
    (expected : UInt8 → RequestParseError) (tooLong : Nat → RequestParseError) :
    parseHeader bytes b limit expected tooLong =
      .ok (match (header b limit expected tooLong).run bytes with
        | .more => .ok none
        | .fail e => .error e
        | .done n r => .ok (some ⟨n, bytes.length - r.length⟩)) := by
  unfold parseHeader parseHeaderWith
  rw [← parseLine, parseLine_eq]
  cases hs : Parser.splitLine 13 10 bytes with
  | none =>
    rw [header_more hs]
    rfl
  | some l =>
    obtain ⟨l, r⟩ := l
    have hbytes := congrArg List.length (Parser.splitLine_eq hs)
    have hparsed : l.length + 2 = bytes.length - r.length := by
      simp only [List.length_append, List.length_cons] at hbytes
      omega
    rw [header_line hs]
    cases l with
    | nil => rfl
    | cons first digits =>
      have hdigits : sliceFrom (first :: digits) 1 = .ok digits :=
        sliceFrom_ok (Nat.succ_le_succ (Nat.zero_le _))
      by_cases hfirst : first = b
      · subst hfirst
        cases hu : fromUtf8 digits with
        | error e =>
          simp [headerValue, hdigits, hu, bind, Except.bind, pure, Except.pure]
        | ok text =>
          cases hp : parseUsize text with
          | error e => simp [headerValue, hdigits, hu, hp, bind, Except.bind, pure, Except.pure]
          | ok n =>
            by_cases hn : n > limit
            · simp [headerValue, hdigits, hu, hp, hn, bind, Except.bind, pure, Except.pure]
            · simp only [headerValue, hdigits, hu, hp, hn, ← hparsed, bind, Except.bind, pure,
                Except.pure, Option.map_some, List.head?_cons, ne_eq, not_true, if_false]
      · simp [headerValue, hfirst, bind, Except.bind, pure, Except.pure]

theorem parseCstr_eq {self : RequestDecoder} (h : self.cursor ≤ self.buffer.length) :
    self.parseCstr = .ok (match item.run self.unread with
      | .more => (.ok none, self)
      | .fail e => (.error e, self)
      | .done cstr r => (.ok (some cstr), { self with cursor := self.buffer.length - r.length })) := by
  unfold parseCstr parseCstrWith
  by_cases hend : self.cursor ≥ self.buffer.length
  · have hnil : self.unread = [] := List.drop_eq_nil_of_le hend
    rw [if_pos hend, hnil, item_nil]
    rfl
  · rw [if_neg hend, sliceFrom_ok h]
    show (parseHeader self.unread _ _ _ _ >>= _) = _
    rw [parseHeader_eq]
    cases hh : (header cstringByte maxComplexStringLength .expectedCString
        .cstringTooLong).run self.unread with
    | more =>
      have hitem : item.run self.unread = .more := Parser.bind_more hh
      rw [hitem]
      rfl
    | fail e =>
      have hitem : item.run self.unread = .fail e := Parser.bind_fail hh
      rw [hitem]
      rfl
    | done n r =>
      have hitem : item.run self.unread = (payload n).run r := Parser.bind_done hh
      obtain ⟨p, hp⟩ := Parser.done_suffix _ hh
      -- the header and what is before it, and the rest
      have hbuf : self.buffer = (self.buffer.take self.cursor ++ p) ++ r := by
        rw [List.append_assoc, ← hp, unread, List.take_append_drop]
      have hstart : self.cursor + (self.unread.length - r.length) =
          (self.buffer.take self.cursor ++ p).length := by
        rw [hp, List.length_append, List.length_append, List.length_take]
        omega
      generalize self.buffer.take self.cursor ++ p = q at hbuf hstart
      have hlen : self.buffer.length = q.length + r.length := by rw [hbuf, List.length_append]
      rw [hitem, payload_run]
      simp only [Arithmetic.unchecked_add, bind, Except.bind, hstart]
      by_cases hn : n + 2 ≤ r.length
      · -- the payload and its terminator are there
        have hcrlf := slice_drop_take q r hn
        have hcstr := slice_take q r (Nat.le_of_add_right_le hn)
        rw [← hbuf] at hcrlf hcstr
        have hcursor : q.length + n + 2 = self.buffer.length - (r.drop (n + 2)).length := by
          rw [List.length_drop]
          omega
        simp only [if_neg (show ¬q.length + n + 2 > self.buffer.length by omega), if_pos hn, hcrlf,
          hcstr]
        by_cases ht : (r.take (n + 2)).drop n = crlf
        · simp only [ht, ne_eq, not_true, if_false, if_true, ← hcursor]
          rfl
        · simp only [ht, ne_eq, not_false_iff, if_true, if_false]
          rfl
      · simp only [if_pos (show q.length + n + 2 > self.buffer.length by omega), if_neg hn]
        rfl

/-! Calls. -/

/-- What a parser leaves of the unread bytes is where the cursor goes. -/
theorem rest_eq_drop {α : Type} {p : Parser UInt8 RequestParseError α} {self : RequestDecoder}
    {a : α} {r : Bytes} (h : p.run self.unread = .done a r) :
    self.buffer.drop (self.buffer.length - r.length) = r := by
  obtain ⟨q, hq⟩ := p.done_suffix h
  have hsuffix : r <:+ self.buffer :=
    ⟨self.buffer.take self.cursor ++ q, by
      rw [List.append_assoc, ← hq, unread, List.take_append_drop]⟩
  exact (List.suffix_iff_eq_drop.mp hsuffix).symm

/-- The loop over the elements does what the grammar does with those that are
    missing; where it has to wait, it has taken over some of them. -/
theorem decodeArgs_spec : ∀ (missing : ℕ) (self : RequestDecoder) {expected : ℕ},
    self.expectedArgCount = some expected → expected - self.args.length = missing →
    self.cursor ≤ self.buffer.length →
    match self.pending.run self.unread with
    | .fail e => ∃ self', decodeArgs missing self = .ok (.error e, self') ∧
        self'.buffer = self.buffer
    | .done request r => decodeArgs missing self =
        .ok (.ok (some request), { buffer := r, poisoned := self.poisoned })
    | .more => ∃ self', decodeArgs missing self = .ok (.ok none, self') ∧
        self'.buffer = self.buffer ∧ self'.poisoned = self.poisoned ∧
        self'.cursor ≤ self'.buffer.length ∧ self'.expectedArgCount = some expected ∧
        ∀ t, self'.pending.run (self'.unread ++ t) = self.pending.run (self.unread ++ t) := by
  intro missing
  induction missing with
  | zero =>
    intro self expected hexp hmiss hcur
    have hpend : self.pending = elements self.args 0 := by
      unfold pending; simp only [hexp, hmiss]
    rw [hpend, Parser.collect_zero, decodeArgs, decodeArgsWith, takeRequest, sliceFrom_ok hcur]
    rfl
  | succ missing ih =>
    intro self expected hexp hmiss hcur
    have hpend : self.pending = elements self.args (missing + 1) := by
      unfold pending; simp only [hexp, hmiss]
    rw [hpend, decodeArgs, decodeArgsWith, ← decodeArgs, ← parseCstr, parseCstr_eq hcur]
    cases hi : item.run self.unread with
    | fail e =>
      rw [Parser.collect_fail hi]
      exact ⟨self, rfl, rfl⟩
    | more =>
      -- the cursor and the elements taken over so far stay as they are
      rw [Parser.collect_more hi]
      exact ⟨self, rfl, rfl, rfl, hcur, hexp, fun t => by rw [hpend]⟩
    | done cstr r =>
      -- one element is taken over, and the rest is a matter of the remaining ones
      have hdrop := rest_eq_drop hi
      have hlen : expected - (self.args ++ [cstr]).length = missing := by
        rw [List.length_append, List.length_singleton]; omega
      have hrest := ih
        { self with cursor := self.buffer.length - r.length, args := self.args ++ [cstr] }
        hexp hlen (Nat.sub_le _ _)
      have hnext : (RequestDecoder.mk (self.buffer.length - r.length) self.expectedArgCount
          self.buffer (self.args ++ [cstr]) self.poisoned).pending =
          elements (self.args ++ [cstr]) missing := by
        unfold pending; simp only [hexp, hlen]
      have hunread : (RequestDecoder.mk (self.buffer.length - r.length) self.expectedArgCount
          self.buffer (self.args ++ [cstr]) self.poisoned).unread = r := hdrop
      rw [hnext, hunread] at hrest
      rw [Parser.collect_done hi]
      cases hr : (elements (self.args ++ [cstr]) missing).run r with
      | fail e =>
        rw [hr] at hrest
        exact hrest
      | done request r' =>
        rw [hr] at hrest
        exact hrest
      | more =>
        rw [hr] at hrest
        obtain ⟨self', hrun, hbuf', hpois', hcur', hexp', hres⟩ := hrest
        refine ⟨self', hrun, hbuf', hpois', hcur', hexp', fun t => ?_⟩
        rw [hres t, Parser.collect_done (item.done_append hi)]

theorem decodeBuffered_spec {self : RequestDecoder} (h : self.Ready) :
    match frame.run self.buffer with
    | .fail e => ∃ self', self.decodeBuffered = .ok (.error e, self') ∧ self'.buffer = self.buffer
    | .done request r => self.decodeBuffered = .ok (.ok (some request), { buffer := r })
    | .more => ∃ self', self.decodeBuffered = .ok (.ok none, self') ∧ self'.Ready ∧
        self'.buffer = self.buffer := by
  have hres := h.resumes
  have hrun := hres []
  rw [List.append_nil, List.append_nil] at hrun
  rw [← hrun, decodeBuffered, decodeBufferedWith, ← decodeArgs, ← parseHeader]
  cases hexp : self.expectedArgCount with
  | some expected =>
    -- an earlier call has read the header of the array
    have hargs := decodeArgs_spec _ self hexp rfl h.cursor_le
    cases hp : self.pending.run self.unread with
    | fail e => rw [hp] at hargs; exact hargs
    | done request r => rw [hp, h.sound] at hargs; exact hargs
    | more =>
      rw [hp] at hargs
      obtain ⟨self', hd, hbuf, hpois, hcur, hexp', hres'⟩ := hargs
      refine ⟨self', hd, ⟨hpois.trans h.sound, hcur, fun hn => ?_, fun t => ?_⟩, hbuf⟩
      · rw [hexp'] at hn; cases hn
      · rw [hres' t, hres t, hbuf]
  | none =>
    -- the request starts at the beginning of the buffer
    obtain ⟨hcur0, hargs0⟩ := h.idle hexp
    have hpend : self.pending = frame := by unfold pending; simp only [hexp]
    have hunread : self.unread = self.buffer := by unfold unread; rw [hcur0]; rfl
    rw [hpend, hunread, parseHeader_eq]
    cases hh : (header arrayByte maxArrayLength .expectedArray .arrayTooLong).run self.buffer with
    | more =>
      have hframe : frame.run self.buffer = .more := Parser.bind_more hh
      rw [hframe]
      exact ⟨self, rfl, h, rfl⟩
    | fail e =>
      have hframe : frame.run self.buffer = .fail e := Parser.bind_fail hh
      rw [hframe]
      exact ⟨self, rfl, rfl⟩
    | done n r =>
      have hframe : frame.run self.buffer = (elements [] n).run r := Parser.bind_done hh
      have hdrop : self.buffer.drop (self.buffer.length - r.length) = r :=
        rest_eq_drop (by rw [hunread]; exact hh)
      have hargs := decodeArgs_spec (n - self.args.length)
        { self with expectedArgCount := some n, cursor := self.buffer.length - r.length }
        rfl rfl (Nat.sub_le _ _)
      have hnext : (RequestDecoder.mk (self.buffer.length - r.length) (some n) self.buffer
          self.args self.poisoned).pending = elements [] n := by
        unfold pending; simp only [hargs0, List.length_nil, Nat.sub_zero]
      have hunread' : (RequestDecoder.mk (self.buffer.length - r.length) (some n) self.buffer
          self.args self.poisoned).unread = r := hdrop
      rw [hnext, hunread'] at hargs
      rw [hframe]
      cases hr : (elements [] n).run r with
      | fail e => rw [hr] at hargs; exact hargs
      | done request r' =>
        rw [hr] at hargs
        exact Eq.trans hargs (by rw [h.sound])
      | more =>
        rw [hr] at hargs
        obtain ⟨self', hd, hbuf, hpois, hcur, hexp', hres'⟩ := hargs
        refine ⟨self', hd, ⟨hpois.trans h.sound, hcur, fun hn => ?_, fun t => ?_⟩, hbuf⟩
        · rw [hexp'] at hn; cases hn
        · have hwhole : frame.run (self.buffer ++ t) = (elements [] n).run (r ++ t) :=
            Parser.bind_done (Parser.done_append _ hh)
          rw [hres' t, hbuf, hwhole]

/-- One call answers as the grammar does on the buffer. -/
theorem decodeNext_spec {self : RequestDecoder} (h : self.Ready) :
    match frame.run self.buffer with
    | .fail e => ∃ self', self.decodeNext = .ok (.error e, self') ∧ self'.buffer = self.buffer
    | .done request r => self.decodeNext = .ok (.ok (some request), { buffer := r })
    | .more => ∃ self', self.decodeNext = .ok (.ok none, self') ∧ self'.Ready ∧
        self'.buffer = self.buffer := by
  have hb := decodeBuffered_spec h
  unfold decodeNext decodeNextWith
  rw [← decodeBuffered]
  simp only [h.sound, if_false, Bool.false_eq_true]
  cases hf : frame.run self.buffer with
  | fail e =>
    rw [hf] at hb
    obtain ⟨self', hd, hbuf⟩ := hb
    rw [hd]
    exact ⟨_, rfl, hbuf⟩
  | done request r =>
    rw [hf] at hb
    rw [hb]
    rfl
  | more =>
    rw [hf] at hb
    obtain ⟨self', hd, hready, hbuf⟩ := hb
    rw [hd]
    exact ⟨self', rfl, hready, hbuf⟩

theorem Ready.validateEof {self : RequestDecoder} (h : self.Ready) :
    self.validateEof = if self.buffer = [] then .ok () else .error .unexpectedEof := by
  unfold RequestDecoder.validateEof
  rw [h.sound]
  cases self.buffer with
  | nil => rfl
  | cons b s => rfl

/-- Each call answers as the grammar does on the buffer. -/
theorem decodes : Decodes frame (fun _ _ => False) .unexpectedEof Ready where
  stop_append h _ := h
  stop_done _ h := h
  decodeNext := by
    intro decoder h
    have hd := decodeNext_spec h
    change Yields _ decoder.decodeNext _
    cases hf : frame.run decoder.buffer with
    | fail e =>
      rw [hf] at hd
      obtain ⟨decoder', hrun, _⟩ := hd
      simp [hrun]
    | done request r =>
      rw [hf] at hd
      simp [hd, Decoder.buffer, Ready.fresh]
    | more =>
      rw [hf] at hd
      obtain ⟨decoder', hrun, hready, hbuf⟩ := hd
      simp [hrun, Decoder.buffer, hready, hbuf]
  extend h chunk := ⟨h.receive chunk, rfl⟩
  validateEof h := h.validateEof

end RequestDecoder

/-! Reading a source to its end. -/

namespace RequestReader
open Reader

abbrev Ready (reader : RequestReader) : Prop := Reader.Ready RequestDecoder.Ready reader

theorem Ready.new {source : Source} (h : ∀ chunk ∈ source, chunk ≠ []) : Ready (new source) :=
  ⟨.fresh [], h⟩

/-- One call of a reader answers as the grammar does on everything to come. -/
theorem readNext_spec {self : RequestReader} (h : self.Ready) :
    match frame.run self.remaining with
    | .fail e => ∃ self', self.readNext = .ok (.error e, self')
    | .done request r => ∃ self', self.readNext = .ok (.ok (some request), self') ∧
        self'.Ready ∧ self'.remaining = r
    | .more => ∃ self', self.readNext =
        .ok (if self.remaining = [] then .ok none else .error .unexpectedEof, self') := by
  obtain ⟨⟨result, self'⟩, hrun, hn⟩ := (Reader.readNext_spec RequestDecoder.decodes h).exists_ok
  unfold readNext
  rw [hrun]
  cases hf : frame.run self.remaining with
  | fail e =>
    simp only [hf] at hn
    exact ⟨self', by rw [hn]⟩
  | done request r =>
    simp only [hf] at hn
    exact ⟨self', by rw [hn.1], hn.2⟩
  | more =>
    simp only [hf] at hn
    exact ⟨self', by rw [hn]⟩

/-- What is still to come is `requests`, and then the stream ends in `d`. -/
structure Upcoming (self : RequestReader) (requests : List Request) (d : End RequestParseError) :
    Prop where
  ready : self.Ready
  drains : Drains frame self.remaining requests d

theorem Upcoming.new {source : Source} (hne : ∀ chunk ∈ source, chunk ≠ [])
    {requests : List Request} {d : End RequestParseError}
    (hd : Drains frame source.flatten requests d) : Upcoming (new source) requests d := by
  refine ⟨.new hne, ?_⟩
  show Drains frame ([] ++ source.flatten) requests d
  rw [List.nil_append]
  exact hd

theorem Upcoming.readNext_cons {self : RequestReader} {request : Request} {requests : List Request}
    {d : End RequestParseError} (h : self.Upcoming (request :: requests) d) :
    ∃ self', self.readNext = .ok (.ok (some request), self') ∧ self'.Upcoming requests d ∧
      self'.remaining.length < self.remaining.length := by
  obtain ⟨hready, hd⟩ := h
  have hn := readNext_spec hready
  generalize self.remaining = s at hn hd
  cases hd with
  | next hf hrest =>
    have hlt := frame_consumes _ _ _ hf
    rw [hf] at hn
    obtain ⟨self', hrun, hready', rfl⟩ := hn
    exact ⟨self', hrun, ⟨hready', hrest⟩, hlt⟩

theorem Upcoming.readNext_nil {self : RequestReader} {d : End RequestParseError}
    (h : self.Upcoming [] d) : ∃ self', self.readNext = .ok (match errorOf .unexpectedEof d with
      | none => .ok none
      | some e => .error e, self') := by
  obtain ⟨hready, hd⟩ := h
  have hn := readNext_spec hready
  generalize self.remaining = s at hn hd
  cases hd with
  | clean hf =>
    rw [hf] at hn
    exact hn
  | cut hne hf =>
    rw [hf, if_neg hne] at hn
    exact hn
  | failed hf =>
    rw [hf] at hn
    exact hn

/-- What a stream holds is read off it, whichever way it arrives. -/
theorem readAll_spec {source : Source} (hne : ∀ chunk ∈ source, chunk ≠ [])
    {requests : List Request} {d : End RequestParseError}
    (hd : Drains frame source.flatten requests d) :
    readAll readNext (new source) = .ok (requests, errorOf .unexpectedEof d) := by
  obtain ⟨_, hrun, rfl⟩ := (Reader.readAll_spec RequestDecoder.decodes frame_consumes
    (Ready.new hne) hd).exists_ok
  exact hrun

theorem exists_drains (s : Bytes) : ∃ requests d, Drains frame s requests d :=
  Drains.exists_of_consumes frame_nil frame_consumes _ s (Nat.le_refl _)

/-- Two ways of cutting a stream, and either reader, give the same requests and the
    same end. -/
theorem readAll_of_flatten_eq {source source' : Source} (hne : ∀ chunk ∈ source, chunk ≠ [])
    (hne' : ∀ chunk ∈ source', chunk ≠ []) (hflat : source.flatten = source'.flatten) :
    ∃ result, readAll readNext (new source) = .ok result ∧
      readAll readNextAsync (new source) = .ok result ∧
      readAll readNext (new source') = .ok result ∧
      readAll readNextAsync (new source') = .ok result := by
  obtain ⟨requests, d, hd⟩ := exists_drains source.flatten
  have h := readAll_spec hne hd
  rw [hflat] at hd
  have h' := readAll_spec hne' hd
  exact ⟨_, h, h, h', h'⟩

/-- A request some stream holds. -/
def Accepted (request : Request) : Prop :=
  ∃ source : Source, (∀ chunk ∈ source, chunk ≠ []) ∧ ∃ requests ending,
    readAll readNext (new source) = .ok (requests, ending) ∧ request ∈ requests

theorem Accepted.withinLimits {request : Request} (h : Accepted request) :
    request.WithinLimits := by
  obtain ⟨source, hne, requests, ending, hrun, hm⟩ := h
  obtain ⟨requests', d, hd⟩ := exists_drains source.flatten
  rw [readAll_spec hne hd] at hrun
  cases hrun
  obtain ⟨s, r, hf⟩ := hd.run_of_mem hm
  exact frame_withinLimits hf

/-- A request within the limits is accepted: its own bytes hold it. -/
theorem accepted_of_withinLimits {request : Request} (h : request.WithinLimits) :
    Accepted request := by
  have hd : Drains frame [request.toBytes].flatten [request] .clean :=
    .next ((frame_encodes h).run_append []) (.clean frame_nil)
  refine ⟨[request.toBytes], fun chunk hc => ?_, [request], none,
    readAll_spec (fun chunk hc => ?_) hd, List.mem_singleton.mpr rfl⟩
  all_goals
    rw [List.mem_singleton.mp hc]
    exact List.cons_ne_nil _ _

/-- A request of one element, whole and cut inside its CRLFs. -/
theorem readAll_of_flatten_eq_split :
    ∃ result, readAll readNext (new [asBytes "*1\r\n$1\r\na\r\n"]) = .ok result ∧
      readAll readNextAsync (new [asBytes "*1\r\n$1\r\na\r\n"]) = .ok result ∧
      readAll readNext (new [asBytes "*1\r", asBytes "\n$1\r\na\r", asBytes "\n"]) =
        .ok result ∧
      readAll readNextAsync (new [asBytes "*1\r", asBytes "\n$1\r\na\r", asBytes "\n"]) =
        .ok result :=
  readAll_of_flatten_eq (by decide) (by decide) (by decide)

end RequestReader
end SimpleKv
