import SimpleKv.ResponseGrammar

/- The response decoder against the grammar. It starts over with every chunk, so a call
   depends on the buffer alone: it answers as the grammar does on the buffer, unless
   an array header asks for more room than can be addressed. The fuel of the nested
   calls is the length of what they are given, which shrinks by a header line from
   one level to the next. -/
namespace SimpleKv
open Incremental Parser Outcome

namespace ResponseDecoder
open Response (lineValue lineInt sstrValue sstr errorValue errorLine integerLine cstrBody cstrFrame
  arrayBody frameOf frame frame_nil frame_cons)

/-- The answer of the grammar, as a parse function returns it. -/
def outcome {α : Type} (bytes : Bytes) : Step UInt8 ParseError α → ParseResult α
  | .more => .ok none
  | .fail e => .error e
  | .done value r => .ok (some ⟨value, bytes.length - r.length⟩)

theorem le_of_outcome {α : Type} {bytes : Bytes} {step : Step UInt8 ParseError α} {parsed : Parsed α}
    (h : outcome bytes step = .ok (some parsed)) : parsed.numBytesParsed ≤ bytes.length := by
  cases step with
  | more => cases h
  | fail e => cases h
  | done value r =>
    cases h
    exact Nat.sub_le _ _

section Line
variable {first : UInt8} {s : Bytes}

/-- A parse function that goes on from the first line. -/
theorem parseLine_bind {α : Type} (hfirst : first ≠ 13) {value : Bytes → Except ParseError α}
    {next : Parsed Bytes → Rust (ParseResult α)}
    (hnext : ∀ b data n, next ⟨b :: data, n⟩ = .ok (match value (b :: data) with
      | .error e => .error e
      | .ok a => .ok (some ⟨a, n⟩))) :
    (parseLine (first :: s) >>= fun line? => match line? with
      | none => return .ok none
      | some line => next line) =
      .ok (outcome (first :: s)
        (((line 13 10).bind (fun data => ofExcept (value data))).run (first :: s))) := by
  rw [parseLine_eq]
  cases hs : splitLine 13 10 (first :: s) with
  | none =>
    rw [bind_more (line_more hs)]
    rfl
  | some l =>
    obtain ⟨data, r⟩ := l
    have hbytes := splitLine_eq hs
    cases data with
    | nil => exact absurd (List.cons.inj hbytes).1 hfirst
    | cons b data =>
      have hlen := congrArg List.length hbytes
      have hparsed : (b :: data).length + 2 = (first :: s).length - r.length := by
        simp at hlen ⊢
        omega
      rw [bind_done (line_done hs)]
      apply (hnext b data _).trans
      rw [hparsed]
      cases value (b :: data) with
      | error e => rfl
      | ok a => rfl

theorem sliceFrom_one (b : UInt8) (data : Bytes) : sliceFrom (b :: data) 1 = .ok data :=
  sliceFrom_ok (by simp)

theorem parseSstr_eq (hfirst : first ≠ 13) :
    parseSstr (first :: s) = .ok (outcome (first :: s) (sstr.run (first :: s))) := by
  apply parseLine_bind hfirst
  intro b data n
  unfold sstrValue
  rw [sliceFrom_one]
  by_cases hbody : data = okBody
  · simp [hbody]; rfl
  · simp [hbody]; rfl

theorem parseError_eq (hfirst : first ≠ 13) :
    parseError (first :: s) = .ok (outcome (first :: s) (errorLine.run (first :: s))) := by
  apply parseLine_bind hfirst
  intro b data n
  unfold errorValue
  rw [sliceFrom_one]
  cases hutf8 : fromUtf8 data with
  | error e => simp [hutf8]; rfl
  | ok msg => simp [hutf8]; rfl

theorem parseLineInt_eq (hfirst : first ≠ 13) :
    parseLineInt (first :: s) = .ok (outcome (first :: s) (lineInt.run (first :: s))) := by
  apply parseLine_bind hfirst
  intro b data n
  unfold lineValue
  rw [sliceFrom_one]
  cases hutf8 : fromUtf8 data with
  | error e => simp [hutf8]; rfl
  | ok text =>
    cases hint : parseI64 text with
    | error e => simp [hutf8, hint]; rfl
    | ok n => simp [hutf8, hint]; rfl

theorem parseInteger_eq (hfirst : first ≠ 13) :
    parseInteger (first :: s) = .ok (outcome (first :: s) (integerLine.run (first :: s))) := by
  unfold parseInteger parseIntegerWith integerLine
  rw [← parseLineInt, parseLineInt_eq hfirst]
  cases hline : lineInt.run (first :: s) with
  | more => rw [bind_more hline]; rfl
  | fail e => rw [bind_fail hline]; rfl
  | done n r => rw [bind_done hline]; rfl

end Line

/-- The payload of a complex string, after a header of `q.length` bytes. -/
theorem parseCstr_eq {first : UInt8} {s : Bytes} (hfirst : first ≠ 13) :
    parseCstr (first :: s) = .ok (outcome (first :: s) (cstrFrame.run (first :: s))) := by
  unfold parseCstr parseCstrWith cstrFrame
  rw [← parseLineInt, parseLineInt_eq hfirst]
  cases hline : lineInt.run (first :: s) with
  | more => rw [bind_more hline]; rfl
  | fail e => rw [bind_fail hline]; rfl
  | done len r =>
    rw [bind_done hline]
    obtain ⟨q, hq⟩ := lineInt.done_suffix hline
    rw [hq]
    have hstart : (q ++ r).length - r.length = q.length := by simp
    simp only [outcome, Arithmetic.unchecked_add, Arithmetic.unchecked_usizeFrom, ok_bind, hstart,
      cstrBody]
    by_cases hnull : len = nullCstrLen
    · simp only [hnull, if_true]
      rw [← hstart]
      rfl
    by_cases hneg : len < 0
    · simp only [hnull, hneg, if_true, if_false]
      rfl
    generalize len.toUInt64.toNat = n
    by_cases hlong : n > maxComplexStringLength
    · simp only [hnull, hneg, hlong, if_true, if_false]
      rfl
    simp only [hnull, hneg, hlong, if_false]
    have hblock := block_run n crlf ParseError.missingCrlf r
    by_cases hn : n + 2 ≤ r.length
    · have hterminator := slice_drop_take q r hn
      have hcstr := slice_take q r (Nat.le_of_add_right_le hn)
      have hfits : ¬q.length + n + 2 > (q ++ r).length := by simp; omega
      rw [if_pos (show n + crlf.length ≤ r.length from hn)] at hblock
      simp only [hfits, hterminator, hcstr, ok_bind, if_false]
      by_cases hcrlf : (r.take (n + 2)).drop n = crlf
      · rw [if_pos (show (r.take (n + crlf.length)).drop n = crlf from hcrlf)] at hblock
        rw [bind_done hblock]
        have hparsed : q.length + n + 2 = (q ++ r).length - (r.drop (n + crlf.length)).length := by
          simp [crlf]
          omega
        simp only [hcrlf, ne_eq, not_true, if_false, hparsed]
        rfl
      · rw [if_neg (show ¬(r.take (n + crlf.length)).drop n = crlf from hcrlf)] at hblock
        rw [bind_fail hblock]
        simp [hcrlf]
        rfl
    · have hlacks : q.length + n + 2 > (q ++ r).length := by simp; omega
      rw [if_neg (show ¬n + crlf.length ≤ r.length from hn)] at hblock
      rw [bind_more hblock]
      simp only [hlacks, if_true]
      rfl

/-! Arrays. -/

/-- An array of the buffer asks for more room than can be addressed: the one the buffer
    starts with, or one nested in it, after `k` complete elements. -/
inductive Oversized : Bytes → Prop where
  | header {s r : Bytes} {len : Int64} : lineInt.run (arrayByte :: s) = .done len r → ¬len < 0 →
      isizeMax < len.toUInt64.toNat * responseSize → Oversized (arrayByte :: s)
  | element {s r t : Bytes} {len : Int64} {k : ℕ} : lineInt.run (arrayByte :: s) = .done len r →
      ¬len < 0 → len.toUInt64.toNat * responseSize ≤ isizeMax → k < len.toUInt64.toNat →
      After frame k r t → Oversized t → Oversized (arrayByte :: s)

/-- What the decoder reaches in a buffer, it reaches when more has arrived. -/
theorem Oversized.append {s : Bytes} (h : Oversized s) (t : Bytes) : Oversized (s ++ t) := by
  induction h with
  | header hline hneg hroom => exact .header (lineInt.done_append hline) hneg hroom
  | element hline hneg hroom hk hafter _ ih =>
    exact .element (lineInt.done_append hline) hneg hroom hk (hafter.append t) ih

/-- Such an array is in the stream, after `k` complete responses. -/
def Exceeds (stream : Bytes) : Prop := ∃ k t, After frame k stream t ∧ Oversized t

theorem Exceeds.append {s : Bytes} (h : Exceeds s) (t : Bytes) : Exceeds (s ++ t) := by
  obtain ⟨k, u, hafter, hover⟩ := h
  exact ⟨k, u ++ t, hafter.append t, hover.append t⟩

theorem Exceeds.done {s r : Bytes} {response : Response} (hdone : frame.run s = .done response r)
    (h : Exceeds r) : Exceeds s := by
  obtain ⟨k, u, hafter, hover⟩ := h
  exact ⟨k + 1, u, .succ hdone hafter, hover⟩

/-- `x` returns a value with `post`, unless `bytes` ask for too much room. -/
abbrev Allocates {α : Type} (bytes : Bytes) (x : Rust α) (post : α → Prop) : Prop :=
  Yields (fun f => f.OutOfMemory ∧ Oversized bytes) x post

/-- The loop over the elements, when `parse` reads what is left of `bytes` as
    `response` does. -/
theorem parseElements_spec {stop : Fault → Prop} {parse : Bytes → Rust (ParseResult Response)}
    {response : Parser UInt8 ParseError Response} {bytes start : Bytes} {n : ℕ}
    (hparse : ∀ k q s, k < n → After response k start s → q ≠ [] → bytes = q ++ s →
      Yields stop (parse s) (· = outcome s (response.run s))) :
    ∀ (missing k : ℕ) (q s : Bytes) (responses : List Response), k + missing = n →
      After response k start s → q ≠ [] → bytes = q ++ s →
      Yields stop (parseElements parse bytes missing responses q.length)
        (· = outcome bytes ((response.collect Response.array responses missing).run s)) := by
  intro missing
  induction missing with
  | zero =>
    intro k q s responses hk hafter hq hbytes
    have hparsed : q.length = bytes.length - s.length := by simp [hbytes]
    rw [parseElements, parseElementsWith, collect_zero, hparsed]
    rfl
  | succ missing ih =>
    intro k q s responses hk hafter hq hbytes
    have hslice : sliceFrom bytes q.length = .ok s := by
      rw [hbytes, sliceFrom_ok (by simp), List.drop_left]
    rw [parseElements, parseElementsWith, ← parseElements, hslice, ok_bind]
    apply Yields.bind (hparse k q s (by omega) hafter hq hbytes)
    intro _ hresult
    subst hresult
    cases hs : response.run s with
    | more => rw [collect_more hs]; rfl
    | fail e => rw [collect_fail hs]; rfl
    | done value r =>
      have hafter' := hafter.snoc hs
      -- the element is the part of `s` before `r`
      obtain ⟨p, rfl⟩ := response.done_suffix hs
      have hnext := ih (k + 1) (q ++ p) r (responses ++ [value]) (by omega) hafter' (by simp [hq])
        (by simp [hbytes])
      have hparsed : (q ++ p).length = q.length + ((p ++ r).length - r.length) := by simp
      rw [hparsed] at hnext
      rw [collect_done hs]
      exact hnext

theorem parseArray_spec {parse : Bytes → Rust (ParseResult Response)} {s : Bytes}
    (hparse : ∀ t, t.length < (arrayByte :: s).length →
      Allocates t (parse t) (· = outcome t (frame.run t))) :
    Allocates (arrayByte :: s) (parseArray parse (arrayByte :: s))
      (· = outcome (arrayByte :: s) ((lineInt.bind (arrayBody frame)).run (arrayByte :: s))) := by
  unfold parseArray parseArrayWith
  rw [← parseLineInt, ← parseElements, parseLineInt_eq (by decide)]
  cases hline : lineInt.run (arrayByte :: s) with
  | more => rw [bind_more hline]; rfl
  | fail e => rw [bind_fail hline]; rfl
  | done len r =>
    rw [bind_done hline]
    have hlt := Response.lineInt_consumes _ _ _ hline
    obtain ⟨q, hq⟩ := lineInt.done_suffix hline
    have hstart : (arrayByte :: s).length - r.length = q.length := by simp [hq]
    simp only [outcome, Arithmetic.unchecked_usizeFrom, ok_bind, hstart, arrayBody]
    by_cases hneg : len < 0
    · simp only [hneg, if_true]
      rfl
    simp only [hneg, if_false]
    by_cases hroom : isizeMax < len.toUInt64.toNat * responseSize
    · -- no machine has this much memory
      unfold reserve
      rw [dif_pos hroom]
      exact ⟨trivial, .header hline hneg hroom⟩
    · have hne : q ≠ [] := by
        intro heq
        subst heq
        rw [hq] at hlt
        exact absurd hlt (Nat.lt_irrefl _)
      rw [reserve_ok (Nat.not_lt.mp hroom), ok_bind]
      apply parseElements_spec _ _ 0 q r [] (Nat.zero_add _) (.zero r) hne hq
      intro k q' t hk hafter hq' ht
      have hpos := List.length_pos_iff.mpr hq'
      have hlen := congrArg List.length ht
      rw [List.length_append] at hlen
      apply Yields.weaken (hparse t (by omega))
      intro f hf
      exact ⟨hf.1, .element hline hneg (Nat.not_lt.mp hroom) hk hafter hf.2⟩

/-! Calls. -/

/-- A parse of a response answers as the grammar does. -/
theorem parseResponseAt_allocates : ∀ (depth : ℕ) (bytes : Bytes), bytes.length < depth →
    Allocates bytes (parseResponseAt depth bytes) (· = outcome bytes (frame.run bytes)) := by
  intro depth
  induction depth with
  | zero =>
    intro bytes hlen
    omega
  | succ depth ih =>
    intro bytes hlen
    rw [parseResponseAt, parseResponseAtWith, ← parseResponseAt, ← parseSstr, ← parseError, ← parseCstr,
      ← parseInteger, ← parseArray]
    cases bytes with
    | nil =>
      rw [frame_nil]
      rfl
    | cons first s =>
      rw [frame_cons]
      simp only [List.head?_cons, frameOf]
      by_cases hsstr : first = sstrByte
      · subst hsstr
        rw [if_pos rfl, if_pos rfl, parseSstr_eq (by decide)]
        rfl
      rw [if_neg hsstr, if_neg hsstr]
      by_cases herror : first = errorByte
      · subst herror
        rw [if_pos rfl, if_pos rfl, parseError_eq (by decide)]
        rfl
      rw [if_neg herror, if_neg herror]
      by_cases hcstr : first = cstringByte
      · subst hcstr
        rw [if_pos rfl, if_pos rfl, parseCstr_eq (by decide)]
        rfl
      rw [if_neg hcstr, if_neg hcstr]
      by_cases hinteger : first = integerByte
      · subst hinteger
        rw [if_pos rfl, if_pos rfl, parseInteger_eq (by decide)]
        rfl
      rw [if_neg hinteger, if_neg hinteger]
      by_cases harray : first = arrayByte
      · subst harray
        rw [if_pos rfl, if_pos rfl]
        apply parseArray_spec
        intro t ht
        exact ih t (by omega)
      rw [if_neg harray, if_neg harray]
      rfl

theorem parseResponseAt_spec (depth : ℕ) (bytes : Bytes) (h : bytes.length < depth) :
    Completes (parseResponseAt depth bytes) (· = outcome bytes (frame.run bytes)) :=
  Yields.weaken (parseResponseAt_allocates depth bytes h) (fun _ hf => hf.1)

theorem decodeBuffered_spec (self : ResponseDecoder) :
    Allocates self.buffer self.decodeBuffered (fun r => match frame.run self.buffer with
      | .fail e => r = (.error e, self)
      | .done response rest => r = (.ok (some response), { self with buffer := rest })
      | .more => r = (.ok none, self)) := by
  unfold decodeBuffered decodeBufferedWith
  rw [← parseResponse]
  apply Yields.bind (parseResponseAt_allocates _ self.buffer (Nat.lt_succ_self _))
  intro _ hresult
  subst hresult
  cases hf : frame.run self.buffer with
  | fail e => rfl
  | more => rfl
  | done response rest =>
    obtain ⟨q, hq⟩ := frame.done_suffix hf
    have hslice : sliceFrom self.buffer (self.buffer.length - rest.length) = .ok rest := by
      rw [sliceFrom_ok (Nat.sub_le _ _)]
      simp [hq]
    simp only [outcome, hslice, ok_bind]
    rfl

theorem decodeNext_spec {self : ResponseDecoder} (h : self.poisoned = false) :
    Allocates self.buffer self.decodeNext (fun r => match frame.run self.buffer with
      | .fail e => r = (.error e, { self with poisoned := true })
      | .done response rest => r = (.ok (some response), { self with buffer := rest })
      | .more => r = (.ok none, self)) := by
  unfold decodeNext decodeNextWith
  rw [if_neg (by simp [h])]
  apply Yields.bind (decodeBuffered_spec self)
  intro (result, self') hr
  cases hf : frame.run self.buffer with
  | fail e =>
    simp only [hf] at hr
    cases hr
    rfl
  | more =>
    simp only [hf] at hr
    cases hr
    rfl
  | done response rest =>
    simp only [hf] at hr
    cases hr
    rfl

/-- In a sound decoder each call answers as the grammar does on the buffer. -/
theorem decodes : Decodes frame (fun s f => f.OutOfMemory ∧ Exceeds s) .unexpectedEof
    (fun decoder : ResponseDecoder => decoder.poisoned = false) where
  stop_append h t := ⟨h.1, h.2.append t⟩
  stop_done hdone h := ⟨h.1, h.2.done hdone⟩
  decodeNext := by
    intro decoder h
    apply Yields.mono (Yields.weaken (decodeNext_spec h)
      (fun _ hf => ⟨hf.1, 0, decoder.buffer, .zero _, hf.2⟩))
    intro (result, decoder') hr
    cases hf : frame.run decoder.buffer with
    | fail e =>
      simp only [hf] at hr
      cases hr
      rfl
    | more =>
      simp only [hf] at hr
      cases hr
      exact ⟨rfl, h, rfl⟩
    | done response rest =>
      simp only [hf] at hr
      cases hr
      exact ⟨rfl, h, rfl⟩
  extend h chunk := ⟨h, rfl⟩
  validateEof := by
    intro decoder h
    change decoder.validateEof = if decoder.buffer = [] then _ else _
    unfold validateEof
    cases hb : decoder.buffer with
    | nil => simp [h]
    | cons b s => simp [h]

end ResponseDecoder

/-! Reading a source to its end. -/

namespace ResponseReader
open Reader Response
open ResponseDecoder (Exceeds)

/-- The responses a stream holds are read off it, whichever way it arrives, unless an array of
    it is too large. -/
theorem readAll_allocates {source : Source} (hne : ∀ chunk ∈ source, chunk ≠ [])
    {responses : List Response} {d : End ParseError}
    (hd : Drains frame source.flatten responses d) :
    Yields (fun f => f.OutOfMemory ∧ Exceeds source.flatten) (readAll readNext (new source))
      (· = (responses, errorOf .unexpectedEof d)) :=
  Reader.readAll_spec ResponseDecoder.decodes frame_consumes ⟨rfl, hne⟩ hd

theorem readAll_spec {source : Source} (hne : ∀ chunk ∈ source, chunk ≠ [])
    {responses : List Response} {d : End ParseError}
    (hd : Drains frame source.flatten responses d) :
    Completes (readAll readNext (new source)) (· = (responses, errorOf .unexpectedEof d)) :=
  (readAll_allocates hne hd).weaken (fun _ hf => hf.1)

theorem exists_drains (s : Bytes) : ∃ responses d, Drains frame s responses d :=
  Drains.exists_of_consumes frame_nil frame_consumes _ s (Nat.le_refl _)

/-- The bytes of responses that may be errors of any text are read back as these
    responses exactly when no text holds a CRLF. -/
theorem readAll_iff {source : Source} (hne : ∀ chunk ∈ source, chunk ≠ [])
    {responses : List Response} (hflat : source.flatten = responses.flatMap toBytes)
    (h : ∀ response ∈ responses, response.Wire ∨ ∃ msg, response = .error msg) :
    Completes (readAll readNext (new source)) (fun result =>
      result = (responses, none) ↔ ∀ response ∈ responses, response.Wire) := by
  obtain ⟨found, d, hd⟩ := exists_drains source.flatten
  apply Yields.mono (readAll_spec hne hd)
  intro result hresult
  subst hresult
  rw [hflat] at hd
  constructor
  · intro heq
    obtain ⟨rfl, _⟩ := Prod.mk.inj heq
    exact wire_of_drains h hd
  · intro hwire
    obtain ⟨rfl, rfl⟩ := hd.unique (drains_of_wire hwire)
    rfl

/-- The reader gives `result`. It stops only for want of memory, before an array of the stream
    that is too large. -/
abbrev Gives (source : Source)
    (next : ResponseReader → Rust (Except ParseError (Option Response) × ResponseReader))
    (result : List Response × Option ParseError) : Prop :=
  Yields (fun f => f.OutOfMemory ∧ Exceeds source.flatten)
    (readAll next (new source)) (· = result)

/-- Two ways of cutting a stream, and either reader, give the same responses and the same
    end, where there is room for the arrays of the stream. -/
theorem readAll_of_same_bytes {source source' : Source} (hne : ∀ chunk ∈ source, chunk ≠ [])
    (hne' : ∀ chunk ∈ source', chunk ≠ []) (hflat : source.flatten = source'.flatten) :
    ∃ result, Gives source readNext result ∧ Gives source readNextAsync result ∧
      Gives source' readNext result ∧ Gives source' readNextAsync result := by
  obtain ⟨responses, d, hd⟩ := exists_drains source.flatten
  have h := readAll_allocates hne hd
  rw [hflat] at hd
  have h' := readAll_allocates hne' hd
  exact ⟨_, h, h, h', h'⟩

/-- An array in an array, whole and cut inside its headers. -/
theorem readAll_of_same_bytes_nested :
    ∃ result, Gives [asBytes "*1\r\n*1\r\n:7\r\n"] readNext result ∧
      Gives [asBytes "*1\r\n*1\r\n:7\r\n"] readNextAsync result ∧
      Gives [asBytes "*", asBytes "1\r\n*1\r", asBytes "\n:7\r\n"] readNext result ∧
      Gives [asBytes "*", asBytes "1\r\n*1\r", asBytes "\n:7\r\n"] readNextAsync result :=
  readAll_of_same_bytes (by decide) (by decide) (by decide)

end ResponseReader
end SimpleKv
