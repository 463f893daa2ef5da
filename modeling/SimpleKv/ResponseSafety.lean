import SimpleKv.ResponseChecked

/- Which buffers the response decoder can be given. It answers every buffer but those with
   an `Oversized` array: `parse_array` reserves room for as many elements as the header
   says, before any of them has arrived, and there is no bound on the header. A response
   that lies in memory itself has no such array, so its bytes are decoded to what they
   encode, whatever comes after them. -/
namespace SimpleKv
open Incremental Parser Outcome

namespace ResponseDecoder
open Response (lineInt frame)

/-- Before an array that is too large the loop over the elements does not get through. -/
theorem parseElements_oversized {parse : Bytes → Rust (ParseResult Response)} {bytes : Bytes}
    (hparse : ∀ q s, q ≠ [] → bytes = q ++ s → Completes (parse s) (· = outcome s (frame.run s))) :
    ∀ {k missing : ℕ} {q s t : Bytes} (responses : List Response), k < missing → After frame k s t →
      q ≠ [] → bytes = q ++ s → Completes (parse t) (fun _ => False) →
      Completes (parseElements parse bytes missing responses q.length) (fun _ => False) := by
  intro k missing q s t responses hk hafter
  induction hafter generalizing missing q responses with
  | zero t =>
    intro hq hbytes hover
    have hslice : sliceFrom bytes q.length = .ok t := by
      rw [hbytes, sliceFrom_ok (by simp), List.drop_left]
    obtain ⟨missing, rfl⟩ := Nat.exists_eq_succ_of_ne_zero (Nat.ne_of_gt hk)
    rw [parseElements, parseElementsWith, ← parseElements, hslice, ok_bind]
    exact Yields.bind hover (fun _ h => h.elim)
  | @succ k s r t value hs _ ih =>
    intro hq hbytes hover
    have hslice : sliceFrom bytes q.length = .ok s := by
      rw [hbytes, sliceFrom_ok (by simp), List.drop_left]
    obtain ⟨missing, rfl⟩ := Nat.exists_eq_succ_of_ne_zero (Nat.ne_of_gt (Nat.lt_of_le_of_lt (Nat.zero_le _) hk))
    rw [parseElements, parseElementsWith, ← parseElements, hslice, ok_bind]
    apply Yields.bind (hparse q s hq hbytes)
    intro _ hresult
    subst hresult
    obtain ⟨p, rfl⟩ := frame.done_suffix hs
    have hnext := @ih missing (q ++ p) (responses ++ [value]) (by omega) (by simp [hq])
      (by simp [hbytes]) hover
    have hparsed : (q ++ p).length = q.length + ((p ++ r).length - r.length) := by simp
    rw [hparsed] at hnext
    rw [hs]
    exact hnext

theorem parseResponseAt_array (depth : ℕ) (s : Bytes) :
    parseResponseAt (depth + 1) (arrayByte :: s) = parseArray (parseResponseAt depth) (arrayByte :: s) := by
  rw [parseResponseAt, parseResponseAtWith, ← parseResponseAt, ← parseArray]
  simp [arrayByte, sstrByte, errorByte, cstringByte, integerByte]

/-- A buffer with an array that is too large is not parsed. -/
theorem parseResponseAt_oversized {bytes : Bytes} (h : Oversized bytes) : ∀ (depth : ℕ),
    bytes.length < depth → Completes (parseResponseAt depth bytes) (fun _ => False) := by
  induction h with
  | @header s r len hline hneg hroom =>
    intro depth hlen
    obtain ⟨depth, rfl⟩ := Nat.exists_eq_succ_of_ne_zero (Nat.ne_of_gt (Nat.lt_of_le_of_lt (Nat.zero_le _) hlen))
    rw [parseResponseAt_array]
    unfold parseArray parseArrayWith reserve
    rw [← parseLineInt, parseLineInt_eq (by decide), hline]
    simp only [outcome, Arithmetic.unchecked_usizeFrom, ok_bind, hneg, if_false, dif_pos hroom]
    trivial
  | @element s r t len k hline hneg hroom hk hafter _ ih =>
    intro depth hlen
    obtain ⟨depth, rfl⟩ := Nat.exists_eq_succ_of_ne_zero (Nat.ne_of_gt (Nat.lt_of_le_of_lt (Nat.zero_le _) hlen))
    rw [parseResponseAt_array]
    unfold parseArray parseArrayWith
    rw [← parseLineInt, ← parseElements, parseLineInt_eq (by decide), hline]
    have hlt := Response.lineInt_consumes _ _ _ hline
    obtain ⟨q, hq⟩ := lineInt.done_suffix hline
    have hstart : (arrayByte :: s).length - r.length = q.length := by simp [hq]
    simp only [outcome, Arithmetic.unchecked_usizeFrom, ok_bind, hneg, if_false, reserve_ok hroom,
      hstart]
    have hne : q ≠ [] := by
      intro heq
      subst heq
      rw [hq] at hlt
      exact absurd hlt (Nat.lt_irrefl _)
    have hle := hafter.length_le
    apply parseElements_oversized _ [] hk hafter hne hq (ih depth (by omega))
    intro q' u hq' hu
    apply parseResponseAt_spec
    have hpos := List.length_pos_iff.mpr hq'
    have hlen' := congrArg List.length hu
    rw [List.length_append] at hlen'
    omega

/-- The decoder answers unless it has to parse an array that is too large. -/
theorem decodeNext_returns_iff (self : ResponseDecoder) :
    (∃ r, self.decodeNext = .ok r) ↔ (self.poisoned = true ∨ ¬Oversized self.buffer) := by
  cases hp : self.poisoned with
  | true =>
    refine iff_of_true ⟨(.error .poisoned, self), ?_⟩ (.inl rfl)
    unfold decodeNext decodeNextWith
    rw [if_pos hp]
    rfl
  | false =>
    rw [or_iff_right (by simp)]
    constructor
    · rintro ⟨r, hr⟩ hover
      have hparse := parseResponseAt_oversized hover _ (Nat.lt_succ_self _)
      unfold decodeNext decodeNextWith at hr
      rw [if_neg (by simp [hp])] at hr
      have hnone : Completes self.decodeBuffered (fun _ => False) :=
        Yields.bind hparse (fun _ h => h.elim)
      exact Yields.of_ok (Yields.bind hnone (R := fun _ => False) (fun _ h => h.elim)) hr
    · intro hroom
      obtain ⟨r, hr, _⟩ := (decodeNext_spec hp).returns (fun f hf => hroom hf.2)
      exact ⟨r, hr⟩

namespace Checked

/-- On any bytes a vector holds, and with every offset and every cast checked, the decoder
    answers with a response, an error or the wish for more, exactly when it is poisoned or
    no array of its buffer is too large. -/
theorem decodeNext_ok_iff (self : ResponseDecoder) (h : self.buffer.length ≤ isizeMax) :
    (∃ r, decodeNext self = .ok r) ↔ (self.poisoned = true ∨ ¬Oversized self.buffer) := by
  rw [decodeNext_eq self h]
  exact decodeNext_returns_iff self

theorem decodeNext_ok_iff_header :
    (∃ r, decodeNext { buffer := asBytes "*1\r\n" } = .ok r) ↔
      (false = true ∨ ¬Oversized (asBytes "*1\r\n")) :=
  decodeNext_ok_iff { buffer := asBytes "*1\r\n" } (by decide)

/-- The header of an array of `2^63 - 1` elements is enough. -/
theorem decodeNext_largest_array :
    decodeNext { buffer := asBytes "*9223372036854775807\r\n" } =
      .error (.capacityOverflow (9223372036854775807 * responseSize) (by decide)) := by
  rfl

end Checked

end ResponseDecoder

namespace Response
open ResponseDecoder

/-- The responses a program can hold: an array is a vector of `Response`s, and no vector is
    larger than `isize::MAX` bytes. -/
inductive Addressable : Response → Prop where
  | ok : Addressable .ok
  | error (msg : String) : Addressable (.error msg)
  | cstr (bytes : Bytes) : Addressable (.cstr bytes)
  | null : Addressable .null
  | integer (n : Int64) : Addressable (.integer n)
  | array {responses : List Response} : responses.length * responseSize ≤ isizeMax →
      (∀ response ∈ responses, Addressable response) → Addressable (.array responses)

theorem not_oversized_of_ne {first : UInt8} (h : first ≠ arrayByte) (s : Bytes) :
    ¬Oversized (first :: s) := by
  intro hover
  cases hover with
  | header => exact h rfl
  | element => exact h rfl

/-- The bytes of a response ask for no more room than the response takes. -/
theorem Wire.not_oversized {response : Response} (hw : response.Wire) (ha : response.Addressable) :
    ∀ rest : Bytes, ¬Oversized (response.toBytes ++ rest) := by
  induction hw with
  | ok | error | cstr | null | integer =>
    intro rest
    rw [toBytes]
    exact not_oversized_of_ne (by simp [prefixByte, sstrByte, errorByte, cstringByte, integerByte,
      arrayByte]) _
  | @array responses hlen hwire ih =>
    intro rest hover
    cases ha with
    | array hroom haddr =>
    obtain ⟨len, hline, hneg, hcount⟩ := lineInt_length (b := arrayByte) (by decide) hlen
    have hbytes : (Response.array responses).toBytes ++ rest =
        (arrayByte :: asBytes (toString responses.length) ++ crlf) ++
          (responses.flatMap toBytes ++ rest) := by
      rw [toBytes, elementsToBytes_eq, List.append_assoc]
      rfl
    have hrun := hline.run_append (responses.flatMap toBytes ++ rest)
    rw [← hbytes] at hrun
    generalize (Response.array responses).toBytes ++ rest = s at hover hrun
    cases hover with
    | header hline' _ hover =>
      rw [hrun] at hline'
      cases hline'
      rw [hcount] at hover
      omega
    | @element _ _ t _ k hline' _ _ hk hafter hover =>
      rw [hrun] at hline'
      cases hline'
      rw [hcount] at hk
      -- after `k` elements the buffer goes on with the next one
      have htake := Encodes.after (w := toBytes)
        ((responses.drop k).flatMap toBytes ++ rest) (responses.take k)
        (fun response hr => (hwire response (List.mem_of_mem_take hr)).encodes)
      rw [← List.append_assoc, ← List.flatMap_append, List.take_append_drop,
        List.length_take_of_le (Nat.le_of_lt hk)] at htake
      rw [hafter.unique htake, List.drop_eq_getElem_cons hk, List.flatMap_cons,
        List.append_assoc] at hover
      have hmem : responses[k] ∈ responses := List.getElem_mem hk
      exact ih responses[k] hmem (haddr _ hmem) _ hover

/-- A response is decoded from its bytes, whatever follows, and takes no more than these off
    the buffer; from a part of them nothing is decoded. -/
theorem decodeNext_toBytes {response : Response} (hw : response.Wire) (ha : response.Addressable) :
    (∀ rest : Bytes, ResponseDecoder.decodeNext { buffer := response.toBytes ++ rest } =
      .ok (.ok (some response), { buffer := rest })) ∧
    ∀ part : Bytes, part <+: response.toBytes → part ≠ response.toBytes →
      ResponseDecoder.decodeNext { buffer := part } = .ok (.ok none, { buffer := part }) := by
  constructor
  · intro rest
    let self : ResponseDecoder := { buffer := response.toBytes ++ rest }
    obtain ⟨r, hr, hpost⟩ := (decodeNext_spec (show self.poisoned = false from rfl)).returns
      (fun f hf => hw.not_oversized ha rest hf.2)
    rw [hw.encodes.run_append] at hpost
    rw [hr, hpost]
  · intro part hpart hne
    obtain ⟨missing, hmissing⟩ := hpart
    have hrest : missing ≠ [] := by
      rintro rfl
      rw [List.append_nil] at hmissing
      exact hne hmissing
    have hroom : ¬Oversized part := by
      intro hover
      have hwhole := hover.append missing
      rw [hmissing] at hwhole
      apply hw.not_oversized ha []
      rw [List.append_nil]
      exact hwhole
    let self : ResponseDecoder := { buffer := part }
    obtain ⟨r, hr, hpost⟩ := (decodeNext_spec (show self.poisoned = false from rfl)).returns
      (fun f hf => hroom hf.2)
    have hencodes := hw.encodes
    rw [← hmissing] at hencodes
    rw [hencodes.run_prefix hrest] at hpost
    rw [hr, hpost]

/-- No string, the empty string, and a string that holds a line end, in nested arrays. -/
def nested : Response := .array [.null, .cstr [], .array [.cstr crlf, .integer (-1)]]

theorem nested_wire : nested.Wire := by
  have hinner : (Response.array [.cstr crlf, .integer (-1)]).Wire := by
    apply Wire.array (by decide)
    rintro response (_ | ⟨_, _ | ⟨_, ⟨⟩⟩⟩)
    · exact .cstr (by decide)
    · exact .integer _
  apply Wire.array (by decide)
  rintro response (_ | ⟨_, _ | ⟨_, _ | ⟨_, ⟨⟩⟩⟩⟩)
  · exact .null
  · exact .cstr (by decide)
  · exact hinner

theorem nested_addressable : nested.Addressable := by
  have hinner : (Response.array [.cstr crlf, .integer (-1)]).Addressable := by
    apply Addressable.array (by decide)
    rintro response (_ | ⟨_, _ | ⟨_, ⟨⟩⟩⟩)
    · exact .cstr _
    · exact .integer _
  apply Addressable.array (by decide)
  rintro response (_ | ⟨_, _ | ⟨_, _ | ⟨_, ⟨⟩⟩⟩⟩)
  · exact .null
  · exact .cstr _
  · exact hinner

theorem decodeNext_toBytes_nested :
    (∀ rest : Bytes, ResponseDecoder.decodeNext { buffer := nested.toBytes ++ rest } =
      .ok (.ok (some nested), { buffer := rest })) ∧
    ∀ part : Bytes, part <+: nested.toBytes → part ≠ nested.toBytes →
      ResponseDecoder.decodeNext { buffer := part } = .ok (.ok none, { buffer := part }) :=
  decodeNext_toBytes nested_wire nested_addressable

end Response
end SimpleKv
