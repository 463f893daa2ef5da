import SimpleKv.ResponseReading

/- `response.rs` with every offset computation and every cast of a length checked: an
   addition stops where the sum leaves `usize`, and a cast where the length is negative.
   This is the decoder of `ResponseDecoder` with `Arithmetic.checked`, and it does the same
   as long as the bytes it is given fit into a vector (`decodeNext_eq`). -/
namespace SimpleKv
open Outcome

namespace ResponseDecoder
namespace Checked

def decodeNext : ResponseDecoder → Rust (Except ParseError (Option Response) × ResponseDecoder) :=
  decodeNextWith .checked

/-! The checks stop nothing. -/

section Equations
variable {bytes : Bytes} (h : bytes.length ≤ isizeMax)
include h

/-- An offset into the bytes, and so much more that it is still one or is small. -/
theorem usizeAdd_of_le {a b : ℕ} (ha : a ≤ bytes.length) (hb : b ≤ isizeMax) :
    usizeAdd a b = .ok (a + b) := by
  apply usizeAdd_ok
  unfold usizeMax
  unfold isizeMax at h hb
  omega

theorem parseLine_eq : parseLineWith .checked bytes = parseLine bytes := by
  unfold parseLine parseLineWith
  cases hpos : crlfPosition bytes with
  | none => rfl
  | some crlfPos =>
    have hle : crlfPos ≤ bytes.length := by
      rw [crlfPosition_eq] at hpos
      obtain ⟨l, hl, rfl⟩ := Option.map_eq_some_iff.mp hpos
      have hlen := congrArg List.length (Incremental.Parser.splitLine_eq (l := l.1) (r := l.2) hl)
      rw [List.length_append] at hlen
      omega
    simp only [Arithmetic.checked_add, usizeAdd_of_le h hle (show 2 ≤ isizeMax by decide),
      Arithmetic.unchecked_add, ok_bind]

theorem parseSstr_eq : parseSstrWith .checked bytes = parseSstr bytes :=
  congrArg (· >>= _) (parseLine_eq h)

theorem parseError_eq : parseErrorWith .checked bytes = parseError bytes :=
  congrArg (· >>= _) (parseLine_eq h)

theorem parseLineInt_eq : parseLineIntWith .checked bytes = parseLineInt bytes :=
  congrArg (· >>= _) (parseLine_eq h)

theorem parseInteger_eq : parseIntegerWith .checked bytes = parseInteger bytes :=
  congrArg (· >>= _) (parseLineInt_eq h)

end Equations

section Frames
variable {first : UInt8} {s : Bytes} (h : (first :: s).length ≤ isizeMax) (hfirst : first ≠ 13)
include h hfirst

theorem parseCstr_eq : parseCstrWith .checked (first :: s) = parseCstr (first :: s) := by
  unfold parseCstr parseCstrWith
  rw [← parseLineInt, parseLineInt_eq h, ResponseDecoder.parseLineInt_eq hfirst, ok_bind, ok_bind]
  cases Response.lineInt.run (first :: s) with
  | more => rfl
  | fail e => rfl
  | done len r =>
    simp only [outcome]
    by_cases hnull : len = nullCstrLen
    · simp only [hnull, if_true]
    by_cases hneg : len < 0
    · simp only [hnull, hneg, if_true, if_false]
    simp only [hnull, hneg, if_false, Arithmetic.checked_usizeFrom, usizeFrom_ok hneg,
      Arithmetic.unchecked_usizeFrom, ok_bind]
    by_cases hlong : len.toUInt64.toNat > maxComplexStringLength
    · simp only [hlong, if_true]
    -- the length is a small number, and the start an offset into the buffer
    have hstart : (first :: s).length - r.length ≤ (first :: s).length := Nat.sub_le _ _
    have hend : usizeAdd ((first :: s).length - r.length) len.toUInt64.toNat =
        .ok ((first :: s).length - r.length + len.toUInt64.toNat) := by
      apply usizeAdd_of_le h hstart
      unfold maxComplexStringLength at hlong
      unfold isizeMax
      omega
    have hcrlf : usizeAdd ((first :: s).length - r.length + len.toUInt64.toNat) 2 =
        .ok ((first :: s).length - r.length + len.toUInt64.toNat + 2) := by
      apply usizeAdd_ok
      unfold maxComplexStringLength at hlong
      unfold isizeMax at h
      unfold usizeMax
      omega
    simp only [hlong, if_false, Arithmetic.checked_add, hend, hcrlf, Arithmetic.unchecked_add, ok_bind]

omit h hfirst in
/-- The loop over the elements adds up how far it has come in the buffer. -/
theorem parseElements_eq {bytes : Bytes} (hbytes : bytes.length ≤ isizeMax)
    {parse parse' : Bytes → Rust (ParseResult Response)}
    (hparse : ∀ t, t.length < bytes.length → parse t = parse' t ∧
      Completes (parse' t) (fun r => ∀ parsed, r = .ok (some parsed) →
        parsed.numBytesParsed ≤ t.length)) :
    ∀ (missing : ℕ) (responses : List Response) (numBytesParsed : ℕ),
      0 < numBytesParsed → numBytesParsed ≤ bytes.length →
      parseElementsWith .checked parse bytes missing responses numBytesParsed =
        parseElements parse' bytes missing responses numBytesParsed := by
  intro missing
  induction missing with
  | zero =>
    intro responses numBytesParsed hpos hle
    rfl
  | succ missing ih =>
    intro responses numBytesParsed hpos hle
    obtain ⟨hsame, hshort⟩ := hparse (bytes.drop numBytesParsed)
      (by rw [List.length_drop]; omega)
    rw [parseElementsWith, parseElements, parseElementsWith, ← parseElements, sliceFrom_ok hle, ok_bind,
      ok_bind, hsame]
    cases hrun : parse' (bytes.drop numBytesParsed) with
    | error f => rfl
    | ok result =>
      rw [ok_bind, ok_bind]
      cases result with
      | error e => rfl
      | ok parsed? =>
        cases parsed? with
        | none => rfl
        | some parsed =>
          have hparsed := Yields.of_ok hshort hrun parsed rfl
          rw [List.length_drop] at hparsed
          simp only [Arithmetic.checked_add,
            usizeAdd_of_le hbytes hle (show parsed.numBytesParsed ≤ isizeMax by omega),
            Arithmetic.unchecked_add, ok_bind]
          exact ih _ _ (by omega) (by omega)

theorem parseArray_eq {parse parse' : Bytes → Rust (ParseResult Response)}
    (hparse : ∀ t, t.length < (first :: s).length → parse t = parse' t ∧
      Completes (parse' t) (fun r => ∀ parsed, r = .ok (some parsed) →
        parsed.numBytesParsed ≤ t.length)) :
    parseArrayWith .checked parse (first :: s) = parseArray parse' (first :: s) := by
  unfold parseArray parseArrayWith
  rw [← parseLineInt, ← parseElements, parseLineInt_eq h, ResponseDecoder.parseLineInt_eq hfirst, ok_bind, ok_bind]
  cases hline : Response.lineInt.run (first :: s) with
  | more => rfl
  | fail e => rfl
  | done len r =>
    have hlt := Response.lineInt_consumes _ _ _ hline
    simp only [outcome]
    by_cases hneg : len < 0
    · simp only [hneg, if_true]
    simp only [hneg, if_false, Arithmetic.checked_usizeFrom, usizeFrom_ok hneg,
      Arithmetic.unchecked_usizeFrom, ok_bind]
    congr 1
    funext _
    exact parseElements_eq h hparse _ _ _ (by omega) (Nat.sub_le _ _)

end Frames

theorem parseResponseAt_eq : ∀ (depth : ℕ) (bytes : Bytes), bytes.length < depth →
    bytes.length ≤ isizeMax → parseResponseAtWith .checked depth bytes = parseResponseAt depth bytes := by
  intro depth
  induction depth with
  | zero =>
    intro bytes hlen
    omega
  | succ depth ih =>
    intro bytes hlen h
    rw [parseResponseAtWith, parseResponseAt, parseResponseAtWith, ← parseResponseAt, ← parseSstr,
      ← parseError, ← parseCstr, ← parseInteger, ← parseArray]
    cases bytes with
    | nil => rfl
    | cons first s =>
      simp only [List.head?_cons]
      by_cases hsstr : first = sstrByte
      · rw [if_pos hsstr, if_pos hsstr, parseSstr_eq h]
      rw [if_neg hsstr, if_neg hsstr]
      by_cases herror : first = errorByte
      · rw [if_pos herror, if_pos herror, parseError_eq h]
      rw [if_neg herror, if_neg herror]
      by_cases hcstr : first = cstringByte
      · rw [if_pos hcstr, if_pos hcstr, parseCstr_eq h (by rw [hcstr]; decide)]
      rw [if_neg hcstr, if_neg hcstr]
      by_cases hinteger : first = integerByte
      · rw [if_pos hinteger, if_pos hinteger, parseInteger_eq h]
      rw [if_neg hinteger, if_neg hinteger]
      by_cases harray : first = arrayByte
      · rw [if_pos harray, if_pos harray]
        apply parseArray_eq h (by rw [harray]; decide)
        intro t ht
        refine ⟨ih t (by omega) (by omega), ?_⟩
        apply Yields.mono (parseResponseAt_spec depth t (by omega))
        intro result hresult parsed hparsed
        rw [hresult] at hparsed
        exact le_of_outcome hparsed
      rw [if_neg harray, if_neg harray]

/-- On what fits into a vector, no offset leaves `usize` and no negative length is cast. -/
theorem decodeNext_eq (self : ResponseDecoder) (h : self.buffer.length ≤ isizeMax) :
    decodeNext self = self.decodeNext := by
  have hparse : parseResponseWith .checked self.buffer = parseResponse self.buffer :=
    parseResponseAt_eq _ _ (Nat.lt_succ_self _) h
  have hbuffered : decodeBufferedWith .checked self = self.decodeBuffered := by
    unfold decodeBuffered decodeBufferedWith
    rw [hparse, parseResponse]
  unfold decodeNext ResponseDecoder.decodeNext decodeNextWith
  rw [hbuffered, decodeBuffered]

end Checked
end ResponseDecoder
end SimpleKv
