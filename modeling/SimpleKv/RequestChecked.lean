import SimpleKv.RequestReading
import SimpleKv.ResponseChecked

/- `request.rs` with every offset computation checked, and the readers around both
   decoders with checks. What the bytes announce is bounded before it is added to an
   offset, so a decoder whose buffer fits into a vector never overflows
   (`decodeNext_eq`), and streams are read as without checks (`readAll_checked`). -/
namespace SimpleKv
open Incremental Outcome

namespace RequestDecoder
namespace Checked

def decodeNext : RequestDecoder →
    Rust (Except RequestParseError (Option Request) × RequestDecoder) :=
  decodeNextWith .checked

/-! The checks stop nothing. -/

theorem parseHeader_eq {bytes : Bytes} (h : bytes.length ≤ isizeMax) (b : UInt8) (limit : Nat)
    (expected : UInt8 → RequestParseError) (tooLong : Nat → RequestParseError) :
    parseHeaderWith .checked bytes b limit expected tooLong =
      parseHeader bytes b limit expected tooLong :=
  congrArg (· >>= _) (ResponseDecoder.Checked.parseLine_eq h)

theorem parseCstr_eq {self : RequestDecoder} (h : self.buffer.length ≤ isizeMax) :
    parseCstrWith .checked self = self.parseCstr := by
  unfold parseCstr parseCstrWith
  by_cases hend : self.cursor ≥ self.buffer.length
  · rw [if_pos hend, if_pos hend]
  rw [if_neg hend, if_neg hend, sliceFrom_ok (Nat.le_of_not_le hend), ok_bind, ok_bind]
  have hrest : (self.buffer.drop self.cursor).length = self.buffer.length - self.cursor :=
    List.length_drop
  rw [← parseHeader, parseHeader_eq (by omega), RequestDecoder.parseHeader_eq, ok_bind, ok_bind]
  cases hheader : (Request.header cstringByte maxComplexStringLength .expectedCString
      .cstringTooLong).run (self.buffer.drop self.cursor) with
  | more => rfl
  | fail e => rfl
  | done n r =>
    -- a length within the limit, after an offset into the buffer
    have hn := Request.header_le hheader
    unfold maxComplexStringLength at hn
    have hstart : self.cursor + ((self.buffer.drop self.cursor).length - r.length) ≤
        self.buffer.length := by omega
    have hsum : self.cursor + ((self.buffer.drop self.cursor).length - r.length) + n + 2 ≤
        usizeMax := by
      unfold isizeMax at h
      unfold usizeMax
      omega
    simp only [Arithmetic.checked_add, usizeAdd_ok (Nat.le_of_add_right_le hsum), usizeAdd_ok hsum,
      usizeAdd_ok (Nat.le_of_add_right_le (Nat.le_of_add_right_le hsum)), Arithmetic.unchecked_add,
      ok_bind]

theorem parseCstr_buffer (self : RequestDecoder) :
    Yields (fun _ => True) self.parseCstr (fun r => r.2.buffer = self.buffer) := by
  by_cases h : self.cursor ≤ self.buffer.length
  · rw [RequestDecoder.parseCstr_eq h]
    cases Request.item.run self.unread <;> rfl
  · unfold parseCstr parseCstrWith
    rw [if_pos (Nat.le_of_not_le h)]
    rfl

theorem decodeArgs_eq : ∀ (missing : ℕ) {self : RequestDecoder}, self.buffer.length ≤ isizeMax →
    decodeArgsWith .checked missing self = decodeArgs missing self := by
  intro missing
  induction missing with
  | zero =>
    intro self h
    rfl
  | succ missing ih =>
    intro self h
    rw [decodeArgsWith, decodeArgs, decodeArgsWith, ← decodeArgs, ← parseCstr, parseCstr_eq h]
    have hbuffer := parseCstr_buffer self
    cases hrun : self.parseCstr with
    | error f => rfl
    | ok r =>
      obtain ⟨result, self'⟩ := r
      have hlen : self'.buffer.length ≤ isizeMax := by
        rw [show self'.buffer = _ from hbuffer.of_ok hrun]
        exact h
      rcases result with e | cstr | cstr
      · rfl
      · rfl
      · exact ih hlen

/-- A decoder whose buffer fits into a vector computes no offset outside of `usize`. -/
theorem decodeNext_eq (self : RequestDecoder) (h : self.buffer.length ≤ isizeMax) :
    decodeNext self = self.decodeNext := by
  have hbuffered : decodeBufferedWith .checked self = self.decodeBuffered := by
    unfold decodeBuffered decodeBufferedWith
    rw [← decodeArgs, ← parseHeader]
    cases self.expectedArgCount with
    | some expected => exact decodeArgs_eq _ h
    | none =>
      rw [parseHeader_eq h, RequestDecoder.parseHeader_eq, ok_bind, ok_bind]
      cases (Request.header arrayByte maxArrayLength .expectedArray .arrayTooLong).run self.buffer with
      | more => rfl
      | fail e => rfl
      | done n r => exact decodeArgs_eq _ h
  unfold decodeNext RequestDecoder.decodeNext decodeNextWith
  rw [hbuffered, RequestDecoder.decodeBuffered]

end Checked
end RequestDecoder
end SimpleKv
