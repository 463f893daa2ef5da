import SimpleKv.Request

/- The grammar of requests, as an incremental parser: an array header, then as many
   bulk strings as it says. `Request.toBytes` is an encoding for it: a request within
   the protocol's limits is read back from its bytes, from no proper prefix of
   them, and with anything after them left over. -/
namespace SimpleKv
namespace Request
open Incremental

/-- The number on a header line, given without its CRLF. -/
def headerValue (headerByte : UInt8) (maxHeaderLen : Nat)
    (expectedError : UInt8 → RequestParseError) (tooLongError : Nat → RequestParseError) :
    Bytes → Except RequestParseError Nat
  | [] => .error .missingFirstByte
  | first :: digits =>
    if first ≠ headerByte then .error (expectedError first)
    else
      match fromUtf8 digits with
      | .error e => .error (.invalidUtf8 e)
      | .ok s =>
        match parseUsize s with
        | .error e => .error (.invalidInt e)
        | .ok headerLen =>
          if headerLen > maxHeaderLen then .error (tooLongError headerLen) else .ok headerLen

def header (headerByte : UInt8) (maxHeaderLen : Nat)
    (expectedError : UInt8 → RequestParseError) (tooLongError : Nat → RequestParseError) :
    Parser UInt8 RequestParseError Nat :=
  (Parser.line 13 10).bind (fun data =>
    Parser.ofExcept (headerValue headerByte maxHeaderLen expectedError tooLongError data))

def payload (n : Nat) : Parser UInt8 RequestParseError Bytes := Parser.block n crlf .missingCrlf

def item : Parser UInt8 RequestParseError Bytes :=
  (header cstringByte maxComplexStringLength .expectedCString .cstringTooLong).bind payload

/-- A request of which the elements `args` have been read and `missing` are to come. -/
abbrev elements (args : List Bytes) (missing : Nat) : Parser UInt8 RequestParseError Request :=
  item.collect Request.mk args missing

def frame : Parser UInt8 RequestParseError Request :=
  (header arrayByte maxArrayLength .expectedArray .arrayTooLong).bind (elements [])

/-! Running the parts. -/

section Header
variable {b : UInt8} {limit : Nat} {expected : UInt8 → RequestParseError}
  {tooLong : Nat → RequestParseError} {s l r : Bytes}

theorem header_more (h : Parser.splitLine 13 10 s = none) :
    (header b limit expected tooLong).run s = .more := Parser.bind_more (Parser.line_more h)

theorem header_line (h : Parser.splitLine 13 10 s = some (l, r)) :
    (header b limit expected tooLong).run s =
      match headerValue b limit expected tooLong l with
      | .ok n => .done n r
      | .error e => .fail e := by
  unfold header
  rw [Parser.bind_done (Parser.line_done h)]
  cases headerValue b limit expected tooLong l with
  | ok n => rfl
  | error e => rfl

end Header

theorem payload_run (n : Nat) (s : Bytes) : (payload n).run s =
    if n + 2 ≤ s.length then
      if (s.take (n + 2)).drop n = crlf then .done (s.take n) (s.drop (n + 2))
      else .fail .missingCrlf
    else .more := Parser.block_run n crlf RequestParseError.missingCrlf s

theorem item_nil : item.run [] = .more := Parser.bind_more (header_more rfl)

theorem frame_nil : frame.run [] = .more := Parser.bind_more (header_more rfl)

/-- A request takes at least its header line off the input. -/
theorem frame_consumes : frame.Consumes := .bind (.bind (.line 13 10))

/-! Encodings. -/

/-- A header line: the prefix byte and a number. -/
def headerLine (headerByte : UInt8) (n : Nat) : Bytes :=
  headerByte :: asBytes (ToString.toString n) ++ crlf

/-- A bulk string on the wire. -/
def itemBytes (cstr : Bytes) : Bytes := headerLine cstringByte cstr.length ++ (cstr ++ crlf)

theorem toBytes_eq (self : Request) :
    self.toBytes = headerLine arrayByte self.cstrs.length ++ self.cstrs.flatMap itemBytes := by
  unfold toBytes headerLine itemBytes
  simp only [headerLine, List.append_assoc]

theorem header_encodes {b : UInt8} (hb : b ≠ 13) {limit n : Nat} (hlimit : limit ≤ usizeMax)
    (hn : n ≤ limit) {expected : UInt8 → RequestParseError} {tooLong : Nat → RequestParseError} :
    (header b limit expected tooLong).Encodes n (headerLine b n) := by
  have hline : (13 : UInt8) ∉ b :: asBytes (ToString.toString n) := by
    rw [asBytes_toString, List.mem_cons, not_or]
    exact ⟨hb.symm, fun hm => absurd (mem_decimal hm).1 (by decide)⟩
  have hsplit := Parser.splitLine_terminated (show (13 : UInt8) ≠ 10 by decide) []
    (Parser.not_infix_of_notMem hline)
  unfold Parser.Encodes
  have hrun : (header b limit expected tooLong).run (headerLine b n) = _ := header_line hsplit
  rw [hrun]
  simp only [headerValue, ne_eq, not_true, if_false, fromUtf8_asBytes,
    parseUsize_toString (Nat.le_trans hn hlimit), if_neg (Nat.not_lt.mpr hn)]

theorem payload_encodes (bytes : Bytes) : (payload bytes.length).Encodes bytes (bytes ++ crlf) :=
  Parser.Encodes.block bytes crlf _

/-- The limits of the protocol. -/
def WithinLimits (self : Request) : Prop :=
  self.cstrs.length ≤ maxArrayLength ∧ ∀ cstr ∈ self.cstrs, cstr.length ≤ maxComplexStringLength

theorem item_encodes {cstr : Bytes} (h : cstr.length ≤ maxComplexStringLength) :
    item.Encodes cstr (itemBytes cstr) :=
  Parser.Encodes.bind (header_encodes (by decide) (by decide) h) (payload_encodes cstr)

theorem frame_encodes {self : Request} (h : self.WithinLimits) :
    frame.Encodes self self.toBytes := by
  rw [toBytes_eq]
  apply Parser.Encodes.bind (header_encodes (by decide) (by decide) h.1)
  exact Parser.Encodes.collect Request.mk self.cstrs (fun cstr hc => item_encodes (h.2 cstr hc))

/-! What the grammar reads is within the limits. -/

theorem headerValue_le {b : UInt8} {limit n : Nat} {expected : UInt8 → RequestParseError}
    {tooLong : Nat → RequestParseError} : ∀ {data : Bytes},
    headerValue b limit expected tooLong data = .ok n → n ≤ limit
  | [], h => by cases h
  | first :: digits, h => by
    simp only [headerValue] at h
    split at h
    · cases h
    split at h
    · cases h
    split at h
    · cases h
    split at h
    · cases h
    · next hle => cases h; exact Nat.le_of_not_lt hle

theorem header_le {b : UInt8} {limit n : Nat} {expected : UInt8 → RequestParseError}
    {tooLong : Nat → RequestParseError} {s r : Bytes}
    (h : (header b limit expected tooLong).run s = .done n r) : n ≤ limit := by
  obtain ⟨l, q, _, h⟩ := Parser.bind_eq_done h
  exact headerValue_le (Parser.ofExcept_eq_done h).1

theorem item_length_le {s r cstr : Bytes} (h : item.run s = .done cstr r) :
    cstr.length ≤ maxComplexStringLength := by
  obtain ⟨n, q, hh, h⟩ := Parser.bind_eq_done h
  rw [payload_run] at h
  split at h
  · split at h
    · cases h
      exact Nat.le_trans (List.length_take_le _ _) (header_le hh)
    · cases h
  · cases h

theorem frame_withinLimits {self : Request} {s r : Bytes} (h : frame.run s = .done self r) :
    self.WithinLimits := by
  obtain ⟨n, q, hh, h⟩ := Parser.bind_eq_done h
  obtain ⟨cstrs, q', ht, h⟩ := Parser.bind_eq_done h
  cases h
  obtain ⟨hlen, hmem⟩ := Parser.times_eq_done ht
  refine ⟨Nat.le_trans (Nat.le_of_eq hlen) (header_le hh), fun cstr hc => ?_⟩
  obtain ⟨s', r', hi⟩ := hmem cstr hc
  exact item_length_le hi

end Request
end SimpleKv
