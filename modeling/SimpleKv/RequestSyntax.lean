import Mathlib.Data.Nat.Digits.Lemmas
import SimpleKv.Lib.Grammar
import SimpleKv.RequestReading

/- The syntax of requests on its own, without a parser: numerals, header lines, bulk strings
   and frames, the inputs that end inside one of these, and those that have a complete line
   or bulk string of which none can be made. The decoder reads off its buffer the longest
   sequence of frames it begins with. -/
namespace SimpleKv
open Incremental

/-! Numerals. -/

/-- The number that ASCII digits write in decimal. -/
def digitsValue (digits : Bytes) : Nat :=
  Nat.ofDigits 10 (digits.reverse.map (fun b => b.toNat - 48))

/-- What `usize::from_str` reads: an optional plus sign and one or more digits. -/
def Numeral (text : Bytes) (n : Nat) : Prop :=
  ∃ digits, (text = digits ∨ text = 43 :: digits) ∧ digits ≠ [] ∧
    (∀ b ∈ digits, 48 ≤ b ∧ b ≤ 57) ∧ n = digitsValue digits ∧ n ≤ usizeMax

theorem digitsValue_cons (b : UInt8) (rest : Bytes) :
    digitsValue (b :: rest) = (b.toNat - 48) * 10^rest.length + digitsValue rest := by
  unfold digitsValue
  rw [List.reverse_cons, List.map_append, Nat.ofDigits_append, List.length_map,
    List.length_reverse, List.map_singleton, Nat.ofDigits_singleton]
  ring

theorem parseDigits_eq_ok {limit n : Nat} {overflow : ParseIntError} : ∀ {bytes : Bytes} {acc : Nat},
    acc ≤ limit → (parseDigits limit overflow bytes acc = .ok n ↔
      (∀ b ∈ bytes, 48 ≤ b ∧ b ≤ 57) ∧ n = acc * 10^bytes.length + digitsValue bytes ∧ n ≤ limit) := by
  intro bytes
  induction bytes with
  | nil =>
    intro acc hacc
    have hvalue : digitsValue [] = 0 := rfl
    simp only [parseDigits, hvalue, List.length_nil, Except.ok.injEq]
    refine ⟨fun heq => ?_, fun hdigits => ?_⟩
    · subst heq
      exact ⟨by simp, by omega, hacc⟩
    · obtain ⟨_, heq, _⟩ := hdigits
      omega
  | cons b rest ih =>
    intro acc hacc
    have hvalue : acc * 10^(rest.length + 1) + digitsValue (b :: rest) =
        (acc * 10 + (b.toNat - 48)) * 10^rest.length + digitsValue rest := by
      rw [digitsValue_cons]
      ring
    have hpos : 0 < 10^rest.length := Nat.pow_pos (by decide)
    rw [List.length_cons, hvalue, parseDigits]
    unfold digit?
    by_cases hb : 48 ≤ b ∧ b ≤ 57
    · rw [if_pos hb]
      by_cases hover : limit < acc * 10 + (b.toNat - 48)
      · -- the number only grows from here
        simp only [if_pos hover]
        refine ⟨fun heq => ?_, fun hdigits => ?_⟩
        · cases heq
        · obtain ⟨_, heq, hle⟩ := hdigits
          have hgrows := Nat.le_mul_of_pos_right (acc * 10 + (b.toNat - 48)) hpos
          omega
      · simp only [if_neg hover]
        rw [ih (Nat.le_of_not_lt hover)]
        simp [hb]
    · rw [if_neg hb]
      refine ⟨fun heq => ?_, fun hdigits => ?_⟩
      · cases heq
      · obtain ⟨hall, _⟩ := hdigits
        exact absurd (hall b List.mem_cons_self) hb

/-- No sign is a digit. -/
theorem not_digit_plus : ¬(48 ≤ (43 : UInt8) ∧ (43 : UInt8) ≤ 57) := by decide

/-- Without a plus sign in front, all of a numeral is digits. -/
theorem numeral_iff_digits {text : Bytes} {n : Nat} (h : ∀ digits, text ≠ 43 :: digits) :
    Numeral text n ↔ text ≠ [] ∧ (∀ b ∈ text, 48 ≤ b ∧ b ≤ 57) ∧ n = digitsValue text ∧
      n ≤ usizeMax := by
  refine ⟨fun htext => ?_, fun hrest => ?_⟩
  · obtain ⟨digits, rfl | heq, hrest⟩ := htext
    · exact hrest
    · exact absurd heq (h digits)
  · exact ⟨text, .inl rfl, hrest⟩

theorem numeral_plus {digits : Bytes} {n : Nat} : Numeral (43 :: digits) n ↔
    digits ≠ [] ∧ (∀ b ∈ digits, 48 ≤ b ∧ b ≤ 57) ∧ n = digitsValue digits ∧ n ≤ usizeMax := by
  refine ⟨fun htext => ?_, fun hrest => ?_⟩
  · obtain ⟨digits', rfl | heq, hne, hall, hrest⟩ := htext
    · exact absurd (hall 43 List.mem_cons_self) not_digit_plus
    · cases heq
      exact ⟨hne, hall, hrest⟩
  · exact ⟨digits, .inr rfl, hrest⟩

/-- `usize::from_str` reads the numerals. -/
theorem parseUsize_eq_ok {s : String} {n : Nat} : parseUsize s = .ok n ↔ Numeral (asBytes s) n := by
  have parses : ∀ digits : Bytes, parseDigits usizeMax .posOverflow digits 0 = .ok n ↔
      (∀ b ∈ digits, 48 ≤ b ∧ b ≤ 57) ∧ n = digitsValue digits ∧ n ≤ usizeMax := by
    intro digits
    rw [parseDigits_eq_ok (Nat.zero_le _), Nat.zero_mul, Nat.zero_add]
  unfold parseUsize
  generalize asBytes s = text
  split
  · rw [numeral_iff_digits (by simp)]
    simp
  · rw [numeral_plus]
    simp
  · rw [numeral_iff_digits (by simp)]
    simp
  · next digits hne =>
    rw [numeral_plus, parses]
    exact (and_iff_right hne).symm
  · next hempty _ _ hplus =>
    rw [numeral_iff_digits hplus, parses]
    exact (and_iff_right hempty).symm

theorem utf8EncodeChar_ascii {b : UInt8} (h : b < 128) :
    String.utf8EncodeChar (Char.ofNat b.toNat) = [b] := by
  have hb : b.toNat < 128 := UInt8.lt_iff_toNat_lt.mp h
  have hc : (Char.ofNat b.toNat).toNat = b.toNat := by
    have hvalid : b.toNat.isValidChar := .inl (by omega)
    rw [show Char.ofNat b.toNat = Char.ofNatAux b.toNat hvalid from dif_pos hvalid]
    rfl
  have hv : (Char.ofNat b.toNat).val.toNat ≤ 127 := by
    show (Char.ofNat b.toNat).toNat ≤ 127
    omega
  unfold String.utf8EncodeChar
  simp only [hv, if_true]
  show [UInt8.ofNat (Char.ofNat b.toNat).toNat] = [b]
  rw [hc, UInt8.ofNat_toNat]

/-- ASCII bytes are a text. -/
theorem exists_asBytes {text : Bytes} (h : ∀ b ∈ text, b < 128) : ∃ s, text = asBytes s := by
  refine ⟨String.ofList (text.map (fun b => Char.ofNat b.toNat)), ?_⟩
  rw [asBytes_ofList, List.flatMap_map]
  induction text with
  | nil => rfl
  | cons b text ih =>
    rw [List.flatMap_cons, utf8EncodeChar_ascii (h b List.mem_cons_self),
      ← ih (fun b' hb' => h b' (List.mem_cons_of_mem b hb'))]
    rfl

namespace Numeral
variable {text : Bytes} {n : Nat}

theorem mem (h : Numeral text n) {b : UInt8} (hb : b ∈ text) : b = 43 ∨ 48 ≤ b ∧ b ≤ 57 := by
  obtain ⟨digits, rfl | rfl, _, hall, _⟩ := h
  · exact .inr (hall b hb)
  · exact (List.mem_cons.mp hb).imp_right (hall b)

theorem reads (h : Numeral text n) : ∃ s, text = asBytes s ∧ parseUsize s = .ok n := by
  have ascii : ∀ b ∈ text, b < 128 := by
    intro b hb
    rcases h.mem hb with rfl | ⟨_, hle⟩
    · decide
    · exact UInt8.lt_of_le_of_lt hle (by decide)
  obtain ⟨s, rfl⟩ := exists_asBytes ascii
  exact ⟨s, rfl, parseUsize_eq_ok.mpr h⟩

end Numeral

namespace Request

/-! Header lines. -/

section Header
variable (b : UInt8) (limit : Nat) (expected : UInt8 → RequestParseError)
  (tooLong : Nat → RequestParseError)

/-- The byte `b`, a numeral within the limit, and a CRLF. -/
def HeaderLine (n : Nat) (w : Bytes) : Prop :=
  ∃ text, Numeral text n ∧ n ≤ limit ∧ w = b :: text ++ crlf

/-- What is wrong with a line that is no header line, given without its CRLF. -/
inductive LineError : RequestParseError → Bytes → Prop where
  | empty : LineError .missingFirstByte []
  | byte {first : UInt8} {text : Bytes} : first ≠ b → LineError (expected first) (first :: text)
  | utf8 {e : Utf8Error} {text : Bytes} :
      fromUtf8 text = .error e → LineError (.invalidUtf8 e) (b :: text)
  | numeral {e : ParseIntError} {s : String} :
      parseUsize s = .error e → LineError (.invalidInt e) (b :: asBytes s)
  | long {n : Nat} {text : Bytes} :
      Numeral text n → limit < n → LineError (tooLong n) (b :: text)

/-- A complete line that is no header line, whatever is after it. -/
def WrongLine (e : RequestParseError) (s : Bytes) : Prop :=
  ∃ line r, ¬crlf <:+: line ∧ s = line ++ crlf ++ r ∧ (¬∃ n, HeaderLine b limit n (line ++ crlf)) ∧
    LineError b limit expected tooLong e line

/-- Header lines, as a grammar. -/
def headerGrammar : Grammar UInt8 RequestParseError Nat where
  word := HeaderLine b limit
  unfinished s := ¬crlf <:+: s
  wrong := WrongLine b limit expected tooLong

variable {b limit expected tooLong}

theorem HeaderLine.le {n : Nat} {w : Bytes} (h : HeaderLine b limit n w) : n ≤ limit := by
  obtain ⟨_, _, hle, _⟩ := h
  exact hle

theorem HeaderLine.length_pos {n : Nat} {w : Bytes} (h : HeaderLine b limit n w) : 0 < w.length := by
  obtain ⟨text, _, _, rfl⟩ := h
  exact Nat.succ_pos _

theorem headerValue_eq_ok {line : Bytes} {n : Nat} :
    headerValue b limit expected tooLong line = .ok n ↔
      ∃ text, Numeral text n ∧ n ≤ limit ∧ line = b :: text := by
  refine ⟨fun h => ?_, fun hw => ?_⟩
  · have hle := headerValue_le h
    cases line with
    | nil => cases h
    | cons first text =>
      simp only [headerValue] at h
      by_cases hfirst : first = b
      · rw [if_neg (not_not.mpr hfirst)] at h
        split at h
        · cases h
        next s hs =>
        split at h
        · cases h
        next m hm =>
        split at h
        · cases h
        · cases h
          rw [fromUtf8_eq_ok.mp hs, hfirst]
          exact ⟨asBytes s, parseUsize_eq_ok.mp hm, hle, rfl⟩
      · rw [if_pos hfirst] at h
        cases h
  · obtain ⟨text, htext, hle, rfl⟩ := hw
    obtain ⟨s, rfl, hs⟩ := htext.reads
    simp [headerValue, hs, Nat.not_lt.mpr hle]

theorem headerValue_eq_error {line : Bytes} {e : RequestParseError} :
    headerValue b limit expected tooLong line = .error e ↔
      LineError b limit expected tooLong e line := by
  refine ⟨fun h => ?_, fun h => ?_⟩
  · cases line with
    | nil =>
      cases h
      exact .empty
    | cons first text =>
      simp only [headerValue] at h
      by_cases hfirst : first = b
      · subst hfirst
        rw [if_neg (not_not.mpr rfl)] at h
        split at h
        · next e' hs =>
          cases h
          exact .utf8 hs
        next s hs =>
        cases fromUtf8_eq_ok.mp hs
        split at h
        · next e' hm =>
          cases h
          exact .numeral hm
        next m hm =>
        split at h
        · next hlong =>
          cases h
          exact .long (parseUsize_eq_ok.mp hm) hlong
        · cases h
      · rw [if_pos hfirst] at h
        cases h
        exact .byte hfirst
  · cases h with
    | empty => rfl
    | byte hfirst => simp [headerValue, hfirst]
    | utf8 hs => simp [headerValue, hs]
    | numeral hs => simp [headerValue, hs]
    | long htext hlong =>
      obtain ⟨s, rfl, hs⟩ := htext.reads
      simp [headerValue, hs, hlong]

theorem header_parses (hb : b ≠ 13) :
    Parses (header b limit expected tooLong) (headerGrammar b limit expected tooLong) where
  done_iff {s r n} := by
    refine ⟨fun hrun => ?_, fun hw => ?_⟩
    · obtain ⟨line, q, hline, hread⟩ := Parser.bind_eq_done hrun
      obtain ⟨hvalue, rfl⟩ := Parser.ofExcept_eq_done hread
      obtain ⟨text, htext, hle, rfl⟩ := headerValue_eq_ok.mp hvalue
      rw [Parser.splitLine_eq (Parser.line_eq_done hline)]
      exact ⟨b :: text ++ crlf, ⟨text, htext, hle, rfl⟩, by simp [crlf]⟩
    · obtain ⟨w, ⟨text, htext, hle, rfl⟩, rfl⟩ := hw
      have hline : (13 : UInt8) ∉ b :: text := by
        rw [List.mem_cons, not_or]
        refine ⟨hb.symm, fun hm => ?_⟩
        rcases htext.mem hm with h | ⟨h, _⟩ <;> exact absurd h (by decide)
      have hsplit := Parser.splitLine_terminated (show (13 : UInt8) ≠ 10 by decide) r
        (Parser.not_infix_of_notMem hline)
      have hrun : (header b limit expected tooLong).run (b :: text ++ 13 :: 10 :: r) = _ :=
        header_line hsplit
      rw [headerValue_eq_ok.mpr ⟨text, htext, hle, rfl⟩] at hrun
      rw [List.append_assoc]
      exact hrun
  more_iff {s} := by
    show _ ↔ ¬crlf <:+: s
    rw [crlf, ← Parser.splitLine_eq_none]
    cases hs : Parser.splitLine 13 10 s with
    | none => exact iff_of_true (header_more hs) rfl
    | some p =>
      rw [header_line hs]
      refine iff_of_false ?_ (by simp)
      cases headerValue b limit expected tooLong p.1 <;> simp
  fail_iff {s e} := by
    refine ⟨fun hrun => ?_, fun hw => ?_⟩
    · cases hs : Parser.splitLine 13 10 s with
      | none =>
        rw [header_more hs] at hrun
        cases hrun
      | some p =>
        rw [header_line hs] at hrun
        cases hvalue : headerValue b limit expected tooLong p.1 with
        | ok n =>
          rw [hvalue] at hrun
          cases hrun
        | error e' =>
          rw [hvalue] at hrun
          cases hrun
          refine ⟨p.1, p.2, Parser.splitLine_unterminated hs, ?_, ?_, headerValue_eq_error.mp hvalue⟩
          · rw [Parser.splitLine_eq hs, List.append_assoc]
            rfl
          · intro hheader
            obtain ⟨n, text, htext, hle, heq⟩ := hheader
            have hline := List.append_cancel_right heq
            rw [headerValue_eq_ok.mpr ⟨text, htext, hle, hline⟩] at hvalue
            cases hvalue
    · obtain ⟨line, r, hline, rfl, _, herror⟩ := hw
      have hsplit := Parser.splitLine_terminated (show (13 : UInt8) ≠ 10 by decide) r hline
      have hrun : (header b limit expected tooLong).run (line ++ 13 :: 10 :: r) = _ :=
        header_line hsplit
      rw [headerValue_eq_error.mpr herror] at hrun
      rw [List.append_assoc]
      exact hrun

end Header

/-! Bulk strings. -/

/-- A header line with the length, as many bytes, and a CRLF. -/
def Item (cstr w : Bytes) : Prop :=
  ∃ line, HeaderLine cstringByte maxComplexStringLength cstr.length line ∧ w = line ++ (cstr ++ crlf)

/-- No CRLF where the header line is due, or fewer bytes after the line than are to come. -/
def UnfinishedItem (s : Bytes) : Prop :=
  ¬crlf <:+: s ∨ ∃ n line rest, HeaderLine cstringByte maxComplexStringLength n line ∧
    rest.length < n + 2 ∧ s = line ++ rest

/-- A wrong line where the header line is due, or two other bytes where the CRLF is. -/
def WrongItem (e : RequestParseError) (s : Bytes) : Prop :=
  WrongLine cstringByte maxComplexStringLength .expectedCString .cstringTooLong e s ∨
    e = .missingCrlf ∧ ∃ line cstr terminator r,
      HeaderLine cstringByte maxComplexStringLength cstr.length line ∧ terminator.length = 2 ∧
        terminator ≠ crlf ∧ s = line ++ (cstr ++ (terminator ++ r))

def itemGrammar : Grammar UInt8 RequestParseError Bytes := ⟨Item, UnfinishedItem, WrongItem⟩

theorem payload_append {cstr terminator : Bytes} (h : terminator.length = 2) (r : Bytes) :
    (payload cstr.length).run (cstr ++ (terminator ++ r)) =
      if terminator = crlf then .done cstr r else .fail .missingCrlf := by
  have hlen : cstr.length + 2 ≤ (cstr ++ (terminator ++ r)).length := by
    simp [h]
  have hterminator : ((cstr ++ (terminator ++ r)).take (cstr.length + 2)).drop cstr.length =
      terminator := by
    rw [List.take_length_add_append, List.drop_left, ← h, List.take_left]
  have hrest : (cstr ++ (terminator ++ r)).drop (cstr.length + 2) = r := by
    rw [List.drop_length_add_append, ← h, List.drop_left]
  rw [payload_run, if_pos hlen, hterminator, hrest, List.take_left]

theorem payload_short {n : Nat} {s : Bytes} (h : s.length < n + 2) : (payload n).run s = .more := by
  rw [payload_run, if_neg (Nat.not_le.mpr h)]

/-- Where there are enough bytes, they are the payload and two more. -/
theorem payload_split {n : Nat} {s : Bytes} (h : n + 2 ≤ s.length) :
    ∃ cstr terminator r : Bytes, cstr.length = n ∧ terminator.length = 2 ∧
      s = cstr ++ (terminator ++ r) := by
  refine ⟨s.take n, (s.drop n).take 2, (s.drop n).drop 2, ?_, ?_, ?_⟩
  · rw [List.length_take]
    omega
  · rw [List.length_take, List.length_drop]
    omega
  · rw [List.take_append_drop, List.take_append_drop]

theorem payload_parses (n : Nat) : Parses (payload n)
    { word := fun cstr w => cstr.length = n ∧ w = cstr ++ crlf
      unfinished := fun s => s.length < n + 2
      wrong := fun e s => e = .missingCrlf ∧ ∃ cstr terminator r : Bytes, cstr.length = n ∧
        terminator.length = 2 ∧ terminator ≠ crlf ∧ s = cstr ++ (terminator ++ r) } where
  done_iff {s r cstr} := by
    refine ⟨fun hrun => ?_, fun hw => ?_⟩
    · by_cases hlen : s.length < n + 2
      · rw [payload_short hlen] at hrun
        cases hrun
      · obtain ⟨cstr, terminator, r, rfl, ht, rfl⟩ := payload_split (Nat.le_of_not_lt hlen)
        rw [payload_append ht] at hrun
        by_cases hcrlf : terminator = crlf
        · rw [if_pos hcrlf] at hrun
          cases hrun
          exact ⟨cstr ++ crlf, ⟨rfl, rfl⟩, by rw [hcrlf, List.append_assoc]⟩
        · rw [if_neg hcrlf] at hrun
          cases hrun
    · obtain ⟨w, ⟨rfl, rfl⟩, rfl⟩ := hw
      rw [List.append_assoc, payload_append rfl, if_pos rfl]
  more_iff {s} := by
    refine ⟨fun hrun => ?_, payload_short⟩
    by_contra hlen
    obtain ⟨cstr, terminator, r, rfl, ht, rfl⟩ := payload_split (Nat.le_of_not_lt hlen)
    rw [payload_append ht] at hrun
    split at hrun <;> cases hrun
  fail_iff {s e} := by
    refine ⟨fun hrun => ?_, fun hw => ?_⟩
    · by_cases hlen : s.length < n + 2
      · rw [payload_short hlen] at hrun
        cases hrun
      · obtain ⟨cstr, terminator, r, rfl, ht, rfl⟩ := payload_split (Nat.le_of_not_lt hlen)
        rw [payload_append ht] at hrun
        by_cases hcrlf : terminator = crlf
        · rw [if_pos hcrlf] at hrun
          cases hrun
        · rw [if_neg hcrlf] at hrun
          cases hrun
          exact ⟨rfl, cstr, terminator, r, rfl, ht, hcrlf, rfl⟩
    · obtain ⟨rfl, cstr, terminator, r, rfl, ht, hcrlf, rfl⟩ := hw
      rw [payload_append ht, if_neg hcrlf]

theorem item_parses : Parses item itemGrammar := by
  apply ((header_parses (by decide)).bind payload_parses).congr
  · intro cstr w
    refine ⟨fun hw => ?_, fun hw => ?_⟩
    · obtain ⟨n, line, v, hline, ⟨rfl, rfl⟩, rfl⟩ := hw
      exact ⟨line, hline, rfl⟩
    · obtain ⟨line, hline, rfl⟩ := hw
      exact ⟨cstr.length, line, cstr ++ crlf, hline, ⟨rfl, rfl⟩, rfl⟩
  · intro s
    exact Iff.rfl
  · intro e s
    apply or_congr_right
    refine ⟨fun hw => ?_, fun hw => ?_⟩
    · obtain ⟨n, line, v, hline, ⟨rfl, cstr, terminator, r, rfl, ht, hcrlf, rfl⟩, rfl⟩ := hw
      exact ⟨rfl, line, cstr, terminator, r, hline, ht, hcrlf, rfl⟩
    · obtain ⟨rfl, line, cstr, terminator, r, hline, ht, hcrlf, rfl⟩ := hw
      exact ⟨cstr.length, line, _, hline, ⟨rfl, cstr, terminator, r, rfl, ht, hcrlf, rfl⟩, rfl⟩

/-! Frames. -/

/-- A header line with the number of elements, and as many bulk strings. -/
def Frame (request : Request) (w : Bytes) : Prop :=
  ∃ line items, HeaderLine arrayByte maxArrayLength request.cstrs.length line ∧
    Words Item request.cstrs items ∧ w = line ++ items

/-- No CRLF where the header line is due, or some of the bulk strings and one unfinished. -/
def UnfinishedFrame (s : Bytes) : Prop :=
  ¬crlf <:+: s ∨ ∃ n line cstrs items rest, HeaderLine arrayByte maxArrayLength n line ∧
    cstrs.length < n ∧ Words Item cstrs items ∧ UnfinishedItem rest ∧ s = line ++ (items ++ rest)

/-- A wrong line where the header line is due, or some of the bulk strings and a wrong one. -/
def WrongFrame (e : RequestParseError) (s : Bytes) : Prop :=
  WrongLine arrayByte maxArrayLength .expectedArray .arrayTooLong e s ∨
    ∃ n line cstrs items rest, HeaderLine arrayByte maxArrayLength n line ∧
      cstrs.length < n ∧ Words Item cstrs items ∧ WrongItem e rest ∧ s = line ++ (items ++ rest)

def frameGrammar : Grammar UInt8 RequestParseError Request := ⟨Frame, UnfinishedFrame, WrongFrame⟩

theorem frame_parses : Parses frame frameGrammar := by
  apply ((header_parses (by decide)).bind (fun n => item_parses.collect n [])).congr
  · intro request w
    refine ⟨fun hw => ?_, fun hw => ?_⟩
    · obtain ⟨n, line, items, hline, ⟨cstrs, rfl, hitems, rfl⟩, rfl⟩ := hw
      exact ⟨line, items, hline, hitems, rfl⟩
    · obtain ⟨line, items, hline, hitems, rfl⟩ := hw
      exact ⟨_, line, items, hline, ⟨request.cstrs, rfl, hitems, rfl⟩, rfl⟩
  · intro s
    apply or_congr_right
    refine ⟨fun hw => ?_, fun hw => ?_⟩
    · obtain ⟨n, line, v, hline, ⟨cstrs, items, rest, hlen, hitems, hrest, rfl⟩, rfl⟩ := hw
      exact ⟨n, line, cstrs, items, rest, hline, hlen, hitems, hrest, rfl⟩
    · obtain ⟨n, line, cstrs, items, rest, hline, hlen, hitems, hrest, rfl⟩ := hw
      exact ⟨n, line, _, hline, ⟨cstrs, items, rest, hlen, hitems, hrest, rfl⟩, rfl⟩
  · intro e s
    apply or_congr_right
    refine ⟨fun hw => ?_, fun hw => ?_⟩
    · obtain ⟨n, line, v, hline, ⟨cstrs, items, rest, hlen, hitems, hrest, rfl⟩, rfl⟩ := hw
      exact ⟨n, line, cstrs, items, rest, hline, hlen, hitems, hrest, rfl⟩
    · obtain ⟨n, line, cstrs, items, rest, hline, hlen, hitems, hrest, rfl⟩ := hw
      exact ⟨n, line, _, hline, ⟨cstrs, items, rest, hlen, hitems, hrest, rfl⟩, rfl⟩

end Request

/-! Decoding. -/

namespace RequestDecoder
open Request

/-- Call `decode_next` until it returns no request, at most `calls` times: the requests, how
    the last call ended, and the decoder after it. -/
def decodeAll : Nat → RequestDecoder →
    Rust (List Request × Except RequestParseError Unit × RequestDecoder)
  | 0, _ => .error .spin
  | calls+1, self => do
    match ← self.decodeNext with
    | (.error e, self) => return ([], .error e, self)
    | (.ok none, self) => return ([], .ok (), self)
    | (.ok (some request), self) =>
      let (requests, result, self) ← decodeAll calls self
      return (request :: requests, result, self)

/-- What is read is frames, and what is left in the buffer begins with no further one. -/
theorem decodeAll_spec : ∀ (calls : Nat) (bytes : Bytes), bytes.length < calls →
    ∃ requests result decoder read,
      decodeAll calls { buffer := bytes } = .ok (requests, result, decoder) ∧
      bytes = read ++ decoder.buffer ∧ Words Frame requests read ∧
      ((result = .ok () ∧ UnfinishedFrame decoder.buffer) ∨
        ∃ e, result = .error e ∧ WrongFrame e decoder.buffer) := by
  intro calls
  induction calls with
  | zero =>
    intro bytes hcalls
    omega
  | succ calls ih =>
    intro bytes hcalls
    have hd := decodeNext_spec (Ready.fresh bytes)
    rw [decodeAll]
    cases hf : frame.run bytes with
    | more =>
      simp only [hf] at hd
      obtain ⟨decoder, hrun, _, hbuf⟩ := hd
      refine ⟨[], .ok (), decoder, [], by rw [hrun]; rfl, hbuf.symm, .nil, .inl ⟨rfl, ?_⟩⟩
      rw [hbuf]
      exact frame_parses.more_iff.mp hf
    | fail e =>
      simp only [hf] at hd
      obtain ⟨decoder, hrun, hbuf⟩ := hd
      refine ⟨[], .error e, decoder, [], by rw [hrun]; rfl, hbuf.symm, .nil, .inr ⟨e, rfl, ?_⟩⟩
      rw [hbuf]
      exact frame_parses.fail_iff.mp hf
    | done request r =>
      simp only [hf] at hd
      have hshorter := frame_consumes _ _ _ hf
      obtain ⟨w, hw, rfl⟩ := frame_parses.done_iff.mp hf
      obtain ⟨requests, result, decoder, read, hrun, rfl, hread, hend⟩ := ih r (by omega)
      refine ⟨request :: requests, result, decoder, w ++ read, ?_, ?_, .cons hw hread, hend⟩
      · rw [hd, ok_bind]
        show (decodeAll calls { buffer := read ++ decoder.buffer } >>= _) = _
        rw [hrun]
        rfl
      · rw [List.append_assoc]

/-- The decoder accepts its grammar. It reads off the longest sequence of frames the bytes
    begin with, and the rest stays in the buffer. It waits if and only if the rest ends
    inside a frame, and otherwise fails with the error of the first complete line or bulk
    string of which no frame can be made. -/
theorem decodeAll_accepts (bytes : Bytes) : ∃ requests result decoder read,
    decodeAll (bytes.length + 1) { buffer := bytes } = .ok (requests, result, decoder) ∧
    bytes = read ++ decoder.buffer ∧ Words Frame requests read ∧
    (∀ requests' read', Words Frame requests' read' → read' <+: bytes →
      requests' <+: requests ∧ read' <+: read) ∧
    (result = .ok () ↔ UnfinishedFrame decoder.buffer) ∧
    (∀ e, result = .error e ↔ WrongFrame e decoder.buffer) := by
  obtain ⟨requests, result, decoder, read, hrun, hbytes, hread, hend⟩ :=
    decodeAll_spec (bytes.length + 1) bytes (Nat.lt_succ_self _)
  refine ⟨requests, result, decoder, read, hrun, hbytes, hread, ?_, ?_, ?_⟩
  · intro requests' read' hread' hprefix
    rw [hbytes] at hprefix
    exact frame_parses.longest hread (hend.imp (·.2) (fun ⟨e, _, he⟩ => ⟨e, he⟩)) hread' hprefix
  · refine ⟨fun hw => ?_, fun h => ?_⟩
    · subst hw
      rcases hend with ⟨_, h⟩ | ⟨e, he, _⟩
      · exact h
      · cases he
    · rcases hend with ⟨hok, _⟩ | ⟨e, _, he⟩
      · exact hok
      · have hmore := frame_parses.more_iff.mpr h
        rw [frame_parses.fail_iff.mpr he] at hmore
        cases hmore
  · intro e
    refine ⟨fun hw => ?_, fun h => ?_⟩
    · subst hw
      rcases hend with ⟨hok, _⟩ | ⟨e', he', h⟩
      · cases hok
      · cases he'
        exact h
    · have hfail := frame_parses.fail_iff.mpr h
      rcases hend with ⟨_, hmore⟩ | ⟨e', he', hwrong⟩
      · rw [frame_parses.more_iff.mpr hmore] at hfail
        cases hfail
      · rw [frame_parses.fail_iff.mpr hwrong] at hfail
        cases hfail
        exact he'

/-- Plus signs and leading zeros are read, and an item is waited for. -/
example : decodeAll 24 { buffer := asBytes "*+1\r\n$01\r\na\r\n*1\r\n$7\r" } =
    .ok ([⟨[[97]]⟩], .ok (),
      { cursor := 4, expectedArgCount := some 1, buffer := asBytes "*1\r\n$7\r" }) := by
  rfl

end RequestDecoder
end SimpleKv
