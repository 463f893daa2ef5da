import SimpleKv.ResponseSafety
import SimpleKv.ResponseSyntax

/- The decoder of responses accepts their syntax. The values made of a line are its numerals
   and texts, and what stands for a response solves the equation of the parser's grammar, so
   the parser answers by the syntax. The decoder reads off its buffer the longest sequence of
   responses it begins with, unless an array is too large. -/
namespace SimpleKv
open Incremental

namespace Response

/-! Values of lines. -/

theorem lineValue_eq_ok {data : Bytes} {n : Int64} :
    lineValue data = .ok n ↔ SignedNumeral (data.drop 1) n := by
  unfold lineValue
  refine ⟨fun h => ?_, fun h => ?_⟩
  · cases hs : fromUtf8 (data.drop 1) with
    | error e =>
      rw [hs] at h
      cases h
    | ok s =>
      cases hn : parseI64 s with
      | error e =>
        simp only [hs, hn] at h
        cases h
      | ok m =>
        simp only [hs, hn] at h
        cases h
        rw [fromUtf8_eq_ok.mp hs]
        exact parseI64_eq_ok.mp hn
  · obtain ⟨s, heq, hs⟩ := h.reads
    simp only [heq, fromUtf8_asBytes, hs]

/-- What is wrong with the line of an integer can be wrong with the other lines of a number. -/
theorem LineError.of_numeral {b : UInt8} {e : ParseError} {text : Bytes}
    (hb : b ∈ [cstringByte, integerByte, arrayByte]) (h : LineError integerByte e text) :
    LineError b e text := by
  generalize hi : integerByte = i at h
  cases h with
  | sstr => exact absurd hi (by decide)
  | utf8 _ hs => exact .utf8 (List.mem_cons_of_mem _ hb) hs
  | numeral _ hs => exact .numeral hb hs
  | cstrLength => exact absurd hi (by decide)
  | cstrTooLong => exact absurd hi (by decide)
  | arrayLength => exact absurd hi (by decide)

theorem lineValue_eq_error {data : Bytes} {e : ParseError} :
    lineValue data = .error e ↔ LineError integerByte e (data.drop 1) := by
  unfold lineValue
  refine ⟨fun h => ?_, fun h => ?_⟩
  · cases hs : fromUtf8 (data.drop 1) with
    | error e' =>
      rw [hs] at h
      cases h
      exact .utf8 (by decide) hs
    | ok s =>
      cases hn : parseI64 s with
      | ok n =>
        simp only [hs, hn] at h
        cases h
      | error e' =>
        simp only [hs, hn] at h
        cases h
        rw [fromUtf8_eq_ok.mp hs]
        exact .numeral (by decide) hn
  · generalize data.drop 1 = text at h
    generalize hi : integerByte = i at h
    cases h with
    | sstr => exact absurd hi (by decide)
    | utf8 _ hs => simp only [hs]
    | numeral _ hs => simp only [fromUtf8_asBytes, hs]
    | cstrLength => exact absurd hi (by decide)
    | cstrTooLong => exact absurd hi (by decide)
    | arrayLength => exact absurd hi (by decide)

theorem sstrValue_eq_ok {data : Bytes} {response : Response} :
    sstrValue data = .ok response ↔ data.drop 1 = okBody ∧ response = .ok := by
  unfold sstrValue
  split
  · next hbody =>
    rw [and_iff_right hbody, Except.ok.injEq]
    exact eq_comm
  · next hbody => exact iff_of_false (by simp) (fun h => hbody h.1)

theorem sstrValue_eq_error {data : Bytes} {e : ParseError} :
    sstrValue data = .error e ↔ LineError sstrByte e (data.drop 1) := by
  unfold sstrValue
  refine ⟨fun h => ?_, fun h => ?_⟩
  · split at h
    · cases h
    · next hbody =>
      cases h
      exact .sstr hbody
  · generalize data.drop 1 = text at h
    generalize hb : sstrByte = b at h
    cases h with
    | sstr hbody => rw [if_neg hbody]
    | utf8 hm => exact absurd (hb ▸ hm) (by decide)
    | numeral hm => exact absurd (hb ▸ hm) (by decide)
    | cstrLength => exact absurd hb (by decide)
    | cstrTooLong => exact absurd hb (by decide)
    | arrayLength => exact absurd hb (by decide)

theorem errorValue_eq_ok {data : Bytes} {response : Response} :
    errorValue data = .ok response ↔ ∃ msg, data.drop 1 = asBytes msg ∧ response = .error msg := by
  unfold errorValue
  refine ⟨fun h => ?_, ?_⟩
  · cases hs : fromUtf8 (data.drop 1) with
    | error e =>
      rw [hs] at h
      cases h
    | ok msg =>
      rw [hs] at h
      cases h
      exact ⟨msg, fromUtf8_eq_ok.mp hs, rfl⟩
  · rintro ⟨msg, heq, rfl⟩
    rw [heq, fromUtf8_asBytes]

theorem errorValue_eq_error {data : Bytes} {e : ParseError} :
    errorValue data = .error e ↔ LineError errorByte e (data.drop 1) := by
  unfold errorValue
  refine ⟨fun h => ?_, fun h => ?_⟩
  · cases hs : fromUtf8 (data.drop 1) with
    | error e' =>
      rw [hs] at h
      cases h
      exact .utf8 (by decide) hs
    | ok msg =>
      rw [hs] at h
      cases h
  · generalize data.drop 1 = text at h
    generalize hb : errorByte = b at h
    cases h with
    | sstr => exact absurd hb (by decide)
    | utf8 _ hs => rw [hs]
    | numeral hm => exact absurd (hb ▸ hm) (by decide)
    | cstrLength => exact absurd hb (by decide)
    | cstrTooLong => exact absurd hb (by decide)
    | arrayLength => exact absurd hb (by decide)

section Lines
variable {b : UInt8} {v : Bytes} {e : ParseError}

/-- The line that an input with the first byte `b` begins with has that first byte. -/
theorem line_cons (hb : b ≠ 13) {data r : Bytes} (h : b :: v = data ++ 13 :: 10 :: r) :
    ∃ text, data = b :: text := by
  cases data with
  | nil => exact absurd (List.cons.inj h).1 hb
  | cons b' text =>
    cases (List.cons.inj h).1
    exact ⟨text, rfl⟩

theorem lineOf_word {α : Type} {value : Bytes → Except ParseError α} {a : α} (hb : b ≠ 13) :
    (Grammar.lineOf 13 10 value).word a (b :: v) ↔
      ∃ text, value (b :: text) = .ok a ∧ ¬crlf <:+: b :: text ∧ b :: v = b :: text ++ crlf := by
  refine ⟨?_, fun ⟨text, hvalue, hline, heq⟩ => ⟨b :: text, hvalue, hline, heq⟩⟩
  rintro ⟨data, hvalue, hline, heq⟩
  obtain ⟨text, rfl⟩ := line_cons hb heq
  exact ⟨text, hvalue, hline, heq⟩

theorem lineOf_wrong {α : Type} {value : Bytes → Except ParseError α} (hb : b ≠ 13) :
    (Grammar.lineOf 13 10 value).wrong e (b :: v) ↔ ∃ text r, value (b :: text) = .error e ∧
      ¬crlf <:+: b :: text ∧ b :: v = b :: text ++ crlf ++ r := by
  constructor
  · rintro ⟨data, r, hvalue, hline, heq⟩
    obtain ⟨text, rfl⟩ := line_cons hb heq
    exact ⟨text, r, hvalue, hline, by rw [heq, List.append_assoc]; rfl⟩
  · rintro ⟨text, r, hvalue, hline, heq⟩
    exact ⟨b :: text, r, hvalue, hline, by rw [heq, List.append_assoc]; rfl⟩

theorem IntLine.not_infix {n : Int64} {text : Bytes} (h : SignedNumeral text n) :
    ¬crlf <:+: b :: text := by
  intro hpair
  rcases List.infix_cons_iff.mp hpair with hstart | hpair
  · have hm := (List.cons_prefix_cons.mp hstart).2.mem List.mem_cons_self
    exact (h.ne_terminator hm).2 rfl
  · exact (h.ne_terminator (hpair.mem List.mem_cons_self)).1 rfl

theorem lineIntGrammar_word {n : Int64} {w : Bytes} :
    lineIntGrammar.word n w ↔ ∃ b, IntLine b n w := by
  constructor
  · rintro ⟨data, hvalue, hline, rfl⟩
    cases data with
    | nil => cases hvalue
    | cons b text => exact ⟨b, text, lineValue_eq_ok.mp hvalue, rfl⟩
  · rintro ⟨b, text, htext, rfl⟩
    exact ⟨b :: text, lineValue_eq_ok.mpr htext, IntLine.not_infix htext, rfl⟩

/-- The line of a number at the start of an input has the first byte of the input. -/
theorem intLine_append {n : Int64} {P : Bytes → Prop} :
    (∃ line r, lineIntGrammar.word n line ∧ P r ∧ b :: v = line ++ r) ↔
      ∃ line r, IntLine b n line ∧ P r ∧ b :: v = line ++ r := by
  refine exists_congr fun line => exists_congr fun r => and_congr_left ?_
  rintro ⟨_, heq⟩
  rw [lineIntGrammar_word]
  refine ⟨?_, fun h => ⟨b, h⟩⟩
  rintro ⟨b', text, htext, rfl⟩
  cases (List.cons.inj heq).1
  exact ⟨text, htext, rfl⟩

section Seq
variable {γ : Type} {k : Int64 → Grammar UInt8 ParseError γ}

theorem lineInt_seq_word {c : γ} : (lineIntGrammar.seq k).word c (b :: v) ↔
    ∃ n line r, IntLine b n line ∧ (k n).word c r ∧ b :: v = line ++ r :=
  exists_congr fun _ => intLine_append

theorem lineInt_seq_unfinished : (lineIntGrammar.seq k).unfinished (b :: v) ↔
    ¬crlf <:+: b :: v ∨ ∃ n line r, IntLine b n line ∧ (k n).unfinished r ∧ b :: v = line ++ r :=
  or_congr Iff.rfl (exists_congr fun _ => intLine_append)

theorem lineInt_seq_wrong (hb : b ≠ 13) : (lineIntGrammar.seq k).wrong e (b :: v) ↔
    (∃ text r, LineError integerByte e text ∧ ¬crlf <:+: b :: text ∧
      b :: v = b :: text ++ crlf ++ r) ∨
    ∃ n line r, IntLine b n line ∧ (k n).wrong e r ∧ b :: v = line ++ r := by
  refine or_congr ((lineOf_wrong hb).trans ?_) (exists_congr fun _ => intLine_append)
  refine exists_congr fun text => exists_congr fun r => and_congr_left fun _ => ?_
  rw [lineValue_eq_error]
  rfl

end Seq

end Lines

/-! Complex strings and arrays. -/

/-- A length that is not negative is the number the decoder counts with. -/
theorem length_nonneg {len : Int64} (h : ¬len < 0) : len.toInt = len.toUInt64.toNat := by
  have hle : 0 ≤ len.toInt := by
    rw [Int64.lt_iff_toInt_lt] at h
    exact Int.not_lt.mp h
  rw [Int64.toNat_toUInt64_of_le (Int64.le_iff_toInt_le.mpr hle)]
  exact (Int.toNat_of_nonneg hle).symm

theorem length_neg {len : Int64} (h : len < 0) : len.toInt < 0 := Int64.lt_iff_toInt_lt.mp h

/-- A complex string has no length, a wrong one, or one the decoder counts with. -/
theorem length_cases (len : Int64) :
    len = nullCstrLen ∧ len.toInt = -1 ∨ len ≠ nullCstrLen ∧ len < 0 ∧ len.toInt < -1 ∨
      len ≠ nullCstrLen ∧ ¬len < 0 ∧ len.toInt = len.toUInt64.toNat := by
  by_cases hnull : len = nullCstrLen
  · subst hnull
    exact .inl ⟨rfl, rfl⟩
  by_cases hneg : len < 0
  · have hne : len.toInt ≠ -1 := fun heq => hnull (Int64.toInt_inj.mp heq)
    have hlt := length_neg hneg
    exact .inr (.inl ⟨hnull, hneg, by omega⟩)
  · exact .inr (.inr ⟨hnull, hneg, length_nonneg hneg⟩)

section Bodies
variable {len : Int64} {response : Response} {e : ParseError} {s : Bytes}

theorem cstrGrammar_word : (cstrGrammar len).word response s ↔
    len = nullCstrLen ∧ response = .null ∧ s = [] ∨
    ∃ bytes : Bytes, len.toInt = bytes.length ∧ bytes.length ≤ maxComplexStringLength ∧
      response = .cstr bytes ∧ s = bytes ++ crlf := by
  unfold cstrGrammar
  rcases length_cases len with ⟨hnull, hlen⟩ | ⟨hnull, hneg, hlen⟩ | ⟨hnull, hneg, hlen⟩
  · rw [if_pos hnull]
    refine ⟨fun h => .inl ⟨hnull, h⟩, ?_⟩
    rintro (⟨_, h⟩ | ⟨bytes, heq, _⟩)
    · exact h
    · omega
  · rw [if_neg hnull, if_pos hneg]
    refine iff_of_false id ?_
    rintro (⟨h, _⟩ | ⟨bytes, heq, _⟩)
    · exact hnull h
    · omega
  · rw [if_neg hnull, if_neg hneg]
    split
    · refine iff_of_false id ?_
      rintro (⟨h, _⟩ | ⟨bytes, heq, _⟩)
      · exact hnull h
      · omega
    · constructor
      · rintro ⟨bytes, u, v, ⟨hbytes, rfl⟩, ⟨rfl, rfl⟩, rfl⟩
        exact .inr ⟨bytes, by omega, by omega, rfl, List.append_nil _⟩
      · rintro (⟨h, _⟩ | ⟨bytes, heq, _, rfl, rfl⟩)
        · exact absurd h hnull
        · refine ⟨bytes, _, [], ⟨?_, rfl⟩, ⟨rfl, rfl⟩, (List.append_nil _).symm⟩
          omega

theorem cstrGrammar_unfinished : (cstrGrammar len).unfinished s ↔
    ∃ n : Nat, len.toInt = n ∧ n ≤ maxComplexStringLength ∧ s.length < n + 2 := by
  unfold cstrGrammar
  rcases length_cases len with ⟨hnull, hlen⟩ | ⟨hnull, hneg, hlen⟩ | ⟨hnull, hneg, hlen⟩
  · rw [if_pos hnull]
    refine iff_of_false id ?_
    rintro ⟨n, heq, _⟩
    omega
  · rw [if_neg hnull, if_pos hneg]
    refine iff_of_false id ?_
    rintro ⟨n, heq, _⟩
    omega
  · rw [if_neg hnull, if_neg hneg]
    split
    · refine iff_of_false id ?_
      rintro ⟨n, heq, _⟩
      omega
    · constructor
      · rintro (h | ⟨_, _, _, _, h, _⟩)
        · exact ⟨_, hlen, by omega, h⟩
        · exact h.elim
      · rintro ⟨n, heq, _, h⟩
        obtain rfl : n = len.toUInt64.toNat := by omega
        exact .inl h

theorem cstrGrammar_wrong : (cstrGrammar len).wrong e s ↔
    len.toInt < -1 ∧ e = .invalidCStringLength len ∨
    (∃ n : Nat, len.toInt = n ∧ maxComplexStringLength < n ∧ e = .cstringTooLong n) ∨
    e = .missingCrlf ∧ ∃ bytes terminator r : Bytes, len.toInt = bytes.length ∧
      bytes.length ≤ maxComplexStringLength ∧ terminator.length = 2 ∧ terminator ≠ crlf ∧
      s = bytes ++ (terminator ++ r) := by
  unfold cstrGrammar
  rcases length_cases len with ⟨hnull, hlen⟩ | ⟨hnull, hneg, hlen⟩ | ⟨hnull, hneg, hlen⟩
  · rw [if_pos hnull]
    refine iff_of_false id ?_
    rintro (⟨hlt, _⟩ | ⟨n, heq, _⟩ | ⟨_, bytes, _, _, heq, _⟩) <;> omega
  · rw [if_neg hnull, if_pos hneg]
    refine ⟨fun h => .inl ⟨hlen, h⟩, ?_⟩
    rintro (⟨_, h⟩ | ⟨n, heq, _⟩ | ⟨_, bytes, _, _, heq, _⟩)
    · exact h
    · omega
    · omega
  · rw [if_neg hnull, if_neg hneg]
    split
    · next hlong =>
      refine ⟨fun h => .inr (.inl ⟨_, hlen, hlong, h⟩), ?_⟩
      rintro (⟨hlt, _⟩ | ⟨n, heq, _, h⟩ | ⟨_, bytes, _, _, heq, hle, _⟩)
      · omega
      · obtain rfl : n = len.toUInt64.toNat := by omega
        exact h
      · omega
    · constructor
      · rintro (⟨rfl, bytes, terminator, r, hbytes, ht, hne, rfl⟩ | ⟨_, _, _, _, h, _⟩)
        · exact .inr (.inr ⟨rfl, bytes, terminator, r, by omega, by omega, ht, hne, rfl⟩)
        · exact h.elim
      · rintro (⟨hlt, _⟩ | ⟨n, heq, hlong, _⟩ | ⟨rfl, bytes, terminator, r, heq, _, ht, hne, rfl⟩)
        · omega
        · omega
        · exact .inl ⟨rfl, bytes, terminator, r, by omega, ht, hne, rfl⟩

variable {g : Grammar UInt8 ParseError Response}

theorem arrayGrammar_word : (arrayGrammar g len).word response s ↔
    ∃ responses : List Response, len.toInt = responses.length ∧ Words g.word responses s ∧
      response = .array responses := by
  unfold arrayGrammar
  by_cases hneg : len < 0
  · have hlt := length_neg hneg
    rw [if_pos hneg]
    refine iff_of_false id ?_
    rintro ⟨responses, heq, _⟩
    omega
  · have hlen := length_nonneg hneg
    rw [if_neg hneg]
    refine exists_congr fun responses => and_congr_left fun _ => ?_
    omega

theorem arrayGrammar_unfinished : (arrayGrammar g len).unfinished s ↔
    ∃ (responses : List Response) (items rest : Bytes), responses.length < len.toInt ∧
      Words g.word responses items ∧ g.unfinished rest ∧ s = items ++ rest := by
  unfold arrayGrammar
  by_cases hneg : len < 0
  · have hlt := length_neg hneg
    rw [if_pos hneg]
    refine iff_of_false id ?_
    rintro ⟨responses, _, _, hless, _⟩
    omega
  · have hlen := length_nonneg hneg
    rw [if_neg hneg]
    refine exists_congr fun responses => exists_congr fun items => exists_congr fun rest =>
      and_congr_left fun _ => ?_
    omega

theorem arrayGrammar_wrong : (arrayGrammar g len).wrong e s ↔
    len.toInt < 0 ∧ e = .invalidArrayLength len ∨
    ∃ (responses : List Response) (items rest : Bytes), responses.length < len.toInt ∧
      Words g.word responses items ∧ g.wrong e rest ∧ s = items ++ rest := by
  unfold arrayGrammar
  by_cases hneg : len < 0
  · have hlt := length_neg hneg
    rw [if_pos hneg]
    refine ⟨fun h => .inl ⟨hlt, h⟩, ?_⟩
    rintro (⟨_, h⟩ | ⟨responses, _, _, hless, _⟩)
    · exact h
    · omega
  · have hlen := length_nonneg hneg
    rw [if_neg hneg]
    constructor
    · rintro ⟨responses, items, rest, hless, h⟩
      exact .inr ⟨responses, items, rest, by omega, h⟩
    · rintro (⟨hlt, _⟩ | ⟨responses, items, rest, hless, h⟩)
      · omega
      · exact ⟨responses, items, rest, by omega, h⟩

end Bodies

/-! Responses solve the equation of the grammar. -/

def grammar : Grammar UInt8 ParseError Response := ⟨Spelled, Unfinished, Wrong⟩

theorem mem_prefixBytes {b : UInt8} : b ∈ prefixBytes ↔
    b = sstrByte ∨ b = errorByte ∨ b = cstringByte ∨ b = integerByte ∨ b = arrayByte := by
  simp [prefixBytes]

section Kinds
variable (g : Grammar UInt8 ParseError Response)

theorem grammarOf_sstr : grammarOf g sstrByte = .lineOf 13 10 sstrValue := rfl
theorem grammarOf_error : grammarOf g errorByte = .lineOf 13 10 errorValue := rfl
theorem grammarOf_cstring : grammarOf g cstringByte = lineIntGrammar.seq cstrGrammar := rfl
theorem grammarOf_integer :
    grammarOf g integerByte = lineIntGrammar.seq (fun n => .pure (.integer n)) := rfl
theorem grammarOf_array : grammarOf g arrayByte = lineIntGrammar.seq (arrayGrammar g) := rfl

theorem grammarOf_other {first : UInt8} (h : first ∉ prefixBytes) :
    grammarOf g first = .throw (.unexpectedPrefix first) := by
  rw [mem_prefixBytes] at h
  simp only [not_or] at h
  unfold grammarOf
  rw [if_neg h.1, if_neg h.2.1, if_neg h.2.2.1, if_neg h.2.2.2.1, if_neg h.2.2.2.2]

end Kinds

theorem IntLine.cons {b : UInt8} {n : Int64} {line : Bytes} (h : IntLine b n line) (r : Bytes) :
    ∃ v, line ++ r = b :: v := by
  obtain ⟨text, _, rfl⟩ := h
  exact ⟨text ++ crlf ++ r, rfl⟩

theorem spelled_iff {response : Response} {w : Bytes} :
    (Grammar.branch (grammarOf grammar)).word response w ↔ Spelled response w := by
  constructor
  · rintro ⟨first, v, rfl, hw⟩
    by_cases hfirst : first ∈ prefixBytes
    · rcases mem_prefixBytes.mp hfirst with rfl | rfl | rfl | rfl | rfl
      · rw [grammarOf_sstr, lineOf_word (by decide)] at hw
        obtain ⟨text, hvalue, _, heq⟩ := hw
        obtain ⟨rfl, rfl⟩ := sstrValue_eq_ok.mp hvalue
        rw [heq]
        exact .ok
      · rw [grammarOf_error, lineOf_word (by decide)] at hw
        obtain ⟨text, hvalue, hline, heq⟩ := hw
        obtain ⟨msg, rfl, rfl⟩ := errorValue_eq_ok.mp hvalue
        rw [heq]
        exact .error (fun hpair => hline (hpair.trans (List.suffix_cons _ _).isInfix))
      · rw [grammarOf_cstring, lineInt_seq_word] at hw
        obtain ⟨len, line, r, hline, hr, heq⟩ := hw
        rw [heq]
        rcases cstrGrammar_word.mp hr with ⟨rfl, rfl, rfl⟩ | ⟨bytes, hlen, hle, rfl, rfl⟩
        · rw [List.append_nil]
          exact .null hline
        · exact .cstr hline hlen hle
      · rw [grammarOf_integer, lineInt_seq_word] at hw
        obtain ⟨n, line, r, hline, ⟨rfl, rfl⟩, heq⟩ := hw
        rw [heq, List.append_nil]
        exact .integer hline
      · rw [grammarOf_array, lineInt_seq_word] at hw
        obtain ⟨len, line, r, hline, hr, heq⟩ := hw
        obtain ⟨responses, hlen, hitems, rfl⟩ := arrayGrammar_word.mp hr
        rw [heq]
        exact .array hline hlen hitems
    · rw [grammarOf_other _ hfirst] at hw
      exact hw.elim
  · intro h
    cases h with
    | ok =>
      refine ⟨sstrByte, okBody ++ crlf, rfl, ?_⟩
      rw [grammarOf_sstr]
      exact (lineOf_word (by decide)).mpr ⟨okBody, rfl, by decide, rfl⟩
    | @error msg hmsg =>
      refine ⟨errorByte, asBytes msg ++ crlf, rfl, ?_⟩
      rw [grammarOf_error]
      refine (lineOf_word (by decide)).mpr ⟨asBytes msg, ?_, ?_, rfl⟩
      · exact errorValue_eq_ok.mpr ⟨msg, rfl, rfl⟩
      · intro hpair
        rcases List.infix_cons_iff.mp hpair with hstart | hpair
        · exact absurd (List.cons_prefix_cons.mp hstart).1 (by decide)
        · exact hmsg hpair
    | integer hline =>
      obtain ⟨v, heq⟩ := hline.cons []
      rw [List.append_nil] at heq
      refine ⟨integerByte, v, heq, ?_⟩
      rw [grammarOf_integer, heq]
      exact lineInt_seq_word.mpr ⟨_, _, [], hline, ⟨rfl, rfl⟩, by rw [List.append_nil, heq]⟩
    | null hline =>
      obtain ⟨v, heq⟩ := hline.cons []
      rw [List.append_nil] at heq
      refine ⟨cstringByte, v, heq, ?_⟩
      rw [grammarOf_cstring, heq]
      refine lineInt_seq_word.mpr ⟨_, _, [], hline, ?_, by rw [List.append_nil, heq]⟩
      exact cstrGrammar_word.mpr (.inl ⟨rfl, rfl, rfl⟩)
    | cstr hline hlen hle =>
      obtain ⟨v, heq⟩ := hline.cons _
      refine ⟨cstringByte, v, heq, ?_⟩
      rw [grammarOf_cstring, heq]
      refine lineInt_seq_word.mpr ⟨_, _, _, hline, ?_, heq.symm⟩
      exact cstrGrammar_word.mpr (.inr ⟨_, hlen, hle, rfl, rfl⟩)
    | array hline hlen hitems =>
      obtain ⟨v, heq⟩ := hline.cons _
      refine ⟨arrayByte, v, heq, ?_⟩
      rw [grammarOf_array, heq]
      refine lineInt_seq_word.mpr ⟨_, _, _, hline, ?_, heq.symm⟩
      exact arrayGrammar_word.mpr ⟨_, hlen, hitems, rfl⟩

theorem unfinished_iff {s : Bytes} :
    (Grammar.branch (grammarOf grammar)).unfinished s ↔ Unfinished s := by
  constructor
  · rintro (rfl | ⟨first, v, rfl, hs⟩)
    · exact .empty
    by_cases hfirst : first ∈ prefixBytes
    · rcases mem_prefixBytes.mp hfirst with rfl | rfl | rfl | rfl | rfl
      · exact .line hfirst hs
      · exact .line hfirst hs
      · rw [grammarOf_cstring, lineInt_seq_unfinished] at hs
        rcases hs with hs | ⟨len, line, r, hline, hr, heq⟩
        · exact .line hfirst hs
        · obtain ⟨n, hlen, hle, hshort⟩ := cstrGrammar_unfinished.mp hr
          rw [heq]
          exact .cstr hline hlen hle hshort
      · rw [grammarOf_integer, lineInt_seq_unfinished] at hs
        rcases hs with hs | ⟨_, _, _, _, hr, _⟩
        · exact .line hfirst hs
        · exact hr.elim
      · rw [grammarOf_array, lineInt_seq_unfinished] at hs
        rcases hs with hs | ⟨len, line, r, hline, hr, heq⟩
        · exact .line hfirst hs
        · obtain ⟨responses, items, rest, hless, hitems, hrest, rfl⟩ := arrayGrammar_unfinished.mp hr
          rw [heq]
          exact .element hline hless hitems hrest
    · rw [grammarOf_other _ hfirst] at hs
      exact hs.elim
  · intro h
    cases h with
    | empty => exact .inl rfl
    | @line first s hfirst hs =>
      refine .inr ⟨first, s, rfl, ?_⟩
      rcases mem_prefixBytes.mp hfirst with rfl | rfl | rfl | rfl | rfl
      · exact hs
      · exact hs
      · exact .inl hs
      · exact .inl hs
      · exact .inl hs
    | cstr hline hlen hle hshort =>
      obtain ⟨v, heq⟩ := hline.cons _
      refine .inr ⟨cstringByte, v, heq, ?_⟩
      rw [grammarOf_cstring, heq]
      refine lineInt_seq_unfinished.mpr (.inr ⟨_, _, _, hline, ?_, heq.symm⟩)
      exact cstrGrammar_unfinished.mpr ⟨_, hlen, hle, hshort⟩
    | element hline hless hitems hrest =>
      obtain ⟨v, heq⟩ := hline.cons _
      refine .inr ⟨arrayByte, v, heq, ?_⟩
      rw [grammarOf_array, heq]
      refine lineInt_seq_unfinished.mpr (.inr ⟨_, _, _, hline, ?_, heq.symm⟩)
      exact arrayGrammar_unfinished.mpr ⟨_, _, _, hless, hitems, hrest, rfl⟩

/-- A line of which no number can be made is wrong, whichever response it is to begin. -/
theorem wrong_of_lineError {b : UInt8} (hb : b ∈ [cstringByte, integerByte, arrayByte])
    {e : ParseError} {text r : Bytes} (h : LineError integerByte e text)
    (hline : ¬crlf <:+: b :: text) :
    (Grammar.branch (grammarOf grammar)).wrong e (b :: text ++ crlf ++ r) := by
  refine ⟨b, text ++ crlf ++ r, rfl, ?_⟩
  have hwrong : ∀ k : Int64 → Grammar UInt8 ParseError Response,
      (lineIntGrammar.seq k).wrong e (b :: (text ++ crlf ++ r)) := by
    intro k
    refine (lineInt_seq_wrong ?_).mpr (.inl ⟨text, r, h, hline, rfl⟩)
    rintro rfl
    exact absurd hb (by decide)
  simp only [List.mem_cons, List.not_mem_nil, or_false] at hb
  rcases hb with rfl | rfl | rfl
  · exact hwrong _
  · exact hwrong _
  · exact hwrong _

theorem wrong_iff {e : ParseError} {s : Bytes} :
    (Grammar.branch (grammarOf grammar)).wrong e s ↔ Wrong e s := by
  constructor
  · rintro ⟨first, v, rfl, hs⟩
    by_cases hfirst : first ∈ prefixBytes
    · rcases mem_prefixBytes.mp hfirst with rfl | rfl | rfl | rfl | rfl
      · rw [grammarOf_sstr, lineOf_wrong (by decide)] at hs
        obtain ⟨text, r, hvalue, hline, heq⟩ := hs
        rw [heq]
        exact .line (sstrValue_eq_error.mp hvalue) hline
      · rw [grammarOf_error, lineOf_wrong (by decide)] at hs
        obtain ⟨text, r, hvalue, hline, heq⟩ := hs
        rw [heq]
        exact .line (errorValue_eq_error.mp hvalue) hline
      · rw [grammarOf_cstring, lineInt_seq_wrong (by decide)] at hs
        rcases hs with ⟨text, r, herror, hline, heq⟩ | ⟨len, line, r, hline, hr, heq⟩
        · rw [heq]
          exact .line (herror.of_numeral (by decide)) hline
        · rw [heq]
          obtain ⟨text, htext, rfl⟩ := hline
          have hinfix := IntLine.not_infix (b := cstringByte) htext
          rcases cstrGrammar_wrong.mp hr with ⟨hlt, rfl⟩ | ⟨n, hlen, hlong, rfl⟩ | ⟨rfl, hend⟩
          · exact .line (.cstrLength htext hlt) hinfix
          · exact .line (.cstrTooLong htext hlen hlong) hinfix
          · obtain ⟨bytes, terminator, r, hlen, hle, hterminator, hne, rfl⟩ := hend
            exact .terminator ⟨text, htext, rfl⟩ hlen hle hterminator hne
      · rw [grammarOf_integer, lineInt_seq_wrong (by decide)] at hs
        rcases hs with ⟨text, r, herror, hline, heq⟩ | ⟨_, _, _, _, hr, _⟩
        · rw [heq]
          exact .line herror hline
        · exact hr.elim
      · rw [grammarOf_array, lineInt_seq_wrong (by decide)] at hs
        rcases hs with ⟨text, r, herror, hline, heq⟩ | ⟨len, line, r, hline, hr, heq⟩
        · rw [heq]
          exact .line (herror.of_numeral (by decide)) hline
        · rw [heq]
          rcases arrayGrammar_wrong.mp hr with ⟨hlt, rfl⟩ | ⟨responses, items, rest, hless, hrest⟩
          · obtain ⟨text, htext, rfl⟩ := hline
            exact .line (.arrayLength htext hlt) (IntLine.not_infix htext)
          · obtain ⟨hitems, hwrong, rfl⟩ := hrest
            exact .element hline hless hitems hwrong
    · rw [grammarOf_other _ hfirst] at hs
      cases hs
      exact .byte hfirst
  · intro h
    cases h with
    | @byte first s hfirst =>
      refine ⟨first, s, rfl, ?_⟩
      rw [grammarOf_other _ hfirst]
      rfl
    | @line b e text r herror hline =>
      cases herror with
      | sstr hbody =>
        refine ⟨sstrByte, text ++ crlf ++ r, rfl, ?_⟩
        rw [grammarOf_sstr]
        have hvalue := (@sstrValue_eq_error (sstrByte :: text) _).mpr (.sstr hbody)
        exact (lineOf_wrong (by decide)).mpr ⟨text, r, hvalue, hline, rfl⟩
      | utf8 hb hs =>
        rcases List.mem_cons.mp hb with rfl | hb
        · refine ⟨errorByte, text ++ crlf ++ r, rfl, ?_⟩
          rw [grammarOf_error]
          have hvalue := (@errorValue_eq_error (errorByte :: text) _).mpr (.utf8 hb hs)
          exact (lineOf_wrong (by decide)).mpr ⟨text, r, hvalue, hline, rfl⟩
        · exact wrong_of_lineError hb (.utf8 (by decide) hs) hline
      | numeral hb hs => exact wrong_of_lineError hb (.numeral (by decide) hs) hline
      | @cstrLength len _ htext hlt =>
        refine ⟨cstringByte, text ++ crlf ++ r, rfl, ?_⟩
        rw [grammarOf_cstring]
        refine (lineInt_seq_wrong (by decide)).mpr (.inr ⟨len, _, r, ⟨text, htext, rfl⟩, ?_, rfl⟩)
        exact cstrGrammar_wrong.mpr (.inl ⟨hlt, rfl⟩)
      | @cstrTooLong len n _ htext hlen hlong =>
        refine ⟨cstringByte, text ++ crlf ++ r, rfl, ?_⟩
        rw [grammarOf_cstring]
        refine (lineInt_seq_wrong (by decide)).mpr (.inr ⟨len, _, r, ⟨text, htext, rfl⟩, ?_, rfl⟩)
        exact cstrGrammar_wrong.mpr (.inr (.inl ⟨n, hlen, hlong, rfl⟩))
      | @arrayLength len _ htext hlt =>
        refine ⟨arrayByte, text ++ crlf ++ r, rfl, ?_⟩
        rw [grammarOf_array]
        refine (lineInt_seq_wrong (by decide)).mpr (.inr ⟨len, _, r, ⟨text, htext, rfl⟩, ?_, rfl⟩)
        exact arrayGrammar_wrong.mpr (.inl ⟨hlt, rfl⟩)
    | terminator hline hlen hle hterminator hne =>
      obtain ⟨v, heq⟩ := hline.cons _
      refine ⟨cstringByte, v, heq, ?_⟩
      rw [grammarOf_cstring, heq]
      refine (lineInt_seq_wrong (by decide)).mpr (.inr ⟨_, _, _, hline, ?_, heq.symm⟩)
      exact cstrGrammar_wrong.mpr (.inr (.inr ⟨rfl, _, _, _, hlen, hle, hterminator, hne, rfl⟩))
    | element hline hless hitems hwrong =>
      obtain ⟨v, heq⟩ := hline.cons _
      refine ⟨arrayByte, v, heq, ?_⟩
      rw [grammarOf_array, heq]
      refine (lineInt_seq_wrong (by decide)).mpr (.inr ⟨_, _, _, hline, ?_, heq.symm⟩)
      exact arrayGrammar_wrong.mpr (.inr ⟨_, _, _, hless, hitems, hwrong, rfl⟩)

/-- The parser answers by the syntax. -/
theorem frame_parses : Parses frame grammar := by
  apply Parses.fix guarded grammar_guarded
  · intro p g h
    exact .branch (grammarOf_nonempty g) (frameOf_parses h)
  · intro n
    exact ⟨fun _ => spelled_iff, fun _ => unfinished_iff, fun _ => wrong_iff⟩

/-- The encoder keeps to the syntax. -/
theorem Wire.spelled {response : Response} (h : response.Wire) :
    Spelled response response.toBytes := by
  obtain ⟨w, hw, heq⟩ := frame_parses.done_iff.mp h.encodes
  rw [heq, List.append_nil]
  exact hw

/-! Arrays that are too large. -/

theorem lineInt_done_iff {n : Int64} {s r : Bytes} : lineInt.run (arrayByte :: s) = .done n r ↔
    ∃ line, IntLine arrayByte n line ∧ arrayByte :: s = line ++ r := by
  rw [lineInt_parses.done_iff]
  refine exists_congr fun line => and_congr_left ?_
  intro heq
  rw [lineIntGrammar_word]
  refine ⟨?_, fun h => ⟨arrayByte, h⟩⟩
  rintro ⟨b, text, htext, rfl⟩
  cases (List.cons.inj heq).1
  exact ⟨text, htext, rfl⟩

open ResponseDecoder (Oversized) in
theorem oversized_iff {s : Bytes} : Oversized s ↔ TooLarge s := by
  constructor
  · intro h
    induction h with
    | header hdone hneg hroom =>
      obtain ⟨line, hline, heq⟩ := lineInt_done_iff.mp hdone
      rw [heq]
      have hlen := length_nonneg hneg
      exact .header hline (by rw [hlen]; exact_mod_cast hroom)
    | element hdone hneg hroom hk hafter _ ih =>
      obtain ⟨line, hline, heq⟩ := lineInt_done_iff.mp hdone
      obtain ⟨responses, items, rfl, hitems, rfl⟩ := frame_parses.after_iff.mp hafter
      rw [heq]
      have hlen := length_nonneg hneg
      refine .element hline (by rw [hlen]; exact_mod_cast hroom) ?_ hitems ih
      rw [hlen]
      exact_mod_cast hk
  · intro h
    have nonneg : ∀ {len : Int64}, 0 ≤ len.toInt → ¬len < 0 := fun hle hneg =>
      absurd (length_neg hneg) (Int.not_lt.mpr hle)
    induction h with
    | @header line rest len hline hroom =>
      have hneg : ¬len < 0 := nonneg (by unfold responseSize at hroom; omega)
      rw [length_nonneg hneg] at hroom
      obtain ⟨v, heq⟩ := hline.cons rest
      rw [heq]
      exact .header (lineInt_done_iff.mpr ⟨_, hline, heq.symm⟩) hneg (by exact_mod_cast hroom)
    | @element responses line items rest len hline hroom hless hitems _ ih =>
      have hneg : ¬len < 0 := nonneg (by omega)
      rw [length_nonneg hneg] at hroom hless
      obtain ⟨v, heq⟩ := hline.cons (items ++ rest)
      rw [heq]
      refine .element (lineInt_done_iff.mpr ⟨_, hline, heq.symm⟩) hneg (by exact_mod_cast hroom)
        (by exact_mod_cast hless) ?_ ih
      exact frame_parses.after_iff.mpr ⟨responses, items, rfl, hitems, rfl⟩

end Response

/-! Decoding. -/

namespace ResponseDecoder
open Response

/-- Call `decode_next` until it returns no response, at most `calls` times: the responses, how
    the last call ended, and the decoder after it. -/
def decodeAll : Nat → ResponseDecoder →
    Rust (List Response × Except ParseError Unit × ResponseDecoder)
  | 0, _ => .error .spin
  | calls+1, self => do
    match ← self.decodeNext with
    | (.error e, self) => return ([], .error e, self)
    | (.ok none, self) => return ([], .ok (), self)
    | (.ok (some response), self) =>
      let (responses, result, self) ← decodeAll calls self
      return (response :: responses, result, self)

/-- A call either stops for lack of room or answers by the syntax. -/
theorem decodeNext_cases (bytes : Bytes) :
    TooLarge bytes ∧ (∃ size above,
      decodeNext { buffer := bytes } = .error (.capacityOverflow size above)) ∨
    ¬TooLarge bytes ∧ decodeNext { buffer := bytes } = .ok (match frame.run bytes with
      | .fail e => (.error e, { buffer := bytes, poisoned := true })
      | .done response rest => (.ok (some response), { buffer := rest })
      | .more => (.ok none, { buffer := bytes })) := by
  have hspec := @decodeNext_spec { buffer := bytes } rfl
  have hreturns := decodeNext_returns_iff { buffer := bytes }
  rw [or_iff_right (by simp), oversized_iff] at hreturns
  cases hd : decodeNext { buffer := bytes } with
  | error f =>
    rw [hd] at hspec
    obtain ⟨hmemory, hover⟩ : f.OutOfMemory ∧ Oversized bytes := hspec
    cases f with
    | capacityOverflow size above => exact .inl ⟨oversized_iff.mp hover, size, above, rfl⟩
    | _ => exact hmemory.elim
  | ok r =>
    have hanswer := Outcome.Yields.of_ok hspec hd
    refine .inr ⟨hreturns.mp ⟨r, hd⟩, congrArg Except.ok ?_⟩
    cases hf : frame.run bytes with
    | more => simpa only [hf] using hanswer
    | fail e => simpa only [hf] using hanswer
    | done response rest => simpa only [hf] using hanswer

theorem decodeAll_reads : ∀ (calls : Nat) (bytes : Bytes), bytes.length < calls →
    ∃ responses read rest, bytes = read ++ rest ∧ Words Spelled responses read ∧
      (TooLarge rest ∧ (∃ size above,
        decodeAll calls { buffer := bytes } = .error (.capacityOverflow size above)) ∨
      ¬TooLarge rest ∧ ∃ result poisoned,
        decodeAll calls { buffer := bytes } = .ok (responses, result, { buffer := rest, poisoned }) ∧
        (result = .ok () ∧ poisoned = false ∧ Unfinished rest ∨
          ∃ e, result = .error e ∧ poisoned = true ∧ Wrong e rest)) := by
  intro calls
  induction calls with
  | zero =>
    intro bytes hcalls
    omega
  | succ calls ih =>
    intro bytes hcalls
    rw [decodeAll]
    rcases decodeNext_cases bytes with ⟨hlarge, size, above, hd⟩ | ⟨hroom, hd⟩
    · exact ⟨[], [], bytes, rfl, .nil, .inl ⟨hlarge, size, above, by rw [hd]; rfl⟩⟩
    cases hf : frame.run bytes with
    | more =>
      simp only [hf] at hd
      have hmore := frame_parses.more_iff.mp hf
      exact ⟨[], [], bytes, rfl, .nil,
        .inr ⟨hroom, .ok (), false, by rw [hd]; rfl, .inl ⟨rfl, rfl, hmore⟩⟩⟩
    | fail e =>
      simp only [hf] at hd
      have hwrong := frame_parses.fail_iff.mp hf
      exact ⟨[], [], bytes, rfl, .nil,
        .inr ⟨hroom, .error e, true, by rw [hd]; rfl, .inr ⟨e, rfl, rfl, hwrong⟩⟩⟩
    | done response rest =>
      simp only [hf] at hd
      have hshorter := frame_consumes _ _ _ hf
      obtain ⟨w, hw, rfl⟩ := frame_parses.done_iff.mp hf
      obtain ⟨responses, read, rest, rfl, hread, hend⟩ := ih rest (by omega)
      refine ⟨response :: responses, w ++ read, rest, (List.append_assoc _ _ _).symm, .cons hw hread, ?_⟩
      rw [hd, ok_bind]
      refine hend.imp (And.imp_right ?_) (And.imp_right ?_)
      · rintro ⟨size, above, hrun⟩
        refine ⟨size, above, ?_⟩
        show (decodeAll calls { buffer := read ++ rest } >>= _) = _
        rw [hrun]
        rfl
      · rintro ⟨result, poisoned, hrun, hend⟩
        refine ⟨result, poisoned, ?_, hend⟩
        show (decodeAll calls { buffer := read ++ rest } >>= _) = _
        rw [hrun]
        rfl

/-- The decoder accepts its grammar, with arrays nested to any depth. It reads off responses
    and stops for lack of room only where the next one has an array that is too large.
    Otherwise what it has read is the longest sequence of responses the bytes begin with, and
    the rest stays in the buffer. It waits if and only if the rest ends inside a response, and
    fails with an error, for good, if and only if no response begins like the rest. -/
theorem decodeAll_longest (bytes : Bytes) : ∃ responses read rest,
    bytes = read ++ rest ∧ Words Spelled responses read ∧
    (TooLarge rest ∧ (∃ size above, decodeAll (bytes.length + 1) { buffer := bytes } =
        .error (.capacityOverflow size above)) ∨
      ¬TooLarge rest ∧
      (∀ responses' read', Words Spelled responses' read' → read' <+: bytes →
        responses' <+: responses ∧ read' <+: read) ∧
      ∃ result poisoned, decodeAll (bytes.length + 1) { buffer := bytes } =
          .ok (responses, result, { buffer := rest, poisoned }) ∧
        (result = .ok () ↔ Unfinished rest) ∧ (∀ e, result = .error e ↔ Wrong e rest) ∧
        (poisoned = true ↔ ∃ e, Wrong e rest)) := by
  obtain ⟨responses, read, rest, hbytes, hread, hend⟩ :=
    decodeAll_reads (bytes.length + 1) bytes (Nat.lt_succ_self _)
  refine ⟨responses, read, rest, hbytes, hread, hend.imp_right (And.imp_right ?_)⟩
  rintro ⟨result, poisoned, hrun, hend⟩
  -- no rest is both unfinished and wrong, nor wrong in two ways
  have hexclusive : ∀ {e}, Unfinished rest → ¬Wrong e rest := by
    intro e hmore hwrong
    have hrun := frame_parses.more_iff.mpr hmore
    rw [frame_parses.fail_iff.mpr hwrong] at hrun
    cases hrun
  have hunique : ∀ {e e'}, Wrong e rest → Wrong e' rest → e = e' := by
    intro e e' hwrong hwrong'
    have hrun := frame_parses.fail_iff.mpr hwrong
    rw [frame_parses.fail_iff.mpr hwrong'] at hrun
    cases hrun
    rfl
  refine ⟨?_, result, poisoned, hrun, ?_⟩
  · intro responses' read' hread' hprefix
    rw [hbytes] at hprefix
    exact frame_parses.longest hread (hend.imp (·.2.2) (fun ⟨e, _, _, he⟩ => ⟨e, he⟩)) hread' hprefix
  · rcases hend with ⟨rfl, rfl, hmore⟩ | ⟨e, rfl, rfl, hwrong⟩
    · refine ⟨iff_of_true rfl hmore, fun e => ?_, ?_⟩
      · exact iff_of_false (by simp) (hexclusive hmore)
      · exact iff_of_false (by simp) (fun ⟨_, hwrong⟩ => hexclusive hmore hwrong)
    · refine ⟨?_, fun e' => ⟨?_, fun hwrong' => ?_⟩, iff_of_true rfl ⟨e, hwrong⟩⟩
      · exact iff_of_false (by simp) (fun hmore => hexclusive hmore hwrong)
      · intro heq
        cases heq
        exact hwrong
      · rw [hunique hwrong hwrong']

/-- An array with a signed length, and in the next one a string to wait for. -/
example : decodeAll 25 { buffer := asBytes "*+1\r\n:-07\r\n*2\r\n+OK\r\n$3\r" } =
    .ok ([.array [.integer (-7)]], .ok (), { buffer := asBytes "*2\r\n+OK\r\n$3\r" }) := by
  rfl

end ResponseDecoder
end SimpleKv
