import SimpleKv.Lib.RecursiveGrammar
import SimpleKv.RequestSyntax
import SimpleKv.ResponseGrammar

/- The syntax of responses on its own, without a parser: numerals with a sign, the lines and
   complex strings that stand for a response, with arrays nested to any depth, the inputs that
   end inside one, and those of which none can be made. The parser has a grammar too, put
   together as the parser is; `ResponseAcceptance` shows that they are the same. -/
namespace SimpleKv
open Incremental

/-! Numerals with a sign. -/

/-- ASCII digits, at least one. -/
def Digits (digits : Bytes) : Prop := digits ≠ [] ∧ ∀ b ∈ digits, 48 ≤ b ∧ b ≤ 57

/-- What `i64::from_str` reads: an optional sign and the digits of a number that fits. -/
inductive SignedNumeral : Bytes → Int64 → Prop where
  | plain {digits : Bytes} {n : Int64} :
      Digits digits → n.toInt = digitsValue digits → SignedNumeral digits n
  | plus {digits : Bytes} {n : Int64} :
      Digits digits → n.toInt = digitsValue digits → SignedNumeral (43 :: digits) n
  | minus {digits : Bytes} {n : Int64} :
      Digits digits → n.toInt = -digitsValue digits → SignedNumeral (45 :: digits) n

theorem ofInt_eq_iff {i : Int} {n : Int64} (hlo : -2^63 ≤ i) (hhi : i < 2^63) :
    Int64.ofInt i = n ↔ n.toInt = i := by
  rw [← Int64.toInt_inj, Int64.toInt_ofInt_of_le hlo hhi]
  exact eq_comm

theorem parseDigits_plus {digits : Bytes} {n : Int64} (hne : digits ≠ []) :
    (parseDigits (2^63 - 1) .posOverflow digits 0).map (fun m => Int64.ofInt m) = .ok n ↔
      Digits digits ∧ n.toInt = digitsValue digits := by
  have hspec : ∀ m, parseDigits (2^63 - 1) .posOverflow digits 0 = .ok m ↔
      (∀ b ∈ digits, 48 ≤ b ∧ b ≤ 57) ∧ m = digitsValue digits ∧ m ≤ 2^63 - 1 := by
    intro m
    rw [parseDigits_eq_ok (Nat.zero_le _), Nat.zero_mul, Nat.zero_add]
  have hrange := Int64.toInt_lt n
  constructor
  · intro h
    cases hm : parseDigits (2^63 - 1) .posOverflow digits 0 with
    | error e =>
      rw [hm] at h
      cases h
    | ok m =>
      rw [hm] at h
      obtain ⟨hall, heq, hle⟩ := (hspec m).mp hm
      have hn : Int64.ofInt m = n := Except.ok.inj h
      refine ⟨⟨hne, hall⟩, ?_⟩
      rw [← heq]
      exact (ofInt_eq_iff (by omega) (by omega)).mp hn
  · rintro ⟨⟨_, hall⟩, hn⟩
    have hle : digitsValue digits ≤ 2^63 - 1 := by omega
    rw [(hspec _).mpr ⟨hall, rfl, hle⟩]
    exact congrArg Except.ok ((ofInt_eq_iff (by omega) (by omega)).mpr hn)

theorem parseDigits_minus {digits : Bytes} {n : Int64} (hne : digits ≠ []) :
    (parseDigits (2^63) .negOverflow digits 0).map (fun m => Int64.ofInt (-m)) = .ok n ↔
      Digits digits ∧ n.toInt = -digitsValue digits := by
  have hspec : ∀ m, parseDigits (2^63) .negOverflow digits 0 = .ok m ↔
      (∀ b ∈ digits, 48 ≤ b ∧ b ≤ 57) ∧ m = digitsValue digits ∧ m ≤ 2^63 := by
    intro m
    rw [parseDigits_eq_ok (Nat.zero_le _), Nat.zero_mul, Nat.zero_add]
  have hrange : -2^63 ≤ n.toInt := Int64.minValue_le_toInt n
  constructor
  · intro h
    cases hm : parseDigits (2^63) .negOverflow digits 0 with
    | error e =>
      rw [hm] at h
      cases h
    | ok m =>
      rw [hm] at h
      obtain ⟨hall, heq, hle⟩ := (hspec m).mp hm
      have hn : Int64.ofInt (-m) = n := Except.ok.inj h
      refine ⟨⟨hne, hall⟩, ?_⟩
      rw [← heq]
      exact (ofInt_eq_iff (by omega) (by omega)).mp hn
  · rintro ⟨⟨_, hall⟩, hn⟩
    have hle : digitsValue digits ≤ 2^63 := by omega
    rw [(hspec _).mpr ⟨hall, rfl, hle⟩]
    exact congrArg Except.ok ((ofInt_eq_iff (by omega) (by omega)).mpr hn)

/-- No sign is a digit. -/
theorem not_digits_sign {sign : UInt8} {digits : Bytes} (h : sign = 43 ∨ sign = 45) :
    ¬Digits (sign :: digits) := by
  rintro ⟨_, hall⟩
  have hsign := hall sign List.mem_cons_self
  rcases h with rfl | rfl <;> exact absurd hsign (by decide)

namespace SignedNumeral
variable {text digits : Bytes} {n : Int64}

theorem plus_iff : SignedNumeral (43 :: digits) n ↔ Digits digits ∧ n.toInt = digitsValue digits := by
  refine ⟨fun h => ?_, fun ⟨hdigits, hn⟩ => .plus hdigits hn⟩
  cases h with
  | plain hdigits _ => exact absurd hdigits (not_digits_sign (.inl rfl))
  | plus hdigits hn => exact ⟨hdigits, hn⟩

theorem minus_iff :
    SignedNumeral (45 :: digits) n ↔ Digits digits ∧ n.toInt = -digitsValue digits := by
  refine ⟨fun h => ?_, fun ⟨hdigits, hn⟩ => .minus hdigits hn⟩
  cases h with
  | plain hdigits _ => exact absurd hdigits (not_digits_sign (.inr rfl))
  | minus hdigits hn => exact ⟨hdigits, hn⟩

theorem plain_iff (hplus : ∀ digits, text ≠ 43 :: digits) (hminus : ∀ digits, text ≠ 45 :: digits) :
    SignedNumeral text n ↔ Digits text ∧ n.toInt = digitsValue text := by
  refine ⟨fun h => ?_, fun ⟨hdigits, hn⟩ => .plain hdigits hn⟩
  cases h with
  | plain hdigits hn => exact ⟨hdigits, hn⟩
  | plus => exact absurd rfl (hplus _)
  | minus => exact absurd rfl (hminus _)

theorem mem (h : SignedNumeral text n) {b : UInt8} (hb : b ∈ text) :
    b = 43 ∨ b = 45 ∨ 48 ≤ b ∧ b ≤ 57 := by
  cases h with
  | plain hdigits => exact .inr (.inr (hdigits.2 b hb))
  | plus hdigits => exact (List.mem_cons.mp hb).imp_right (fun hb => .inr (hdigits.2 b hb))
  | minus hdigits => exact .inr ((List.mem_cons.mp hb).imp_right (hdigits.2 b))

theorem ne_terminator (h : SignedNumeral text n) {b : UInt8} (hb : b ∈ text) : b ≠ 13 ∧ b ≠ 10 := by
  rcases h.mem hb with rfl | rfl | ⟨hle, _⟩
  · decide
  · decide
  · constructor <;> rintro rfl <;> exact absurd hle (by decide)

end SignedNumeral

/-- `i64::from_str` reads the numerals with a sign. -/
theorem parseI64_eq_ok {s : String} {n : Int64} :
    parseI64 s = .ok n ↔ SignedNumeral (asBytes s) n := by
  have hempty : ¬Digits [] := fun h => h.1 rfl
  unfold parseI64
  generalize asBytes s = text
  split
  · rw [SignedNumeral.plain_iff (by simp) (by simp)]
    exact iff_of_false (by simp) (fun h => hempty h.1)
  · rw [SignedNumeral.plus_iff]
    exact iff_of_false (by simp) (fun h => hempty h.1)
  · rw [SignedNumeral.minus_iff]
    exact iff_of_false (by simp) (fun h => hempty h.1)
  · next digits hne =>
    rw [SignedNumeral.plus_iff]
    exact parseDigits_plus hne
  · next digits hne =>
    rw [SignedNumeral.minus_iff]
    exact parseDigits_minus hne
  · next hne _ _ hplus hminus =>
    rw [SignedNumeral.plain_iff hplus hminus]
    exact parseDigits_plus hne

theorem SignedNumeral.reads {text : Bytes} {n : Int64} (h : SignedNumeral text n) :
    ∃ s, text = asBytes s ∧ parseI64 s = .ok n := by
  have ascii : ∀ b ∈ text, b < 128 := by
    intro b hb
    rcases h.mem hb with rfl | rfl | ⟨_, hle⟩
    · decide
    · decide
    · exact UInt8.lt_of_le_of_lt hle (by decide)
  obtain ⟨s, rfl⟩ := exists_asBytes ascii
  exact ⟨s, rfl, parseI64_eq_ok.mpr h⟩

namespace Response

/-! Lines. -/

/-- The bytes a response begins with. -/
def prefixBytes : List UInt8 := [sstrByte, errorByte, cstringByte, integerByte, arrayByte]

/-- The byte `b`, a numeral and a CRLF. -/
def IntLine (b : UInt8) (n : Int64) (w : Bytes) : Prop :=
  ∃ text, SignedNumeral text n ∧ w = b :: text ++ crlf

/-- What is wrong with a line that begins with `b`, given without the byte and its CRLF. -/
inductive LineError : UInt8 → ParseError → Bytes → Prop where
  | sstr {text : Bytes} : text ≠ okBody →
      LineError sstrByte (.unexpectedSstr (fromUtf8Lossy (text.length + 1) text)) text
  | utf8 {b : UInt8} {e : Utf8Error} {text : Bytes} :
      b ∈ [errorByte, cstringByte, integerByte, arrayByte] → fromUtf8 text = .error e →
      LineError b (.invalidUtf8 e) text
  | numeral {b : UInt8} {e : ParseIntError} {s : String} :
      b ∈ [cstringByte, integerByte, arrayByte] → parseI64 s = .error e →
      LineError b (.invalidInt e) (asBytes s)
  | cstrLength {len : Int64} {text : Bytes} : SignedNumeral text len → len.toInt < -1 →
      LineError cstringByte (.invalidCStringLength len) text
  | cstrTooLong {len : Int64} {n : Nat} {text : Bytes} : SignedNumeral text len → len.toInt = n →
      maxComplexStringLength < n → LineError cstringByte (.cstringTooLong n) text
  | arrayLength {len : Int64} {text : Bytes} : SignedNumeral text len → len.toInt < 0 →
      LineError arrayByte (.invalidArrayLength len) text

/-! Responses. -/

/-- What stands for a response: a line, a complex string of the length its line says, or as
    many responses as the line of an array says. -/
inductive Spelled : Response → Bytes → Prop where
  | ok : Spelled .ok (sstrByte :: okBody ++ crlf)
  | error {msg : String} :
      ¬crlf <:+: asBytes msg → Spelled (.error msg) (errorByte :: asBytes msg ++ crlf)
  | integer {n : Int64} {line : Bytes} : IntLine integerByte n line → Spelled (.integer n) line
  | null {line : Bytes} : IntLine cstringByte nullCstrLen line → Spelled .null line
  | cstr {bytes line : Bytes} {len : Int64} : IntLine cstringByte len line →
      len.toInt = bytes.length → bytes.length ≤ maxComplexStringLength →
      Spelled (.cstr bytes) (line ++ (bytes ++ crlf))
  | array {responses : List Response} {line items : Bytes} {len : Int64} :
      IntLine arrayByte len line → len.toInt = responses.length →
      Words Spelled responses items → Spelled (.array responses) (line ++ items)

/-- What ends inside a response: a line without its CRLF, a complex string that is too short,
    or some of the elements of an array and one unfinished. -/
inductive Unfinished : Bytes → Prop where
  | empty : Unfinished []
  | line {first : UInt8} {s : Bytes} :
      first ∈ prefixBytes → ¬crlf <:+: first :: s → Unfinished (first :: s)
  | cstr {line rest : Bytes} {len : Int64} {n : Nat} : IntLine cstringByte len line →
      len.toInt = n → n ≤ maxComplexStringLength → rest.length < n + 2 → Unfinished (line ++ rest)
  | element {responses : List Response} {line items rest : Bytes} {len : Int64} :
      IntLine arrayByte len line → responses.length < len.toInt →
      Words Spelled responses items → Unfinished rest → Unfinished (line ++ (items ++ rest))

/-- What no response begins like: another first byte, a wrong line, two other bytes where the
    CRLF of a complex string is due, or some of the elements of an array and a wrong one. -/
inductive Wrong : ParseError → Bytes → Prop where
  | byte {first : UInt8} {s : Bytes} :
      first ∉ prefixBytes → Wrong (.unexpectedPrefix first) (first :: s)
  | line {b : UInt8} {e : ParseError} {text r : Bytes} : LineError b e text →
      ¬crlf <:+: b :: text → Wrong e (b :: text ++ crlf ++ r)
  | terminator {bytes terminator line r : Bytes} {len : Int64} : IntLine cstringByte len line →
      len.toInt = bytes.length → bytes.length ≤ maxComplexStringLength → terminator.length = 2 →
      terminator ≠ crlf → Wrong .missingCrlf (line ++ (bytes ++ (terminator ++ r)))
  | element {responses : List Response} {e : ParseError} {line items rest : Bytes} {len : Int64} :
      IntLine arrayByte len line → responses.length < len.toInt →
      Words Spelled responses items → Wrong e rest → Wrong e (line ++ (items ++ rest))

/-- What has an array of more elements than there can be room for: the response it begins with,
    or one nested in it after some complete elements. -/
inductive TooLarge : Bytes → Prop where
  | header {line rest : Bytes} {len : Int64} : IntLine arrayByte len line →
      isizeMax < len.toInt * responseSize → TooLarge (line ++ rest)
  | element {responses : List Response} {line items rest : Bytes} {len : Int64} :
      IntLine arrayByte len line → len.toInt * responseSize ≤ isizeMax →
      responses.length < len.toInt → Words Spelled responses items → TooLarge rest →
      TooLarge (line ++ (items ++ rest))

/-! The grammar of the parser, one rule for each of its combinators. -/

def lineIntGrammar : Grammar UInt8 ParseError Int64 := .lineOf 13 10 lineValue

def cstrGrammar (len : Int64) : Grammar UInt8 ParseError Response :=
  if len = nullCstrLen then .pure .null
  else if len < 0 then .throw (.invalidCStringLength len)
  else if len.toUInt64.toNat > maxComplexStringLength then .throw (.cstringTooLong len.toUInt64.toNat)
  else (Grammar.block len.toUInt64.toNat crlf .missingCrlf).seq (fun bytes => .pure (.cstr bytes))

def arrayGrammar (g : Grammar UInt8 ParseError Response) (len : Int64) :
    Grammar UInt8 ParseError Response :=
  if len < 0 then .throw (.invalidArrayLength len)
  else g.collect Response.array [] len.toUInt64.toNat

def grammarOf (g : Grammar UInt8 ParseError Response) (first : UInt8) :
    Grammar UInt8 ParseError Response :=
  if first = sstrByte then .lineOf 13 10 sstrValue
  else if first = errorByte then .lineOf 13 10 errorValue
  else if first = cstringByte then lineIntGrammar.seq cstrGrammar
  else if first = integerByte then lineIntGrammar.seq (fun n => .pure (.integer n))
  else if first = arrayByte then lineIntGrammar.seq (arrayGrammar g)
  else .throw (.unexpectedPrefix first)

theorem lineIntGrammar_nonempty : lineIntGrammar.Nonempty := Grammar.lineOf_nonempty 13 10 _

theorem grammarOf_nonempty (g : Grammar UInt8 ParseError Response) (first : UInt8) :
    (grammarOf g first).Nonempty := by
  have hint := fun k => Grammar.seq_nonempty (γ := Response) lineIntGrammar_nonempty k
  unfold grammarOf
  split
  · exact Grammar.lineOf_nonempty 13 10 _
  split
  · exact Grammar.lineOf_nonempty 13 10 _
  split
  · exact hint _
  split
  · exact hint _
  split
  · exact hint _
  · exact Grammar.throw_nonempty _

theorem lineInt_parses : Parses lineInt lineIntGrammar := .lineOf (by decide)

theorem cstrBody_parses (len : Int64) : Parses (cstrBody len) (cstrGrammar len) :=
  .ite (.pure _) (.ite (.throw _) (.ite (.throw _)
    ((Parses.block _ _ _).bind (fun _ => .pure _))))

theorem frameOf_parses {p : Parser UInt8 ParseError Response} {g : Grammar UInt8 ParseError Response}
    (h : Parses p g) (first : UInt8) : Parses (frameOf p first) (grammarOf g first) := by
  have harray : ∀ len, Parses (arrayBody p len) (arrayGrammar g len) :=
    fun len => .ite (.throw _) (h.collect _ [])
  refine .ite (.lineOf (by decide)) (.ite (.lineOf (by decide)) (.ite ?_ (.ite ?_ (.ite ?_ (.throw _)))))
  · exact lineInt_parses.bind cstrBody_parses
  · exact lineInt_parses.bind (fun _ => .pure _)
  · exact lineInt_parses.bind harray

/-- The elements of an array come after its line. -/
theorem grammar_guarded : Grammar.Guarded (fun g => .branch (grammarOf g)) := by
  intro n g g' h
  apply Grammar.Agree.branch
  intro first
  unfold grammarOf
  refine .ite (.refl _ _) (.ite (.refl _ _) (.ite (.refl _ _) (.ite (.refl _ _)
    (.ite ?_ (.refl _ _)))))
  apply Grammar.Agree.after lineIntGrammar_nonempty
  intro len
  exact .ite (.refl _ _) (h.collect _ _ _)

end Response
end SimpleKv
