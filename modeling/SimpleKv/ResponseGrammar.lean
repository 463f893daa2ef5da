import SimpleKv.Response
import SimpleKv.Lib.Recursion

/- The grammar of responses. The first byte chooses the kind; the elements of an array
   are responses again, so the grammar is a fixed point. `Response.toBytes` is an
   encoding for the responses with `Wire`: an error text must not hold a CRLF, since
   an error ends with its line. -/
namespace SimpleKv
namespace Response
open Incremental Parser

/-- The integer on a line, which starts with a prefix byte. -/
def lineValue (data : Bytes) : Except ParseError Int64 :=
  match fromUtf8 (data.drop 1) with
  | .error e => .error (.invalidUtf8 e)
  | .ok s =>
    match parseI64 s with
    | .error e => .error (.invalidInt e)
    | .ok n => .ok n

def lineInt : Parser UInt8 ParseError Int64 :=
  (line 13 10).bind (fun data => ofExcept (lineValue data))

def sstrValue (data : Bytes) : Except ParseError Response :=
  if data.drop 1 = okBody then .ok .ok
  else .error (.unexpectedSstr (fromUtf8Lossy ((data.drop 1).length + 1) (data.drop 1)))

def sstr : Parser UInt8 ParseError Response :=
  (line 13 10).bind (fun data => ofExcept (sstrValue data))

def errorValue (data : Bytes) : Except ParseError Response :=
  match fromUtf8 (data.drop 1) with
  | .error e => .error (.invalidUtf8 e)
  | .ok msg => .ok (.error msg)

def errorLine : Parser UInt8 ParseError Response :=
  (line 13 10).bind (fun data => ofExcept (errorValue data))

def integerLine : Parser UInt8 ParseError Response := lineInt.bind (fun n => pure (.integer n))

/-- What follows the length of a complex string. -/
def cstrBody (len : Int64) : Parser UInt8 ParseError Response :=
  if len = nullCstrLen then pure .null
  else if len < 0 then throw (.invalidCStringLength len)
  else if len.toUInt64.toNat > maxComplexStringLength then
    throw (.cstringTooLong len.toUInt64.toNat)
  else (block len.toUInt64.toNat crlf .missingCrlf).bind (fun bytes => pure (.cstr bytes))

def cstrFrame : Parser UInt8 ParseError Response := lineInt.bind cstrBody

def arrayBody (response : Parser UInt8 ParseError Response) (len : Int64) :
    Parser UInt8 ParseError Response :=
  if len < 0 then throw (.invalidArrayLength len)
  else response.collect Response.array [] len.toUInt64.toNat

/-- A response of the kind its first byte says, the elements of an array being read
    by `response`. -/
def frameOf (response : Parser UInt8 ParseError Response) (first : UInt8) :
    Parser UInt8 ParseError Response :=
  if first = sstrByte then sstr
  else if first = errorByte then errorLine
  else if first = cstringByte then cstrFrame
  else if first = integerByte then integerLine
  else if first = arrayByte then lineInt.bind (arrayBody response)
  else throw (.unexpectedPrefix first)

theorem lineInt_consumes : lineInt.Consumes := .bind (.line 13 10)

/-- The elements of an array come after its header line. -/
theorem guarded : Guarded (fun response => branch (frameOf response)) := by
  intro n p q h
  apply Agree.branch
  intro first
  unfold frameOf
  refine .ite (.refl _ _) (.ite (.refl _ _) (.ite (.refl _ _) (.ite (.refl _ _)
    (.ite ?_ (.refl _ _)))))
  apply Agree.after lineInt_consumes
  intro len
  exact .ite (.refl _ _) ((h.times _).bind (fun _ => .refl _ _))

def frame : Parser UInt8 ParseError Response := fix guarded

theorem frame_nil : frame.run [] = .more := fix_run guarded []

theorem frame_cons (first : UInt8) (s : Bytes) :
    frame.run (first :: s) = (frameOf frame first).run (first :: s) :=
  fix_run guarded (first :: s)

/-- A response takes at least a line off the input. -/
theorem frame_consumes : frame.Consumes := by
  apply Consumes.fix
  intro response
  apply Consumes.branch
  intro first
  exact .ite (.bind (.line 13 10)) (.ite (.bind (.line 13 10)) (.ite (.bind lineInt_consumes)
    (.ite (.bind lineInt_consumes) (.ite (.bind lineInt_consumes) (.throw _)))))

/-! Encodings. -/

/-- The responses that are read back from their bytes. -/
inductive Wire : Response → Prop where
  | ok : Wire .ok
  | error {msg : String} : ¬crlf <:+: asBytes msg → Wire (.error msg)
  | cstr {bytes : Bytes} : bytes.length ≤ maxComplexStringLength → Wire (.cstr bytes)
  | null : Wire .null
  | integer (n : Int64) : Wire (.integer n)
  | array {responses : List Response} : responses.length < 2^63 →
      (∀ response ∈ responses, Wire response) → Wire (.array responses)

/-- A line of a response: the prefix byte, a text and a CRLF. -/
theorem line_encodes {b : UInt8} (hb : b ≠ 13) {text : Bytes} (h : ¬crlf <:+: text) :
    (line 13 10 : Parser UInt8 ParseError Bytes).Encodes (b :: text) (b :: text ++ crlf) := by
  have hline : ¬[(13 : UInt8), 10] <:+: b :: text := by
    intro hpair
    rcases List.infix_cons_iff.mp hpair with hprefix | hpair
    · exact hb (List.cons_prefix_cons.mp hprefix).1.symm
    · exact h hpair
  apply line_done
  exact splitLine_terminated (by decide) [] hline

theorem not_infix_decimal (n : Nat) : ¬crlf <:+: decimal n := by
  apply not_infix_of_notMem
  intro hm
  exact absurd (mem_decimal hm).1 (by decide)

theorem not_infix_toString (n : Int64) : ¬crlf <:+: asBytes (toString n.toInt) := by
  cases n.toInt with
  | ofNat m =>
    rw [show toString (Int.ofNat m) = toString m from rfl, asBytes_toString]
    exact not_infix_decimal m
  | negSucc m =>
    apply not_infix_of_notMem
    rw [show toString (Int.negSucc m) = "-" ++ toString (m + 1) from rfl, asBytes_append,
      asBytes_toString]
    intro hm
    rcases List.mem_append.mp hm with hm | hm
    · exact absurd hm (by decide)
    · exact absurd (mem_decimal hm).1 (by decide)

theorem lineInt_encodes {b : UInt8} (hb : b ≠ 13) (n : Int64) :
    lineInt.Encodes n (b :: asBytes (toString n.toInt) ++ crlf) := by
  have hvalue : lineValue (b :: asBytes (toString n.toInt)) = .ok n := by
    unfold lineValue
    rw [List.drop_succ_cons, List.drop_zero, fromUtf8_asBytes]
    simp only [parseI64_toString]
  apply Encodes.bind_nil (line_encodes hb (not_infix_toString n))
  rw [hvalue]
  rfl

/-- A length below `2^63` is read back as itself. -/
theorem lineInt_length {b : UInt8} (hb : b ≠ 13) {n : Nat} (h : n < 2^63) :
    ∃ len : Int64, lineInt.Encodes len (b :: asBytes (toString n) ++ crlf) ∧
      ¬len < 0 ∧ len.toUInt64.toNat = n := by
  have hint : (Int64.ofNat n).toInt = n := Int64.toInt_ofNat_of_lt h
  have hencodes := lineInt_encodes hb (Int64.ofNat n)
  rw [hint] at hencodes
  refine ⟨Int64.ofNat n, hencodes, ?_, ?_⟩
  · rw [Int64.lt_iff_toInt_lt, hint]
    simp
  · rw [Int64.toUInt64_ofNat', UInt64.toNat_ofNat']
    omega

theorem prefixByte_ne (self : Response) : self.prefixByte ≠ 13 := by
  cases self <;> simp [prefixByte, sstrByte, errorByte, cstringByte, integerByte, arrayByte]

/-- The first byte of a response says which parser reads it. -/
theorem frame_encodes_of {first : UInt8} {s : Bytes} {response : Response}
    (h : (frameOf frame first).Encodes response (first :: s)) :
    frame.Encodes response (first :: s) := by
  unfold Encodes
  rw [frame_cons]
  exact h

theorem elementsToBytes_eq (responses : List Response) :
    elementsToBytes responses = responses.flatMap toBytes := by
  induction responses with
  | nil => rfl
  | cons response responses ih => rw [elementsToBytes, ih, List.flatMap_cons]

/-- A response with `Wire` is read back from its bytes. -/
theorem Wire.encodes {response : Response} (h : response.Wire) :
    frame.Encodes response response.toBytes := by
  induction h with
  | ok => rfl
  | null => rfl
  | error h =>
    apply frame_encodes_of
    apply Encodes.bind_nil (line_encodes (prefixByte_ne _) h)
    simp [errorValue]
    rfl
  | @cstr bytes h =>
    have hlt : bytes.length < 2^63 := Nat.lt_of_le_of_lt h (by decide)
    obtain ⟨len, hline, hneg, hlen⟩ := lineInt_length (b := cstringByte) (by decide) hlt
    have hnull : len ≠ nullCstrLen := by
      intro hnull
      rw [hnull] at hneg
      exact hneg (by decide)
    apply frame_encodes_of
    apply Encodes.bind hline
    unfold cstrBody
    rw [if_neg hnull, if_neg hneg, hlen, if_neg (Nat.not_lt.mpr h)]
    exact Encodes.bind_nil (Encodes.block bytes crlf _) (Encodes.pure _)
  | integer n =>
    apply frame_encodes_of
    exact Encodes.bind_nil (lineInt_encodes (prefixByte_ne _) n) (Encodes.pure _)
  | @array responses hlen _ ih =>
    obtain ⟨len, hline, hneg, hcount⟩ := lineInt_length (b := arrayByte) (by decide) hlen
    apply frame_encodes_of
    apply Encodes.bind hline
    unfold arrayBody
    rw [if_neg hneg, hcount, elementsToBytes_eq]
    exact Encodes.collect Response.array responses ih

/-! The other responses. An error ends with its first line, whatever its text goes on
with, so one whose text holds a CRLF is never read back. -/

theorem error_wire_of_done {msg : String} {s r : Bytes}
    (h : frame.run ((error msg).toBytes ++ s) = .done (error msg) r) : (error msg).Wire := by
  have hrun : errorLine.run ((error msg).toBytes ++ s) = .done (error msg) r := by
    rw [toBytes, List.cons_append, List.cons_append, frame_cons] at h
    exact h
  obtain ⟨data, rest, hline, hvalue⟩ := bind_eq_done hrun
  obtain ⟨hvalue, _⟩ := ofExcept_eq_done hvalue
  have hdata : data.drop 1 = asBytes msg := by
    unfold errorValue at hvalue
    cases hu : fromUtf8 (data.drop 1) with
    | error e =>
      rw [hu] at hvalue
      cases hvalue
    | ok text =>
      rw [hu] at hvalue
      cases hvalue
      exact fromUtf8_eq_ok.mp hu
  -- what is read back is on one line
  have hnone := splitLine_unterminated (line_eq_done hline)
  apply Wire.error
  intro hpair
  rw [← hdata] at hpair
  exact hnone (hpair.trans (List.drop_suffix 1 data).isInfix)

/-- Responses that may be errors of any text are read back exactly when no text holds a
    CRLF. -/
theorem wire_of_drains {d : End ParseError} : ∀ {responses : List Response},
    (∀ response ∈ responses, response.Wire ∨ ∃ msg, response = error msg) →
    Drains frame (responses.flatMap toBytes) responses d → ∀ response ∈ responses, response.Wire := by
  intro responses
  induction responses with
  | nil =>
    intro h hd
    simp
  | cons response responses ih =>
    intro h hd
    generalize hs : (response :: responses).flatMap toBytes = s at hd
    cases hd with
    | next hf hrest =>
      rw [← hs, List.flatMap_cons] at hf
      have hwire : response.Wire := by
        rcases h response List.mem_cons_self with hwire | ⟨msg, rfl⟩
        · exact hwire
        · exact error_wire_of_done hf
      rw [hwire.encodes.run_append] at hf
      cases hf
      have hwires := ih (fun q hq => h q (List.mem_cons_of_mem _ hq)) hrest
      intro q hq
      rcases List.mem_cons.mp hq with rfl | hq
      · exact hwire
      · exact hwires q hq

theorem drains_of_wire {responses : List Response} (h : ∀ response ∈ responses, response.Wire) :
    Drains frame (responses.flatMap toBytes) responses .clean := by
  have hd := Drains.append (fun response hr => (h response hr).encodes) (.clean frame_nil)
  rwa [List.append_nil, List.append_nil] at hd

end Response
end SimpleKv
