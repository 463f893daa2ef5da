import SimpleKv.CommandParsing
import SimpleKv.ResponseGrammar

/- The texts of errors as responses. A text that quotes the request quotes it as it is:
   the name of an unknown command, and an expiration that is not a number. An error
   is one line on the wire, so a request whose quoted text holds a CRLF `Breaks` the
   stream of responses; no other text of the server does. -/
namespace SimpleKv
open Incremental Parser Response

/-- What a text is put between adds no CRLF to it. -/
theorem infix_before_iff {before : String} (h : (13 : UInt8) ∉ asBytes before) (text : String) :
    crlf <:+: asBytes (before ++ text) ↔ crlf <:+: asBytes text := by
  rw [asBytes_append]
  exact infix_append_left_iff h

theorem infix_after_iff {after : String} (h : (10 : UInt8) ∉ asBytes after) (text : String) :
    crlf <:+: asBytes (text ++ after) ↔ crlf <:+: asBytes text := by
  rw [asBytes_append]
  exact infix_append_right_iff h

/-- A count holds no CRLF. -/
theorem not_infix_count {before : String} (h : (13 : UInt8) ∉ asBytes before) (n : Nat) :
    ¬crlf <:+: asBytes (before ++ ToString.toString n) := by
  rw [infix_before_iff h, asBytes_toString]
  exact not_infix_decimal n

namespace CommandError

/-- The part of the text that comes from the client. -/
def quoted : CommandError → String
  | .unrecognizedCommand name => name
  | .invalidExpiration text => text
  | _ => ""

theorem infix_toString (e : CommandError) :
    crlf <:+: asBytes e.toString ↔ crlf <:+: asBytes e.quoted := by
  have hempty : ¬crlf <:+: asBytes "" := by decide
  cases e with
  | invalidUtf8 e =>
    refine iff_of_false (not_infix_of_notMem ?_) hempty
    show (13 : UInt8) ∉ asBytes "command name was not valid utf-8"
    decide
  | unrecognizedCommand name =>
    -- the name stands before a text and the list of names, and after another text
    apply (infix_after_iff (by decide) _).trans
    apply (infix_after_iff (by decide) _).trans
    exact infix_before_iff (by decide) name
  | tooFewArguments elements =>
    refine iff_of_false (fun h => ?_) hempty
    exact not_infix_count (by decide) elements ((infix_after_iff (by decide) _).mp h)
  | tooManyArguments elements => exact iff_of_false (not_infix_count (by decide) elements) hempty
  | unevenArgumentLength length => exact iff_of_false (not_infix_count (by decide) length) hempty
  | invalidExpiration text => exact infix_before_iff (by decide) text

end CommandError

/-- The text of a request decoder's error holds no CRLF: it quotes one byte, escaped. -/
theorem RequestParseError.wire (e : RequestParseError) : (Response.error e.toString).Wire := by
  have hbyte : ∀ {before : String}, (13 : UInt8) ∉ asBytes before → ∀ byte : UInt8,
      ¬crlf <:+: asBytes (before ++ debugChar byte) := by
    intro before h byte
    have hchar : ∀ b : Fin 256, (13 : UInt8) ∉ asBytes (debugChar (UInt8.ofNat b.val)) := by
      decide +kernel
    rw [infix_before_iff h]
    apply not_infix_of_notMem
    have hb := hchar ⟨byte.toNat, byte.toNat_lt⟩
    rwa [UInt8.ofNat_toNat] at hb
  have htext : ∀ {text : String}, (13 : UInt8) ∉ asBytes text → (Response.error text).Wire :=
    fun h => .error (not_infix_of_notMem h)
  cases e with
  | missingFirstByte | missingCrlf | poisoned | unexpectedEof => exact htext (by decide)
  | invalidUtf8 e => exact @htext "invalid utf-8 in payload" (by decide)
  | invalidInt e => exact @htext "invalid integer in payload" (by decide)
  | expectedArray byte => exact .error (hbyte (by decide) byte)
  | expectedCString byte => exact .error (hbyte (by decide) byte)
  | arrayTooLong length =>
    refine .error (fun h => @not_infix_count "array length " (by decide) length ?_)
    exact (infix_after_iff (by decide) _).mp ((infix_after_iff (by decide) _).mp h)
  | cstringTooLong length =>
    refine .error (fun h => @not_infix_count "bulk string length " (by decide) length ?_)
    exact (infix_after_iff (by decide) _).mp ((infix_after_iff (by decide) _).mp h)

namespace Request

/-- A text of the request that an error may quote: its name, or its expiration. -/
def Quotable (self : Request) (text : String) : Prop :=
  self.cstrs.head? = some (asBytes text) ∨ ∃ name key, (name = expireName ∨ name = expireatName) ∧
    self.cstrs = [asBytes name, key, asBytes text]

/-- The request has the server write an error of more than one line. -/
def Breaks (self : Request) : Prop := ∃ text, self.Quotable text ∧ crlf <:+: asBytes text

/-! The errors of the parse functions quote what they are given, if anything. -/

theorem map_eq_error {α β : Type} {f : α → β} {x : Except CommandError α} {e : CommandError}
    (h : f <$> x = .error e) : x = .error e := by
  cases x with
  | ok a => cases h
  | error e' =>
    cases h
    rfl

theorem oneArg_quoted {e : CommandError} : ∀ {args : List Bytes}, oneArg args = .error e →
    e.quoted = ""
  | [], h => by cases h; rfl
  | [_], h => by cases h
  | _ :: _ :: _, h => by cases h; rfl

theorem twoArgs_quoted {e : CommandError} : ∀ {args : List Bytes}, twoArgs args = .error e →
    e.quoted = ""
  | [], h => by cases h; rfl
  | [_], h => by cases h; rfl
  | [_, _], h => by cases h
  | _ :: _ :: _ :: _, h => by cases h; rfl

theorem someArgs_quoted {e : CommandError} : ∀ {args : List Bytes}, someArgs args = .error e →
    e.quoted = ""
  | [], h => by cases h; rfl
  | _ :: _, h => by cases h

theorem noArgs_quoted {e : CommandError} : ∀ {args : List Bytes}, noArgs args = .error e →
    e.quoted = ""
  | [], h => by cases h
  | _ :: _, h => by cases h; rfl

theorem pairArgs_quoted {args : List Bytes} {e : CommandError} (h : pairArgs args = .error e) :
    e.quoted = "" := by
  unfold pairArgs at h
  split at h
  · cases h
    rfl
  · split at h
    · cases h
      rfl
    · cases h

theorem expiration_quoted {args : List Bytes} {e : CommandError} (h : expiration args = .error e) :
    e.quoted = "" ∨ ∃ key, args = [key, asBytes e.quoted] := by
  unfold expiration at h
  split at h
  · next hargs =>
    cases h
    exact .inl (twoArgs_quoted hargs)
  · next key text hargs =>
    have hseconds := map_eq_error h
    unfold seconds at hseconds
    split at hseconds
    · cases hseconds
      exact .inl rfl
    · next s hs =>
      split at hseconds
      · cases hseconds
        refine .inr ⟨key, ?_⟩
        rw [twoArgs_eq_ok hargs, fromUtf8_eq_ok.mp hs]
        rfl
      · cases hseconds

theorem commandNamed_quoted {now : UInt64} {name : String} {args : List Bytes} {e : CommandError}
    (h : commandNamed now name args = .error e) :
    e.quoted = "" ∨ Quotable ⟨asBytes name :: args⟩ e.quoted := by
  have hspelled := spelled_commandNamed now name args
  generalize commandNamed now name args = result at h hspelled
  cases hspelled with
  | get | ttl => exact .inl (oneArg_quoted (map_eq_error h))
  | set => exact .inl (twoArgs_quoted (map_eq_error h))
  | mget | del => exact .inl (someArgs_quoted (map_eq_error h))
  | mset => exact .inl (pairArgs_quoted (map_eq_error h))
  | getall => exact .inl (noArgs_quoted (map_eq_error h))
  | expire =>
    rcases expiration_quoted (map_eq_error h) with hnone | ⟨key, hargs⟩
    · exact .inl hnone
    · exact .inr (.inr ⟨_, key, .inl rfl, by rw [hargs]⟩)
  | expireat =>
    rcases expiration_quoted (map_eq_error h) with hnone | ⟨key, hargs⟩
    · exact .inl hnone
    · exact .inr (.inr ⟨_, key, .inr rfl, by rw [hargs]⟩)
  | unrecognized =>
    cases h
    exact .inr (.inl rfl)

/-- Every error quotes the request, if anything. -/
theorem command_quoted {now : UInt64} {self : Request} {e : CommandError}
    (h : self.command now = .error e) : e.quoted = "" ∨ self.Quotable e.quoted := by
  unfold command at h
  split at h
  · cases h
    exact .inl rfl
  next nameBytes args hcstrs =>
  split at h
  · cases h
    exact .inl rfl
  next name hname =>
  unfold Quotable
  rw [hcstrs, fromUtf8_eq_ok.mp hname]
  exact commandNamed_quoted h

/-! A text with a CRLF is neither a name nor a number. -/

theorem commandNamed_of_crlf {now : UInt64} {name : String} (h : crlf <:+: asBytes name)
    (args : List Bytes) : commandNamed now name args = .error (.unrecognizedCommand name) := by
  have hne : ∀ {known : String}, (13 : UInt8) ∉ asBytes known → name ≠ known := by
    intro known hknown heq
    rw [heq] at h
    exact not_infix_of_notMem hknown h
  unfold commandNamed
  rw [if_neg (hne (by decide)), if_neg (hne (by decide)), if_neg (hne (by decide)),
    if_neg (hne (by decide)), if_neg (hne (by decide)), if_neg (hne (by decide)),
    if_neg (hne (by decide)), if_neg (hne (by decide)), if_neg (hne (by decide))]

theorem expiration_of_crlf {text : String} (h : crlf <:+: asBytes text) (key : Bytes) :
    expiration [key, asBytes text] = .error (.invalidExpiration text) := by
  unfold expiration seconds
  simp only [twoArgs, fromUtf8_asBytes]
  cases hp : parseUsize text with
  | error e => rfl
  | ok n =>
    -- a number has no byte 13
    have hcr := mem_of_parseUsize hp 13 (h.mem List.mem_cons_self)
    exact absurd hcr (by decide)

/-- A request that breaks the stream is answered with the error that quotes it. -/
theorem Breaks.command {self : Request} (h : self.Breaks) (now : UInt64) :
    ∃ e, self.command now = .error e ∧ crlf <:+: asBytes e.quoted := by
  obtain ⟨text, hquotable, hcrlf⟩ := h
  unfold Request.command
  rcases hquotable with hname | ⟨name, key, hname, hcstrs⟩
  · obtain ⟨args, hcstrs⟩ := List.head?_eq_some_iff.mp hname
    refine ⟨.unrecognizedCommand text, ?_, hcrlf⟩
    simp only [hcstrs, fromUtf8_asBytes, commandNamed_of_crlf hcrlf]
  · refine ⟨.invalidExpiration text, ?_, hcrlf⟩
    simp only [hcstrs, fromUtf8_asBytes]
    rcases hname with rfl | rfl
    · show _ <$> expiration [key, asBytes text] = _
      rw [expiration_of_crlf hcrlf]
      rfl
    · show _ <$> expiration [key, asBytes text] = _
      rw [expiration_of_crlf hcrlf]
      rfl

theorem not_breaks_of_ok {now : UInt64} {self : Request} {command : Command}
    (h : self.command now = .ok command) : ¬self.Breaks := by
  intro hbreaks
  obtain ⟨e, he, _⟩ := hbreaks.command now
  rw [h] at he
  cases he

/-- The error for a request is read back unless the request breaks the stream. -/
theorem wire_iff_of_error {now : UInt64} {self : Request} {e : CommandError}
    (h : self.command now = .error e) : (Response.error e.toString).Wire ↔ ¬self.Breaks := by
  have hquoted : crlf <:+: asBytes e.quoted ↔ self.Breaks := by
    constructor
    · intro hcrlf
      rcases command_quoted h with hnone | hquotable
      · rw [hnone] at hcrlf
        exact absurd hcrlf (by decide)
      · exact ⟨_, hquotable, hcrlf⟩
    · intro hbreaks
      obtain ⟨e', he', hcrlf⟩ := hbreaks.command now
      rw [h] at he'
      cases he'
      exact hcrlf
  rw [← hquoted, ← e.infix_toString]
  constructor
  · intro hwire
    cases hwire with
    | error hnone => exact hnone
  · exact .error

end Request
end SimpleKv
