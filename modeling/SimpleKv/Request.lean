import SimpleKv.Reader

/- `request.rs`: requests on the wire and in the log. The decoder keeps what it has
   received in `buffer` and commits progress inside a request element by element:
   the array header once (`expectedArgCount`), then each bulk string (`args`,
   `cursor`). The state is returned with every result, errors included, as the
   decoder keeps it. -/
namespace SimpleKv

def maxArrayLength : Nat := 1024 * 1024
def arrayByte : UInt8 := 42

structure Request where
  cstrs : List Bytes
  deriving DecidableEq

inductive RequestParseError where
  | missingFirstByte
  | expectedArray (byte : UInt8)
  | missingCrlf
  | invalidUtf8 (e : Utf8Error)
  | invalidInt (e : ParseIntError)
  | arrayTooLong (length : Nat)
  | expectedCString (byte : UInt8)
  | cstringTooLong (length : Nat)
  | poisoned
  | unexpectedEof
  deriving DecidableEq

/-- `{:?}` of a byte taken as a character. -/
def debugChar (b : UInt8) : String :=
  let escaped :=
    if b = 0 then "\\0"
    else if b = 9 then "\\t"
    else if b = 10 then "\\n"
    else if b = 13 then "\\r"
    else if b = 39 then "\\'"
    else if b = 92 then "\\\\"
    else if (32 ≤ b ∧ b < 127) ∨ (160 < b ∧ b ≠ 173) then (Char.ofNat b.toNat).toString
    else "\\u\x7b" ++ String.ofList (Nat.toDigits 16 b.toNat) ++ "\x7d"
  "'" ++ escaped ++ "'"

def RequestParseError.toString : RequestParseError → String
  | .missingFirstByte => "request was empty; no first byte present"
  | .expectedArray byte => "expected top-level array (*), got " ++ debugChar byte
  | .missingCrlf => "expected crlf"
  | .invalidUtf8 _ => "invalid utf-8 in payload"
  | .invalidInt _ => "invalid integer in payload"
  | .arrayTooLong length =>
    "array length " ++ ToString.toString length ++ " exceeds maximum " ++
      ToString.toString maxArrayLength
  | .expectedCString byte => "expected complex string ($), got " ++ debugChar byte
  | .cstringTooLong length =>
    "bulk string length " ++ ToString.toString length ++ " exceeds maximum " ++
      ToString.toString maxComplexStringLength
  | .poisoned => "decoder was reused after a previous error"
  | .unexpectedEof => "unexpected EOF during request parsing"

structure RequestDecoder where
  cursor : Nat := 0
  expectedArgCount : Option Nat := none
  buffer : Bytes := []
  args : List Bytes := []
  poisoned : Bool := false
  deriving DecidableEq

namespace RequestDecoder

def validateEof (self : RequestDecoder) : Except RequestParseError Unit :=
  if self.poisoned then .error .poisoned
  else if !self.buffer.isEmpty then .error .unexpectedEof
  else .ok ()

/-! The parse functions, and below each the one of a build without checks. -/

def parseHeaderWith (a : Arithmetic) (bytes : Bytes) (headerByte : UInt8) (maxHeaderLen : Nat)
    (expectedError : UInt8 → RequestParseError) (tooLongError : Nat → RequestParseError) :
    Rust (Except RequestParseError (Option (Parsed Nat))) := do
  match ← parseLineWith a bytes with
  | none => return .ok none
  | some header =>
    match header.data.head? with
    | none => return .error .missingFirstByte
    | some first =>
      if first ≠ headerByte then
        return .error (expectedError first)
      let digits ← sliceFrom header.data 1
      match fromUtf8 digits with
      | .error e => return .error (.invalidUtf8 e)
      | .ok s =>
        match parseUsize s with
        | .error e => return .error (.invalidInt e)
        | .ok headerLen =>
          if headerLen > maxHeaderLen then
            return .error (tooLongError headerLen)
          return .ok (some ⟨headerLen, header.numBytesParsed⟩)

def parseHeader : Bytes → UInt8 → Nat → (UInt8 → RequestParseError) → (Nat → RequestParseError) →
    Rust (Except RequestParseError (Option (Parsed Nat))) :=
  parseHeaderWith .unchecked

def parseCstrWith (a : Arithmetic) (self : RequestDecoder) :
    Rust (Except RequestParseError (Option Bytes) × RequestDecoder) := do
  if self.cursor ≥ self.buffer.length then
    return (.ok none, self)
  let rest ← sliceFrom self.buffer self.cursor
  match ← parseHeaderWith a rest cstringByte maxComplexStringLength .expectedCString
    .cstringTooLong with
  | .error e => return (.error e, self)
  | .ok none => return (.ok none, self)
  | .ok (some header) =>
    let cstrLen := header.data
    let dataStart ← a.add self.cursor header.numBytesParsed
    let dataEnd ← a.add dataStart cstrLen
    let cstrCrlfIdx ← a.add dataEnd 2
    if cstrCrlfIdx > self.buffer.length then
      return (.ok none, self)
    let terminator ← slice self.buffer dataEnd cstrCrlfIdx
    if terminator ≠ crlf then
      return (.error .missingCrlf, self)
    let cstr ← slice self.buffer dataStart dataEnd
    return (.ok (some cstr), { self with cursor := cstrCrlfIdx })

def parseCstr : RequestDecoder →
    Rust (Except RequestParseError (Option Bytes) × RequestDecoder) :=
  parseCstrWith .unchecked

/-- `buffer.drain(..cursor)`, and the state for the next request. -/
def takeRequest (self : RequestDecoder) : Rust (List Bytes × RequestDecoder) := do
  let buffer ← sliceFrom self.buffer self.cursor
  return (self.args, { self with buffer, cursor := 0, expectedArgCount := none, args := [] })

/-- The `while` loop over the elements, `missing` of which are still to come. -/
def decodeArgsWith (a : Arithmetic) : Nat → RequestDecoder →
    Rust (Except RequestParseError (Option Request) × RequestDecoder)
  | 0, self => do
    let (cstrs, self) ← self.takeRequest
    return (.ok (some ⟨cstrs⟩), self)
  | missing+1, self => do
    match ← parseCstrWith a self with
    | (.error e, self) => return (.error e, self)
    | (.ok none, self) => return (.ok none, self)
    | (.ok (some cstr), self) => decodeArgsWith a missing { self with args := self.args ++ [cstr] }

def decodeArgs : Nat → RequestDecoder →
    Rust (Except RequestParseError (Option Request) × RequestDecoder) :=
  decodeArgsWith .unchecked

def decodeBufferedWith (a : Arithmetic) (self : RequestDecoder) :
    Rust (Except RequestParseError (Option Request) × RequestDecoder) := do
  match self.expectedArgCount with
  | some expected => decodeArgsWith a (expected - self.args.length) self
  | none =>
    match ← parseHeaderWith a self.buffer arrayByte maxArrayLength .expectedArray .arrayTooLong with
    | .error e => return (.error e, self)
    | .ok none => return (.ok none, self)
    | .ok (some header) =>
      decodeArgsWith a (header.data - self.args.length)
        { self with expectedArgCount := some header.data, cursor := header.numBytesParsed }

def decodeBuffered : RequestDecoder →
    Rust (Except RequestParseError (Option Request) × RequestDecoder) :=
  decodeBufferedWith .unchecked

def decodeNextWith (a : Arithmetic) (self : RequestDecoder) :
    Rust (Except RequestParseError (Option Request) × RequestDecoder) := do
  if self.poisoned then
    return (.error .poisoned, self)
  match ← decodeBufferedWith a self with
  | (.error e, self) => return (.error e, { self with poisoned := true })
  | (.ok result, self) => return (.ok result, self)

def decodeNext : RequestDecoder →
    Rust (Except RequestParseError (Option Request) × RequestDecoder) :=
  decodeNextWith .unchecked

end RequestDecoder

instance : Decoder RequestDecoder RequestParseError Request where
  buffer := RequestDecoder.buffer
  extend self chunk := { self with buffer := self.buffer ++ chunk }
  decodeNext := RequestDecoder.decodeNext
  validateEof := RequestDecoder.validateEof

abbrev RequestReader := Reader RequestDecoder

namespace RequestReader

def new (reader : Source) : RequestReader := { reader, decoder := {} }

def readNext (self : RequestReader) :
    Rust (Except RequestParseError (Option Request) × RequestReader) := Reader.readNext self

/-- The same loop over an asynchronous source. -/
def readNextAsync (self : RequestReader) :
    Rust (Except RequestParseError (Option Request) × RequestReader) := Reader.readNext self

end RequestReader

/-- `Request::to_bytes` -/
def Request.toBytes (self : Request) : Bytes :=
  arrayByte :: asBytes (ToString.toString self.cstrs.length) ++ crlf ++
    self.cstrs.flatMap (fun cstr =>
      cstringByte :: asBytes (ToString.toString cstr.length) ++ crlf ++ cstr ++ crlf)

def Request.intoArgs (self : Request) : List Bytes := self.cstrs

end SimpleKv
