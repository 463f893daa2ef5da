import SimpleKv.Reader
import SimpleKv.Request

/- `response.rs`: responses and their decoder. Unlike the request decoder, this one
   keeps only bytes and starts over from the beginning of the frame whenever more
   have arrived. Nested arrays recurse on what is left of the buffer; an array
   header is at least three bytes, so the depth is below the length of the buffer. -/
namespace SimpleKv

def sstrByte : UInt8 := 43
def errorByte : UInt8 := 45
def integerByte : UInt8 := 58
def nullCstrLen : Int64 := -1
def okBody : Bytes := [79, 75]

/-- `size_of::<Response>()`: a tag, and the three words of a vector. -/
def responseSize : Nat := 32

inductive Response where
  | ok
  | error (msg : String)
  | cstr (bytes : Bytes)
  | null
  | integer (n : Int64)
  | array (responses : List Response)

inductive ParseError where
  | missingCrlf
  | invalidUtf8 (e : Utf8Error)
  | invalidInt (e : ParseIntError)
  | unexpectedPrefix (byte : UInt8)
  | unexpectedSstr (text : String)
  | cstringTooLong (length : Nat)
  | invalidCStringLength (length : Int64)
  | invalidArrayLength (length : Int64)
  | poisoned
  | unexpectedEof
  deriving DecidableEq

namespace Response

def prefixByte : Response → UInt8
  | .ok => sstrByte
  | .error _ => errorByte
  | .cstr _ | .null => cstringByte
  | .integer _ => integerByte
  | .array _ => arrayByte

mutual

def toBytes : Response → Bytes
  | .ok => prefixByte .ok :: okBody ++ crlf
  | .error msg => prefixByte (.error msg) :: asBytes msg ++ crlf
  | .cstr bytes =>
    prefixByte (.cstr bytes) :: asBytes (toString bytes.length) ++ crlf ++ (bytes ++ crlf)
  | .null => prefixByte .null :: asBytes "-1" ++ crlf
  | .integer n => prefixByte (.integer n) :: asBytes (toString n.toInt) ++ crlf
  | .array responses =>
    prefixByte (.array responses) :: asBytes (toString responses.length) ++ crlf ++
      elementsToBytes responses

/-- The loop over the elements of an array. -/
def elementsToBytes : List Response → Bytes
  | [] => []
  | response :: responses => toBytes response ++ elementsToBytes responses

end

end Response

structure ResponseDecoder where
  buffer : Bytes := []
  poisoned : Bool := false

namespace ResponseDecoder

/-- What a parse function returns: the value and how many bytes it took, `none`
    while the value is incomplete. -/
abbrev ParseResult (α : Type) := Except ParseError (Option (Parsed α))

def validateEof (self : ResponseDecoder) : Except ParseError Unit :=
  if self.poisoned then .error .poisoned
  else if !self.buffer.isEmpty then .error .unexpectedEof
  else .ok ()

/-! The parse functions, and below each the one of a build without checks. -/

def parseSstrWith (a : Arithmetic) (bytes : Bytes) : Rust (ParseResult Response) := do
  match ← parseLineWith a bytes with
  | none => return .ok none
  | some line =>
    let body ← sliceFrom line.data 1
    if body ≠ okBody then
      return .error (.unexpectedSstr (fromUtf8Lossy (body.length + 1) body))
    return .ok (some ⟨.ok, line.numBytesParsed⟩)

def parseSstr : Bytes → Rust (ParseResult Response) := parseSstrWith .unchecked

def parseErrorWith (a : Arithmetic) (bytes : Bytes) : Rust (ParseResult Response) := do
  match ← parseLineWith a bytes with
  | none => return .ok none
  | some line =>
    match fromUtf8 (← sliceFrom line.data 1) with
    | .error e => return .error (.invalidUtf8 e)
    | .ok msg => return .ok (some ⟨.error msg, line.numBytesParsed⟩)

def parseError : Bytes → Rust (ParseResult Response) := parseErrorWith .unchecked

/-- The integer after the prefix byte of the first line: `from_utf8(&line.data[1..])?.parse()?` -/
def parseLineIntWith (a : Arithmetic) (bytes : Bytes) : Rust (ParseResult Int64) := do
  match ← parseLineWith a bytes with
  | none => return .ok none
  | some line =>
    match fromUtf8 (← sliceFrom line.data 1) with
    | .error e => return .error (.invalidUtf8 e)
    | .ok s =>
      match parseI64 s with
      | .error e => return .error (.invalidInt e)
      | .ok n => return .ok (some ⟨n, line.numBytesParsed⟩)

def parseLineInt : Bytes → Rust (ParseResult Int64) := parseLineIntWith .unchecked

def parseIntegerWith (a : Arithmetic) (bytes : Bytes) : Rust (ParseResult Response) := do
  match ← parseLineIntWith a bytes with
  | .error e => return .error e
  | .ok none => return .ok none
  | .ok (some n) => return .ok (some ⟨.integer n.data, n.numBytesParsed⟩)

def parseInteger : Bytes → Rust (ParseResult Response) := parseIntegerWith .unchecked

def parseCstrWith (a : Arithmetic) (bytes : Bytes) : Rust (ParseResult Response) := do
  match ← parseLineIntWith a bytes with
  | .error e => return .error e
  | .ok none => return .ok none
  | .ok (some header) =>
    if header.data = nullCstrLen then
      return .ok (some ⟨.null, header.numBytesParsed⟩)
    if header.data < 0 then
      return .error (.invalidCStringLength header.data)
    let len ← a.usizeFrom header.data
    if len > maxComplexStringLength then
      return .error (.cstringTooLong len)
    let dataStart := header.numBytesParsed
    let dataEnd ← a.add dataStart len
    let cstrCrlfIdx ← a.add dataEnd 2
    if cstrCrlfIdx > bytes.length then
      return .ok none
    let terminator ← slice bytes dataEnd cstrCrlfIdx
    if terminator ≠ crlf then
      return .error .missingCrlf
    let cstr ← slice bytes dataStart dataEnd
    return .ok (some ⟨.cstr cstr, cstrCrlfIdx⟩)

def parseCstr : Bytes → Rust (ParseResult Response) := parseCstrWith .unchecked

/-- The loop over the elements of an array, `missing` of which are still to come. -/
def parseElementsWith (a : Arithmetic) (parse : Bytes → Rust (ParseResult Response))
    (bytes : Bytes) : Nat → List Response → Nat → Rust (ParseResult Response)
  | 0, responses, numBytesParsed => return .ok (some ⟨.array responses, numBytesParsed⟩)
  | missing+1, responses, numBytesParsed => do
    match ← parse (← sliceFrom bytes numBytesParsed) with
    | .error e => return .error e
    | .ok none => return .ok none
    | .ok (some parsed) =>
      let numBytesParsed ← a.add numBytesParsed parsed.numBytesParsed
      parseElementsWith a parse bytes missing (responses ++ [parsed.data]) numBytesParsed

def parseElements : (Bytes → Rust (ParseResult Response)) → Bytes → Nat → List Response → Nat →
    Rust (ParseResult Response) :=
  parseElementsWith .unchecked

/-- `parse_array`, its elements read by `parse`. -/
def parseArrayWith (a : Arithmetic) (parse : Bytes → Rust (ParseResult Response)) (bytes : Bytes) :
    Rust (ParseResult Response) := do
  match ← parseLineIntWith a bytes with
  | .error e => return .error e
  | .ok none => return .ok none
  | .ok (some header) =>
    if header.data < 0 then
      return .error (.invalidArrayLength header.data)
    let len ← a.usizeFrom header.data
    reserve len responseSize
    parseElementsWith a parse bytes len [] header.numBytesParsed

def parseArray : (Bytes → Rust (ParseResult Response)) → Bytes → Rust (ParseResult Response) :=
  parseArrayWith .unchecked

def parseResponseAtWith (a : Arithmetic) : Nat → Bytes → Rust (ParseResult Response)
  | 0, _ => .error .spin
  | depth+1, bytes =>
    match bytes.head? with
    | none => return .ok none
    | some first =>
      if first = sstrByte then parseSstrWith a bytes
      else if first = errorByte then parseErrorWith a bytes
      else if first = cstringByte then parseCstrWith a bytes
      else if first = integerByte then parseIntegerWith a bytes
      else if first = arrayByte then parseArrayWith a (parseResponseAtWith a depth) bytes
      else return .error (.unexpectedPrefix first)

def parseResponseAt : Nat → Bytes → Rust (ParseResult Response) := parseResponseAtWith .unchecked

def parseResponseWith (a : Arithmetic) (bytes : Bytes) : Rust (ParseResult Response) :=
  parseResponseAtWith a (bytes.length + 1) bytes

def parseResponse : Bytes → Rust (ParseResult Response) := parseResponseWith .unchecked

def decodeBufferedWith (a : Arithmetic) (self : ResponseDecoder) :
    Rust (Except ParseError (Option Response) × ResponseDecoder) := do
  match ← parseResponseWith a self.buffer with
  | .error e => return (.error e, self)
  | .ok none => return (.ok none, self)
  | .ok (some parsed) =>
    let buffer ← sliceFrom self.buffer parsed.numBytesParsed
    return (.ok (some parsed.data), { self with buffer })

def decodeBuffered : ResponseDecoder → Rust (Except ParseError (Option Response) × ResponseDecoder) :=
  decodeBufferedWith .unchecked

def decodeNextWith (a : Arithmetic) (self : ResponseDecoder) :
    Rust (Except ParseError (Option Response) × ResponseDecoder) := do
  if self.poisoned then
    return (.error .poisoned, self)
  match ← decodeBufferedWith a self with
  | (.error e, self) => return (.error e, { self with poisoned := true })
  | (.ok result, self) => return (.ok result, self)

def decodeNext : ResponseDecoder → Rust (Except ParseError (Option Response) × ResponseDecoder) :=
  decodeNextWith .unchecked

end ResponseDecoder

instance : Decoder ResponseDecoder ParseError Response where
  buffer := ResponseDecoder.buffer
  extend self chunk := { self with buffer := self.buffer ++ chunk }
  decodeNext := ResponseDecoder.decodeNext
  validateEof := ResponseDecoder.validateEof

abbrev ResponseReader := Reader ResponseDecoder

namespace ResponseReader

def new (reader : Source) : ResponseReader := { reader, decoder := {} }

def readNext (self : ResponseReader) :
    Rust (Except ParseError (Option Response) × ResponseReader) := Reader.readNext self

/-- The same loop over an asynchronous source. -/
def readNextAsync (self : ResponseReader) :
    Rust (Except ParseError (Option Response) × ResponseReader) := Reader.readNext self

end ResponseReader
end SimpleKv
