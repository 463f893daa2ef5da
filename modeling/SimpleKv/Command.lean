import SimpleKv.KeyStore
import SimpleKv.Request
import SimpleKv.Response

/- `command.rs`: commands, their parsing from requests, their execution on the key
   store and their encoding for the log. Whatever asks whether a value is expired
   reads the clock at that point; `EXPIRE` also reads it when parsed, since it only
   exists externally and becomes `EXPIREAT`. -/
namespace SimpleKv

def getName : String := "GET"
def setName : String := "SET"
def mgetName : String := "MGET"
def msetName : String := "MSET"
def delName : String := "DEL"
def getallName : String := "GETALL"
def expireName : String := "EXPIRE"
def expireatName : String := "EXPIREAT"
def ttlName : String := "TTL"
def commandNames : List String :=
  [getName, setName, mgetName, msetName, delName, getallName, expireName, expireatName, ttlName]

def ttlKeyMissingResponse : Int64 := -2
def ttlKeyNoExpireResponse : Int64 := -1

structure StoredValue where
  bytes : Bytes
  expiresAt : Option UInt64
  deriving DecidableEq

def StoredValue.new (bytes : Bytes) : StoredValue := ⟨bytes, none⟩

/-- A value without deadline does not read the clock. -/
def StoredValue.isExpired (self : StoredValue) : Clocked Bool :=
  match self.expiresAt with
  | none => return false
  | some expiresAt => return expiresAt ≤ (← getUnixTimestamp)

abbrev Store := KeyStore Bytes StoredValue

inductive Command where
  | get (key : Bytes)
  | set (key value : Bytes)
  | mget (keys : List Bytes)
  | mset (entries : List (Bytes × Bytes))
  | del (keys : List Bytes)
  | getAll
  | expireAt (key : Bytes) (timestamp : UInt64)
  | ttl (key : Bytes)
  deriving DecidableEq

inductive CommandError where
  | invalidUtf8 (e : Utf8Error)
  | unrecognizedCommand (name : String)
  | tooFewArguments (elements : Nat)
  | tooManyArguments (elements : Nat)
  | unevenArgumentLength (length : Nat)
  | invalidExpiration (text : String)
  deriving DecidableEq

/-- `{names:?}` of the command names, none of which needs escaping. -/
def debugNames : String :=
  "[" ++ String.intercalate ", " (commandNames.map (fun name => "\"" ++ name ++ "\"")) ++ "]"

def CommandError.toString : CommandError → String
  | .invalidUtf8 _ => "command name was not valid utf-8"
  | .unrecognizedCommand name =>
    "unrecognized command name: " ++ name ++ ", expected one of: " ++ debugNames
  | .tooFewArguments elements =>
    "command has too few arguments; request had " ++ ToString.toString elements ++ " elements"
  | .tooManyArguments elements =>
    "request had too many elements: " ++ ToString.toString elements
  | .unevenArgumentLength length =>
    "expected even length, got len: " ++ ToString.toString length
  | .invalidExpiration text => "expiration must be a valid integer, got: " ++ text

namespace Command

def ejectIfExpired (keyStore : Store) (key : Bytes) : Clocked Store := do
  match ← keyStore.get key with
  | none => return keyStore
  | some value =>
    if ← value.isExpired then
      let (_, keyStore) ← keyStore.del key
      return keyStore
    else
      return keyStore

def name : Command → String
  | .del _ => delName
  | .set _ _ => setName
  | .get _ => getName
  | .mget _ => mgetName
  | .mset _ => msetName
  | .getAll => getallName
  | .expireAt _ _ => expireatName
  | .ttl _ => ttlName

def isSet (self : Command) : Bool := self.name = setName
def isDel (self : Command) : Bool := self.name = delName
def isMset (self : Command) : Bool := self.name = msetName
def isExpireAt (self : Command) : Bool := self.name = expireatName

def isWriteOp (self : Command) : Bool :=
  self.isDel || self.isSet || self.isMset || self.isExpireAt

/-! Parsing. `args` are the arguments after the name, `total` counts the name too. -/

/-- The one argument of `GET` and `TTL`. -/
def parseOneKey (command : Bytes → Command) (args : List Bytes) (total : Nat) :
    Rust (Except CommandError Command) := do
  if args.length = 0 then
    return .error (.tooFewArguments total)
  if args.length > 1 then
    return .error (.tooManyArguments total)
  return .ok (command (← expect "one argument checked above" args[0]?))

def parseGet (args : List Bytes) (total : Nat) : Rust (Except CommandError Command) :=
  parseOneKey .get args total

def parseSet (args : List Bytes) (total : Nat) : Rust (Except CommandError Command) := do
  if args.length < 2 then
    return .error (.tooFewArguments total)
  if args.length > 2 then
    return .error (.tooManyArguments total)
  let key ← expect "len >= 2 checked above" args[0]?
  let value ← expect "len >= 2 checked above" args[1]?
  return .ok (.set key value)

def parseMget (args : List Bytes) (total : Nat) : Rust (Except CommandError Command) := do
  if args.length = 0 then
    return .error (.tooFewArguments total)
  return .ok (.mget args)

/-- The `while` loop of `parse_mset`. -/
def takePairs : List Bytes → Rust (List (Bytes × Bytes))
  | [] => return []
  | [_] => .error (.expectFailed "even argument count checked above")
  | key :: value :: rest => return (key, value) :: (← takePairs rest)

def parseMset (args : List Bytes) (total : Nat) : Rust (Except CommandError Command) := do
  if args.length < 2 then
    return .error (.tooFewArguments total)
  if args.length % 2 ≠ 0 then
    return .error (.unevenArgumentLength args.length)
  return .ok (.mset (← takePairs args))

def parseDel (args : List Bytes) (total : Nat) : Rust (Except CommandError Command) := do
  if args.length = 0 then
    return .error (.tooFewArguments total)
  return .ok (.del args)

def parseGetall (args : List Bytes) (total : Nat) : Rust (Except CommandError Command) := do
  if args.length ≠ 0 then
    return .error (.tooManyArguments total)
  return .ok .getAll

def parseTtl (args : List Bytes) (total : Nat) : Rust (Except CommandError Command) :=
  parseOneKey .ttl args total

/-- The key and the expiration; the source carries the latter in a `Parsed`. -/
def parseExpiration (args : List Bytes) (total : Nat) :
    Rust (Except CommandError (Parsed Bytes)) := do
  if args.length < 2 then
    return .error (.tooFewArguments total)
  if args.length > 2 then
    return .error (.tooManyArguments total)
  let key ← expect "len == 2 checked above" args[0]?
  let expiration ← expect "len == 2 checked above" args[1]?
  match fromUtf8 expiration with
  | .error e => return .error (.invalidUtf8 e)
  | .ok expirationStr =>
    match parseUsize expirationStr with
    | .error _ => return .error (.invalidExpiration expirationStr)
    | .ok seconds => return .ok ⟨key, seconds⟩

/-- `u64::saturating_add` -/
def saturatingAdd (a b : UInt64) : UInt64 :=
  UInt64.ofNat (min (a.toNat + b.toNat) (2^64 - 1))

def parseExpire (args : List Bytes) (total : Nat) : Clocked (Except CommandError Command) := do
  match ← parseExpiration args total with
  | .error e => return .error e
  | .ok expiration =>
    let now ← getUnixTimestamp
    return .ok (.expireAt expiration.data
      (saturatingAdd now (UInt64.ofNat expiration.numBytesParsed)))

def parseExpireAt (args : List Bytes) (total : Nat) : Rust (Except CommandError Command) := do
  match ← parseExpiration args total with
  | .error e => return .error e
  | .ok expiration =>
    return .ok (.expireAt expiration.data (UInt64.ofNat expiration.numBytesParsed))

/-- `TryFrom<Request>` -/
def tryFrom (request : Request) : Clocked (Except CommandError Command) := do
  let commands := request.intoArgs
  if commands.isEmpty then
    return .error (.tooFewArguments commands.length)
  let total := commands.length
  let nameBytes ← expect "non-empty request checked above" commands[0]?
  let args := commands.drop 1
  match fromUtf8 nameBytes with
  | .error e => return .error (.invalidUtf8 e)
  | .ok commandName =>
    if commandName = getName then parseGet args total
    else if commandName = setName then parseSet args total
    else if commandName = mgetName then parseMget args total
    else if commandName = msetName then parseMset args total
    else if commandName = delName then parseDel args total
    else if commandName = getallName then parseGetall args total
    else if commandName = expireName then parseExpire args total
    else if commandName = expireatName then parseExpireAt args total
    else if commandName = ttlName then parseTtl args total
    else return .error (.unrecognizedCommand commandName)

/-! Execution. -/

def applyGet (key : Bytes) (keyStore : Store) : Clocked Response := do
  match ← keyStore.get key with
  | none => return .null
  | some value => return if ← value.isExpired then .null else .cstr value.bytes

def applyMget (keys : List Bytes) (keyStore : Store) : Clocked Response := do
  return .array (← keys.mapM (fun key => applyGet key keyStore))

def applyGetall (keyStore : Store) : Clocked Response := do
  let pairs ← keyStore.iter.mapM (fun (key, value) => do
    return if ← value.isExpired then none
      else some (Response.array [.cstr key, .cstr value.bytes]))
  return .array pairs.reduceOption

def applyTtl (key : Bytes) (keyStore : Store) : Clocked Response := do
  match ← keyStore.get key with
  | none => return .integer ttlKeyMissingResponse
  | some value =>
    if ← value.isExpired then
      return .integer ttlKeyMissingResponse
    match value.expiresAt with
    | none => return .integer ttlKeyNoExpireResponse
    | some expiresAt => return .integer expiresAt.toInt64

def applyDel (keys : List Bytes) (keyStore : Store) : Clocked (Response × Store) := do
  let (count, keyStore) ← keys.foldlM (fun (count, keyStore) key => do
    let keyStore ← ejectIfExpired keyStore key
    let (removed, keyStore) ← keyStore.del key
    return (if removed.isSome then count + 1 else count, keyStore)) (0, keyStore)
  return (.integer (Int64.ofNat count), keyStore)

def applySet (key value : Bytes) (keyStore : Store) : Clocked (Response × Store) := do
  let (_, keyStore) ← keyStore.insert key (.new value)
  return (.ok, keyStore)

def applyMset (entries : List (Bytes × Bytes)) (keyStore : Store) :
    Clocked (Response × Store) := do
  let keyStore ← entries.foldlM (fun keyStore (key, value) => do
    let (_, keyStore) ← keyStore.insert key (.new value)
    return keyStore) keyStore
  return (.ok, keyStore)

def applyExpireAt (key : Bytes) (timestamp : UInt64) (keyStore : Store) :
    Clocked (Response × Store) := do
  let keyStore ← ejectIfExpired keyStore key
  match ← keyStore.getMut key (fun value => { value with expiresAt := some timestamp }) with
  | (none, keyStore) => return (.integer 0, keyStore)
  | (some _, keyStore) => return (.integer 1, keyStore)

def applyRead (self : Command) (keyStore : Store) : Clocked Response :=
  match self with
  | .get key => applyGet key keyStore
  | .mget keys => applyMget keys keyStore
  | .getAll => applyGetall keyStore
  | .ttl key => applyTtl key keyStore
  | .del _ | .set _ _ | .mset _ | .expireAt _ _ =>
    throw (.unreachable "write command passed to apply_read")

def applyWrite (self : Command) (keyStore : Store) : Clocked (Response × Store) :=
  match self with
  | .del keys => applyDel keys keyStore
  | .set key value => applySet key value keyStore
  | .mset entries => applyMset entries keyStore
  | .expireAt key timestamp => applyExpireAt key timestamp keyStore
  | .get _ | .mget _ | .getAll | .ttl _ =>
    throw (.unreachable "read command passed to apply_write")

/-! Encoding. -/

/-- The elements of the encoded command: its name, and its arguments in order. -/
def parts : Command → List Bytes
  | .get key => [asBytes getName, key]
  | .set key value => [asBytes setName, key, value]
  | .mget keys => asBytes mgetName :: keys
  | .mset entries => asBytes msetName :: entries.flatMap (fun (key, value) => [key, value])
  | .del keys => asBytes delName :: keys
  | .getAll => [asBytes getallName]
  | .ttl key => [asBytes ttlName, key]
  | .expireAt key timestamp =>
    [asBytes expireatName, key, asBytes (toString timestamp.toNat)]

def toBytes (self : Command) : Bytes :=
  asBytes ("*" ++ toString self.parts.length ++ "\r\n") ++
    self.parts.flatMap (fun part =>
      asBytes ("$" ++ toString part.length ++ "\r\n") ++ part ++ crlf)

end Command
end SimpleKv
