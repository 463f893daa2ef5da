import SimpleKv.Command

/- `append_only_file.rs` and the state of `server.rs`: the log, the key store
   restored from it, and the three operations the connections and the clean-up task
   perform under the lock. -/
namespace SimpleKv

/-- The log as the bytes in it. -/
structure AppendOnlyFile where
  contents : Bytes := []

/-- `std::io::Error`, of which only the text is used. -/
structure IoError where
  text : String

/-- `write_all` either writes all of `bytes` or fails having written fewer. -/
abbrev AppendFailure (bytes : Bytes) := Option (Fin bytes.length × IoError)

def AppendOnlyFile.append (self : AppendOnlyFile) (bytes : Bytes) (failure : AppendFailure bytes) :
    Except IoError Unit × AppendOnlyFile :=
  match failure with
  | none => (.ok (), ⟨self.contents ++ bytes⟩)
  | some (written, err) => (.error err, ⟨self.contents ++ bytes.take written⟩)

inductive KeyStoreRestoreError where
  | request (e : RequestParseError)
  | command (e : CommandError)
  deriving DecidableEq

structure ServerState where
  wal : AppendOnlyFile
  keyStore : Store

namespace ServerState

/-- The `while` loop of `restore_keystore`: an iteration that does not return has
    taken a request off the file. -/
def restoreLoop : Nat → RequestReader → Store → Clocked (Except KeyStoreRestoreError Store)
  | 0, _, _ => throw .spin
  | fuel+1, requests, keyStore => do
    match ← requests.readNext with
    | (.error e, _) => return .error (.request e)
    | (.ok none, _) => return .ok keyStore
    | (.ok (some request), requests) =>
      match ← Command.tryFrom request with
      | .error e => return .error (.command e)
      | .ok command =>
        let (_, keyStore) ← command.applyWrite keyStore
        restoreLoop fuel requests keyStore

/-- `hasher` is the random one of the new key store. -/
def restoreKeystore (wal : AppendOnlyFile) (hasher : Bytes → UInt64) :
    Clocked (Except KeyStoreRestoreError Store) :=
  restoreLoop (wal.contents.length + 1) (.new [wal.contents]) (.withHasher hasher)

def fromWal (wal : AppendOnlyFile) (hasher : Bytes → UInt64) : Clocked ServerState := do
  match ← restoreKeystore wal hasher with
  | .error _ =>
    throw (.expectFailed "should be able to restore key store from append-only file")
  | .ok keyStore => return { wal, keyStore }

def write (self : ServerState) (command : Command) (failure : AppendFailure command.toBytes) :
    Clocked (Response × ServerState) :=
  match self.wal.append command.toBytes failure with
  | (.error err, wal) => return (.error err.text, { self with wal })
  | (.ok (), wal) => do
    let (response, keyStore) ← command.applyWrite self.keyStore
    return (response, { wal, keyStore })

def read (self : ServerState) (command : Command) : Clocked Response :=
  command.applyRead self.keyStore

def removeExpired (self : ServerState) : Clocked (Nat × ServerState) := do
  let expiredKeys ← self.keyStore.iter.mapM (fun (key, value) => do
    return if ← value.isExpired then some key else none)
  let expiredKeys := expiredKeys.reduceOption
  let keyStore ← expiredKeys.foldlM (fun keyStore key => do
    let (_, keyStore) ← keyStore.del key
    return keyStore) self.keyStore
  return (expiredKeys.length, { self with keyStore })

end ServerState
end SimpleKv
