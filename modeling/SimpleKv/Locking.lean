import Mathlib.Data.List.AList
import Mathlib.Data.List.ReduceOption
import SimpleKv.Connection
import SimpleKv.Lib.RwLock

/- The tasks of `server.rs` with the lock between them. In `Connection` what is done under
   the lock is one step; here a task takes the `RwLock`, shared or for itself, handles one
   key or one bucket at a time, and gives the lock back, and the others go on meanwhile.
   What the lock is relied on for is that no task holds it together with one that
   writes. -/
namespace SimpleKv
open RwLock Tape

/-- Where a task is that holds the lock. -/
inductive Section where
  | get (key : Bytes)
  | ttl (key : Bytes)
  /-- The keys to come, and the responses so far. -/
  | mget (keys : List Bytes) (responses : List Response)
  /-- The next bucket of the iterator, and the pairs so far. -/
  | getAll (bucket : Nat) (pairs : List Response)
  /-- `write` has to append to the log first. -/
  | append (command : Command)
  | set (key value : Bytes)
  | mset (entries : List (Bytes × Bytes))
  | del (keys : List Bytes) (count : Nat)
  | expireAt (key : Bytes) (timestamp : UInt64)
  /-- The two loops of `remove_expired`. -/
  | collect (bucket : Nat) (expired : List Bytes)
  | remove (keys : List Bytes) (removed : Nat)
  | responded (response : Response)
  | cleaned (count : Nat)
  /-- `unreachable!` -/
  | unreachable (msg : String)

namespace Section

/-- `apply_read` -/
def ofRead : Command → Section
  | .get key => .get key
  | .mget keys => .mget keys []
  | .getAll => .getAll 0 []
  | .ttl key => .ttl key
  | .del _ | .set _ _ | .mset _ | .expireAt _ _ => .unreachable "write command passed to apply_read"

/-- `apply_write` -/
def ofWrite : Command → Section
  | .del keys => .del keys 0
  | .set key value => .set key value
  | .mset entries => .mset entries
  | .expireAt key timestamp => .expireAt key timestamp
  | .get _ | .mget _ | .getAll | .ttl _ => .unreachable "read command passed to apply_write"

/-- Where a task starts that executes the command. -/
def ofCommand (command : Command) : Section :=
  if command.isWriteOp then .append command else ofRead command

/-- One step of the section. -/
def step (self : Section) (state : ServerState) : Clocked (Section × ServerState) :=
  match self with
  | .get key => do return (.responded (← Command.applyGet key state.keyStore), state)
  | .ttl key => do return (.responded (← Command.applyTtl key state.keyStore), state)
  | .mget [] responses => return (.responded (.array responses), state)
  | .mget (key :: keys) responses => do
    let response ← Command.applyGet key state.keyStore
    return (.mget keys (responses ++ [response]), state)
  | .getAll bucket pairs =>
    match state.keyStore.buckets[bucket]? with
    | none => return (.responded (.array pairs), state)
    | some none => return (.getAll (bucket + 1) pairs, state)
    | some (some entry) => do
      if ← entry.value.isExpired then
        return (.getAll (bucket + 1) pairs, state)
      else
        let pair := Response.array [.cstr entry.key, .cstr entry.value.bytes]
        return (.getAll (bucket + 1) (pairs ++ [pair]), state)
  | .append command =>
    match state.wal.append command.toBytes none with
    | (.error err, wal) => return (.responded (.error err.text), { state with wal })
    | (.ok (), wal) => return (ofWrite command, { state with wal })
  | .set key value => do
    let (_, keyStore) ← state.keyStore.insert key (.new value)
    return (.responded .ok, { state with keyStore })
  | .mset [] => return (.responded .ok, state)
  | .mset ((key, value) :: entries) => do
    let (_, keyStore) ← state.keyStore.insert key (.new value)
    return (.mset entries, { state with keyStore })
  | .del [] count => return (.responded (.integer (Int64.ofNat count)), state)
  | .del (key :: keys) count => do
    let keyStore ← Command.ejectIfExpired state.keyStore key
    let (removed, keyStore) ← keyStore.del key
    return (.del keys (if removed.isSome then count + 1 else count), { state with keyStore })
  | .expireAt key timestamp => do
    let (response, keyStore) ← Command.applyExpireAt key timestamp state.keyStore
    return (.responded response, { state with keyStore })
  | .collect bucket expired =>
    match state.keyStore.buckets[bucket]? with
    | none => return (.remove expired expired.length, state)
    | some none => return (.collect (bucket + 1) expired, state)
    | some (some entry) => do
      if ← entry.value.isExpired then
        return (.collect (bucket + 1) (expired ++ [entry.key]), state)
      else
        return (.collect (bucket + 1) expired, state)
  | .remove [] removed => return (.cleaned removed, state)
  | .remove (key :: keys) removed => do
    let (_, keyStore) ← state.keyStore.del key
    return (.remove keys removed, { state with keyStore })
  | .responded response => return (.responded response, state)
  | .cleaned count => return (.cleaned count, state)
  | .unreachable msg => throw (.unreachable msg)

/-- What a section ends with: a response, or the number of keys cleaned up. -/
def result : Section → Option (Response ⊕ Nat)
  | .responded response => some (.inl response)
  | .cleaned count => some (.inr count)
  | _ => none

/-- The sections of `read`. -/
def Reading : Section → Prop
  | .get _ | .ttl _ | .mget _ _ | .getAll _ _ | .responded _ | .unreachable _ => True
  | _ => False

/-- What the loops over the iterator find in the buckets. -/
def gather {α : Type} (f : Bytes × StoredValue → Clocked (Option α))
    (buckets : List (Option (Entry Bytes StoredValue))) : Clocked (List α) := do
  let found ← (buckets.reduceOption.map (fun entry => (entry.key, entry.value))).mapM f
  return found.reduceOption

/-- The pair `GETALL` lists for an entry. -/
def pair? : Bytes × StoredValue → Clocked (Option Response)
  | (key, value) => do
    return if ← value.isExpired then none else some (.array [.cstr key, .cstr value.bytes])

/-- The key the clean-up collects for an entry. -/
def expired? : Bytes × StoredValue → Clocked (Option Bytes)
  | (key, value) => do
    return if ← value.isExpired then some key else none

def removeAll (keys : List Bytes) (keyStore : Store) : Clocked Store :=
  keys.foldlM (fun keyStore key => do
    let (_, keyStore) ← keyStore.del key
    return keyStore) keyStore

/-- What is left of the section, in one piece: `execute` and `remove_expired` from there
    on. -/
def rest (self : Section) (state : ServerState) : Clocked ((Response ⊕ Nat) × ServerState) :=
  match self with
  | .get key => do return (.inl (← Command.applyGet key state.keyStore), state)
  | .ttl key => do return (.inl (← Command.applyTtl key state.keyStore), state)
  | .mget keys responses => do
    let more ← keys.mapM (fun key => Command.applyGet key state.keyStore)
    return (.inl (.array (responses ++ more)), state)
  | .getAll bucket pairs => do
    let more ← gather pair? (state.keyStore.buckets.drop bucket)
    return (.inl (.array (pairs ++ more)), state)
  | .append command => do
    let (response, state) ← state.write command none
    return (.inl response, state)
  | .set key value => do
    let (response, keyStore) ← Command.applySet key value state.keyStore
    return (.inl response, { state with keyStore })
  | .mset entries => do
    let (response, keyStore) ← Command.applyMset entries state.keyStore
    return (.inl response, { state with keyStore })
  | .del keys count => do
    let (count, keyStore) ← keys.foldlM (fun (count, keyStore) key => do
      let keyStore ← Command.ejectIfExpired keyStore key
      let (removed, keyStore) ← keyStore.del key
      return (if removed.isSome then count + 1 else count, keyStore)) (count, state.keyStore)
    return (.inl (.integer (Int64.ofNat count)), { state with keyStore })
  | .expireAt key timestamp => do
    let (response, keyStore) ← Command.applyExpireAt key timestamp state.keyStore
    return (.inl response, { state with keyStore })
  | .collect bucket expired => do
    let more ← gather expired? (state.keyStore.buckets.drop bucket)
    let keyStore ← removeAll (expired ++ more) state.keyStore
    return (.inr (expired ++ more).length, { state with keyStore })
  | .remove keys removed => do
    let keyStore ← removeAll keys state.keyStore
    return (.inr removed, { state with keyStore })
  | .responded response => return (.inl response, state)
  | .cleaned count => return (.inr count, state)
  | .unreachable msg => throw (.unreachable msg)

/-! The laws of sections. -/

theorem readClock_local : Local readClock := by
  intro tape now tape' h
  cases h
  exact ⟨[tape.head], (Stream'.eta tape).symm, fun rest => rfl⟩

theorem isExpired_local (value : StoredValue) : Local value.isExpired := by
  unfold StoredValue.isExpired
  cases value.expiresAt with
  | none => exact .pure false
  | some d => exact readClock_local.bind (fun _ => .pure _)

theorem applyGet_local (key : Bytes) (keyStore : Store) : Local (Command.applyGet key keyStore) := by
  refine (Local.lift _).bind (fun found => ?_)
  cases found with
  | none => exact .pure _
  | some value => exact (isExpired_local value).bind (fun _ => .pure _)

theorem applyTtl_local (key : Bytes) (keyStore : Store) : Local (Command.applyTtl key keyStore) := by
  refine (Local.lift _).bind (fun found => ?_)
  cases found with
  | none => exact .pure _
  | some value =>
    refine (isExpired_local value).bind (fun expired => ?_)
    cases expired with
    | true => exact .pure _
    | false =>
      obtain ⟨bytes, expiresAt⟩ := value
      cases expiresAt <;> exact .pure _

theorem ejectIfExpired_local (keyStore : Store) (key : Bytes) :
    Local (Command.ejectIfExpired keyStore key) := by
  refine (Local.lift _).bind (fun found => ?_)
  cases found with
  | none => exact .pure _
  | some value =>
    refine (isExpired_local value).bind (fun expired => ?_)
    cases expired with
    | true => exact (Local.lift _).bind (fun _ => .pure _)
    | false => exact .pure _

theorem applyExpireAt_local (key : Bytes) (timestamp : UInt64) (keyStore : Store) :
    Local (Command.applyExpireAt key timestamp keyStore) := by
  refine (ejectIfExpired_local keyStore key).bind (fun keyStore => ?_)
  refine (Local.lift _).bind (fun found => ?_)
  obtain ⟨found, keyStore⟩ := found
  cases found <;> exact .pure _

theorem step_local (self : Section) (state : ServerState) : Local (self.step state) := by
  cases self with
  | get key => exact (applyGet_local key _).bind (fun _ => .pure _)
  | ttl key => exact (applyTtl_local key _).bind (fun _ => .pure _)
  | mget keys responses =>
    cases keys with
    | nil => exact .pure _
    | cons key keys => exact (applyGet_local key _).bind (fun _ => .pure _)
  | getAll bucket pairs =>
    simp only [step]
    split
    · exact .pure _
    · exact .pure _
    · exact (isExpired_local _).bind (fun _ => .ite (.pure _) (.pure _))
  | append command => exact .pure _
  | set key value => exact (Local.lift _).bind (fun _ => .pure _)
  | mset entries =>
    cases entries with
    | nil => exact .pure _
    | cons entry entries => exact (Local.lift _).bind (fun _ => .pure _)
  | del keys count =>
    cases keys with
    | nil => exact .pure _
    | cons key keys =>
      exact (ejectIfExpired_local _ key).bind (fun _ => (Local.lift _).bind (fun _ => .pure _))
  | expireAt key timestamp => exact (applyExpireAt_local key timestamp _).bind (fun _ => .pure _)
  | collect bucket expired =>
    simp only [step]
    split
    · exact .pure _
    · exact .pure _
    · exact (isExpired_local _).bind (fun _ => .ite (.pure _) (.pure _))
  | remove keys removed =>
    cases keys with
    | nil => exact .pure _
    | cons key keys => exact (Local.lift _).bind (fun _ => .pure _)
  | responded response => exact .pure _
  | cleaned count => exact .pure _
  | unreachable msg => exact .throw _

/-- The iterator from a bucket on. -/
theorem drop_bucket {buckets : List (Option (Entry Bytes StoredValue))} {i : Nat}
    {b : Option (Entry Bytes StoredValue)} (h : buckets[i]? = some b) :
    buckets.drop i = b :: buckets.drop (i + 1) := by
  obtain ⟨hlt, rfl⟩ := List.getElem?_eq_some_iff.mp h
  exact List.drop_eq_getElem_cons hlt

theorem gather_none {α : Type} (f : Bytes × StoredValue → Clocked (Option α))
    (buckets : List (Option (Entry Bytes StoredValue))) :
    gather f (none :: buckets) = gather f buckets := rfl

theorem gather_some {α : Type} (f : Bytes × StoredValue → Clocked (Option α))
    (entry : Entry Bytes StoredValue) (buckets : List (Option (Entry Bytes StoredValue))) :
    gather f (some entry :: buckets) = (do
      let found ← f (entry.key, entry.value)
      let more ← gather f buckets
      return found.toList ++ more) := by
  unfold gather
  rw [List.reduceOption_cons_of_some, List.map_cons, List.mapM_cons]
  simp only [bind_assoc, pure_bind]
  congr 1
  funext found
  congr 1
  funext more
  cases found <;> rfl

/-- A step, and what is left after it. -/
theorem rest_step (self : Section) (state : ServerState) (h : self.result = none) :
    self.rest state = self.step state >>= fun q => q.1.rest q.2 := by
  cases self with
  | get key => simp [step, rest]
  | ttl key => simp [step, rest]
  | mget keys responses =>
    cases keys with
    | nil => simp [step, rest]
    | cons key keys => simp [step, rest]
  | getAll bucket pairs =>
    simp only [step]
    split
    · next hnone =>
      simp only [rest, List.drop_eq_nil_of_le (List.getElem?_eq_none_iff.mp hnone)]
      simp [gather]
    · next hempty =>
      simp only [rest, pure_bind]
      rw [drop_bucket hempty, gather_none]
    · next entry hsome =>
      simp only [rest, drop_bucket hsome, gather_some, pair?, bind_assoc, pure_bind]
      congr 1
      funext expired
      cases expired <;> simp
  | append command =>
    simp only [step, rest, ServerState.write, AppendOnlyFile.append, pure_bind]
    cases command with
    | get | mget | getAll | ttl => rfl
    | set | mset | del | expireAt => simp [ofWrite, Command.applyWrite, Command.applyDel]
  | set key value => simp [step, rest, Command.applySet]
  | mset entries =>
    cases entries with
    | nil => simp [step, rest, Command.applyMset]
    | cons entry entries => simp [step, rest, Command.applyMset]
  | del keys count =>
    cases keys with
    | nil => simp [step, rest]
    | cons key keys => simp [step, rest]
  | expireAt key timestamp => simp [step, rest]
  | collect bucket expired =>
    simp only [step]
    split
    · next hnone =>
      simp only [rest, List.drop_eq_nil_of_le (List.getElem?_eq_none_iff.mp hnone)]
      simp [gather]
    · next hempty =>
      simp only [rest, pure_bind]
      rw [drop_bucket hempty, gather_none]
    · next entry hsome =>
      simp only [rest, drop_bucket hsome, gather_some, expired?, bind_assoc, pure_bind]
      congr 1
      funext expired
      cases expired <;> simp [Nat.add_comm, Nat.add_left_comm]
  | remove keys removed =>
    cases keys with
    | nil => simp [step, rest, removeAll]
    | cons key keys => simp [step, rest, removeAll]
  | responded response => cases h
  | cleaned count => cases h
  | unreachable msg => rfl

theorem reading_step {self p : Section} {state state' : ServerState} {clock clock' : Clock}
    (h : self.Reading) (hrun : (self.step state).run clock = .ok ((p, state'), clock')) :
    state' = state ∧ p.Reading := by
  cases self with
  | get key =>
    obtain ⟨_, _, hrun⟩ := Outcome.bind_eq_ok.mp hrun
    cases hrun
    exact ⟨rfl, trivial⟩
  | ttl key =>
    obtain ⟨_, _, hrun⟩ := Outcome.bind_eq_ok.mp hrun
    cases hrun
    exact ⟨rfl, trivial⟩
  | mget keys responses =>
    cases keys with
    | nil =>
      cases hrun
      exact ⟨rfl, trivial⟩
    | cons key keys =>
      obtain ⟨_, _, hrun⟩ := Outcome.bind_eq_ok.mp hrun
      cases hrun
      exact ⟨rfl, trivial⟩
  | getAll bucket pairs =>
    simp only [step] at hrun
    split at hrun
    · cases hrun
      exact ⟨rfl, trivial⟩
    · cases hrun
      exact ⟨rfl, trivial⟩
    · obtain ⟨⟨expired, _⟩, _, hrun⟩ := Outcome.bind_eq_ok.mp hrun
      cases expired <;> cases hrun <;> exact ⟨rfl, trivial⟩
  | responded response =>
    cases hrun
    exact ⟨rfl, trivial⟩
  | unreachable msg => cases hrun
  | append | set | mset | del | expireAt | collect | remove | cleaned => cases h

theorem reading_ofCommand {command : Command} (h : command.isWriteOp = false) :
    (ofCommand command).Reading := by
  unfold ofCommand
  rw [if_neg (by simp [h])]
  cases command <;> exact trivial

/-! The sections in one piece. -/

theorem rest_ofCommand (command : Command) (state : ServerState) :
    (ofCommand command).rest state =
      (do let (response, state) ← state.execute command none; return (.inl response, state)) := by
  unfold ofCommand ServerState.execute
  by_cases hwrite : command.isWriteOp = true
  · rw [if_pos hwrite, if_pos hwrite]
    rfl
  · rw [if_neg hwrite, if_neg hwrite]
    cases command with
    | get | ttl => simp [ofRead, rest, ServerState.read, Command.applyRead]
    | mget => simp [ofRead, rest, ServerState.read, Command.applyRead, Command.applyMget]
    | getAll =>
      have hgetall : Command.applyGetall state.keyStore =
          (do return .array (← state.keyStore.iter.mapM pair?).reduceOption) := rfl
      simp only [ofRead, rest, ServerState.read, Command.applyRead, hgetall, gather]
      simp [KeyStore.iter]
    | set | mset | del | expireAt => exact absurd rfl hwrite

theorem rest_collect (state : ServerState) :
    (collect 0 []).rest state =
      (do let (removed, state) ← state.removeExpired; return (.inr removed, state)) := by
  have hremove : state.removeExpired = (do
      let expired ← state.keyStore.iter.mapM expired?
      let keyStore ← removeAll expired.reduceOption state.keyStore
      return (expired.reduceOption.length, { state with keyStore })) := rfl
  rw [hremove]
  simp [rest, gather, KeyStore.iter]

end Section

/-- What the tasks do while they hold the lock. -/
def sections : Sections ServerState Section (Response ⊕ Nat) Fault UInt64 where
  step := Section.step
  rest := Section.rest
  result := Section.result
  reading := Section.Reading
  step_local := Section.step_local
  rest_step := Section.rest_step
  rest_result self state a h := by
    cases self with
    | responded response => cases h; rfl
    | cleaned count => cases h; rfl
    | get | ttl | mget | getAll | append | set | mset | del | expireAt | collect | remove | unreachable =>
      cases h
  reading_step := Section.reading_step

/-! The server. -/

/-- The server with its clients, and who holds the lock. -/
structure LockedSystem where
  system : System
  guards : AList (fun _ : Turn => Guard Section)

namespace LockedSystem

def start (state : ServerState) (sources : List Source) : LockedSystem :=
  { system := .start state sources, guards := ∅ }

/-- Whether the lock can be given now. -/
def grants (self : LockedSystem) : Mode → Bool
  | .shared => self.guards.entries.all (fun entry => entry.2.mode = .shared)
  | .exclusive => self.guards.entries.isEmpty

/-- A turn of a task that asks for the lock, or has it and does what `first` starts. Once
    this is done, the lock is given back. -/
def lockTurn (self : LockedSystem) (task : Turn) (mode : Mode) (first : Section) :
    Clocked (Option (Response ⊕ Nat) × LockedSystem) := do
  match self.guards.lookup task with
  | none =>
    if self.grants mode then
      return (none, { self with guards := self.guards.insert task ⟨mode, first⟩ })
    else
      return (none, self)
  | some guard =>
    match guard.progress.result with
    | some result => return (some result, { self with guards := self.guards.erase task })
    | none =>
      let (progress, state) ← guard.progress.step self.system.state
      return (none, { system := { self.system with state },
                      guards := self.guards.insert task { guard with progress } })

/-- `ss.write()` for a write command, and `ss.read()` otherwise. -/
def modeOf (command : Command) : Mode := if command.isWriteOp then .exclusive else .shared

def setConnection (self : LockedSystem) (i : Nat) (connection : Connection) : LockedSystem :=
  { self with system.connections := self.system.connections.set i connection }

def turn (self : LockedSystem) : Turn → Clocked LockedSystem
  | .serve i =>
    match self.system.connections[i]? with
    | none => return self
    | some connection =>
      match connection.phase with
      | .executing command => do
        let (result, self) ← self.lockTurn (.serve i) (modeOf command) (.ofCommand command)
        match result with
        | some (.inl response) =>
          return self.setConnection i { connection with phase := .sending response false }
        | _ => return self
      | _ => do
        let (connection, state) ← connection.step self.system.state
        return { self with system.state := state }.setConnection i connection
  | .cleanUp => do
    let (_, self) ← self.lockTurn .cleanUp .exclusive (.collect 0 [])
    return self

def run (turns : List Turn) (self : LockedSystem) : Clocked LockedSystem := turns.foldlM turn self

end LockedSystem
end SimpleKv
