import SimpleKv.Lib.Journal
import SimpleKv.FailuresSerial
import SimpleKv.Restore

/- `serve`, over any number of crashes: the file of the log, and the server that runs on it
   with its clients, if one does. A turn of the server may come with a failure of the
   operating system. A thread syncs the file now and then; a crash ends the server and all
   its connections, and cuts the file anywhere behind what was synced. -/
namespace SimpleKv
open Outcome Command

structure Service where
  file : Journal UInt8
  server : Option System

namespace Service

inductive Event where
  /-- The clients that connect to the server later are there from the start. -/
  | start (now : UInt64) (hasher : Bytes → UInt64) (sources : List Source)
  | turn (taken : Turn) (failure : Option IoFailure) (clock : Clock)
  | sync
  | crash (kept : Nat)

/-- No server runs yet, and the file is empty or not there. -/
def initial : Service := ⟨.empty, none⟩

/-- A `from_wal` that panics leaves the file as it is. What a turn logs comes to the end of
    the file. -/
def Event.run (event : Event) (self : Service) : Rust Service := do
  match event, self.server with
  | .start now hasher sources, none =>
    match runAt now (ServerState.fromWal ⟨self.file.entries⟩ hasher) with
    | .ok state => return { self with server := some (.start state sources) }
    | .error (.expectFailed _) => return self
    | .error f => throw f
  | .turn taken failure clock, some system =>
    let (system, _) ← (system.turnFailing failure taken).run clock
    return { file := self.file.append (system.state.wal.contents.drop self.file.entries.length),
             server := some system }
  | .sync, _ => return { self with file := self.file.sync }
  | .crash kept, _ => return { file := self.file.crash kept, server := none }
  | .start _ _ _, some _ | .turn _ _ _, none => return self

def run (events : List Event) (self : Service) : Rust Service :=
  events.foldlM (fun self event => event.run self) self

end Service

/-! What a turn logs. -/

namespace Attempt

/-- The write, if its append succeeds. -/
def write? (self : Attempt) : Option Command :=
  match self.action with
  | .cleanUp _ => none
  | .exec _ command _ =>
    if command.isWriteOp = true ∧ command.refusal self.failure = none then some command else none

/-- An append that fails leaves nothing of the record. -/
def Untorn (self : Attempt) : Prop :=
  match self.action with
  | .cleanUp _ => True
  | .exec _ command _ =>
    command.refusal self.failure ≠ none → IoFailure.written self.failure command.toBytes = []

end Attempt

/-- The command, if it is a write. -/
def Executed.write? (self : Executed) : Option Command :=
  if self.command.isWriteOp = true then some self.command else none

/-- The writes that are logged are those that are executed without a failure. -/
theorem attempts_write? : ∀ {all : List Attempt} {state state' : ServerState}
    {attempted : List Attempted}, attempts all state = .ok (attempted, state') →
    (attempted.filterMap Attempted.effective?).filterMap Executed.write? =
      all.filterMap Attempt.write?
  | [], state, state', attempted, h => by
    cases h
    rfl
  | ⟨.cleanUp clock, failure⟩ :: all, state, state', attempted, h => by
    rw [attempts] at h
    obtain ⟨⟨⟨removed, next⟩, clock'⟩, _, h⟩ := bind_eq_ok.mp h
    have hrest : attempts all next = .ok (attempted, state') := h
    rw [List.filterMap_cons]
    exact attempts_write? hrest
  | ⟨.exec client command clock, failure⟩ :: all, state, state', attempted, h => by
    rw [attempts] at h
    obtain ⟨⟨⟨response, next⟩, clock'⟩, _, h⟩ := bind_eq_ok.mp h
    obtain ⟨⟨rest, last⟩, hrest, h⟩ := bind_eq_ok.mp h
    cases h
    have ih := attempts_write? hrest
    have hwrite? : Attempt.write? ⟨.exec client command clock, failure⟩ =
        if command.isWriteOp = true ∧ command.refusal failure = none then some command else none := rfl
    rw [List.filterMap_cons, List.filterMap_cons, hwrite?]
    unfold Attempted.effective? Attempted.refusal
    cases hrefusal : command.refusal failure with
    | some error =>
      rw [if_neg (fun h => by cases h.2)]
      exact ih
    | none =>
      show List.filterMap Executed.write? (⟨client, command, response⟩ :: _) = _
      rw [List.filterMap_cons]
      unfold Executed.write?
      by_cases hwrite : command.isWriteOp = true
      · rw [if_pos hwrite, if_pos ⟨hwrite, rfl⟩]
        exact congrArg (command :: ·) ih
      · rw [if_neg hwrite, if_neg (fun h => hwrite h.1)]
        exact ih

/-- The write of the turn, if it is in the log afterwards. -/
def Moment.write? (self : Moment × Option IoFailure) : Option Command :=
  (Moment.attempt self).bind Attempt.write?

/-- What one attempt adds to the log is the record of its write, unless it is torn. -/
theorem attempt_logged {attempt : Attempt} (huntorn : attempt.Untorn) {state state' : ServerState}
    {new : List Attempted} (h : attempts [attempt] state = .ok (new, state')) :
    state'.wal.contents = state.wal.contents ++ records attempt.write?.toList := by
  obtain ⟨action, failure⟩ := attempt
  obtain ⟨hwal, _, _⟩ := @attempts_spec _ _ state _ _ h rfl
  cases action with
  | cleanUp clock =>
    rw [attempts] at h
    obtain ⟨⟨⟨removed, next⟩, clock'⟩, _, h⟩ := bind_eq_ok.mp h
    cases h
    exact hwal
  | exec client command clock =>
    rw [attempts] at h
    obtain ⟨⟨⟨response, next⟩, clock'⟩, _, h⟩ := bind_eq_ok.mp h
    cases h
    rw [hwal]
    congr 1
    show Attempted.logged _ ++ [] = _
    rw [List.append_nil]
    have hwrite? : Attempt.write? ⟨.exec client command clock, failure⟩ =
        if command.isWriteOp = true ∧ command.refusal failure = none then some command else none := rfl
    rw [hwrite?]
    by_cases hwrite : command.isWriteOp = true
    · by_cases haccepted : command.refusal failure = none
      · have hlogged := @Attempted.logged_of_accepted ⟨⟨client, command, response⟩, failure⟩ haccepted
        rw [if_pos ⟨hwrite, haccepted⟩, hlogged, Executed.logged, if_pos hwrite]
        exact (List.append_nil _).symm
      · rw [if_neg (fun h => haccepted h.2), Attempted.logged, if_pos hwrite]
        exact huntorn haccepted
    · rw [if_neg (fun h => hwrite h.1), Attempted.logged, if_neg hwrite]
      rfl

namespace System

/-- From one system to another by turns, taken at these moments. -/
inductive Turns (first : System) : List (Moment × Option IoFailure) → System → Prop where
  | refl : Turns first [] first
  | snoc {moments : List (Moment × Option IoFailure)} {system system' : System} {turn : Turn}
      {failure : Option IoFailure} {clock clock' : Clock} : Turns first moments system →
      (system.turnFailing failure turn).run clock = .ok (system', clock') →
      Turns first (moments ++ [(⟨turn, system, clock⟩, failure)]) system'

variable {first system : System} {moments : List (Moment × Option IoFailure)}

/-- What the turns hand to the state, they do on their own. -/
theorem Turns.attends {sources : List Source} {all : List Moment} (h : first.Turns moments system)
    (hfirst : first.Attends sources all [] []) : moments.map Prod.fst ⊆ all →
    ∃ attempted, attempts (moments.filterMap Moment.attempt) first.state =
      .ok (attempted, system.state) ∧ system.Attends sources all moments attempted := by
  induction h with
  | refl => exact fun _ => ⟨[], rfl, hfirst⟩
  | @snoc moments system system' turn failure clock clock' _ hturn ih =>
    intro hall
    rw [List.map_append] at hall
    obtain ⟨attempted, hattempts, hattends⟩ := ih (fun m hm => hall (List.mem_append_left _ hm))
    have hmem : ⟨turn, system, clock⟩ ∈ all := hall (by simp)
    obtain ⟨new, hnew, hattends'⟩ := (turnFailing_attends hattends failure hmem).of_ok hturn
    refine ⟨attempted ++ new, ?_, ?_⟩
    · rw [List.filterMap_append]
      refine attempts_append hattempts ?_
      rw [List.filterMap_cons]
      cases hattempt : Moment.attempt (⟨turn, system, clock⟩, failure) with
      | none =>
        rw [hattempt] at hnew
        exact hnew
      | some attempt =>
        rw [hattempt] at hnew
        exact hnew
    · exact hattends'

/-- The server has done what it does when it executes the commands and clean-ups of the
    moments one after the other, in the order they took the lock and with the clock they found
    there, and the same appends fail: those commands are answered with the error, and the key
    store is the one the others lead to without them. The writes among these are logged, in
    this order. Of the requests of a client's stream,
    each handled one was parsed once, at a turn of the client, and handed over once if it
    parsed, in the order of the stream, and was answered with its error or with that response.
    A read that fails ends the connection, with its error as the last response; if none does,
    the stream is handled to its end after enough turns of the client. -/
def Linearized (state : ServerState) (sources : List Source)
    (moments : List (Moment × Option IoFailure)) (system : System) : Prop :=
  let all := moments.filterMap Moment.attempt
  ∃ attempted final, attempts all state = .ok (attempted, system.state) ∧
    (∀ entry ∈ attempted, ∀ error, entry.refusal = some error →
      entry.executed.response = .error error.text) ∧
    sequential (all.filterMap Attempt.effective?) state =
      .ok (attempted.filterMap Attempted.effective?, final) ∧
    system.state.keyStore = final.keyStore ∧
    (attempted.filterMap Attempted.effective?).filterMap Executed.write? =
      moments.filterMap Moment.write? ∧
    ∀ i source, sources[i]? = some source → ∃ connection requests ending handled rest verdicts,
      system.connections[i]? = some connection ∧
      Reader.readAll RequestReader.readNext (RequestReader.new source) = .ok (requests, ending) ∧
      connection.Attended (ParsedAt (moments.map Prod.fst) i)
        ((attempted.map Attempted.executed).filterMap (Executed.from? i)) requests ending
        (lostReads i moments) (sends i moments) handled rest verdicts ∧
      (4 * requests.length + 2 ≤ turnsOf i (taken moments) ∨ connection.phase = .closed →
        connection.Over requests ending (lostReads i moments) handled verdicts)

theorem Turns.linearized {state : ServerState} {sources : List Source}
    (h : (start state sources).Turns moments system) (hstate : Sized state.keyStore)
    (hne : ∀ source ∈ sources, ∀ chunk ∈ source, chunk ≠ []) :
    Linearized state sources moments system := by
  obtain ⟨attempted, hattempts, hattends⟩ :=
    h.attends (start_attends hstate hne) (List.Subset.refl (moments.map Prod.fst))
  obtain ⟨_, hrefused, final, hsequential, hkeyStore⟩ := attempts_spec hattempts rfl
  refine ⟨attempted, final, hattempts, hrefused, hsequential, hkeyStore.symm, ?_, ?_⟩
  · rw [attempts_write? hattempts, List.filterMap_filterMap]
    rfl
  · intro i source hsource
    exact hattends.client hne hsource

end System
end SimpleKv
