import SimpleKv.CleanUp
import SimpleKv.Failures

/- One order for all clients, whatever fails. Reads and sends that fail concern one
   connection only, and an append that fails takes its command out of the order: the key
   store is the one the other commands and the clean-ups lead to, one after the other.
   Each client is answered as if it were alone with the store, the commands refused with
   the error of their append, and its bytes are these answers, each cut at most once for a
   send that failed (`run_serializes_failing`). -/
namespace SimpleKv
open Outcome Incremental Request Reader

/-! Sequential execution, with appends that fail. -/

/-- The error of the append of `command`. -/
def Command.refusal (command : Command) (failure : Option IoFailure) : Option IoError :=
  if command.isWriteOp then (failure.bind (fun f => f.append command.toBytes)).map Prod.snd else none

/-- An action under a failure. -/
structure Attempt where
  action : Action
  failure : Option IoFailure

/-- A command that has been handed to the state, with the response. -/
structure Attempted where
  executed : Executed
  failure : Option IoFailure

/-- The action, unless it is a command whose append fails. -/
def Attempt.effective? (self : Attempt) : Option Action :=
  match self.action with
  | .cleanUp clock => some (.cleanUp clock)
  | .exec client command clock =>
    match command.refusal self.failure with
    | none => some (.exec client command clock)
    | some _ => none

namespace Attempted

def refusal (self : Attempted) : Option IoError := self.executed.command.refusal self.failure

/-- The command, unless its append failed. -/
def effective? (self : Attempted) : Option Executed :=
  match self.refusal with
  | none => some self.executed
  | some _ => none

/-- What the log has of the command. -/
def logged (self : Attempted) : Bytes :=
  if self.executed.command.isWriteOp then
    IoFailure.written self.failure self.executed.command.toBytes
  else []

end Attempted

/-- The actions one after the other, by one client, under the same failures. -/
def attempts : List Attempt → ServerState → Rust (List Attempted × ServerState)
  | [], state => return ([], state)
  | ⟨.exec client command clock, failure⟩ :: rest, state => do
    let ((response, state), _) ←
      (state.execute command (failure.bind (fun f => f.append command.toBytes))).run clock
    let (attempted, state) ← attempts rest state
    return (⟨⟨client, command, response⟩, failure⟩ :: attempted, state)
  | ⟨.cleanUp clock, _⟩ :: rest, state => do
    let ((_, state), _) ← state.removeExpired.run clock
    attempts rest state

theorem IoFailure.append_eq_none {failure : Option IoFailure} {bytes : Bytes}
    (h : failure.bind (fun f => f.append bytes) = none) : IoFailure.written failure bytes = bytes := by
  cases failure with
  | none => rfl
  | some failure =>
    show bytes.take failure.done = bytes
    have happend : failure.append bytes = none := h
    unfold append at happend
    split at happend
    · cases happend
    · exact List.take_of_length_le (Nat.le_of_not_lt ‹_›)

theorem IoFailure.append_eq_some {failure : Option IoFailure} {bytes : Bytes}
    {written : Fin bytes.length} {error : IoError}
    (h : failure.bind (fun f => f.append bytes) = some (written, error)) :
    IoFailure.written failure bytes = bytes.take written := by
  cases failure with
  | none => cases h
  | some failure =>
    have happend : failure.append bytes = some (written, error) := h
    unfold append at happend
    split at happend
    · cases happend
      rfl
    · cases happend

namespace ServerState

/-- An accepted command is executed as if nothing could fail. -/
theorem execute_accepted {command : Command} {failure : Option IoFailure}
    (h : command.refusal failure = none) (self : ServerState) :
    self.execute command (failure.bind (fun f => f.append command.toBytes)) =
      self.execute command none := by
  unfold Command.refusal at h
  by_cases hwrite : command.isWriteOp = true
  · rw [if_pos hwrite] at h
    rw [Option.map_eq_none_iff.mp h]
  · unfold execute
    simp only [if_neg hwrite]

/-- A refused one leaves the key store alone, and a part of its record in the log. -/
theorem execute_refused {command : Command} {failure : Option IoFailure} {error : IoError}
    (h : command.refusal failure = some error) (self : ServerState) :
    self.execute command (failure.bind (fun f => f.append command.toBytes)) =
      return (.error error.text, ⟨⟨self.wal.contents ++
        IoFailure.written failure command.toBytes⟩, self.keyStore⟩) := by
  unfold Command.refusal at h
  by_cases hwrite : command.isWriteOp = true
  · rw [if_pos hwrite] at h
    obtain ⟨⟨written, error'⟩, hfailed, rfl⟩ := Option.map_eq_some_iff.mp h
    unfold execute
    rw [if_pos hwrite, IoFailure.append_eq_some hfailed, hfailed]
    rfl
  · rw [if_neg hwrite] at h
    cases h

/-- The log is not read. -/
theorem execute_congr {self other : ServerState} (h : other.keyStore = self.keyStore)
    {command : Command} {clock clock' : Clock} {response : Response} {self' : ServerState}
    (hrun : (self.execute command none).run clock = .ok ((response, self'), clock')) :
    ∃ other', (other.execute command none).run clock = .ok ((response, other'), clock') ∧
      other'.keyStore = self'.keyStore := by
  unfold execute at hrun ⊢
  by_cases hwrite : command.isWriteOp = true
  · simp only [if_pos hwrite, write, AppendOnlyFile.append, StateT.run_bind] at hrun ⊢
    rw [h]
    obtain ⟨⟨⟨response', keyStore⟩, clock''⟩, happly, hpure⟩ := bind_eq_ok.mp hrun
    rw [happly]
    cases hpure
    exact ⟨_, rfl, rfl⟩
  · simp only [if_neg hwrite, read, StateT.run_bind] at hrun ⊢
    rw [h]
    obtain ⟨⟨response', clock''⟩, happly, hpure⟩ := bind_eq_ok.mp hrun
    rw [happly]
    cases hpure
    exact ⟨_, rfl, h⟩

theorem removeExpired_congr {self other : ServerState} (h : other.keyStore = self.keyStore)
    {clock clock' : Clock} {removed : ℕ} {self' : ServerState}
    (hrun : self.removeExpired.run clock = .ok ((removed, self'), clock')) :
    ∃ other', other.removeExpired.run clock = .ok ((removed, other'), clock') ∧
      other'.keyStore = self'.keyStore := by
  unfold removeExpired at hrun ⊢
  simp only [StateT.run_bind] at hrun ⊢
  rw [h]
  obtain ⟨⟨keys, clock''⟩, hkeys, hrest⟩ := bind_eq_ok.mp hrun
  obtain ⟨⟨keyStore, clock'''⟩, hstore, hpure⟩ := bind_eq_ok.mp hrest
  rw [hkeys, ok_bind, hstore]
  cases hpure
  exact ⟨_, rfl, rfl⟩

end ServerState

namespace Attempted

theorem logged_of_accepted {self : Attempted} (h : self.refusal = none) :
    self.logged = self.executed.logged := by
  unfold refusal Command.refusal at h
  unfold logged Executed.logged
  by_cases hwrite : self.executed.command.isWriteOp = true
  · rw [if_pos hwrite] at h
    rw [if_pos hwrite, if_pos hwrite, IoFailure.append_eq_none (Option.map_eq_none_iff.mp h)]
  · rw [if_neg hwrite, if_neg hwrite]

end Attempted

/-- What one attempt adds to the log. -/
theorem execute_logged {client : ℕ} {command : Command} {failure : Option IoFailure}
    {state state' : ServerState} {response : Response} {clock clock' : Clock}
    (hrun : (state.execute command (failure.bind (fun f => f.append command.toBytes))).run clock =
      .ok ((response, state'), clock')) :
    state'.wal.contents =
      state.wal.contents ++ Attempted.logged ⟨⟨client, command, response⟩, failure⟩ := by
  cases hrefusal : command.refusal failure with
  | some error =>
    have hwrite : command.isWriteOp = true := by
      by_contra hread
      rw [Command.refusal, if_neg hread] at hrefusal
      cases hrefusal
    rw [ServerState.execute_refused hrefusal] at hrun
    cases hrun
    rw [Attempted.logged, if_pos hwrite]
  | none =>
    have haccepted : Attempted.refusal ⟨⟨client, command, response⟩, failure⟩ = none := hrefusal
    rw [ServerState.execute_accepted hrefusal] at hrun
    rw [Attempted.logged_of_accepted haccepted]
    exact (state.execute_wal command).of_ok hrun

theorem attempts_append : ∀ {first : List Attempt} {state state' : ServerState}
    {attempted : List Attempted}, attempts first state = .ok (attempted, state') →
    ∀ {second : List Attempt} {state'' : ServerState} {attempted' : List Attempted},
      attempts second state' = .ok (attempted', state'') →
      attempts (first ++ second) state = .ok (attempted ++ attempted', state'')
  | [], _, _, _, h, _, _, _, h' => by
    cases h
    exact h'
  | ⟨.exec client command clock, failure⟩ :: first, state, state', attempted, h, second, state'',
      attempted', h' => by
    rw [attempts] at h
    rw [List.cons_append, attempts]
    obtain ⟨⟨⟨response, next⟩, clock'⟩, hrun, h⟩ := bind_eq_ok.mp h
    obtain ⟨⟨attempted, last⟩, hfirst, h⟩ := bind_eq_ok.mp h
    cases h
    rw [hrun, ok_bind]
    simp only [attempts_append hfirst h']
    rfl
  | ⟨.cleanUp clock, failure⟩ :: first, state, state', attempted, h, second, state'', attempted',
      h' => by
    rw [attempts] at h
    rw [List.cons_append, attempts]
    obtain ⟨r, hrun, h⟩ := bind_eq_ok.mp h
    rw [hrun, ok_bind]
    exact attempts_append h h'

/-- What the attempts come to: the log has the records of the writes, or the parts of them
    that were written, the commands whose append failed are answered with its error, and the
    key store is the one the others lead to without them. -/
theorem attempts_spec : ∀ {all : List Attempt} {state other state' : ServerState}
    {attempted : List Attempted}, attempts all state = .ok (attempted, state') →
    other.keyStore = state.keyStore →
    state'.wal.contents = state.wal.contents ++ attempted.flatMap Attempted.logged ∧
    (∀ entry ∈ attempted, ∀ error, entry.refusal = some error →
      entry.executed.response = .error error.text) ∧
    ∃ other', sequential (all.filterMap Attempt.effective?) other =
        .ok (attempted.filterMap Attempted.effective?, other') ∧
      other'.keyStore = state'.keyStore
  | [], state, other, state', attempted, h, hother => by
    cases h
    exact ⟨by simp, by simp, other, rfl, hother⟩
  | ⟨.exec client command clock, failure⟩ :: all, state, other, state', attempted, h, hother => by
    rw [attempts] at h
    obtain ⟨⟨⟨response, next⟩, clock'⟩, hrun, h⟩ := bind_eq_ok.mp h
    obtain ⟨⟨attempted, last⟩, hrest, h⟩ := bind_eq_ok.mp h
    cases h
    have hlogged := @execute_logged client _ _ _ _ _ _ _ hrun
    cases hrefusal : command.refusal failure with
    | some error =>
      rw [ServerState.execute_refused hrefusal] at hrun
      cases hrun
      obtain ⟨hwal, hrefused, other', hsequential, hkeyStore⟩ := attempts_spec hrest hother
      refine ⟨by rw [hwal, hlogged, List.flatMap_cons, List.append_assoc], ?_, other', ?_, hkeyStore⟩
      · intro entry hentry error' herror
        rcases List.mem_cons.mp hentry with rfl | hentry
        · rw [Attempted.refusal, hrefusal] at herror
          cases herror
          rfl
        · exact hrefused entry hentry error' herror
      · have haction : Attempt.effective? ⟨.exec client command clock, failure⟩ = none := by
          simp only [Attempt.effective?, hrefusal]
        have hentry : Attempted.effective? ⟨⟨client, command, .error error.text⟩, failure⟩ = none := by
          simp only [Attempted.effective?, Attempted.refusal, hrefusal]
        rw [List.filterMap_cons_none haction, List.filterMap_cons_none hentry]
        exact hsequential
    | none =>
      rw [ServerState.execute_accepted hrefusal] at hrun
      obtain ⟨other', hrun', hother'⟩ := ServerState.execute_congr hother hrun
      obtain ⟨hwal, hrefused, other'', hsequential, hkeyStore⟩ := attempts_spec hrest hother'
      refine ⟨by rw [hwal, hlogged, List.flatMap_cons, List.append_assoc], ?_, other'', ?_, hkeyStore⟩
      · intro entry hentry error' herror
        rcases List.mem_cons.mp hentry with rfl | hentry
        · rw [Attempted.refusal, hrefusal] at herror
          cases herror
        · exact hrefused entry hentry error' herror
      · have haction : Attempt.effective? ⟨.exec client command clock, failure⟩ =
            some (.exec client command clock) := by
          simp only [Attempt.effective?, hrefusal]
        have hentry : Attempted.effective? ⟨⟨client, command, response⟩, failure⟩ =
            some ⟨client, command, response⟩ := by
          simp only [Attempted.effective?, Attempted.refusal, hrefusal]
        rw [List.filterMap_cons_some haction, List.filterMap_cons_some hentry, sequential, hrun',
          ok_bind]
        simp only [hsequential]
        rfl
  | ⟨.cleanUp clock, failure⟩ :: all, state, other, state', attempted, h, hother => by
    rw [attempts] at h
    obtain ⟨⟨⟨removed, next⟩, clock'⟩, hrun, hrest⟩ := bind_eq_ok.mp h
    obtain ⟨other', hrun', hother'⟩ := ServerState.removeExpired_congr hother hrun
    obtain ⟨hwal, hrefused, other'', hsequential, hkeyStore⟩ := attempts_spec hrest hother'
    refine ⟨?_, hrefused, other'', ?_, hkeyStore⟩
    · have hstep : next.wal = state.wal := state.removeExpired_wal.of_ok hrun
      rw [hwal, hstep]
    · have haction : Attempt.effective? ⟨.cleanUp clock, failure⟩ = some (.cleanUp clock) := rfl
      rw [List.filterMap_cons_some haction, sequential, hrun', ok_bind]
      exact hsequential

/-! One connection. -/

namespace Connection

/-- The error of the read, if the next step is a read that fails. -/
def lostRead? (failure : Option IoFailure) (self : Connection) : Option IoError :=
  match self.phase with
  | .reading =>
    match self.requestReader.readNextFailing failure with
    | .ok (.error (.io e), _) => some e
    | _ => none
  | _ => none

/-- The failure that meets the send, if the next step is one. -/
def send? (failure : Option IoFailure) (self : Connection) : Option (Option IoFailure) :=
  match self.phase with
  | .sending _ _ => some failure
  | _ => none

/-- `outbound` is the responses `sent` one after the other, each as far as its send has
    come. -/
def Wired (sends : List (Option IoFailure)) (sent : List Response) (outbound : Bytes) : Prop :=
  sends.length = sent.length ∧ outbound =
    (List.zipWith (fun failure response => IoFailure.written failure response.toBytes) sends sent).flatten

/-- What fails at a send goes no further than to the bytes of its response. -/
theorem Wired.written {sends : List (Option IoFailure)} {sent : List Response} {outbound : Bytes}
    (h : Wired sends sent outbound) (failure : Option IoFailure) (response : Response) :
    Wired (sends ++ [failure]) (sent ++ [response])
      (outbound ++ IoFailure.written failure response.toBytes) := by
  obtain ⟨hlen, rfl⟩ := h
  refine ⟨by simp [hlen], ?_⟩
  rw [List.zipWith_append hlen, List.flatten_append]
  simp

/-- What is sent after the answers when the connection ends: what the end of the stream calls
    for, or the error of a read that failed. -/
def Ending (requests : List Request) (ending : Option RequestParseError) (lost : List IoError)
    (accepted : List Request) (last : List Response) : Prop :=
  (lost = [] ∧ accepted = requests ∧ last = farewell ending) ∨
    ∃ e, lost = [e] ∧ accepted <+: requests ∧ last = [.error (ReadError.io e).toString]

theorem Ending.handled {requests accepted : List Request} {ending : Option RequestParseError}
    {lost : List IoError} {last : List Response} (h : Ending requests ending lost accepted last) :
    ∃ rest, requests = accepted ++ rest := by
  rcases h with ⟨_, rfl, _⟩ | ⟨_, _, ⟨rest, rfl⟩, _⟩
  · exact ⟨[], (List.append_nil _).symm⟩
  · exact ⟨rest, rfl⟩

/-- The connection has the stream of `requests` ending in `d`, has had the failed reads `lost`
    and the `sends`, and closes within `k` of its steps. A read that fails is its last. -/
def Attends (requests : List Request) (d : End RequestParseError) (lost : List IoError)
    (sends : List (Option IoFailure)) (k : ℕ) (self : Connection) : Prop :=
  Wired sends self.sent self.outbound ∧
    match self.phase with
    | .reading => lost = [] ∧ ∃ rest, self.requestReader.Upcoming rest d ∧
        requests = self.accepted ++ rest ∧ self.sent.length = self.accepted.length ∧
        4 * rest.length + 2 ≤ k
    | .parsing request => lost = [] ∧ ∃ rest, self.requestReader.Upcoming rest d ∧
        requests = self.accepted ++ rest ∧ self.sent.length + 1 = self.accepted.length ∧
        request ∈ self.accepted ∧ 4 * rest.length + 5 ≤ k
    | .executing command => lost = [] ∧ ∃ rest, self.requestReader.Upcoming rest d ∧
        requests = self.accepted ++ rest ∧ self.sent.length + 1 = self.accepted.length ∧
        command.WellSized ∧ 4 * rest.length + 4 ≤ k
    | .sending _ false => lost = [] ∧ ∃ rest, self.requestReader.Upcoming rest d ∧
        requests = self.accepted ++ rest ∧ self.sent.length + 1 = self.accepted.length ∧
        4 * rest.length + 3 ≤ k
    | .sending response true => self.sent.length = self.accepted.length ∧
        Ending requests (errorOf .unexpectedEof d) lost self.accepted [response] ∧ 1 ≤ k
    | .closed => ∃ answers last, self.sent = answers ++ last ∧
        answers.length = self.accepted.length ∧
        Ending requests (errorOf .unexpectedEof d) lost self.accepted last

theorem stepFailing_attends {requests : List Request} {d : End RequestParseError}
    (hlimits : ∀ request ∈ requests, request.WithinLimits) {lost : List IoError}
    {sends : List (Option IoFailure)} {k : ℕ} {self : Connection}
    (h : self.Attends requests d lost sends k) {state : ServerState} (hstate : Sized state.keyStore)
    (failure : Option IoFailure) :
    CompletesAlways (self.stepFailing failure state) (fun (self', state') =>
      self'.Attends requests d (lost ++ (self.lostRead? failure).toList)
        (sends ++ (self.send? failure).toList) (k - 1) ∧ Sized state'.keyStore) := by
  obtain ⟨hwired, hphase⟩ := h
  unfold stepFailing lostRead? send?
  cases hp : self.phase with
  | reading =>
    simp only [hp, Option.toList_none, List.append_nil] at hphase ⊢
    obtain ⟨rfl, rest, ⟨hready, hdrains⟩, hrequests, hsent, hk⟩ := hphase
    have hread := Reader.readNextFailing_advances RequestDecoder.decodes failure hready hdrains
    intro clock
    cases hrun : self.requestReader.readNextFailing failure with
    | error f => exact (hread.of_error hrun).elim
    | ok r =>
      obtain ⟨result, reader⟩ := r
      have hadvances := hread.of_ok hrun
      rw [ServerState.liftM_bind rfl]
      cases result with
      | ok value =>
        cases value with
        | none =>
          obtain ⟨rfl, hending⟩ := hadvances
          rw [List.append_nil] at hrequests
          refine ⟨⟨hwired, self.sent, [], (List.append_nil _).symm, hsent, .inl ?_⟩, hstate⟩
          rw [hending]
          exact ⟨rfl, hrequests.symm, rfl⟩
        | some request =>
          obtain ⟨rest, rfl, hready, hrest⟩ := hadvances
          rw [List.length_cons] at hk
          refine ⟨⟨hwired, rfl, rest, ⟨hready, hrest⟩, ?_, ?_, by simp, by omega⟩, hstate⟩
          · rw [hrequests, List.append_assoc, List.singleton_append]
          · rw [List.length_append, hsent]
            rfl
      | error e =>
        cases e with
        | decoder e =>
          obtain ⟨rfl, hending⟩ := hadvances
          rw [List.append_nil] at hrequests
          refine ⟨⟨hwired, hsent, .inl ⟨rfl, hrequests.symm, ?_⟩, by omega⟩, hstate⟩
          rw [hending]
          rfl
        | io e =>
          refine ⟨⟨hwired, hsent, .inr ⟨e, rfl, ?_, rfl⟩, by omega⟩, hstate⟩
          rw [hrequests]
          exact List.prefix_append _ _
  | parsing request =>
    simp only [hp, Option.toList_none, List.append_nil] at hphase ⊢
    obtain ⟨hlost, rest, hupcoming, hrequests, hsent, hmem, hk⟩ := hphase
    apply YieldsAlways.bind (ServerState.tryFrom_always request)
    intro result hresult
    obtain ⟨now, rfl⟩ := hresult
    cases hc : request.command now with
    | error e =>
      exact YieldsAlways.pure ⟨⟨hwired, hlost, rest, hupcoming, hrequests, hsent, by omega⟩, hstate⟩
    | ok command =>
      have hwithin := hlimits request (by rw [hrequests]; exact List.mem_append_left _ hmem)
      exact YieldsAlways.pure ⟨⟨hwired, hlost, rest, hupcoming, hrequests, hsent,
        Command.wellSized_of_command hwithin hc, by omega⟩, hstate⟩
  | executing command =>
    simp only [hp, Option.toList_none, List.append_nil] at hphase ⊢
    obtain ⟨hlost, rest, hupcoming, hrequests, hsent, hsized, hk⟩ := hphase
    apply YieldsAlways.bind (ServerState.execute_sized hstate hsized _)
    intro (response, state') hstate'
    exact YieldsAlways.pure ⟨⟨hwired, hlost, rest, hupcoming, hrequests, hsent, by omega⟩, hstate'⟩
  | sending response last =>
    have hwritten := hwired.written failure response
    cases last with
    | false =>
      simp only [hp, Option.toList_none, List.append_nil, Option.toList_some] at hphase ⊢
      obtain ⟨hlost, rest, hupcoming, hrequests, hsent, hk⟩ := hphase
      have hlen : (self.sent ++ [response]).length = self.accepted.length :=
        List.length_append.trans hsent
      exact YieldsAlways.pure ⟨⟨hwritten, hlost, rest, hupcoming, hrequests, hlen, by omega⟩, hstate⟩
    | true =>
      simp only [hp, Option.toList_none, List.append_nil, Option.toList_some] at hphase ⊢
      obtain ⟨hsent, hending, hk⟩ := hphase
      exact YieldsAlways.pure ⟨⟨hwritten, self.sent, [response], rfl, hsent, hending⟩, hstate⟩
  | closed =>
    simp only [hp, Option.toList_none, List.append_nil] at hphase ⊢
    refine YieldsAlways.pure ⟨⟨hwired, ?_⟩, hstate⟩
    simp only [hp]
    exact hphase

/-- Where nothing is read and nothing sent, nothing can fail. -/
theorem stepFailing_eq_step {self : Connection} (failure : Option IoFailure) (state : ServerState)
    (h : self.phase = .closed ∨ ∃ request, self.phase = .parsing request) :
    self.stepFailing failure state = self.step state := by
  obtain ⟨reader, outbound, phase, accepted, sent⟩ := self
  rcases h with h | ⟨request, h⟩
  · cases h
    rfl
  · cases h
    rfl

variable {parsed : Request → Except CommandError Command → Prop}
  {executed : List (Command × Response)} {self : Connection}

/-- A step under the lock settles a request, also if the append fails. -/
theorem Ledger.stepFailing_executing (h : self.Ledger parsed executed) {command : Command}
    (hphase : self.phase = .executing command) (failure : Option IoFailure) (state : ServerState)
    (clock : Clock) :
    Yields (fun _ => True) ((self.stepFailing failure state).run clock)
      (fun ((self', state'), clock') => ∃ response,
        (state.execute command (failure.bind (fun f => f.append command.toBytes))).run clock =
          .ok ((response, state'), clock') ∧
        self'.Ledger parsed (executed ++ [(command, response)])) := by
  obtain ⟨handled, verdicts, hsettled, hledger⟩ := h
  unfold stepFailing
  simp only [hphase] at hledger ⊢
  obtain ⟨⟨request, haccepted, hparsed⟩, hsent⟩ := hledger
  rw [StateT.run_bind]
  cases hrun : (state.execute command (failure.bind (fun f => f.append command.toBytes))).run clock with
  | error e => exact True.intro
  | ok r =>
    obtain ⟨⟨response, state'⟩, clock'⟩ := r
    have hverdict : parsed request (Verdict.executed command response).parsed := hparsed
    have hmore : Settled parsed (executed ++ [(command, response)]) (handled ++ [request])
        (verdicts ++ [.executed command response]) := hsettled.snoc hverdict
    refine ⟨response, rfl, _, _, hmore, haccepted, ?_⟩
    rw [List.map_append, ← hsent]
    rfl

theorem Ledger.stepFailing_other (h : self.Ledger parsed executed)
    (hphase : ∀ command, self.phase ≠ .executing command) (failure : Option IoFailure)
    (state : ServerState) (clock : Clock)
    (hparse : ∀ request result clock', self.phase = .parsing request →
      (Command.tryFrom request).run clock = .ok (result, clock') → parsed request result) :
    Yields (fun _ => True) ((self.stepFailing failure state).run clock)
      (fun ((self', state'), _) => state' = state ∧ self'.Ledger parsed executed) := by
  cases hp : self.phase with
  | reading =>
    obtain ⟨handled, verdicts, hsettled, hledger⟩ := h
    unfold stepFailing
    simp only [hp] at hledger ⊢
    obtain ⟨haccepted, hsent⟩ := hledger
    cases hread : self.requestReader.readNextFailing failure with
    | error e => exact True.intro
    | ok r =>
      obtain ⟨result, reader⟩ := r
      rw [ServerState.liftM_bind rfl]
      cases result with
      | error e => exact ⟨rfl, handled, verdicts, hsettled, haccepted, hsent⟩
      | ok found =>
        cases found with
        | none => exact ⟨rfl, handled, verdicts, hsettled, haccepted, [], by simp [hsent]⟩
        | some request =>
          exact ⟨rfl, handled, verdicts, hsettled, by rw [haccepted], hsent⟩
  | executing command => exact absurd hp (hphase command)
  | sending response last =>
    obtain ⟨handled, verdicts, hsettled, hledger⟩ := h
    unfold stepFailing
    simp only [hp] at hledger ⊢
    cases last with
    | false =>
      obtain ⟨haccepted, hsent⟩ := hledger
      exact ⟨rfl, handled, verdicts, hsettled, haccepted, hsent⟩
    | true =>
      obtain ⟨haccepted, hsent⟩ := hledger
      refine ⟨rfl, handled, verdicts, hsettled, haccepted, [response], ?_⟩
      rw [← hsent]
      rfl
  | parsing request =>
    rw [stepFailing_eq_step failure state (.inr ⟨request, hp⟩)]
    exact h.step_other hphase state clock hparse
  | closed =>
    rw [stepFailing_eq_step failure state (.inl hp)]
    exact h.step_other hphase state clock hparse

end Connection

/-! The system. -/

/-- What the turn hands to the state. -/
def Moment.attempt (self : Moment × Option IoFailure) : Option Attempt :=
  self.1.action.map (fun action => ⟨action, self.2⟩)

namespace System

/-- The turns of a run, up to one that stops it. -/
def momentsFailing : List (Turn × Option IoFailure) → System → Clock →
    List (Moment × Option IoFailure)
  | [], _, _ => []
  | turn :: turns, self, clock =>
    (⟨turn.1, self, clock⟩, turn.2) :: match (self.turnFailing turn.2 turn.1).run clock with
      | .ok (self, clock) => momentsFailing turns self clock
      | .error _ => []

/-- The turns, each with its failure. -/
def taken (moments : List (Moment × Option IoFailure)) : List (Turn × Option IoFailure) :=
  moments.map (fun moment => (moment.1.turn, moment.2))

/-- The moments of a run are those of its turns. -/
theorem taken_momentsFailing : ∀ {turns : List (Turn × Option IoFailure)} {self self' : System}
    {clock clock' : Clock}, (self.runFailing turns).run clock = .ok (self', clock') →
    taken (momentsFailing turns self clock) = turns
  | [], _, _, _, _, _ => rfl
  | turn :: turns, self, self', clock, clock', hrun => by
    unfold runFailing at hrun
    rw [List.foldlM_cons, StateT.run_bind] at hrun
    obtain ⟨⟨next, clock''⟩, hturn, hrun⟩ := bind_eq_ok.mp hrun
    simp only [momentsFailing, hturn]
    exact congrArg (turn :: ·) (taken_momentsFailing hrun)

/-- The turns of connection `i`. -/
def turnsOf (i : ℕ) (turns : List (Turn × Option IoFailure)) : ℕ :=
  turns.countP (fun turn => turn.1 = .serve i)

/-- What `f` makes of connection `i` and the failure, if the moment is a turn of it. -/
def atTurn? {α : Type} (f : Option IoFailure → Connection → Option α) (i : ℕ)
    (moment : Moment × Option IoFailure) : Option α :=
  if moment.1.turn = .serve i then moment.1.system.connections[i]?.bind (f moment.2) else none

/-- The errors of the reads of connection `i` that failed. -/
def lostReads (i : ℕ) (moments : List (Moment × Option IoFailure)) : List IoError :=
  moments.filterMap (atTurn? Connection.lostRead? i)

/-- The sends of connection `i`, each with its failure. -/
def sends (i : ℕ) (moments : List (Moment × Option IoFailure)) : List (Option IoFailure) :=
  moments.filterMap (atTurn? Connection.send? i)

section AtTurn
variable {α : Type} {f : Option IoFailure → Connection → Option α} {i : ℕ} {self : System}
  {clock : Clock} {failure : Option IoFailure}

theorem atTurn?_serve {connection : Connection} (hi : self.connections[i]? = some connection) :
    atTurn? f i (⟨.serve i, self, clock⟩, failure) = f failure connection := by
  simp [atTurn?, hi]

theorem atTurn?_other {turn : Turn} (h : turn ≠ .serve i) :
    atTurn? f i (⟨turn, self, clock⟩, failure) = none := by
  simp [atTurn?, h]

theorem filterMap_snoc_serve (moments : List (Moment × Option IoFailure)) {connection : Connection}
    (hi : self.connections[i]? = some connection) :
    (moments ++ [(Moment.mk (.serve i) self clock, failure)]).filterMap (atTurn? f i) =
      moments.filterMap (atTurn? f i) ++ (f failure connection).toList := by
  rw [List.filterMap_append, List.filterMap_cons, atTurn?_serve hi]
  cases f failure connection <;> rfl

theorem filterMap_snoc_other (moments : List (Moment × Option IoFailure)) {turn : Turn}
    (h : turn ≠ .serve i) :
    (moments ++ [(Moment.mk turn self clock, failure)]).filterMap (atTurn? f i) =
      moments.filterMap (atTurn? f i) := by
  rw [List.filterMap_append, List.filterMap_cons, atTurn?_other h, List.filterMap_nil,
    List.append_nil]

end AtTurn

/-- Each connection attends to the stream of its client after the turns at `past`, and all have
    their ledgers against what has been attempted so far. -/
structure Attends (sources : List Source) (all : List Moment)
    (past : List (Moment × Option IoFailure)) (attempted : List Attempted) (system : System) :
    Prop where
  sized : Sized system.state.keyStore
  count : system.connections.length = sources.length
  ledgers : system.Ledgers all (attempted.map Attempted.executed)
  connection : ∀ {i : ℕ} {connection : Connection}, system.connections[i]? = some connection →
    ∃ source requests d, sources[i]? = some source ∧ Drains frame source.flatten requests d ∧
      connection.Attends requests d (lostReads i past) (sends i past)
        (4 * requests.length + 2 - turnsOf i (taken past))

variable {sources : List Source} {all : List Moment} {past : List (Moment × Option IoFailure)}
  {attempted : List Attempted} {self : System}

theorem start_attends {state : ServerState} (hstate : Sized state.keyStore)
    (hne : ∀ source ∈ sources, ∀ chunk ∈ source, chunk ≠ []) :
    (start state sources).Attends sources all [] [] where
  sized := hstate
  count := List.length_map _
  ledgers := start_ledgers state sources
  connection {i connection} hi := by
    obtain ⟨source, hsource, rfl⟩ := Option.map_eq_some_iff.mp (List.getElem?_map ▸ hi)
    obtain ⟨requests, d, hd⟩ := RequestReader.exists_drains source.flatten
    have hnew := RequestReader.Upcoming.new (hne source (List.mem_of_getElem? hsource)) hd
    exact ⟨source, requests, d, hsource, hd, ⟨rfl, rfl⟩, rfl, requests, hnew, rfl, rfl, Nat.le_refl _⟩

theorem turnsOf_snoc (i : ℕ) (past : List (Moment × Option IoFailure))
    (moment : Moment × Option IoFailure) :
    turnsOf i (taken (past ++ [moment])) =
      turnsOf i (taken past) + if moment.1.turn = .serve i then 1 else 0 := by
  simp [turnsOf, taken, List.countP_append, List.countP_singleton]

/-- A turn that leaves connection `i` alone, and is not for it. -/
theorem Attends.other (h : self.Attends sources all past attempted) {i : ℕ} {turn : Turn}
    (hturn : turn ≠ .serve i) (system : System) (clock : Clock) (failure : Option IoFailure)
    {connection : Connection} (hi : self.connections[i]? = some connection) :
    ∃ source requests d, sources[i]? = some source ∧ Drains frame source.flatten requests d ∧
      connection.Attends requests d (lostReads i (past ++ [(⟨turn, system, clock⟩, failure)]))
        (sends i (past ++ [(⟨turn, system, clock⟩, failure)]))
        (4 * requests.length + 2 -
          turnsOf i (taken (past ++ [(⟨turn, system, clock⟩, failure)]))) := by
  unfold lostReads sends
  rw [filterMap_snoc_other _ hturn, filterMap_snoc_other _ hturn, turnsOf_snoc, if_neg hturn]
  exact h.connection hi

/-- A turn for connection `i`. -/
theorem Attends.set (h : self.Attends sources all past attempted) {i : ℕ} {first : Connection}
    (hi : self.connections[i]? = some first) {clock : Clock} {failure : Option IoFailure}
    {source : Source} {requests : List Request} {d : End RequestParseError}
    (hsource : sources[i]? = some source) (hd : Drains frame source.flatten requests d)
    {connection : Connection}
    (hattends : connection.Attends requests d (lostReads i past ++ (first.lostRead? failure).toList)
      (sends i past ++ (first.send? failure).toList)
      (4 * requests.length + 2 - turnsOf i (taken past) - 1)) {j : ℕ} {connection' : Connection}
    (hj : (self.connections.set i connection)[j]? = some connection') :
    ∃ source requests d, sources[j]? = some source ∧ Drains frame source.flatten requests d ∧
      connection'.Attends requests d (lostReads j (past ++ [(⟨.serve i, self, clock⟩, failure)]))
        (sends j (past ++ [(⟨.serve i, self, clock⟩, failure)]))
        (4 * requests.length + 2 -
          turnsOf j (taken (past ++ [(⟨.serve i, self, clock⟩, failure)]))) := by
  by_cases heq : i = j
  · subst heq
    rw [List.getElem?_set_self (List.getElem?_eq_some_iff.mp hi).1] at hj
    cases hj
    refine ⟨source, requests, d, hsource, hd, ?_⟩
    unfold lostReads sends
    rw [filterMap_snoc_serve _ hi, filterMap_snoc_serve _ hi, turnsOf_snoc, if_pos rfl,
      ← Nat.sub_sub]
    exact hattends
  · rw [List.getElem?_set_ne heq] at hj
    exact h.other (fun hserve => heq (Turn.serve.inj hserve)) self clock failure hj

/-- A turn does to the state what its attempt does on its own. -/
theorem turnFailing_attends (h : self.Attends sources all past attempted) {turn : Turn}
    (failure : Option IoFailure) {clock : Clock} (hmoment : ⟨turn, self, clock⟩ ∈ all) :
    Completes ((self.turnFailing failure turn).run clock) (fun (self', _) => ∃ new,
      attempts (Moment.attempt (⟨turn, self, clock⟩, failure)).toList self.state =
        .ok (new, self'.state) ∧
      self'.Attends sources all (past ++ [(⟨turn, self, clock⟩, failure)]) (attempted ++ new)) := by
  cases turn with
  | cleanUp =>
    simp only [turnFailing]
    rw [StateT.run_bind]
    have hsafe := ServerState.removeExpired_safe h.sized clock
    cases hrun : self.state.removeExpired.run clock with
    | error e => exact hsafe.of_error hrun
    | ok r =>
      obtain ⟨⟨removed, state⟩, clock'⟩ := r
      have hsized : Sized state.keyStore := hsafe.of_ok hrun
      refine ⟨[], ?_, ?_⟩
      · show attempts [⟨.cleanUp clock, failure⟩] self.state = _
        rw [attempts, hrun]
        rfl
      · have hledgers := h.ledgers
        rw [List.append_nil]
        exact ⟨hsized, h.count, ⟨hledgers.client, hledgers.ledger⟩,
          fun hi => h.other (fun heq => by cases heq) self clock failure hi⟩
  | serve i =>
    cases hi : self.connections[i]? with
    | none =>
      simp only [turnFailing, hi, Moment.attempt, Moment.action_absent hi, Option.map_none]
      refine ⟨[], rfl, ?_⟩
      rw [List.append_nil]
      refine ⟨h.sized, h.count, h.ledgers, fun {j connection} hj => h.other ?_ self clock failure hj⟩
      intro heq
      cases heq
      rw [hi] at hj
      cases hj
    | some connection =>
      have hlen := (List.getElem?_eq_some_iff.mp hi).1
      obtain ⟨source, requests, d, hsource, hd, hattends⟩ := h.connection hi
      have hstep := Connection.stepFailing_attends (ServerState.withinLimits_of_drains hd) hattends
        h.sized failure clock
      simp only [turnFailing, hi]
      rw [StateT.run_bind]
      by_cases hphase : ∃ command, connection.phase = .executing command
      · obtain ⟨command, hphase⟩ := hphase
        have hledger := (h.ledgers.ledger hi).stepFailing_executing hphase failure self.state clock
        apply Yields.bind (hstep.and hledger)
        intro r hpost
        obtain ⟨⟨connection', state'⟩, clock'⟩ := r
        obtain ⟨⟨hattends', hsized⟩, response, hrun, hledger'⟩ := hpost
        refine ⟨[⟨⟨i, command, response⟩, failure⟩], ?_, hsized, ?_, ?_, h.set hi hsource hd hattends'⟩
        · rw [Moment.attempt, Moment.action_executing hi hphase]
          show attempts [⟨.exec i command clock, failure⟩] self.state = _
          rw [attempts, hrun]
          rfl
        · rw [← h.count]
          exact List.length_set
        · rw [List.map_append]
          refine h.ledgers.set hlen (by simp) ?_ state'
          have hmine : Executed.from? i ⟨i, command, response⟩ = some (command, response) := if_pos rfl
          rw [List.filterMap_append]
          show Connection.Ledger _ (_ ++ List.filterMap _ [(⟨i, command, response⟩ : Executed)]) _
          rw [List.filterMap_cons_some hmine]
          exact hledger'
      · have hother : ∀ command, connection.phase ≠ .executing command :=
          fun command hp => hphase ⟨command, hp⟩
        have hparse : ∀ request result clock', connection.phase = .parsing request →
            (Command.tryFrom request).run clock = .ok (result, clock') →
            ParsedAt all i request result := fun request result clock' hp hparse =>
          ⟨_, hmoment, connection, clock', rfl, hi, hp, hparse⟩
        have hledger :=
          (h.ledgers.ledger hi).stepFailing_other hother failure self.state clock hparse
        apply Yields.bind (hstep.and hledger)
        intro r hpost
        obtain ⟨⟨connection', state'⟩, clock'⟩ := r
        obtain ⟨⟨hattends', hsized⟩, rfl, hledger'⟩ := hpost
        refine ⟨[], ?_, hsized, ?_, ?_, h.set hi hsource hd hattends'⟩
        · rw [Moment.attempt, Moment.action_other hi hother]
          rfl
        · rw [← h.count]
          exact List.length_set
        · rw [List.append_nil]
          have hset := @Ledgers.set all _ self h.ledgers i hlen [] (by simp) connection' (by
            rw [List.append_nil]
            exact hledger') self.state
          rw [List.append_nil] at hset
          exact hset

theorem runFailing_attends : ∀ (turns : List (Turn × Option IoFailure))
    {past : List (Moment × Option IoFailure)} {attempted : List Attempted} {self : System}
    {clock : Clock}, (momentsFailing turns self clock).map Prod.fst ⊆ all →
    self.Attends sources all past attempted →
    Completes ((self.runFailing turns).run clock) (fun (self', _) => ∃ new,
      attempts ((momentsFailing turns self clock).filterMap Moment.attempt) self.state =
        .ok (new, self'.state) ∧
      self'.Attends sources all (past ++ momentsFailing turns self clock) (attempted ++ new))
  | [], past, attempted, self, clock, _, h => by
    refine ⟨[], rfl, ?_⟩
    rw [momentsFailing, List.append_nil, List.append_nil]
    exact h
  | (turn, failure) :: turns, past, attempted, self, clock, hall, h => by
    have hmem : ⟨turn, self, clock⟩ ∈ all := hall List.mem_cons_self
    have hturn := turnFailing_attends h failure hmem
    unfold runFailing
    rw [List.foldlM_cons, StateT.run_bind]
    cases hrun : (self.turnFailing failure turn).run clock with
    | error e => exact hturn.of_error hrun
    | ok r =>
      obtain ⟨self', clock'⟩ := r
      obtain ⟨new, hnew, hattends⟩ := hturn.of_ok hrun
      have hmoments : momentsFailing ((turn, failure) :: turns) self clock =
          (⟨turn, self, clock⟩, failure) :: momentsFailing turns self' clock' := by
        simp only [momentsFailing, hrun]
      rw [hmoments] at hall ⊢
      apply Yields.mono (runFailing_attends turns
        (fun moment hm => hall (List.mem_cons_of_mem _ hm)) hattends)
      intro (self'', _) hrest
      obtain ⟨new', hnew', hattends'⟩ := hrest
      refine ⟨new ++ new', ?_, ?_⟩
      · rw [List.filterMap_cons]
        cases hattempt : Moment.attempt (⟨turn, self, clock⟩, failure) with
        | none =>
          rw [hattempt] at hnew
          exact attempts_append hnew hnew'
        | some attempt =>
          rw [hattempt] at hnew
          exact attempts_append hnew hnew'
      · rw [← List.append_assoc, List.append_cons]
        exact hattends'

end System

/-! The streams. -/

namespace Connection
variable {parsed : Request → Except CommandError Command → Prop}
  {executed : List (Command × Response)} {self : Connection}

/-- What became of a stream that holds `requests` before its first error or its end, on a
    connection whose failed reads are `lost`: the requests `handled` have the verdicts, and
    `rest` are to come, unless a read has failed. After that there is only its error to
    send. -/
structure Attended (parsed : Request → Except CommandError Command → Prop)
    (executed : List (Command × Response)) (requests : List Request)
    (ending : Option RequestParseError) (lost : List IoError) (sends : List (Option IoFailure))
    (handled rest : List Request) (verdicts : List Verdict) (connection : Connection) : Prop where
  stream : requests = handled ++ rest
  settled : Settled parsed executed handled verdicts
  /-- At most one request has been read and is not settled. -/
  accepted : connection.accepted = handled ∨ ∃ request,
    connection.accepted = handled ++ [request] ∧
      (connection.phase = .parsing request ∨ ∃ command, connection.phase = .executing command)
  sent : ∃ last, connection.sent <+: verdicts.map Verdict.response ++ last ∧
    (last = [] ∨ Ending requests ending lost handled last)
  broken : ∀ e ∈ lost, connection.phase = .sending (.error (ReadError.io e).toString) true ∨
    connection.phase = .closed
  outbound : Wired sends connection.sent connection.outbound

/-- The connection is over: everything that was read is answered, and the end too. -/
def Over (requests : List Request) (ending : Option RequestParseError) (lost : List IoError)
    (handled : List Request) (verdicts : List Verdict) (connection : Connection) : Prop :=
  connection.phase = .closed ∧ ∃ last, Ending requests ending lost handled last ∧
    connection.sent = verdicts.map Verdict.response ++ last

theorem Attends.attended {requests : List Request} {d : End RequestParseError} {lost : List IoError}
    {sends : List (Option IoFailure)} {k : ℕ} (h : self.Attends requests d lost sends k)
    (hledger : self.Ledger parsed executed) : ∃ handled rest verdicts,
      self.Attended parsed executed requests (errorOf .unexpectedEof d) lost sends handled rest
        verdicts ∧
      (k = 0 ∨ self.phase = .closed →
        self.Over requests (errorOf .unexpectedEof d) lost handled verdicts) := by
  obtain ⟨hwired, hphase⟩ := h
  obtain ⟨handled, verdicts, hsettled, hledger⟩ := hledger
  -- what is sent before the end of the connection
  have hsome : ∀ {last : List Response}, self.sent ++ last = verdicts.map Verdict.response →
      ∃ last, self.sent <+: verdicts.map Verdict.response ++ last ∧
        (last = [] ∨ Ending requests (errorOf .unexpectedEof d) lost handled last) := by
    intro last hsent
    exact ⟨[], by rw [← hsent, List.append_nil]; exact List.prefix_append _ _, .inl rfl⟩
  cases hp : self.phase with
  | reading =>
    simp only [hp] at hphase hledger
    obtain ⟨rfl, rest, _, hrequests, _, hk⟩ := hphase
    obtain ⟨haccepted, hsent⟩ := hledger
    rw [haccepted] at hrequests
    refine ⟨handled, rest, verdicts,
      ⟨hrequests, hsettled, .inl haccepted, ?_, by simp, hwired⟩, fun hover => by simp at hover; omega⟩
    exact hsome ((List.append_nil _).trans hsent)
  | parsing request =>
    simp only [hp] at hphase hledger
    obtain ⟨rfl, rest, _, hrequests, _, _, hk⟩ := hphase
    obtain ⟨haccepted, hsent⟩ := hledger
    rw [haccepted, List.append_assoc] at hrequests
    refine ⟨handled, _, verdicts, ⟨hrequests, hsettled, .inr ⟨request, haccepted, .inl hp⟩, ?_,
      by simp, hwired⟩, fun hover => by simp at hover; omega⟩
    exact hsome ((List.append_nil _).trans hsent)
  | executing command =>
    simp only [hp] at hphase hledger
    obtain ⟨rfl, rest, _, hrequests, _, _, hk⟩ := hphase
    obtain ⟨⟨request, haccepted, _⟩, hsent⟩ := hledger
    rw [haccepted, List.append_assoc] at hrequests
    refine ⟨handled, _, verdicts, ⟨hrequests, hsettled, .inr ⟨request, haccepted, .inr ⟨_, hp⟩⟩, ?_,
      by simp, hwired⟩, fun hover => by simp at hover; omega⟩
    exact hsome ((List.append_nil _).trans hsent)
  | sending response last =>
    cases last with
    | false =>
      simp only [hp] at hphase hledger
      obtain ⟨rfl, rest, _, hrequests, _, hk⟩ := hphase
      obtain ⟨haccepted, hsent⟩ := hledger
      rw [haccepted] at hrequests
      exact ⟨handled, rest, verdicts,
        ⟨hrequests, hsettled, .inl haccepted, hsome hsent, by simp, hwired⟩,
        fun hover => by simp at hover; omega⟩
    | true =>
      simp only [hp] at hphase hledger
      obtain ⟨_, hending, hk⟩ := hphase
      obtain ⟨haccepted, hsent⟩ := hledger
      obtain ⟨rest, hrequests⟩ := hending.handled
      rw [haccepted] at hrequests
      refine ⟨handled, rest, verdicts,
        ⟨hrequests, hsettled, .inl haccepted, ?_, fun e he => .inl ?_, hwired⟩,
        fun hover => by simp at hover; omega⟩
      · exact hsome ((List.append_nil _).trans hsent)
      · -- the error of the read that failed is what is being sent
        rcases hending with ⟨rfl, _⟩ | ⟨e', rfl, _, hlast⟩
        · cases he
        · cases List.mem_singleton.mp he
          rw [hp, List.singleton_inj.mp hlast]
  | closed =>
    simp only [hp] at hphase hledger
    obtain ⟨answers, last, hsent, hlen, hending⟩ := hphase
    obtain ⟨haccepted, last', hsent'⟩ := hledger
    obtain ⟨rest, hrequests⟩ := hending.handled
    rw [haccepted] at hrequests hlen hending
    -- there are as many answers as verdicts, so they are their responses
    have hverdicts : (verdicts.map Verdict.response).length = answers.length := by
      rw [List.length_map, hlen, hsettled.parsed.length_eq]
    obtain ⟨rfl, rfl⟩ := List.append_inj (hsent'.symm.trans hsent) hverdicts
    refine ⟨handled, rest, verdicts,
      ⟨hrequests, hsettled, .inl haccepted, ?_, fun _ _ => .inr hp, hwired⟩,
      fun _ => ⟨hp, _, hending, hsent⟩⟩
    exact ⟨_, by rw [hsent], .inr hending⟩

end Connection

namespace System
open Connection

/-- The server has done what it does when it executes the commands and clean-ups of the run
    one after the other, in the order they took the lock and with the clock they found there,
    and the same appends fail. The commands whose append fails are answered with its error and
    leave nothing but the part of their record that was written: the key store is the one the
    others lead to without them. Of the requests of a client's stream, each handled one was
    parsed once, at a turn of the client, and handed over once if it parsed, in the order of
    the stream, and was answered with its error or with that response. A read that fails ends
    the connection, with its error as the last response; if none does, the stream is handled to
    its end after enough turns of the client. The bytes the client gets are the responses, each
    as far as its send has come. -/
def SerializedFailing (state : ServerState) (sources : List Source)
    (turns : List (Turn × Option IoFailure)) (clock : Clock) (system : System) : Prop :=
  let moments := (start state sources).momentsFailing turns clock
  let all := moments.filterMap Moment.attempt
  ∃ attempted final, attempts all state = .ok (attempted, system.state) ∧
    system.state.wal.contents = state.wal.contents ++ attempted.flatMap Attempted.logged ∧
    (∀ entry ∈ attempted, ∀ error, entry.refusal = some error →
      entry.executed.response = .error error.text) ∧
    sequential (all.filterMap Attempt.effective?) state =
      .ok (attempted.filterMap Attempted.effective?, final) ∧
    system.state.keyStore = final.keyStore ∧
    ∀ i source, sources[i]? = some source → ∃ connection requests ending handled rest verdicts,
      system.connections[i]? = some connection ∧
      readAll RequestReader.readNext (RequestReader.new source) = .ok (requests, ending) ∧
      connection.Attended (ParsedAt (moments.map Prod.fst) i)
        ((attempted.map Attempted.executed).filterMap (Executed.from? i)) requests ending
        (lostReads i moments) (sends i moments) handled rest verdicts ∧
      (4 * requests.length + 2 ≤ turnsOf i turns ∨ connection.phase = .closed →
        connection.Over requests ending (lostReads i moments) handled verdicts)

/-- What has become of the stream of client `i`. -/
theorem Attends.client {sources : List Source} {all : List Moment}
    {past : List (Moment × Option IoFailure)} {attempted : List Attempted} {self : System}
    (h : self.Attends sources all past attempted)
    (hne : ∀ source ∈ sources, ∀ chunk ∈ source, chunk ≠ []) {i : ℕ} {source : Source}
    (hsource : sources[i]? = some source) : ∃ connection requests ending handled rest verdicts,
      self.connections[i]? = some connection ∧
      readAll RequestReader.readNext (RequestReader.new source) = .ok (requests, ending) ∧
      connection.Attended (ParsedAt all i)
        ((attempted.map Attempted.executed).filterMap (Executed.from? i)) requests ending
        (lostReads i past) (sends i past) handled rest verdicts ∧
      (4 * requests.length + 2 ≤ turnsOf i (taken past) ∨ connection.phase = .closed →
        connection.Over requests ending (lostReads i past) handled verdicts) := by
  have hi : i < self.connections.length := by
    rw [h.count]
    exact (List.getElem?_eq_some_iff.mp hsource).1
  have hconnection := List.getElem?_eq_getElem hi
  obtain ⟨source', requests, d, hsource', hd, hclient⟩ := h.connection hconnection
  rw [hsource] at hsource'
  cases hsource'
  obtain ⟨handled, rest, verdicts, hattended, hover⟩ :=
    hclient.attended (h.ledgers.ledger hconnection)
  have hread := RequestReader.readAll_spec (hne source (List.mem_of_getElem? hsource)) hd
  exact ⟨_, requests, _, handled, rest, verdicts, hconnection, hread, hattended,
    fun hturns => hover (hturns.imp_left (fun hle => by omega))⟩

/-- Concurrent clients are served as one client would be that sends their commands in the
    order of the lock, whatever the turns are and whichever reads, appends and sends fail. -/
theorem run_serializes_failing {state : ServerState} (hstate : state.Started)
    {sources : List Source} (hne : ∀ source ∈ sources, ∀ chunk ∈ source, chunk ≠ [])
    (turns : List (Turn × Option IoFailure)) (clock : Clock) :
    Completes (((start state sources).runFailing turns).run clock)
      (fun (system, _) => SerializedFailing state sources turns clock system) := by
  have hrun := runFailing_attends turns
    (List.Subset.refl (((start state sources).momentsFailing turns clock).map Prod.fst))
    (start_attends hstate.sized hne)
  cases hsystem : ((start state sources).runFailing turns).run clock with
  | error f => exact hrun.of_error hsystem
  | ok r =>
    obtain ⟨attempted, hattempts, hattends⟩ := hrun.of_ok hsystem
    rw [List.nil_append, List.nil_append] at hattends
    obtain ⟨hwal, hrefused, final, hsequential, hkeyStore⟩ := attempts_spec hattempts rfl
    refine ⟨attempted, final, hattempts, hwal, hrefused, hsequential, hkeyStore.symm, ?_⟩
    intro i source hsource
    have hclient := hattends.client hne hsource
    rw [taken_momentsFailing hsystem] at hclient
    exact hclient

/-- The append of a `SET` stops after 4 bytes, the send of a `GET` after 2, and a third
    client's connection is reset while it sends. -/
theorem run_serializes_failing_three :
    Completes (((start ⟨{}, .withHasher (fun _ => 0)⟩
      [[asBytes "*3\r\n$3\r\nSET\r\n$1\r\na\r\n$1\r\nb\r\n"],
        [asBytes "*2\r\n$3\r\nGET\r\n$1\r\na\r\n"], [asBytes "*1\r\n"]]).runFailing
      [(.serve 0, none), (.serve 1, none), (.serve 2, some ⟨1, ⟨"reset"⟩⟩), (.serve 0, none),
        (.serve 1, none), (.serve 0, some ⟨4, ⟨"no space"⟩⟩), (.cleanUp, none), (.serve 1, none),
        (.serve 1, some ⟨2, ⟨"broken pipe"⟩⟩), (.serve 0, none), (.serve 2, none)]).run
      (Stream'.const 7)) (fun (system, _) =>
        SerializedFailing ⟨{}, .withHasher (fun _ => 0)⟩
          [[asBytes "*3\r\n$3\r\nSET\r\n$1\r\na\r\n$1\r\nb\r\n"],
            [asBytes "*2\r\n$3\r\nGET\r\n$1\r\na\r\n"], [asBytes "*1\r\n"]]
          [(.serve 0, none), (.serve 1, none), (.serve 2, some ⟨1, ⟨"reset"⟩⟩), (.serve 0, none),
            (.serve 1, none), (.serve 0, some ⟨4, ⟨"no space"⟩⟩), (.cleanUp, none),
            (.serve 1, none), (.serve 1, some ⟨2, ⟨"broken pipe"⟩⟩), (.serve 0, none),
            (.serve 2, none)] (Stream'.const 7) system) :=
  run_serializes_failing ⟨{}, fun _ => 0, Stream'.const 0, Stream'.const 0, rfl⟩ (by decide) _ _

end System
end SimpleKv
