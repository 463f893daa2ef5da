import SimpleKv.ServerMemory

/- One order for all clients. What is done under the lock is done one turn at a time, so a
   run does to the state of the server what its commands and clean-ups do when they are
   executed in that order with nothing in between (`run_serializes`). The clients see this
   order: the requests of each are parsed and executed once and in turn, and are answered
   with what the sequential execution answers. -/
namespace SimpleKv
open Outcome Incremental Request Reader

/-! Sequential execution. -/

/-- What is done under the lock, and the clock at that time. -/
inductive Action where
  | exec (client : ℕ) (command : Command) (clock : Clock)
  | cleanUp (clock : Clock)

/-- A command that has been executed, and the response. -/
structure Executed where
  client : ℕ
  command : Command
  response : Response

namespace Executed

/-- What the log has of the command. -/
def logged (self : Executed) : Bytes := if self.command.isWriteOp then self.command.toBytes else []

/-- Command and response, if client `i` sent the command. -/
def from? (i : ℕ) (self : Executed) : Option (Command × Response) :=
  if self.client = i then some (self.command, self.response) else none

end Executed

/-- The actions one after the other, by one client. -/
def sequential : List Action → ServerState → Rust (List Executed × ServerState)
  | [], state => return ([], state)
  | .exec client command clock :: actions, state => do
    let ((response, state), _) ← (state.execute command none).run clock
    let (executed, state) ← sequential actions state
    return (⟨client, command, response⟩ :: executed, state)
  | .cleanUp clock :: actions, state => do
    let ((_, state), _) ← state.removeExpired.run clock
    sequential actions state

namespace ServerState

theorem execute_wal (self : ServerState) (command : Command) :
    YieldsAlways (fun _ => True) (self.execute command none) (fun (_, self') =>
      self'.wal.contents =
        self.wal.contents ++ if command.isWriteOp then command.toBytes else []) := by
  unfold execute
  by_cases hwrite : command.isWriteOp = true
  · simp only [if_pos hwrite]
    exact YieldsAlways.bind_any (fun _ => YieldsAlways.pure rfl)
  · simp only [if_neg hwrite]
    exact YieldsAlways.bind_any (fun _ => YieldsAlways.pure (List.append_nil _).symm)

theorem removeExpired_wal (self : ServerState) :
    YieldsAlways (fun _ => True) self.removeExpired (fun (_, self') => self'.wal = self.wal) := by
  unfold removeExpired
  apply YieldsAlways.bind_any
  intro keys
  exact YieldsAlways.bind_any (fun _ => YieldsAlways.pure rfl)

end ServerState

/-- The log grows by the writes, in their order. -/
theorem sequential_wal : ∀ (actions : List Action) (state : ServerState),
    Yields (fun _ => True) (sequential actions state) (fun (executed, state') =>
      state'.wal.contents = state.wal.contents ++ executed.flatMap Executed.logged)
  | [], state => (List.append_nil state.wal.contents).symm
  | .exec client command clock :: actions, state => by
    apply Yields.bind (state.execute_wal command clock)
    intro ((response, state'), _) hstep
    apply Yields.bind (sequential_wal actions state')
    intro (executed, state'') hrest
    show state''.wal.contents = _
    rw [hrest, hstep, List.flatMap_cons, List.append_assoc]
    rfl
  | .cleanUp clock :: actions, state => by
    apply Yields.bind (state.removeExpired_wal clock)
    intro ((_, state'), _) hstep
    apply Yields.mono (sequential_wal actions state')
    intro (executed, state'') hrest
    show state''.wal.contents = _
    rw [hrest, show state'.wal = state.wal from hstep]

theorem sequential_append : ∀ {first : List Action} {state state' : ServerState}
    {executed : List Executed}, sequential first state = .ok (executed, state') →
    ∀ {second : List Action} {state'' : ServerState} {executed' : List Executed},
      sequential second state' = .ok (executed', state'') →
      sequential (first ++ second) state = .ok (executed ++ executed', state'')
  | [], _, _, _, h, _, _, _, h' => by
    cases h
    exact h'
  | .exec client command clock :: first, state, state', executed, h, second, state'', executed', h' => by
    rw [sequential] at h
    rw [List.cons_append, sequential]
    obtain ⟨⟨⟨response, next⟩, clock'⟩, hrun, h⟩ := bind_eq_ok.mp h
    obtain ⟨⟨executed, last⟩, hfirst, h⟩ := bind_eq_ok.mp h
    cases h
    rw [hrun, ok_bind]
    simp only [sequential_append hfirst h']
    rfl
  | .cleanUp clock :: first, state, state', executed, h, second, state'', executed', h' => by
    rw [sequential] at h
    rw [List.cons_append, sequential]
    obtain ⟨r, hrun, h⟩ := bind_eq_ok.mp h
    rw [hrun, ok_bind]
    exact sequential_append h h'

/-! The turns of a run. -/

/-- A turn, with the system and the clock it finds. -/
structure Moment where
  turn : Turn
  system : System
  clock : Clock

namespace System

/-- The turns of a run, up to one that stops it. -/
def moments : List Turn → System → Clock → List Moment
  | [], _, _ => []
  | turn :: turns, self, clock =>
    ⟨turn, self, clock⟩ :: match (self.turn turn).run clock with
      | .ok (self, clock) => moments turns self clock
      | .error _ => []

end System

namespace Moment

/-- What the turn does under the lock. -/
def action (self : Moment) : Option Action :=
  match self.turn with
  | .cleanUp => some (.cleanUp self.clock)
  | .serve i =>
    match (self.system.connections[i]?).map Connection.phase with
    | some (.executing command) => some (.exec i command self.clock)
    | _ => none

end Moment

/-- At some turn of the run, the request of client `i` was parsed with this result. -/
def ParsedAt (moments : List Moment) (i : ℕ) (request : Request)
    (result : Except CommandError Command) : Prop :=
  ∃ moment ∈ moments, ∃ connection clock, moment.turn = .serve i ∧
    moment.system.connections[i]? = some connection ∧ connection.phase = .parsing request ∧
    (Command.tryFrom request).run moment.clock = .ok (result, clock)

/-! What becomes of the requests. -/

inductive Verdict where
  | rejected (e : CommandError)
  | executed (command : Command) (response : Response)

namespace Verdict

/-- The result of parsing the request. -/
def parsed : Verdict → Except CommandError Command
  | .rejected e => .error e
  | .executed command _ => .ok command

def response : Verdict → Response
  | .rejected e => .error e.toString
  | .executed _ response => response

def executed? : Verdict → Option (Command × Response)
  | .rejected _ => none
  | .executed command response => some (command, response)

end Verdict

/-- The requests have the verdicts, and the commands executed are those of the verdicts. -/
structure Settled (parsed : Request → Except CommandError Command → Prop)
    (executed : List (Command × Response)) (handled : List Request) (verdicts : List Verdict) :
    Prop where
  parsed : List.Forall₂ (fun request verdict => parsed request verdict.parsed) handled verdicts
  executed : executed = verdicts.filterMap Verdict.executed?

namespace Settled
variable {parsed : Request → Except CommandError Command → Prop}
  {executed : List (Command × Response)} {handled : List Request} {verdicts : List Verdict}

theorem nil : Settled parsed [] [] [] := ⟨.nil, rfl⟩

/-- One more request. -/
theorem snoc (h : Settled parsed executed handled verdicts) {request : Request} {verdict : Verdict}
    (hparsed : parsed request verdict.parsed) :
    Settled parsed (executed ++ verdict.executed?.toList) (handled ++ [request])
      (verdicts ++ [verdict]) where
  parsed := List.rel_append h.parsed (.cons hparsed .nil)
  executed := by
    rw [List.filterMap_append, h.executed]
    cases verdict with
    | rejected e => rfl
    | executed command response => rfl

end Settled

namespace Connection

/-- What a connection has recorded, against what has been executed for it: all requests it
    has read are settled, but for one in its hands, and it has sent the responses of the
    verdicts, but for one it is about to send. -/
def Ledger (parsed : Request → Except CommandError Command → Prop)
    (executed : List (Command × Response)) (self : Connection) : Prop :=
  ∃ handled verdicts, Settled parsed executed handled verdicts ∧
    match self.phase with
    | .reading => self.accepted = handled ∧ self.sent = verdicts.map Verdict.response
    | .parsing request =>
      self.accepted = handled ++ [request] ∧ self.sent = verdicts.map Verdict.response
    | .executing command =>
      (∃ request, self.accepted = handled ++ [request] ∧ parsed request (.ok command)) ∧
        self.sent = verdicts.map Verdict.response
    | .sending response false =>
      self.accepted = handled ∧ self.sent ++ [response] = verdicts.map Verdict.response
    | .sending _ true => self.accepted = handled ∧ self.sent = verdicts.map Verdict.response
    | .closed => self.accepted = handled ∧ ∃ last, self.sent = verdicts.map Verdict.response ++ last

variable {parsed : Request → Except CommandError Command → Prop}
  {executed : List (Command × Response)} {self : Connection}

theorem Ledger.new (source : Source) : (new source).Ledger parsed [] := ⟨[], [], .nil, rfl, rfl⟩

/-- A step under the lock settles a request with the response to its command. -/
theorem Ledger.step_executing (h : self.Ledger parsed executed) {command : Command}
    (hphase : self.phase = .executing command) (state : ServerState) (clock : Clock) :
    Yields (fun _ => True) ((self.step state).run clock) (fun ((self', state'), clock') =>
      ∃ response, (state.execute command none).run clock = .ok ((response, state'), clock') ∧
        self'.Ledger parsed (executed ++ [(command, response)])) := by
  obtain ⟨handled, verdicts, hsettled, hledger⟩ := h
  unfold step
  simp only [hphase] at hledger ⊢
  obtain ⟨⟨request, haccepted, hparsed⟩, hsent⟩ := hledger
  rw [StateT.run_bind]
  cases hrun : (state.execute command none).run clock with
  | error e => exact True.intro
  | ok r =>
    obtain ⟨⟨response, state'⟩, clock'⟩ := r
    have hverdict : parsed request (Verdict.executed command response).parsed := hparsed
    have hmore : Settled parsed (executed ++ [(command, response)]) (handled ++ [request])
        (verdicts ++ [.executed command response]) := hsettled.snoc hverdict
    refine ⟨response, rfl, _, _, hmore, haccepted, ?_⟩
    rw [List.map_append, ← hsent]
    rfl

/-- Every other step leaves the state of the server alone. -/
theorem Ledger.step_other (h : self.Ledger parsed executed)
    (hphase : ∀ command, self.phase ≠ .executing command) (state : ServerState) (clock : Clock)
    (hparse : ∀ request result clock', self.phase = .parsing request →
      (Command.tryFrom request).run clock = .ok (result, clock') → parsed request result) :
    Yields (fun _ => True) ((self.step state).run clock) (fun ((self', state'), _) =>
      state' = state ∧ self'.Ledger parsed executed) := by
  obtain ⟨handled, verdicts, hsettled, hledger⟩ := h
  unfold step
  cases hp : self.phase with
  | reading =>
    simp only [hp] at hledger ⊢
    obtain ⟨haccepted, hsent⟩ := hledger
    cases hread : self.requestReader.readNextAsync with
    | error e => exact True.intro
    | ok r =>
      obtain ⟨result, reader⟩ := r
      rw [ServerState.liftM_bind rfl]
      cases result with
      | error e => exact ⟨rfl, handled, verdicts, hsettled, haccepted, hsent⟩
      | ok found =>
        cases found with
        | none => exact ⟨rfl, handled, verdicts, hsettled, haccepted, [], by simp [hsent]⟩
        | some request =>
          exact ⟨rfl, handled, verdicts, hsettled, by rw [haccepted], hsent⟩
  | parsing request =>
    simp only [hp] at hledger ⊢
    obtain ⟨haccepted, hsent⟩ := hledger
    rw [StateT.run_bind]
    cases hrun : (Command.tryFrom request).run clock with
    | error e => exact True.intro
    | ok r =>
      obtain ⟨result, clock'⟩ := r
      have hparsed := hparse request result clock' hp hrun
      cases result with
      | ok command =>
        exact ⟨rfl, handled, verdicts, hsettled, ⟨request, haccepted, hparsed⟩, hsent⟩
      | error e =>
        have hverdict : parsed request (Verdict.rejected e).parsed := hparsed
        have hmore := hsettled.snoc hverdict
        rw [show (Verdict.rejected e).executed?.toList = [] from rfl, List.append_nil] at hmore
        refine ⟨rfl, handled ++ [request], verdicts ++ [.rejected e], hmore, haccepted, ?_⟩
        rw [List.map_append, ← hsent]
        rfl
  | executing command => exact absurd hp (hphase command)
  | sending response last =>
    simp only [hp] at hledger ⊢
    cases last with
    | false =>
      obtain ⟨haccepted, hsent⟩ := hledger
      exact ⟨rfl, handled, verdicts, hsettled, haccepted, hsent⟩
    | true =>
      obtain ⟨haccepted, hsent⟩ := hledger
      refine ⟨rfl, handled, verdicts, hsettled, haccepted, [response], ?_⟩
      rw [← hsent]
      rfl
  | closed =>
    simp only [hp] at hledger ⊢
    refine ⟨rfl, handled, verdicts, hsettled, ?_⟩
    simp only [hp]
    exact hledger

end Connection

/-! The system. -/

namespace Moment
variable {i : ℕ} {system : System} {connection : Connection} {clock : Clock}

theorem action_executing (hi : system.connections[i]? = some connection) {command : Command}
    (hphase : connection.phase = .executing command) :
    action ⟨.serve i, system, clock⟩ = some (.exec i command clock) := by
  unfold action
  simp only [hi, Option.map_some, hphase]

theorem action_other (hi : system.connections[i]? = some connection)
    (hphase : ∀ command, connection.phase ≠ .executing command) :
    action ⟨.serve i, system, clock⟩ = none := by
  unfold action
  simp only [hi, Option.map_some]
  cases hp : connection.phase with
  | executing command => exact absurd hp (hphase command)
  | reading | parsing | sending | closed => rfl

theorem action_absent (hi : system.connections[i]? = none) :
    action ⟨.serve i, system, clock⟩ = none := by
  unfold action
  simp only [hi, Option.map_none]

end Moment

namespace System

/-- All connections have their ledgers, against what has been executed so far. -/
structure Ledgers (all : List Moment) (executed : List Executed) (system : System) : Prop where
  client : ∀ entry ∈ executed, entry.client < system.connections.length
  ledger : ∀ {i : ℕ} {connection : Connection}, system.connections[i]? = some connection →
    connection.Ledger (ParsedAt all i) (executed.filterMap (Executed.from? i))

variable {all : List Moment} {executed : List Executed} {self : System}

theorem start_ledgers (state : ServerState) (sources : List Source) :
    (start state sources).Ledgers all [] where
  client := by simp
  ledger {i connection} hi := by
    obtain ⟨source, _, rfl⟩ := Option.map_eq_some_iff.mp (List.getElem?_map ▸ hi)
    exact .new source

/-- Connection `i` has taken a step, and what was executed was for it. -/
theorem Ledgers.set (h : self.Ledgers all executed) {i : ℕ} (hi : i < self.connections.length)
    {new : List Executed} (hnew : ∀ entry ∈ new, entry.client = i) {connection : Connection}
    (hledger : connection.Ledger (ParsedAt all i) ((executed ++ new).filterMap (Executed.from? i)))
    (state : ServerState) :
    Ledgers all (executed ++ new) { state, connections := self.connections.set i connection } where
  client entry hentry := by
    rw [List.length_set]
    rcases List.mem_append.mp hentry with hentry | hentry
    · exact h.client entry hentry
    · rw [hnew entry hentry]
      exact hi
  ledger {j connection'} hj := by
    by_cases heq : i = j
    · subst heq
      rw [List.getElem?_set_self hi] at hj
      cases hj
      exact hledger
    · rw [List.getElem?_set_ne heq] at hj
      have hnone : new.filterMap (Executed.from? j) = [] := by
        rw [List.filterMap_eq_nil_iff]
        intro entry hentry
        exact if_neg (by rw [hnew entry hentry]; exact heq)
      rw [List.filterMap_append, hnone, List.append_nil]
      exact h.ledger hj

/-- A turn does to the state what its action does on its own. -/
theorem turn_ledgers (h : self.Ledgers all executed) {turn : Turn} {clock : Clock}
    (hmoment : ⟨turn, self, clock⟩ ∈ all) :
    Yields (fun _ => True) ((self.turn turn).run clock) (fun (self', _) => ∃ new,
      sequential (Moment.action ⟨turn, self, clock⟩).toList self.state = .ok (new, self'.state) ∧
        self'.Ledgers all (executed ++ new)) := by
  cases turn with
  | cleanUp =>
    simp only [System.turn]
    rw [StateT.run_bind]
    cases hrun : self.state.removeExpired.run clock with
    | error e => exact True.intro
    | ok r =>
      obtain ⟨⟨removed, state⟩, clock'⟩ := r
      refine ⟨[], ?_, ?_⟩
      · show sequential [.cleanUp clock] self.state = _
        rw [sequential, hrun]
        rfl
      · rw [List.append_nil]
        exact ⟨h.client, h.ledger⟩
  | serve i =>
    cases hi : self.connections[i]? with
    | none =>
      simp only [System.turn, hi, Moment.action_absent hi]
      refine ⟨[], rfl, ?_⟩
      rw [List.append_nil]
      exact h
    | some connection =>
      have hlen := (List.getElem?_eq_some_iff.mp hi).1
      simp only [System.turn, hi]
      rw [StateT.run_bind]
      by_cases hphase : ∃ command, connection.phase = .executing command
      · obtain ⟨command, hphase⟩ := hphase
        rw [Moment.action_executing hi hphase]
        apply Yields.bind ((h.ledger hi).step_executing hphase self.state clock)
        intro r hstep
        obtain ⟨⟨connection', state'⟩, clock'⟩ := r
        obtain ⟨response, hrun, hledger⟩ := hstep
        refine ⟨[⟨i, command, response⟩], ?_, h.set hlen (by simp) ?_ state'⟩
        · show sequential [.exec i command clock] self.state = _
          rw [sequential, hrun]
          rfl
        · have hmine : Executed.from? i ⟨i, command, response⟩ = some (command, response) := if_pos rfl
          rw [List.filterMap_append, List.filterMap_cons_some hmine]
          exact hledger
      · have hother : ∀ command, connection.phase ≠ .executing command :=
          fun command hp => hphase ⟨command, hp⟩
        rw [Moment.action_other hi hother]
        apply Yields.bind ((h.ledger hi).step_other hother self.state clock ?_)
        · intro r hstep
          obtain ⟨⟨connection', state'⟩, clock'⟩ := r
          obtain ⟨rfl, hledger⟩ := hstep
          refine ⟨[], rfl, h.set hlen (by simp) ?_ _⟩
          rw [List.append_nil]
          exact hledger
        · intro request result clock' hp hparse
          exact ⟨_, hmoment, connection, clock', rfl, hi, hp, hparse⟩

theorem run_ledgers : ∀ (turns : List Turn) {executed : List Executed} {self : System}
    {clock : Clock}, moments turns self clock ⊆ all → self.Ledgers all executed →
    Yields (fun _ => True) ((self.run turns).run clock) (fun (self', _) => ∃ new,
      sequential ((moments turns self clock).filterMap Moment.action) self.state =
        .ok (new, self'.state) ∧ self'.Ledgers all (executed ++ new))
  | [], executed, self, clock, _, h => by
    refine ⟨[], rfl, ?_⟩
    rw [List.append_nil]
    exact h
  | turn :: turns, executed, self, clock, hall, h => by
    have hturn := turn_ledgers h (hall List.mem_cons_self)
    unfold run
    rw [List.foldlM_cons, StateT.run_bind]
    cases hrun : (self.turn turn).run clock with
    | error e => exact True.intro
    | ok r =>
      obtain ⟨self', clock'⟩ := r
      rw [hrun] at hturn
      obtain ⟨new, hnew, hledgers⟩ := hturn
      have hmoments : moments (turn :: turns) self clock =
          ⟨turn, self, clock⟩ :: moments turns self' clock' := by
        simp only [moments, hrun]
      rw [hmoments] at hall ⊢
      apply Yields.mono (run_ledgers turns (fun moment hm => hall (List.mem_cons_of_mem _ hm)) hledgers)
      intro (self'', _) hrest
      obtain ⟨new', hnew', hledgers'⟩ := hrest
      refine ⟨new ++ new', ?_, ?_⟩
      · have haction : ∀ (moment : Moment) (rest : List Moment),
            (moment :: rest).filterMap Moment.action =
              moment.action.toList ++ rest.filterMap Moment.action := by
          intro moment rest
          rw [List.filterMap_cons]
          cases moment.action <;> rfl
        rw [haction]
        exact sequential_append hnew hnew'
      · rw [← List.append_assoc]
        exact hledgers'

end System

/-! The streams. -/

namespace Connection
variable {parsed : Request → Except CommandError Command → Prop}
  {executed : List (Command × Response)} {self : Connection}

/-- What became of a stream that holds `requests` before its first error or its end: the
    requests `handled` have the verdicts, and `rest` are to come. -/
structure Served (parsed : Request → Except CommandError Command → Prop)
    (executed : List (Command × Response)) (requests : List Request)
    (ending : Option RequestParseError) (handled rest : List Request) (verdicts : List Verdict)
    (connection : Connection) : Prop where
  requests : requests = handled ++ rest
  settled : Settled parsed executed handled verdicts
  /-- At most one request has been read and is not settled. -/
  accepted : connection.accepted = handled ∨ ∃ request,
    connection.accepted = handled ++ [request] ∧
      (connection.phase = .parsing request ∨ ∃ command, connection.phase = .executing command)
  sent : connection.sent <+: verdicts.map Verdict.response ++ farewell ending
  outbound : connection.outbound = connection.sent.flatMap Response.toBytes

/-- The whole stream is settled, and its end has been answered too. -/
def Finished (ending : Option RequestParseError) (rest : List Request) (verdicts : List Verdict)
    (connection : Connection) : Prop :=
  rest = [] ∧ connection.phase = .closed ∧
    connection.sent = verdicts.map Verdict.response ++ farewell ending

theorem Serves.served {source : Source} {k : ℕ} (h : self.Serves source k)
    (hne : ∀ chunk ∈ source, chunk ≠ []) (hledger : self.Ledger parsed executed) :
    ∃ requests ending handled rest verdicts,
      readAll RequestReader.readNext (RequestReader.new source) = .ok (requests, ending) ∧
      self.Served parsed executed requests ending handled rest verdicts ∧
      (k = 0 → self.Finished ending rest verdicts) := by
  obtain ⟨requests, d, hd, hserving⟩ := h
  obtain ⟨handled, verdicts, hsettled, hledger⟩ := hledger
  refine ⟨requests, errorOf .unexpectedEof d, ?_⟩
  have hread := RequestReader.readAll_spec hne hd
  cases hserving with
  | @reading reader accepted rest sent hup hrequests hcomputed hk =>
    obtain ⟨rfl, rfl⟩ := hledger
    exact ⟨_, rest, verdicts, hread,
      ⟨hrequests, hsettled, .inl rfl, List.prefix_append _ _, rfl⟩, fun hzero => by omega⟩
  | @parsing reader accepted rest request sent hup hrequests hcomputed hk =>
    obtain ⟨haccepted, rfl⟩ := hledger
    cases List.append_cancel_right haccepted
    rw [List.append_assoc] at hrequests
    exact ⟨_, request :: rest, verdicts, hread,
      ⟨hrequests, hsettled, .inr ⟨request, rfl, .inl rfl⟩, List.prefix_append _ _, rfl⟩,
      fun hzero => by omega⟩
  | @executing reader accepted rest request now command sent hup hrequests hcomputed hc hk =>
    obtain ⟨⟨request', haccepted, _⟩, rfl⟩ := hledger
    obtain ⟨rfl, _⟩ := List.append_inj' haccepted rfl
    rw [List.append_assoc] at hrequests
    exact ⟨_, request :: rest, verdicts, hread,
      ⟨hrequests, hsettled, .inr ⟨request, rfl, .inr ⟨command, rfl⟩⟩, List.prefix_append _ _, rfl⟩,
      fun hzero => by omega⟩
  | @sending reader accepted rest response sent hup hrequests hcomputed hk =>
    obtain ⟨rfl, hsent⟩ := hledger
    refine ⟨_, rest, verdicts, hread, ⟨hrequests, hsettled, .inl rfl, ?_, rfl⟩,
      fun hzero => by omega⟩
    rw [← hsent, List.append_assoc]
    exact List.prefix_append _ _
  | @ending reader response sent hcomputed hlast hk =>
    obtain ⟨rfl, rfl⟩ := hledger
    exact ⟨_, [], verdicts, hread,
      ⟨(List.append_nil _).symm, hsettled, .inl rfl, List.prefix_append _ _, rfl⟩,
      fun hzero => by omega⟩
  | @closed reader answers sent hcomputed hsent =>
    obtain ⟨rfl, last, hlast⟩ := hledger
    -- there are as many answers as verdicts, so they are their responses
    have hlen : (verdicts.map Verdict.response).length = answers.length := by
      rw [List.length_map, ← hsettled.parsed.length_eq, hcomputed.length_eq]
    obtain ⟨hanswers, _⟩ := List.append_inj (hlast.symm.trans hsent) hlen
    rw [← hanswers] at hsent
    refine ⟨_, [], verdicts, hread, ⟨(List.append_nil _).symm, hsettled, .inl rfl, ?_, rfl⟩,
      fun _ => ⟨rfl, rfl, hsent⟩⟩
    rw [← hsent]

end Connection

namespace System
open Connection

/-- The server has done what it does when it executes the commands and clean-ups of the run
    one after the other, in the order they took the lock and with the clock they found there:
    its state is the one this leads to, and its log is the log at the start and the writes.
    Of the requests before the first error of a client's stream, each handled one was parsed
    once, at a turn of the client, and executed once if it parsed, in the order of the
    stream, and was answered with its error or with the response of that execution; after
    enough turns of the client all of them are handled. -/
def Serialized (state : ServerState) (sources : List Source) (turns : List Turn) (clock : Clock)
    (system : System) : Prop :=
  let moments := (start state sources).moments turns clock
  ∃ executed, sequential (moments.filterMap Moment.action) state = .ok (executed, system.state) ∧
    system.state.wal.contents = state.wal.contents ++ executed.flatMap Executed.logged ∧
    (∀ entry ∈ executed, entry.client < sources.length) ∧
    ∀ i source, sources[i]? = some source → ∃ connection requests ending handled rest verdicts,
      system.connections[i]? = some connection ∧
      readAll RequestReader.readNext (RequestReader.new source) = .ok (requests, ending) ∧
      connection.Served (ParsedAt moments i) (executed.filterMap (Executed.from? i))
        requests ending handled rest verdicts ∧
      (4 * requests.length + 2 ≤ turns.count (.serve i) → connection.Finished ending rest verdicts)

variable {state : ServerState} {sources : List Source}

theorem serialized_of_ok (hstate : state.Started)
    (hne : ∀ source ∈ sources, ∀ chunk ∈ source, chunk ≠ []) {turns : List Turn}
    {clock clock' : Clock} {system : System}
    (hrun : ((start state sources).run turns).run clock = .ok (system, clock')) :
    Serialized state sources turns clock system := by
  have hsystem := (run_serves (start_serves hstate.sized hne) clock).of_ok hrun
  obtain ⟨executed, hsequential, hledger⟩ :=
    (run_ledgers turns (List.Subset.refl ((start state sources).moments turns clock))
      (start_ledgers state sources)).of_ok hrun
  rw [List.nil_append] at hledger
  refine ⟨executed, hsequential, (sequential_wal _ state).of_ok hsequential, ?_, ?_⟩
  · intro entry hentry
    rw [← hsystem.count]
    exact hledger.client entry hentry
  · intro i source hsource
    obtain ⟨connection, hconnection, hserves⟩ := hsystem.exists_connection hsource
    obtain ⟨requests, ending, handled, rest, verdicts, hread, hserved, hfinished⟩ :=
      hserves.served (hne source (List.mem_of_getElem? hsource)) (hledger.ledger hconnection)
    refine ⟨connection, requests, ending, handled, rest, verdicts, hconnection, hread, hserved, ?_⟩
    intro hturns
    apply hfinished
    simp only [hsource, Option.map_some, Option.getD_some, stepsFor_eq hread]
    omega

/-- Concurrent clients are served as one client would be that sends their commands in the
    order of the lock, whatever the turns are. They are served if the keys at the start and
    those that as many requests as there are turns can bring are fewer than `keyLimit`. -/
theorem run_serializes {state : ServerState} (hstate : state.Started) {sources : List Source}
    (hne : ∀ source ∈ sources, ∀ chunk ∈ source, chunk ≠ []) (turns : List Turn) (clock : Clock) :
    CompletesFor (state.keyStore.len + turns.length * maxArrayLength)
      (((start state sources).run turns).run clock)
      (fun (system, _) => Serialized state sources turns clock system) := by
  have hserves := start_serves hstate.sized hne
  have hrun : CompletesFor (state.keyStore.len + turns.length * maxArrayLength)
      (((start state sources).run turns).run clock) _ :=
    CompletesFor.intro (run_serves hserves clock) (hserves.run_crowded clock)
  cases hsystem : ((start state sources).run turns).run clock with
  | error f => exact hrun.of_error hsystem
  | ok r => exact serialized_of_ok hstate hne hsystem

/-- One client sets a key while another one asks for it and then breaks its stream. -/
theorem run_serializes_pair :
    CompletesFor (0 + 12 * maxArrayLength) (((start ⟨{}, .withHasher (fun _ => 0)⟩
      [[asBytes "*3\r\n$3\r\nSET\r\n$1\r\na\r\n$1\r\nb\r\n"],
        [asBytes "*2\r\n$3\r\nGET\r\n$1\r\na\r\n", asBytes "?\r\n"]]).run
      [.serve 0, .serve 1, .serve 1, .serve 0, .cleanUp, .serve 0, .serve 1, .serve 1, .serve 0,
        .serve 1, .serve 0, .serve 1]).run (Stream'.const 7))
      (fun (system, _) => Serialized ⟨{}, .withHasher (fun _ => 0)⟩
        [[asBytes "*3\r\n$3\r\nSET\r\n$1\r\na\r\n$1\r\nb\r\n"],
          [asBytes "*2\r\n$3\r\nGET\r\n$1\r\na\r\n", asBytes "?\r\n"]]
        [.serve 0, .serve 1, .serve 1, .serve 0, .cleanUp, .serve 0, .serve 1, .serve 1, .serve 0,
          .serve 1, .serve 0, .serve 1] (Stream'.const 7) system) :=
  @run_serializes ⟨{}, .withHasher (fun _ => 0)⟩
    ⟨{}, fun _ => 0, Stream'.const 0, Stream'.const 0, rfl⟩ _ (by decide)
    [.serve 0, .serve 1, .serve 1, .serve 0, .cleanUp, .serve 0, .serve 1, .serve 1, .serve 0,
      .serve 1, .serve 0, .serve 1] _

/-! Reading the responses back. -/

/-- A client that sends `requests` and then closes its side is answered with one response
    for each, the one that the order of the run gives. They are read back from the bytes, in
    order and up to a clean end, exactly when no request has a text with a CRLF where the
    server quotes it in an error. -/
theorem replies_read_back {state : ServerState} (hstate : state.Started) {sources : List Source}
    (hne : ∀ source ∈ sources, ∀ chunk ∈ source, chunk ≠ []) {i : ℕ} {source : Source}
    (hsource : sources[i]? = some source) {requests : List Request}
    (hrequests : readAll RequestReader.readNext (RequestReader.new source) = .ok (requests, none))
    {turns : List Turn} (hturns : 4 * requests.length + 2 ≤ turns.count (.serve i)) (clock : Clock) :
    Completes (((start state sources).run turns).run clock) (fun (system, _) =>
      Serialized state sources turns clock system ∧
      ∃ connection, system.connections[i]? = some connection ∧ connection.phase = .closed ∧
        List.Forall₂ Computed requests connection.sent ∧
        ∀ chunks : Source, (∀ chunk ∈ chunks, chunk ≠ []) → chunks.flatten = connection.outbound →
          Completes (readAll ResponseReader.readNext (ResponseReader.new chunks)) (fun result =>
            result = (connection.sent, none) ↔ ∀ request ∈ requests, ¬request.Breaks)) := by
  have hanswers := run_answers hstate.sized hne hsource hrequests hturns clock
  cases hrun : ((start state sources).run turns).run clock with
  | error f => exact hanswers.of_error hrun
  | ok r => ?_
  obtain ⟨connection, hconnection, hclosed, _, hout, answers, hcomputed, hsent⟩ :=
    hanswers.of_ok hrun
  refine ⟨serialized_of_ok hstate hne hrun, ?_⟩
  have hlimits : ∀ request ∈ requests, request.WithinLimits := by
    intro request hr
    have hsources := hne source (List.mem_of_getElem? hsource)
    exact RequestReader.Accepted.withinLimits ⟨source, hsources, requests, none, hrequests, hr⟩
  have hanswers : connection.sent = answers := hsent.trans (List.append_nil answers)
  subst hanswers
  refine ⟨connection, hconnection, hclosed, hcomputed, ?_⟩
  intro chunks hchunks hflat
  have hread := @readAll_answers _ _ none hcomputed hlimits _ hchunks
    (by rw [hflat, hout, ← hsent])
  rwa [← hsent] at hread

/-- A `GET` beside a client whose stream is no request. -/
theorem replies_read_back_get : Completes
    (((start ⟨{}, .withHasher (fun _ => 0)⟩
      [[asBytes "*2\r\n$3\r\nGE", asBytes "T\r\n$1\r\na\r\n"], [asBytes "?\r\n"]]).run
      [.serve 0, .serve 1, .serve 0, .cleanUp, .serve 0, .serve 0, .serve 1, .serve 0,
        .serve 0]).run (Stream'.const 7))
    (fun (system, _) => Serialized ⟨{}, .withHasher (fun _ => 0)⟩
        [[asBytes "*2\r\n$3\r\nGE", asBytes "T\r\n$1\r\na\r\n"], [asBytes "?\r\n"]]
        [.serve 0, .serve 1, .serve 0, .cleanUp, .serve 0, .serve 0, .serve 1, .serve 0, .serve 0]
        (Stream'.const 7) system ∧
      ∃ connection, system.connections[0]? = some connection ∧
      connection.phase = .closed ∧
      List.Forall₂ Computed [⟨[asBytes "GET", asBytes "a"]⟩] connection.sent ∧
      ∀ chunks : Source, (∀ chunk ∈ chunks, chunk ≠ []) → chunks.flatten = connection.outbound →
        Completes (readAll ResponseReader.readNext (ResponseReader.new chunks)) (fun result =>
          result = (connection.sent, none) ↔
            ∀ request ∈ [⟨[asBytes "GET", asBytes "a"]⟩], ¬Request.Breaks request)) :=
  replies_read_back ⟨{}, fun _ => 0, Stream'.const 0, Stream'.const 0, rfl⟩ (by decide) rfl rfl
    (by decide) _

set_option maxRecDepth 4000 in
/-- The one response to the name `A\r\nB` is read back as a shorter error, and what follows
    its CRLF is no response. -/
theorem replies_cut_at_crlf : ∃ state system connection,
    (ServerState.fromWal {} (fun _ => 0)).run (Stream'.const 0) = .ok (state, Stream'.const 0) ∧
    readAll RequestReader.readNext (RequestReader.new [asBytes "*1\r\n$4\r\nA\r\nB\r\n"]) =
      .ok ([⟨[asBytes "A\r\nB"]⟩], none) ∧
    ((start state [[asBytes "*1\r\n$4\r\nA\r\nB\r\n"]]).run (List.replicate 6 (.serve 0))).run
      (Stream'.const 0) = .ok (system, Stream'.const 0) ∧
    system.connections = [connection] ∧ connection.phase = .closed ∧
    connection.sent = [.error (CommandError.unrecognizedCommand "A\r\nB").toString] ∧
    ∃ result, readAll ResponseReader.readNext (ResponseReader.new [connection.outbound]) =
        .ok result ∧
      result = ([.error "unrecognized command name: A"], some (.unexpectedPrefix 66)) ∧
      result ≠ (connection.sent, none) := by
  refine ⟨_, _, _, rfl, rfl, rfl, rfl, rfl, rfl,
    ([.error "unrecognized command name: A"], some (.unexpectedPrefix 66)), rfl, rfl, ?_⟩
  intro h
  cases (Prod.mk.inj h).2

end System

end SimpleKv
