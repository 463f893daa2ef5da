import SimpleKv.LockingHistory
import SimpleKv.Replies

/- The lock makes what is done under it one step. Whatever the tasks do in between, a run of
   the server with the lock in it is a run of the server in `Connection`, in which a
   command is executed at the turn that gives the lock back, with just the readings of the
   clock its task has made while it had the lock (`run_atomic`). -/
namespace SimpleKv
open RwLock Tape Outcome

namespace Command

theorem parseExpire_local (args : List Bytes) (total : Nat) : Local (parseExpire args total) := by
  refine (Local.lift _).bind (fun parsed => ?_)
  cases parsed with
  | error e => exact .pure _
  | ok expiration => exact Section.readClock_local.bind (fun _ => .pure _)

theorem tryFrom_local (request : Request) : Local (tryFrom request) := by
  unfold tryFrom
  refine .ite (.pure _) ((Local.lift _).bind (fun nameBytes => ?_))
  cases fromUtf8 nameBytes with
  | error e => exact .pure _
  | ok commandName =>
    refine .ite (.lift _) (.ite (.lift _) (.ite (.lift _) (.ite (.lift _) (.ite (.lift _)
      (.ite (.lift _) (.ite (parseExpire_local _ _) (.ite (.lift _) (.ite (.lift _)
        (.pure _)))))))))

end Command

namespace Connection

theorem step_local {self : Connection} (h : ∀ command, self.phase ≠ .executing command)
    (state : ServerState) : Local (self.step state) := by
  unfold step
  cases hp : self.phase with
  | reading =>
    refine (Local.lift _).bind (fun r => ?_)
    obtain ⟨result, requestReader⟩ := r
    cases result with
    | error e => exact .pure _
    | ok found => cases found <;> exact .pure _
  | parsing request =>
    refine (Command.tryFrom_local request).bind (fun result => ?_)
    cases result <;> exact .pure _
  | executing command => exact absurd hp (h command)
  | sending response last => exact .pure _
  | closed => exact .pure _

/-- A connection that has no command to execute takes its step without the server. -/
theorem exists_stepAlone {self : Connection} (h : ∀ command, self.phase ≠ .executing command) :
    ∃ alone : Clocked Connection, Local alone ∧
      ∀ state, self.step state = alone >>= fun connection => pure (connection, state) := by
  refine ⟨self.step ⟨{}, .withHasher (fun _ => 0)⟩ >>= fun r => pure r.1,
    (step_local h _).bind (fun _ => .pure _), fun state => ?_⟩
  unfold step
  rw [bind_assoc]
  cases hp : self.phase with
  | reading =>
    simp only [bind_assoc]
    congr 1
    funext r
    obtain ⟨result, requestReader⟩ := r
    cases result with
    | error e => rfl
    | ok found => cases found <;> rfl
  | parsing request =>
    simp only [bind_assoc]
    congr 1
    funext result
    cases result <;> rfl
  | executing command => exact absurd hp (h command)
  | sending response last => rfl
  | closed => rfl

end Connection

namespace LockedSystem

/-- Where the task of a turn starts when it gets the lock. -/
def begun (self : LockedSystem) : Turn → Section
  | .cleanUp => .collect 0 []
  | .serve i =>
    match (self.system.connections[i]?).map Connection.phase with
    | some (.executing command) => .ofCommand command
    | _ => .collect 0 []

theorem begun_serve {self : LockedSystem} {i : ℕ} {connection : Connection} {command : Command}
    (hi : self.system.connections[i]? = some connection) (hphase : connection.phase = .executing command) :
    self.begun (.serve i) = .ofCommand command := by
  unfold begun
  simp only [hi, Option.map_some, hphase]

theorem begun_reading {self : LockedSystem} {i : ℕ} {connection : Connection} {command : Command}
    (hi : self.system.connections[i]? = some connection) (hphase : connection.phase = .executing command)
    (hmode : modeOf command = .shared) : (self.begun (.serve i)).Reading := by
  rw [begun_serve hi hphase]
  apply Section.reading_ofCommand
  by_contra hwrite
  unfold modeOf at hmode
  rw [if_pos (by simpa using hwrite)] at hmode
  cases hmode

theorem held_insert (self : LockedSystem) (system : System) (task : Turn) (guard : Guard Section) :
    held { system, guards := self.guards.insert task guard } =
      Function.update self.held task (some guard) := by
  funext other
  unfold held
  by_cases h : other = task
  · subst h
    rw [Function.update_self]
    exact AList.lookup_insert _
  · rw [Function.update_of_ne h]
    exact AList.lookup_insert_ne h

theorem held_erase (self : LockedSystem) (system : System) (task : Turn) :
    held { system, guards := self.guards.erase task } = Function.update self.held task none := by
  funext other
  unfold held
  by_cases h : other = task
  · subst h
    rw [Function.update_self]
    exact AList.lookup_erase _ _
  · rw [Function.update_of_ne h]
    exact AList.lookup_erase_ne h

theorem grants_held {self : LockedSystem} {mode : Mode} (h : self.grants mode = true) :
    Grants self.held mode := by
  cases mode with
  | shared =>
    intro task guard hheld
    have hmem := AList.mem_lookup_iff.mp hheld
    exact of_decide_eq_true (List.all_eq_true.mp h _ hmem)
  | exclusive =>
    intro task
    cases hheld : self.held task with
    | none => rfl
    | some guard =>
      have hmem := AList.mem_lookup_iff.mp hheld
      rw [List.isEmpty_iff.mp h] at hmem
      cases hmem

/-- A turn under the lock. Where it fails or ends the section, it does what the section
    does in one piece, on what its task has read since it took the lock. -/
theorem lockTurn_atomic {self : LockedSystem} {begun : Turn → Section} {account : Account}
    {s₀ : ServerState} (h : Atomic sections begun self.held account.own s₀ self.system.state)
    (task : Turn) (mode : Mode) (hasks : self.held task = none → self.asks task = some mode)
    (hmode : mode = .shared → (begun task).Reading) (clock : Clock) :
    Yields (fun f => ((begun task).rest s₀).run (account.own task ++ₛ clock) = .error f)
      ((self.lockTurn task mode (begun task)).run clock) (fun ((result, self'), clock') =>
        ∃ vs, clock = vs ++ₛ clock' ∧
          (∀ rest, (self.lockTurn task mode (begun task)).run (vs ++ₛ rest) =
            .ok ((result, self'), rest)) ∧
          self'.system.connections = self.system.connections ∧
          (∀ other, other ≠ task → self'.held other = self.held other) ∧
          Atomic sections begun self'.held (account.add ⟨task, self.use task, vs⟩).own
            (if result.isSome then self'.system.state else s₀) self'.system.state ∧
          match result with
          | none => (account.add ⟨task, self.use task, vs⟩).script = account.script
          | some r => self'.held task = none ∧
              (account.add ⟨task, self.use task, vs⟩).script =
                account.script ++ [(task, account.own task)] ∧
              ∀ tape, ((begun task).rest s₀).run (account.own task ++ₛ tape) =
                .ok ((r, self'.system.state), tape)) := by
  unfold lockTurn use
  cases hheld : self.guards.lookup task with
  | none =>
    have hasks := hasks hheld
    by_cases hgrants : self.grants mode = true
    · simp only [hasks, if_pos hgrants]
      refine ⟨[], rfl, fun _ => rfl, rfl, fun other hother => ?_, ?_, rfl⟩
      · rw [held_insert, Function.update_of_ne hother]
      · show Atomic _ _ (held _) _ _ _
        rw [held_insert]
        exact h.acquire (grants_held hgrants) hmode
    · simp only [hasks, if_neg hgrants]
      exact ⟨[], rfl, fun _ => rfl, rfl, fun _ _ => rfl, h, rfl⟩
  | some guard =>
    cases hresult : guard.progress.result with
    | some result =>
      obtain ⟨hrun, hatomic⟩ := h.release (i := task) hheld hresult
      simp only [hresult, Option.isSome_some, if_true]
      refine ⟨[], rfl, fun _ => rfl, rfl, fun other hother => ?_, ?_, ?_, rfl, hrun⟩
      · rw [held_erase, Function.update_of_ne hother]
      · rw [held_erase]
        exact hatomic
      · rw [held_erase, Function.update_self]
    | none =>
      simp only [hresult, Option.isSome_none, Bool.false_eq_true, if_false]
      rw [StateT.run_bind]
      cases hrun : (guard.progress.step self.system.state).run clock with
      | error f => exact (h.within task guard hheld).error hresult hrun
      | ok r =>
        obtain ⟨⟨progress, state⟩, clock'⟩ := r
        obtain ⟨vs, hclock, hvs⟩ := guard.progress.step_local self.system.state hrun
        refine ⟨vs, hclock, fun rest => ?_, rfl, fun other hother => ?_, ?_, rfl⟩
        · rw [StateT.run_bind, hvs]
          rfl
        · rw [held_insert, Function.update_of_ne hother]
        · show Atomic _ _ (held _) _ _ _
          rw [held_insert]
          exact h.step (i := task) hheld hresult hvs clock

/-! Runs. -/

/-- `self`, to which the history has led, stands where the server without the lock stands
    after the turns of the script, each with the readings it has beside it. The sections
    under way are still to come in it. -/
structure Simulates (state : ServerState) (sources : List Source) (history : List Record)
    (abstract : System) (concrete : LockedSystem) : Prop where
  trace : Trace (start state sources) history concrete
  run : ∀ clock, ((System.start state sources).run ((script history).map Prod.fst)).run
    ((script history).flatMap Prod.snd ++ₛ clock) = .ok (abstract, clock)
  connections : abstract.connections = concrete.system.connections
  atomic : Atomic sections concrete.begun concrete.held (account history).own abstract.state
    concrete.system.state
  executing : ∀ i guard, concrete.held (.serve i) = some guard → ∃ connection command,
    concrete.system.connections[i]? = some connection ∧ connection.phase = .executing command

variable {state : ServerState} {sources : List Source} {history : List Record}
  {abstract : System} {self : LockedSystem}

theorem start_simulates : Simulates state sources [] (.start state sources) (start state sources) where
  trace := .start
  run _ := rfl
  connections := rfl
  atomic := .free _ _ _
  executing _ _ h := by cases h

/-- One more turn of the script. -/
theorem Simulates.run_snoc (h : Simulates state sources history abstract self) (turn : Turn)
    (us : List UInt64) (clock : Clock) :
    ((System.start state sources).run ((script history ++ [(turn, us)]).map Prod.fst)).run
      ((script history ++ [(turn, us)]).flatMap Prod.snd ++ₛ clock) =
        (abstract.turn turn).run (us ++ₛ clock) := by
  have hrun := h.run (us ++ₛ clock)
  unfold System.run at hrun ⊢
  rw [List.map_append, List.foldlM_append, StateT.run_bind, List.flatMap_append,
    Stream'.append_append_stream]
  simp only [List.flatMap_singleton, List.map_cons, List.map_nil]
  rw [hrun]
  show (List.foldlM System.turn abstract [turn]).run (us ++ₛ clock) = _
  simp only [List.foldlM_cons, List.foldlM_nil, bind_pure]

/-! The turns of the server without the lock, by the sections. -/

theorem turn_executing {abstract : System} {i : ℕ} {connection : Connection} {command : Command}
    (hi : abstract.connections[i]? = some connection) (hphase : connection.phase = .executing command)
    (clock : Clock) :
    Yields (fun f => (abstract.turn (.serve i)).run clock = .error f)
      (((Section.ofCommand command).rest abstract.state).run clock) (fun ((r, state'), clock') =>
        ∃ response, r = .inl response ∧ (abstract.turn (.serve i)).run clock =
          .ok (⟨state', abstract.connections.set i { connection with phase := .sending response false }⟩,
            clock')) := by
  rw [Section.rest_ofCommand, StateT.run_bind]
  simp only [System.turn, hi, Connection.step, hphase, bind_assoc]
  rw [StateT.run_bind]
  cases (abstract.state.execute command none).run clock with
  | error f => rfl
  | ok r => exact ⟨r.1.1, rfl, rfl⟩

theorem turn_cleanUp (abstract : System) (clock : Clock) :
    Yields (fun f => (abstract.turn .cleanUp).run clock = .error f)
      (((Section.collect 0 []).rest abstract.state).run clock) (fun ((_, state'), clock') =>
        (abstract.turn .cleanUp).run clock = .ok ({ abstract with state := state' }, clock')) := by
  rw [Section.rest_collect, StateT.run_bind]
  simp only [System.turn]
  rw [StateT.run_bind]
  cases abstract.state.removeExpired.run clock with
  | error f => rfl
  | ok r => rfl

/-- The server without the lock does not panic. -/
def Safe (state : ServerState) (sources : List Source) : Prop :=
  ∀ turns, CompletesAlways ((System.start state sources).run turns) (fun _ => True)

theorem started_safe (hstate : state.Started) (hne : ∀ source ∈ sources, ∀ chunk ∈ source, chunk ≠ []) :
    Safe state sources := fun _ =>
  (System.run_serves (System.start_serves hstate.sized hne)).mono (fun _ _ => trivial)

/-- A turn of the script that fails for want of memory. -/
theorem Simulates.outOfMemory (h : Simulates state sources history abstract self)
    (hsafe : Safe state sources) (turn : Turn) (us : List UInt64) (clock : Clock) {f : Fault}
    (hturn : (abstract.turn turn).run (us ++ₛ clock) = .error f) : f.OutOfMemory :=
  Yields.of_error (hsafe _ _) ((h.run_snoc turn us clock).trans hturn)

/-- The script goes on with a turn that the server without the lock takes now. -/
theorem Simulates.snoc (h : Simulates state sources history abstract self) {task : Turn}
    {us vs : List UInt64} {abstract' : System} {self' : LockedSystem}
    (hrun : ∀ clock, (self.turn task).run (vs ++ₛ clock) = .ok (self', clock))
    (hscript : ((account history).add ⟨task, self.use task, vs⟩).script = script history ++ [(task, us)])
    (hturn : ∀ clock, (abstract.turn task).run (us ++ₛ clock) = .ok (abstract', clock))
    (hconnections : abstract'.connections = self'.system.connections)
    (hatomic : Atomic sections self'.begun self'.held
      ((account history).add ⟨task, self.use task, vs⟩).own abstract'.state self'.system.state)
    (hexecuting : ∀ i guard, self'.held (.serve i) = some guard → ∃ connection command,
      self'.system.connections[i]? = some connection ∧ connection.phase = .executing command) :
    Simulates state sources (history ++ [⟨task, self.use task, vs⟩]) abstract' self' where
  trace := h.trace.turn hrun
  run clock := by
    rw [script, account_snoc, hscript]
    exact (h.run_snoc task us clock).trans (hturn clock)
  connections := hconnections
  atomic := by
    rw [account_snoc]
    exact hatomic
  executing := hexecuting

/-- The script stays as it is. -/
theorem Simulates.stay (h : Simulates state sources history abstract self) {task : Turn}
    {vs : List UInt64} {self' : LockedSystem}
    (hrun : ∀ clock, (self.turn task).run (vs ++ₛ clock) = .ok (self', clock))
    (hscript : ((account history).add ⟨task, self.use task, vs⟩).script = script history)
    (hconnections : self'.system.connections = self.system.connections)
    (hatomic : Atomic sections self'.begun self'.held
      ((account history).add ⟨task, self.use task, vs⟩).own abstract.state self'.system.state)
    (hexecuting : ∀ i guard, self'.held (.serve i) = some guard → ∃ connection command,
      self'.system.connections[i]? = some connection ∧ connection.phase = .executing command) :
    Simulates state sources (history ++ [⟨task, self.use task, vs⟩]) abstract self' where
  trace := h.trace.turn hrun
  run clock := by
    rw [script, account_snoc, hscript]
    exact h.run clock
  connections := h.connections.trans hconnections.symm
  atomic := by
    rw [account_snoc]
    exact hatomic
  executing := hexecuting

theorem begun_congr {self' : LockedSystem}
    (h : self'.system.connections = self.system.connections) : self'.begun = self.begun := by
  funext task
  unfold begun
  rw [h]

/-- Only the task of connection `i` starts elsewhere when `i` has moved. -/
theorem begun_set {self' : LockedSystem} {i : ℕ} {connection : Connection}
    (h : self'.system.connections = self.system.connections.set i connection) {task : Turn}
    (htask : task ≠ .serve i) : self'.begun task = self.begun task := by
  cases task with
  | cleanUp => rfl
  | serve j =>
    have hij : i ≠ j := fun heq => htask (by rw [heq])
    simp only [begun, h, List.getElem?_set_ne hij]

/-- What a turn amounts to: one more record, made of the readings of the turn. -/
def Goes (state : ServerState) (sources : List Source) (history : List Record)
    (self : LockedSystem) (task : Turn) (clock : Clock) : LockedSystem × Clock → Prop :=
  fun (self', clock') => ∃ vs abstract', clock = vs ++ₛ clock' ∧
    Simulates state sources (history ++ [⟨task, self.use task, vs⟩]) abstract' self'

/-- What a connection makes of a turn under the lock. -/
def settle (self : LockedSystem) (i : ℕ) (connection : Connection)
    (result : Option (Response ⊕ Nat)) : LockedSystem :=
  match result with
  | some (.inl response) =>
    self.setConnection i { connection with phase := .sending response false }
  | _ => self

theorem turn_locking {i : ℕ} {connection : Connection} {command : Command}
    (hi : self.system.connections[i]? = some connection)
    (hphase : connection.phase = .executing command) (clock : Clock) :
    (self.turn (.serve i)).run clock =
      (self.lockTurn (.serve i) (modeOf command) (.ofCommand command)).run clock >>= fun r =>
        .ok (r.1.2.settle i connection r.1.1, r.2) := by
  simp only [LockedSystem.turn, hi, hphase]
  rw [StateT.run_bind]
  congr 1
  funext ⟨⟨result, self'⟩, clock'⟩
  rcases result with _ | _ | _ <;> rfl

/-- A connection that waits for the lock, or has it. -/
theorem Simulates.serve_executing (h : Simulates state sources history abstract self)
    (hsafe : Safe state sources) {i : ℕ} {connection : Connection} {command : Command}
    (hi : self.system.connections[i]? = some connection) (hphase : connection.phase = .executing command)
    (clock : Clock) :
    Completes ((self.turn (.serve i)).run clock) (Goes state sources history self (.serve i) clock) := by
  have habstract : abstract.connections[i]? = some connection := by rw [h.connections, hi]
  have hbegun := begun_serve hi hphase
  have hlock := lockTurn_atomic h.atomic (.serve i) (modeOf command) (asks_executing hi hphase)
    (begun_reading hi hphase) clock
  rw [hbegun] at hlock
  have hstart := turn_locking hi hphase
  rw [hstart]
  cases hrun : (self.lockTurn (.serve i) (modeOf command) (.ofCommand command)).run clock with
  | error f =>
    exact h.outOfMemory hsafe _ _ clock
      ((turn_executing habstract hphase _).of_error (hlock.of_error hrun))
  | ok r =>
    obtain ⟨⟨result, self'⟩, clock'⟩ := r
    obtain ⟨vs, hclock, hall, hsame, hother, hatomic, hpost⟩ := hlock.of_ok hrun
    cases result with
    | none =>
      show Goes state sources history self (.serve i) clock (self', clock')
      refine ⟨vs, abstract, hclock, h.stay (fun clock => ?_) hpost hsame ?_ ?_⟩
      · rw [hstart, hall]
        rfl
      · show Atomic _ self'.begun _ _ _ _
        rw [begun_congr hsame]
        exact hatomic
      · intro j guard hj
        by_cases hij : j = i
        · subst hij
          exact ⟨connection, command, by rw [hsame]; exact hi, hphase⟩
        · rw [hother (.serve j) (by simp [hij])] at hj
          rw [hsame]
          exact h.executing j guard hj
    | some result =>
      obtain ⟨hfree, hscript, hsection⟩ := hpost
      have hturn := fun clock => (turn_executing habstract hphase _).of_ok (hsection clock)
      obtain ⟨response, rfl, _⟩ := hturn clock
      show Goes state sources history self (.serve i) clock
        (self'.setConnection i { connection with phase := .sending response false }, clock')
      refine ⟨vs, ⟨self'.system.state, abstract.connections.set i
          { connection with phase := .sending response false }⟩, hclock,
        h.snoc (fun clock => ?_) hscript (fun clock => ?_) ?_ ?_ ?_⟩
      · rw [hstart, hall]
        rfl
      · obtain ⟨_, hresponse, hrun⟩ := hturn clock
        cases hresponse
        exact hrun
      · show abstract.connections.set i _ = self'.system.connections.set i _
        rw [h.connections, hsame]
      · exact hatomic.congr
          (self'.setConnection i { connection with phase := .sending response false }).begun
          (fun task hheld => begun_set (congrArg (List.set · i _) hsame) (fun heq => by
            rw [heq] at hheld
            exact hheld hfree))
      · intro j guard hj
        have hij : j ≠ i := by
          rintro rfl
          rw [show self'.held (.serve j) = some guard from hj] at hfree
          cases hfree
        have hj' : self.held (.serve j) = some guard := by
          rw [← hother (.serve j) (by simp [hij])]
          exact hj
        obtain ⟨connection', command', hconnection, hp⟩ := h.executing j guard hj'
        refine ⟨connection', command', ?_, hp⟩
        show (self'.system.connections.set i _)[j]? = _
        rw [hsame, List.getElem?_set_ne (Ne.symm hij)]
        exact hconnection

/-- The turn of a connection that does not need the lock leaves everything else alone. -/
theorem turn_alone {i : ℕ} {connection : Connection} (hi : self.system.connections[i]? = some connection)
    (hphase : ∀ command, connection.phase ≠ .executing command) {alone : Clocked Connection}
    (hstep : ∀ state, connection.step state = alone >>= fun connection => pure (connection, state)) :
    self.turn (.serve i) = alone >>= fun connection => pure (self.setConnection i connection) := by
  simp only [LockedSystem.turn, hi]
  cases hp : connection.phase with
  | executing command => exact absurd hp (hphase command)
  | reading | parsing | sending | closed => simp [hstep]

/-- The clients that do not need the lock have nothing to give back. -/
theorem Simulates.serve_apart (h : Simulates state sources history abstract self) {i : ℕ}
    (hphase : ∀ connection command, self.system.connections[i]? = some connection →
      connection.phase ≠ .executing command) :
    self.held (.serve i) = none ∧ self.use (.serve i) = .apart := by
  have hheld : self.held (.serve i) = none := by
    by_contra hheld
    obtain ⟨guard, hguard⟩ := Option.ne_none_iff_exists'.mp hheld
    obtain ⟨connection, command, hi, hp⟩ := h.executing i guard hguard
    exact hphase connection command hi hp
  refine ⟨hheld, use_apart hheld ?_⟩
  by_contra hasks
  obtain ⟨mode, hmode⟩ := Option.ne_none_iff_exists'.mp hasks
  obtain ⟨_, ⟨heq, _⟩ | ⟨j, connection, command, heq, hj, hp, _⟩⟩ := asks_eq_some hmode
  · cases heq
  · cases heq
    exact hphase connection command hj hp

/-- A connection that does not need the lock. -/
theorem Simulates.serve_other (h : Simulates state sources history abstract self)
    (hsafe : Safe state sources) {i : ℕ} {connection : Connection}
    (hi : self.system.connections[i]? = some connection)
    (hphase : ∀ command, connection.phase ≠ .executing command) (clock : Clock) :
    Completes ((self.turn (.serve i)).run clock) (Goes state sources history self (.serve i) clock) := by
  have habstract : abstract.connections[i]? = some connection := by rw [h.connections, hi]
  obtain ⟨alone, hlocal, hstep⟩ := Connection.exists_stepAlone hphase
  -- it does the same to both servers
  have hconcrete := turn_alone hi hphase hstep
  have hturn : abstract.turn (.serve i) = alone >>= fun connection => pure { abstract with
      connections := abstract.connections.set i connection } := by
    simp [System.turn, habstract, hstep]
  obtain ⟨hfree, huse⟩ := h.serve_apart (i := i) (fun connection' command hi' => by
    cases hi.symm.trans hi'
    exact hphase command)
  rw [hconcrete, StateT.run_bind]
  cases hrun : alone.run clock with
  | error f =>
    refine h.outOfMemory hsafe (.serve i) [] clock ?_
    rw [hturn, StateT.run_bind, Stream'.nil_append_stream, hrun]
    rfl
  | ok r =>
    obtain ⟨connection', clock'⟩ := r
    obtain ⟨vs, rfl, hvs⟩ := hlocal hrun
    refine ⟨vs, { abstract with connections := abstract.connections.set i connection' }, rfl,
      h.snoc (fun clock => ?_) (by rw [huse]; rfl) (fun clock => ?_) ?_ ?_ ?_⟩
    · rw [hconcrete, StateT.run_bind, hvs]
      rfl
    · rw [hturn, StateT.run_bind, hvs]
      rfl
    · show abstract.connections.set i _ = self.system.connections.set i _
      rw [h.connections]
    · rw [huse]
      exact h.atomic.congr _ (fun task hheld => begun_set rfl (fun heq => by
        rw [heq] at hheld
        exact hheld hfree))
    · intro j guard hj
      have hheld : self.held (.serve j) = some guard := hj
      have hij : j ≠ i := by
        rintro rfl
        rw [hfree] at hheld
        cases hheld
      obtain ⟨connection'', command', hconnection, hp⟩ := h.executing j guard hheld
      refine ⟨connection'', command', ?_, hp⟩
      show (self.system.connections.set i _)[j]? = _
      rw [List.getElem?_set_ne (Ne.symm hij)]
      exact hconnection

theorem turn_simulates (hsafe : Safe state sources)
    (h : Simulates state sources history abstract self) (task : Turn) (clock : Clock) :
    Completes ((self.turn task).run clock) (Goes state sources history self task clock) := by
  cases task with
  | cleanUp =>
    have hlock := lockTurn_atomic h.atomic .cleanUp .exclusive asks_cleanUp (fun hm => by cases hm) clock
    have hstart : ∀ clock, (self.turn .cleanUp).run clock =
        (self.lockTurn .cleanUp .exclusive (.collect 0 [])).run clock >>= fun r =>
          .ok (r.1.2, r.2) := fun _ => rfl
    rw [hstart]
    cases hrun : (self.lockTurn .cleanUp .exclusive (.collect 0 [])).run clock with
    | error f =>
      exact h.outOfMemory hsafe _ _ clock ((turn_cleanUp abstract _).of_error (hlock.of_error hrun))
    | ok r =>
      obtain ⟨⟨result, self'⟩, clock'⟩ := r
      obtain ⟨vs, hclock, hall, hsame, hother, hatomic, hpost⟩ := hlock.of_ok hrun
      have hself' : ∀ clock, (self.turn .cleanUp).run (vs ++ₛ clock) = .ok (self', clock) := by
        intro clock
        rw [hstart, show self.lockTurn .cleanUp .exclusive (.collect 0 []) =
          self.lockTurn .cleanUp .exclusive (self.begun .cleanUp) from rfl, hall]
        rfl
      have hexecuting : ∀ i guard, self'.held (.serve i) = some guard → ∃ connection command,
          self'.system.connections[i]? = some connection ∧ connection.phase = .executing command := by
        intro i guard hi
        rw [hother (.serve i) (by simp)] at hi
        rw [hsame]
        exact h.executing i guard hi
      cases result with
      | none =>
        refine ⟨vs, abstract, hclock, h.stay hself' hpost hsame ?_ hexecuting⟩
        rw [begun_congr hsame]
        exact hatomic
      | some result =>
        obtain ⟨_, hscript, hsection⟩ := hpost
        refine ⟨vs, { abstract with state := self'.system.state }, hclock,
          h.snoc hself' hscript (fun clock => ?_) (h.connections.trans hsame.symm) ?_ hexecuting⟩
        · exact (turn_cleanUp abstract _).of_ok (hsection clock)
        · rw [begun_congr hsame]
          exact hatomic
  | serve i =>
    cases hi : self.system.connections[i]? with
    | none =>
      have huse := (h.serve_apart (i := i) (fun connection command hi' => by
        rw [hi] at hi'
        cases hi')).2
      have hself : self.turn (.serve i) = pure self := by
        simp only [LockedSystem.turn, hi]
      rw [hself]
      refine ⟨[], abstract, rfl, h.snoc (fun clock => ?_) (by rw [huse]; rfl) (fun clock => ?_)
        h.connections ?_ h.executing⟩
      · rw [hself]
        rfl
      · simp only [System.turn, h.connections, hi]
        rfl
      · rw [huse]
        exact h.atomic
    | some connection =>
      by_cases hphase : ∃ command, connection.phase = .executing command
      · obtain ⟨command, hphase⟩ := hphase
        exact h.serve_executing hsafe hi hphase clock
      · have hother : ∀ command, connection.phase ≠ .executing command :=
          fun command hp => hphase ⟨command, hp⟩
        exact h.serve_other hsafe hi hother clock

theorem run_simulates (hsafe : Safe state sources) : ∀ (turns : List Turn) {history : List Record}
    {abstract : System} {self : LockedSystem}, Simulates state sources history abstract self →
    ∀ clock, Completes ((self.run turns).run clock) (fun (self', clock') => ∃ after abstract',
      clock = readings after ++ₛ clock' ∧ after.map Record.task = turns ∧
        Simulates state sources (history ++ after) abstract' self')
  | [], history, abstract, self, h, clock => by
    refine ⟨[], abstract, rfl, rfl, ?_⟩
    rw [List.append_nil]
    exact h
  | turn :: turns, history, abstract, self, h, clock => by
    unfold run
    rw [List.foldlM_cons, StateT.run_bind]
    apply Yields.bind (turn_simulates hsafe h turn clock)
    intro (self', clock') hturn
    obtain ⟨vs, abstract', rfl, h'⟩ := hturn
    apply Yields.mono (run_simulates hsafe turns h' clock')
    intro (self'', clock'') hrest
    obtain ⟨after, abstract'', rfl, rfl, h''⟩ := hrest
    refine ⟨⟨turn, self.use turn, vs⟩ :: after, abstract'', ?_, rfl, ?_⟩
    · exact (Stream'.append_append_stream vs (readings after) clock'').symm
    · rw [List.append_assoc] at h''
      exact h''

/-- The server with the lock in it does what the server does that executes each command
    and each clean-up in one turn, at the turn at which its task gives the lock back, on
    just the readings of the clock that the task has made since it took the lock. What is over
    at some time stays before what comes after. -/
theorem run_atomic {state : ServerState} (hstate : state.Started) {sources : List Source}
    (hne : ∀ source ∈ sources, ∀ chunk ∈ source, chunk ≠ []) (turns later : List Turn)
    (clock : Clock) :
    Completes ((do
        let first ← (start state sources).run turns
        let second ← first.run later
        return (first, second)).run clock) (fun ((first, second), clock') =>
      ∃ past after abstract abstract', clock = readings (past ++ after) ++ₛ clock' ∧
        past.map Record.task = turns ∧ after.map Record.task = later ∧
        Simulates state sources past abstract first ∧
        Simulates state sources (past ++ after) abstract' second ∧
        script past <+: script (past ++ after)) := by
  have hsafe := started_safe hstate hne
  rw [StateT.run_bind]
  apply Yields.bind (run_simulates hsafe turns start_simulates clock)
  intro (first, middle) hfirst
  obtain ⟨past, abstract, rfl, hpast, h⟩ := hfirst
  rw [StateT.run_bind]
  apply Yields.bind (run_simulates hsafe later h middle)
  intro (second, clock') hsecond
  obtain ⟨after, abstract', rfl, hafter, h'⟩ := hsecond
  refine ⟨past, after, abstract, abstract', ?_, hpast, hafter, h, h', script_prefix past after⟩
  rw [readings_append, Stream'.append_append_stream]

/-- Two clients are in their reads when a third one asks for the lock to write. -/
theorem run_atomic_three :
    Completes ((do
        let first ← (start ⟨{}, .withHasher (fun _ => 0)⟩
          [[asBytes "*3\r\n$4\r\nMGET\r\n$1\r\na\r\n$1\r\nb\r\n"],
            [asBytes "*2\r\n$3\r\nGET\r\n$1\r\na\r\n"],
            [asBytes "*3\r\n$3\r\nSET\r\n$1\r\na\r\n$1\r\nb\r\n"]]).run
          ([0, 1, 2, 0, 1, 2, 0, 1, 2, 0].map .serve)
        let second ← first.run ([1, 0, 1, 2, 0, 0, 2, 2].map .serve)
        return (first, second)).run (Stream'.const 7)) (fun ((first, second), clock') =>
      ∃ past after abstract abstract', Stream'.const 7 = readings (past ++ after) ++ₛ clock' ∧
        past.map Record.task = [0, 1, 2, 0, 1, 2, 0, 1, 2, 0].map .serve ∧
        after.map Record.task = [1, 0, 1, 2, 0, 0, 2, 2].map .serve ∧
        Simulates ⟨{}, .withHasher (fun _ => 0)⟩
          [[asBytes "*3\r\n$4\r\nMGET\r\n$1\r\na\r\n$1\r\nb\r\n"],
            [asBytes "*2\r\n$3\r\nGET\r\n$1\r\na\r\n"],
            [asBytes "*3\r\n$3\r\nSET\r\n$1\r\na\r\n$1\r\nb\r\n"]] past abstract first ∧
        Simulates ⟨{}, .withHasher (fun _ => 0)⟩
          [[asBytes "*3\r\n$4\r\nMGET\r\n$1\r\na\r\n$1\r\nb\r\n"],
            [asBytes "*2\r\n$3\r\nGET\r\n$1\r\na\r\n"],
            [asBytes "*3\r\n$3\r\nSET\r\n$1\r\na\r\n$1\r\nb\r\n"]]
          (past ++ after) abstract' second ∧
        script past <+: script (past ++ after)) :=
  run_atomic ⟨{}, fun _ => 0, Stream'.const 0, Stream'.const 0, rfl⟩ (by decide) _ _ _

end LockedSystem
end SimpleKv
