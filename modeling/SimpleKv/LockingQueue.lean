import SimpleKv.Lib.FairLock
import SimpleKv.LockingProgress

/- tokio's `RwLock` is fair: it is given out in the order in which the tasks have asked for
   it, but for readers, which may have it together. With the queue of those that wait the
   server takes fewer runs, all of them runs of `LockedSystem` (`run_locked`). What its turns
   do to the queue and to those that hold the lock is what `Line.Step` says (`turn_step`). -/
namespace SimpleKv
open RwLock Outcome

/-- The server, and the tasks that wait for the lock. -/
structure QueuedSystem where
  locked : LockedSystem
  queue : List (Turn × Mode)

namespace QueuedSystem

def start (state : ServerState) (sources : List Source) : QueuedSystem :=
  { locked := .start state sources, queue := [] }

/-- A task that asks for the lock goes to the end of the queue, and gets it at a later
    turn, the next one if nothing keeps it away. -/
def turn (self : QueuedSystem) (task : Turn) : Clocked QueuedSystem :=
  match self.locked.asks task with
  | none => do return { self with locked := ← self.locked.turn task }
  | some mode =>
    if (self.queue.lookup task).isNone then
      return { self with queue := self.queue ++ [(task, mode)] }
    else if passes mode (ahead task self.queue) && self.locked.grants mode then
      return { locked := ← self.locked.turn task, queue := leave task self.queue }
    else
      return self

def run (turns : List Turn) (self : QueuedSystem) : Clocked QueuedSystem := turns.foldlM turn self

/-! Without the queue. -/

theorem turn_locked (self : QueuedSystem) (task : Turn) (clock : Clock) :
    (∃ self', (self.turn task).run clock = .ok (self', clock) ∧ self'.locked = self.locked) ∨
      (self.locked.turn task).run clock =
        (fun r => (r.1.locked, r.2)) <$> (self.turn task).run clock := by
  unfold turn
  cases self.locked.asks task with
  | none =>
    right
    show _ = _ <$> ((self.locked.turn task).run clock >>= _)
    cases (self.locked.turn task).run clock <;> rfl
  | some mode =>
    by_cases hqueued : (self.queue.lookup task).isNone = true
    · refine .inl ⟨{ self with queue := self.queue ++ [(task, mode)] }, ?_, rfl⟩
      simp only [if_pos hqueued]
      rfl
    · by_cases hnext : (passes mode (ahead task self.queue) && self.locked.grants mode) = true
      · right
        simp only [if_neg hqueued, if_pos hnext]
        show _ = _ <$> ((self.locked.turn task).run clock >>= _)
        cases (self.locked.turn task).run clock <;> rfl
      · refine .inl ⟨self, ?_, rfl⟩
        simp only [if_neg hqueued, if_neg hnext]
        rfl

/-- A run is the run without the queue in which those turns are left out at which a task has
    waited. -/
theorem run_locked : ∀ (turns : List Turn) (self : QueuedSystem) (clock : Clock),
    ∃ turns' : List Turn, turns'.Sublist turns ∧ (self.locked.run turns').run clock =
      (fun r => (r.1.locked, r.2)) <$> (self.run turns).run clock
  | [], self, clock => ⟨[], List.Sublist.refl _, rfl⟩
  | task :: turns, self, clock => by
    unfold run
    rw [List.foldlM_cons, StateT.run_bind]
    rcases turn_locked self task clock with ⟨self', hturn, hlocked⟩ | hturn
    · obtain ⟨turns', hsub, hrun⟩ := run_locked turns self' clock
      rw [hlocked] at hrun
      refine ⟨turns', hsub.cons task, ?_⟩
      rw [hturn]
      exact hrun
    · cases hself : (self.turn task).run clock with
      | error f =>
        refine ⟨[task], List.Sublist.cons_cons task (List.nil_sublist _), ?_⟩
        unfold LockedSystem.run
        rw [List.foldlM_cons, StateT.run_bind, hturn, hself]
        rfl
      | ok r =>
        obtain ⟨self', clock'⟩ := r
        obtain ⟨turns', hsub, hrun⟩ := run_locked turns self' clock'
        refine ⟨task :: turns', hsub.cons_cons task, ?_⟩
        unfold LockedSystem.run
        rw [List.foldlM_cons, StateT.run_bind, hturn, hself]
        exact hrun

end QueuedSystem

/-! What a turn does. -/

namespace Connection

/-- How far the connection has come in its stream. -/
def progress (self : Connection) : Nat :=
  4 * self.accepted.length + match self.phase with
    | .parsing _ => 0
    | .executing _ => 1
    | .sending _ false => 2
    | .reading => 3
    | .sending _ true => 4
    | .closed => 5

/-- A step that does not need the lock brings the connection on, unless it is closed. -/
theorem step_progress {self self' : Connection} (h : ∀ command, self.phase ≠ .executing command)
    {state state' : ServerState} {clock clock' : Clock}
    (hrun : (self.step state).run clock = .ok ((self', state'), clock')) :
    state' = state ∧ (self.phase = .closed ∧ self' = self ∨ self.progress < self'.progress) := by
  unfold step at hrun
  unfold progress
  cases hp : self.phase with
  | reading =>
    simp only [hp] at hrun
    rw [StateT.run_bind] at hrun
    obtain ⟨⟨⟨result, reader⟩, _⟩, _, hrun⟩ := bind_eq_ok.mp hrun
    rcases result with e | request | request
    · cases hrun
      simp
    · cases hrun
      simp
    · cases hrun
      refine ⟨rfl, .inr ?_⟩
      show 4 * self.accepted.length + 3 < 4 * (self.accepted ++ [request]).length + 0
      rw [List.length_append, List.length_singleton]
      omega
  | parsing request =>
    simp only [hp] at hrun
    rw [StateT.run_bind] at hrun
    obtain ⟨⟨result, _⟩, _, hrun⟩ := bind_eq_ok.mp hrun
    cases result <;> cases hrun <;> simp
  | executing command => exact absurd hp (h command)
  | sending response last =>
    simp only [hp] at hrun
    cases hrun
    cases last <;> simp [sendResponse]
  | closed =>
    simp only [hp] at hrun
    cases hrun
    simp

end Connection

namespace LockedSystem
variable {self self' : LockedSystem} {task : Turn} {guard : Guard Section} {clock clock' : Clock}

variable {state : ServerState} {sources : List Source} {history : List Record}
  {abstract : System}

/-- A task that has the lock takes a turn. -/
theorem Simulates.turn_holding (h : Simulates state sources history abstract self)
    (hheld : self.held task = some guard) (hrun : (self.turn task).run clock = .ok (self', clock')) :
    (∀ j, task ≠ .serve j → self'.system.connections[j]? = self.system.connections[j]?) ∧
      (self'.held = Function.update self.held task none ∧
        (∀ i connection, task = .serve i → self.system.connections[i]? = some connection →
          ∃ connection', self'.system.connections[i]? = some connection' ∧
            connection.progress < connection'.progress) ∨
        self'.system.connections = self.system.connections ∧ ∃ progress : Section,
          self'.held = Function.update self.held task (some { guard with progress }) ∧
          progress.left self'.system.state < guard.progress.left self.system.state) := by
  have hleft := h.turn_left hheld hrun
  cases task with
  | cleanUp =>
    obtain ⟨⟨⟨result, next⟩, _⟩, hlock, hrun⟩ := bind_eq_ok.mp hrun
    cases hrun
    obtain ⟨hsame, ⟨_, hfree⟩ | ⟨_, hgoes⟩⟩ := lockTurn_held hheld hlock
    · exact ⟨fun j _ => by rw [hsame], .inl ⟨hfree, fun i _ heq => by cases heq⟩⟩
    · exact ⟨fun j _ => by rw [hsame], .inr ⟨hsame, hgoes⟩⟩
  | serve i =>
    obtain ⟨connection, command, hi, hphase⟩ := h.executing i guard hheld
    have hlen := (List.getElem?_eq_some_iff.mp hi).1
    simp only [LockedSystem.turn, hi, hphase] at hrun
    obtain ⟨⟨⟨result, next⟩, _⟩, hlock, hrun⟩ := bind_eq_ok.mp hrun
    obtain ⟨hsame, ⟨hsome, hfree⟩ | ⟨rfl, hgoes⟩⟩ := lockTurn_held hheld hlock
    · rcases result with _ | response | count
      · exact absurd rfl hsome
      · -- the response is there
        cases hrun
        refine ⟨fun j hj => ?_, .inl ⟨hfree, fun k connection' heq hk => ?_⟩⟩
        · show (next.system.connections.set i _)[j]? = _
          rw [List.getElem?_set_ne (fun heq => hj (by rw [heq])), hsame]
        · cases heq
          cases hi.symm.trans hk
          refine ⟨{ connection with phase := .sending response false }, ?_, ?_⟩
          · show (next.system.connections.set i _)[i]? = _
            rw [List.getElem?_set_self (by rw [hsame]; exact hlen)]
          · simp [Connection.progress, hphase]
      · -- no command ends with the count of a clean-up
        cases hrun
        exfalso
        rcases hleft with ⟨_, hreleased⟩ | ⟨guard', hheld', _⟩
        · obtain ⟨connection', response, hi', hphase'⟩ := hreleased i rfl
          rw [hsame, hi] at hi'
          cases hi'
          simp [hphase] at hphase'
        · rw [hfree, Function.update_self] at hheld'
          cases hheld'
    · cases hrun
      exact ⟨fun j _ => by rw [hsame], .inr ⟨hsame, hgoes⟩⟩

/-- A task that asks for the lock gets it. -/
theorem turn_asking {mode : Mode} (hasks : self.asks task = some mode)
    (hgrants : self.grants mode = true) (hrun : (self.turn task).run clock = .ok (self', clock')) :
    self'.system = self.system ∧
      ∃ progress, self'.held = Function.update self.held task (some ⟨mode, progress⟩) := by
  obtain ⟨hheld, hasks⟩ := asks_eq_some hasks
  have hlookup : self.guards.lookup task = none := hheld
  have hlock : ∀ first, (self.lockTurn task mode first).run clock =
      .ok ((none, { self with guards := self.guards.insert task ⟨mode, first⟩ }), clock) := by
    intro first
    unfold lockTurn
    simp only [hlookup, if_pos hgrants]
    rfl
  rcases hasks with ⟨rfl, rfl⟩ | ⟨i, connection, command, rfl, hi, hphase, rfl⟩
  · simp only [LockedSystem.turn, StateT.run_bind, hlock] at hrun
    cases hrun
    exact ⟨rfl, _, held_insert self _ _ _⟩
  · simp only [LockedSystem.turn, hi, hphase, StateT.run_bind, hlock] at hrun
    cases hrun
    exact ⟨rfl, _, held_insert self _ _ _⟩

/-- A task that neither has the lock nor asks for it. -/
theorem turn_apart (hheld : self.held task = none) (hasks : self.asks task = none)
    (hrun : (self.turn task).run clock = .ok (self', clock')) :
    self'.held = self.held ∧
      (∀ j, task ≠ .serve j → self'.system.connections[j]? = self.system.connections[j]?) ∧
      ∀ i connection, task = .serve i → self.system.connections[i]? = some connection →
        ∃ connection', self'.system.connections[i]? = some connection' ∧
          (connection.phase = .closed ∧ connection' = connection ∨
            connection.progress < connection'.progress) := by
  obtain ⟨i, rfl, hphase⟩ := asks_eq_none hheld hasks
  cases hi : self.system.connections[i]? with
  | none =>
    simp only [LockedSystem.turn, hi] at hrun
    cases hrun
    refine ⟨rfl, fun _ _ => rfl, fun j connection heq hj => ?_⟩
    cases heq
    rw [hi] at hj
    cases hj
  | some connection =>
    have hlen := (List.getElem?_eq_some_iff.mp hi).1
    have hother := fun command => hphase connection command hi
    have hturn : self.turn (.serve i) = connection.step self.system.state >>= fun r =>
        pure ({ self with system.state := r.2 }.setConnection i r.1) := by
      unfold LockedSystem.turn
      simp only [hi]
    rw [hturn, StateT.run_bind] at hrun
    obtain ⟨⟨⟨connection', state'⟩, _⟩, hstep, hrun⟩ := bind_eq_ok.mp hrun
    obtain ⟨rfl, hprogress⟩ := Connection.step_progress hother hstep
    cases hrun
    refine ⟨rfl, fun j hj => ?_, fun j connection'' heq hj => ?_⟩
    · show (self.system.connections.set i _)[j]? = _
      rw [List.getElem?_set_ne (fun heq => hj (by rw [heq]))]
    · cases heq
      cases hi.symm.trans hj
      refine ⟨connection', ?_, hprogress⟩
      show (self.system.connections.set i _)[i]? = _
      rw [List.getElem?_set_self hlen]

/-- Who holds the lock, each with what is left of its section. -/
def holders (self : LockedSystem) (task : Turn) : Option (Guard ℕ) :=
  (self.held task).map (fun guard => ⟨guard.mode, guard.progress.left self.system.state⟩)

theorem holders_eq_none : self.holders task = none ↔ self.held task = none := by
  unfold holders
  exact Option.map_eq_none_iff

theorem grants_iff {mode : Mode} : self.grants mode = true ↔ Grants self.holders mode := by
  constructor
  · intro hgrants
    cases mode with
    | shared =>
      intro task guard hguard
      obtain ⟨guard', hheld, rfl⟩ := Option.map_eq_some_iff.mp hguard
      exact grants_held hgrants task guard' hheld
    | exclusive =>
      intro task
      exact holders_eq_none.mpr (grants_held hgrants task)
  · intro hgrants
    cases mode with
    | shared =>
      refine List.all_eq_true.mpr (fun entry hmem => decide_eq_true ?_)
      have hheld : self.held entry.1 = some entry.2 := AList.mem_lookup_iff.mpr hmem
      exact hgrants entry.1 _ (by rw [holders, hheld]; rfl)
    | exclusive =>
      refine List.isEmpty_iff.mpr (List.eq_nil_iff_forall_not_mem.mpr (fun entry hmem => ?_))
      have hheld : self.held entry.1 = some entry.2 := AList.mem_lookup_iff.mpr hmem
      rw [holders_eq_none.mp (hgrants entry.1)] at hheld
      cases hheld

/-- A turn leaves the others that hold the lock where they are. -/
theorem Simulates.holders_update (h : Simulates state sources history abstract self)
    (hrun : (self.turn task).run clock = .ok (self', clock')) {own : Option (Guard Section)}
    (hheld : self'.held = Function.update self.held task own) :
    self'.holders = Function.update self.holders task
      (own.map (fun guard => ⟨guard.mode, guard.progress.left self'.system.state⟩)) := by
  funext other
  by_cases hother : other = task
  · subst hother
    rw [Function.update_self, holders, hheld, Function.update_self]
  · rw [Function.update_of_ne hother]
    unfold holders
    cases hguard : self.held other with
    | none => rw [hheld, Function.update_of_ne hother, hguard]; rfl
    | some guard =>
      obtain ⟨hsame, hstate⟩ := h.turn_frame hother hguard hrun
      rw [hsame, hstate]

theorem asks_congr (hheld : self'.held task = self.held task)
    (hconnection : ∀ i, task = .serve i → self'.system.connections[i]? = self.system.connections[i]?) :
    self'.asks task = self.asks task := by
  unfold asks
  rw [show self'.guards.lookup task = self.guards.lookup task from hheld]
  cases self.guards.lookup task with
  | some guard => rfl
  | none =>
    cases task with
    | cleanUp => rfl
    | serve i => simp only [hconnection i rfl]

end LockedSystem

namespace QueuedSystem
variable {self self' : QueuedSystem} {task : Turn} {clock clock' : Clock}

/-- Those in the queue ask for the lock. -/
def Queued (self : QueuedSystem) : Prop :=
  ∀ task mode, self.queue.lookup task = some mode → self.locked.asks task = some mode

theorem Queued.lookup_eq_none (h : self.Queued) (hasks : self.locked.asks task = none) :
    self.queue.lookup task = none := by
  cases hlookup : self.queue.lookup task with
  | none => rfl
  | some mode =>
    rw [h task mode hlookup] at hasks
    cases hasks

def line (self : QueuedSystem) : Line Turn := { held := self.locked.holders, queue := self.queue }

/-- What a turn does. A connection is brought on, unless it is closed, or has the lock
    afterwards, or waits for it and has not had it before. -/
structure Turned (before : QueuedSystem) (task : Turn) (after : QueuedSystem) : Prop where
  step : before.line.Step task after.line
  queued : after.Queued
  others : ∀ j, task ≠ .serve j →
    after.locked.system.connections[j]? = before.locked.system.connections[j]?
  own : ∀ i connection, task = .serve i → before.locked.system.connections[i]? = some connection →
    ∃ connection', after.locked.system.connections[i]? = some connection' ∧
      (connection.progress < connection'.progress ∨ connection' = connection ∧
        (connection.phase = .closed ∨ after.line.held task ≠ none ∨
          before.line.held task = none ∧ after.queue.lookup task ≠ none))

/-- The other tasks in the queue go on asking for the lock. -/
theorem Queued.turned (h : self.Queued) {own : Option (Guard Section)}
    (hheld : self'.locked.held = Function.update self.locked.held task own)
    (hothers : ∀ j, task ≠ .serve j →
      self'.locked.system.connections[j]? = self.locked.system.connections[j]?)
    (hqueue : ∀ other, other ≠ task → self'.queue.lookup other = self.queue.lookup other)
    (hown : self'.queue.lookup task = none) : self'.Queued := by
  intro other mode hlookup
  have hother : other ≠ task := by
    rintro rfl
    rw [hown] at hlookup
    cases hlookup
  rw [hqueue other hother] at hlookup
  rw [LockedSystem.asks_congr (by rw [hheld, Function.update_of_ne hother])
    (fun j hj => hothers j (fun heq => hother (hj.trans heq.symm)))]
  exact h other mode hlookup

variable {state : ServerState} {sources : List Source} {history : List Record}
  {abstract : System}

/-- A task that has the lock takes a turn. -/
theorem turned_holding (h : LockedSystem.Simulates state sources history abstract self.locked)
    (hqueued : self.Queued) {guard : Guard Section} (hheld : self.locked.held task = some guard)
    (hlookup : self.queue.lookup task = none) {locked : LockedSystem}
    (hrun : (self.locked.turn task).run clock = .ok (locked, clock')) :
    self.Turned task { self with locked } := by
  have hholds : self.line.held task = some ⟨guard.mode, guard.progress.left self.locked.system.state⟩ := by
    show self.locked.holders task = _
    rw [LockedSystem.holders, hheld]
    rfl
  obtain ⟨hothers, ⟨hfree, hprogress⟩ | ⟨hsame, progress, hgoes, hless⟩⟩ := h.turn_holding hheld hrun
  · refine ⟨?_, hqueued.turned hfree hothers (fun _ _ => rfl) hlookup, hothers, ?_⟩
    · show self.line.Step task ⟨locked.holders, self.queue⟩
      rw [h.holders_update hrun hfree]
      exact .release hholds
    · intro i connection htask hi
      obtain ⟨connection', hi', hlt⟩ := hprogress i connection htask hi
      exact ⟨connection', hi', .inl hlt⟩
  · have hholders := h.holders_update hrun hgoes
    refine ⟨?_, hqueued.turned hgoes hothers (fun _ _ => rfl) hlookup, hothers, ?_⟩
    · show self.line.Step task ⟨locked.holders, self.queue⟩
      rw [hholders]
      exact .work _ hholds hless
    · intro i connection htask hi
      refine ⟨connection, by rw [hsame]; exact hi, .inr ⟨rfl, .inr (.inl ?_)⟩⟩
      show locked.holders task ≠ none
      rw [hholders, Function.update_self]
      simp

/-- A task takes a turn that neither has the lock nor asks for it. -/
theorem turned_apart (h : LockedSystem.Simulates state sources history abstract self.locked)
    (hqueued : self.Queued) (hheld : self.locked.held task = none)
    (hasks : self.locked.asks task = none) {locked : LockedSystem}
    (hrun : (self.locked.turn task).run clock = .ok (locked, clock')) :
    self.Turned task { self with locked } := by
  have hlookup := hqueued.lookup_eq_none hasks
  obtain ⟨hsame, hothers, hown⟩ := LockedSystem.turn_apart hheld hasks hrun
  have hupdate : locked.held = Function.update self.locked.held task none := by
    rw [hsame, ← hheld, Function.update_eq_self]
  refine ⟨?_, hqueued.turned hupdate hothers (fun _ _ => rfl) hlookup, hothers, ?_⟩
  · have hfree : self.locked.holders task = none := LockedSystem.holders_eq_none.mpr hheld
    show self.line.Step task ⟨locked.holders, self.queue⟩
    rw [h.holders_update hrun hupdate, Option.map_none, ← hfree, Function.update_eq_self]
    exact .idle hlookup hfree
  · intro i connection htask hi
    obtain ⟨connection', hi', ⟨hclosed, hsame⟩ | hlt⟩ := hown i connection htask hi
    · exact ⟨connection', hi', .inr ⟨hsame, .inl hclosed⟩⟩
    · exact ⟨connection', hi', .inl hlt⟩

/-- A task that waits gets the lock. -/
theorem turned_asking (h : LockedSystem.Simulates state sources history abstract self.locked)
    (hqueued : self.Queued) {mode : Mode} (hasks : self.locked.asks task = some mode)
    (hlookup : self.queue.lookup task = some mode)
    (hpasses : passes mode (ahead task self.queue) = true) (hgrants : self.locked.grants mode = true)
    {locked : LockedSystem} (hrun : (self.locked.turn task).run clock = .ok (locked, clock')) :
    self.Turned task { locked, queue := leave task self.queue } := by
  obtain ⟨hsystem, progress, hheld⟩ := LockedSystem.turn_asking hasks hgrants hrun
  have hholders := h.holders_update hrun hheld
  have hothers : ∀ j : ℕ, task ≠ .serve j →
      locked.system.connections[j]? = self.locked.system.connections[j]? := by
    intro j _
    rw [hsystem]
  refine ⟨?_, hqueued.turned hheld hothers (fun other hother => lookup_leave (Ne.symm hother))
    (lookup_leave_self task _), hothers, ?_⟩
  · show self.line.Step task ⟨locked.holders, leave task self.queue⟩
    rw [hholders]
    exact .take _ hlookup hpasses (LockedSystem.grants_iff.mp hgrants)
  · intro i connection htask hi
    refine ⟨connection, by rw [hsystem]; exact hi, .inr ⟨rfl, .inr (.inl ?_)⟩⟩
    show locked.holders task ≠ none
    rw [hholders, Function.update_self]
    simp

/-- A task asks for the lock, or waits for it. -/
theorem turned_waiting {mode : Mode} (hqueued : self.Queued)
    (hasks : self.locked.asks task = some mode) {queue : List (Turn × Mode)}
    (hstep : self.line.Step task ⟨self.locked.holders, queue⟩)
    (hqueue : ∀ other, other ≠ task → queue.lookup other = self.queue.lookup other)
    (hlookup : queue.lookup task = some mode) : self.Turned task { self with queue } := by
  refine ⟨hstep, ?_, fun _ _ => rfl, ?_⟩
  · intro other mode' hlookup'
    by_cases hother : other = task
    · subst hother
      cases hlookup.symm.trans hlookup'
      exact hasks
    · rw [hqueue other hother] at hlookup'
      exact hqueued other mode' hlookup'
  · intro i connection htask hi
    refine ⟨connection, hi, .inr ⟨rfl, .inr (.inr ⟨?_, ?_⟩)⟩⟩
    · exact LockedSystem.holders_eq_none.mpr (LockedSystem.asks_eq_some hasks).1
    · rw [hlookup]
      simp

/-- The queue and those that hold the lock are a `Line`, and a turn is a step of it. -/
theorem turn_step (h : LockedSystem.Simulates state sources history abstract self.locked)
    (hqueued : self.Queued) (hrun : (self.turn task).run clock = .ok (self', clock')) :
    self.Turned task self' := by
  unfold turn at hrun
  cases hasks : self.locked.asks task with
  | none =>
    simp only [hasks] at hrun
    obtain ⟨⟨locked, _⟩, hlocked, hrun⟩ := bind_eq_ok.mp hrun
    cases hrun
    cases hheld : self.locked.held task with
    | none => exact turned_apart h hqueued hheld hasks hlocked
    | some guard => exact turned_holding h hqueued hheld (hqueued.lookup_eq_none hasks) hlocked
  | some mode =>
    simp only [hasks] at hrun
    have hfree : self.line.held task = none :=
      LockedSystem.holders_eq_none.mpr (LockedSystem.asks_eq_some hasks).1
    cases hlookup : self.queue.lookup task with
    | none =>
      simp only [hlookup, Option.isNone_none, if_true] at hrun
      cases hrun
      refine turned_waiting hqueued hasks (.ask mode hlookup hfree)
        (fun other hother => lookup_ask (Ne.symm hother)) ?_
      rw [List.lookup_append, hlookup, Option.none_or, List.lookup_cons_self]
    | some mode' =>
      obtain rfl : mode' = mode := Option.some.inj ((hqueued task mode' hlookup).symm.trans hasks)
      simp only [hlookup, Option.isNone_some] at hrun
      by_cases hnext : (passes mode' (ahead task self.queue) && self.locked.grants mode') = true
      · rw [if_neg Bool.false_ne_true, if_pos hnext] at hrun
        obtain ⟨⟨locked, _⟩, hlocked, hrun⟩ := bind_eq_ok.mp hrun
        cases hrun
        rw [Bool.and_eq_true] at hnext
        exact turned_asking h hqueued hasks hlookup hnext.1 hnext.2 hlocked
      · rw [if_neg Bool.false_ne_true, if_neg hnext] at hrun
        cases hrun
        rw [Bool.and_eq_true, LockedSystem.grants_iff] at hnext
        exact turned_waiting hqueued hasks (.wait hlookup hnext) (fun _ _ => rfl) hlookup

end QueuedSystem
end SimpleKv
