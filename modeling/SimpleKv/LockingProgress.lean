import SimpleKv.LockingRefinement

/- No task keeps the lock. Each section has a bound for the steps that are left of it, and
   each step brings it down, whatever the others do meanwhile. So a task that holds the
   lock has given it back after that many turns of its own (`run_releases`), and a client
   then has its response. -/
namespace SimpleKv
open RwLock Outcome

namespace Section

/-- At most this many steps are left of the section. -/
def left (self : Section) (state : ServerState) : Nat :=
  match self with
  | .get _ | .ttl _ | .set _ _ | .expireAt _ _ | .unreachable _ => 1
  | .mget keys _ => keys.length + 1
  | .getAll bucket _ => state.keyStore.buckets.length - bucket + 1
  | .append (.del keys) => keys.length + 2
  | .append (.mset entries) => entries.length + 2
  | .append _ => 2
  | .mset entries => entries.length + 1
  | .del keys _ => keys.length + 1
  | .collect bucket expired => 2 * (state.keyStore.buckets.length - bucket) + expired.length + 2
  | .remove keys _ => keys.length + 1
  | .responded _ | .cleaned _ => 0

theorem step_left {self q : Section} {state state' : ServerState} {clock clock' : Clock}
    (h : self.result = none) (hrun : (self.step state).run clock = .ok ((q, state'), clock')) :
    q.left state' < self.left state := by
  cases self with
  | get key =>
    obtain ⟨_, _, hrun⟩ := bind_eq_ok.mp hrun
    cases hrun
    simp [left]
  | ttl key =>
    obtain ⟨_, _, hrun⟩ := bind_eq_ok.mp hrun
    cases hrun
    simp [left]
  | mget keys responses =>
    cases keys with
    | nil =>
      cases hrun
      simp [left]
    | cons key keys =>
      obtain ⟨_, _, hrun⟩ := bind_eq_ok.mp hrun
      cases hrun
      simp [left]
  | getAll bucket pairs =>
    simp only [step] at hrun
    split at hrun
    · cases hrun
      simp [left]
    · next hempty =>
      have hlt := (List.getElem?_eq_some_iff.mp hempty).1
      cases hrun
      simp only [left]
      omega
    · next entry hsome =>
      have hlt := (List.getElem?_eq_some_iff.mp hsome).1
      obtain ⟨⟨expired, _⟩, _, hrun⟩ := bind_eq_ok.mp hrun
      cases expired <;> cases hrun <;> simp only [left] <;> omega
  | append command =>
    simp only [step, AppendOnlyFile.append] at hrun
    cases hrun
    cases command <;> simp [ofWrite, left]
  | set key value =>
    obtain ⟨_, _, hrun⟩ := bind_eq_ok.mp hrun
    cases hrun
    simp [left]
  | mset entries =>
    cases entries with
    | nil =>
      cases hrun
      simp [left]
    | cons entry entries =>
      obtain ⟨_, _, hrun⟩ := bind_eq_ok.mp hrun
      cases hrun
      simp [left]
  | del keys count =>
    cases keys with
    | nil =>
      cases hrun
      simp [left]
    | cons key keys =>
      obtain ⟨_, _, hrun⟩ := bind_eq_ok.mp hrun
      obtain ⟨_, _, hrun⟩ := bind_eq_ok.mp hrun
      cases hrun
      simp [left]
  | expireAt key timestamp =>
    obtain ⟨_, _, hrun⟩ := bind_eq_ok.mp hrun
    cases hrun
    simp [left]
  | collect bucket expired =>
    simp only [step] at hrun
    split at hrun
    · cases hrun
      simp only [left]
      omega
    · next hempty =>
      have hlt := (List.getElem?_eq_some_iff.mp hempty).1
      cases hrun
      simp only [left]
      omega
    · next entry hsome =>
      have hlt := (List.getElem?_eq_some_iff.mp hsome).1
      obtain ⟨⟨found, _⟩, _, hrun⟩ := bind_eq_ok.mp hrun
      cases found <;> cases hrun <;> simp only [left, List.length_append, List.length_singleton] <;> omega
  | remove keys removed =>
    cases keys with
    | nil =>
      cases hrun
      simp [left]
    | cons key keys =>
      obtain ⟨_, _, hrun⟩ := bind_eq_ok.mp hrun
      cases hrun
      simp [left]
  | responded response => cases h
  | cleaned count => cases h
  | unreachable msg => cases hrun

end Section

namespace LockedSystem
variable {state : ServerState} {sources : List Source} {history : List Record}
  {abstract : System} {self : LockedSystem}

/-- The task has given the lock back. If it is a client's, the response is there. -/
def Released (self : LockedSystem) (task : Turn) : Prop :=
  self.held task = none ∧ ∀ i, task = .serve i → ∃ connection response,
    self.system.connections[i]? = some connection ∧ connection.phase = .sending response false

/-- A turn under the lock ends the section or goes on with it. -/
theorem lockTurn_held {task : Turn} {mode : Mode} {first : Section} {guard : Guard Section}
    (hheld : self.held task = some guard) {clock clock' : Clock} {result : Option (Response ⊕ Nat)}
    {self' : LockedSystem}
    (hrun : (self.lockTurn task mode first).run clock = .ok ((result, self'), clock')) :
    self'.system.connections = self.system.connections ∧
      (result ≠ none ∧ self'.held = Function.update self.held task none ∨
        result = none ∧ ∃ progress : Section,
          self'.held = Function.update self.held task (some { guard with progress }) ∧
          progress.left self'.system.state < guard.progress.left self.system.state) := by
  unfold lockTurn at hrun
  rw [show self.guards.lookup task = some guard from hheld] at hrun
  cases hresult : guard.progress.result with
  | some result' =>
    simp only [hresult] at hrun
    cases hrun
    exact ⟨rfl, .inl ⟨by simp, held_erase self _ task⟩⟩
  | none =>
    simp only [hresult] at hrun
    rw [StateT.run_bind] at hrun
    obtain ⟨⟨⟨progress, state'⟩, _⟩, hstep, hrun⟩ := bind_eq_ok.mp hrun
    cases hrun
    exact ⟨rfl, .inr ⟨rfl, progress, held_insert self _ task _, Section.step_left hresult hstep⟩⟩

/-- A task that has the lock takes a turn: the section is over, or it comes closer to
    this. -/
theorem lockTurn_left {task : Turn} {mode : Mode} {first : Section} {guard : Guard Section}
    (hheld : self.held task = some guard) {clock clock' : Clock} {result : Option (Response ⊕ Nat)}
    {self' : LockedSystem}
    (hrun : (self.lockTurn task mode first).run clock = .ok ((result, self'), clock')) :
    (result.isSome ∧ self'.held task = none) ∨ ∃ guard', self'.held task = some guard' ∧
      guard'.progress.left self'.system.state < guard.progress.left self.system.state := by
  obtain ⟨_, ⟨hsome, hfree⟩ | ⟨_, progress, hgoes, hless⟩⟩ := lockTurn_held hheld hrun
  · refine .inl ⟨Option.isSome_iff_ne_none.mpr hsome, ?_⟩
    rw [hfree, Function.update_self]
  · refine .inr ⟨{ guard with progress }, ?_, hless⟩
    rw [hgoes, Function.update_self]

/-- Another task takes a turn under the lock: nothing changes for the one that has it. -/
theorem lockTurn_frame {begun : Turn → Section} {own : Turn → List UInt64} {s₀ : ServerState}
    (h : Atomic sections begun self.held own s₀ self.system.state) {task other : Turn}
    (hother : other ≠ task) {mode : Mode} {first : Section} {guard : Guard Section}
    (hheld : self.held other = some guard) {clock clock' : Clock} {result : Option (Response ⊕ Nat)}
    {self' : LockedSystem}
    (hrun : (self.lockTurn task mode first).run clock = .ok ((result, self'), clock')) :
    self'.held other = some guard ∧ self'.system.state = self.system.state := by
  unfold lockTurn at hrun
  cases htask : self.guards.lookup task with
  | none =>
    simp only [htask] at hrun
    split at hrun
    · cases hrun
      rw [held_insert, Function.update_of_ne hother]
      exact ⟨hheld, rfl⟩
    · cases hrun
      exact ⟨hheld, rfl⟩
  | some guard' =>
    cases hresult : guard'.progress.result with
    | some result' =>
      simp only [htask, hresult] at hrun
      cases hrun
      rw [held_erase, Function.update_of_ne hother]
      exact ⟨hheld, rfl⟩
    | none =>
      simp only [htask, hresult] at hrun
      rw [StateT.run_bind] at hrun
      obtain ⟨⟨⟨progress, state'⟩, _⟩, hstep, hrun⟩ := bind_eq_ok.mp hrun
      cases hrun
      rw [held_insert, Function.update_of_ne hother]
      exact ⟨hheld, h.step_frame (i := task) htask hheld hother hstep⟩

theorem Simulates.turn_frame (h : Simulates state sources history abstract self) {turn task : Turn}
    (hne : task ≠ turn) {guard : Guard Section} (hheld : self.held task = some guard)
    {clock clock' : Clock} {self' : LockedSystem} (hrun : (self.turn turn).run clock = .ok (self', clock')) :
    self'.held task = some guard ∧ self'.system.state = self.system.state := by
  cases turn with
  | cleanUp =>
    obtain ⟨⟨⟨result, next⟩, _⟩, hlock, hrun⟩ := bind_eq_ok.mp hrun
    cases hrun
    exact lockTurn_frame h.atomic hne hheld hlock
  | serve i =>
    cases hi : self.system.connections[i]? with
    | none =>
      simp only [LockedSystem.turn, hi] at hrun
      cases hrun
      exact ⟨hheld, rfl⟩
    | some connection =>
      by_cases hphase : ∃ command, connection.phase = .executing command
      · obtain ⟨command, hphase⟩ := hphase
        simp only [LockedSystem.turn, hi, hphase] at hrun
        obtain ⟨⟨⟨result, next⟩, _⟩, hlock, hrun⟩ := bind_eq_ok.mp hrun
        have hframe := lockTurn_frame h.atomic hne hheld hlock
        rcases result with _ | _ | _ <;> cases hrun <;> exact hframe
      · have hphase' := fun command hp => hphase ⟨command, hp⟩
        obtain ⟨alone, _, hstep⟩ := Connection.exists_stepAlone hphase'
        have hturn := turn_alone hi hphase' hstep
        rw [hturn] at hrun
        obtain ⟨_, _, hrun⟩ := bind_eq_ok.mp hrun
        cases hrun
        exact ⟨hheld, rfl⟩

theorem Simulates.turn_left (h : Simulates state sources history abstract self) {task : Turn}
    {guard : Guard Section} (hheld : self.held task = some guard) {clock clock' : Clock}
    {self' : LockedSystem} (hrun : (self.turn task).run clock = .ok (self', clock')) :
    self'.Released task ∨ ∃ guard', self'.held task = some guard' ∧
      guard'.progress.left self'.system.state < guard.progress.left self.system.state := by
  cases task with
  | cleanUp =>
    obtain ⟨⟨⟨result, next⟩, _⟩, hlock, hrun⟩ := bind_eq_ok.mp hrun
    cases hrun
    rcases lockTurn_left hheld hlock with ⟨_, hfree⟩ | hless
    · exact .inl ⟨hfree, fun i heq => by cases heq⟩
    · exact .inr hless
  | serve i =>
    obtain ⟨connection, command, hi, hphase⟩ := h.executing i guard hheld
    have hlen := (List.getElem?_eq_some_iff.mp hi).1
    simp only [LockedSystem.turn, hi, hphase] at hrun
    obtain ⟨⟨⟨result, next⟩, _⟩, hlock, hrun⟩ := bind_eq_ok.mp hrun
    have hatomic := lockTurn_atomic h.atomic (.serve i) (modeOf command) (asks_executing hi hphase)
      (begun_reading hi hphase) clock
    rw [begun_serve hi hphase] at hatomic
    obtain ⟨_, _, _, hsame, _, _, hpost⟩ := hatomic.of_ok hlock
    rcases lockTurn_left hheld hlock with ⟨hsome, hfree⟩ | hless
    · obtain ⟨result, rfl⟩ := Option.isSome_iff_exists.mp hsome
      obtain ⟨_, _, hsection⟩ := hpost
      have habstract : abstract.connections[i]? = some connection := by rw [h.connections, hi]
      obtain ⟨response, rfl, _⟩ := (turn_executing habstract hphase _).of_ok (hsection clock)
      cases hrun
      refine .inl ⟨hfree, fun j heq => ⟨{ connection with phase := .sending response false }, response, ?_, rfl⟩⟩
      cases heq
      show (next.system.connections.set i _)[i]? = _
      rw [hsame, List.getElem?_set_self hlen]
    · rcases result with _ | _ | _ <;> cases hrun <;> exact .inr hless

/-- Whatever the turns in between, the task gives the lock back at a turn of its own, and
    one that comes as soon as its section allows. -/
theorem run_left (hsafe : Safe state sources) : ∀ (later : List Turn) {history : List Record}
    {abstract : System} {self : LockedSystem}, Simulates state sources history abstract self → ∀ {task : Turn} {guard : Guard Section},
    self.held task = some guard → guard.progress.left self.system.state < later.count task →
    ∀ clock, ∃ before after, later = before ++ task :: after ∧
      Completes ((self.run (before ++ [task])).run clock) (fun (self', _) => self'.Released task)
  | [], history, abstract, self, h, task, guard, hheld, hlater, clock => by simp at hlater
  | turn :: later, history, abstract, self, h, task, guard, hheld, hlater, clock => by
    have hstart : ∀ before : List Turn, (self.run (turn :: before)).run clock =
        (self.turn turn).run clock >>= fun (self', clock') => (self'.run before).run clock' := by
      intro before
      unfold run
      rw [List.foldlM_cons, StateT.run_bind]
    have hsim := turn_simulates hsafe h turn clock
    by_cases htask : turn = task
    · subst htask
      rw [List.count_cons_self] at hlater
      cases hrun : (self.turn turn).run clock with
      | error f =>
        refine ⟨[], later, rfl, ?_⟩
        rw [List.nil_append, hstart, hrun]
        exact hsim.of_error hrun
      | ok r =>
        obtain ⟨self', clock'⟩ := r
        obtain ⟨vs, abstract', _, h'⟩ := hsim.of_ok hrun
        rcases h.turn_left hheld hrun with hreleased | ⟨guard', hheld', hless⟩
        · refine ⟨[], later, rfl, ?_⟩
          rw [List.nil_append, hstart, hrun]
          exact hreleased
        · obtain ⟨before, after, rfl, hbefore⟩ :=
            run_left hsafe later h' hheld' (by omega) clock'
          refine ⟨turn :: before, after, rfl, ?_⟩
          rw [List.cons_append, hstart, hrun]
          exact hbefore
    · rw [List.count_cons_of_ne htask] at hlater
      cases hrun : (self.turn turn).run clock with
      | error f =>
        -- the server is out of memory, at whichever turn of the task one looks
        obtain ⟨before, after, rfl⟩ :=
          List.append_of_mem (List.count_pos_iff.mp (Nat.zero_lt_of_lt hlater))
        refine ⟨turn :: before, after, rfl, ?_⟩
        rw [List.cons_append, hstart, hrun]
        exact hsim.of_error hrun
      | ok r =>
        obtain ⟨self', clock'⟩ := r
        obtain ⟨vs, abstract', _, h'⟩ := hsim.of_ok hrun
        obtain ⟨hheld', hstate⟩ := h.turn_frame (Ne.symm htask) hheld hrun
        obtain ⟨before, after, rfl, hbefore⟩ :=
          run_left hsafe later h' hheld' (by rw [hstate]; exact hlater) clock'
        refine ⟨turn :: before, after, rfl, ?_⟩
        rw [List.cons_append, hstart, hrun]
        exact hbefore

/-- In every run, a task that holds the lock gives it back after a number of turns of its
    own that is known at each point, in whichever order the others take theirs. If it is
    a client's, the response is there then. -/
theorem run_releases {state : ServerState} (hstate : state.Started) {sources : List Source}
    (hne : ∀ source ∈ sources, ∀ chunk ∈ source, chunk ≠ []) (turns : List Turn) (clock : Clock) :
    Completes (((start state sources).run turns).run clock) (fun (self, clock') =>
      ∀ task guard, self.held task = some guard →
        ∀ later, guard.progress.left self.system.state < later.count task →
          ∃ before after, later = before ++ task :: after ∧
            Completes ((self.run (before ++ [task])).run clock') (fun (self', _) =>
              self'.Released task)) := by
  apply Yields.mono (run_simulates (started_safe hstate hne) turns start_simulates clock)
  intro (self, clock') hself task guard hheld later hlater
  obtain ⟨_, _, _, _, h⟩ := hself
  exact run_left (started_safe hstate hne) later h hheld hlater clock'

/-- Two readers, and a third client that waits to write. -/
theorem run_releases_three :
    Completes (((start ⟨{}, .withHasher (fun _ => 0)⟩
        [[asBytes "*3\r\n$4\r\nMGET\r\n$1\r\na\r\n$1\r\nb\r\n"],
          [asBytes "*2\r\n$3\r\nGET\r\n$1\r\na\r\n"],
          [asBytes "*3\r\n$3\r\nSET\r\n$1\r\na\r\n$1\r\nb\r\n"]]).run
        ([0, 1, 2, 0, 1, 2, 0, 1, 2].map .serve)).run (Stream'.const 7)) (fun (self, clock') =>
      ∀ task guard, self.held task = some guard →
        ∀ later, guard.progress.left self.system.state < later.count task →
          ∃ before after, later = before ++ task :: after ∧
            Completes ((self.run (before ++ [task])).run clock') (fun (self', _) =>
              self'.Released task)) :=
  run_releases ⟨{}, fun _ => 0, Stream'.const 0, Stream'.const 0, rfl⟩ (by decide) _ _

end LockedSystem
end SimpleKv
