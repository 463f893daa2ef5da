import Mathlib.Order.Filter.AtTopBot.Basic
import Mathlib.Order.Filter.Finite
import SimpleKv.LockingQueue
import SimpleKv.Serial

/- Nobody starves. If each task that takes a turn takes turns again and again, each client
   gets all its responses, whatever the others do and in whichever order they take their
   turns (`run_starves_nobody`). A connection that has not come to its end is brought on
   some time: at its next turn it gets on, or it has the lock or waits for it, gets it with
   the queue, gives it back, and has its response then. -/
namespace SimpleKv
open RwLock Incremental Outcome Reader

namespace Connection
variable {requests : List Request} {d : End RequestParseError} {k : ℕ} {self : Connection}

/-- A connection is closed where its stream is at its end. -/
theorem Serving.closed_iff (h : Serving requests d k self) :
    self.phase = .closed ↔ 4 * requests.length + 5 ≤ self.progress := by
  cases h with
  | reading _ hrequests | parsing _ hrequests | executing _ hrequests | sending _ hrequests =>
    refine iff_of_false (by simp) ?_
    simp only [progress, hrequests, List.length_append, List.length_singleton]
    omega
  | ending | closed => simp [progress]

theorem Serves.of_closed {source : Source} (h : self.Serves source k)
    (hclosed : self.phase = .closed) : self.Serves source 0 := by
  obtain ⟨requests, d, hd, hserving⟩ := h
  refine ⟨requests, d, hd, ?_⟩
  cases hserving with
  | closed hcomputed hsent => exact .closed hcomputed hsent
  | reading | parsing | executing | sending | ending => cases hclosed

end Connection

namespace QueuedSystem

/-- The server, turn after turn for ever. -/
structure Forever (schedule : ℕ → Turn) (states : ℕ → QueuedSystem) : Prop where
  line : RwLock.Run schedule (fun n => (states n).line)
  turned : ∀ n, (states n).Turned (schedule n) (states (n + 1))

namespace Forever
variable {schedule : ℕ → Turn} {states : ℕ → QueuedSystem} (h : Forever schedule states) {i : ℕ}
  {connection : Connection}
include h

/-- No connection goes back. -/
theorem keeps {n : ℕ} (hi : (states n).locked.system.connections[i]? = some connection) (later : ℕ) :
    ∃ connection', (states (n + later)).locked.system.connections[i]? = some connection' ∧
      connection.progress ≤ connection'.progress := by
  induction later with
  | zero => exact ⟨connection, hi, Nat.le_refl _⟩
  | succ later ih =>
    obtain ⟨connection', hi', hle⟩ := ih
    by_cases hturn : schedule (n + later) = .serve i
    · obtain ⟨next, hnext, hlt | ⟨rfl, _⟩⟩ := (h.turned (n + later)).own i connection' hturn hi'
      · exact ⟨next, hnext, by omega⟩
      · exact ⟨next, hnext, hle⟩
    · exact ⟨connection', ((h.turned (n + later)).others i hturn).trans hi', hle⟩

/-- A connection that is not closed is brought on. -/
theorem advances (hturns : ∃ n, schedule n = .serve i) {n : ℕ}
    (hi : (states n).locked.system.connections[i]? = some connection)
    (hopen : connection.phase ≠ .closed) : ∃ m, n ≤ m ∧ ∃ connection',
      (states m).locked.system.connections[i]? = some connection' ∧
        connection.progress < connection'.progress := by
  by_contra hstuck
  have hstays : ∀ later, (states (n + later)).locked.system.connections[i]? = some connection := by
    intro later
    induction later with
    | zero => exact hi
    | succ later ih =>
      by_cases hturn : schedule (n + later) = .serve i
      · obtain ⟨next, hnext, hlt | ⟨rfl, _⟩⟩ := (h.turned (n + later)).own i connection hturn ih
        · exact absurd ⟨n + later + 1, by omega, next, hnext, hlt⟩ hstuck
        · exact hnext
      · exact ((h.turned (n + later)).others i hturn).trans ih
  -- so at each of its turns it has the lock or waits for it
  have hactive : ∀ m, n ≤ m → schedule m = .serve i → (states (m + 1)).line.held (.serve i) ≠ none ∨
      (states m).line.held (.serve i) = none ∧ (states (m + 1)).queue.lookup (.serve i) ≠ none := by
    intro m hle hturn
    obtain ⟨later, rfl⟩ := Nat.exists_eq_add_of_le hle
    obtain ⟨next, hnext, hlt | ⟨_, hclosed | hactive⟩⟩ :=
      (h.turned (n + later)).own i connection hturn (hstays later)
    · exact absurd ⟨n + later + 1, by omega, next, hnext, hlt⟩ hstuck
    · exact absurd hclosed hopen
    · rw [hturn] at hactive
      exact hactive
  have hgets : ∃ m, n ≤ m ∧ (states m).line.held (.serve i) ≠ none := by
    obtain ⟨m₀, hm₀⟩ := hturns
    obtain ⟨m, hle, hm⟩ := h.line.fair m₀ n
    rcases hactive m hle (hm.trans hm₀) with hheld | ⟨_, hwaits⟩
    · exact ⟨m + 1, by omega, hheld⟩
    · obtain ⟨mode, hmode⟩ := Option.ne_none_iff_exists'.mp hwaits
      obtain ⟨m', hle', hheld⟩ := h.line.gets_lock _ (n := m + 1) hmode rfl
      exact ⟨m', by omega, hheld⟩
  obtain ⟨m, hle, hheld⟩ := hgets
  obtain ⟨guard, hguard⟩ := Option.ne_none_iff_exists'.mp hheld
  obtain ⟨m', hle', hturn, hhas, hnone⟩ := h.line.gives_back _ (n := m) hguard rfl
  -- the turn at which it gives the lock back brings it on
  rcases hactive m' (by omega) hturn with hheld' | ⟨hfree, _⟩
  · exact hheld' hnone
  · exact hhas hfree

/-- A connection comes as far as it can before it is closed. -/
theorem reaches (hturns : ∃ n, schedule n = .serve i) {goal : ℕ}
    (hopen : ∀ n connection, (states n).locked.system.connections[i]? = some connection →
      connection.progress < goal → connection.phase ≠ .closed) : ∀ (left : ℕ) {n : ℕ}
    {connection : Connection}, (states n).locked.system.connections[i]? = some connection →
    goal - connection.progress = left → ∃ m, ∀ m', m ≤ m' → ∃ connection',
      (states m').locked.system.connections[i]? = some connection' ∧
        goal ≤ connection'.progress := by
  intro left
  induction left using Nat.strong_induction_on with
  | _ left ih =>
    intro n connection hi hleft
    by_cases hgoal : connection.progress < goal
    · obtain ⟨m, _, connection', hi', hlt⟩ := h.advances hturns hi (hopen n connection hi hgoal)
      exact ih (goal - connection'.progress) (by omega) hi' rfl
    · refine ⟨n, fun m hm => ?_⟩
      obtain ⟨later, rfl⟩ := Nat.exists_eq_add_of_le hm
      obtain ⟨connection', hi', hle⟩ := h.keeps hi later
      exact ⟨connection', hi', by omega⟩

end Forever

/-! From the start. -/

section Start
variable {state : ServerState} {sources : List Source} {schedule : ℕ → Turn} {clock : Clock}

theorem run_succ (self : QueuedSystem) (schedule : ℕ → Turn) (n : ℕ) (clock : Clock) :
    (self.run ((List.range (n + 1)).map schedule)).run clock =
      (self.run ((List.range n).map schedule)).run clock >>= fun r =>
        (r.1.turn (schedule n)).run r.2 := by
  unfold run
  rw [List.range_succ, List.map_append, List.foldlM_append, StateT.run_bind]
  simp only [List.map_cons, List.map_nil, List.foldlM_cons, List.foldlM_nil, bind_pure]

/-- A server with the queue is one without, and so one without the lock. -/
theorem run_simulates (hsafe : LockedSystem.Safe state sources) (turns : List Turn) (clock : Clock) :
    Completes (((start state sources).run turns).run clock) (fun (self, clock') =>
      ∃ history abstract, clock = readings history ++ₛ clock' ∧
        LockedSystem.Simulates state sources history abstract self.locked) := by
  obtain ⟨turns', _, hrun⟩ := run_locked turns (start state sources) clock
  have hsim := LockedSystem.run_simulates hsafe turns' LockedSystem.start_simulates clock
  rw [show (start state sources).locked = .start state sources from rfl] at hrun
  rw [hrun] at hsim
  cases hself : ((start state sources).run turns).run clock with
  | error f =>
    rw [hself] at hsim
    exact hsim
  | ok r =>
    rw [hself] at hsim
    obtain ⟨history, abstract, hclock, _, h⟩ := hsim
    exact ⟨history, abstract, hclock, h⟩

/-! The turns of a server that does not run out of memory. -/

theorem turn_of_ok {self : ℕ → QueuedSystem × Clock}
    (hself : ∀ n, ((start state sources).run ((List.range n).map schedule)).run clock = .ok (self n))
    (n : ℕ) : ((self n).1.turn (schedule n)).run (self n).2 = .ok (self (n + 1)) := by
  have hsucc := run_succ (start state sources) schedule n clock
  rw [hself n, hself (n + 1)] at hsucc
  exact hsucc.symm

theorem forever_of_ok (hsafe : LockedSystem.Safe state sources) {self : ℕ → QueuedSystem × Clock}
    (hself : ∀ n, ((start state sources).run ((List.range n).map schedule)).run clock = .ok (self n))
    (hfair : ∀ n k, ∃ m, k ≤ m ∧ schedule m = schedule n) :
    Forever schedule (fun n => (self n).1) := by
  have hstart : self 0 = (start state sources, clock) := (Except.ok.inj (hself 0)).symm
  have hturned : ∀ n, (self n).1.Queued → (self n).1.Turned (schedule n) (self (n + 1)).1 := by
    intro n hqueued
    obtain ⟨_, _, _, h⟩ := (run_simulates hsafe _ clock).of_ok (hself n)
    exact turn_step h hqueued (turn_of_ok hself n)
  have hqueued : ∀ n, (self n).1.Queued := by
    intro n
    induction n with
    | zero =>
      intro task mode hlookup
      rw [hstart] at hlookup
      cases hlookup
    | succ n ih => exact (hturned n ih).queued
  exact {
    line := {
      start := by rw [hstart]; rfl
      step := fun n => (hturned n (hqueued n)).step
      fair := hfair }
    turned := fun n => hturned n (hqueued n) }

/-- The connections of a server with the queue serve their streams. -/
theorem run_serves (hstate : state.Started) (hne : ∀ source ∈ sources, ∀ chunk ∈ source, chunk ≠ [])
    (turns : List Turn) (clock : Clock) :
    Completes (((start state sources).run turns).run clock) (fun (self, _) =>
      ∀ (i : ℕ) (source : Source), sources[i]? = some source → ∃ (connection : Connection) (k : ℕ),
        self.locked.system.connections[i]? = some connection ∧ connection.Serves source k) := by
  apply Yields.mono (run_simulates (LockedSystem.started_safe hstate hne) turns clock)
  intro r hself i source hsource
  obtain ⟨_, abstract, _, h⟩ := hself
  have hserves := (System.run_serves (System.start_serves hstate.sized hne) _).of_ok (h.run clock)
  obtain ⟨connection, hi, hconnection⟩ := hserves.exists_connection hsource
  exact ⟨connection, _, by rw [← h.connections]; exact hi, hconnection⟩

/-- What some time holds for good if the server never runs out of memory. -/
theorem eventually_completes (hstate : state.Started)
    (hne : ∀ source ∈ sources, ∀ chunk ∈ source, chunk ≠ []) {post : QueuedSystem × Clock → Prop}
    (hpost : ∀ self : ℕ → QueuedSystem × Clock,
      (∀ n, ((start state sources).run ((List.range n).map schedule)).run clock = .ok (self n)) →
      ∃ n, ∀ m, n ≤ m → post (self m)) :
    ∀ᶠ n in Filter.atTop,
      Completes (((start state sources).run ((List.range n).map schedule)).run clock) post := by
  rw [Filter.eventually_atTop]
  by_cases hfails : ∃ n f,
      ((start state sources).run ((List.range n).map schedule)).run clock = .error f
  · -- it is out of memory at this turn, and so at every later one
    obtain ⟨n, f, hfails⟩ := hfails
    refine ⟨n, fun m hm => ?_⟩
    have herror : ((start state sources).run ((List.range m).map schedule)).run clock = .error f := by
      induction m, hm using Nat.le_induction with
      | base => exact hfails
      | succ m _ ih => rw [run_succ, ih]; rfl
    rw [herror]
    exact (run_serves hstate hne _ clock).of_error hfails
  · have hok : ∀ n, ∃ r,
        ((start state sources).run ((List.range n).map schedule)).run clock = .ok r := by
      intro n
      cases hrun : ((start state sources).run ((List.range n).map schedule)).run clock with
      | error f => exact absurd ⟨n, f, hrun⟩ hfails
      | ok r => exact ⟨r, rfl⟩
    choose self hself using hok
    obtain ⟨n, hn⟩ := hpost self hself
    refine ⟨n, fun m hm => ?_⟩
    rw [hself]
    exact hn m hm

/-- The stream of each client that takes turns comes to its end. -/
theorem run_closes (hstate : state.Started) (hne : ∀ source ∈ sources, ∀ chunk ∈ source, chunk ≠ [])
    (hfair : ∀ n k, ∃ m, k ≤ m ∧ schedule m = schedule n) {i : ℕ} {source : Source}
    (hsource : sources[i]? = some source) (hturns : ∃ n, schedule n = .serve i) (clock : Clock) :
    ∀ᶠ n in Filter.atTop,
      Completes (((start state sources).run ((List.range n).map schedule)).run clock)
        (fun (self, _) => ∃ connection, self.locked.system.connections[i]? = some connection ∧
          connection.phase = .closed ∧ connection.Serves source 0) := by
  refine eventually_completes hstate hne (fun self hself => ?_)
  have hserves := run_serves hstate hne
  have hforever := forever_of_ok (LockedSystem.started_safe hstate hne) hself hfair
  have hconnection : ∀ n connection, (self n).1.locked.system.connections[i]? = some connection →
      ∃ k, connection.Serves source k := by
    intro n connection hi
    obtain ⟨connection', k, hi', hk⟩ := (hserves _ clock).of_ok (hself n) i source hsource
    cases hi.symm.trans hi'
    exact ⟨k, hk⟩
  obtain ⟨requests, d, hd⟩ := RequestReader.exists_drains source.flatten
  have hclosed : ∀ n connection, (self n).1.locked.system.connections[i]? = some connection →
      (connection.phase = .closed ↔ 4 * requests.length + 5 ≤ connection.progress) := by
    intro n connection hi
    obtain ⟨k, requests', d', hd', hserving⟩ := hconnection n connection hi
    obtain ⟨rfl, _⟩ := hd.unique hd'
    exact hserving.closed_iff
  have hopen : ∀ n connection, (self n).1.locked.system.connections[i]? = some connection →
      connection.progress < 4 * requests.length + 5 → connection.phase ≠ .closed := by
    intro n connection hi hlt hphase
    have hend := (hclosed n connection hi).mp hphase
    omega
  obtain ⟨first, _, hfirst, _⟩ := (hserves _ clock).of_ok (hself 0) i source hsource
  obtain ⟨n, hn⟩ := hforever.reaches hturns hopen _ hfirst rfl
  refine ⟨n, fun m hm => ?_⟩
  obtain ⟨connection, hi, hend⟩ := hn m hm
  obtain ⟨k, hk⟩ := hconnection m connection hi
  have hphase := (hclosed m connection hi).mpr hend
  exact ⟨connection, hi, hphase, hk.of_closed hphase⟩

/-- The streams of all clients come to their ends. -/
theorem run_closes_all (hstate : state.Started)
    (hne : ∀ source ∈ sources, ∀ chunk ∈ source, chunk ≠ [])
    (hfair : ∀ n k, ∃ m, k ≤ m ∧ schedule m = schedule n)
    (hturns : ∀ i < sources.length, ∃ n, schedule n = .serve i) (clock : Clock) :
    ∀ᶠ n in Filter.atTop,
      Completes (((start state sources).run ((List.range n).map schedule)).run clock)
        (fun (self, _) => ∀ connection ∈ self.locked.system.connections,
          connection.phase = .closed) := by
  have hcloses : ∀ᶠ n in Filter.atTop, ∀ i ∈ Finset.range sources.length,
      Completes (((start state sources).run ((List.range n).map schedule)).run clock)
        (fun (self, _) => ∃ connection, self.locked.system.connections[i]? = some connection ∧
          connection.phase = .closed) := by
    refine (Filter.eventually_all_finset _).mpr (fun i hi => ?_)
    have hlt := Finset.mem_range.mp hi
    refine (run_closes hstate hne hfair (List.getElem?_eq_getElem hlt) (hturns i hlt) clock).mono ?_
    intro n hn
    apply Yields.mono hn
    intro r hr
    obtain ⟨connection, hconnection, hclosed, _⟩ := hr
    exact ⟨connection, hconnection, hclosed⟩
  refine hcloses.mono (fun n hn => ?_)
  have hsim := run_simulates (LockedSystem.started_safe hstate hne) ((List.range n).map schedule) clock
  cases hrun : ((start state sources).run ((List.range n).map schedule)).run clock with
  | error f => exact hsim.of_error hrun
  | ok r =>
    obtain ⟨_, abstract, _, h⟩ := hsim.of_ok hrun
    have hserves := (System.run_serves (System.start_serves hstate.sized hne) _).of_ok (h.run r.2)
    intro connection hmem
    obtain ⟨i, hi⟩ := List.mem_iff_getElem?.mp hmem
    have hlt : i < sources.length := by
      rw [← hserves.count, h.connections]
      exact (List.getElem?_eq_some_iff.mp hi).1
    obtain ⟨connection', hi', hclosed⟩ := (hn i (Finset.mem_range.mpr hlt)).of_ok hrun
    rw [hi] at hi'
    cases hi'
    exact hclosed

/-- Nobody starves: however the tasks take their turns, if each that takes one takes turns
    again and again, each client has all its responses from some turn on, and its
    connection is closed. They are the responses that the order of the lock gives, on
    readings of the clock made in this run. -/
theorem run_starves_nobody (hstate : state.Started)
    (hne : ∀ source ∈ sources, ∀ chunk ∈ source, chunk ≠ [])
    (hfair : ∀ n k, ∃ m, k ≤ m ∧ schedule m = schedule n) {i : ℕ} {source : Source}
    (hsource : sources[i]? = some source) (hturns : ∃ n, schedule n = .serve i)
    {requests : List Request} {ending : Option RequestParseError}
    (hrequests : readAll RequestReader.readNext (RequestReader.new source) = .ok (requests, ending))
    (clock : Clock) : ∃ n, ∀ m, n ≤ m →
      Completes (((start state sources).run ((List.range m).map schedule)).run clock)
        (fun (self, clock') => ∃ history abstract, clock = readings history ++ₛ clock' ∧
          LockedSystem.Simulates state sources history abstract self.locked ∧
          System.Serialized state sources ((script history).map Prod.fst)
            ((script history).flatMap Prod.snd ++ₛ clock') abstract ∧
          ∃ connection, self.locked.system.connections[i]? = some connection ∧
            connection.phase = .closed ∧ connection.accepted = requests ∧
            connection.outbound = connection.sent.flatMap Response.toBytes ∧
            ∃ answers, List.Forall₂ Computed requests answers ∧
              connection.sent = answers ++ farewell ending) := by
  obtain ⟨n, hn⟩ := Filter.eventually_atTop.mp (run_closes hstate hne hfair hsource hturns clock)
  refine ⟨n, fun m hm => ?_⟩
  have hsim := run_simulates (LockedSystem.started_safe hstate hne) ((List.range m).map schedule) clock
  cases hrun : ((start state sources).run ((List.range m).map schedule)).run clock with
  | error f => exact hsim.of_error hrun
  | ok r =>
    obtain ⟨history, abstract, hclock, h⟩ := hsim.of_ok hrun
    obtain ⟨connection, hi, _, hserves⟩ := (hn m hm).of_ok hrun
    exact ⟨history, abstract, hclock, h, System.serialized_of_ok hstate hne (h.run r.2), connection,
      hi, hserves.answered (hne source (List.mem_of_getElem? hsource)) hrequests⟩

end Start

/-- A reader, a writer and the clean-up, in turn. -/
theorem run_starves_nobody_three : ∃ n, ∀ m, n ≤ m →
    Completes (((start ⟨{}, .withHasher (fun _ => 0)⟩
        [[asBytes "*2\r\n$3\r\nGET\r\n$1\r\na\r\n"],
          [asBytes "*3\r\n$3\r\nSET\r\n$1\r\na\r\n$1\r\nb\r\n"]]).run
        ((List.range m).map (fun n =>
          if n % 3 = 0 then .serve 0 else if n % 3 = 1 then .serve 1 else .cleanUp))).run
        (Stream'.const 7))
      (fun (self, clock') => ∃ history abstract, Stream'.const 7 = readings history ++ₛ clock' ∧
        LockedSystem.Simulates ⟨{}, .withHasher (fun _ => 0)⟩
          [[asBytes "*2\r\n$3\r\nGET\r\n$1\r\na\r\n"],
            [asBytes "*3\r\n$3\r\nSET\r\n$1\r\na\r\n$1\r\nb\r\n"]] history abstract
          self.locked ∧
        System.Serialized ⟨{}, .withHasher (fun _ => 0)⟩
          [[asBytes "*2\r\n$3\r\nGET\r\n$1\r\na\r\n"],
            [asBytes "*3\r\n$3\r\nSET\r\n$1\r\na\r\n$1\r\nb\r\n"]]
          ((script history).map Prod.fst) ((script history).flatMap Prod.snd ++ₛ clock') abstract ∧
        ∃ connection, self.locked.system.connections[1]? = some connection ∧
          connection.phase = .closed ∧
          connection.accepted = [⟨[asBytes "SET", asBytes "a", asBytes "b"]⟩] ∧
          connection.outbound = connection.sent.flatMap Response.toBytes ∧
          ∃ answers, List.Forall₂ Computed [⟨[asBytes "SET", asBytes "a", asBytes "b"]⟩] answers ∧
            connection.sent = answers ++ farewell none) := by
  refine run_starves_nobody ⟨{}, fun _ => 0, Stream'.const 0, Stream'.const 0, rfl⟩ (by decide)
    ?_ rfl ?_ rfl _
  · intro n k
    exact ⟨n + 3 * k, by omega, by simp [Nat.add_mul_mod_self_left]⟩
  · exact ⟨1, rfl⟩

end QueuedSystem
end SimpleKv
