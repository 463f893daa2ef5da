import SimpleKv.LockingLiveness
import SimpleKv.Serial

/- What the server is for, with everything in it that it runs on: the tasks between whose
   turns others take theirs, the lock that is given out fairly, the streams cut in any way.
   Some time every client has been served to the end, and they have been served as one
   client would be that sends their commands one after the other (`run_serves_everybody`). -/
namespace SimpleKv
open RwLock Outcome Reader

namespace System

/-- Every client has been served to the end of its stream, with what executing the commands
    and clean-ups of the run one after the other gives. The state and the log are what this
    leads to. -/
def ServedAll (state : ServerState) (sources : List Source) (turns : List Turn) (clock : Clock)
    (system : System) : Prop :=
  let moments := (start state sources).moments turns clock
  ∃ executed, sequential (moments.filterMap Moment.action) state = .ok (executed, system.state) ∧
    system.state.wal.contents = state.wal.contents ++ executed.flatMap Executed.logged ∧
    ∀ (i : ℕ) (source : Source), sources[i]? = some source → ∃ connection requests ending verdicts,
      system.connections[i]? = some connection ∧
      readAll RequestReader.readNext (RequestReader.new source) = .ok (requests, ending) ∧
      connection.Served (ParsedAt moments i) (executed.filterMap (Executed.from? i))
        requests ending requests [] verdicts ∧
      connection.Finished ending [] verdicts

variable {state : ServerState} {sources : List Source}

theorem servedAll_of_closed (hstate : state.Started)
    (hne : ∀ source ∈ sources, ∀ chunk ∈ source, chunk ≠ []) {turns : List Turn}
    {clock clock' : Clock} {system : System}
    (hrun : ((start state sources).run turns).run clock = .ok (system, clock'))
    (hclosed : ∀ connection ∈ system.connections, connection.phase = .closed) :
    ServedAll state sources turns clock system := by
  have hserves := (run_serves (start_serves hstate.sized hne) clock).of_ok hrun
  obtain ⟨executed, hsequential, hledgers⟩ :=
    (run_ledgers turns (List.Subset.refl ((start state sources).moments turns clock))
      (start_ledgers state sources)).of_ok hrun
  rw [List.nil_append] at hledgers
  refine ⟨executed, hsequential, (sequential_wal _ state).of_ok hsequential, ?_⟩
  intro i source hsource
  obtain ⟨connection, hconnection, hconnected⟩ := hserves.exists_connection hsource
  have hphase := hclosed connection (List.mem_of_getElem? hconnection)
  obtain ⟨requests, ending, handled, rest, verdicts, hread, hserved, hfinished⟩ :=
    (hconnected.of_closed hphase).served (hne source (List.mem_of_getElem? hsource))
      (hledgers.ledger hconnection)
  -- the stream is closed, so no request is to come
  have hend := hfinished rfl
  obtain rfl : rest = [] := hend.1
  obtain rfl : requests = handled := hserved.requests.trans (List.append_nil handled)
  exact ⟨connection, requests, ending, verdicts, hconnection, hread, hserved, hend⟩

end System

namespace QueuedSystem
variable {state : ServerState} {sources : List Source} {schedule : ℕ → Turn}

/-- However the tasks take their turns, if each takes turns again and again: from some turn
    on every client has been served to the end, as by the server that executes their
    commands and the clean-ups one after the other, each on readings of the clock made in
    this run. While nobody has the lock, the state is that server's. -/
theorem run_serves_everybody (hstate : state.Started)
    (hne : ∀ source ∈ sources, ∀ chunk ∈ source, chunk ≠ [])
    (hfair : ∀ n k, ∃ m, k ≤ m ∧ schedule m = schedule n)
    (hturns : ∀ i < sources.length, ∃ n, schedule n = .serve i) (clock : Clock) :
    ∃ n, ∀ m, n ≤ m →
      Completes (((start state sources).run ((List.range m).map schedule)).run clock)
        (fun (self, clock') => ∃ history abstract, clock = readings history ++ₛ clock' ∧
          LockedSystem.Simulates state sources history abstract self.locked ∧
          ((∀ task, self.locked.held task = none) → self.locked.system.state = abstract.state) ∧
          System.ServedAll state sources ((script history).map Prod.fst)
            ((script history).flatMap Prod.snd ++ₛ clock') abstract) := by
  obtain ⟨n, hn⟩ := Filter.eventually_atTop.mp (run_closes_all hstate hne hfair hturns clock)
  refine ⟨n, fun m hm => ?_⟩
  have hsim := run_simulates (LockedSystem.started_safe hstate hne) ((List.range m).map schedule) clock
  cases hrun : ((start state sources).run ((List.range m).map schedule)).run clock with
  | error f => exact hsim.of_error hrun
  | ok r =>
    obtain ⟨history, abstract, hclock, h⟩ := hsim.of_ok hrun
    refine ⟨history, abstract, hclock, h, ?_, ?_⟩
    · intro hfree
      refine h.atomic.settled (fun task guard hheld => ?_)
      rw [hfree task] at hheld
      cases hheld
    · refine System.servedAll_of_closed hstate hne (h.run r.2) (fun connection hmem => ?_)
      rw [h.connections] at hmem
      exact (hn m hm).of_ok hrun connection hmem

/-- A client that reads and writes, one that breaks its stream, and the clean-up, in
    turn. -/
theorem run_serves_everybody_three : ∃ n, ∀ m, n ≤ m →
    Completes (((start ⟨{}, .withHasher (fun _ => 0)⟩
        [[asBytes "*2\r\n$3\r\nGET\r\n$1\r\na\r\n*3\r\n$3\r\nSET\r\n", asBytes "$1\r\na\r\n$1\r\nb\r\n"],
          [asBytes "*1\r\n$6\r\nGETALL\r\n?\r\n"]]).run
        ((List.range m).map (fun n =>
          if n % 3 = 0 then .serve 0 else if n % 3 = 1 then .serve 1 else .cleanUp))).run
        (Stream'.const 7))
      (fun (self, clock') => ∃ history abstract, Stream'.const 7 = readings history ++ₛ clock' ∧
        LockedSystem.Simulates ⟨{}, .withHasher (fun _ => 0)⟩
          [[asBytes "*2\r\n$3\r\nGET\r\n$1\r\na\r\n*3\r\n$3\r\nSET\r\n", asBytes "$1\r\na\r\n$1\r\nb\r\n"],
            [asBytes "*1\r\n$6\r\nGETALL\r\n?\r\n"]] history abstract self.locked ∧
        ((∀ task, self.locked.held task = none) → self.locked.system.state = abstract.state) ∧
        System.ServedAll ⟨{}, .withHasher (fun _ => 0)⟩
          [[asBytes "*2\r\n$3\r\nGET\r\n$1\r\na\r\n*3\r\n$3\r\nSET\r\n", asBytes "$1\r\na\r\n$1\r\nb\r\n"],
            [asBytes "*1\r\n$6\r\nGETALL\r\n?\r\n"]] ((script history).map Prod.fst)
          ((script history).flatMap Prod.snd ++ₛ clock') abstract) := by
  refine run_serves_everybody ⟨{}, fun _ => 0, Stream'.const 0, Stream'.const 0, rfl⟩ (by decide)
    ?_ ?_ _
  · intro n k
    exact ⟨n + 3 * k, by omega, by simp [Nat.add_mul_mod_self_left]⟩
  · intro i hi
    have hi : i < 2 := hi
    obtain rfl | rfl : i = 0 ∨ i = 1 := by omega
    · exact ⟨0, rfl⟩
    · exact ⟨1, rfl⟩

end QueuedSystem
end SimpleKv
