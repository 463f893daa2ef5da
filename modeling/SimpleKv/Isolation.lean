import SimpleKv.CommandFrame
import SimpleKv.Serial

/- Clients with keys of their own. Where no other client names a key of client `i`, and
   client `i` names no other keys, it is served as if the others were not there: its
   requests get the responses of a run that executes its commands and the clean-ups alone,
   and its keys end up bound alike (`run_isolates`). The table it shares with the others may
   look different at every point, and the clean-ups may come to its keys in another order,
   but they look at each at the same time; `GETALL` is the one command that sees the other
   keys. -/
namespace SimpleKv
open Outcome Incremental Request Reader

/-- The action takes the server from `state` to `state'`. -/
def Action.Leads (action : Action) (state state' : ServerState) : Prop :=
  match action with
  | .exec _ command clock =>
    ∃ response clock', (state.execute command none).run clock = .ok ((response, state'), clock')
  | .cleanUp clock => ∃ count clock', state.removeExpired.run clock = .ok ((count, state'), clock')

/-- `own` are the commands of client `i` in `all`, on the clocks they find, and the clean-ups,
    which come to each key in `K` when the clock shows what it has shown to the clean-up in
    `all`. The actions of `all` start from `state`, those of `own` from `other`. -/
inductive Isolates (K : Set Bytes) (i : ℕ) :
    List Action → ServerState → List Action → ServerState → Prop where
  | nil {state other : ServerState} : Isolates K i [] state [] other
  | own {all own : List Action} {state state' other : ServerState} (command : Command)
      (clock : Clock) : (Action.exec i command clock).Leads state state' →
      (∀ other', (Action.exec i command clock).Leads other other' →
        Isolates K i all state' own other') →
      Isolates K i (.exec i command clock :: all) state (.exec i command clock :: own) other
  | other {all own : List Action} {state state' other : ServerState} {j : ℕ} (command : Command)
      (clock : Clock) : j ≠ i → (Action.exec j command clock).Leads state state' →
      Isolates K i all state' own other →
      Isolates K i (.exec j command clock :: all) state own other
  | cleanUp {all own : List Action} {state state' other : ServerState} (clock clock' : Clock) :
      (∀ key ∈ K, ServerState.readingFor key other.keyStore.iter clock' =
        ServerState.readingFor key state.keyStore.iter clock) →
      (Action.cleanUp clock).Leads state state' →
      (∀ other', (Action.cleanUp clock').Leads other other' → Isolates K i all state' own other') →
      Isolates K i (.cleanUp clock :: all) state (.cleanUp clock' :: own) other

/-- Client `i` names keys in `K` only, and the others none of them. -/
def KeysApart (K : Set Bytes) (i : ℕ) (all : List Action) : Prop :=
  ∀ j command clock, .exec j command clock ∈ all →
    if j = i then command.Within K else command.Apart K

theorem KeysApart.tail {K : Set Bytes} {i : ℕ} {action : Action} {all : List Action}
    (h : KeysApart K i (action :: all)) : KeysApart K i all :=
  fun j command clock hmem => h j command clock (List.mem_cons_of_mem _ hmem)

namespace ServerState
variable {K : Set Bytes} {self other : ServerState}

/-- A clean-up, and one that looks at the keys at the same instants. -/
theorem removeExpired_same {self' : ServerState} (h : Same K self.keyStore other.keyStore)
    {clock clock' : Clock} {count : ℕ}
    (hrun : self.removeExpired.run clock = .ok ((count, self'), clock')) :
    ∃ own count' other' own', other.removeExpired.run own = .ok ((count', other'), own') ∧
      (∀ key ∈ K, readingFor key other.keyStore.iter own =
        readingFor key self.keyStore.iter clock) ∧
      Same K self'.keyStore other'.keyStore := by
  obtain ⟨m, m', hm, hm', heq⟩ := h
  obtain ⟨own, hshows⟩ :=
    exists_clock (fun key => (readingFor key self.keyStore.iter clock).getD 0) other.keyStore.iter
  have hreadings : ∀ key ∈ K, readingFor key other.keyStore.iter own =
      readingFor key self.keyStore.iter clock := by
    intro key hkey
    -- both have the key with the same deadline, so both clocks are read for it or none is
    have hsame : (readingFor key other.keyStore.iter own).isSome ↔
        (readingFor key self.keyStore.iter clock).isSome := by
      simp only [readingFor_isSome, hm.lists.mem_iff, hm'.lists.mem_iff, heq hkey]
    cases hother : readingFor key other.keyStore.iter own with
    | none =>
      rw [hother] at hsame
      exact (Option.not_isSome_iff_eq_none.mp (fun hsome => by simpa using hsame.mpr hsome)).symm
    | some t =>
      rw [hother] at hsame
      obtain ⟨t', ht'⟩ := Option.isSome_iff_exists.mp (hsame.mp rfl)
      rw [hshows key t hother, ht']
      rfl
  obtain ⟨_, _, _, hages, hself⟩ := removeExpired_ages hm clock 0
  rw [hages] at hrun
  cases hrun
  obtain ⟨count', other', own', hother, hm''⟩ := removeExpired_ages hm' own 0
  refine ⟨own, count', other', own', hother, hreadings, _, _, hself, hm'', ?_⟩
  intro key hkey
  show (m key).filter _ = (m' key).filter _
  simp only [heq hkey, hreadings key hkey]

end ServerState

/-- The commands of client `i` alone. -/
theorem sequential_isolates {K : Set Bytes} {i : ℕ} : ∀ {all : List Action}
    {state other final : ServerState} {executed : List Executed},
    sequential all state = .ok (executed, final) → KeysApart K i all →
    Same K state.keyStore other.keyStore →
    ∃ own, Isolates K i all state own other ∧ Completes (sequential own other) (fun r =>
      r.1 = executed.filter (fun entry => entry.client = i) ∧
        Same K final.keyStore r.2.keyStore)
  | [], state, other, final, executed, hrun, hkeys, h => by
    cases hrun
    exact ⟨[], .nil, rfl, h⟩
  | .exec j command clock :: all, state, other, final, executed, hrun, hkeys, h => by
    rw [sequential] at hrun
    obtain ⟨⟨⟨response, next⟩, clock'⟩, hstep, hrun⟩ := bind_eq_ok.mp hrun
    obtain ⟨⟨rest, last⟩, hrest, hrun⟩ := bind_eq_ok.mp hrun
    cases hrun
    have hcommand := hkeys j command clock List.mem_cons_self
    by_cases hj : j = i
    · subst hj
      rw [if_pos rfl] at hcommand
      have hlockstep := ServerState.execute_lockstep h hcommand clock _ _ hstep
      cases hother : (other.execute command none).run clock with
      | error f =>
        refine ⟨[.exec j command clock], .own command clock ⟨response, clock', hstep⟩ ?_, ?_⟩
        · intro other' hleads
          obtain ⟨response', clock'', hrun⟩ := hleads
          rw [hother] at hrun
          cases hrun
        · rw [sequential, hother]
          exact hlockstep.of_error hother
      | ok r =>
        obtain ⟨⟨response', other'⟩, clock''⟩ := r
        obtain ⟨⟨hresponse, hsame⟩, _⟩ := hlockstep.of_ok hother
        obtain ⟨own, hisolates, hown⟩ := sequential_isolates hrest hkeys.tail hsame
        refine ⟨.exec j command clock :: own, .own command clock ⟨response, clock', hstep⟩ ?_, ?_⟩
        · intro other'' hleads
          obtain ⟨_, _, hrun⟩ := hleads
          rw [hother] at hrun
          cases hrun
          exact hisolates
        · rw [sequential, hother]
          apply Yields.bind hown
          intro r hpost
          obtain ⟨executed', final'⟩ := r
          obtain ⟨hexecuted, hfinal⟩ := hpost
          refine ⟨?_, hfinal⟩
          rw [List.filter_cons_of_pos (by simp), ← hexecuted]
          exact congrArg (fun response => ⟨j, command, response⟩ :: executed') hresponse.symm
    · rw [if_neg hj] at hcommand
      have hsame : Same K other.keyStore next.keyStore :=
        (ServerState.execute_apart h.symm hcommand).of_ok hstep
      obtain ⟨own, hisolates, hown⟩ := sequential_isolates hrest hkeys.tail hsame.symm
      refine ⟨own, .other command clock hj ⟨response, clock', hstep⟩ hisolates, ?_⟩
      rw [List.filter_cons_of_neg (by simp [hj])]
      exact hown
  | .cleanUp clock :: all, state, other, final, executed, hrun, hkeys, h => by
    rw [sequential] at hrun
    obtain ⟨⟨⟨removed, next⟩, clock'⟩, hstep, hrest⟩ := bind_eq_ok.mp hrun
    obtain ⟨ownClock, removed', other', ownClock', hother, hreadings, hsame⟩ :=
      ServerState.removeExpired_same h hstep
    obtain ⟨own, hisolates, hown⟩ := sequential_isolates hrest hkeys.tail hsame
    refine ⟨.cleanUp ownClock :: own,
      .cleanUp clock ownClock hreadings ⟨removed, clock', hstep⟩ ?_, ?_⟩
    · intro other'' hleads
      obtain ⟨_, _, hrun⟩ := hleads
      rw [hother] at hrun
      cases hrun
      exact hisolates
    · rw [sequential, hother]
      exact hown

/-! Runs of the server. -/

/-- The stream asks for `command`. -/
def Asks (source : Source) (command : Command) : Prop :=
  ∃ requests ending request now,
    readAll RequestReader.readNext (RequestReader.new source) = .ok (requests, ending) ∧
      request ∈ requests ∧ request.command now = .ok command

/-- A stream of one request. -/
theorem Asks.eq {source : Source} {command only : Command} (request : Request)
    (hread : readAll RequestReader.readNext (RequestReader.new source) = .ok ([request], none))
    (honly : ∀ now, request.command now = .ok only) (h : Asks source command) : command = only := by
  obtain ⟨requests, ending, request', now, hread', hmem, hcommand⟩ := h
  rw [hread] at hread'
  cases hread'
  rw [List.mem_singleton.mp hmem, honly] at hcommand
  cases hcommand
  rfl

/-- What is recorded for client `i` is recorded among its commands. -/
theorem Executed.filterMap_from (i : ℕ) (executed : List Executed) :
    (executed.filter (fun entry => entry.client = i)).filterMap (Executed.from? i) =
      executed.filterMap (Executed.from? i) := by
  rw [List.filterMap_filter]
  congr 1
  funext entry
  by_cases h : entry.client = i <;> simp [Executed.from?, h]

namespace System

theorem moments_serves {sources : List Source} : ∀ (turns : List Turn) {k : ℕ → ℕ} {self : System}
    {clock : Clock}, self.Serves sources k → ∀ moment ∈ moments turns self clock,
      ∃ k, moment.system.Serves sources k
  | [], k, self, clock, h, moment, hm => by cases hm
  | turn :: turns, k, self, clock, h, moment, hm => by
    rw [moments] at hm
    rcases List.mem_cons.mp hm with rfl | hm
    · exact ⟨k, h⟩
    · cases hrun : (self.turn turn).run clock with
      | error f =>
        rw [hrun] at hm
        cases hm
      | ok r =>
        rw [hrun] at hm
        have hnext : r.1.Serves sources _ := (turn_serves h turn).of_ok hrun
        exact moments_serves turns hnext moment hm

/-- What is executed for a client, its stream asks for. -/
theorem asks_of_action {sources : List Source}
    (hne : ∀ source ∈ sources, ∀ chunk ∈ source, chunk ≠ []) {k : ℕ → ℕ} {moment : Moment}
    (h : moment.system.Serves sources k) {j : ℕ} {command : Command} {clock : Clock}
    (haction : moment.action = some (.exec j command clock)) :
    ∃ source, sources[j]? = some source ∧ Asks source command := by
  obtain ⟨turn, system, clock'⟩ := moment
  cases turn with
  | cleanUp => cases haction
  | serve i =>
    cases hi : system.connections[i]? with
    | none =>
      rw [Moment.action_absent hi] at haction
      cases haction
    | some connection =>
      obtain ⟨source, hsource, requests, d, hd, hserving⟩ := h.connection hi
      have hread := RequestReader.readAll_spec (hne source (List.mem_of_getElem? hsource)) hd
      by_cases hphase : ∃ command, connection.phase = .executing command
      · obtain ⟨command', hphase⟩ := hphase
        rw [Moment.action_executing hi hphase] at haction
        cases haction
        refine ⟨source, hsource, requests, errorOf .unexpectedEof d, ?_⟩
        cases hserving with
        | @executing reader accepted rest request now command' sent hup hrequests hcomputed hc hk =>
          cases hphase
          exact ⟨request, now, hread, by simp [hrequests], hc⟩
        | reading | parsing | sending | ending | closed => cases hphase
      · rw [Moment.action_other hi (fun command hp => hphase ⟨command, hp⟩)] at haction
        cases haction

/-- Where client `i` names keys in `K` only and no other client names any of them, its
    requests get the responses, and its keys end up with the values, of a run that executes
    nothing but its commands, on the clock they found, and the clean-ups, which look at its
    keys when they did. -/
theorem run_isolates {state : ServerState} (hstate : state.Started) {sources : List Source}
    (hne : ∀ source ∈ sources, ∀ chunk ∈ source, chunk ≠ []) {K : Set Bytes} {i : ℕ}
    (hkeys : ∀ j source command, sources[j]? = some source → Asks source command →
      if j = i then command.Within K else command.Apart K) (turns : List Turn) (clock : Clock) :
    Completes (((start state sources).run turns).run clock) (fun (system, _) =>
      let moments := (start state sources).moments turns clock
      ∃ own, Isolates K i (moments.filterMap Moment.action) state own state ∧
        Completes (sequential own state) (fun (executed, final) =>
          (∀ entry ∈ executed, entry.client = i) ∧
          (∀ key ∈ K, system.state.keyStore.get key = final.keyStore.get key) ∧
          ∀ source, sources[i]? = some source → ∃ connection requests ending handled rest verdicts,
            system.connections[i]? = some connection ∧
            readAll RequestReader.readNext (RequestReader.new source) = .ok (requests, ending) ∧
            connection.Served (ParsedAt moments i) (executed.filterMap (Executed.from? i))
              requests ending handled rest verdicts ∧
            (4 * requests.length + 2 ≤ turns.count (.serve i) →
              connection.Finished ending rest verdicts))) := by
  have hserves := start_serves hstate.sized hne
  have hrun : Completes (((start state sources).run turns).run clock) _ := run_serves hserves clock
  have hledgers := run_ledgers turns (List.Subset.refl ((start state sources).moments turns clock))
    (start_ledgers state sources)
  apply Yields.mono (Yields.and hrun hledgers)
  intro (system, clock') hpost
  obtain ⟨hsystem, executed, hsequential, hledger⟩ := hpost
  rw [List.nil_append] at hledger
  have happart : KeysApart K i (((start state sources).moments turns clock).filterMap Moment.action) := by
    intro j command commandClock hmem
    obtain ⟨moment, hmoment, haction⟩ := List.mem_filterMap.mp hmem
    obtain ⟨k, hmoment⟩ := moments_serves turns hserves moment hmoment
    obtain ⟨source, hsource, hasks⟩ := asks_of_action hne hmoment haction
    exact hkeys j source command hsource hasks
  obtain ⟨m, hm, _⟩ := hstate.sized
  obtain ⟨own, hisolates, hown⟩ := sequential_isolates hsequential happart (Same.refl hm)
  refine ⟨own, hisolates, Yields.mono hown ?_⟩
  intro (executed', final) hpost
  obtain ⟨rfl, hsame⟩ := hpost
  refine ⟨?_, fun key hkey => hsame.get hkey, ?_⟩
  · intro entry hentry
    exact of_decide_eq_true (List.mem_filter.mp hentry).2
  · intro source hsource
    obtain ⟨connection, hconnection, hserves⟩ := hsystem.exists_connection hsource
    obtain ⟨requests, ending, handled, rest, verdicts, hread, hserved, hfinished⟩ :=
      hserves.served (hne source (List.mem_of_getElem? hsource)) (hledger.ledger hconnection)
    rw [← Executed.filterMap_from i executed] at hserved
    refine ⟨connection, requests, ending, handled, rest, verdicts, hconnection, hread, hserved, ?_⟩
    intro hturns
    apply hfinished
    simp only [hsource, Option.map_some, Option.getD_some, Connection.stepsFor_eq hread]
    omega

/-- A client that sets one key, beside one that sets another. -/
theorem run_isolates_pair :
    Completes (((start ⟨{}, .withHasher (fun _ => 0)⟩
      [[asBytes "*3\r\n$3\r\nSET\r\n$1\r\na\r\n$1\r\nb\r\n"],
        [asBytes "*3\r\n$3\r\nSET\r\n$1\r\nc\r\n$1\r\nd\r\n"]]).run
      [.serve 0, .serve 1, .serve 1, .serve 0, .serve 1, .cleanUp, .serve 0]).run
      (Stream'.const 7)) (fun (system, _) =>
      let moments := (start ⟨{}, .withHasher (fun _ => 0)⟩
        [[asBytes "*3\r\n$3\r\nSET\r\n$1\r\na\r\n$1\r\nb\r\n"],
          [asBytes "*3\r\n$3\r\nSET\r\n$1\r\nc\r\n$1\r\nd\r\n"]]).moments
        [.serve 0, .serve 1, .serve 1, .serve 0, .serve 1, .cleanUp, .serve 0] (Stream'.const 7)
      ∃ own, Isolates {asBytes "a"} 0 (moments.filterMap Moment.action)
          ⟨{}, .withHasher (fun _ => 0)⟩ own ⟨{}, .withHasher (fun _ => 0)⟩ ∧
        Completes (sequential own ⟨{}, .withHasher (fun _ => 0)⟩) (fun (executed, final) =>
          (∀ entry ∈ executed, entry.client = 0) ∧
          (∀ key ∈ ({asBytes "a"} : Set Bytes),
            system.state.keyStore.get key = final.keyStore.get key) ∧
          ∀ source, [[asBytes "*3\r\n$3\r\nSET\r\n$1\r\na\r\n$1\r\nb\r\n"],
              [asBytes "*3\r\n$3\r\nSET\r\n$1\r\nc\r\n$1\r\nd\r\n"]][0]? = some source →
            ∃ connection requests ending handled rest verdicts,
            system.connections[0]? = some connection ∧
            readAll RequestReader.readNext (RequestReader.new source) = .ok (requests, ending) ∧
            connection.Served (ParsedAt moments 0) (executed.filterMap (Executed.from? 0))
              requests ending handled rest verdicts ∧
            (4 * requests.length + 2 ≤ [Turn.serve 0, .serve 1, .serve 1, .serve 0, .serve 1,
                .cleanUp, .serve 0].count (.serve 0) →
              connection.Finished ending rest verdicts))) := by
  refine run_isolates ⟨{}, fun _ => 0, Stream'.const 0, Stream'.const 0, rfl⟩ (by decide) ?_ _ _
  intro j source command hsource hasks
  rcases j with _ | _ | j
  · cases hsource
    have hcommand : command = .set (asBytes "a") (asBytes "b") :=
      hasks.eq ⟨[asBytes "SET", asBytes "a", asBytes "b"]⟩ rfl (fun _ => rfl)
    rw [hcommand, if_pos rfl]
    exact ⟨nofun, by simp [Command.keys]⟩
  · cases hsource
    have hcommand : command = .set (asBytes "c") (asBytes "d") :=
      hasks.eq ⟨[asBytes "SET", asBytes "c", asBytes "d"]⟩ rfl (fun _ => rfl)
    rw [hcommand, if_neg (by decide)]
    have hne : asBytes "c" ≠ asBytes "a" := by decide
    simpa [Command.Apart, Command.keys] using hne
  · cases hsource

end System

end SimpleKv
