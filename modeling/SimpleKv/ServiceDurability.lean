import SimpleKv.Service

/- What clients can rely on over crashes. Every server that runs serves its clients in one
   order, from the store it restored; the file has the records of the writes in it, after
   those that it found there; and of these a crash keeps a prefix with all that was logged
   before the last sync. So a write that was answered and synced is never lost, and every
   later server restores it, after the writes it was executed after. -/
namespace SimpleKv
open Outcome Command

namespace Service
open SimpleKv.System (Turns Linearized)
open ServerState (allOnMap)

namespace Event

/-- The turn that is taken at the event, if a server runs, at its moment. -/
def moment? (self : Service) : Event → Option (Moment × Option IoFailure)
  | .turn taken failure clock => self.server.map (fun system => (⟨taken, system, clock⟩, failure))
  | .start _ _ _ | .sync | .crash _ => none

/-- What is sent arrives in chunks, none of them empty. -/
def Accepted : Event → Prop
  | .start _ _ sources => ∀ source ∈ sources, ∀ chunk ∈ source, chunk ≠ []
  | .turn _ _ _ | .sync | .crash _ => True

/-- What fails, fails before anything is done. -/
def Whole : Event → Prop
  | .turn _ failure _ => ∀ f, failure = some f → f.done = 0
  | .start _ _ _ | .sync | .crash _ => True

end Event

/-! The turns of a run. -/

/-- The turns that are taken at the events, at their moments. -/
def moments : List Event → Service → List (Moment × Option IoFailure)
  | [], _ => []
  | event :: events, self =>
    (event.moment? self).toList ++ match event.run self with
      | .ok self => moments events self
      | .error _ => []

/-- The writes that a run logs, in the order they are executed. -/
def written (events : List Event) (self : Service) : List Command :=
  (moments events self).filterMap Moment.write?

/-- No append leaves a part of a record. A server that stops within an append is a crash. -/
def Untorn (events : List Event) (self : Service) : Prop :=
  ∀ moment ∈ moments events self, ∀ attempt, Moment.attempt moment = some attempt → attempt.Untorn

theorem run_cons {event : Event} {events : List Event} {self next : Service}
    (h : event.run self = .ok next) : run (event :: events) self = run events next := by
  unfold run
  rw [List.foldlM_cons, h]
  rfl

theorem run_append {before : List Event} (after : List Event) {self self' : Service}
    (h : run before self = .ok self') : run (before ++ after) self = run after self' := by
  unfold run at h ⊢
  rw [List.foldlM_append, h]
  rfl

theorem moments_append : ∀ {before : List Event} (after : List Event) {self self' : Service},
    run before self = .ok self' →
    moments (before ++ after) self = moments before self ++ moments after self'
  | [], after, self, self', hrun => by
    cases hrun
    rfl
  | event :: before, after, self, self', hrun => by
    unfold run at hrun
    rw [List.foldlM_cons] at hrun
    obtain ⟨next, hnext, hrun⟩ := bind_eq_ok.mp hrun
    simp only [List.cons_append, moments, hnext]
    rw [moments_append after hrun, List.append_assoc]

theorem moments_initial : ∀ (before after : List Event) (self : Service),
    moments before self <+: moments (before ++ after) self
  | [], after, self => List.nil_prefix
  | event :: before, after, self => by
    simp only [List.cons_append, moments]
    cases event.run self with
    | error f => exact List.prefix_refl _
    | ok next => exact (List.prefix_append_right_inj _).mpr (moments_initial before after next)

theorem moments_singleton (event : Event) (self : Service) :
    moments [event] self = (event.moment? self).toList := by
  unfold moments
  cases event.run self <;> exact List.append_nil _

/-- A turn of the run comes from an event. -/
theorem mem_of_mem_moments {moment : Moment × Option IoFailure} : ∀ {events : List Event}
    {self : Service}, moment ∈ moments events self →
      Event.turn moment.1.turn moment.2 moment.1.clock ∈ events
  | event :: events, self, h => by
    rcases List.mem_append.mp h with h | h
    · cases event with
      | start | sync | crash => cases h
      | turn taken failure clock =>
        obtain ⟨system, _, rfl⟩ := Option.map_eq_some_iff.mp (Option.mem_toList.mp h)
        exact List.mem_cons_self
    · cases hrun : event.run self with
      | error f =>
        rw [hrun] at h
        cases h
      | ok next =>
        rw [hrun] at h
        exact List.mem_cons_of_mem _ (mem_of_mem_moments h)

/-! What a server is. -/

/-- The server that runs after the events: which of them has started it, from what it found in
    the log then, and what its clients and the clean-ups have made of that since. -/
structure Life (events : List Event) (system : System) where
  before : List Event
  now : UInt64
  hasher : Bytes → UInt64
  sources : List Source
  since : List Event
  /-- Before the start no server ran. -/
  down : Service
  found : List Command
  state : ServerState
  history : events = before ++ .start now hasher sources :: since
  stopped : run before initial = .ok down ∧ down.server = none
  started : (Event.start now hasher sources).run down =
    .ok { down with server := some (.start state sources) }
  uninterrupted : ∀ kept, Event.crash kept ∉ since
  accepted : Event.Accepted (.start now hasher sources)
  log : down.file.entries = records found
  restored : runAt now (ServerState.fromWal ⟨records found⟩ hasher) = .ok state
  holds : state.keyStore.Holds (allOnMap now found (fun _ => none))
  turns : (System.start state sources).Turns
    (moments since { down with server := some (.start state sources) }) system
  linearized : Linearized state sources
    (moments since { down with server := some (.start state sources) }) system

namespace Life
variable {events : List Event} {system : System}

/-- The service when the server has been started. -/
def up (self : Life events system) : Service :=
  { self.down with server := some (.start self.state self.sources) }

/-- What is in the log. -/
def logged (self : Life events system) : List Command :=
  self.found ++ written self.since self.up

theorem sized_of_restored {commands : List Command} {now : UInt64} {hasher : Bytes → UInt64}
    {state : ServerState}
    (h : runAt now (ServerState.fromWal ⟨records commands⟩ hasher) = .ok state) :
    Sized state.keyStore := by
  unfold runAt at h
  cases hrun : (ServerState.fromWal ⟨records commands⟩ hasher).run (Stream'.const now) with
  | error f =>
    rw [hrun] at h
    cases h
  | ok r =>
    obtain ⟨state', clock⟩ := r
    rw [hrun] at h
    cases h
    exact ServerState.Started.sized ⟨_, _, _, _, hrun⟩

/-- A server that has just been started. -/
def start {down : Service} {found : List Command} {now : UInt64} {hasher : Bytes → UInt64}
    {sources : List Source} {state : ServerState}
    (stopped : run events initial = .ok down ∧ down.server = none)
    (started : (Event.start now hasher sources).run down =
      .ok { down with server := some (.start state sources) })
    (accepted : Event.Accepted (.start now hasher sources))
    (log : down.file.entries = records found)
    (restored : runAt now (ServerState.fromWal ⟨records found⟩ hasher) = .ok state)
    (holds : state.keyStore.Holds (allOnMap now found (fun _ => none))) :
    Life (events ++ [.start now hasher sources]) (.start state sources) where
  before := events
  now := now
  hasher := hasher
  sources := sources
  since := []
  down := down
  found := found
  state := state
  history := rfl
  stopped := stopped
  started := started
  uninterrupted _ := List.not_mem_nil
  accepted := accepted
  log := log
  restored := restored
  holds := holds
  turns := .refl
  linearized := Turns.refl.linearized (sized_of_restored restored) accepted

/-- The events since the start lead to where all of them lead. -/
theorem run_since (self : Life events system) {service : Service}
    (h : run events initial = .ok service) : run self.since self.up = .ok service := by
  rw [self.history, run_append _ self.stopped.1, run_cons self.started] at h
  exact h

theorem moments_since (self : Life events system) {service : Service}
    (h : run events initial = .ok service) (event : Event) :
    moments (self.since ++ [event]) self.up =
      moments self.since self.up ++ (event.moment? service).toList := by
  rw [moments_append _ (self.run_since h), moments_singleton]

/-- The server after one more event. -/
def next (self : Life events system) {service : Service} (h : run events initial = .ok service)
    {event : Event} (hcrash : ∀ kept, event ≠ .crash kept) {system' : System}
    (hturns : (System.start self.state self.sources).Turns
      (moments self.since self.up ++ (event.moment? service).toList) system') :
    Life (events ++ [event]) system' :=
  have hmore : (System.start self.state self.sources).Turns
      (moments (self.since ++ [event]) self.up) system' := by
    rw [self.moments_since h event]
    exact hturns
  { self with
    since := self.since ++ [event]
    history := (congrArg (· ++ [event]) self.history).trans (List.append_assoc _ _ _)
    uninterrupted := fun kept hmem => by
      rcases List.mem_append.mp hmem with hmem | hmem
      · exact self.uninterrupted kept hmem
      · exact hcrash kept (List.mem_singleton.mp hmem).symm
    turns := hmore
    linearized := hmore.linearized (sized_of_restored self.restored) self.accepted }

/-- The log after one more event. -/
theorem next_logged (self : Life events system) {service : Service}
    (h : run events initial = .ok service) {event : Event} (hcrash : ∀ kept, event ≠ .crash kept)
    {system' : System} (hturns : (System.start self.state self.sources).Turns
      (moments self.since self.up ++ (event.moment? service).toList) system') :
    (self.next h hcrash hturns).logged = self.logged ++ written [event] service := by
  show self.found ++ List.filterMap Moment.write? (moments (self.since ++ [event]) self.up) = _
  rw [self.moments_since h event, List.filterMap_append, ← List.append_assoc, written,
    moments_singleton]
  rfl

/-- The server after an event at which no turn is taken. -/
theorem idle (self : Life events system) {service : Service} (h : run events initial = .ok service)
    {event : Event} (hcrash : ∀ kept, event ≠ .crash kept) (hidle : event.moment? service = none) :
    ∃ life : Life (events ++ [event]) system, life.logged = self.logged := by
  have hturns : (System.start self.state self.sources).Turns
      (moments self.since self.up ++ (event.moment? service).toList) system := by
    rw [hidle]
    exact (List.append_nil (moments self.since self.up)).symm ▸ self.turns
  refine ⟨self.next h hcrash hturns, ?_⟩
  rw [self.next_logged h hcrash hturns, written, moments_singleton, hidle]
  exact List.append_nil _

end Life

/-- The service after the events: the file has the records of some of the writes that were
    executed, in this order, and a server runs only if there is nothing else in it. -/
structure Sound (events : List Event) (journal : Journal Command) (torn : Bytes)
    (service : Service) : Prop where
  ran : run events initial = .ok service
  encoded : Journal.Encoded toBytes AcceptedWrite journal service.file torn
  executed : journal.entries.Sublist (written events initial)
  running : ∀ system, service.server = some system →
    torn = [] ∧ system.state.wal.contents = service.file.entries ∧
    ∃ life : Life events system, life.logged = journal.entries

/-! A turn. -/

/-- What is executed was accepted. -/
theorem acceptedWrite_of_write? {sources : List Source} {all : List Moment}
    {past : List (Moment × Option IoFailure)} {attempted : List Attempted} {system : System}
    (h : system.Attends sources all past attempted) {turn : Turn} {failure : Option IoFailure}
    {clock : Clock} {command : Command}
    (hwrite : Moment.write? (⟨turn, system, clock⟩, failure) = some command) :
    command.AcceptedWrite := by
  unfold Moment.write? Moment.attempt at hwrite
  cases turn with
  | cleanUp => cases hwrite
  | serve i =>
    cases hi : system.connections[i]? with
    | none =>
      rw [Moment.action_absent hi] at hwrite
      cases hwrite
    | some connection =>
      by_cases hphase : ∃ command, connection.phase = .executing command
      · obtain ⟨command', hphase⟩ := hphase
        rw [Moment.action_executing hi hphase] at hwrite
        obtain ⟨_, _, _, _, _, _, hattends⟩ := h.connection hi
        simp only [hphase] at hattends
        obtain ⟨_, _, _, _, _, hsized, _⟩ := hattends
        by_cases hcond : command'.isWriteOp = true ∧ command'.refusal failure = none
        · have heq : some command' = some command := (if_pos hcond).symm.trans hwrite
          cases heq
          exact acceptedWrite_of_wellSized hcond.1 hsized
        · have heq : none = some command := (if_neg hcond).symm.trans hwrite
          cases heq
      · have hother : ∀ command, connection.phase ≠ .executing command :=
          fun command hp => hphase ⟨command, hp⟩
        rw [Moment.action_other hi hother] at hwrite
        cases hwrite

/-- What a turn adds to the log is the record of its write, if nothing is torn. -/
theorem moment_logged {moment : Moment × Option IoFailure} {state state' : ServerState}
    {new : List Attempted}
    (h : attempts (Moment.attempt moment).toList state = .ok (new, state'))
    (huntorn : ∀ attempt, Moment.attempt moment = some attempt → attempt.Untorn) :
    state'.wal.contents = state.wal.contents ++ records (Moment.write? moment).toList := by
  unfold Moment.write?
  cases hattempt : Moment.attempt moment with
  | none =>
    rw [hattempt] at h
    cases h
    exact (List.append_nil _).symm
  | some attempt =>
    rw [hattempt] at h
    exact attempt_logged (huntorn attempt hattempt) h

/-! Events. -/

/-- A part of a record is a part of a command. -/
theorem more_of_torn {torn : Bytes} (h : Journal.Partial toBytes AcceptedWrite torn)
    (hne : torn ≠ []) : Request.frame.run torn = .more := by
  rcases h with rfl | ⟨command, rest, haccepted, hwrite, _, hrest⟩
  · exact absurd rfl hne
  · have hencodes := haccepted.wellSized.encodes
    rw [hwrite] at hencodes
    exact hencodes.run_prefix hrest

/-- Where the last record is whole a server starts, with the commands of the journal. Where
    it is not, none does. -/
theorem start_spec {journal : Journal Command} {torn : Bytes} {self : Service}
    (h : Journal.Encoded toBytes AcceptedWrite journal self.file torn) (hdown : self.server = none)
    (now : UInt64) (hasher : Bytes → UInt64) (sources : List Source) :
    Completes ((Event.start now hasher sources).run self) (fun self' =>
      self'.file = self.file ∧ (torn ≠ [] → self'.server = none) ∧
      (torn = [] → ∃ state, self'.server = some (.start state sources) ∧
        state.wal.contents = self.file.entries ∧
        runAt now (ServerState.fromWal ⟨records journal.entries⟩ hasher) = .ok state ∧
        state.keyStore.Holds (allOnMap now journal.entries (fun _ => none)))) := by
  have hentries : self.file.entries = records journal.entries ++ torn := h.entries
  have hfromWal := ServerState.fromWal_records h.all_valid (more_of_torn h.torn) now hasher
  unfold Event.run
  simp only [hdown, hentries]
  cases hrun : runAt now (ServerState.fromWal ⟨records journal.entries ++ torn⟩ hasher) with
  | ok state =>
    obtain ⟨rfl, hwal, hholds⟩ := hfromWal.of_ok hrun
    rw [List.append_nil] at hrun ⊢
    exact ⟨rfl, fun hne => absurd rfl hne, fun _ => ⟨state, rfl, hwal, hrun, hholds⟩⟩
  | error f =>
    rcases hfromWal.of_error hrun with hmemory | ⟨htorn, msg, rfl⟩
    · cases f with
      | capacityOverflow n hn => exact trivial
      | _ => cases hmemory
    · exact ⟨rfl, fun _ => hdown, fun heq => absurd heq htorn⟩

theorem written_snoc {events : List Event} {self : Service} (h : run events initial = .ok self)
    (event : Event) : written (events ++ [event]) initial =
      written events initial ++ written [event] self := by
  unfold written
  rw [moments_append _ h, List.filterMap_append]

theorem run_snoc {events : List Event} {self : Service} (h : run events initial = .ok self)
    {event : Event} {self' : Service} (hevent : event.run self = .ok self') :
    run (events ++ [event]) initial = .ok self' := by
  rw [run_append _ h, run_cons hevent]
  rfl

/-- A server that runs goes on through an event at which no turn is taken. -/
theorem Sound.running_snoc {events : List Event} {journal : Journal Command} {torn : Bytes}
    {self : Service} (h : Sound events journal torn self) {event : Event}
    (hcrash : ∀ kept, event ≠ .crash kept) (hidle : event.moment? self = none) :
    ∀ system, self.server = some system → torn = [] ∧
      system.state.wal.contents = self.file.entries ∧
      ∃ life : Life (events ++ [event]) system, life.logged = journal.entries := by
  intro system hsystem
  obtain ⟨htorn, hwal, life, hlogged⟩ := h.running system hsystem
  obtain ⟨life', hlogged'⟩ := life.idle h.ran hcrash hidle
  exact ⟨htorn, hwal, life', hlogged'.trans hlogged⟩

theorem Sound.executed_snoc {events : List Event} {journal : Journal Command} {torn : Bytes}
    {self : Service} (h : Sound events journal torn self) (event : Event) :
    journal.entries.Sublist (written (events ++ [event]) initial) := by
  rw [written_snoc h.ran]
  exact h.executed.trans (List.sublist_append_left _ _)

theorem Sound.sync {events : List Event} {journal : Journal Command} {torn : Bytes}
    {self : Service} (h : Sound events journal torn self) :
    Sound (events ++ [.sync]) journal.sync torn { self with file := self.file.sync } :=
  ⟨run_snoc h.ran rfl, h.encoded.sync, h.executed_snoc .sync, h.running_snoc nofun rfl⟩

/-- A turn of the server that runs. -/
theorem Sound.turn {events : List Event} {journal : Journal Command} {torn : Bytes}
    {self : Service} (h : Sound events journal torn self) {system : System}
    (hsystem : self.server = some system) {taken : Turn} {failure : Option IoFailure} {clock : Clock}
    (huntorn : Untorn [.turn taken failure clock] self) :
    Completes ((Event.turn taken failure clock).run self) (fun self' => ∃ journal',
      journal.Keeps journal' ∧ Sound (events ++ [.turn taken failure clock]) journal' [] self') := by
  obtain ⟨rfl, hwal, life, hlogged⟩ := h.running system hsystem
  have hmoment : (Event.turn taken failure clock).moment? self =
      some (⟨taken, system, clock⟩, failure) := by
    simp only [Event.moment?, hsystem, Option.map_some]
  have hwritten : written [.turn taken failure clock] self =
      (Moment.write? (⟨taken, system, clock⟩, failure)).toList := by
    rw [written, moments_singleton, hmoment]
    cases hwrite : Moment.write? (⟨taken, system, clock⟩, failure) <;> simp [hwrite]
  obtain ⟨attempted, _, hattends⟩ := life.turns.attends
    (System.start_attends (Life.sized_of_restored life.restored) life.accepted)
    (List.subset_append_left _ [⟨taken, system, clock⟩])
  have hturn := System.turnFailing_attends hattends failure (List.mem_append_right _ List.mem_cons_self)
  have hstep : (Event.turn taken failure clock).run self =
      (system.turnFailing failure taken).run clock >>= fun r =>
        .ok { file := self.file.append (r.1.state.wal.contents.drop self.file.entries.length),
              server := some r.1 } := by
    unfold Event.run
    simp only [hsystem]
    rfl
  rw [hstep]
  cases hrun : (system.turnFailing failure taken).run clock with
  | error f => exact hturn.of_error hrun
  | ok r =>
    obtain ⟨system', clock'⟩ := r
    obtain ⟨new, hnew, _⟩ := hturn.of_ok hrun
    have hlog := moment_logged hnew (huntorn _ (by
      rw [moments_singleton, hmoment]
      exact List.mem_cons_self))
    rw [hwal, ← hwritten] at hlog
    have hvalid : ∀ command ∈ written [.turn taken failure clock] self, command.AcceptedWrite := by
      intro command hc
      rw [hwritten, Option.mem_toList] at hc
      exact acceptedWrite_of_write? hattends hc
    have hturns : (System.start life.state life.sources).Turns
        (moments life.since life.up ++ ((Event.turn taken failure clock).moment? self).toList)
        system' := by
      rw [hmoment]
      exact life.turns.snoc hrun
    have hcrash : ∀ kept, Event.turn taken failure clock ≠ .crash kept := nofun
    rw [hrun] at hstep
    refine ⟨journal.append (written [.turn taken failure clock] self), .append journal _,
      run_snoc h.ran hstep, ?_, ?_, ?_⟩
    · show Journal.Encoded _ _ _ (self.file.append (system'.state.wal.contents.drop _)) _
      rw [hlog, List.drop_left]
      exact h.encoded.append hvalid
    · rw [written_snoc h.ran]
      exact h.executed.append (List.Sublist.refl _)
    · intro system'' hsystem'
      cases hsystem'
      refine ⟨rfl, ?_, life.next h.ran hcrash hturns, ?_⟩
      · show _ = self.file.entries ++ system'.state.wal.contents.drop _
        rw [hlog, List.drop_left]
      · rw [life.next_logged h.ran hcrash hturns, hlogged]
        rfl

/-- An event keeps what was synced, and what is known of the service. -/
theorem event_sound {events : List Event} {journal : Journal Command} {torn : Bytes}
    {self : Service} (h : Sound events journal torn self) {event : Event}
    (haccepted : event.Accepted) (huntorn : Untorn [event] self) :
    Completes (event.run self) (fun self' => ∃ journal' torn',
      journal.Keeps journal' ∧ Sound (events ++ [event]) journal' torn' self') := by
  have hexecuted := h.executed_snoc event
  cases event with
  | sync => exact ⟨journal.sync, torn, .sync journal, h.sync⟩
  | crash kept =>
    obtain ⟨kept', torn', hencoded⟩ := h.encoded.crash kept
    exact ⟨journal.crash kept', torn', .crash journal kept', run_snoc h.ran rfl, hencoded,
      (List.take_sublist _ _).trans hexecuted, fun system hs => by cases hs⟩
  | start now hasher sources =>
    cases hs : self.server with
    | some system =>
      have hrun : (Event.start now hasher sources).run self = .ok self := by
        simp only [Event.run, hs]
        rfl
      rw [hrun]
      exact ⟨journal, torn, .refl journal, run_snoc h.ran hrun, h.encoded, hexecuted,
        h.running_snoc nofun rfl⟩
    | none =>
      have hspec := start_spec h.encoded hs now hasher sources
      cases hrun : (Event.start now hasher sources).run self with
      | error f => exact hspec.of_error hrun
      | ok self' =>
        obtain ⟨hfile, hrefused, hstarted⟩ := hspec.of_ok hrun
        refine ⟨journal, torn, .refl journal, run_snoc h.ran hrun, by rw [hfile]; exact h.encoded,
          hexecuted, ?_⟩
        intro system hsystem
        by_cases htorn : torn = []
        · obtain ⟨state, hsome, hwal, hrestored, hholds⟩ := hstarted htorn
          cases hsome.symm.trans hsystem
          have hup : self' = { self with server := some (.start state sources) } := by
            rw [← hfile, ← hsome]
          have hentries := h.encoded.entries
          rw [htorn, List.append_nil] at hentries
          refine ⟨htorn, by rw [hfile]; exact hwal, .start ⟨h.ran, hs⟩ (hrun.trans (congrArg _ hup))
            haccepted hentries hrestored hholds, ?_⟩
          exact List.append_nil _
        · rw [hrefused htorn] at hsystem
          cases hsystem
  | turn taken failure clock =>
    cases hs : self.server with
    | none =>
      have hrun : (Event.turn taken failure clock).run self = .ok self := by
        simp only [Event.run, hs]
        rfl
      rw [hrun]
      refine ⟨journal, torn, .refl journal, run_snoc h.ran hrun, h.encoded, hexecuted, ?_⟩
      intro system hsystem
      cases hs.symm.trans hsystem
    | some system =>
      apply Yields.mono (h.turn hs huntorn)
      intro self' hpost
      obtain ⟨journal', hkeeps, h'⟩ := hpost
      exact ⟨journal', [], hkeeps, h'⟩

theorem run_sound : ∀ {after events : List Event} {journal : Journal Command} {torn : Bytes}
    {self : Service}, Sound events journal torn self → (∀ event ∈ after, event.Accepted) →
    Untorn after self →
    Completes (run after self) (fun self' => ∃ journal' torn',
      journal.Keeps journal' ∧ Sound (events ++ after) journal' torn' self')
  | [], events, journal, torn, self, h, _, _ =>
    ⟨journal, torn, .refl journal, by rw [List.append_nil]; exact h⟩
  | event :: after, events, journal, torn, self, h, haccepted, huntorn => by
    have hfirst : Untorn [event] self := fun moment hm =>
      huntorn moment ((moments_initial [event] after self).subset hm)
    have hevent := event_sound h (haccepted event List.mem_cons_self) hfirst
    cases hrun : event.run self with
    | error f =>
      have herror : run (event :: after) self = .error f := by
        unfold run
        rw [List.foldlM_cons, hrun]
        rfl
      rw [herror]
      exact hevent.of_error hrun
    | ok self' =>
      obtain ⟨journal', torn', hkeeps, h'⟩ := hevent.of_ok hrun
      have hrest : Untorn after self' := by
        intro moment hm
        refine huntorn moment ?_
        rw [← List.singleton_append, moments_append after ((run_cons hrun).trans rfl)]
        exact List.mem_append_right _ hm
      rw [run_cons hrun]
      apply Yields.mono
        (run_sound h' (fun e he => haccepted e (List.mem_cons_of_mem _ he)) hrest)
      intro self'' hpost
      obtain ⟨journal'', torn'', hkeeps', h''⟩ := hpost
      rw [List.append_assoc] at h''
      exact ⟨journal'', torn'', hkeeps.trans hkeeps', h''⟩

theorem initial_sound : Sound [] .empty [] initial where
  ran := rfl
  encoded := .empty
  executed := List.Sublist.refl _
  running _ hs := by cases hs

/-- Over any number of starts, crashes and failures of the operating system, the clients of
    each server are served in one order, from the store that replaying what it found in the
    log at its start gives. What was executed and logged before a sync is in the log of every later server,
    in its place; the log has nothing else but writes that were executed, in this order; and
    the next server restores all of them, or none starts where a record is torn. -/
theorem run_linearizes_durably {before after : List Event}
    (haccepted : ∀ event ∈ before ++ .sync :: after, event.Accepted)
    (huntorn : Untorn (before ++ .sync :: after) initial) :
    Completes (do
        let synced ← run before initial
        let service ← run (.sync :: after) synced
        return (synced, service)) (fun (synced, service) => ∃ journal journal' torn torn',
      Sound before journal torn synced ∧ Sound (before ++ .sync :: after) journal' torn' service ∧
      journal.entries <+: journal'.entries ∧
      (service.server = none → ∀ now hasher sources,
        Completes ((Event.start now hasher sources).run service) (fun started =>
          (torn' ≠ [] → started.server = none) ∧
          (torn' = [] → ∃ state, started.server = some (.start state sources) ∧
            state.keyStore.Holds (allOnMap now journal'.entries (fun _ => none)))))) := by
  have huntornBefore : Untorn before initial := fun moment hm =>
    huntorn moment ((moments_initial before (.sync :: after) initial).subset hm)
  have hbefore := run_sound initial_sound (fun e he => haccepted e (by simp [he])) huntornBefore
  cases hsynced : run before initial with
  | error f => exact hbefore.of_error hsynced
  | ok synced =>
    obtain ⟨journal, torn, _, h⟩ := hbefore.of_ok hsynced
    rw [List.nil_append] at h
    have huntornAfter : Untorn after { synced with file := synced.file.sync } := fun moment hm =>
      huntorn moment (by
        rw [moments_append _ hsynced]
        exact List.mem_append_right _ hm)
    have hafter := run_sound h.sync (fun e he => haccepted e (by simp [he])) huntornAfter
    show Completes (do let service ← run after { synced with file := synced.file.sync }; _) _
    apply Yields.bind hafter
    intro service hpost
    obtain ⟨journal', torn', hkeeps, h'⟩ := hpost
    rw [List.append_assoc] at h'
    refine ⟨journal, journal', torn, torn', h, h', hkeeps.prefix_of_sync, ?_⟩
    intro hdown now hasher sources
    apply Yields.mono (start_spec h'.encoded hdown now hasher sources)
    intro started hstarted
    refine ⟨hstarted.2.1, fun htorn => ?_⟩
    obtain ⟨state, hsome, _, _, hholds⟩ := hstarted.2.2 htorn
    exact ⟨state, hsome, hholds⟩

/-- A failure before anything is done tears no record. -/
theorem untorn_of_whole {events : List Event} (h : ∀ event ∈ events, event.Whole)
    (self : Service) : Untorn events self := by
  intro moment hmoment attempt hattempt
  have hwhole := h _ (mem_of_mem_moments hmoment)
  obtain ⟨action, _, rfl⟩ := Option.map_eq_some_iff.mp hattempt
  cases action with
  | cleanUp clock => trivial
  | exec client command clock =>
    intro hrefused
    show IoFailure.written moment.2 command.toBytes = []
    cases hfailure : moment.2 with
    | none =>
      rw [show Attempt.failure _ = none from hfailure] at hrefused
      exact absurd (by unfold Command.refusal; simp) hrefused
    | some failure =>
      show command.toBytes.take failure.done = []
      rw [hwhole failure hfailure, List.take_zero]

/-- A key is set, but the client's connection breaks; the log is synced, another client's
    `DEL` finds no space, and the server crashes and is started again. -/
theorem run_linearizes_durably_reset :
    Completes (do
        let synced ← run [.start 1 (fun _ => 0)
          [[asBytes "*3\r\n$3\r\nSET\r\n$1\r\na\r\n$1\r\nb\r\n"],
            [asBytes "*2\r\n$3\r\nDEL\r\n$1\r\na\r\n"]],
          .turn (.serve 0) none (Stream'.const 2), .turn (.serve 0) none (Stream'.const 2),
          .turn (.serve 0) none (Stream'.const 2),
          .turn (.serve 0) (some ⟨0, ⟨"broken pipe"⟩⟩) (Stream'.const 3)] initial
        let service ← run (.sync :: [.turn (.serve 1) none (Stream'.const 4),
          .turn (.serve 1) none (Stream'.const 4),
          .turn (.serve 1) (some ⟨0, ⟨"no space"⟩⟩) (Stream'.const 5), .crash 0,
          .start 6 (fun _ => 1) []]) synced
        return (synced, service)) (fun (synced, service) => ∃ journal journal' torn torn',
      Sound [.start 1 (fun _ => 0)
          [[asBytes "*3\r\n$3\r\nSET\r\n$1\r\na\r\n$1\r\nb\r\n"],
            [asBytes "*2\r\n$3\r\nDEL\r\n$1\r\na\r\n"]],
          .turn (.serve 0) none (Stream'.const 2), .turn (.serve 0) none (Stream'.const 2),
          .turn (.serve 0) none (Stream'.const 2),
          .turn (.serve 0) (some ⟨0, ⟨"broken pipe"⟩⟩) (Stream'.const 3)] journal torn synced ∧
      Sound ([.start 1 (fun _ => 0)
          [[asBytes "*3\r\n$3\r\nSET\r\n$1\r\na\r\n$1\r\nb\r\n"],
            [asBytes "*2\r\n$3\r\nDEL\r\n$1\r\na\r\n"]],
          .turn (.serve 0) none (Stream'.const 2), .turn (.serve 0) none (Stream'.const 2),
          .turn (.serve 0) none (Stream'.const 2),
          .turn (.serve 0) (some ⟨0, ⟨"broken pipe"⟩⟩) (Stream'.const 3)] ++ .sync ::
          [.turn (.serve 1) none (Stream'.const 4), .turn (.serve 1) none (Stream'.const 4),
          .turn (.serve 1) (some ⟨0, ⟨"no space"⟩⟩) (Stream'.const 5), .crash 0,
          .start 6 (fun _ => 1) []]) journal' torn' service ∧
      journal.entries <+: journal'.entries ∧
      (service.server = none → ∀ now hasher sources,
        Completes ((Event.start now hasher sources).run service) (fun started =>
          (torn' ≠ [] → started.server = none) ∧
          (torn' = [] → ∃ state, started.server = some (.start state sources) ∧
            state.keyStore.Holds (allOnMap now journal'.entries (fun _ => none)))))) := by
  have hset : asBytes "*3\r\n$3\r\nSET\r\n$1\r\na\r\n$1\r\nb\r\n" ≠ [] := by decide
  have hdel : asBytes "*2\r\n$3\r\nDEL\r\n$1\r\na\r\n" ≠ [] := by decide
  refine run_linearizes_durably ?_ (untorn_of_whole ?_ initial)
  · simp [Event.Accepted, hset, hdel]
  · simp [Event.Whole]

end Service
end SimpleKv
