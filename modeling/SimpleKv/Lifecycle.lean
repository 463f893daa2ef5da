import SimpleKv.Lib.Journal
import SimpleKv.Restart

/- The life of a server and its file, over any number of crashes. Servers are started on
   the file one after the other; one that runs takes steps, and a thread of it syncs the
   file now and then. A crash ends the server and cuts the file anywhere behind what was
   synced. Then the file holds the records of a prefix of the steps, and maybe a part of
   one more record, in which case no server starts on it. -/
namespace SimpleKv
open Outcome Expiring Command

/-- The file of the log, and the key store of the server that runs on it, if one does. -/
structure Machine where
  file : Journal UInt8
  keyStore : Option Store

namespace Machine
open ServerRun (bindings logged)
open ServerState (allOnMap)

inductive Event where
  | start (now : UInt64) (hasher : Bytes → UInt64)
  | step (taken : Step)
  | sync
  | crash (kept : Nat)

/-- No server runs yet, and the file is empty or not there: `AppendOnlyFile::open`
    creates it. -/
def initial : Machine := ⟨.empty, none⟩

/-- A `from_wal` that panics leaves the file as it is. A step writes at the end of the
    file. -/
def Event.run (event : Event) (self : Machine) : Rust Machine := do
  match event, self.keyStore with
  | .start now hasher, none =>
    match runAt now (ServerState.fromWal ⟨self.file.entries⟩ hasher) with
    | .ok state => return { self with keyStore := some state.keyStore }
    | .error (.expectFailed _) => return self
    | .error f => throw f
  | .step taken, some keyStore =>
    let state ← taken.run ⟨⟨self.file.entries⟩, keyStore⟩
    return { file := self.file.append (state.wal.contents.drop self.file.entries.length),
             keyStore := some state.keyStore }
  | .sync, _ => return { self with file := self.file.sync }
  | .crash kept, _ => return { file := self.file.crash kept, keyStore := none }
  | .start _ _, some _ | .step _, none => return self

def run (events : List Event) (self : Machine) : Rust Machine :=
  events.foldlM (fun self event => event.run self) self

end Machine

/-! The steps that leave a trace. -/

namespace Step

/-- What the step adds to the log. -/
def record (self : Step) : Bytes := self.onLog []

/-- The step, unless it is a write that failed: that has changed nothing. -/
def done : Step → List Step
  | .write now command none => [.write now command none]
  | .write _ _ (some _) => []
  | .cleanUp now => [.cleanUp now]

/-- A step of a server that is recorded whole. -/
def Recorded (self : Step) : Prop := self.Accepted ∧ self.Logged

theorem onLog_eq (self : Step) (contents : Bytes) : self.onLog contents = contents ++ self.record := by
  cases self with
  | cleanUp now => exact (List.append_nil contents).symm
  | write now command failure => cases failure <;> rfl

theorem recorded_of_mem_done {self step : Step} (haccepted : self.Accepted) (h : step ∈ self.done) :
    step.Recorded := by
  cases self with
  | cleanUp now => cases List.mem_singleton.mp h; exact ⟨trivial, trivial⟩
  | write now command failure =>
    cases failure with
    | none => cases List.mem_singleton.mp h; exact ⟨haccepted, rfl⟩
    | some failed => cases h

theorem flatMap_done {self : Step} (huntorn : self.Untorn) : self.done.flatMap record = self.record := by
  cases self with
  | cleanUp now => rfl
  | write now command failure =>
    cases failure with
    | none => exact List.append_nil _
    | some failed =>
      show [] = [] ++ command.toBytes.take failed.1
      rw [show failed.1.val = 0 from huntorn]
      rfl

theorem bindings_done (self : Step) (m : Bindings) : ServerRun.bindings self.done m = self.onMap m := by
  cases self with
  | cleanUp now => rfl
  | write now command failure => cases failure <;> rfl

theorem flatMap_record : ∀ {steps : List Step}, (∀ step ∈ steps, step.Recorded) →
    steps.flatMap record = records (ServerRun.logged steps)
  | [], _ => rfl
  | .cleanUp now :: steps, h => by
    rw [List.flatMap_cons, flatMap_record (fun s hs => h s (List.mem_cons_of_mem _ hs))]
    rfl
  | .write now command failure :: steps, h => by
    cases (show failure = none from (h _ List.mem_cons_self).2)
    rw [List.flatMap_cons, flatMap_record (fun s hs => h s (List.mem_cons_of_mem _ hs))]
    rfl

/-- A part of a record is a part of a command. -/
theorem more_of_partial {torn : Bytes} (h : Journal.Partial record Recorded torn) (hne : torn ≠ []) :
    Request.frame.run torn = .more := by
  rcases h with rfl | ⟨step, rest, hstep, hwrite, _, hrest⟩
  · exact absurd rfl hne
  · cases step with
    | cleanUp now =>
      exact absurd (List.append_eq_nil_iff.mp (show [] = torn ++ rest from hwrite).symm).1 hne
    | write now command failure =>
      cases (show failure = none from hstep.2)
      have hencodes := (AcceptedWrite.wellSized hstep.1).encodes
      rw [show command.toBytes = torn ++ rest from hwrite] at hencodes
      exact hencodes.run_prefix hrest

end Step

namespace Machine
open ServerRun (bindings logged)
open ServerState (allOnMap)

namespace Event

/-- The steps that are executed if a server runs. -/
def steps : Event → List Step
  | .step taken => taken.done
  | .start _ _ | .sync | .crash _ => []

/-- Only steps a server can take, and whose append leaves no part of a record. A server
    that stops within an append is a crash. -/
def Accepted : Event → Prop
  | .step taken => taken.Accepted ∧ taken.Untorn
  | .start _ _ | .sync | .crash _ => True

end Event

/-! What the file holds. -/

/-- The server that runs after the events: which of them has started it, and the steps it has
    found in the file then. -/
structure Life (events : List Event) where
  before : List Event
  now : UInt64
  hasher : Bytes → UInt64
  since : List Event
  /-- Before the start no server ran. -/
  down : Machine
  found : List Step
  restored : Store
  history : events = before ++ .start now hasher :: since
  stopped : run before initial = .ok down ∧ down.keyStore = none
  started : (Event.start now hasher).run down = .ok { down with keyStore := some restored }
  uninterrupted : ∀ kept, Event.crash kept ∉ since
  executed : found.Sublist (before.flatMap Event.steps)
  log : down.file.entries = records (logged found)

/-- The steps of the server since its start. -/
def Life.steps {events : List Event} (self : Life events) : List Step :=
  self.since.flatMap Event.steps

/-- The server after one more event. -/
def Life.next {events : List Event} (self : Life events) {event : Event}
    (hcrash : ∀ kept, event ≠ .crash kept) : Life (events ++ [event]) :=
  { self with
    since := self.since ++ [event]
    history := (congrArg (· ++ [event]) self.history).trans (List.append_assoc _ _ _)
    uninterrupted := fun kept hmem => by
      rcases List.mem_append.mp hmem with hmem | hmem
      · exact self.uninterrupted kept hmem
      · exact hcrash kept (List.mem_singleton.mp hmem).symm }

theorem Life.next_steps {events : List Event} (self : Life events) {event : Event}
    (hcrash : ∀ kept, event ≠ .crash kept) : (self.next hcrash).steps = self.steps ++ event.steps := by
  show (self.since ++ [event]).flatMap Event.steps = _
  rw [List.flatMap_append, List.flatMap_singleton]
  rfl

/-- The store of the server that runs: what `from_wal` replayed from the steps it found in the
    file, changed by all steps since then. -/
def Running (events : List Event) (steps : List Step) (keyStore : Store) : Prop :=
  ∃ life : Life events, steps = life.found ++ life.steps ∧
    keyStore.Holds (bindings life.steps (allOnMap life.now (logged life.found) (fun _ => none)))

/-- The machine after `events`: the file has the records of the journal, whose steps were
    taken in this order, and a server runs only if there is nothing else in it. -/
structure Sound (events : List Event) (journal : Journal Step) (torn : Bytes) (machine : Machine) :
    Prop where
  ran : run events initial = .ok machine
  encoded : Journal.Encoded Step.record Step.Recorded journal machine.file torn
  executed : journal.entries.Sublist (events.flatMap Event.steps)
  running : ∀ keyStore, machine.keyStore = some keyStore →
    torn = [] ∧ Running events journal.entries keyStore

theorem Running.snoc {events : List Event} {steps : List Step} {keyStore : Store}
    (h : Running events steps keyStore) {event : Event} (hcrash : ∀ kept, event ≠ .crash kept)
    (keyStore' : Store) (hholds : ∀ m, keyStore.Holds m → keyStore'.Holds (bindings event.steps m)) :
    Running (events ++ [event]) (steps ++ event.steps) keyStore' := by
  obtain ⟨life, rfl, hstore⟩ := h
  refine ⟨life.next hcrash, ?_, ?_⟩
  · rw [life.next_steps, List.append_assoc]
    rfl
  · rw [life.next_steps, bindings, List.foldl_append]
    exact hholds _ hstore

/-- Where the last record is whole a server starts, with the steps of the journal. Where
    it is not, none does. -/
theorem start_spec {journal : Journal Step} {torn : Bytes} {self : Machine}
    (h : Journal.Encoded Step.record Step.Recorded journal self.file torn)
    (hdown : self.keyStore = none) (now : UInt64) (hasher : Bytes → UInt64) :
    Completes ((Event.start now hasher).run self) (fun self' =>
      self'.file = self.file ∧ (torn ≠ [] → self'.keyStore = none) ∧
      (torn = [] → ∃ keyStore, self'.keyStore = some keyStore ∧
        keyStore.Holds (allOnMap now (logged journal.entries) (fun _ => none)))) := by
  have haccepted := ServerRun.acceptedWrite_of_mem_logged (fun s hs => (h.all_valid s hs).1)
  have hentries := h.entries
  rw [Step.flatMap_record h.all_valid] at hentries
  have hmore := Step.more_of_partial h.torn
  have hfromWal := ServerState.fromWal_records haccepted hmore now hasher
  rw [← hentries] at hfromWal
  unfold Event.run
  simp only [hdown]
  cases hrun : runAt now (ServerState.fromWal ⟨self.file.entries⟩ hasher) with
  | ok state =>
    obtain ⟨htorn, _, hholds⟩ := hfromWal.of_ok hrun
    exact ⟨rfl, fun hne => absurd htorn hne, fun _ => ⟨state.keyStore, rfl, hholds⟩⟩
  | error f =>
    rcases hfromWal.of_error hrun with hmemory | ⟨htorn, msg, rfl⟩
    · cases f with
      | capacityOverflow n hn => exact trivial
      | _ => cases hmemory
    · exact ⟨rfl, fun _ => hdown, fun heq => absurd heq htorn⟩

/-! Runs. -/

theorem run_snoc {events : List Event} {self self' : Machine} (h : run events initial = .ok self)
    {event : Event} (hevent : event.run self = .ok self') :
    run (events ++ [event]) initial = .ok self' := by
  unfold run at h ⊢
  rw [List.foldlM_append, h, ok_bind, List.foldlM_cons, hevent]
  rfl

theorem Sound.executed_snoc {events : List Event} {journal : Journal Step} {torn : Bytes}
    {self : Machine} (h : Sound events journal torn self) (event : Event) :
    journal.entries.Sublist ((events ++ [event]).flatMap Event.steps) := by
  rw [List.flatMap_append]
  exact h.executed.trans (List.sublist_append_left _ _)

/-- A server that runs goes on. -/
theorem Sound.running_snoc {events : List Event} {journal : Journal Step} {torn : Bytes}
    {self : Machine} (h : Sound events journal torn self) {event : Event}
    (hcrash : ∀ kept, event ≠ .crash kept) (hnil : event.steps = []) :
    ∀ keyStore, self.keyStore = some keyStore →
      torn = [] ∧ Running (events ++ [event]) journal.entries keyStore := by
  intro keyStore hk
  have hsnoc := (h.running keyStore hk).2.snoc hcrash keyStore
    (fun m hm => by rw [hnil]; exact hm)
  rw [hnil, List.append_nil] at hsnoc
  exact ⟨(h.running keyStore hk).1, hsnoc⟩

theorem Sound.sync {events : List Event} {journal : Journal Step} {torn : Bytes} {self : Machine}
    (h : Sound events journal torn self) :
    Sound (events ++ [.sync]) journal.sync torn { self with file := self.file.sync } :=
  ⟨run_snoc h.ran rfl, h.encoded.sync, h.executed_snoc .sync, h.running_snoc nofun rfl⟩

/-- An event keeps what was synced, and what is known of the machine. -/
theorem event_sound {events : List Event} {journal : Journal Step} {torn : Bytes} {self : Machine}
    (h : Sound events journal torn self) {event : Event} (haccepted : event.Accepted) :
    Completes (event.run self) (fun self' => ∃ journal' torn',
      journal.Keeps journal' ∧ Sound (events ++ [event]) journal' torn' self') := by
  have hexecuted := h.executed_snoc event
  cases event with
  | sync => exact ⟨journal.sync, torn, .sync journal, h.sync⟩
  | crash kept =>
    obtain ⟨kept', torn', hencoded⟩ := h.encoded.crash kept
    exact ⟨journal.crash kept', torn', .crash journal kept', run_snoc h.ran rfl, hencoded,
      (List.take_sublist _ _).trans hexecuted, fun keyStore hk => by cases hk⟩
  | start now hasher =>
    cases hk : self.keyStore with
    | some keyStore =>
      have hrun : (Event.start now hasher).run self = .ok self := by
        simp only [Event.run, hk]
        rfl
      rw [hrun]
      exact ⟨journal, torn, .refl journal, run_snoc h.ran hrun, h.encoded, hexecuted,
        h.running_snoc nofun rfl⟩
    | none =>
      have hspec := start_spec h.encoded hk now hasher
      cases hrun : (Event.start now hasher).run self with
      | error f => exact hspec.of_error hrun
      | ok self' =>
        obtain ⟨hfile, hrefused, hstarted⟩ := hspec.of_ok hrun
        refine ⟨journal, torn, .refl journal, run_snoc h.ran hrun, by rw [hfile]; exact h.encoded,
          hexecuted, ?_⟩
        intro keyStore' hk'
        by_cases htorn : torn = []
        · obtain ⟨keyStore, hsome, hholds⟩ := hstarted htorn
          cases hsome.symm.trans hk'
          have hup : self' = { self with keyStore := some keyStore' } := by rw [← hfile, ← hk']
          have hlog := h.encoded.entries
          rw [htorn, List.append_nil, Step.flatMap_record h.encoded.all_valid] at hlog
          exact ⟨htorn, ⟨events, now, hasher, [], self, journal.entries, keyStore', rfl, ⟨h.ran, hk⟩,
            hrun.trans (congrArg _ hup), fun _ => List.not_mem_nil, h.executed, hlog⟩,
            (List.append_nil _).symm, hholds⟩
        · rw [hrefused htorn] at hk'
          cases hk'
  | step taken =>
    cases hk : self.keyStore with
    | none =>
      have hrun : (Event.step taken).run self = .ok self := by
        simp only [Event.run, hk]
        rfl
      rw [hrun]
      exact ⟨journal, torn, .refl journal, run_snoc h.ran hrun, h.encoded, hexecuted,
        fun keyStore hk' => by cases hk.symm.trans hk'⟩
    | some keyStore =>
      obtain ⟨rfl, hrun⟩ := h.running keyStore hk
      have hspec : ∀ m, keyStore.Holds m → _ := fun m hm => Step.run_spec haccepted.1
        (show (ServerState.mk ⟨self.file.entries⟩ keyStore).keyStore.Holds m from hm)
      have hevent : (Event.step taken).run self =
          taken.run ⟨⟨self.file.entries⟩, keyStore⟩ >>= fun state =>
            .ok { file := self.file.append (state.wal.contents.drop self.file.entries.length),
                  keyStore := some state.keyStore } := by
        simp only [Event.run, hk]
        rfl
      rw [hevent]
      cases hstep : taken.run ⟨⟨self.file.entries⟩, keyStore⟩ with
      | error f =>
        obtain ⟨_, _, hholds⟩ := hrun
        exact (hspec _ hholds).of_error hstep
      | ok state =>
        rw [hstep] at hevent
        have hcrash : ∀ kept, Event.step taken ≠ .crash kept := nofun
        have hrunning' := hrun.snoc hcrash state.keyStore
          (fun m hm => by
            show state.keyStore.Holds (bindings taken.done m)
            rw [Step.bindings_done]
            exact ((hspec m hm).of_ok hstep).2)
        obtain ⟨_, _, hholds⟩ := hrun
        have hlog : state.wal.contents = self.file.entries ++ taken.record := by
          rw [((hspec _ hholds).of_ok hstep).1, Step.onLog_eq]
        have hencoded := h.encoded.append
          (fun s hs => Step.recorded_of_mem_done haccepted.1 hs)
        rw [Step.flatMap_done haccepted.2] at hencoded
        refine ⟨journal.append taken.done, [], .append journal _, run_snoc h.ran hevent, ?_, ?_, ?_⟩
        · show Journal.Encoded _ _ _ (self.file.append (state.wal.contents.drop _)) _
          rw [hlog, List.drop_left]
          exact hencoded
        · show (journal.entries ++ taken.done).Sublist _
          rw [List.flatMap_append, List.flatMap_singleton]
          exact h.executed.append (List.Sublist.refl _)
        · intro keyStore' hk'
          cases hk'
          exact ⟨rfl, hrunning'⟩

theorem run_sound : ∀ {after events : List Event} {journal : Journal Step} {torn : Bytes}
    {self : Machine}, Sound events journal torn self → (∀ event ∈ after, event.Accepted) →
    Completes (run after self) (fun self' => ∃ journal' torn',
      journal.Keeps journal' ∧ Sound (events ++ after) journal' torn' self')
  | [], events, journal, torn, self, h, _ =>
    ⟨journal, torn, .refl journal, by rw [List.append_nil]; exact h⟩
  | event :: after, events, journal, torn, self, h, haccepted => by
    unfold run
    rw [List.foldlM_cons]
    apply Yields.bind (event_sound h (haccepted event List.mem_cons_self))
    intro self' hpost
    obtain ⟨journal', torn', hkeeps, h'⟩ := hpost
    apply Yields.mono (run_sound h' (fun e he => haccepted e (List.mem_cons_of_mem _ he)))
    intro self'' hpost
    obtain ⟨journal'', torn'', hkeeps', h''⟩ := hpost
    refine ⟨journal'', torn'', hkeeps.trans hkeeps', ?_⟩
    rw [List.append_assoc] at h''
    exact h''

theorem initial_sound : Sound [] .empty [] initial where
  ran := rfl
  encoded := .empty
  executed := List.Sublist.refl _
  running _ hk := by cases hk

/-- What was logged before a sync is in the log ever after, however often and wherever
    the server crashes; and what is in the log was executed, in this order. A server that
    runs has the steps of the log and no others, and the next start after a crash
    restores all of them, or refuses the log where it ends in a part of a record. -/
theorem run_keeps_synced {before after : List Event}
    (haccepted : ∀ event ∈ before ++ .sync :: after, event.Accepted) :
    Completes (do
        let synced ← run before initial
        let machine ← run (.sync :: after) synced
        return (synced, machine)) (fun (synced, machine) => ∃ journal journal' torn torn',
      Sound before journal torn synced ∧ Sound (before ++ .sync :: after) journal' torn' machine ∧
      journal.entries <+: journal'.entries ∧
      (machine.keyStore = none → ∀ now hasher,
        Completes ((Event.start now hasher).run machine) (fun started =>
          (torn' ≠ [] → started.keyStore = none) ∧
          (torn' = [] → ∃ keyStore, started.keyStore = some keyStore ∧
            keyStore.Holds (allOnMap now (logged journal'.entries) (fun _ => none)))))) := by
  apply Yields.bind (run_sound initial_sound (fun e he => haccepted e (by simp [he])))
  intro synced hpost
  obtain ⟨journal, torn, _, h⟩ := hpost
  rw [List.nil_append] at h
  show Completes (do let machine ← run after { synced with file := synced.file.sync }; _) _
  apply Yields.bind (run_sound h.sync (fun e he => haccepted e (by simp [he])))
  intro machine hpost
  obtain ⟨journal', torn', hkeeps, h'⟩ := hpost
  rw [List.append_assoc] at h'
  refine ⟨journal, journal', torn, torn', h, h', hkeeps.prefix_of_sync, fun hdown now hasher => ?_⟩
  exact Yields.mono (start_spec h'.encoded hdown now hasher) (fun _ hstarted => hstarted.2)

/-- A key that is set and synced, and a `DEL` of which a part is left by the first crash
    and nothing by the second. -/
theorem run_keeps_synced_twice :
    Completes (do
        let synced ← run [.start 1 (fun _ => 0), .step (.write 2 (.set [97] [98]) none)] initial
        let machine ← run [.sync, .step (.write 3 (.del [[97]]) none), .crash 30,
          .start 4 (fun _ => 1), .crash 0, .start 5 (fun _ => 2)] synced
        return (synced, machine)) (fun (synced, machine) => ∃ journal journal' torn torn',
      Sound [.start 1 (fun _ => 0), .step (.write 2 (.set [97] [98]) none)] journal torn synced ∧
      Sound ([.start 1 (fun _ => 0), .step (.write 2 (.set [97] [98]) none)] ++ [.sync,
        .step (.write 3 (.del [[97]]) none), .crash 30, .start 4 (fun _ => 1), .crash 0,
        .start 5 (fun _ => 2)]) journal' torn' machine ∧
      journal.entries <+: journal'.entries ∧
      (machine.keyStore = none → ∀ now hasher,
        Completes ((Event.start now hasher).run machine) (fun started =>
          (torn' ≠ [] → started.keyStore = none) ∧
          (torn' = [] → ∃ keyStore, started.keyStore = some keyStore ∧
            keyStore.Holds (allOnMap now (logged journal'.entries) (fun _ => none)))))) := by
  have hset : (Command.set [97] [98]).AcceptedWrite :=
    acceptedWrite_of_wellSized (by decide) (by decide)
  have hdel : (Command.del [[97]]).AcceptedWrite :=
    acceptedWrite_of_wellSized (by decide) (by decide)
  refine run_keeps_synced ?_
  simp [Event.Accepted, Step.Accepted, Step.Untorn, hset, hdel]

/-- What the two crashes leave: the part of the record is refused, and without it the key
    is there. -/
example : (do
    let torn ← run [.start 1 (fun _ => 0), .step (.write 2 (.set [97] [98]) none), .sync,
      .step (.write 3 (.del [[97]]) none), .crash 30, .start 4 (fun _ => 1)] initial
    let whole ← run [.crash 0, .start 5 (fun _ => 2)] torn
    return (torn.keyStore.isSome, ← whole.keyStore.mapM (KeyStore.get · [97]))) =
      (.ok (false, some (some ⟨[98], none⟩)) : Rust _) := rfl

/-! Under a clock that does not go back. -/

namespace Event

def reading : Event → Option UInt64
  | .start now _ => some now
  | .step taken => some taken.now
  | .sync | .crash _ => none

theorem steps_reading (event : Event) :
    (event.steps.map Step.now).Sublist event.reading.toList := by
  cases event with
  | sync | crash => exact List.Sublist.refl _
  | start now hasher => exact List.nil_sublist _
  | step taken =>
    cases taken with
    | cleanUp now => exact List.Sublist.refl _
    | write now command failure =>
      cases failure with
      | none => exact List.Sublist.refl _
      | some failed => exact List.nil_sublist _

theorem steps_readings : ∀ events : List Event,
    ((events.flatMap steps).map Step.now).Sublist (events.filterMap reading)
  | [] => List.Sublist.refl _
  | event :: events => by
    have hsplit : (event :: events).filterMap reading =
        event.reading.toList ++ events.filterMap reading := by
      rw [List.filterMap_cons]
      cases event.reading <;> rfl
    rw [List.flatMap_cons, List.map_append, hsplit]
    exact event.steps_reading.append (steps_readings events)

end Event

/-- The same steps on both maps. -/
theorem carries_bindings : ∀ {steps : List Step} {last T : UInt64} {x y : Bindings},
    (last :: steps.map Step.now).Pairwise (· ≤ ·) → (∀ t ∈ last :: steps.map Step.now, t ≤ T) →
    Carries StoredValue.expiresAt last x y →
    Carries StoredValue.expiresAt T (bindings steps x) (bindings steps y)
  | [], last, T, x, y, _, hT, h => h.later (hT last List.mem_cons_self)
  | step :: steps, last, T, x, y, hclock, hT, h => by
    obtain ⟨hlast, hclock⟩ := List.pairwise_cons.mp hclock
    refine @carries_bindings steps step.now T _ _ hclock
      (fun t ht => hT t (List.mem_cons_of_mem _ ht)) ?_
    have hnow := h.later (hlast step.now List.mem_cons_self)
    cases step with
    | cleanUp now => exact (hnow.purge_left now).purge_right (le_refl now)
    | write now command failure =>
      cases failure with
      | some failed => exact hnow
      | none =>
        refine carries_onMap hnow (le_refl now) (fun _ _ _ _ value hvalue => ?_)
        exact (visible_eq_some.mp hvalue).2

/-- Crashes and restarts resurrect nothing. Whatever a server shows at `T`, a server that
    was never stopped and has taken just the steps in the log binds alike. -/
theorem run_resurrects_nothing {events : List Event} {T : UInt64}
    (haccepted : ∀ event ∈ events, event.Accepted)
    (hclock : (events.filterMap Event.reading ++ [T]).Pairwise (· ≤ ·)) (hasher : Bytes → UInt64) :
    Completes (run events initial) (fun machine => ∃ journal torn,
      Sound events journal torn machine ∧ ∀ keyStore, machine.keyStore = some keyStore →
        Completes (ServerRun.run journal.entries (ServerRun.initial hasher)) (fun state =>
          ∀ key value, keyStore.get key = .ok (some value) → value.LiveAt T →
            state.keyStore.get key = .ok (some value))) := by
  apply Yields.mono (run_sound initial_sound haccepted)
  intro machine hpost
  obtain ⟨journal, torn, _, h⟩ := hpost
  rw [List.nil_append] at h
  refine ⟨journal, torn, h, fun keyStore hk => ?_⟩
  obtain ⟨_, ⟨before, now, hasher', after, _, found, _, hevents, _, _, _, hfound, _⟩, hentries,
    hrestored⟩ := h.running keyStore hk
  apply Yields.mono (ServerRun.run_spec (fun s hs => (h.encoded.all_valid s hs).1)
    (KeyStore.withHasher_holds hasher))
  intro state hpost
  obtain ⟨_, hlive⟩ := hpost
  intro key value hget hl
  rw [KeyStore.get_spec hrestored] at hget
  rw [KeyStore.get_spec hlive, hentries, bindings, List.foldl_append]
  -- the readings before the start, the start's, and those since then
  rw [hevents, List.filterMap_append, List.append_assoc, List.filterMap_cons_some
    (show Event.reading (.start now hasher') = some now from rfl), List.cons_append] at hclock
  obtain ⟨_, hsince, hbefore⟩ := List.pairwise_append.mp hclock
  have hreadings := (Event.steps_readings after).append_right [T]
  have hfoundBefore : ∀ step ∈ found, step.now ≤ now := by
    intro step hstep
    have hmem := (Event.steps_readings before).subset
      (List.mem_map_of_mem (hfound.subset hstep))
    exact hbefore _ hmem now List.mem_cons_self
  have hclock' : (now :: (after.flatMap Event.steps).map Step.now ++ [T]).Pairwise (· ≤ ·) :=
    hsince.sublist (hreadings.cons_cons now)
  obtain ⟨hsorted, _, hT⟩ := List.pairwise_append.mp hclock'
  have hcarries := carries_bindings hsorted (fun t ht => hT t ht T (List.mem_singleton_self T))
    (ServerRun.carries_to_live (r := fun _ => none) (m := fun _ => none)
      (fun s hs => (h.encoded.all_valid s (by rw [hentries]; exact List.mem_append_left _ hs)).2)
      hfoundBefore (Carries.refl now _))
  exact congrArg Except.ok (hcarries key value (visible_eq_some.mpr ⟨Except.ok.inj hget, hl⟩))

/-- A key that is deleted between two restarts. -/
theorem run_resurrects_nothing_twice :
    Completes (run [.start 1 (fun _ => 0), .step (.write 2 (.set [97] [98]) none), .sync, .crash 0,
        .start 3 (fun _ => 1), .step (.write 4 (.del [[97]]) none), .crash 100,
        .start 5 (fun _ => 2)] initial) (fun machine => ∃ journal torn,
      Sound [.start 1 (fun _ => 0), .step (.write 2 (.set [97] [98]) none), .sync, .crash 0,
        .start 3 (fun _ => 1), .step (.write 4 (.del [[97]]) none), .crash 100,
        .start 5 (fun _ => 2)] journal torn machine ∧
      ∀ keyStore, machine.keyStore = some keyStore →
        Completes (ServerRun.run journal.entries (ServerRun.initial (fun _ => 3))) (fun state =>
          ∀ key value, keyStore.get key = .ok (some value) → value.LiveAt 6 →
            state.keyStore.get key = .ok (some value))) := by
  have hset : (Command.set [97] [98]).AcceptedWrite :=
    acceptedWrite_of_wellSized (by decide) (by decide)
  have hdel : (Command.del [[97]]).AcceptedWrite :=
    acceptedWrite_of_wellSized (by decide) (by decide)
  refine run_resurrects_nothing ?_ (by decide) _
  simp [Event.Accepted, Step.Accepted, Step.Untorn, hset, hdel]

end Machine
end SimpleKv
