import SimpleKv.Restore

/- Restarts. A run of the server is a sequence of writes, whose appends may fail, and of
   clean-ups; a restart at `T` replays the log it left, every command at the one
   reading `T`. The log records neither the readings of the run nor its clean-ups,
   so what connects the two stores is `Carries`. Restored to live it always holds:
   nothing is resurrected. Live to restored it is broken by one kind of step: a
   deadline that passes before `T` is extended beyond `T` while it is still to come,
   and the replay finds it already past. -/
namespace SimpleKv
open Incremental Outcome Expiring Request Command

/-- A step of the server, with the reading of the clock. -/
inductive Step where
  | write (now : UInt64) (command : Command) (failure : AppendFailure command.toBytes)
  | cleanUp (now : UInt64)

namespace Step

def now : Step → UInt64
  | .write now _ _ => now
  | .cleanUp now => now

/-- Only write commands a client sent are written. -/
def Accepted : Step → Prop
  | .write _ command _ => command.AcceptedWrite
  | .cleanUp _ => True

/-- The append, if any, succeeds. -/
def Logged : Step → Prop
  | .write _ _ failure => failure = none
  | .cleanUp _ => True

/-- The append, if it fails, has written nothing. -/
def Untorn : Step → Prop
  | .write _ _ none => True
  | .write _ _ (some (written, _)) => written.val = 0
  | .cleanUp _ => True

def run : Step → ServerState → Rust ServerState
  | .write now command failure, state => do
    let (_, state) ← runAt now (state.write command failure)
    return state
  | .cleanUp now, state => do
    let (_, state) ← runAt now state.removeExpired
    return state

def onLog : Step → Bytes → Bytes
  | .write _ command none, log => log ++ command.toBytes
  | .write _ command (some (written, _)), log => log ++ command.toBytes.take written
  | .cleanUp _, log => log

def onMap : Step → Bindings → Bindings
  | .write now command none, m => command.onMap now m
  | .write _ _ (some _), m => m
  | .cleanUp now, m => visibleAt now m

theorem run_spec {step : Step} (haccepted : step.Accepted) {state : ServerState} {m : Bindings}
    (h : state.keyStore.Holds m) : Completes (step.run state) (fun state' =>
      state'.wal.contents = step.onLog state.wal.contents ∧ state'.keyStore.Holds (step.onMap m)) := by
  cases step with
  | write now command failure =>
    cases failure with
    | none =>
      apply Yields.bind (runAt_completes (ServerState.write_ok_spec h now haccepted.1))
      intro (_, state') hpost
      obtain ⟨_, hlog, h'⟩ := hpost
      exact ⟨hlog, h'⟩
    | some failed => exact ⟨rfl, h⟩
  | cleanUp now =>
    apply Yields.bind (runAt_completes (ServerState.removeExpired_spec h now))
    intro (_, state') hpost
    obtain ⟨hwal, h', _⟩ := hpost
    exact ⟨by rw [hwal]; rfl, h'⟩

end Step

/-! Runs. -/

namespace ServerRun

def run (steps : List Step) (state : ServerState) : Rust ServerState :=
  steps.foldlM (fun state step => step.run state) state

def log (steps : List Step) (contents : Bytes) : Bytes :=
  steps.foldl (fun contents step => step.onLog contents) contents

def bindings (steps : List Step) (m : Bindings) : Bindings :=
  steps.foldl (fun m step => step.onMap m) m

/-- The commands whose append succeeded. -/
def logged : List Step → List Command
  | [] => []
  | .write _ command none :: steps => command :: logged steps
  | .write _ _ (some _) :: steps => logged steps
  | .cleanUp _ :: steps => logged steps

/-- A server on an empty log. -/
def initial (hasher : Bytes → UInt64) : ServerState := ⟨{}, .withHasher hasher⟩

/-- The server after a run, and what a restart at `T` restores from its log. -/
def restart (steps : List Step) (hasher hasher' : Bytes → UInt64) (T : UInt64) :
    Rust (ServerState × Except KeyStoreRestoreError Store) := do
  let state ← run steps (initial hasher)
  let result ← runAt T (ServerState.restoreKeystore state.wal hasher')
  return (state, result)

theorem run_spec : ∀ {steps : List Step} {state : ServerState} {m : Bindings},
    (∀ step ∈ steps, step.Accepted) → state.keyStore.Holds m →
    Completes (run steps state) (fun state' =>
      state'.wal.contents = log steps state.wal.contents ∧
        state'.keyStore.Holds (bindings steps m)) := by
  intro steps
  induction steps with
  | nil =>
    intro state m haccepted h
    exact ⟨rfl, h⟩
  | cons step steps ih =>
    intro state m haccepted h
    unfold run
    rw [List.foldlM_cons]
    apply Yields.bind (Step.run_spec (haccepted step List.mem_cons_self) h)
    intro state' hpost
    obtain ⟨hlog, h'⟩ := hpost
    apply Yields.mono (ih (fun s hs => haccepted s (List.mem_cons_of_mem _ hs)) h')
    intro state'' hpost
    obtain ⟨hlog', h''⟩ := hpost
    exact ⟨by rw [hlog', hlog]; rfl, h''⟩

theorem logged_append : ∀ (steps steps' : List Step),
    logged (steps ++ steps') = logged steps ++ logged steps'
  | [], _ => rfl
  | .write _ _ none :: steps, steps' => by
    rw [List.cons_append, logged, logged, logged_append steps, List.cons_append]
  | .write _ _ (some _) :: steps, steps' => by
    rw [List.cons_append, logged, logged, logged_append steps]
  | .cleanUp _ :: steps, steps' => by
    rw [List.cons_append, logged, logged, logged_append steps]

theorem acceptedWrite_of_mem_logged : ∀ {steps : List Step},
    (∀ step ∈ steps, step.Accepted) → ∀ c ∈ logged steps, c.AcceptedWrite
  | .write _ _ none :: _, h, c, hc => by
    rcases List.mem_cons.mp hc with rfl | hc
    · exact h _ List.mem_cons_self
    · exact acceptedWrite_of_mem_logged (fun s hs => h s (List.mem_cons_of_mem _ hs)) c hc
  | .write _ _ (some _) :: _, h, c, hc => by
    rw [logged] at hc
    exact acceptedWrite_of_mem_logged (fun s hs => h s (List.mem_cons_of_mem _ hs)) c hc
  | .cleanUp _ :: _, h, c, hc => by
    rw [logged] at hc
    exact acceptedWrite_of_mem_logged (fun s hs => h s (List.mem_cons_of_mem _ hs)) c hc

/-- Where no append left a part of a record, the log is the records of the commands
    that were logged. -/
theorem log_eq_records : ∀ {steps : List Step}, (∀ step ∈ steps, step.Untorn) → ∀ contents,
    log steps contents = contents ++ records (logged steps)
  | [], _, contents => (List.append_nil contents).symm
  | step :: steps, h, contents => by
    have ih := log_eq_records (fun s hs => h s (List.mem_cons_of_mem _ hs)) (step.onLog contents)
    have huntorn := h step List.mem_cons_self
    apply Eq.trans ih
    cases step with
    | cleanUp now => rfl
    | write now command failure =>
      cases failure with
      | none =>
        show (contents ++ command.toBytes) ++ _ = _
        rw [List.append_assoc]
        rfl
      | some failed =>
        show (contents ++ command.toBytes.take failed.1) ++ _ = _
        rw [show failed.1.val = 0 from huntorn, List.take_zero, List.append_nil]
        rfl

theorem untorn_of_logged {step : Step} (h : step.Logged) : step.Untorn := by
  cases step with
  | cleanUp now => exact trivial
  | write now command failure =>
    cases (show failure = none from h)
    exact trivial

/-- A restart after a run that left whole records restores their commands. What is
    known of the run's end still holds. -/
theorem restart_spec {steps : List Step} (haccepted : ∀ step ∈ steps, step.Accepted)
    (huntorn : ∀ step ∈ steps, step.Untorn) {hasher : Bytes → UInt64} {P : ServerState → Prop}
    (hrun : Completes (run steps (initial hasher)) P) (hasher' : Bytes → UInt64) (T : UInt64) :
    Completes (restart steps hasher hasher' T) (fun (state, result) =>
      P state ∧ state.keyStore.Holds (bindings steps (fun _ => none)) ∧
      ∃ store, result = .ok store ∧
        runAt T (ServerState.applyAll (logged steps) (.withHasher hasher')) = .ok store ∧
        store.Holds (ServerState.allOnMap T (logged steps) (fun _ => none))) := by
  unfold restart
  apply Yields.bind (hrun.and (run_spec haccepted (KeyStore.withHasher_holds hasher)))
  intro state hstate
  obtain ⟨⟨contents⟩, keyStore⟩ := state
  obtain ⟨hP, hlog, h⟩ := hstate
  have hcontents := calc contents = log steps [] := hlog
    _ = records (logged steps) := log_eq_records huntorn []
  subst hcontents
  refine Yields.bind (ServerState.restoreKeystore_whole
    (acceptedWrite_of_mem_logged haccepted) T hasher').completes (fun result hr => ?_)
  exact ⟨hP, h, hr⟩

end ServerRun

/-! Restored to live. -/

namespace Command

/-- The same command on both maps, at `tx` and at `ty`. Only `EXPIREAT` asks for more:
    what it makes live at `T` was live at `T`. -/
theorem carries_onMap {T tx ty : UInt64} {x y : Bindings}
    (h : Carries StoredValue.expiresAt T x y) (hty : ty ≤ T) {command : Command}
    (hlife : ∀ key timestamp, command = .expireAt key timestamp → T < timestamp →
      ∀ value, visibleAt tx x key = some value → value.LiveAt T) :
    Carries StoredValue.expiresAt T (command.onMap tx x) (command.onMap ty y) := by
  cases command with
  | set key value => exact h.update key _
  | del keys => exact h.drop keys
  | mset entries =>
    unfold onMap
    induction entries generalizing x y with
    | nil => exact h
    | cons entry entries ih =>
      exact ih (h.update entry.1 _) (fun _ _ he => by cases he)
  | expireAt key timestamp =>
    refine h.touch hty (fun value hvalue hlive => ?_)
    exact hlife key timestamp rfl (hlive timestamp rfl) value hvalue
  | get | mget | getAll | ttl => exact h

end Command

namespace ServerRun
open ServerState (allOnMap)

theorem carries_to_live {T : UInt64} : ∀ {steps : List Step} {r m : Bindings},
    (∀ step ∈ steps, step.Logged) → (∀ step ∈ steps, step.now ≤ T) →
    Carries StoredValue.expiresAt T r m →
    Carries StoredValue.expiresAt T (allOnMap T (logged steps) r) (bindings steps m)
  | [], _, _, _, _, h => h
  | .cleanUp now :: steps, r, m, hlogged, hT, h =>
    @carries_to_live T steps _ _ (fun s hs => hlogged s (List.mem_cons_of_mem _ hs))
      (fun s hs => hT s (List.mem_cons_of_mem _ hs)) (h.purge_right (hT _ List.mem_cons_self))
  | .write now command failure :: steps, r, m, hlogged, hT, h => by
    cases (show failure = none from hlogged _ List.mem_cons_self)
    refine @carries_to_live T steps _ _ (fun s hs => hlogged s (List.mem_cons_of_mem _ hs))
      (fun s hs => hT s (List.mem_cons_of_mem _ hs)) ?_
    refine carries_onMap h (hT (.write now command none) List.mem_cons_self)
      (fun _ _ _ _ value hvalue => ?_)
    -- the restored map is looked at when it is replayed, at `T`
    exact (visible_eq_some.mp hvalue).2

/-- A restart resurrects nothing: what the restored store shows at `T`, the live store
    binds alike. -/
theorem restart_resurrects_nothing {steps : List Step} {T : UInt64}
    (haccepted : ∀ step ∈ steps, step.Accepted) (hlogged : ∀ step ∈ steps, step.Logged)
    (hT : ∀ step ∈ steps, step.now ≤ T) (hasher hasher' : Bytes → UInt64) :
    Completes (restart steps hasher hasher' T) (fun (state, result) =>
      ∃ store, result = .ok store ∧ ∀ key value, store.get key = .ok (some value) →
        value.LiveAt T → state.keyStore.get key = .ok (some value)) := by
  refine Yields.mono (restart_spec haccepted (fun s hs => untorn_of_logged (hlogged s hs))
    (run_spec haccepted (KeyStore.withHasher_holds hasher)) hasher' T) ?_
  intro (state, result) hpost
  obtain ⟨_, hlive, store, rfl, _, hrestored⟩ := hpost
  refine ⟨store, rfl, fun key value hget hl => ?_⟩
  rw [KeyStore.get_spec hrestored] at hget
  rw [KeyStore.get_spec hlive]
  have hcarries := carries_to_live (r := fun _ => none) (m := fun _ => none) hlogged hT
    (Carries.refl T _)
  rw [hcarries key value (visible_eq_some.mpr ⟨Except.ok.inj hget, hl⟩)]

/-- A key that expires, is cleaned up and is set again. -/
theorem restart_resurrects_nothing_cleanUp :
    Completes (restart [.write 1 (.set [97] [98]) none, .write 2 (.expireAt [97] 4) none,
        .cleanUp 5, .write 6 (.set [97] [99]) none, .write 6 (.del [[97]]) none]
        (fun _ => 0) (fun _ => 1) 7) (fun (state, result) =>
      ∃ store, result = .ok store ∧ ∀ key value, store.get key = .ok (some value) →
        value.LiveAt 7 → state.keyStore.get key = .ok (some value)) :=
  restart_resurrects_nothing
    (by simp [Step.Accepted, acceptedWrite_of_wellSized (c := .set [97] [98]) (by decide) (by decide),
      acceptedWrite_of_wellSized (c := .expireAt [97] 4) (by decide) (by decide),
      acceptedWrite_of_wellSized (c := .set [97] [99]) (by decide) (by decide),
      acceptedWrite_of_wellSized (c := .del [[97]]) (by decide) (by decide)])
    (by simp [Step.Logged]) (by decide) _ _

end ServerRun
end SimpleKv
