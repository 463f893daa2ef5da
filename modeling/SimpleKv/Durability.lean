import SimpleKv.Restart

/- What a restart keeps. A binding that is live at `T` survives a restart at `T`, unless
   its deadline was extended over `T` from one that `T` had passed by: the replay
   ejects the key where the run extended it (`EXPIREAT` looks at the clock, and the
   log does not say what it showed). And a run survives failed appends as long as
   none of them leaves a part of its record in the file. -/
namespace SimpleKv
open Incremental Outcome Expiring Request Command

namespace Step

/-- The step extends no deadline up to `T` beyond `T`. -/
def Lasting (T : UInt64) (state : ServerState) : Step → Prop
  | .write now (.expireAt key timestamp) none => ∀ value deadline,
      state.keyStore.get key = .ok (some value) → value.expiresAt = some deadline →
      now < deadline → deadline ≤ T → timestamp ≤ T
  | _ => True

/-- The key whose deadline is extended. -/
theorem exists_of_not_lasting {T : UInt64} {state : ServerState} {step : Step}
    (h : ¬step.Lasting T state) : ∃ now key timestamp value deadline,
      step = .write now (.expireAt key timestamp) none ∧
      state.keyStore.get key = .ok (some value) ∧ value.expiresAt = some deadline ∧
      now < deadline ∧ deadline ≤ T ∧ T < timestamp := by
  cases step with
  | cleanUp now => exact absurd trivial h
  | write now command failure =>
    cases command with
    | get | set | mget | mset | del | getAll | ttl => exact absurd trivial h
    | expireAt key timestamp =>
      cases failure with
      | some failed => exact absurd trivial h
      | none =>
        unfold Lasting at h
        push Not at h
        obtain ⟨value, deadline, hget, hd, hnow, hT, hlt⟩ := h
        exact ⟨now, key, timestamp, value, deadline, rfl, hget, hd, hnow, hT,
          UInt64.not_le.mp hlt⟩

/-- What a failed append left in the file wants more. -/
theorem exists_of_not_untorn {step : Step} (haccepted : step.Accepted) (h : ¬step.Untorn) :
    ∃ u, u ≠ [] ∧ frame.run u = .more ∧ ∀ contents, step.onLog contents = contents ++ u := by
  cases step with
  | cleanUp now => exact absurd trivial h
  | write now command failure =>
    cases failure with
    | none => exact absurd trivial h
    | some failed =>
      obtain ⟨written, err⟩ := failed
      have hwritten : written.val ≠ 0 := h
      have hlt := written.isLt
      have hencodes := (AcceptedWrite.wellSized haccepted).encodes
      rw [← List.take_append_drop written.val command.toBytes] at hencodes
      refine ⟨command.toBytes.take written, fun hnil => ?_, hencodes.run_prefix (fun hnil => ?_),
        fun _ => rfl⟩
      · have := congrArg List.length hnil
        rw [List.length_take, List.length_nil] at this
        omega
      · have := List.drop_eq_nil_iff.mp hnil
        omega

end Step

namespace ServerRun
open ServerState (allOnMap)

/-- Every step of the run from `state` is lasting in the state it is taken in. -/
def Lasting (T : UInt64) : List Step → ServerState → Prop
  | [], _ => True
  | step :: steps, state =>
    step.Lasting T state ∧ ∀ state', step.run state = .ok state' → Lasting T steps state'

/-- A lasting step keeps what the restored map carries. -/
theorem carries_step {T : UInt64} {step : Step} {state : ServerState} {m r : Bindings}
    (hlogged : step.Logged) (h : state.keyStore.Holds m) (hlasting : step.Lasting T state)
    (hcarries : Carries StoredValue.expiresAt T m r) :
    Carries StoredValue.expiresAt T (step.onMap m) (allOnMap T (logged [step]) r) := by
  cases step with
  | cleanUp now => exact hcarries.purge_left now
  | write now command failure =>
    cases (show failure = none from hlogged)
    apply carries_onMap hcarries (le_refl T)
    intro key timestamp heq hT value hvalue d hd
    subst heq
    obtain ⟨hm, hlive⟩ := visible_eq_some.mp hvalue
    by_contra hle
    have hget := KeyStore.get_spec h key
    rw [hm] at hget
    have := hlasting value d hget hd (hlive d hd) (UInt64.not_lt.mp hle)
    exact absurd hT (UInt64.not_lt.mpr this)

theorem carries_to_restored {T : UInt64} : ∀ {steps : List Step} {state : ServerState}
    {m r : Bindings}, (∀ step ∈ steps, step.Accepted) → (∀ step ∈ steps, step.Logged) →
    state.keyStore.Holds m → Lasting T steps state → Carries StoredValue.expiresAt T m r →
    Completes (run steps state) (fun _ =>
      Carries StoredValue.expiresAt T (bindings steps m) (allOnMap T (logged steps) r)) := by
  intro steps
  induction steps with
  | nil =>
    intro state m r haccepted hlogged h hlasting hcarries
    exact hcarries
  | cons step steps ih =>
    intro state m r haccepted hlogged h hlasting hcarries
    have hstep := carries_step (hlogged step List.mem_cons_self) h hlasting.1 hcarries
    unfold run
    rw [List.foldlM_cons]
    have hrun := Step.run_spec (haccepted step List.mem_cons_self) h
    cases hs : step.run state with
    | error f => exact hrun.of_error hs
    | ok state' =>
      refine Yields.mono (ih (fun s hm => haccepted s (List.mem_cons_of_mem _ hm))
        (fun s hm => hlogged s (List.mem_cons_of_mem _ hm)) (hrun.of_ok hs).2 (hlasting.2 state' hs)
        hstep) (fun _ hrest => ?_)
      have hsplit : logged (step :: steps) = logged [step] ++ logged steps :=
        logged_append [step] steps
      rw [hsplit, allOnMap, List.foldl_append]
      exact hrest

/-- After an extension over `T` the live store has a binding the restored store has
    not. -/
theorem lost_of_not_lasting {T : UInt64} {steps : List Step} {step : Step} {state : ServerState}
    (hlogged : ∀ step ∈ steps, step.Logged) (hT : ∀ step ∈ steps, step.now ≤ T)
    (h : state.keyStore.Holds (bindings steps (fun _ => none))) (hstep : ¬step.Lasting T state) :
    ∃ key value, step.onMap (bindings steps (fun _ => none)) key = some value ∧ value.LiveAt T ∧
      allOnMap T (logged (steps ++ [step])) (fun _ => none) key = none := by
  obtain ⟨now, key, timestamp, value, d, rfl, hget, hd, hnow, hdT, hlt⟩ :=
    Step.exists_of_not_lasting hstep
  rw [KeyStore.get_spec h] at hget
  have hm := Except.ok.inj hget
  refine ⟨key, { value with expiresAt := some timestamp }, ?_, ?_, ?_⟩
  · have hlive : value.LiveAt now := by
      intro d' hd'
      rw [hd] at hd'
      cases hd'
      exact hnow
    show touch _ _ _ _ _ key = _
    unfold touch
    rw [Function.update_self]
    exact congrArg (Option.map _) (visibleAt_live hm hlive)
  · intro d' hd'
    cases hd'
    exact hlt
  · -- what the restored map showed would be live, and the live map holds `value`
    have hnone : visibleAt T (allOnMap T (logged steps) (fun _ => none)) key = none := by
      cases hv : visibleAt T (allOnMap T (logged steps) (fun _ => none)) key with
      | none => rfl
      | some b =>
        have hb := carries_to_live (r := fun _ => none) (m := fun _ => none) hlogged hT
          (Carries.refl T _) key b hv
        rw [hm] at hb
        cases hb
        exact absurd ((visible_eq_some.mp hv).2 d hd) (UInt64.not_lt.mpr hdT)
    rw [logged_append, allOnMap, List.foldl_append]
    show touch _ _ _ _ _ key = _
    unfold touch
    rw [Function.update_self]
    exact congrArg (Option.map _) hnone

/-- A run that goes on to a further step was in some state before it. -/
theorem run_append_singleton {steps : List Step} {step : Step} {state : ServerState}
    {m : Bindings} (haccepted : ∀ s ∈ steps ++ [step], s.Accepted) (h : state.keyStore.Holds m) :
    Completes (run (steps ++ [step]) state) (fun _ =>
      ∃ state', run steps state = .ok state' ∧ state'.keyStore.Holds (bindings steps m)) := by
  have hspec := run_spec (fun s hs => haccepted s (List.mem_append_left [step] hs)) h
  unfold run
  rw [List.foldlM_append]
  cases hrun : run steps state with
  | error f =>
    unfold run at hrun
    rw [hrun]
    exact hspec.of_error hrun
  | ok state' =>
    have h' := (hspec.of_ok hrun).2
    unfold run at hrun
    rw [hrun]
    exact Yields.mono (run_spec (fun s hs => haccepted s (List.mem_append_right steps hs)) h')
      (fun _ _ => ⟨state', rfl, h'⟩)

/-- A restart at `T` keeps what is live at `T` in every state of a run that extends no
    deadline over `T`, and the first extension over `T` loses its key. -/
theorem restart_keeps {T : UInt64} (hasher hasher' : Bytes → UInt64) :
    (∀ steps : List Step, (∀ step ∈ steps, step.Accepted) → (∀ step ∈ steps, step.Logged) →
      Lasting T steps (initial hasher) →
      Completes (restart steps hasher hasher' T) (fun (state, result) =>
        ∃ store, result = .ok store ∧ ∀ key value, state.keyStore.get key = .ok (some value) →
          value.LiveAt T → store.get key = .ok (some value))) ∧
    (∀ (steps : List Step) (step : Step), (∀ s ∈ steps ++ [step], s.Accepted) →
      (∀ s ∈ steps ++ [step], s.Logged) → (∀ s ∈ steps ++ [step], s.now ≤ T) →
      (∀ state, run steps (initial hasher) = .ok state → ¬step.Lasting T state) →
      Completes (restart (steps ++ [step]) hasher hasher' T) (fun (state, result) =>
        ∃ store, result = .ok store ∧ ∃ key value, state.keyStore.get key = .ok (some value) ∧
          value.LiveAt T ∧ store.get key = .ok none)) := by
  have hempty := KeyStore.withHasher_holds (V := StoredValue) hasher
  constructor
  · intro steps haccepted hlogged hlasting
    refine Yields.mono (restart_spec haccepted (fun s hs => untorn_of_logged (hlogged s hs))
      (carries_to_restored haccepted hlogged hempty hlasting (Carries.refl T _)) hasher' T) ?_
    intro (state, result) hpost
    obtain ⟨hcarries, hlive, store, rfl, _, hrestored⟩ := hpost
    refine ⟨store, rfl, fun key value hget hl => ?_⟩
    rw [KeyStore.get_spec hlive] at hget
    rw [KeyStore.get_spec hrestored,
      hcarries key value (visible_eq_some.mpr ⟨Except.ok.inj hget, hl⟩)]
  · intro steps step haccepted hlogged hT hbad
    refine Yields.mono (restart_spec haccepted (fun s hs => untorn_of_logged (hlogged s hs))
      (run_append_singleton haccepted hempty) hasher' T) ?_
    intro (state, result) hpost
    obtain ⟨⟨before, hrun, hbefore⟩, hlive, store, rfl, _, hrestored⟩ := hpost
    obtain ⟨key, value, hvalue, hl, hlost⟩ :=
      lost_of_not_lasting (fun s hs => hlogged s (List.mem_append_left _ hs))
        (fun s hs => hT s (List.mem_append_left _ hs)) hbefore (hbad before hrun)
    refine ⟨store, rfl, key, value, ?_, hl, ?_⟩
    · rw [KeyStore.get_spec hlive, bindings, List.foldl_append]
      exact congrArg Except.ok hvalue
    · rw [KeyStore.get_spec hrestored, hlost]

/-- A deadline of 5 is extended to 9 at 3, and the server restarts at 6. -/
theorem restart_loses_extended_key : ∃ state store,
    restart [.write 1 (.set [97] [98]) none, .write 2 (.expireAt [97] 5) none,
      .write 3 (.expireAt [97] 9) none] (fun _ => 0) (fun _ => 0) 6 = .ok (state, .ok store) ∧
    state.keyStore.get [97] = .ok (some ⟨[98], some 9⟩) ∧
    StoredValue.LiveAt 6 ⟨[98], some 9⟩ ∧ store.get [97] = .ok none :=
  ⟨_, _, rfl, rfl, by decide, rfl⟩

/-- A deadline set once, and the one that is extended. -/
theorem restart_keeps_expireAt :
    Completes (restart [.write 1 (.set [97] [98]) none, .write 2 (.expireAt [97] 9) none]
        (fun _ => 0) (fun _ => 1) 6) (fun (state, result) =>
      ∃ store, result = .ok store ∧ ∀ key value, state.keyStore.get key = .ok (some value) →
        value.LiveAt 6 → store.get key = .ok (some value)) ∧
    Completes (restart ([.write 1 (.set [97] [98]) none, .write 2 (.expireAt [97] 5) none] ++
        [.write 3 (.expireAt [97] 9) none]) (fun _ => 0) (fun _ => 1) 6) (fun (state, result) =>
      ∃ store, result = .ok store ∧ ∃ key value, state.keyStore.get key = .ok (some value) ∧
        value.LiveAt 6 ∧ store.get key = .ok none) := by
  have hset : (Command.set [97] [98]).AcceptedWrite :=
    acceptedWrite_of_wellSized (by decide) (by decide)
  have hexpireAt5 : (Command.expireAt [97] 5).AcceptedWrite :=
    acceptedWrite_of_wellSized (by decide) (by decide)
  have hexpireAt9 : (Command.expireAt [97] 9).AcceptedWrite :=
    acceptedWrite_of_wellSized (by decide) (by decide)
  refine ⟨(restart_keeps (T := 6) (fun _ => 0) (fun _ => 1)).1 _ ?_ ?_ ?_,
    (restart_keeps (T := 6) (fun _ => 0) (fun _ => 1)).2 _ _ ?_ ?_ ?_ ?_⟩
  · simp [Step.Accepted, hset, hexpireAt9]
  · simp [Step.Logged]
  · refine ⟨trivial, fun state hstate => ⟨?_, fun _ _ => trivial⟩⟩
    cases hstate
    intro value deadline hget hd
    cases hget
    cases hd
  · simp [Step.Accepted, hset, hexpireAt5, hexpireAt9]
  · simp [Step.Logged]
  · decide
  · intro state hstate hlasting
    cases hstate
    exact absurd (hlasting ⟨[98], some 5⟩ 5 rfl rfl (by decide) (by decide)) (by decide)

/-! Failed appends. -/

/-- A failed append changes no binding. If it wrote nothing the log is as good as
    before it; and any part of a record it left makes the log unusable. -/
theorem restart_after_failure (hasher hasher' : Bytes → UInt64) (T : UInt64) :
    (∀ (state : ServerState) (now : UInt64) (command : Command)
      (written : Fin command.toBytes.length) (err : IoError),
      runAt now (state.write command (some (written, err))) =
        .ok (.error err.text,
          ⟨⟨state.wal.contents ++ command.toBytes.take written⟩, state.keyStore⟩)) ∧
    (∀ steps : List Step, (∀ step ∈ steps, step.Accepted) → (∀ step ∈ steps, step.Untorn) →
      Completes (restart steps hasher hasher' T) (fun (_, result) =>
        ∃ store, result = .ok store ∧
          runAt T (ServerState.applyAll (logged steps) (.withHasher hasher')) = .ok store)) ∧
    (∀ (steps : List Step) (step : Step), (∀ s ∈ steps ++ [step], s.Accepted) →
      (∀ s ∈ steps, s.Untorn) → ¬step.Untorn →
      Completes (restart (steps ++ [step]) hasher hasher' T) (fun (_, result) =>
        result = .error (.request .unexpectedEof))) := by
  have hempty := KeyStore.withHasher_holds (V := StoredValue) hasher
  refine ⟨fun _ _ _ _ _ => rfl, ?_, ?_⟩
  · intro steps haccepted huntorn
    apply Yields.mono (restart_spec haccepted huntorn (run_spec haccepted hempty) hasher' T)
    intro (_, result) hpost
    obtain ⟨_, _, store, hresult, happly, _⟩ := hpost
    exact ⟨store, hresult, happly⟩
  · intro steps step haccepted huntorn htorn
    obtain ⟨u, hu, hmore, honLog⟩ := Step.exists_of_not_untorn (haccepted step (by simp)) htorn
    unfold restart
    apply Yields.bind (run_spec haccepted hempty)
    intro state hstate
    obtain ⟨⟨contents⟩, keyStore⟩ := state
    obtain ⟨hlog, _⟩ := hstate
    have hcontents := calc contents = log (steps ++ [step]) [] := hlog
      _ = step.onLog (log steps []) := List.foldl_append
      _ = log steps [] ++ u := honLog _
      _ = records (logged steps) ++ u := congrArg (· ++ u) (log_eq_records huntorn [])
    subst hcontents
    exact Yields.bind (ServerState.restoreKeystore_torn (acceptedWrite_of_mem_logged
      (fun s hs => haccepted s (List.mem_append_left _ hs))) hu hmore T hasher').completes
      (fun _ hr => hr)

/-- A disk that is full: the second `SET` writes nothing, or three bytes. -/
theorem restart_after_failure_full :
    Completes (restart [.write 1 (.set [97] [98]) none,
        .write 2 (.set [97] [99]) (some (⟨0, by decide⟩, ⟨"no space"⟩)),
        .write 3 (.del [[99]]) none] (fun _ => 0) (fun _ => 1) 6) (fun (_, result) =>
      ∃ store, result = .ok store ∧ runAt 6 (ServerState.applyAll
        [.set [97] [98], .del [[99]]] (.withHasher (fun _ => 1))) = .ok store) ∧
    Completes (restart ([.write 1 (.set [97] [98]) none] ++
        [.write 2 (.set [97] [99]) (some (⟨3, by decide⟩, ⟨"no space"⟩))])
        (fun _ => 0) (fun _ => 1) 6) (fun (_, result) =>
      result = .error (.request .unexpectedEof)) := by
  have hset98 : (Command.set [97] [98]).AcceptedWrite :=
    acceptedWrite_of_wellSized (by decide) (by decide)
  have hset99 : (Command.set [97] [99]).AcceptedWrite :=
    acceptedWrite_of_wellSized (by decide) (by decide)
  have hdel : (Command.del [[99]]).AcceptedWrite :=
    acceptedWrite_of_wellSized (by decide) (by decide)
  refine ⟨(restart_after_failure (fun _ => 0) (fun _ => 1) 6).2.1 _ ?_ ?_,
    (restart_after_failure (fun _ => 0) (fun _ => 1) 6).2.2 _ _ ?_ ?_ ?_⟩
  · simp [Step.Accepted, hset98, hset99, hdel]
  · simp [Step.Untorn]
  · simp [Step.Accepted, hset98, hset99]
  · simp [Step.Untorn]
  · simp [Step.Untorn]

/-- One `SET` whose append fails after three bytes: the file is refused. -/
theorem restart_refuses_torn_record : ∃ state,
    restart [.write 1 (.set [97] [98]) (some (⟨3, by decide⟩, ⟨"no space"⟩))]
      (fun _ => 0) (fun _ => 0) 6 = .ok (state, .error (.request .unexpectedEof)) :=
  ⟨_, rfl⟩

end ServerRun
end SimpleKv
