import SimpleKv.Replies

/- The clean-up task on the states a server can be in. The keys are collected from one
   layout of the table and deleted from the layouts the deletions before left, and the
   count is that of the collected keys; both are about the bindings in the end, since
   every layout holds each key at most once and holds what the map holds. -/
namespace SimpleKv
open Outcome PartialMap Expiring RequestReader

namespace ServerState

/-- The states of a running server: one `from_wal` returned, and those commands clients
    sent and clean-ups lead to, whatever the clock shows and whether appends fail or not. -/
inductive Reachable : ServerState → Prop where
  | started {state : ServerState} : Started state → Reachable state
  | executed {state state' : ServerState} {request : Request} {command : Command}
      {failure : AppendFailure command.toBytes} {response : Response} {c c' clock clock' : Clock} :
      Reachable state → Accepted request →
      (Command.tryFrom request).run c = .ok (.ok command, c') →
      (state.execute command failure).run clock = .ok ((response, state'), clock') →
      Reachable state'
  | cleanedUp {state state' : ServerState} {count : Nat} {clock clock' : Clock} :
      Reachable state → state.removeExpired.run clock = .ok ((count, state'), clock') →
      Reachable state'

/-- A write whose append fails leaves the store alone. -/
theorem execute_sized {state : ServerState} (h : Sized state.keyStore) {command : Command}
    (hsized : command.WellSized) (failure : AppendFailure command.toBytes) :
    CompletesAlways (state.execute command failure) (fun (_, state') => Sized state'.keyStore) := by
  unfold execute
  apply YieldsAlways.ite
  · intro hwrite
    cases failure with
    | none =>
      exact YieldsAlways.bind (Command.applyWrite_safe h hsized hwrite)
        (fun _ hr => YieldsAlways.pure hr.2)
    | some failed => exact YieldsAlways.pure h
  · intro hread
    exact YieldsAlways.bind (Command.applyRead_safe h hsized (Bool.eq_false_iff.mpr hread))
      (fun _ _ => YieldsAlways.pure h)

theorem Reachable.sized {state : ServerState} (h : state.Reachable) : Sized state.keyStore := by
  induction h with
  | started hstate => exact hstate.sized
  | executed _ haccepted hcommand hrun ih =>
    have hsized := Command.wellSized_of_tryFrom haccepted hcommand
    exact (execute_sized ih hsized _).of_ok hrun
  | cleanedUp _ hrun ih => exact (removeExpired_safe ih).of_ok hrun

section Count
variable {keyStore keyStore' : Store} {m : Bindings} {now : UInt64}

theorem expiredKeys_length (h : keyStore.Holds m) : (expiredKeys now keyStore).length =
    {key | ∃ value, m key = some value ∧ ¬value.LiveAt now}.ncard := by
  classical
  have hdistinct : (expiredKeys now keyStore).Nodup :=
    h.lists.distinct.sublist (List.filter_sublist.map _)
  rw [← List.toFinset_card_of_nodup hdistinct, ← Set.ncard_coe_finset]
  congr 1
  ext key
  rw [Finset.mem_coe, List.mem_toFinset, mem_expiredKeys h]
  rfl

/-- Every binding is either collected or still there. -/
theorem len_add_expiredKeys (h : keyStore.Holds m) (h' : keyStore'.Holds (visibleAt now m)) :
    keyStore'.len + (expiredKeys now keyStore).length = keyStore.len := by
  have hvisible := (@Command.lists_filter now m _ h.lists).ncard
  rw [h'.lists.ncard] at hvisible
  calc keyStore'.len + (expiredKeys now keyStore).length
      = keyStore'.iter.length + (expiredKeys now keyStore).length := by rw [h'.len_eq]
    _ = (keyStore.iter.filter (fun pair => pair.2.LiveAt now)).length +
          (keyStore.iter.filter (fun pair => ¬pair.2.LiveAt now)).length := by
        rw [hvisible, expiredKeys, List.length_map]
    _ = keyStore.iter.length := by
        simp only [decide_not]
        exact (List.length_eq_length_filter_add _).symm
    _ = keyStore.len := h.len_eq.symm

end Count

theorem expiredKeys_visible {keyStore : Store} {m : Bindings} {now : UInt64}
    (h : keyStore.Holds (visibleAt now m)) : expiredKeys now keyStore = [] := by
  refine List.eq_nil_iff_forall_not_mem.mpr (fun key hkey => ?_)
  obtain ⟨value, hvalue, hl⟩ := (mem_expiredKeys h).mp hkey
  exact hl (visible_eq_some.mp hvalue).2

/-- The clean-up removes the bindings whose deadline has come, and nothing else. -/
theorem removeExpired_exact {state : ServerState} (h : state.Reachable) (now : UInt64) :
    ∃ count state', runAt now state.removeExpired = .ok (count, state') ∧
      (∀ key, ∃ found, state.keyStore.get key = .ok found ∧
        state'.keyStore.get key = .ok (found.filter (fun value => value.LiveAt now))) ∧
      count = {key | ∃ value, state.keyStore.get key = .ok (some value) ∧
        ¬value.LiveAt now}.ncard ∧
      state'.keyStore.len + count = state.keyStore.len ∧
      state'.wal = state.wal ∧
      runAt now state'.removeExpired = .ok (0, state') := by
  obtain ⟨m, hm, _⟩ := h.sized
  obtain ⟨⟨count, state'⟩, hrun, hwal, hm', hcount, _⟩ :=
    (runAt_completes (removeExpired_spec hm now)).exists_ok
  obtain ⟨⟨count', state''⟩, hrun', _, _, hcount', hsame⟩ :=
    (runAt_completes (removeExpired_spec hm' now)).exists_ok
  -- nothing that is visible is collected
  have hnone := expiredKeys_visible hm'
  rw [hnone] at hcount'
  rw [hsame hnone, hcount'] at hrun'
  refine ⟨count, state', hrun, fun key => ⟨m key, KeyStore.get_spec hm key, ?_⟩, ?_, ?_, hwal, hrun'⟩
  · exact KeyStore.get_spec hm' key
  · simp only [KeyStore.get_spec hm, Except.ok.injEq]
    rw [hcount, expiredKeys_length hm]
  · rw [hcount, len_add_expiredKeys hm hm']

/-- A store restored with one deadline in it, when it has come. -/
theorem removeExpired_exact_restored : ∃ state clock, (fromWal
      ⟨Command.records [.set [97] [98], .expireAt [97] 5, .set [99] [100]]⟩ (fun _ => 0)).run
      (Stream'.const 0) = .ok (state, clock) ∧
    ∃ count state', runAt 5 state.removeExpired = .ok (count, state') ∧
      (∀ key, ∃ found, state.keyStore.get key = .ok found ∧
        state'.keyStore.get key = .ok (found.filter (fun value => value.LiveAt 5))) ∧
      count = {key | ∃ value, state.keyStore.get key = .ok (some value) ∧ ¬value.LiveAt 5}.ncard ∧
      state'.keyStore.len + count = state.keyStore.len ∧
      state'.wal = state.wal ∧
      runAt 5 state'.removeExpired = .ok (0, state') := by
  obtain ⟨state, clock, hrun⟩ : ∃ state clock, (fromWal
      ⟨Command.records [.set [97] [98], .expireAt [97] 5, .set [99] [100]]⟩ (fun _ => 0)).run
      (Stream'.const 0) = .ok (state, clock) := ⟨_, _, rfl⟩
  exact ⟨state, clock, hrun, removeExpired_exact (.started ⟨_, _, _, _, hrun⟩) 5⟩

end ServerState
end SimpleKv
