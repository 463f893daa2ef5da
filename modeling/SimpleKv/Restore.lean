import SimpleKv.CommandCodec
import SimpleKv.CommandMemory
import SimpleKv.ServerMap

/- Replay of the log. What `restore_keystore` does is determined by the requests the
   file holds and how it ends (`restoreKeystore_eq`). On records of write commands that
   is: apply the commands. A file cut between two records restores the commands
   before the cut, and a file cut anywhere else is refused. -/
namespace SimpleKv
open Incremental Outcome Request Command

namespace ServerState

/-- The requests of a log, applied one after the other. -/
def replay : List Request → End RequestParseError → Store →
    Clocked (Except KeyStoreRestoreError Store)
  | [], .clean, keyStore => return .ok keyStore
  | [], .cut, _ => return .error (.request .unexpectedEof)
  | [], .failed e, _ => return .error (.request e)
  | request :: requests, d, keyStore => do
    match ← tryFrom request with
    | .error e => return .error (.command e)
    | .ok command =>
      let (_, keyStore) ← command.applyWrite keyStore
      replay requests d keyStore

theorem liftM_bind {α β : Type} {x : Rust α} {a : α} (h : x = .ok a) (f : α → Clocked β) :
    (liftM x >>= f) = f a := by
  rw [h]; rfl

theorem restoreLoop_eq : ∀ (fuel : ℕ) {reader : RequestReader} {requests : List Request}
    {d : End RequestParseError} (keyStore : Store), reader.Upcoming requests d →
    reader.remaining.length < fuel →
    restoreLoop fuel reader keyStore = replay requests d keyStore := by
  intro fuel
  induction fuel with
  | zero =>
    intro reader requests d keyStore h hfuel
    omega
  | succ fuel ih =>
    intro reader requests d keyStore h hfuel
    rw [restoreLoop]
    cases requests with
    | nil =>
      obtain ⟨reader', hrun⟩ := h.readNext_nil
      rw [liftM_bind hrun]
      cases d <;> rfl
    | cons request requests =>
      obtain ⟨reader', hrun, hrest, hlt⟩ := h.readNext_cons
      rw [liftM_bind hrun, replay]
      -- both go on with the parsed request, and then with what is left of the file
      show (tryFrom _ >>= _) = (tryFrom _ >>= _)
      congr 1
      funext parsed
      cases parsed with
      | error e => rfl
      | ok command =>
        show (command.applyWrite keyStore >>= _) = (command.applyWrite keyStore >>= _)
        congr 1
        funext r
        exact ih r.2 hrest (by omega)

/-- The log decides what is restored. -/
theorem restoreKeystore_eq {wal : AppendOnlyFile} {requests : List Request}
    {d : End RequestParseError} (hd : Drains frame wal.contents requests d)
    (hasher : Bytes → UInt64) :
    restoreKeystore wal hasher = replay requests d (.withHasher hasher) := by
  obtain ⟨contents⟩ := wal
  unfold restoreKeystore
  have hflat : [contents].flatten = contents := List.flatten_singleton
  by_cases hempty : contents = []
  · -- the file is at its end at once
    subst hempty
    obtain ⟨rfl, rfl⟩ := hd.unique (.clean frame_nil)
    rfl
  · apply restoreLoop_eq
    · apply RequestReader.Upcoming.new
      · intro chunk hc
        rw [List.mem_singleton.mp hc]
        exact hempty
      · rw [hflat]
        exact hd
    · show ([] ++ [contents].flatten).length < contents.length + 1
      rw [List.nil_append, hflat]
      exact Nat.lt_succ_self _

/-! Records of write commands. -/

/-- The commands, executed one after the other. -/
def applyAll (commands : List Command) (keyStore : Store) : Clocked Store :=
  commands.foldlM (fun keyStore command => do
    let (_, keyStore) ← command.applyWrite keyStore
    return keyStore) keyStore

/-- The bindings after the commands, all at one reading of the clock. -/
def allOnMap (now : UInt64) (commands : List Command) (m : Bindings) : Bindings :=
  commands.foldl (fun m command => command.onMap now m) m

theorem applyAll_cons (c : Command) (commands : List Command) (keyStore : Store) :
    applyAll (c :: commands) keyStore =
      c.applyWrite keyStore >>= fun r => applyAll commands r.2 := by
  unfold applyAll
  rw [List.foldlM_cons, bind_assoc]
  rfl

theorem applyAll_spec (now : UInt64) : ∀ {commands : List Command} {keyStore : Store}
    {m : Bindings}, (∀ c ∈ commands, c.isWriteOp = true) → keyStore.Holds m →
    CompletesAt now (applyAll commands keyStore) (·.Holds (allOnMap now commands m)) := by
  intro commands
  induction commands with
  | nil =>
    intro keyStore m hw h
    exact YieldsAt.pure h
  | cons c commands ih =>
    intro keyStore m hw h
    rw [applyAll_cons]
    refine YieldsAt.bind (applyWrite_spec h (hw c List.mem_cons_self)) (fun r hr => ?_)
    exact ih (fun c' hc => hw c' (List.mem_cons_of_mem _ hc)) hr.2

theorem applyAll_crowded : ∀ (commands : List Command) (keyStore : Store),
    YieldsAlways (Fault.Crowded (keyStore.len + totalInserts commands)) (applyAll commands keyStore)
      (fun _ => True) := by
  intro commands
  induction commands with
  | nil =>
    intro keyStore
    exact YieldsAlways.pure trivial
  | cons c commands ih =>
    intro keyStore
    rw [applyAll_cons, totalInserts, ← Nat.add_assoc]
    refine YieldsAlways.bind ((applyWrite_crowded c keyStore).weaken
      (fun _ => Fault.Crowded.mono (Nat.le_add_right _ _))) (fun r hlen => ?_)
    exact (ih r.2).weaken (fun _ => Fault.Crowded.mono (Nat.add_le_add_right hlen _))

/-- An empty store becomes that of the commands if there is room for their pairs. -/
theorem applyAll_withHasher (now : UInt64) {commands : List Command}
    (hw : ∀ c ∈ commands, c.isWriteOp = true) (hasher : Bytes → UInt64) :
    YieldsAt (fun f => f.OutOfMemory ∧ keyLimit ≤ totalInserts commands) (Stream'.const now)
      (applyAll commands (.withHasher hasher)) (·.Holds (allOnMap now commands (fun _ => none))) := by
  have hkeys := applyAll_crowded commands (.withHasher hasher) (Stream'.const now)
  rw [show (KeyStore.withHasher hasher : Store).len = 0 from rfl, Nat.zero_add] at hkeys
  exact CompletesFor.intro (applyAll_spec now hw (KeyStore.withHasher_holds hasher)) hkeys

theorem replay_record {now : UInt64} {c : Command} (hne : c.Nonempty) (requests : List Request)
    (d : End RequestParseError) (keyStore : Store) :
    (replay (c.toRequest :: requests) d keyStore).run (Stream'.const now) =
      (c.applyWrite keyStore >>= fun r => replay requests d r.2).run (Stream'.const now) := by
  have hparse := tryFrom_const c.toRequest now
  rw [toRequest, command_parts now hne] at hparse
  rw [replay, toRequest, StateT.run_bind, hparse]
  rfl

/-- Replaying records applies their commands, and goes on with what follows. -/
theorem replay_records {now : UInt64} {requests : List Request} {d : End RequestParseError} :
    ∀ {commands : List Command} {keyStore : Store} {m : Bindings},
      (∀ c ∈ commands, c.isWriteOp = true ∧ c.Nonempty) → keyStore.Holds m →
      (replay (commands.map toRequest ++ requests) d keyStore).run (Stream'.const now) =
        (applyAll commands keyStore >>= replay requests d).run (Stream'.const now)
  | [], _, _, _, _ => rfl
  | c :: commands, keyStore, m, hc, h => by
    obtain ⟨hw, hne⟩ := hc c List.mem_cons_self
    have happly : CompletesAt now (c.applyWrite keyStore) _ := applyWrite_spec h hw
    rw [List.map_cons, List.cons_append, replay_record hne, applyAll_cons, bind_assoc,
      StateT.run_bind, StateT.run_bind]
    cases hrun : (c.applyWrite keyStore).run (Stream'.const now) with
    | error f => rfl
    | ok r =>
      obtain ⟨⟨response, keyStore'⟩, clock'⟩ := r
      obtain ⟨rfl, _, h'⟩ := Yields.of_ok happly hrun
      exact replay_records (fun c' hc' => hc c' (List.mem_cons_of_mem _ hc')) h'

theorem restoreKeystore_records {commands : List Command} (h : ∀ c ∈ commands, c.AcceptedWrite)
    {s : Bytes} {requests : List Request} {d : End RequestParseError}
    (hd : Drains frame s requests d) (now : UInt64) (hasher : Bytes → UInt64) :
    runAt now (restoreKeystore ⟨records commands ++ s⟩ hasher) =
      runAt now (applyAll commands (.withHasher hasher) >>= replay requests d) := by
  unfold runAt
  rw [restoreKeystore_eq (drains_records_append (fun c hc => (h c hc).wellSized) hd),
    replay_records (fun c hc => ⟨(h c hc).1, (h c hc).wellSized.nonempty⟩)
      (KeyStore.withHasher_holds hasher)]

/-- Whole records: the commands are applied. -/
theorem restoreKeystore_whole {commands : List Command} (h : ∀ c ∈ commands, c.AcceptedWrite)
    (now : UInt64) (hasher : Bytes → UInt64) :
    CompletesFor (totalInserts commands) (runAt now (restoreKeystore ⟨records commands⟩ hasher))
      (fun result =>
      ∃ store, result = .ok store ∧ runAt now (applyAll commands (.withHasher hasher)) = .ok store ∧
        store.Holds (allOnMap now commands (fun _ => none))) := by
  have hrun := restoreKeystore_records h (.clean frame_nil) now hasher
  have happly := runAt_completes (applyAll_withHasher now (fun c hc => (h c hc).1) hasher)
  rw [List.append_nil] at hrun
  rw [hrun]
  unfold runAt at happly ⊢
  rw [StateT.run_bind]
  cases hall : (applyAll commands (.withHasher hasher)).run (Stream'.const now) with
  | error f =>
    rw [hall] at happly
    exact happly
  | ok r =>
    rw [hall] at happly
    exact ⟨r.1, rfl, rfl, happly⟩

/-- Whole records and a part of one: the file is refused. -/
theorem restoreKeystore_torn {commands : List Command} (h : ∀ c ∈ commands, c.AcceptedWrite)
    {u : Bytes} (hu : u ≠ []) (hmore : frame.run u = .more) (now : UInt64)
    (hasher : Bytes → UInt64) :
    CompletesFor (totalInserts commands)
      (runAt now (restoreKeystore ⟨records commands ++ u⟩ hasher))
      (· = .error (.request .unexpectedEof)) := by
  rw [restoreKeystore_records h (.cut hu hmore)]
  refine runAt_completes (YieldsAt.bind (applyAll_withHasher now (fun c hc => (h c hc).1) hasher)
    (fun store _ => ?_))
  exact YieldsAt.pure rfl

/-- `from_wal` panics on what `restore_keystore` refuses. -/
theorem runAt_fromWal (wal : AppendOnlyFile) (hasher : Bytes → UInt64) (now : UInt64) :
    runAt now (fromWal wal hasher) = (do
      match ← runAt now (restoreKeystore wal hasher) with
      | .error _ =>
        throw (.expectFailed "should be able to restore key store from append-only file")
      | .ok keyStore => return { wal, keyStore }) := by
  unfold fromWal runAt
  rw [StateT.run_bind]
  cases (restoreKeystore wal hasher).run (Stream'.const now) with
  | error f => rfl
  | ok r =>
    obtain ⟨result, clock⟩ := r
    cases result <;> rfl

/-- A server starts on whole records with what replaying them gives, and on no others. -/
theorem fromWal_records {commands : List Command} (h : ∀ c ∈ commands, c.AcceptedWrite)
    {torn : Bytes} (htorn : torn ≠ [] → frame.run torn = .more) (now : UInt64)
    (hasher : Bytes → UInt64) :
    Yields (fun f => f.OutOfMemory ∨ torn ≠ [] ∧ ∃ msg, f = .expectFailed msg)
      (runAt now (fromWal ⟨records commands ++ torn⟩ hasher)) (fun state => torn = [] ∧
        state.wal.contents = records commands ∧
        state.keyStore.Holds (allOnMap now commands (fun _ => none))) := by
  rw [runAt_fromWal]
  by_cases hnil : torn = []
  · subst hnil
    rw [List.append_nil]
    have hwhole := (restoreKeystore_whole h now hasher).completes
    apply Yields.bind (hwhole.weaken (fun _ hf => .inl hf))
    intro result hpost
    obtain ⟨keyStore, rfl, _, hholds⟩ := hpost
    exact ⟨rfl, rfl, hholds⟩
  · have htorn := (restoreKeystore_torn h hnil (htorn hnil) now hasher).completes
    apply Yields.bind (htorn.weaken (fun _ hf => .inl hf))
    intro result hpost
    subst hpost
    exact .inr ⟨hnil, _, rfl⟩

/-- A truncated log is restored up to the cut if the cut is between two records, and
    refused otherwise; there is room for the keys of the records if they are fewer than
    `keyLimit`. -/
theorem restoreKeystore_take {commands : List Command} (h : ∀ c ∈ commands, c.AcceptedWrite)
    (now : UInt64) (hasher : Bytes → UInt64) :
    (∀ j ≤ commands.length, CompletesFor (totalInserts (commands.take j))
      (runAt now (restoreKeystore ⟨(records commands).take
        (records (commands.take j)).length⟩ hasher))
      (fun result => ∃ store, result = .ok store ∧
        runAt now (applyAll (commands.take j) (.withHasher hasher)) = .ok store)) ∧
    (∀ m ≤ (records commands).length,
      (∀ j ≤ commands.length, m ≠ (records (commands.take j)).length) →
      CompletesFor (totalInserts commands)
        (runAt now (restoreKeystore ⟨(records commands).take m⟩ hasher))
        (· = .error (.request .unexpectedEof))) := by
  constructor
  · intro j _
    have hsplit : records commands =
        records (commands.take j) ++ records (commands.drop j) := by
      rw [← records_append, List.take_append_drop]
    rw [hsplit, List.take_left]
    refine Yields.mono (restoreKeystore_whole (fun c hc => h c (List.mem_of_mem_take hc)) now
      hasher) ?_
    intro result hpost
    obtain ⟨store, hresult, happly, _⟩ := hpost
    exact ⟨store, hresult, happly⟩
  · intro m hm hcut
    rcases Drains.take_flatMap Command.toBytes commands m hm with
      ⟨pre, post, rfl, ht⟩ | ⟨pre, c, post, u, v, rfl, hc, hu, hv, ht⟩
    · -- the cut is between two records
      refine absurd ?_ (hcut pre.length (by rw [List.length_append]; omega))
      have hlen := congrArg List.length ht
      rw [List.length_take] at hlen
      rw [List.take_left]
      exact (Nat.min_eq_left hm).symm.trans hlen
    · have hencodes := (h c (by simp)).wellSized.encodes
      rw [hc] at hencodes
      unfold records
      rw [ht]
      refine (restoreKeystore_torn (fun c' hc' => h c' (by simp [hc'])) hu (hencodes.run_prefix hv)
        now hasher).weaken (fun _ hf => ⟨hf.1, Nat.le_trans hf.2 ?_⟩)
      exact totalInserts_le_append _ _

/-- A multi-key `MSET`, whole and without its last byte. -/
theorem restoreKeystore_take_mset :
    (∀ j ≤ 1, CompletesFor (totalInserts ([.mset [([97], [98]), ([99], [100])]].take j))
      (runAt 7 (restoreKeystore ⟨(records [.mset [([97], [98]), ([99], [100])]]).take
        (records ([.mset [([97], [98]), ([99], [100])]].take j)).length⟩ (fun _ => 0)))
      (fun result => ∃ store, result = .ok store ∧
        runAt 7 (applyAll ([.mset [([97], [98]), ([99], [100])]].take j)
          (.withHasher (fun _ => 0))) = .ok store)) ∧
    (∀ m ≤ (records [.mset [([97], [98]), ([99], [100])]]).length,
      (∀ j ≤ 1, m ≠ (records ([.mset [([97], [98]), ([99], [100])]].take j)).length) →
      CompletesFor 2 (runAt 7 (restoreKeystore
        ⟨(records [.mset [([97], [98]), ([99], [100])]]).take m⟩ (fun _ => 0)))
        (· = .error (.request .unexpectedEof))) := by
  have haccepted : ∀ c ∈ [mset [([97], [98]), ([99], [100])]], c.AcceptedWrite := by
    intro c hc
    rw [List.mem_singleton.mp hc]
    exact acceptedWrite_of_wellSized (by decide) (by decide)
  exact restoreKeystore_take haccepted 7 (fun _ => 0)

end ServerState
end SimpleKv
