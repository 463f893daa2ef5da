import SimpleKv.CommandMemory
import SimpleKv.ServerMap

/- The command layer as an expiring map. In the reference a binding counts as absent
   from its deadline on and nothing is ever ejected. The store and the reference
   show the same bindings at every reading of the clock, although the store drops
   expired bindings when `DEL` and `EXPIREAT` meet them and whenever the clean-up
   task runs. -/
namespace SimpleKv
open Outcome PartialMap Expiring Command

namespace Command

/-- What a command does to the reference map. Among the pairs of `MSET` the last one of
    each key counts. -/
def onReference (now : UInt64) : Command → Bindings → Bindings
  | .set key value, r => Function.update r key (some (.new value))
  | .mset entries, r => fun key =>
    match entries.reverse.lookup key with
    | some value => some (.new value)
    | none => r key
  | .del keys, r => drop keys r
  | .expireAt key timestamp, r =>
    match visibleAt now r key with
    | some value => Function.update r key (some { value with expiresAt := some timestamp })
    | none => r
  | .get _, r | .mget _, r | .getAll, r | .ttl _, r => r

theorem onMap_mset (now : UInt64) : ∀ (entries : List (Bytes × Bytes)) (m : Bindings),
    onMap now (.mset entries) m = onReference now (.mset entries) m
  | [], _ => rfl
  | (key, value) :: entries, m => by
    funext key'
    have ih := congrFun (onMap_mset now entries (Function.update m key (some (.new value)))) key'
    apply Eq.trans ih
    simp only [onReference, List.reverse_cons, List.lookup_append]
    cases entries.reverse.lookup key' with
    | some value' => rfl
    | none =>
      by_cases hk : key' = key
      · subst hk
        simp [Function.update_self]
      · have hb : (key' == key) = false := beq_false_of_ne hk
        simp [Function.update_of_ne hk, List.lookup_cons, hb]

/-- The responses speak about the visible bindings only. -/
theorem Answers.congr {now : UInt64} {m r : Bindings} (h : Agree StoredValue.expiresAt now m r)
    {command : Command} {response : Response} (ha : Answers now m command response) :
    Answers now r command response := by
  have hv : visibleAt now m = visibleAt now r := h
  have hshown : shown now m = shown now r := by
    funext key
    unfold shown
    rw [hv]
  cases command <;> simp only [Answers, hshown, visibleCount, remaining, hv] at ha ⊢ <;> exact ha

/-- A command keeps the two maps showing the same. -/
theorem onReference_agree {now : UInt64} {m r : Bindings}
    (h : Agree StoredValue.expiresAt now m r) (command : Command) :
    Agree StoredValue.expiresAt now (command.onMap now m) (command.onReference now r) := by
  cases command with
  | set key value => exact h.update key _
  | del keys => exact h.drop keys
  | expireAt key timestamp =>
    simp only [onReference]
    split
    · next value hv => exact h.touch_some hv _
    · next hv => exact h.touch_none hv _
  | mset entries =>
    rw [← onMap_mset]
    unfold onMap
    induction entries generalizing m r with
    | nil => exact h
    | cons entry entries ih => exact ih (h.update entry.1 _)
  | get | mget | getAll | ttl => exact h

/-- Execution as `handle_client_connection` dispatches it. -/
def execute (self : Command) (keyStore : Store) : Clocked (Response × Store) := do
  if self.isWriteOp then
    self.applyWrite keyStore
  else
    return (← self.applyRead keyStore, keyStore)

theorem execute_spec {keyStore : Store} {m : Bindings} (h : keyStore.Holds m) (now : UInt64)
    (command : Command) : CompletesAt now (command.execute keyStore) (fun (response, keyStore) =>
      Answers now m command response ∧ keyStore.Holds (command.onMap now m)) := by
  refine YieldsAt.ite (fun hw => applyWrite_spec h hw) (fun hw => ?_)
  have hread := Bool.eq_false_iff.mpr hw
  refine YieldsAt.bind (applyRead_spec h hread) (fun response hr => YieldsAt.pure ⟨hr, ?_⟩)
  cases command with
  | get | mget | getAll | ttl => exact h
  | set | mset | del | expireAt => cases hread

theorem execute_crowded (command : Command) (keyStore : Store) :
    YieldsAlways (Fault.Crowded (keyStore.len + command.inserts)) (command.execute keyStore)
      (fun r => r.2.len ≤ keyStore.len + command.inserts) := by
  apply YieldsAlways.ite
  · intro _
    exact applyWrite_crowded command keyStore
  · intro _
    exact YieldsAlways.bind (applyRead_crowded command)
      (fun _ _ => YieldsAlways.pure (Nat.le_add_right _ _))

end Command

/-! Runs. -/

/-- What may happen to the store, at a reading of the clock. -/
inductive Event where
  | exec (now : UInt64) (command : Command)
  | cleanUp (now : UInt64)

namespace Event

def now : Event → UInt64
  | .exec now _ => now
  | .cleanUp now => now

/-- The responses of a run, and the store after it. -/
def run : List Event → Store → Rust (List Response × Store)
  | [], keyStore => return ([], keyStore)
  | .exec now command :: events, keyStore => do
    let (response, keyStore) ← runAt now (command.execute keyStore)
    let (responses, keyStore) ← run events keyStore
    return (response :: responses, keyStore)
  | .cleanUp now :: events, keyStore => do
    let (_, state) ← runAt now ({ wal := {}, keyStore := keyStore : ServerState }).removeExpired
    run events state.keyStore

/-- The commands of a run: the clean-ups are left out. -/
def commands : List Event → List (UInt64 × Command)
  | [] => []
  | .exec now command :: events => (now, command) :: commands events
  | .cleanUp _ :: events => commands events

/-- The responses are the reference's. -/
def Refine : List (UInt64 × Command) → Bindings → List Response → Prop
  | [], _, responses => responses = []
  | (now, command) :: commands, r, responses => ∃ response rest,
      responses = response :: rest ∧ Answers now r command response ∧
        Refine commands (command.onReference now r) rest

theorem run_spec : ∀ (events : List Event) {last : UInt64} {keyStore : Store} {m r : Bindings},
    (last :: events.map now).Pairwise (· ≤ ·) → keyStore.Holds m →
    Agree StoredValue.expiresAt last m r →
    Completes (run events keyStore) (fun (responses, _) => Refine (commands events) r responses)
  | [], _, _, _, _, _, _, _ => (rfl : ([] : List Response) = [])
  | .exec now command :: events, last, keyStore, m, r, hclock, h, hagree => by
    obtain ⟨hlast, hclock⟩ := List.pairwise_cons.mp hclock
    -- the clock has moved on, and what the two maps show still agrees
    have hnow := hagree.later (hlast now List.mem_cons_self)
    apply Yields.bind (runAt_completes (execute_spec h now command))
    intro (response, keyStore') hpost
    obtain ⟨ha, h'⟩ := hpost
    apply Yields.bind (run_spec events hclock h' (onReference_agree hnow command))
    intro (responses, _) hrest
    exact ⟨response, responses, rfl, ha.congr hnow, hrest⟩
  | .cleanUp now :: events, last, keyStore, m, r, hclock, h, hagree => by
    obtain ⟨hlast, hclock⟩ := List.pairwise_cons.mp hclock
    have hnow := hagree.later (hlast now List.mem_cons_self)
    refine Yields.bind (runAt_completes (ServerState.removeExpired_spec
      (show KeyStore.Holds (ServerState.mk {} keyStore).keyStore m from h) now)) ?_
    intro (_, state) hpost
    obtain ⟨_, h', _⟩ := hpost
    exact run_spec events hclock h' hnow.purge_left

/-- The keys the commands of a run may add. -/
def inserts (events : List Event) : ℕ := totalInserts ((commands events).map Prod.snd)

theorem run_crowded : ∀ (events : List Event) (keyStore : Store),
    Yields (Fault.Crowded (keyStore.len + inserts events)) (run events keyStore) (fun _ => True)
  | [], _ => trivial
  | .exec now command :: events, keyStore => by
    have hinserts : inserts (.exec now command :: events) = command.inserts + inserts events := rfl
    rw [hinserts, ← Nat.add_assoc]
    refine Yields.bind ((runAt_always (execute_crowded command keyStore)).weaken
      (fun _ => Fault.Crowded.mono (Nat.le_add_right _ _))) ?_
    intro (response, keyStore') hlen
    exact Yields.bind ((run_crowded events keyStore').weaken
      (fun _ => Fault.Crowded.mono (Nat.add_le_add_right hlen _))) (fun _ _ => trivial)
  | .cleanUp now :: events, keyStore => by
    refine Yields.bind (runAt_always (ServerState.removeExpired_crowded _ ⟨{}, keyStore⟩)) ?_
    intro (_, state) hlen
    exact (run_crowded events state.keyStore).weaken
      (fun _ => Fault.Crowded.mono (Nat.add_le_add_right hlen _))

theorem run_refines_reference (hasher : Bytes → UInt64) (events : List Event)
    (hclock : (events.map now).Pairwise (· ≤ ·)) :
    Completes (run events (.withHasher hasher)) (fun (responses, _) =>
      Refine (commands events) (fun _ => none) responses) := by
  cases events with
  | nil => exact (rfl : ([] : List Response) = [])
  | cons event events =>
    refine run_spec (event :: events) (?_ : (event.now :: _).Pairwise (· ≤ ·))
      (KeyStore.withHasher_holds hasher) rfl
    refine List.pairwise_cons.mpr ⟨fun t ht => ?_, hclock⟩
    rcases List.mem_cons.mp ht with rfl | ht
    · exact le_refl _
    · exact (List.pairwise_cons.mp hclock).1 t ht

/-- The command layer refines the expiring map: under a clock that does not go back,
    the responses are those of the reference, which knows neither the hash function
    nor the clean-ups. All commands are answered if they bring fewer than `keyLimit` pairs. -/
theorem run_refines (hasher : Bytes → UInt64) (events : List Event)
    (hclock : (events.map now).Pairwise (· ≤ ·)) :
    CompletesFor (inserts events) (run events (.withHasher hasher)) (fun (responses, _) =>
      Refine (commands events) (fun _ => none) responses) := by
  have hkeys := run_crowded events (.withHasher hasher)
  rw [show (KeyStore.withHasher hasher : Store).len = 0 from rfl, Nat.zero_add] at hkeys
  exact CompletesFor.intro (run_refines_reference hasher events hclock) hkeys

/-- A key that expires between two reads, with a clean-up after it. -/
theorem run_refines_expiry :
    CompletesFor 1 (run [.exec 1 (.set [97] [98]), .exec 2 (.expireAt [97] 5),
        .exec 4 (.get [97]), .exec 5 (.get [97]), .cleanUp 6, .exec 6 (.ttl [97])]
        (.withHasher (fun _ => 0)))
      (fun (responses, _) => Refine (commands [.exec 1 (.set [97] [98]),
        .exec 2 (.expireAt [97] 5), .exec 4 (.get [97]), .exec 5 (.get [97]), .cleanUp 6,
        .exec 6 (.ttl [97])]) (fun _ => none) responses) :=
  run_refines (fun _ => 0) [.exec 1 (.set [97] [98]), .exec 2 (.expireAt [97] 5), .exec 4 (.get [97]),
    .exec 5 (.get [97]), .cleanUp 6, .exec 6 (.ttl [97])] (by decide)

end Event
end SimpleKv
