import SimpleKv.CommandRefinement

/- What `TTL` tells apart. It answers with a deadline cast to `i64`, or with one of two
   negative numbers that say that there is no deadline to tell. A deadline above `i64::MAX`
   is cast to a negative number too, `u64::MAX` to the very one that says that the key
   does not expire. The answers are right for a key without such a deadline, and they are
   right for all keys throughout a run that gives no key one. -/
namespace SimpleKv
open Outcome PartialMap Expiring

namespace Command

/-- `TTL` answers -2 for a key that is absent or expired, -1 for a key that does not expire,
    and the deadline for every other one. -/
def Unambiguous (now : UInt64) (keyStore : Store) (key : Bytes) : Prop :=
  ∃ found n, keyStore.get key = .ok found ∧ runAt now (applyTtl key keyStore) = .ok (.integer n) ∧
    (n = ttlKeyMissingResponse ↔ ∀ value, found = some value → ¬value.LiveAt now) ∧
    (n = ttlKeyNoExpireResponse ↔ ∃ value, found = some value ∧ value.expiresAt = none) ∧
    ∀ value d, found = some value → value.expiresAt = some d → now < d → n.toInt = d.toNat

/-- The key has no visible deadline above `i64::MAX`. -/
def DeadlineFits (now : UInt64) (keyStore : Store) (key : Bytes) : Prop :=
  ∀ value d, keyStore.get key = .ok (some value) → value.expiresAt = some d → now < d →
    d.toNat < 2^63

theorem toInt_eq_iff {n k : Int64} : n = k ↔ n.toInt = k.toInt := Int64.toInt_inj.symm

/-! What there is to tell: nothing, no deadline, or one to come. -/

section Remaining
variable {now : UInt64} {m : Bindings} {key : Bytes} {value : StoredValue} {d : UInt64}

theorem liveAt_of_lasting (h : value.expiresAt = none) : value.LiveAt now := by
  intro d hd
  rw [h] at hd
  cases hd

theorem liveAt_of_lt (hd : value.expiresAt = some d) (hnow : now < d) : value.LiveAt now := by
  intro d' hd'
  rw [hd] at hd'
  cases hd'
  exact hnow

theorem remaining_gone (h : ∀ value, m key = some value → ¬value.LiveAt now) :
    remaining now m key = -2 := by
  unfold remaining
  cases hm : m key with
  | none => rw [visibleAt_absent hm]
  | some value => rw [visibleAt_expired hm (h value hm)]

theorem remaining_lasting (hm : m key = some value) (h : value.expiresAt = none) :
    remaining now m key = -1 := by
  unfold remaining
  rw [visibleAt_live hm (liveAt_of_lasting h)]
  obtain ⟨bytes, expiresAt⟩ := value
  cases h
  rfl

theorem remaining_due (hm : m key = some value) (hd : value.expiresAt = some d) (hnow : now < d)
    (hfits : d.toNat < 2^63) : remaining now m key = d.toNat := by
  unfold remaining
  rw [visibleAt_live hm (liveAt_of_lt hd hnow)]
  obtain ⟨bytes, expiresAt⟩ := value
  cases hd
  exact if_pos hfits

theorem gone_or_lasting_or_due (now : UInt64) (m : Bindings) (key : Bytes) :
    (∀ value, m key = some value → ¬value.LiveAt now) ∨
      (∃ value, m key = some value ∧ value.expiresAt = none) ∨
      ∃ value d, m key = some value ∧ value.expiresAt = some d ∧ now < d := by
  by_cases hgone : ∀ value, m key = some value → ¬value.LiveAt now
  · exact .inl hgone
  · simp only [not_forall, not_not] at hgone
    obtain ⟨value, hm, hl⟩ := hgone
    cases hd : value.expiresAt with
    | none => exact .inr (.inl ⟨value, hm, hd⟩)
    | some d => exact .inr (.inr ⟨value, d, hm, hd, hl d hd⟩)

end Remaining

/-- A deadline is told as it is if and only if it fits. -/
theorem unambiguous_iff {keyStore : Store} {m : Bindings} (h : keyStore.Holds m) (now : UInt64)
    (key : Bytes) : Unambiguous now keyStore key ↔ DeadlineFits now keyStore key := by
  have hget := KeyStore.get_spec h key
  obtain ⟨response, hrun, n, rfl, hn⟩ := (runAt_completes (applyTtl_spec h key)).exists_ok
  unfold Unambiguous DeadlineFits
  rw [hget, hrun]
  refine ⟨fun h value d hvalue hd hnow => ?_, fun hfits => ?_⟩
  · obtain ⟨found, n', hfound, hn', _, _, hdeadline⟩ := h
    cases hfound
    cases hn'
    have htold := hdeadline value d (Except.ok.inj hvalue) hd hnow
    have hlt : n.toInt < 2^63 := Int64.toInt_lt n
    omega
  · have hmissing : ttlKeyMissingResponse.toInt = -2 := rfl
    have hnoExpire : ttlKeyNoExpireResponse.toInt = -1 := rfl
    refine ⟨m key, n, rfl, rfl, ?_⟩
    rw [toInt_eq_iff, toInt_eq_iff, hn, hmissing, hnoExpire]
    rcases gone_or_lasting_or_due now m key with hgone | ⟨value, hm, hnone⟩ | ⟨value, d, hm, hd, hnow⟩
    · rw [remaining_gone hgone]
      refine ⟨iff_of_true rfl hgone, iff_of_false (by omega) ?_, ?_⟩
      · intro hlasting
        obtain ⟨value, hm, hnone⟩ := hlasting
        exact hgone value hm (liveAt_of_lasting hnone)
      · intro value d hm hd hnow
        exact absurd (liveAt_of_lt hd hnow) (hgone value hm)
    · rw [remaining_lasting hm hnone]
      refine ⟨iff_of_false (by omega) ?_, iff_of_true rfl ⟨value, hm, hnone⟩, ?_⟩
      · intro hgone
        exact hgone value hm (liveAt_of_lasting hnone)
      · intro value' d hm' hd
        rw [hm] at hm'
        cases hm'
        rw [hnone] at hd
        cases hd
    · -- what is told is the deadline, and it is not one of the negative numbers
      rw [remaining_due hm hd hnow (hfits value d (congrArg Except.ok hm) hd hnow)]
      refine ⟨iff_of_false (by omega) ?_, iff_of_false (by omega) ?_, ?_⟩
      · intro hgone
        exact hgone value hm (liveAt_of_lt hd hnow)
      · intro hlasting
        obtain ⟨value', hm', hnone⟩ := hlasting
        rw [hm] at hm'
        cases hm'
        rw [hd] at hnone
        cases hnone
      · intro value' d' hm' hd' _
        rw [hm] at hm'
        cases hm'
        rw [hd] at hd'
        cases hd'
        rfl

/-- The command gives no visible key a deadline above `i64::MAX`. -/
def SetsFitting (now : UInt64) (keyStore : Store) : Command → Prop
  | .expireAt key timestamp => ∀ value, keyStore.get key = .ok (some value) →
      value.LiveAt now → timestamp.toNat < 2^63
  | .get _ | .set _ _ | .mget _ | .mset _ | .del _ | .getAll | .ttl _ => True

/-- No deadline of the map is above `i64::MAX`. -/
def AllFit (m : Bindings) : Prop :=
  ∀ key value d, m key = some value → value.expiresAt = some d → d.toNat < 2^63

namespace AllFit
variable {m : Bindings}

theorem empty : AllFit (fun _ => none) := by
  intro key value d hvalue
  cases hvalue

theorem update (h : AllFit m) (key : Bytes) {b : Option StoredValue}
    (hb : ∀ value d, b = some value → value.expiresAt = some d → d.toNat < 2^63) :
    AllFit (Function.update m key b) := by
  intro key' value d hvalue
  exact forall_update (fun key value hvalue => h key value d hvalue)
    (fun value heq => hb value d heq) key' value hvalue

theorem set (h : AllFit m) (key bytes : Bytes) :
    AllFit (Function.update m key (some (.new bytes))) := by
  apply h.update
  intro value d hvalue hd
  cases hvalue
  cases hd

theorem visibleAt (h : AllFit m) (now : UInt64) : AllFit (visibleAt now m) :=
  fun key value d hvalue hd => h key value d (visible_eq_some.mp hvalue).1 hd

theorem deadlineFits (h : AllFit m) {keyStore : Store} (hm : keyStore.Holds m) (now : UInt64)
    (key : Bytes) : DeadlineFits now keyStore key := by
  intro value d hvalue hd _
  rw [KeyStore.get_spec hm key] at hvalue
  exact h key value d (Except.ok.inj hvalue) hd

theorem onMap (h : AllFit m) {now : UInt64} {keyStore : Store} (hm : keyStore.Holds m)
    {command : Command} (hset : command.SetsFitting now keyStore) : AllFit (command.onMap now m) := by
  cases command with
  | set key value => exact h.set key value
  | get | mget | getAll | ttl => exact h
  | mset entries =>
    clear hset hm
    unfold Command.onMap
    induction entries generalizing m with
    | nil => exact h
    | cons entry entries ih => exact ih (h.set entry.1 entry.2)
  | del keys =>
    intro key value d hvalue hd
    have hkept : drop keys m key = some value := hvalue
    unfold drop at hkept
    split at hkept
    · cases hkept
    · exact h key value d hkept hd
  | expireAt key timestamp =>
    apply h.update
    intro value d hvalue hd
    obtain ⟨old, hold, rfl⟩ := Option.map_eq_some_iff.mp hvalue
    cases hd
    obtain ⟨hbound, hl⟩ := visible_eq_some.mp hold
    exact hset old (by rw [KeyStore.get_spec hm key, hbound]) hl

end AllFit

/-- A command after which `TTL` is unambiguous gives no visible key a deadline above
    `i64::MAX`. -/
theorem setsFitting_of_unambiguous {now : UInt64} {keyStore : Store} {m : Bindings}
    (h : keyStore.Holds m) (command : Command)
    (hafter : ∀ response keyStore', runAt now (command.execute keyStore) = .ok (response, keyStore') →
      ∀ key now, Unambiguous now keyStore' key) : command.SetsFitting now keyStore := by
  cases command with
  | get | set | mget | mset | del | getAll | ttl => exact True.intro
  | expireAt key timestamp =>
    intro value hvalue hl
    have hbound : m key = some value := by
      rw [KeyStore.get_spec h key] at hvalue
      exact Except.ok.inj hvalue
    have hexpire : YieldsAt (fun _ => False) (Stream'.const now)
        (applyExpireAt key timestamp keyStore) _ := applyExpireAt_spec h key timestamp
    obtain ⟨⟨response, keyStore'⟩, hrun, _, h'⟩ := (runAt_completes hexpire).exists_ok
    have hfits := (unambiguous_iff h' 0 key).mp (hafter response keyStore' hrun key 0)
    -- the deadline is the key's now, and at 0 it is still to come unless it is 0 itself
    by_cases hzero : timestamp = 0
    · rw [hzero]
      decide
    · apply hfits { value with expiresAt := some timestamp } timestamp _ rfl
      · exact UInt64.pos_iff_ne_zero.mpr hzero
      · rw [KeyStore.get_spec h' key]
        apply congrArg Except.ok
        show Function.update m key _ key = _
        rw [Function.update_self]
        show (visibleAt now m key).map _ = _
        rw [visibleAt_live hbound hl]
        rfl

end Command

/-! Runs. -/

namespace Event
open Command

/-- Along the run, no command gives a visible key a deadline above `i64::MAX`. -/
def SetsFitting : List Event → Store → Prop
  | [], _ => True
  | .exec now command :: events, keyStore => command.SetsFitting now keyStore ∧
      ∀ response keyStore', runAt now (command.execute keyStore) = .ok (response, keyStore') →
        SetsFitting events keyStore'
  | .cleanUp now :: events, keyStore => ∀ removed state,
      runAt now ({ wal := {}, keyStore := keyStore : ServerState }).removeExpired =
        .ok (removed, state) → SetsFitting events state.keyStore

/-- In every store the run passes through, `TTL` is unambiguous for all keys at all times. -/
def Unambiguous (events : List Event) (keyStore : Store) : Prop :=
  ∀ done, done <+: events → Completes (run done keyStore) (fun (_, keyStore') =>
    ∀ key now, Command.Unambiguous now keyStore' key)

variable {now : UInt64} {command : Command} {events : List Event} {keyStore keyStore' : Store}

namespace Unambiguous

/-- The store before the run is one the run passes through. -/
theorem start (h : Unambiguous events keyStore) (key : Bytes) (now : UInt64) :
    Command.Unambiguous now keyStore key :=
  h [] List.nil_prefix key now

theorem of_exec {response : Response} (h : Unambiguous (.exec now command :: events) keyStore)
    (hrun : runAt now (command.execute keyStore) = .ok (response, keyStore')) :
    Unambiguous events keyStore' := by
  intro done hdone
  have hall := h (.exec now command :: done) (List.cons_prefix_cons.mpr ⟨rfl, hdone⟩)
  rw [run, hrun] at hall
  exact Yields.of_map hall

theorem of_cleanUp {removed : Nat} {state : ServerState}
    (h : Unambiguous (.cleanUp now :: events) keyStore)
    (hrun : runAt now ({ wal := {}, keyStore := keyStore : ServerState }).removeExpired =
      .ok (removed, state)) : Unambiguous events state.keyStore := by
  intro done hdone
  have hall := h (.cleanUp now :: done) (List.cons_prefix_cons.mpr ⟨rfl, hdone⟩)
  rw [run, hrun] at hall
  exact hall

theorem cons {event : Event} (hstart : ∀ key now, Command.Unambiguous now keyStore key)
    (h : ∀ done, done <+: events → Completes (run (event :: done) keyStore)
      (fun out => ∀ key now, Command.Unambiguous now out.2 key)) :
    Unambiguous (event :: events) keyStore := by
  intro done hdone
  cases done with
  | nil => exact hstart
  | cons event' done =>
    obtain ⟨rfl, hrest⟩ := List.cons_prefix_cons.mp hdone
    exact h done hrest

theorem exec (hstart : ∀ key now, Command.Unambiguous now keyStore key)
    (h : Completes (runAt now (command.execute keyStore))
      (fun (_, keyStore') => Unambiguous events keyStore')) :
    Unambiguous (.exec now command :: events) keyStore := by
  apply cons hstart
  intro done hdone
  apply Yields.bind h
  intro (response, keyStore') h'
  exact Yields.map (h' done hdone)

theorem cleanUp (hstart : ∀ key now, Command.Unambiguous now keyStore key)
    (h : Completes (runAt now ({ wal := {}, keyStore := keyStore : ServerState }).removeExpired)
      (fun (_, state) => Unambiguous events state.keyStore)) :
    Unambiguous (.cleanUp now :: events) keyStore := by
  apply cons hstart
  intro done hdone
  apply Yields.bind h
  intro (_, state) h'
  exact h' done hdone

end Unambiguous

theorem unambiguous_iff : ∀ (events : List Event) {keyStore : Store} {m : Bindings},
    keyStore.Holds m → AllFit m → (Unambiguous events keyStore ↔ SetsFitting events keyStore)
  | [], keyStore, m, h, hfit => by
    refine iff_of_true ?_ True.intro
    intro done hdone
    rw [List.prefix_nil.mp hdone]
    exact fun key now => (Command.unambiguous_iff h now key).mpr (hfit.deadlineFits h now key)
  | .exec now command :: events, keyStore, m, h, hfit => by
    have hexec := runAt_completes (execute_spec h now command)
    refine ⟨fun hall => ?_, fun hw => ?_⟩
    · have hset : command.SetsFitting now keyStore :=
        setsFitting_of_unambiguous h command (fun response keyStore' hrun => (hall.of_exec hrun).start)
      refine ⟨hset, fun response keyStore' hrun => ?_⟩
      have h' := (hexec.of_ok hrun).2
      exact (unambiguous_iff events h' (hfit.onMap h hset)).mp (hall.of_exec hrun)
    · obtain ⟨hset, hrest⟩ := hw
      apply Unambiguous.exec
      · exact fun key now => (Command.unambiguous_iff h now key).mpr (hfit.deadlineFits h now key)
      · cases hrun : runAt now (command.execute keyStore) with
        | error e => exact hexec.of_error hrun
        | ok r =>
          have h' := (hexec.of_ok hrun).2
          exact (unambiguous_iff events h' (hfit.onMap h hset)).mpr (hrest r.1 r.2 hrun)
  | .cleanUp now :: events, keyStore, m, h, hfit => by
    have hclean := @runAt_completes _ Fault.OutOfMemory _ _ _ (ServerState.removeExpired_spec
      (show KeyStore.Holds (ServerState.mk {} keyStore).keyStore m from h) now)
    constructor
    · intro hall removed state hrun
      obtain ⟨_, h', _⟩ := hclean.of_ok hrun
      exact (unambiguous_iff events h' (hfit.visibleAt now)).mp (hall.of_cleanUp hrun)
    · intro hrest
      apply Unambiguous.cleanUp
      · exact fun key now => (Command.unambiguous_iff h now key).mpr (hfit.deadlineFits h now key)
      · cases hrun : runAt now ({ wal := {}, keyStore := keyStore : ServerState }).removeExpired with
        | error e => exact hclean.of_error hrun
        | ok r =>
          obtain ⟨_, h', _⟩ := hclean.of_ok hrun
          exact (unambiguous_iff events h' (hfit.visibleAt now)).mpr (hrest r.1 r.2 hrun)

/-- Every store of a run holds some map. -/
theorem run_holds : ∀ (events : List Event) {keyStore : Store} {m : Bindings}, keyStore.Holds m →
    Completes (run events keyStore) (fun (_, keyStore') => ∃ m', keyStore'.Holds m')
  | [], _, m, h => ⟨m, h⟩
  | .exec now command :: events, _, _, h => by
    apply Yields.bind (runAt_completes (execute_spec h now command))
    intro (_, keyStore') hpost
    exact Yields.bind (run_holds events hpost.2) (fun _ h' => h')
  | .cleanUp now :: events, keyStore, m, h => by
    apply Yields.bind (runAt_completes (ServerState.removeExpired_spec
      (show KeyStore.Holds (ServerState.mk {} keyStore).keyStore m from h) now))
    intro (_, state) hpost
    exact run_holds events hpost.2.1

/-- `TTL` is unambiguous for the keys without a visible deadline above `i64::MAX`, in every
    store a run of commands and clean-ups from the empty one leads to. It is so for all
    keys throughout if and only if the run gives no visible key such a deadline. -/
theorem run_unambiguous_iff (hasher : Bytes → UInt64) (events : List Event) :
    (Unambiguous events (.withHasher hasher) ↔ SetsFitting events (.withHasher hasher)) ∧
      Completes (run events (.withHasher hasher)) (fun (_, keyStore) => ∀ key now,
        Command.Unambiguous now keyStore key ↔ DeadlineFits now keyStore key) := by
  have hempty := KeyStore.withHasher_holds (V := StoredValue) hasher
  constructor
  · exact unambiguous_iff events hempty .empty
  · apply Yields.mono (run_holds events hempty)
    intro (_, keyStore) hholds key now
    obtain ⟨m, h⟩ := hholds
    exact Command.unambiguous_iff h now key

/-- The largest deadline reads back as the number for no deadline. -/
theorem run_largest_deadline :
    runAt 2 (Command.tryFrom ⟨[asBytes "EXPIREAT", [97], asBytes "18446744073709551615"]⟩) =
      .ok (.ok (.expireAt [97] 0xFFFFFFFFFFFFFFFF)) ∧
    (fun r => r.1) <$> run [.exec 1 (.set [97] [98]), .exec 2 (.expireAt [97] 0xFFFFFFFFFFFFFFFF),
      .exec 3 (.ttl [97])] (.withHasher fun _ => 0) = .ok [.ok, .integer 1, .integer (-1)] ∧
    ¬Unambiguous [.exec 1 (.set [97] [98]), .exec 2 (.expireAt [97] 0xFFFFFFFFFFFFFFFF)]
      (.withHasher fun _ => 0) := by
  refine ⟨rfl, rfl, fun hall => ?_⟩
  have hset := (unambiguous_iff _ (KeyStore.withHasher_holds _) .empty).mp hall
  have hlt := (hset.2 .ok _ rfl).1 (.new [98]) rfl (fun d hd => by cases hd)
  exact absurd hlt (by decide)

end Event
end SimpleKv
