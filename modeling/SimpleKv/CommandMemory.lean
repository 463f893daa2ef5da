import SimpleKv.KeyStoreMemory
import SimpleKv.Server

/- When there is no memory for a command. `SET` and `MSET` add a key for each pair at most,
   and nothing else adds any, so a store that runs out of memory holds as many keys as it
   began with and the commands brought (`keyLimit` or more). -/
namespace SimpleKv
open Outcome

namespace Command

/-- The keys a command may add. -/
def inserts : Command → ℕ
  | .set _ _ => 1
  | .mset entries => entries.length
  | _ => 0

def totalInserts : List Command → ℕ
  | [] => 0
  | c :: commands => c.inserts + totalInserts commands

theorem totalInserts_le_append (first second : List Command) :
    totalInserts first ≤ totalInserts (first ++ second) := by
  induction first with
  | nil => exact Nat.zero_le _
  | cons c first ih => exact Nat.add_le_add_left ih c.inserts

section Keys
variable {keys : ℕ} {keyStore : Store}

theorem isExpired_always {stop : Fault → Prop} (value : StoredValue) :
    YieldsAlways stop value.isExpired (fun _ => True) := by
  unfold StoredValue.isExpired
  cases value.expiresAt with
  | none => exact YieldsAlways.pure trivial
  | some d => exact fun _ => trivial

theorem applyGet_crowded (key : Bytes) :
    YieldsAlways (Fault.Crowded keys) (applyGet key keyStore) (fun _ => True) := by
  unfold applyGet
  apply YieldsAlways.bind (YieldsAlways.lift (KeyStore.get_crowded keys keyStore key))
  intro found _
  cases found with
  | none => exact YieldsAlways.pure trivial
  | some value => exact YieldsAlways.bind (isExpired_always value) (fun _ _ => YieldsAlways.pure trivial)

theorem applyRead_crowded (command : Command) :
    YieldsAlways (Fault.Crowded keys) (command.applyRead keyStore) (fun _ => True) := by
  cases command with
  | get key => exact applyGet_crowded key
  | mget args =>
    apply YieldsAlways.bind (YieldsAlways.mapM (fun key _ => applyGet_crowded key))
    intro responses _
    exact YieldsAlways.pure trivial
  | getAll =>
    apply YieldsAlways.bind (YieldsAlways.mapM (Q := fun _ => True) ?_)
    · intro pairs _
      exact YieldsAlways.pure trivial
    · intro (key, value) _
      exact YieldsAlways.bind (isExpired_always value) (fun _ _ => YieldsAlways.pure trivial)
  | ttl key =>
    apply YieldsAlways.bind (YieldsAlways.lift (KeyStore.get_crowded keys keyStore key))
    intro found _
    cases found with
    | none => exact YieldsAlways.pure trivial
    | some value =>
      apply YieldsAlways.bind (isExpired_always value)
      intro expired _
      apply YieldsAlways.ite
      · intro _
        exact YieldsAlways.pure trivial
      · intro _
        cases value.expiresAt with
        | none => exact YieldsAlways.pure trivial
        | some d => exact YieldsAlways.pure trivial
  | set | mset | del | expireAt => exact fun _ => False.elim

theorem del_crowded (keyStore : Store) (key : Bytes) :
    YieldsAlways (Fault.Crowded keys) (liftM (keyStore.del key) : Clocked _)
      (fun r => r.2.len ≤ keyStore.len) :=
  YieldsAlways.lift (KeyStore.del_crowded keys keyStore key)

theorem ejectIfExpired_crowded (keyStore : Store) (key : Bytes) :
    YieldsAlways (Fault.Crowded keys) (ejectIfExpired keyStore key)
      (fun keyStore' => keyStore'.len ≤ keyStore.len) := by
  unfold ejectIfExpired
  apply YieldsAlways.bind (YieldsAlways.lift (KeyStore.get_crowded keys keyStore key))
  intro found _
  cases found with
  | none => exact YieldsAlways.pure (Nat.le_refl _)
  | some value =>
    apply YieldsAlways.bind (isExpired_always value)
    intro expired _
    apply YieldsAlways.ite
    · intro _
      exact YieldsAlways.bind (del_crowded keyStore key) (fun _ hlen => YieldsAlways.pure hlen)
    · intro _
      exact YieldsAlways.pure (Nat.le_refl _)

end Keys

theorem insert_crowded {keys : ℕ} {keyStore : Store} (hkeys : keyStore.len + 1 ≤ keys) (key : Bytes)
    (value : StoredValue) :
    YieldsAlways (Fault.Crowded keys) (liftM (keyStore.insert key value) : Clocked _)
      (fun r => r.2.len ≤ keyStore.len + 1) :=
  YieldsAlways.lift
    ((KeyStore.insert_crowded keyStore key value).weaken (fun _ => Fault.Crowded.mono hkeys))

theorem insertAll_crowded {keys : ℕ} : ∀ (entries : List (Bytes × Bytes)) (keyStore : Store),
    keyStore.len + entries.length ≤ keys →
    YieldsAlways (Fault.Crowded keys) (entries.foldlM (fun (keyStore : Store) (key, value) => do
      let (_, keyStore) ← keyStore.insert key (.new value)
      return keyStore) keyStore : Clocked Store)
      (fun keyStore' => keyStore'.len ≤ keyStore.len + entries.length) := by
  intro entries
  induction entries with
  | nil =>
    intro keyStore _
    exact YieldsAlways.pure (Nat.le_refl _)
  | cons entry entries ih =>
    intro keyStore hkeys
    rw [List.length_cons] at hkeys ⊢
    rw [List.foldlM_cons]
    apply YieldsAlways.bind (P := fun keyStore' : Store => keyStore'.len ≤ keyStore.len + 1)
    · exact YieldsAlways.bind (insert_crowded (by omega) entry.1 _)
        (fun _ hlen => YieldsAlways.pure hlen)
    · intro keyStore' hlen
      apply YieldsAlways.mono (ih keyStore' (by omega))
      intro keyStore'' hlen'
      omega

/-- A command adds the keys of its pairs at most. -/
theorem applyWrite_crowded (command : Command) (keyStore : Store) :
    YieldsAlways (Fault.Crowded (keyStore.len + command.inserts)) (command.applyWrite keyStore)
      (fun r => r.2.len ≤ keyStore.len + command.inserts) := by
  cases command with
  | set key value =>
    exact YieldsAlways.bind (insert_crowded (Nat.le_refl _) key _)
      (fun _ hlen => YieldsAlways.pure hlen)
  | mset entries =>
    exact YieldsAlways.bind (insertAll_crowded entries keyStore (Nat.le_refl _))
      (fun _ hlen => YieldsAlways.pure hlen)
  | del args =>
    apply YieldsAlways.bind
      (YieldsAlways.foldlM (fun r : ℕ × Store => r.2.len ≤ keyStore.len) ?_ (0, keyStore) (Nat.le_refl _))
    · intro r hlen
      exact YieldsAlways.pure hlen
    · intro (count, keyStore') key _ hr
      have hr : keyStore'.len ≤ keyStore.len := hr
      apply YieldsAlways.bind (ejectIfExpired_crowded keyStore' key)
      intro ejected he
      exact YieldsAlways.bind (del_crowded ejected key)
        (fun _ hd => YieldsAlways.pure (Nat.le_trans hd (Nat.le_trans he hr)))
  | expireAt key timestamp =>
    apply YieldsAlways.bind (ejectIfExpired_crowded keyStore key)
    intro ejected he
    apply YieldsAlways.bind (YieldsAlways.lift (KeyStore.getMut_crowded _ ejected key _))
    intro (old, keyStore') hlen
    have hle : keyStore'.len ≤ keyStore.len := Nat.le_trans (Nat.le_of_eq hlen) he
    cases old with
    | none => exact YieldsAlways.pure hle
    | some value => exact YieldsAlways.pure hle
  | get | mget | getAll | ttl => exact fun _ => False.elim

end Command

namespace ServerState
open Command

theorem removeExpired_crowded (keys : ℕ) (self : ServerState) :
    YieldsAlways (Fault.Crowded keys) self.removeExpired
      (fun r => r.2.keyStore.len ≤ self.keyStore.len) := by
  unfold removeExpired
  apply YieldsAlways.bind (YieldsAlways.mapM (Q := fun _ => True) ?_)
  · intro expiredKeys _
    apply YieldsAlways.bind (YieldsAlways.foldlM
      (fun keyStore : Store => keyStore.len ≤ self.keyStore.len) ?_ self.keyStore (Nat.le_refl _))
    · intro keyStore hlen
      exact YieldsAlways.pure hlen
    · intro keyStore key _ hlen
      exact YieldsAlways.bind (del_crowded keyStore key)
        (fun _ hd => YieldsAlways.pure (Nat.le_trans hd hlen))
  · intro (key, value) _
    exact YieldsAlways.bind (isExpired_always value) (fun _ _ => YieldsAlways.pure trivial)

end ServerState
end SimpleKv
