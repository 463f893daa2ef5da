import SimpleKv.CommandInstants
import SimpleKv.Connection
import SimpleKv.Lib.Lockstep
import SimpleKv.ServerMap

/- What a command touches. It changes the bindings of the keys it names and of no others
   (`execute_apart`), and its response, its effect on them and the readings of the clock it
   takes are decided by the bindings of these keys, `GETALL` aside (`execute_lockstep`); the
   tables may differ in everything else. The clean-up looks at each binding once, at a
   reading of the clock that is for this key (`removeExpired_ages`), and for all instants there
   is a clock that shows them to it (`exists_clock`). -/
namespace SimpleKv
open Outcome PartialMap Expiring

/-- The two stores have the same bindings in `K`. -/
def Same (K : Set Bytes) (keyStore keyStore' : Store) : Prop :=
  ∃ m m', keyStore.Holds m ∧ keyStore'.Holds m' ∧ Set.EqOn m m' K

namespace Same
variable {K : Set Bytes} {keyStore keyStore' : Store}

theorem refl {m : Bindings} (h : keyStore.Holds m) : Same K keyStore keyStore :=
  ⟨m, m, h, h, fun _ _ => rfl⟩

theorem symm (h : Same K keyStore keyStore') : Same K keyStore' keyStore := by
  obtain ⟨m, m', hm, hm', heq⟩ := h
  exact ⟨m', m, hm', hm, heq.symm⟩

theorem get (h : Same K keyStore keyStore') {key : Bytes} (hkey : key ∈ K) :
    keyStore.get key = keyStore'.get key := by
  obtain ⟨m, m', hm, hm', heq⟩ := h
  rw [KeyStore.get_spec hm key, KeyStore.get_spec hm' key, heq hkey]

theorem eqOn_update_right {m m' : Bindings} (h : Set.EqOn m m' K) {key : Bytes} (hkey : key ∉ K)
    (value : Option StoredValue) : Set.EqOn m (Function.update m' key value) K := by
  intro key' hkey'
  have hne : key' ≠ key := fun heq => hkey (by rwa [heq] at hkey')
  rw [Function.update_of_ne hne]
  exact h hkey'

theorem eqOn_update {m m' : Bindings} (h : Set.EqOn m m' K) (key : Bytes)
    (value : Option StoredValue) :
    Set.EqOn (Function.update m key value) (Function.update m' key value) K := by
  intro key' hkey'
  by_cases heq : key' = key
  · rw [heq, Function.update_self, Function.update_self]
  · rw [Function.update_of_ne heq, Function.update_of_ne heq]
    exact h hkey'

end Same

namespace Command

/-- The keys a command names; `GETALL` looks at all there are. -/
def keys : Command → List Bytes
  | .get key | .ttl key | .set key _ | .expireAt key _ => [key]
  | .mget keys | .del keys => keys
  | .mset entries => entries.map Prod.fst
  | .getAll => []

/-- The command is about keys in `K` only. -/
def Within (K : Set Bytes) (self : Command) : Prop := self ≠ .getAll ∧ ∀ key ∈ self.keys, key ∈ K

/-- The command names no key in `K`. -/
def Apart (K : Set Bytes) (self : Command) : Prop := ∀ key ∈ self.keys, key ∉ K

/-! Commands about other keys. -/

section Frame
variable {K : Set Bytes} {keyStore other : Store}

/-- What a call that changes one binding, outside of `K`, leaves. -/
abbrev Leaves {α : Type} (K : Set Bytes) (other : Store) (x : Clocked (α × Store)) : Prop :=
  YieldsAlways (fun _ => True) x (fun r => Same K other r.2)

theorem insert_leaves (h : Same K other keyStore) {key : Bytes} (hkey : key ∉ K)
    (value : StoredValue) : Leaves K other (liftM (keyStore.insert key value)) := by
  obtain ⟨m, m', hm, hm', heq⟩ := h
  have hinsert := (KeyStore.insert_spec hm' key value).weaken (fun _ _ => trivial)
  exact YieldsAlways.lift (hinsert.mono
    (fun r hr => ⟨m, _, hm, hr.2, Same.eqOn_update_right heq hkey _⟩))

theorem del_leaves (h : Same K other keyStore) {key : Bytes} (hkey : key ∉ K) :
    Leaves K other (liftM (keyStore.del key)) := by
  obtain ⟨m, m', hm, hm', heq⟩ := h
  obtain ⟨keyStore', hrun, h', _⟩ := KeyStore.del_spec hm' key
  apply YieldsAlways.lift
  rw [hrun]
  exact ⟨m, _, hm, h', Same.eqOn_update_right heq hkey _⟩

theorem getMut_leaves (h : Same K other keyStore) {key : Bytes} (hkey : key ∉ K)
    (update : StoredValue → StoredValue) :
    Leaves K other (liftM (keyStore.getMut key update)) := by
  obtain ⟨m, m', hm, hm', heq⟩ := h
  obtain ⟨keyStore', hrun, h', _⟩ := KeyStore.getMut_spec hm' key update
  apply YieldsAlways.lift
  rw [hrun]
  exact ⟨m, _, hm, h', Same.eqOn_update_right heq hkey _⟩

theorem ejectIfExpired_leaves (h : Same K other keyStore) {key : Bytes} (hkey : key ∉ K) :
    YieldsAlways (fun _ => True) (ejectIfExpired keyStore key) (fun keyStore' =>
      Same K other keyStore') := by
  unfold ejectIfExpired
  apply YieldsAlways.bind_any
  intro found
  cases found with
  | none => exact YieldsAlways.pure h
  | some value =>
    apply YieldsAlways.bind_any
    intro expired
    apply YieldsAlways.ite
    · intro _
      exact YieldsAlways.bind (del_leaves h hkey) (fun r hr => YieldsAlways.pure hr)
    · intro _
      exact YieldsAlways.pure h

/-- A write leaves alone what it does not name. -/
theorem applyWrite_leaves (h : Same K other keyStore) {command : Command} (hapart : command.Apart K) :
    Leaves K other (command.applyWrite keyStore) := by
  unfold Apart at hapart
  cases command with
  | get | mget | getAll | ttl => exact fun _ => trivial
  | set key value =>
    apply YieldsAlways.bind (insert_leaves h (hapart key (by simp [keys])) _)
    intro r hr
    exact YieldsAlways.pure hr
  | mset entries =>
    apply YieldsAlways.bind (P := fun keyStore' => Same K other keyStore')
    · apply YieldsAlways.foldlM _ _ _ h
      intro keyStore' entry hentry h'
      have hkey := hapart entry.1 (List.mem_map.mpr ⟨entry, hentry, rfl⟩)
      exact YieldsAlways.bind (insert_leaves h' hkey _) (fun r hr => YieldsAlways.pure hr)
    · intro keyStore' h'
      exact YieldsAlways.pure h'
  | del names =>
    apply YieldsAlways.bind (P := fun r : ℕ × Store => Same K other r.2)
    · apply YieldsAlways.foldlM (fun r : ℕ × Store => Same K other r.2) _ _ h
      intro r key hkey h'
      apply YieldsAlways.bind (ejectIfExpired_leaves h' (hapart key hkey))
      intro ejected hejected
      apply YieldsAlways.bind (del_leaves hejected (hapart key hkey))
      intro r hr
      exact YieldsAlways.pure hr
    · intro r hr
      exact YieldsAlways.pure hr
  | expireAt key timestamp =>
    have hkey := hapart key (by simp [keys])
    apply YieldsAlways.bind (ejectIfExpired_leaves h hkey)
    intro ejected hejected
    apply YieldsAlways.bind (getMut_leaves hejected hkey _)
    intro r hr
    obtain ⟨found, keyStore'⟩ := r
    cases found <;> exact YieldsAlways.pure hr

end Frame

/-! Commands about the same keys. -/

section Lockstep
variable {K : Set Bytes} {keyStore keyStore' : Store}

/-- A call about a key in `K`, in both stores. -/
abbrev Alike {α : Type} (K : Set Bytes) (x y : Clocked (α × Store)) : Prop :=
  Lockstep Fault.OutOfMemory (fun r r' => r.1 = r'.1 ∧ Same K r.2 r'.2) x y

theorem get_alike (h : Same K keyStore keyStore') {key : Bytes} (hkey : key ∈ K) :
    Lockstep Fault.OutOfMemory (· = ·) (liftM (keyStore.get key) : Clocked _)
      (liftM (keyStore'.get key)) := by
  rw [h.get hkey]
  exact Lockstep.refl _

theorem insert_alike (h : Same K keyStore keyStore') {key : Bytes} (hkey : key ∈ K)
    (value : StoredValue) :
    Alike K (liftM (keyStore.insert key value)) (liftM (keyStore'.insert key value)) := by
  obtain ⟨m, m', hm, hm', heq⟩ := h
  apply Lockstep.lift
  intro r hrun
  obtain ⟨hold, hr⟩ := (KeyStore.insert_spec hm key value).of_ok hrun
  apply Yields.mono (KeyStore.insert_spec hm' key value)
  intro r' hr'
  exact ⟨by rw [hold, hr'.1, heq hkey], _, _, hr, hr'.2, Same.eqOn_update heq key _⟩

theorem del_alike (h : Same K keyStore keyStore') {key : Bytes} (hkey : key ∈ K) :
    Alike K (liftM (keyStore.del key)) (liftM (keyStore'.del key)) := by
  obtain ⟨m, m', hm, hm', heq⟩ := h
  obtain ⟨deleted, hrun, hr, _⟩ := KeyStore.del_spec hm key
  obtain ⟨deleted', hrun', hr', _⟩ := KeyStore.del_spec hm' key
  rw [hrun, hrun']
  apply Lockstep.lift
  intro r hok
  cases hok
  exact ⟨heq hkey, _, _, hr, hr', Same.eqOn_update heq key _⟩

theorem getMut_alike (h : Same K keyStore keyStore') {key : Bytes} (hkey : key ∈ K)
    (update : StoredValue → StoredValue) :
    Alike K (liftM (keyStore.getMut key update)) (liftM (keyStore'.getMut key update)) := by
  obtain ⟨m, m', hm, hm', heq⟩ := h
  obtain ⟨updated, hrun, hr, _⟩ := KeyStore.getMut_spec hm key update
  obtain ⟨updated', hrun', hr', _⟩ := KeyStore.getMut_spec hm' key update
  rw [hrun, hrun']
  apply Lockstep.lift
  intro r hok
  cases hok
  rw [heq hkey] at hr
  exact ⟨heq hkey, _, _, hr, hr', Same.eqOn_update heq key _⟩

theorem ejectIfExpired_alike (h : Same K keyStore keyStore') {key : Bytes} (hkey : key ∈ K) :
    Lockstep Fault.OutOfMemory (Same K) (ejectIfExpired keyStore key)
      (ejectIfExpired keyStore' key) := by
  unfold ejectIfExpired
  apply Lockstep.bind (get_alike h hkey)
  intro found found' hfound
  subst hfound
  cases found with
  | none => exact Lockstep.pure h
  | some value =>
    apply Lockstep.bind (Lockstep.refl value.isExpired)
    intro expired expired' hexpired
    subst hexpired
    apply Lockstep.ite
    · intro _
      exact Lockstep.bind (del_alike h hkey) (fun r r' hr => Lockstep.pure hr.2)
    · intro _
      exact Lockstep.pure h

theorem applyGet_alike (h : Same K keyStore keyStore') {key : Bytes} (hkey : key ∈ K) :
    Lockstep Fault.OutOfMemory (· = ·) (applyGet key keyStore) (applyGet key keyStore') := by
  unfold applyGet
  rw [h.get hkey]
  exact Lockstep.refl _

theorem applyRead_alike (h : Same K keyStore keyStore') {command : Command}
    (hwithin : command.Within K) :
    Lockstep Fault.OutOfMemory (· = ·) (command.applyRead keyStore) (command.applyRead keyStore') := by
  obtain ⟨hall, hkeys⟩ := hwithin
  cases command with
  | getAll => exact absurd rfl hall
  | get key => exact applyGet_alike h (hkeys key (by simp [keys]))
  | mget names =>
    apply Lockstep.bind (Lockstep.mapM (fun key hkey => applyGet_alike h (hkeys key hkey)))
    intro responses responses' heq
    exact Lockstep.pure (by rw [heq])
  | ttl key =>
    show Lockstep _ _ (applyTtl key keyStore) (applyTtl key keyStore')
    unfold applyTtl
    rw [h.get (hkeys key (by simp [keys]))]
    exact Lockstep.refl _
  | set | mset | del | expireAt => exact Lockstep.refl _

theorem applyWrite_alike (h : Same K keyStore keyStore') {command : Command}
    (hwithin : command.Within K) :
    Alike K (command.applyWrite keyStore) (command.applyWrite keyStore') := by
  obtain ⟨_, hkeys⟩ := hwithin
  cases command with
  | get | mget | getAll | ttl =>
    intro clock r clock' hrun
    cases hrun
  | set key value =>
    apply Lockstep.bind (insert_alike h (hkeys key (by simp [keys])) _)
    intro r r' hr
    exact Lockstep.pure ⟨rfl, hr.2⟩
  | mset entries =>
    apply Lockstep.bind (R := Same K)
    · apply Lockstep.foldlM _ _ _ h
      intro store store' entry hentry h'
      have hkey := hkeys entry.1 (List.mem_map.mpr ⟨entry, hentry, rfl⟩)
      exact Lockstep.bind (insert_alike h' hkey _) (fun r r' hr => Lockstep.pure hr.2)
    · intro store store' h'
      exact Lockstep.pure ⟨rfl, h'⟩
  | del names =>
    apply Lockstep.bind (R := fun r r' : ℕ × Store => r.1 = r'.1 ∧ Same K r.2 r'.2)
    · apply Lockstep.foldlM (S := fun r r' : ℕ × Store => r.1 = r'.1 ∧ Same K r.2 r'.2) _ (0, keyStore)
        (0, keyStore') ⟨rfl, h⟩
      intro r r' key hkey h'
      apply Lockstep.bind (ejectIfExpired_alike h'.2 (hkeys key hkey))
      intro ejected ejected' hejected
      apply Lockstep.bind (del_alike hejected (hkeys key hkey))
      intro d d' hd
      exact Lockstep.pure ⟨by rw [hd.1, h'.1], hd.2⟩
    · intro r r' hr
      exact Lockstep.pure ⟨by rw [hr.1], hr.2⟩
  | expireAt key timestamp =>
    have hkey := hkeys key (by simp [keys])
    apply Lockstep.bind (ejectIfExpired_alike h hkey)
    intro ejected ejected' hejected
    apply Lockstep.bind (getMut_alike hejected hkey _)
    intro r r' hr
    obtain ⟨found, store⟩ := r
    obtain ⟨found', store'⟩ := r'
    obtain ⟨rfl, hstores⟩ := hr
    cases found <;> exact Lockstep.pure ⟨rfl, hstores⟩

end Lockstep

end Command

namespace ServerState
variable {K : Set Bytes} {self other : ServerState}

/-- A command about other keys leaves the bindings in `K` alone. -/
theorem execute_apart (h : Same K other.keyStore self.keyStore) {command : Command}
    (hapart : command.Apart K) :
    YieldsAlways (fun _ => True) (self.execute command none) (fun r =>
      Same K other.keyStore r.2.keyStore) := by
  unfold execute
  apply YieldsAlways.ite
  · intro _
    exact YieldsAlways.bind (Command.applyWrite_leaves h hapart) (fun r hr => YieldsAlways.pure hr)
  · intro _
    exact YieldsAlways.bind_any (fun _ => YieldsAlways.pure h)

/-- A command about keys in `K` is answered by the bindings in `K`. -/
theorem execute_lockstep (h : Same K self.keyStore other.keyStore) {command : Command}
    (hwithin : command.Within K) :
    Lockstep Fault.OutOfMemory (fun r r' => r.1 = r'.1 ∧ Same K r.2.keyStore r'.2.keyStore)
      (self.execute command none) (other.execute command none) := by
  unfold execute
  apply Lockstep.ite
  · intro _
    exact Lockstep.bind (Command.applyWrite_alike h hwithin) (fun r r' hr => Lockstep.pure hr)
  · intro _
    apply Lockstep.bind (Command.applyRead_alike h hwithin)
    intro response response' heq
    exact Lockstep.pure ⟨heq, h⟩

/-! The clean-up, whatever the clock shows. -/

/-- What is left of the bindings when each is looked at at an instant of its own. -/
def agedAt (instants : Bytes → UInt64) (m : Bindings) : Bindings :=
  fun key => (m key).filter (fun value => value.LiveAt (instants key))

/-- A look of the clean-up at a pair. -/
def look (pair : Bytes × StoredValue) : Clocked (Option Bytes) := do
  return if ← pair.2.isExpired then some pair.1 else none

/-- What it collects at `t`. -/
def collected (t : UInt64) (pair : Bytes × StoredValue) : Option Bytes :=
  if ¬pair.2.LiveAt t then some pair.1 else none

theorem look_run (pair : Bytes × StoredValue) (clock : Clock) : (look pair).run clock =
    .ok (collected clock.head pair, if pair.2.expiresAt.isSome then clock.tail else clock) := by
  show (do let p ← pair.2.isExpired.run clock; _) = _
  rw [pair.2.isExpired_run clock]
  unfold collected
  by_cases hl : pair.2.LiveAt clock.head <;> simp [hl] <;> rfl

/-- A value without a deadline is collected at no time. -/
theorem collected_of_none {pair : Bytes × StoredValue} (h : pair.2.expiresAt = none) (t : UInt64) :
    collected t pair = none := by
  simp [collected, Live, h]

/-- The reading of the clock at which a scan comes to `key`. For a value without a deadline
    the clock is not read. -/
def readingFor (key : Bytes) : List (Bytes × StoredValue) → Clock → Option UInt64
  | [], _ => none
  | pair :: l, clock =>
    if pair.2.expiresAt.isSome then
      if pair.1 = key then some clock.head else readingFor key l clock.tail
    else readingFor key l clock

theorem readingFor_shown {key : Bytes} {t : UInt64} : ∀ {l : List (Bytes × StoredValue)} {clock : Clock},
    readingFor key l clock = some t → ∃ n, t = clock.get n
  | [], clock, h => by cases h
  | pair :: l, clock, h => by
    unfold readingFor at h
    split at h
    · split at h
      · cases h
        exact ⟨0, rfl⟩
      · obtain ⟨n, hn⟩ := readingFor_shown h
        exact ⟨n + 1, hn⟩
    · exact readingFor_shown h

/-- The clock is read for the keys whose values have a deadline. -/
theorem readingFor_isSome {key : Bytes} : ∀ {l : List (Bytes × StoredValue)} {clock : Clock},
    (readingFor key l clock).isSome ↔ ∃ value, (key, value) ∈ l ∧ value.expiresAt.isSome
  | [], clock => by simp [readingFor]
  | (key', value) :: l, clock => by
    have hsplit : (∃ v, (key, v) ∈ (key', value) :: l ∧ v.expiresAt.isSome) ↔
        (key' = key ∧ value.expiresAt.isSome) ∨ ∃ v, (key, v) ∈ l ∧ v.expiresAt.isSome := by
      simp only [List.mem_cons, Prod.mk.injEq, or_and_right, exists_or, and_assoc,
        exists_and_left, exists_eq_left]
      rw [eq_comm]
    rw [hsplit]
    unfold readingFor
    by_cases hd : value.expiresAt.isSome = true
    · by_cases hkey : key' = key
      · simp [hd, hkey]
      · rw [if_pos hd, if_neg hkey, readingFor_isSome]
        simp [hkey]
    · rw [if_neg hd, readingFor_isSome]
      simp [hd]

/-- The looks of a scan, each at the reading for its key. -/
theorem looks_run (t : UInt64) : ∀ {l : List (Bytes × StoredValue)} (clock : Clock),
    (l.map Prod.fst).Nodup → ∃ clock' : Clock, (l.mapM look).run clock =
      .ok (l.map (fun pair => collected ((readingFor pair.1 l clock).getD t) pair), clock')
  | [], clock, _ => ⟨clock, rfl⟩
  | pair :: l, clock, hl => by
    rw [List.map_cons, List.nodup_cons] at hl
    obtain ⟨clock', hrun⟩ :=
      looks_run t (if pair.2.expiresAt.isSome then clock.tail else clock) hl.2
    refine ⟨clock', ?_⟩
    have hhead : collected ((readingFor pair.1 (pair :: l) clock).getD t) pair =
        collected clock.head pair := by
      cases hd : pair.2.expiresAt with
      | none => rw [collected_of_none hd, collected_of_none hd]
      | some d => simp [readingFor, hd]
    have htail : l.map (fun p => collected ((readingFor p.1 (pair :: l) clock).getD t) p) =
        l.map (fun p => collected ((readingFor p.1 l
          (if pair.2.expiresAt.isSome then clock.tail else clock)).getD t) p) := by
      apply List.map_congr_left
      intro p hp
      have hne : pair.1 ≠ p.1 := fun heq => hl.1 (heq ▸ List.mem_map.mpr ⟨p, hp, rfl⟩)
      rw [readingFor, if_neg hne]
      split <;> rfl
    rw [List.mapM_cons, StateT.run_bind, look_run, ok_bind, StateT.run_bind, hrun, List.map_cons,
      hhead, htail]
    rfl

/-- For all instants there is a clock that shows them. -/
theorem exists_clock (instants : Bytes → UInt64) : ∀ l : List (Bytes × StoredValue),
    ∃ clock : Clock, ∀ key t, readingFor key l clock = some t → t = instants key
  | [] => ⟨Stream'.const 0, fun key t h => by cases h⟩
  | pair :: l => by
    obtain ⟨clock, hclock⟩ := exists_clock instants l
    by_cases hd : pair.2.expiresAt.isSome = true
    · refine ⟨Stream'.cons (instants pair.1) clock, fun key t h => ?_⟩
      rw [readingFor, if_pos hd] at h
      split at h
      · next hkey =>
        cases h
        rw [← hkey]
        rfl
      · exact hclock key t h
    · refine ⟨clock, fun key t h => ?_⟩
      rw [readingFor, if_neg hd] at h
      exact hclock key t h

theorem mem_collected {m : Bindings} {keyStore : Store} (h : keyStore.Holds m)
    {instants : Bytes → UInt64} {key : Bytes} :
    key ∈ (keyStore.iter.map (fun pair => collected (instants pair.1) pair)).reduceOption ↔
      ∃ value, m key = some value ∧ ¬value.LiveAt (instants key) := by
  rw [List.reduceOption_mem_iff, List.mem_map]
  constructor
  · intro hmem
    obtain ⟨⟨key', value⟩, hpair, hcollected⟩ := hmem
    unfold collected at hcollected
    split at hcollected
    · next hl =>
      cases hcollected
      exact ⟨value, h.lists.mem_iff.mp hpair, hl⟩
    · cases hcollected
  · intro hvalue
    obtain ⟨value, hm, hl⟩ := hvalue
    exact ⟨(key, value), h.lists.mem_iff.mpr hm, if_pos hl⟩

theorem drop_collected {m : Bindings} {keyStore : Store} (h : keyStore.Holds m)
    (instants : Bytes → UInt64) :
    drop (keyStore.iter.map (fun pair => collected (instants pair.1) pair)).reduceOption m =
      agedAt instants m := by
  funext key
  unfold drop agedAt
  split
  · next hk =>
    obtain ⟨value, hm, hl⟩ := (mem_collected h).mp hk
    rw [hm, Option.filter_some, decide_eq_false hl]
    rfl
  · next hk =>
    cases hm : m key with
    | none => rfl
    | some value =>
      have hl : value.LiveAt (instants key) := by
        by_contra hl
        exact hk ((mem_collected h).mpr ⟨value, hm, hl⟩)
      rw [Option.filter_some, decide_eq_true hl]
      rfl

/-- Deletions ask for nothing. -/
theorem foldlM_del : ∀ (keys : List Bytes) {keyStore : Store} {m : Bindings}, keyStore.Holds m →
    ∀ clock : Clock, ∃ keyStore', (keys.foldlM (fun (keyStore : Store) key => do
      let (_, keyStore) ← keyStore.del key
      return keyStore : Store → Bytes → Clocked Store) keyStore).run clock = .ok (keyStore', clock) ∧
      keyStore'.Holds (drop keys m)
  | [], keyStore, m, h, clock => by
    have hnil : drop [] m = m := funext (fun key => if_neg List.not_mem_nil)
    exact ⟨keyStore, rfl, by rw [hnil]; exact h⟩
  | key :: keys, keyStore, m, h, clock => by
    obtain ⟨deleted, hdel, h', _⟩ := KeyStore.del_spec h key
    obtain ⟨keyStore', hrun, h''⟩ := foldlM_del keys h' clock
    refine ⟨keyStore', ?_, ?_⟩
    · rw [List.foldlM_cons, StateT.run_bind]
      simp only [hdel]
      exact hrun
    · rw [← drop_singleton, ← drop_append] at h''
      exact h''

/-- The clean-up, from what its looks show. -/
theorem removeExpired_of_looks {self : ServerState} {m : Bindings} (h : self.keyStore.Holds m)
    {instants : Bytes → UInt64} {clock clock' : Clock}
    (hlooks : (self.keyStore.iter.mapM look).run clock =
      .ok (self.keyStore.iter.map (fun pair => collected (instants pair.1) pair), clock')) :
    ∃ count self', self.removeExpired.run clock = .ok ((count, self'), clock') ∧
      self'.keyStore.Holds (agedAt instants m) := by
  obtain ⟨keyStore', hrun, h'⟩ := foldlM_del
    (self.keyStore.iter.map (fun pair => collected (instants pair.1) pair)).reduceOption h clock'
  rw [drop_collected h] at h'
  refine ⟨(self.keyStore.iter.map (fun pair => collected (instants pair.1) pair)).reduceOption.length,
    { self with keyStore := keyStore' }, ?_, h'⟩
  unfold removeExpired
  rw [StateT.run_bind]
  show (do let p ← (self.keyStore.iter.mapM look).run clock; _) = _
  rw [hlooks, ok_bind, StateT.run_bind, hrun]
  rfl

/-- The clean-up looks at each binding at the reading for its key, and removes it if it is
    past its deadline then. -/
theorem removeExpired_ages {self : ServerState} {m : Bindings} (h : self.keyStore.Holds m)
    (clock : Clock) (t : UInt64) : ∃ count self' clock',
      self.removeExpired.run clock = .ok ((count, self'), clock') ∧
      self'.keyStore.Holds
        (agedAt (fun key => (readingFor key self.keyStore.iter clock).getD t) m) := by
  obtain ⟨clock', hlooks⟩ := looks_run t clock h.lists.distinct
  have hages := @removeExpired_of_looks self m h
    (fun key => (readingFor key self.keyStore.iter clock).getD t) clock clock' hlooks
  obtain ⟨count, self', hrun, h'⟩ := hages
  exact ⟨count, self', clock', hrun, h'⟩

end ServerState

end SimpleKv
