import SimpleKv.KeyStoreLayout
import SimpleKv.KeyStoreMemory
import SimpleKv.Lib.PartialMap

/- The key store is a finite map. `Holds store m`: the store is well formed and its
   bindings are those of `m`. Each operation returns what it returns on `m` and
   leaves a store that holds the map `m` becomes; growth is the only place where a
   run can stop, and it stops only by asking for more memory than there is
   (`Completes`). -/
namespace SimpleKv
namespace KeyStore
open PartialMap Outcome RobinHood

variable {K V : Type}

/-- Free slots are left at all times: the load stays below three quarters. -/
structure Holds (store : KeyStore K V) (m : K → Option V) : Prop where
  capacity : IsCapacity store.buckets.length
  laidOut : LaidOut store.hasher store.buckets.length store.buckets
  lists : Lists store.iter m
  len_eq : store.len = store.iter.length
  load : 4 * store.len < 3 * store.buckets.length

theorem IsCapacity.neZero {n : ℕ} (h : IsCapacity n) : NeZero n :=
  ⟨Nat.ne_of_gt (Nat.lt_trans (by decide) h.two_lt)⟩

/-- A table that fits into memory twice as large has the masked index. -/
theorem IsCapacity.double {n : ℕ} (h : IsCapacity n) (hle : n * 2 * entrySize ≤ isizeMax) :
    IsCapacity (n * 2) := by
  obtain ⟨k, hk, _, rfl⟩ := h
  refine ⟨k + 1, by omega, ?_, rfl⟩
  apply Nat.le_of_not_lt
  intro hlt
  have hpow : 2^63 ≤ 2^k := Nat.pow_le_pow_right (by decide) (by omega)
  unfold entrySize isizeMax at hle
  omega

theorem withHasher_holds (hasher : K → UInt64) :
    Holds (withHasher hasher : KeyStore K V) (fun _ => none) where
  capacity := ⟨4, by decide, by decide, by simp [withHasher, startCapacity]⟩
  laidOut := by
    rw [show (withHasher hasher : KeyStore K V).buckets.length = startCapacity from
      List.length_replicate]
    exact LaidOut.empty hasher startCapacity
  lists := Lists.nil
  len_eq := rfl
  load := by simp [withHasher, startCapacity]

namespace Holds
variable {self : KeyStore K V} {m : K → Option V}

theorem exists_free (h : Holds self m) : ∃ z, slots self.buckets.length self.buckets z = none := by
  have := h.capacity.neZero
  have hlen : (bindings self.buckets).length < self.buckets.length := by
    have h1 : self.len = (bindings self.buckets).length := h.len_eq
    have h2 := h.load
    omega
  exact KeyStore.exists_free rfl hlen

/-- Bound keys have an entry, and it carries the value. -/
theorem exists_entry (h : Holds self m) {key : K} {v : V} (hm : m key = some v) :
    ∃ i e, slots self.buckets.length self.buckets i = some e ∧ e.key = key ∧ e.value = v := by
  have := h.capacity.neZero
  obtain ⟨e, he, hkv⟩ := List.mem_map.mp (h.lists.mem_iff.mpr hm)
  obtain ⟨i, hi⟩ := exists_slots rfl he
  exact ⟨i, e, hi, congrArg Prod.fst hkv, congrArg Prod.snd hkv⟩

theorem value_of_slots (h : Holds self m) {i : ZMod self.buckets.length} {e : Entry K V}
    (he : slots self.buckets.length self.buckets i = some e) : m e.key = some e.value :=
  h.lists.mem_iff.mp (mem_bindings_of_slots he)

end Holds

/-! Growth. -/

section Resize
variable {hasher : K → UInt64} {n : ℕ}

theorem insertEntry_spec (hn : IsCapacity n) {self : KeyStore K V}
    (hl : LaidOut hasher n self.buckets) (hfree : (bindings self.buckets).length < n)
    {entry : Entry K V} (hhash : entry.hash = hasher entry.key) :
    ∃ buckets, self.insertEntry entry = .ok { self with buckets } ∧ LaidOut hasher n buckets ∧
      (bindings buckets).Perm ((entry.key, entry.value) :: bindings self.buckets) := by
  have := hn.neZero
  obtain ⟨z, hz⟩ := KeyStore.exists_free hl.length hfree
  have hfuel : gap (slotOf n { entry with psl := 0 }) z < self.buckets.length := by
    rw [hl.length]; exact gap_lt _ _
  obtain ⟨buckets, hrun, hl', hp⟩ := insertEntryLoop_spec hasher hn self.buckets.length
    self.buckets { entry with psl := 0 } z hl hhash (.inl rfl) hz hfuel
  refine ⟨buckets, ?_, hl', hp⟩
  rw [insertEntryLoop] at hrun
  rw [insertEntry, insertEntryWith, hrun]
  rfl

/-- Entries put one by one into a table with room for them. -/
theorem insertEntry_foldlM (hn : IsCapacity n) : ∀ (entries : List (Entry K V))
    {self : KeyStore K V}, LaidOut hasher n self.buckets →
    (∀ e ∈ entries, e.hash = hasher e.key) →
    (bindings self.buckets).length + entries.length ≤ n →
    ∃ buckets, entries.foldlM insertEntry self = .ok { self with buckets } ∧
      LaidOut hasher n buckets ∧ (bindings buckets).Perm
        (entries.map (fun e => (e.key, e.value)) ++ bindings self.buckets) := by
  intro entries
  induction entries with
  | nil =>
    intro self hl hhash hroom
    exact ⟨self.buckets, rfl, hl, List.Perm.refl _⟩
  | cons e entries ih =>
    intro self hl hhash hroom
    rw [List.length_cons] at hroom
    obtain ⟨buckets, hrun, hl', hp⟩ :=
      insertEntry_spec hn hl (by omega) (hhash e List.mem_cons_self)
    have hlen := hp.length_eq
    rw [List.length_cons] at hlen
    obtain ⟨buckets', hrest, hl'', hp'⟩ := @ih { self with buckets } hl'
      (fun e' h' => hhash e' (List.mem_cons_of_mem _ h')) (by
        show (bindings buckets).length + entries.length ≤ n
        omega)
    refine ⟨buckets', ?_, hl'', ?_⟩
    · rw [List.foldlM_cons, hrun]
      exact hrest
    · let moved := entries.map (fun e => (e.key, e.value))
      calc List.Perm (bindings buckets') (moved ++ bindings buckets) := hp'
        List.Perm _ (moved ++ (e.key, e.value) :: bindings self.buckets) := hp.append_left moved
        List.Perm _ ((e.key, e.value) :: (moved ++ bindings self.buckets)) := List.perm_middle

/-- The larger table holds the same bindings, under the new mask. -/
theorem resize_ok (hn : IsCapacity n) (self : KeyStore K V)
    (hl : LaidOut self.hasher n self.buckets) (hmem : n * 2 * entrySize ≤ isizeMax) :
    ∃ buckets, self.resize = .ok { self with buckets } ∧ LaidOut self.hasher (n * 2) buckets ∧
      (bindings buckets).Perm (bindings self.buckets) := by
  have := hn.neZero
  have hnil : bindings (List.replicate (n * 2) (none : Option (Entry K V))) = [] := by
    simp [bindings]
  have hsize : self.buckets.reduceOption.length ≤ self.buckets.length :=
    List.reduceOption_length_le _
  have hhash : ∀ e ∈ self.buckets.reduceOption, e.hash = self.hasher e.key := by
    intro e he
    obtain ⟨i, hi⟩ := exists_slots hl.length he
    exact hl.hashed hi
  let larger : KeyStore K V := { self with buckets := List.replicate (n * 2) none }
  have hempty : LaidOut self.hasher (n * 2) larger.buckets := LaidOut.empty self.hasher (n * 2)
  obtain ⟨buckets, hrun, hlaid, hp⟩ := insertEntry_foldlM (hn.double hmem)
    self.buckets.reduceOption hempty hhash (by
      show (bindings (List.replicate (n * 2) none)).length + _ ≤ n * 2
      rw [hl.length] at hsize
      rw [hnil, List.length_nil]
      omega)
  rw [show bindings larger.buckets = [] from hnil, List.append_nil] at hp
  refine ⟨buckets, ?_, hlaid, hp⟩
  rw [resize, resizeWith_ok (by rw [hl.length]; exact hmem), hl.length]
  exact hrun

/-- A table of twice the size cannot always be addressed. -/
theorem resize_outOfMemory (self : KeyStore K V)
    (hmem : isizeMax < self.buckets.length * 2 * entrySize) :
    ∃ f, self.resize = .error f ∧ f.OutOfMemory := by
  refine ⟨.capacityOverflow (self.buckets.length * 2 * entrySize) hmem, ?_, trivial⟩
  unfold resize resizeWith reserve
  simp only [dif_pos hmem]
  rfl

end Resize

/-! The operations. -/

section Operations
variable [DecidableEq K] {self : KeyStore K V} {m : K → Option V}

theorem indexOf_absent (h : Holds self m) {key : K} (hm : m key = none) :
    self.indexOf key = .ok none := by
  have := h.capacity.neZero
  obtain ⟨z, hz⟩ := h.exists_free
  refine indexOfLoop_absent h.capacity h.laidOut _ (fun {i e} he hk => ?_) hz _ _ (gap_lt _ _)
  have := h.value_of_slots he
  rw [hk, hm] at this
  cases this

theorem indexOf_present (h : Holds self m) {key : K} {v : V} (hm : m key = some v) :
    ∃ (x : ℕ) (e : Entry K V), self.indexOf key = .ok (some (x % self.buckets.length)) ∧
      slots self.buckets.length self.buckets (x : ZMod self.buckets.length) = some e ∧
      e.key = key ∧ e.value = v := by
  have := h.capacity.neZero
  obtain ⟨z, hz⟩ := h.exists_free
  obtain ⟨i, e, he, rfl, rfl⟩ := h.exists_entry hm
  obtain ⟨x, b, hrun, hb, hk⟩ := indexOfLoop_present h.capacity h.laidOut he
    self.buckets.length 0 (Nat.zero_le _) (by rw [Nat.zero_add]; exact h.laidOut.psl_lt he hz)
  refine ⟨x, b, ?_, hb, hk, ?_⟩
  · rw [indexOf, ← h.laidOut.hashed he]
    exact hrun
  · have hv := h.value_of_slots hb
    rw [hk, hm] at hv
    exact (Option.some.inj hv).symm

theorem get_spec (h : Holds self m) (key : K) : self.get key = .ok (m key) := by
  have := h.capacity.neZero
  unfold get getWith
  cases hm : m key with
  | none =>
    rw [indexOf_absent h hm]
    rfl
  | some v =>
    obtain ⟨x, e, hrun, he, _, rfl⟩ := indexOf_present h hm
    rw [hrun]
    simp only [bind, Except.bind, index_slots rfl x, he]
    rfl

theorem getMut_spec (h : Holds self m) (key : K) (update : V → V) :
    ∃ self', self.getMut key update = .ok (m key, self') ∧
      Holds self' (Function.update m key ((m key).map update)) ∧
      self'.buckets.length = self.buckets.length := by
  have := h.capacity.neZero
  unfold getMut getMutWith
  cases hm : m key with
  | none =>
    rw [indexOf_absent h hm]
    refine ⟨self, rfl, ?_, rfl⟩
    rw [Option.map_none, ← hm, Function.update_eq_self]
    exact h
  | some v =>
    obtain ⟨x, e, hrun, he, rfl, rfl⟩ := indexOf_present h hm
    obtain ⟨rest, hold, hnew⟩ := bindings_exchange rfl he { e with value := update e.value }
    have hlists := (h.lists.exchange hold hnew).2
    have hcount := calc self.len = (bindings self.buckets).length := h.len_eq
      _ = rest.length + 1 := hold.length_eq
      _ = _ := hnew.length_eq.symm
    rw [hrun]
    simp only [bind, Except.bind, index_slots rfl x, he]
    refine ⟨_, rfl, ⟨?_, ?_, hlists, hcount, ?_⟩, List.length_set ..⟩
    · rw [List.length_set]; exact h.capacity
    · rw [List.length_set]
      exact h.laidOut.revalue he _
    · rw [List.length_set]; exact h.load

omit [DecidableEq K] in
/-- Emptying the bucket of an entry and shifting the others back removes its binding, and
    no other. -/
theorem Holds.shiftLoop (h : Holds self m) {x : ℕ} {e : Entry K V}
    (he : slots self.buckets.length self.buckets (x : ZMod self.buckets.length) = some e) :
    ∃ buckets, KeyStore.shiftLoop self.buckets.length
        (self.buckets.set (x % self.buckets.length) none) (x % self.buckets.length) = .ok buckets ∧
      LaidOut self.hasher self.buckets.length buckets ∧
      (bindings self.buckets).Perm ((e.key, e.value) :: bindings buckets) := by
  have := h.capacity.neZero
  obtain ⟨z, hz⟩ := h.exists_free
  have hzx : z ≠ (x : ZMod self.buckets.length) := by
    intro heq
    subst heq
    rw [hz] at he
    cases he
  -- the slot of the entry is emptied, and the shift closes the hole this leaves
  have hset := slots_set (n := self.buckets.length) rfl x (none : Option (Entry K V))
  have hhollow := h.laidOut.layout.remove h.capacity.two_lt he
  rw [← hset] at hhollow
  obtain ⟨buckets, hshift, hlaid, hp⟩ := shiftLoop_spec self.hasher h.capacity
    self.buckets.length (self.buckets.set (x % self.buckets.length) none) x e.psl z
    (List.length_set ..) hhollow
    (by
      intro i c hc
      rw [hset] at hc
      exact PartialMap.forall_update (P := fun _ c => c.hash = self.hasher c.key)
        (fun _ _ => h.laidOut.hashed) (fun c heq => by cases heq) i c hc)
    (by rw [hset, Function.update_of_ne hzx]; exact hz) hzx (gap_lt _ _)
  have hout := bindings_set (n := self.buckets.length) rfl x (none : Option (Entry K V))
  rw [he] at hout
  refine ⟨buckets, hshift, hlaid, ?_⟩
  calc List.Perm (bindings self.buckets) ((e.key, e.value) ::
        bindings (self.buckets.set (x % self.buckets.length) none)) := hout.symm
    List.Perm _ ((e.key, e.value) :: bindings buckets) := hp.symm.cons _

/-- The table stays as large as it is. -/
theorem del_spec (h : Holds self m) (key : K) :
    ∃ self', self.del key = .ok (m key, self') ∧ Holds self' (Function.update m key none) ∧
      self'.buckets.length = self.buckets.length := by
  have := h.capacity.neZero
  unfold del
  rw [delLoop_eq]
  cases hm : m key with
  | none =>
    have hrun := indexOf_absent h hm
    rw [indexOf] at hrun
    rw [hrun]
    refine ⟨self, rfl, ?_, rfl⟩
    rw [← hm, Function.update_eq_self]
    exact h
  | some v =>
    obtain ⟨x, e, hrun, he, rfl, rfl⟩ := indexOf_present h hm
    rw [indexOf] at hrun
    obtain ⟨buckets, hshift, hlaid, hrest⟩ := h.shiftLoop he
    have hlists := (Lists.cons_iff.mp (h.lists.perm hrest.symm)).2
    have hcount : self.len - 1 = (bindings buckets).length := by
      have h1 : self.len = (bindings self.buckets).length := h.len_eq
      have h2 := hrest.length_eq
      rw [List.length_cons] at h2
      omega
    rw [hrun]
    simp only [bind, Except.bind, index_slots rfl x, he, hshift]
    refine ⟨_, rfl, ⟨?_, ?_, hlists, hcount, ?_⟩, hlaid.length⟩
    · rw [hlaid.length]; exact h.capacity
    · rw [hlaid.length]; exact hlaid
    · show 4 * (self.len - 1) < 3 * buckets.length
      rw [hlaid.length]
      have := h.load
      omega

omit [DecidableEq K] in
/-- The load test and what follows it: the store grows, or has room. -/
theorem grow_ok {n : ℕ} (hn : IsCapacity n) (store : KeyStore K V)
    (hlaid : LaidOut store.hasher n store.buckets) (hlists : Lists store.iter m)
    (hcount : store.len = store.iter.length) (hload : 4 * store.len < 3 * n + 4)
    (hmem : 3 * n ≤ 4 * store.len → n * 2 * entrySize ≤ isizeMax) :
    ∃ store', (if store.shouldResize then store.resize else pure store) = .ok store' ∧
      Holds store' m ∧ store'.buckets.length = if 3 * n ≤ 4 * store.len then n * 2 else n := by
  have hfull : store.shouldResize = decide (3 * n ≤ 4 * store.len) := by
    unfold shouldResize
    rw [hlaid.length]
  rw [hfull]
  by_cases hroom : 3 * n ≤ 4 * store.len
  · obtain ⟨buckets, hrun, hlaid', hp⟩ := resize_ok hn store hlaid (hmem hroom)
    have hcount' := calc store.len = store.iter.length := hcount
      _ = (bindings buckets).length := hp.length_eq.symm
    rw [if_pos (decide_eq_true hroom), if_pos hroom]
    refine ⟨_, hrun, ⟨?_, ?_, hlists.perm hp, hcount', ?_⟩, hlaid'.length⟩
    · rw [hlaid'.length]; exact hn.double (hmem hroom)
    · rw [hlaid'.length]; exact hlaid'
    · rw [hlaid'.length]
      have := hn.two_lt
      show 4 * store.len < _
      omega
  · rw [if_neg (by simpa using hroom), if_neg hroom]
    refine ⟨store, rfl, ⟨?_, ?_, hlists, hcount, ?_⟩, hlaid.length⟩
    · rw [hlaid.length]; exact hn
    · rw [hlaid.length]; exact hlaid
    · rw [hlaid.length]
      omega

/-- What `insert` makes of the table before the load test: for a bound key the value is
    exchanged, and an entry with a new key is put in. -/
theorem Holds.insertLoop_present (h : Holds self m) {key : K} {v : V} (hm : m key = some v)
    (value : V) : ∃ buckets,
      insertLoop self.buckets.length self.buckets ⟨key, value, 0, self.hasher key⟩
        (getBucketIndex self.buckets (self.hasher key) 0) = .ok (some v, buckets) ∧
      LaidOut self.hasher self.buckets.length buckets ∧
      ∃ rest, (bindings self.buckets).Perm ((key, v) :: rest) ∧
        (bindings buckets).Perm ((key, value) :: rest) := by
  have := h.capacity.neZero
  obtain ⟨z, hz⟩ := h.exists_free
  obtain ⟨i, e, he, rfl, rfl⟩ := h.exists_entry hm
  obtain ⟨old, buckets, hrun, hlaid, rest, hold, hnew⟩ := KeyStore.insertLoop_present h.capacity
    h.laidOut he self.buckets.length ⟨e.key, value, 0, self.hasher e.key⟩ rfl
    (h.laidOut.hashed he).symm (Nat.zero_le _)
    (by rw [Nat.zero_add]; exact h.laidOut.psl_lt he hz)
  have hv := (h.lists.exchange hold hnew).1
  rw [hm] at hv
  cases hv
  exact ⟨buckets, hrun, hlaid, rest, hold, hnew⟩

theorem Holds.insertLoop_absent (h : Holds self m) {key : K} (hm : m key = none) (value : V) :
    ∃ buckets, insertLoop self.buckets.length self.buckets ⟨key, value, 0, self.hasher key⟩
        (getBucketIndex self.buckets (self.hasher key) 0) = .ok (none, buckets) ∧
      LaidOut self.hasher self.buckets.length buckets ∧
      (bindings buckets).Perm ((key, value) :: bindings self.buckets) := by
  have := h.capacity.neZero
  obtain ⟨z, hz⟩ := h.exists_free
  have hnodup : (key :: (bindings self.buckets).map Prod.fst).Nodup :=
    List.nodup_cons.mpr ⟨fun hk => h.lists.mem_keys.mp hk hm, h.lists.distinct⟩
  obtain ⟨buckets, hrun, hlaid, hp⟩ := insertEntryLoop_spec self.hasher h.capacity
    self.buckets.length self.buckets ⟨key, value, 0, self.hasher key⟩ z h.laidOut rfl (.inl rfl)
    hz (gap_lt _ _)
  have habsent := KeyStore.insertLoop_absent h.capacity self.buckets.length self.buckets
    ⟨key, value, 0, self.hasher key⟩ rfl hnodup
  rw [hrun] at habsent
  exact ⟨buckets, habsent, hlaid, hp⟩

theorem insert_present (h : Holds self m) {key : K} {v : V} (hm : m key = some v) (value : V) :
    ∃ self', self.insert key value = .ok (some v, self') ∧
      Holds self' (Function.update m key (some value)) ∧
      self'.buckets.length = self.buckets.length := by
  obtain ⟨buckets, hrun, hlaid, rest, hold, hnew⟩ := h.insertLoop_present hm value
  have hlists := (h.lists.exchange hold hnew).2
  have hcount := calc self.len = (bindings self.buckets).length := h.len_eq
    _ = rest.length + 1 := hold.length_eq
    _ = (bindings buckets).length := hnew.length_eq.symm
  refine ⟨_, insertWith_present rfl hrun, ⟨?_, ?_, hlists, hcount, ?_⟩, hlaid.length⟩
  · rw [hlaid.length]; exact h.capacity
  · rw [hlaid.length]; exact hlaid
  · rw [hlaid.length]; exact h.load

theorem Holds.len_insert (h : Holds self m) {key : K} (hm : m key = none) {value : V}
    {self' : KeyStore K V} (h' : Holds self' (Function.update m key (some value))) :
    self'.len = self.len + 1 :=
  calc self'.len = self'.iter.length := h'.len_eq
    _ = {k | Function.update m key (some value) k ≠ none}.ncard := h'.lists.ncard.symm
    _ = ((key, value) :: self.iter).length := (h.lists.add hm value).ncard
    _ = self.len + 1 := by rw [List.length_cons, h.len_eq]

/-- A new key is put in, and the table doubles if that makes it three quarters full. -/
theorem insert_absent (h : Holds self m) {key : K} (hm : m key = none) (value : V)
    (hmem : 3 * self.buckets.length ≤ 4 * (self.len + 1) →
      self.buckets.length * 2 * entrySize ≤ isizeMax) :
    ∃ self', self.insert key value = .ok (none, self') ∧
      Holds self' (Function.update m key (some value)) ∧
      self'.buckets.length = if 3 * self.buckets.length ≤ 4 * (self.len + 1) then
        self.buckets.length * 2 else self.buckets.length := by
  obtain ⟨buckets, hrun, hlaid, hp⟩ := h.insertLoop_absent hm value
  have hcount : self.len + 1 = (bindings buckets).length := by
    rw [hp.length_eq, List.length_cons]
    exact congrArg (· + 1) h.len_eq
  obtain ⟨self', hgrow, h', hlen⟩ := grow_ok h.capacity { self with len := self.len + 1, buckets }
    hlaid ((h.lists.add hm value).perm hp) hcount (by
      have := h.load
      show 4 * (self.len + 1) < _
      omega) hmem
  refine ⟨self', ?_, h', hlen⟩
  rw [insert, insertWith_absent rfl hrun]
  -- the new entry is in the table; what is left is the load test
  split at hgrow
  · next hfull =>
    rw [if_pos hfull, hgrow]
    rfl
  · next hfull =>
    rw [if_neg hfull]
    cases hgrow
    rfl

theorem insert_outOfMemory (h : Holds self m) {key : K} (hm : m key = none) (value : V)
    (hfull : 3 * self.buckets.length ≤ 4 * (self.len + 1))
    (hmem : isizeMax < self.buckets.length * 2 * entrySize) :
    ∃ f, self.insert key value = .error f ∧ f.OutOfMemory := by
  obtain ⟨buckets, hrun, hlaid, _⟩ := h.insertLoop_absent hm value
  rw [← hlaid.length] at hfull hmem
  obtain ⟨f, herror, hf⟩ := resize_outOfMemory { self with len := self.len + 1, buckets } hmem
  refine ⟨f, ?_, hf⟩
  rw [insert, insertWith_absent rfl hrun, if_pos (show shouldResize { self with len := self.len + 1, buckets } = true from
    decide_eq_true hfull), herror]
  rfl

/-- The table grows when a new key makes it three quarters full, and only then. -/
theorem insert_grows (h : Holds self m) (key : K) (value : V) :
    Completes (self.insert key value) (fun (old, self') =>
      old = m key ∧ Holds self' (Function.update m key (some value)) ∧
      (self'.buckets.length = self.buckets.length ∨
        m key = none ∧ 3 * self.buckets.length ≤ 4 * (self.len + 1) ∧
          self.buckets.length * 2 * entrySize ≤ isizeMax ∧
          self'.buckets.length = self.buckets.length * 2)) := by
  cases hm : m key with
  | some v =>
    obtain ⟨self', hrun, h', hlen⟩ := insert_present h hm value
    rw [hrun]
    exact ⟨rfl, h', .inl hlen⟩
  | none =>
    by_cases hfull : 3 * self.buckets.length ≤ 4 * (self.len + 1)
    · by_cases hmem : self.buckets.length * 2 * entrySize ≤ isizeMax
      · obtain ⟨self', hrun, h', hlen⟩ := insert_absent h hm value (fun _ => hmem)
        rw [if_pos hfull] at hlen
        rw [hrun]
        exact ⟨rfl, h', .inr ⟨rfl, hfull, hmem, hlen⟩⟩
      · obtain ⟨f, hrun, hf⟩ := insert_outOfMemory h hm value hfull (Nat.lt_of_not_le hmem)
        rw [hrun]
        exact hf
    · obtain ⟨self', hrun, h', hlen⟩ := insert_absent h hm value (fun h => absurd h hfull)
      rw [if_neg hfull] at hlen
      rw [hrun]
      exact ⟨rfl, h', .inl hlen⟩

theorem insert_spec (h : Holds self m) (key : K) (value : V) :
    Completes (self.insert key value) (fun (old, self') =>
      old = m key ∧ Holds self' (Function.update m key (some value))) := by
  apply Yields.mono (insert_grows h key value)
  intro (old, self') hpost
  exact ⟨hpost.1, hpost.2.1⟩

end Operations

/-! Runs. -/

/-- The calls on a store. -/
inductive Op (K V : Type) where
  | insert (key : K) (value : V)
  | get (key : K)
  | getMut (key : K) (update : V → V)
  | del (key : K)

section Runs
variable [DecidableEq K]

/-- A call of the method of its name. -/
def Op.runWith {m : Type → Type} [Monad m] [MonadLiftT Rust m]
    (insert : KeyStore K V → K → V → m (Option V × KeyStore K V))
    (get : KeyStore K V → K → Rust (Option V))
    (getMut : KeyStore K V → K → (V → V) → Rust (Option V × KeyStore K V))
    (del : KeyStore K V → K → Rust (Option V × KeyStore K V)) :
    Op K V → KeyStore K V → m (Option V × KeyStore K V)
  | .insert key value, self => insert self key value
  | .get key, self => do return (← get self key, self)
  | .getMut key update, self => getMut self key update
  | .del key, self => del self key

def Op.run : Op K V → KeyStore K V → Rust (Option V × KeyStore K V) :=
  Op.runWith KeyStore.insert KeyStore.get KeyStore.getMut KeyStore.del

/-- The same calls on a partial map. -/
def Op.onMap : Op K V → (K → Option V) → Option V × (K → Option V)
  | .insert key value, m => (m key, Function.update m key (some value))
  | .get key, m => (m key, m)
  | .getMut key update, m => (m key, Function.update m key ((m key).map update))
  | .del key, m => (m key, Function.update m key none)

def Op.inserts : Op K V → Bool
  | .insert _ _ => true
  | _ => false

/-- A sequence of calls: what they return, and the store after them. -/
def runOpsWith {m : Type → Type} [Monad m]
    (run : Op K V → KeyStore K V → m (Option V × KeyStore K V)) :
    List (Op K V) → KeyStore K V → m (List (Option V) × KeyStore K V)
  | [], self => return ([], self)
  | op :: ops, self => do
    let (result, self) ← run op self
    let (results, self) ← runOpsWith run ops self
    return (result :: results, self)

def runOps : List (Op K V) → KeyStore K V → Rust (List (Option V) × KeyStore K V) :=
  runOpsWith Op.run

def opsOnMap : List (Op K V) → (K → Option V) → List (Option V) × (K → Option V)
  | [], m => ([], m)
  | op :: ops, m =>
    let (result, m) := op.onMap m
    let (results, m) := opsOnMap ops m
    (result :: results, m)

theorem Op.run_spec {self : KeyStore K V} {m : K → Option V} (h : Holds self m) (op : Op K V) :
    Completes (op.run self) (fun (result, self') =>
      result = (op.onMap m).1 ∧ Holds self' (op.onMap m).2) := by
  cases op with
  | insert key value => exact insert_spec h key value
  | get key =>
    rw [Op.run, Op.runWith, get_spec h key]
    exact ⟨rfl, h⟩
  | getMut key update =>
    obtain ⟨self', hrun, h', _⟩ := getMut_spec h key update
    rw [Op.run, Op.runWith, hrun]
    exact ⟨rfl, h'⟩
  | del key =>
    obtain ⟨self', hrun, h', _⟩ := del_spec h key
    rw [Op.run, Op.runWith, hrun]
    exact ⟨rfl, h'⟩

theorem runOps_spec : ∀ (ops : List (Op K V)) {self : KeyStore K V} {m : K → Option V},
    Holds self m → Completes (runOps ops self) (fun (results, self') =>
      results = (opsOnMap ops m).1 ∧ Holds self' (opsOnMap ops m).2) := by
  intro ops
  induction ops with
  | nil =>
    intro self m h
    exact ⟨rfl, h⟩
  | cons op ops ih =>
    intro self m h
    rw [runOps, runOpsWith]
    apply Yields.bind (Op.run_spec h op)
    intro (result, self') hpost
    obtain ⟨rfl, h'⟩ := hpost
    apply Yields.bind (ih h')
    intro (results, self'') hpost
    obtain ⟨rfl, h''⟩ := hpost
    exact ⟨rfl, h''⟩

theorem Op.run_crowded (op : Op K V) (self : KeyStore K V) :
    Yields (Fault.Crowded (self.len + if op.inserts then 1 else 0)) (op.run self)
      (fun r => r.2.len ≤ self.len + if op.inserts then 1 else 0) := by
  cases op with
  | insert key value => exact insert_crowded self key value
  | get key => exact Yields.bind (get_crowded _ self key) (fun _ _ => Nat.le_refl _)
  | getMut key update => exact (getMut_crowded _ self key update).mono (fun _ h => Nat.le_of_eq h)
  | del key => exact del_crowded _ self key

theorem runOps_crowded : ∀ (ops : List (Op K V)) (self : KeyStore K V),
    Yields (Fault.Crowded (self.len + ops.countP Op.inserts)) (runOps ops self) (fun _ => True) := by
  intro ops
  induction ops with
  | nil =>
    intro self
    trivial
  | cons op ops ih =>
    intro self
    rw [runOps, runOpsWith, List.countP_cons]
    refine Yields.bind ((op.run_crowded self).weaken (fun _ => Fault.Crowded.mono (by omega))) ?_
    intro (result, self') hlen
    have hlen : self'.len ≤ _ := hlen
    exact Yields.bind ((ih self').weaken (fun _ => Fault.Crowded.mono (by omega))) (fun _ _ => trivial)

/-- The key store refines the partial map, whatever the hash function: every call
    returns what it returns on the map, `len` counts the bindings, and `iter` lists
    each binding once. All calls return if fewer than `keyLimit` of them insert. -/
theorem runOps_refines_map (hasher : K → UInt64) (ops : List (Op K V)) :
    CompletesFor (ops.countP Op.inserts) (runOps ops (withHasher hasher)) (fun (results, self) =>
      results = (opsOnMap ops (fun _ => none)).1 ∧
      self.len = {k | (opsOnMap ops (fun _ => none)).2 k ≠ none}.ncard ∧
      self.iter.Nodup ∧
      ∀ k v, (k, v) ∈ self.iter ↔ (opsOnMap ops (fun _ => none)).2 k = some v) := by
  have hkeys := runOps_crowded ops (withHasher hasher : KeyStore K V)
  rw [show (withHasher hasher : KeyStore K V).len = 0 from rfl, Nat.zero_add] at hkeys
  refine Yields.mono (CompletesFor.intro (runOps_spec ops (withHasher_holds hasher)) hkeys) ?_
  intro (results, self) hpost
  obtain ⟨hresults, h⟩ := hpost
  exact ⟨hresults, h.len_eq.trans h.lists.ncard.symm, h.lists.nodup, fun _ _ => h.lists.mem_iff⟩

end Runs
end KeyStore
end SimpleKv
