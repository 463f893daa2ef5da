import SimpleKv.KeyStoreMap

/- What is true of every key store a program can make: the Robin Hood invariant in the
   terms of the source, on bucket indices, and the end of every probe loop. Both are read
   off `Holds`, which every operation keeps. -/
namespace SimpleKv
namespace KeyStore
open Outcome RobinHood

variable {K V : Type}

/-- The representation invariant of `key_store.rs`. -/
structure RobinHoodTable (store : KeyStore K V) : Prop where
  /-- The table is a power of two of buckets, 16 at least. -/
  size : ∃ k, store.buckets.length = 16 * 2^k
  load : 4 * store.len < 3 * store.buckets.length
  /-- `len` counts the occupied buckets. -/
  count : store.len = store.buckets.reduceOption.length
  distinct : (store.buckets.reduceOption.map Entry.key).Nodup
  /-- An entry is `psl` buckets after the one its hash names. -/
  placed : ∀ {i e}, store.buckets[i]? = some (some e) → e.hash = store.hasher e.key ∧
    i = (e.hash.toNat + e.psl) % store.buckets.length ∧ e.psl < store.buckets.length
  /-- Before an entry away from home there is one that is no more than a bucket nearer to its
      own home. -/
  chained : ∀ {i e}, i < store.buckets.length →
    store.buckets[(i + 1) % store.buckets.length]? = some (some e) → 0 < e.psl →
    ∃ b, store.buckets[i]? = some (some b) ∧ e.psl - 1 ≤ b.psl

/-! No operation changes the hash function. -/

section Hasher

theorem insertEntry_foldlM_hasher (entries : List (Entry K V)) (self : KeyStore K V) :
    Yields (fun _ => True) (entries.foldlM insertEntry self) (·.hasher = self.hasher) := by
  apply Yields.foldlM (fun _ (store : KeyStore K V) => store.hasher = self.hasher)
  · intro e rest store hstore
    unfold insertEntry insertEntryWith
    apply Yields.bind_any
    intro buckets
    exact hstore
  · rfl

theorem resize_hasher (self : KeyStore K V) :
    Yields (fun _ => True) self.resize (·.hasher = self.hasher) := by
  unfold resize resizeWith
  apply Yields.bind_any
  intro _
  exact insertEntry_foldlM_hasher _ _

variable [DecidableEq K]

theorem Op.run_hasher (op : Op K V) (self : KeyStore K V) :
    Yields (fun _ => True) (op.run self) (fun r => r.2.hasher = self.hasher) := by
  cases op with
  | get key =>
    apply Yields.bind_any
    intro _
    rfl
  | getMut key update =>
    rw [Op.run, Op.runWith, KeyStore.getMut, getMutWith]
    apply Yields.bind_any
    intro found
    cases found with
    | none => rfl
    | some i =>
      apply Yields.bind_any
      intro b
      cases b <;> rfl
  | del key =>
    rw [Op.run, Op.runWith, KeyStore.del]
    rw [delLoop_eq]
    apply Yields.bind_any
    intro found
    cases found with
    | none => rfl
    | some i =>
      apply Yields.bind_any
      intro b
      cases b with
      | none => rfl
      | some e =>
        apply Yields.bind_any
        intro _
        rfl
  | insert key value =>
    rw [Op.run, Op.runWith, KeyStore.insert, insertWith]
    apply Yields.bind_any
    intro i
    apply Yields.bind_any
    intro r
    obtain ⟨old, buckets⟩ := r
    cases old with
    | some old => rfl
    | none =>
      show Yields _ (if _ then _ else _) _
      split
      · apply Yields.bind (resize_hasher _)
        intro store hstore
        exact hstore
      · rfl

theorem runOps_hasher : ∀ (ops : List (Op K V)) (self : KeyStore K V),
    Yields (fun _ => True) (runOps ops self) (fun r => r.2.hasher = self.hasher) := by
  intro ops
  induction ops with
  | nil =>
    intro self
    rfl
  | cons op ops ih =>
    intro self
    rw [runOps, runOpsWith]
    apply Yields.bind (Op.run_hasher op self)
    intro r hself'
    apply Yields.bind (ih r.2)
    intro r' hself''
    exact hself''.trans hself'

theorem hasher_of_runOps {ops : List (Op K V)} {self self' : KeyStore K V}
    {results : List (Option V)} (hrun : runOps ops self = .ok (results, self')) :
    self'.hasher = self.hasher := by
  have h := runOps_hasher ops self
  rw [hrun] at h
  exact h

end Hasher

/-! The invariant. -/

section Table
variable {self : KeyStore K V} {m : K → Option V}

/-- A bucket, read as a slot. -/
theorem slots_of_getElem? {n : ℕ} [NeZero n] {buckets : List (Option (Entry K V))}
    (hlen : buckets.length = n) {i : ℕ} {b : Option (Entry K V)} (hi : buckets[i]? = some b) :
    slots n buckets (i : ZMod n) = b := by
  have hlt : i < n := hlen ▸ (List.getElem?_eq_some_iff.mp hi).1
  have hslot := getElem?_slots hlen i
  rw [Nat.mod_eq_of_lt hlt, hi] at hslot
  exact (Option.some.inj hslot).symm

theorem Holds.robinHoodTable (h : Holds self m) : self.RobinHoodTable where
  size := by
    obtain ⟨k, hk, _, hlen⟩ := h.capacity
    refine ⟨k - 4, ?_⟩
    calc self.buckets.length = 2^k := hlen
      _ = 2^(4 + (k - 4)) := by rw [Nat.add_sub_cancel' hk]
      _ = 16 * 2^(k - 4) := by rw [Nat.pow_add]
  load := h.load
  count := by
    rw [h.len_eq]
    exact List.length_map _
  distinct := by
    have hdistinct := h.lists.distinct
    unfold iter at hdistinct
    rw [List.map_map] at hdistinct
    exact hdistinct
  placed {i e} hi := by
    have := h.capacity.neZero
    have hslot := slots_of_getElem? rfl hi
    have hlt : i < self.buckets.length := (List.getElem?_eq_some_iff.mp hi).1
    obtain ⟨z, hz⟩ := h.exists_free
    refine ⟨h.laidOut.hashed hslot, ?_, h.laidOut.psl_lt hslot hz⟩
    have hhome : ((e.hash.toNat + e.psl : ℕ) : ZMod self.buckets.length) = (i : ℕ) := by
      rw [Nat.cast_add]
      exact h.laidOut.layout.homed hslot
    rw [(ZMod.natCast_eq_natCast_iff' _ _ _).mp hhome, Nat.mod_eq_of_lt hlt]
  chained {i e} hlt hi hpos := by
    have := h.capacity.neZero
    have hslot := slots_of_getElem? rfl hi
    rw [ZMod.natCast_mod] at hslot
    rcases h.laidOut.layout.chained hslot with h0 | ⟨b, hb, hle⟩
    · omega
    · have hprev := getElem?_slots (show self.buckets.length = _ from rfl) i
      rw [Nat.cast_succ, add_sub_cancel_right] at hb
      rw [Nat.mod_eq_of_lt hlt, hb] at hprev
      exact ⟨b, hprev, by omega⟩

end Table

/-! The loops. -/

section Loops
variable [DecidableEq K]

/-- Each loop that a call with `key` runs leaves within as many iterations as the table
    has buckets. -/
structure LoopsEnd (store : KeyStore K V) (key : K) : Prop where
  indexOf : ∃ found,
    indexOfLoop store.buckets.length store key (store.hasher key) 0 = .ok found
  del : ∃ result, delLoop store.buckets.length store key (store.hasher key) 0 = .ok result
  /-- The backward shift, from the bucket `del` empties. -/
  shift : ∀ {i}, store.indexOf key = .ok (some i) →
    ∃ buckets, shiftLoop store.buckets.length (store.buckets.set i none) i = .ok buckets
  insert : ∀ value, ∃ result,
    insertLoop store.buckets.length store.buckets ⟨key, value, 0, store.hasher key⟩
      (getBucketIndex store.buckets (store.hasher key) 0) = .ok result
  /-- `insert_entry`, when `resize` has moved some of the entries to the larger table
      `target` and goes on with the next. -/
  insertEntry : ∀ {value buckets moved entry rest target},
    insertLoop store.buckets.length store.buckets ⟨key, value, 0, store.hasher key⟩
      (getBucketIndex store.buckets (store.hasher key) 0) = .ok (none, buckets) →
    reserve (buckets.length * 2) entrySize = .ok () →
    buckets.reduceOption = moved ++ entry :: rest →
    moved.foldlM KeyStore.insertEntry
      { store with len := store.len + 1, buckets := List.replicate (buckets.length * 2) none } =
        .ok target →
    ∃ buckets', insertEntryLoop target.buckets.length target.buckets { entry with psl := 0 } =
      .ok buckets'

variable {self : KeyStore K V} {m : K → Option V}

omit [DecidableEq K] in
/-- `resize` goes on from any point: the larger table has room for the next entry. -/
theorem insertEntryLoop_ends {n : ℕ} (hn : IsCapacity n) {hasher : K → UInt64}
    {start target : KeyStore K V} {moved rest : List (Entry K V)} {entry : Entry K V}
    (hl : LaidOut hasher n start.buckets)
    (hhash : ∀ e ∈ moved ++ entry :: rest, e.hash = hasher e.key)
    (hroom : (bindings start.buckets).length + (moved ++ entry :: rest).length ≤ n)
    (hrun : moved.foldlM KeyStore.insertEntry start = .ok target) :
    ∃ buckets, insertEntryLoop target.buckets.length target.buckets { entry with psl := 0 } =
      .ok buckets := by
  rw [List.length_append, List.length_cons] at hroom
  obtain ⟨buckets, hmoved, hlaid, hp⟩ := insertEntry_foldlM hn moved hl
    (fun e he => hhash e (List.mem_append_left _ he)) (by omega)
  rw [hmoved] at hrun
  cases hrun
  have hlen := hp.length_eq
  rw [List.length_append, List.length_map] at hlen
  obtain ⟨buckets', hentry, _⟩ := insertEntry_spec hn
    (show LaidOut hasher n ({ start with buckets } : KeyStore K V).buckets from hlaid)
    (show (bindings buckets).length < n by omega) (hhash entry (by simp))
  obtain ⟨buckets'', hloop, _⟩ := bind_eq_ok.mp hentry
  exact ⟨buckets'', hloop⟩

theorem Holds.loopsEnd (h : Holds self m) (key : K) : self.LoopsEnd key where
  indexOf := by
    cases hm : m key with
    | none => exact ⟨_, indexOf_absent h hm⟩
    | some v =>
      obtain ⟨x, e, hrun, _⟩ := indexOf_present h hm
      exact ⟨_, hrun⟩
  del := by
    obtain ⟨self', hrun, _⟩ := del_spec h key
    exact ⟨_, hrun⟩
  shift {i} hi := by
    cases hm : m key with
    | none =>
      rw [indexOf_absent h hm] at hi
      cases hi
    | some v =>
      obtain ⟨x, e, hrun, he, _⟩ := indexOf_present h hm
      rw [hrun] at hi
      cases hi
      obtain ⟨buckets, hshift, _⟩ := h.shiftLoop he
      exact ⟨buckets, hshift⟩
  insert value := by
    cases hm : m key with
    | none =>
      obtain ⟨buckets, hrun, _⟩ := h.insertLoop_absent hm value
      exact ⟨_, hrun⟩
    | some v =>
      obtain ⟨buckets, hrun, _⟩ := h.insertLoop_present hm value
      exact ⟨_, hrun⟩
  insertEntry {value buckets moved entry rest target} hinsert hreserve hentries hmoved := by
    have := h.capacity.neZero
    cases hm : m key with
    | some v =>
      obtain ⟨buckets', hrun, _⟩ := h.insertLoop_present hm value
      rw [hrun] at hinsert
      cases hinsert
    | none =>
      obtain ⟨buckets', hrun, hlaid, hp⟩ := h.insertLoop_absent hm value
      rw [hrun] at hinsert
      cases hinsert
      rw [hlaid.length] at hreserve hmoved
      have hmem : self.buckets.length * 2 * entrySize ≤ isizeMax := by
        apply Nat.le_of_not_lt
        intro hlt
        rw [reserve, dif_pos hlt] at hreserve
        cases hreserve
      have hhash : ∀ e ∈ moved ++ entry :: rest, e.hash = self.hasher e.key := by
        intro e he
        rw [← hentries] at he
        obtain ⟨i, hi⟩ := exists_slots hlaid.length he
        exact hlaid.hashed hi
      apply insertEntryLoop_ends (h.capacity.double hmem) (LaidOut.empty self.hasher _) hhash ?_
        hmoved
      have hle := List.reduceOption_length_le buckets
      rw [hlaid.length] at hle
      rw [← hentries]
      simp [bindings]
      omega

/-- Whatever the hash function: after any calls, the next one with any key runs loops that
    all end within `buckets.len()` iterations. -/
theorem runOps_loopsEnd (hasher : K → UInt64) (ops : List (Op K V)) :
    Completes (runOps ops (withHasher hasher)) (fun (_, self) => ∀ key, self.LoopsEnd key) := by
  apply Yields.mono (runOps_spec ops (withHasher_holds hasher))
  intro (results, self) hpost
  exact hpost.2.loopsEnd

/-- The invariant holds after any calls, whatever the hash function. -/
theorem runOps_robinHoodTable (hasher : K → UInt64) (ops : List (Op K V)) :
    Completes (runOps ops (withHasher hasher)) (fun (_, self) =>
      self.hasher = hasher ∧ self.RobinHoodTable) := by
  have hspec := runOps_spec ops (withHasher_holds (V := V) hasher)
  apply Yields.mono (hspec.and (runOps_hasher ops (withHasher hasher)))
  intro (results, self) hpost
  exact ⟨hpost.2, hpost.1.2.robinHoodTable⟩

end Loops

end KeyStore
end SimpleKv
