import SimpleKv.KeyStoreInvariant

/- The displacement loop is in `key_store.rs` twice, in `insert` and in `insert_entry`. On a
   table without the key they are the same function, so that a table that has grown is,
   bucket for bucket, the one `insert` would have made of its entries. -/
namespace SimpleKv
namespace KeyStore
open Outcome RobinHood

variable {K V : Type}

/-- The Robin Hood invariant of a bucket array on its own. -/
structure RobinHoodBuckets (hasher : K → UInt64) (buckets : List (Option (Entry K V))) : Prop where
  /-- A power of two of buckets, 16 at least, and no more than can be addressed. -/
  size : ∃ k ≤ 59, buckets.length = 16 * 2^k
  distinct : (buckets.reduceOption.map Entry.key).Nodup
  placed : ∀ {i e}, buckets[i]? = some (some e) → e.hash = hasher e.key ∧
    i = (e.hash.toNat + e.psl) % buckets.length
  chained : ∀ {i e}, i < buckets.length →
    buckets[(i + 1) % buckets.length]? = some (some e) → 0 < e.psl →
    ∃ b, buckets[i]? = some (some b) ∧ e.psl - 1 ≤ b.psl

/-- The stores a program can make have such buckets. -/
theorem Holds.robinHoodBuckets {self : KeyStore K V} {m : K → Option V} (h : Holds self m) :
    RobinHoodBuckets self.hasher self.buckets where
  size := by
    obtain ⟨k, hk, hle, hlen⟩ := h.capacity
    refine ⟨k - 4, by omega, ?_⟩
    calc self.buckets.length = 2^k := hlen
      _ = 2^(4 + (k - 4)) := by rw [Nat.add_sub_cancel' hk]
      _ = 16 * 2^(k - 4) := by rw [Nat.pow_add]
  distinct := h.robinHoodTable.distinct
  placed hi := ⟨(h.robinHoodTable.placed hi).1, (h.robinHoodTable.placed hi).2.1⟩
  chained := h.robinHoodTable.chained

/-- A slot, read as a bucket. -/
theorem getElem?_val {n : ℕ} [NeZero n] {buckets : List (Option (Entry K V))}
    (hlen : buckets.length = n) {i : ZMod n} {b : Option (Entry K V)} (hi : slots n buckets i = b) :
    buckets[i.val]? = some b := by
  have hslot := getElem?_slots hlen i.val
  rw [ZMod.natCast_zmod_val, hi, Nat.mod_eq_of_lt (ZMod.val_lt i)] at hslot
  exact hslot

namespace RobinHoodBuckets
variable {hasher : K → UInt64} {buckets : List (Option (Entry K V))}

theorem capacity (h : RobinHoodBuckets hasher buckets) : IsCapacity buckets.length := by
  obtain ⟨k, hk, hlen⟩ := h.size
  refine ⟨4 + k, by omega, by omega, ?_⟩
  rw [hlen, Nat.pow_add]

/-- The invariant on indices is the layout on slots. -/
theorem laidOut (h : RobinHoodBuckets hasher buckets) :
    LaidOut hasher buckets.length buckets := by
  have := h.capacity.neZero
  refine ⟨rfl, ⟨fun {i e} hi => ?_, fun {i e} hi => ?_⟩, fun {i e} hi => ?_⟩
  · obtain ⟨_, hplace⟩ := h.placed (getElem?_val rfl hi)
    calc home buckets.length e + e.psl = ((e.hash.toNat + e.psl : ℕ) : ZMod buckets.length) := by
          rw [home, Nat.cast_add]
      _ = (i.val : ZMod buckets.length) := by rw [hplace, ZMod.natCast_mod]
      _ = i := ZMod.natCast_zmod_val i
  · rcases Nat.eq_zero_or_pos e.psl with h0 | hpos
    · exact .inl h0
    · have hnext : ((i - 1).val + 1) % buckets.length = i.val := by
        rw [← ZMod.val_natCast, Nat.cast_add, ZMod.natCast_zmod_val, Nat.cast_one, sub_add_cancel]
      have he := getElem?_val rfl hi
      rw [← hnext] at he
      obtain ⟨b, hb, hle⟩ := h.chained (ZMod.val_lt _) he hpos
      have hslot := slots_of_getElem? rfl hb
      rw [ZMod.natCast_zmod_val] at hslot
      exact .inr ⟨b, hslot, by omega⟩
  · exact (h.placed (getElem?_val rfl hi)).1

/-- Keys are distinct as bindings, too. -/
theorem nodup_keys (h : RobinHoodBuckets hasher buckets) :
    ((bindings buckets).map Prod.fst).Nodup := by
  unfold bindings
  rw [List.map_map]
  exact h.distinct

end RobinHoodBuckets

section Agree
variable [DecidableEq K] {self : KeyStore K V}

/-- The table of entries with the hashes they have: an entry with a new key may bring any. -/
theorem LaidOut.rehash {hasher : K → UInt64} {n : ℕ} {buckets : List (Option (Entry K V))}
    (h : LaidOut hasher n buckets) {key : K} (hkey : key ∉ (bindings buckets).map Prod.fst)
    (hash : UInt64) : LaidOut (Function.update hasher key hash) n buckets where
  length := h.length
  layout := h.layout
  hashed {i e} hi := by
    have hne : e.key ≠ key := by
      intro heq
      rw [← heq] at hkey
      exact hkey (List.mem_map_of_mem (f := Prod.fst) (mem_bindings_of_slots hi))
    rw [Function.update_of_ne hne]
    exact h.hashed hi

/-- Both loops end, and with the same buckets. -/
theorem LaidOut.loops_agree {hasher : K → UInt64} {n : ℕ} (hn : IsCapacity n)
    (h : LaidOut hasher n self.buckets) (hroom : (bindings self.buckets).length < n)
    {entry : Entry K V} (hhash : entry.hash = hasher entry.key)
    (hnodup : (entry.key :: (bindings self.buckets).map Prod.fst).Nodup) :
    ∃ buckets, insertLoop self.buckets.length self.buckets { entry with psl := 0 }
        (getBucketIndex self.buckets entry.hash 0) = .ok (none, buckets) ∧
      self.insertEntry entry = .ok { self with buckets } ∧ LaidOut hasher n buckets ∧
      (bindings buckets).Perm ((entry.key, entry.value) :: bindings self.buckets) := by
  have := hn.neZero
  obtain ⟨buckets, hentry, hlaid, hp⟩ := insertEntry_spec hn h hroom hhash
  have hloop := insertLoop_absent hn self.buckets.length self.buckets { entry with psl := 0 }
    h.length hnodup
  refine ⟨buckets, ?_, hentry, hlaid, hp⟩
  obtain ⟨buckets', hrun, hentry⟩ := bind_eq_ok.mp hentry
  rw [insertEntryLoop, hrun] at hloop
  cases hentry
  exact hloop

theorem RobinHoodBuckets.loops_agree (h : RobinHoodBuckets self.hasher self.buckets)
    (hfree : none ∈ self.buckets) {entry : Entry K V}
    (hkey : entry.key ∉ self.buckets.reduceOption.map Entry.key) :
    ∃ buckets, insertLoop self.buckets.length self.buckets { entry with psl := 0 }
        (getBucketIndex self.buckets entry.hash 0) = .ok (none, buckets) ∧
      self.insertEntry entry = .ok { self with buckets } := by
  have hkey' : entry.key ∉ (bindings self.buckets).map Prod.fst := by
    unfold bindings
    rw [List.map_map]
    exact hkey
  have hroom : (bindings self.buckets).length < self.buckets.length := by
    unfold bindings
    rw [List.length_map]
    exact List.reduceOption_length_lt_iff.mpr hfree
  obtain ⟨buckets, hloop, hentry, _⟩ := (h.laidOut.rehash hkey' entry.hash).loops_agree h.capacity
    hroom (by rw [Function.update_self]) (List.nodup_cons.mpr ⟨hkey', h.nodup_keys⟩)
  exact ⟨buckets, hloop, hentry⟩

/-! Growth. -/

/-- `insert` for entry after entry. -/
def insertAll (entries : List (Entry K V)) (self : KeyStore K V) : Rust (KeyStore K V) :=
  entries.foldlM (fun self entry => do
    let (_, self) ← self.insert entry.key entry.value
    return self) self

/-- Where the table has room, `insert` counts the entry and puts it where `insert_entry`
    puts it. -/
theorem LaidOut.insert_room {n : ℕ} (hn : IsCapacity n) (h : LaidOut self.hasher n self.buckets)
    {count : ℕ} (hload : 4 * (count + 1) < 3 * n) (hroom : (bindings self.buckets).length < n)
    {entry : Entry K V} (hhash : entry.hash = self.hasher entry.key)
    (hnodup : (entry.key :: (bindings self.buckets).map Prod.fst).Nodup) :
    ∃ buckets, ({ self with len := count } : KeyStore K V).insert entry.key entry.value =
        .ok (none, { self with len := count + 1, buckets }) ∧
      self.insertEntry entry = .ok { self with buckets } ∧ LaidOut self.hasher n buckets ∧
      (bindings buckets).Perm ((entry.key, entry.value) :: bindings self.buckets) := by
  obtain ⟨buckets, hloop, hentry, hlaid, hp⟩ := h.loops_agree hn hroom hhash hnodup
  refine ⟨buckets, ?_, hentry, hlaid, hp⟩
  have hfull : shouldResize { self with len := count + 1, buckets } = false := by
    show decide (3 * buckets.length ≤ 4 * (count + 1)) = false
    rw [hlaid.length]
    exact decide_eq_false (by omega)
  rw [hhash] at hloop
  have hinsert : ({ self with len := count } : KeyStore K V).insert entry.key entry.value = _ :=
    insertWith_absent rfl hloop
  rw [hinsert]
  exact if_neg (by simp [hfull])

/-- The two ways to move entries to a table with room for them. -/
theorem insertAll_eq {n : ℕ} (hn : IsCapacity n) : ∀ (entries : List (Entry K V))
    {self : KeyStore K V} {count : ℕ}, LaidOut self.hasher n self.buckets →
    (∀ e ∈ entries, e.hash = self.hasher e.key) →
    (entries.map Entry.key ++ (bindings self.buckets).map Prod.fst).Nodup →
    count = (bindings self.buckets).length → 4 * (count + entries.length) < 3 * n →
    ∃ buckets, entries.foldlM insertEntry self = .ok { self with buckets } ∧
      insertAll entries { self with len := count } =
        .ok { self with len := count + entries.length, buckets } := by
  intro entries
  induction entries with
  | nil =>
    intro self count h hhash hnodup hcount hload
    exact ⟨self.buckets, rfl, rfl⟩
  | cons e entries ih =>
    intro self count h hhash hnodup hcount hload
    rw [List.length_cons] at hload
    rw [List.map_cons, List.cons_append, List.nodup_cons, List.mem_append, not_or] at hnodup
    obtain ⟨⟨hlater, hkey⟩, hrest⟩ := hnodup
    have hkeys := List.nodup_append.mp hrest
    obtain ⟨buckets, hinsert, hentry, hlaid, hp⟩ := h.insert_room hn
      (show 4 * (count + 1) < 3 * n by omega) (by omega) (hhash e List.mem_cons_self)
      (List.nodup_cons.mpr ⟨hkey, hkeys.2.1⟩)
    have hperm : (entries.map Entry.key ++ (bindings buckets).map Prod.fst).Perm
        (e.key :: (entries.map Entry.key ++ (bindings self.buckets).map Prod.fst)) :=
      ((hp.map Prod.fst).append_left _).trans List.perm_middle
    have hlen := hp.length_eq
    rw [List.length_cons] at hlen
    obtain ⟨buckets', hmove, hall⟩ := @ih { self with buckets } (count + 1) hlaid
      (fun e' he' => hhash e' (List.mem_cons_of_mem _ he'))
      (hperm.nodup_iff.mpr (List.nodup_cons.mpr ⟨by simp [hlater, hkey], hrest⟩))
      (by rw [hcount, hlen]) (by omega)
    refine ⟨buckets', ?_, ?_⟩
    · rw [List.foldlM_cons, hentry]
      exact hmove
    · unfold insertAll
      rw [List.foldlM_cons, hinsert, List.length_cons, Nat.add_comm entries.length 1, ← Nat.add_assoc]
      exact hall

omit [DecidableEq K] in
/-- What an entry carries besides its place is known from its binding. -/
theorem LaidOut.map_entries {hasher : K → UInt64} {n : ℕ} [NeZero n]
    {buckets : List (Option (Entry K V))} (h : LaidOut hasher n buckets) :
    buckets.reduceOption.map (fun e => (e.key, e.value, e.hash)) =
      (bindings buckets).map (fun binding => (binding.1, binding.2, hasher binding.1)) := by
  unfold bindings
  rw [List.map_map]
  refine List.map_congr_left (fun e he => ?_)
  obtain ⟨i, hi⟩ := exists_slots h.length he
  rw [Function.comp_apply, h.hashed hi]

/-- The loop of `insert` and `insert_entry` agree on a new key. A table grows into the one
    `insert` makes of its entries in bucket order, and each entry keeps its hash; it grows
    where one of twice the size can be addressed. -/
theorem insertion_loops_agree (h : RobinHoodBuckets self.hasher self.buckets) :
    (none ∈ self.buckets → ∀ entry : Entry K V,
      entry.key ∉ self.buckets.reduceOption.map Entry.key →
      ∃ buckets, insertLoop self.buckets.length self.buckets { entry with psl := 0 }
          (getBucketIndex self.buckets entry.hash 0) = .ok (none, buckets) ∧
        self.insertEntry entry = .ok { self with buckets }) ∧
    Yields (fun f => f.OutOfMemory ∧ isizeMax < self.buckets.length * 2 * entrySize) self.resize
      (fun grown => insertAll self.buckets.reduceOption
          ⟨0, List.replicate (self.buckets.length * 2) none, self.hasher⟩ =
          .ok { grown with len := self.buckets.reduceOption.length } ∧
        grown.len = self.len ∧
        (grown.buckets.reduceOption.map (fun e => (e.key, e.value, e.hash))).Perm
        (self.buckets.reduceOption.map (fun e => (e.key, e.value, e.hash)))) := by
  refine ⟨fun hfree entry hkey => h.loops_agree hfree hkey, ?_⟩
  have hn := h.capacity
  have := hn.neZero
  by_cases hmem : self.buckets.length * 2 * entrySize ≤ isizeMax
  · have hnil : bindings (List.replicate (self.buckets.length * 2) (none : Option (Entry K V))) = [] := by
      simp [bindings]
    have hsize := List.reduceOption_length_le self.buckets
    have htwo := hn.two_lt
    obtain ⟨grown, hresize, hlaid, hp⟩ := resize_ok hn self h.laidOut hmem
    obtain ⟨buckets, hmove, hall⟩ := @insertAll_eq _ _ _ _ (hn.double hmem) self.buckets.reduceOption
      { self with buckets := List.replicate (self.buckets.length * 2) none } 0
      (LaidOut.empty self.hasher _)
      (fun e he => by
        obtain ⟨i, hi⟩ := exists_slots h.laidOut.length he
        exact h.laidOut.hashed hi)
      (by
        show (_ ++ (bindings (List.replicate _ none)).map Prod.fst).Nodup
        rw [hnil, List.map_nil, List.append_nil]
        exact h.distinct)
      (by rw [hnil]; rfl) (by omega)
    have hresize' := hresize
    rw [resize, resizeWith_ok hmem, hmove] at hresize'
    cases hresize'
    rw [hresize]
    refine ⟨?_, rfl, ?_⟩
    · rw [Nat.zero_add] at hall
      exact hall
    · have hcapacity := (hn.double hmem).neZero
      rw [hlaid.map_entries, h.laidOut.map_entries]
      exact hp.map _
  · obtain ⟨f, hrun, hf⟩ := resize_outOfMemory self (Nat.lt_of_not_le hmem)
    rw [hrun]
    exact ⟨hf, Nat.lt_of_not_le hmem⟩

/-- Three keys that collide at the end of the table. -/
theorem insertion_loops_agree_collision : ∃ (results : List (Option ℕ)) (self : KeyStore ℕ ℕ),
    runOps [.insert 1 10, .insert 2 20, .insert 3 30] (withHasher (fun _ => 15)) =
      .ok (results, self) ∧
    (none ∈ self.buckets → ∀ entry : Entry ℕ ℕ,
      entry.key ∉ self.buckets.reduceOption.map Entry.key →
      ∃ buckets, insertLoop self.buckets.length self.buckets { entry with psl := 0 }
          (getBucketIndex self.buckets entry.hash 0) = .ok (none, buckets) ∧
        self.insertEntry entry = .ok { self with buckets }) ∧
    Yields (fun f => f.OutOfMemory ∧ isizeMax < self.buckets.length * 2 * entrySize) self.resize
      (fun grown => insertAll self.buckets.reduceOption
          ⟨0, List.replicate (self.buckets.length * 2) none, self.hasher⟩ =
          .ok { grown with len := self.buckets.reduceOption.length } ∧
        grown.len = self.len ∧
        (grown.buckets.reduceOption.map (fun e => (e.key, e.value, e.hash))).Perm
        (self.buckets.reduceOption.map (fun e => (e.key, e.value, e.hash)))) := by
  obtain ⟨results, self, hrun⟩ : ∃ (results : List (Option ℕ)) (self : KeyStore ℕ ℕ),
      runOps [.insert 1 10, .insert 2 20, .insert 3 30] (withHasher (fun _ => 15)) =
        .ok (results, self) := ⟨_, _, rfl⟩
  have h := (Yields.of_ok (runOps_spec _ (withHasher_holds _)) hrun).2
  exact ⟨results, self, hrun, insertion_loops_agree h.robinHoodBuckets⟩

end Agree
end KeyStore
end SimpleKv
