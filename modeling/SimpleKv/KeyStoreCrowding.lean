import SimpleKv.KeyStoreHistory

/- How far a probe sequence can run past the end of the hashes. A search for `key`, and
   an entry with that key on its way to a bucket, reads `hash + psl` for each `psl` it
   gets to, and gets to `psl` by passing the buckets before (`Passed`). The sum leaves
   `usize` when the hash is within `psl` of its end, and as a table has a power of two of
   buckets, the home of such a key is as near to the end of the table. So what has been
   passed are the last buckets of the table, all taken, and taken by entries that do not
   come from farther on: a `Crowd`. -/
namespace SimpleKv
namespace KeyStore
open RobinHood

variable {K V : Type}

/-- Some keys can make a table of `n` buckets: it starts with 16, and doubles when three
    quarters of the buckets are taken, while memory lasts. -/
structure Reaches (K : Type) (n : ℕ) : Prop where
  size : ∃ k, n = 16 * 2^k
  memory : n * entrySize ≤ isizeMax
  grown : n = 16 ∨ ∃ keys : Finset K, 3 * n ≤ 8 * keys.card

/-- `others` are keys that leave room in a table of `n` buckets, as many at least as `key`
    has hashes above its own. All have their homes among the last buckets of the table, so
    many of these as there are keys, and none after the home of `key`. -/
structure Crowd (hasher : K → UInt64) (n : ℕ) (key : K) (others : Finset K) : Prop where
  absent : key ∉ others
  load : 4 * others.card < 3 * n
  beyond : 2^64 - (hasher key).toNat ≤ others.card
  above : ∀ other ∈ others, n - others.card ≤ (hasher other).toNat % n
  below : ∀ other ∈ others, (hasher other).toNat % n ≤ n - (2^64 - (hasher key).toNat)

/-- The hash function has a key near the end of the hashes and a crowd before it. -/
def Crowded (hasher : K → UInt64) : Prop :=
  ∃ n key others, Reaches K n ∧ Crowd hasher n key others

theorem Reaches.isCapacity {n : ℕ} (h : Reaches K n) : IsCapacity n := by
  obtain ⟨k, rfl⟩ := h.size
  have hmemory := h.memory
  have hk : k < 64 := by
    apply Nat.lt_of_not_le
    intro hle
    have hpow : 2^64 ≤ 2^k := Nat.pow_le_pow_right (by decide) hle
    unfold entrySize isizeMax at hmemory
    omega
  have hpow : 16 * 2^k = 2^(k + 4) := by
    rw [Nat.pow_add, Nat.mul_comm]
  rw [hpow] at hmemory ⊢
  refine ⟨k + 4, by omega, ?_, rfl⟩
  apply Nat.le_of_not_lt
  intro hlt
  have hpow' : 2^64 ≤ 2^(k + 4) := Nat.pow_le_pow_right (by decide) hlt
  unfold entrySize isizeMax at hmemory
  omega

section Probing
variable {hasher : K → UInt64} {n : ℕ} {buckets : List (Option (Entry K V))}

/-- The `psl` buckets from the one `hash` names on hold entries that do not stop a search
    for `key`. -/
def Passed (n : ℕ) (buckets : List (Option (Entry K V))) (key : K) (hash : UInt64) (psl : ℕ) :
    Prop :=
  ∀ j < psl, ∃ b, slots n buckets ((hash.toNat + j : ℕ) : ZMod n) = some b ∧ j ≤ b.psl ∧ b.key ≠ key

theorem Passed.zero (key : K) (hash : UInt64) : Passed n buckets key hash 0 :=
  fun _ hj => absurd hj (Nat.not_lt_zero _)

theorem Passed.succ {key : K} {hash : UInt64} {psl : ℕ} (h : Passed n buckets key hash psl)
    {b : Entry K V} (hb : slots n buckets ((hash.toNat + psl : ℕ) : ZMod n) = some b)
    (hle : psl ≤ b.psl) (hkey : b.key ≠ key) : Passed n buckets key hash (psl + 1) := by
  intro j hj
  rcases Nat.eq_or_lt_of_le (Nat.le_of_lt_succ hj) with rfl | hlt
  · exact ⟨b, hb, hle, hkey⟩
  · exact h j hlt

/-- A table, and a key that has passed `psl` of its buckets. -/
structure Probing (hasher : K → UInt64) (n : ℕ) (buckets : List (Option (Entry K V))) (key : K)
    (psl : ℕ) : Prop where
  laidOut : LaidOut hasher n buckets
  distinct : ((bindings buckets).map Prod.fst).Nodup
  load : 4 * (bindings buckets).length < 3 * n
  passed : Passed n buckets key (hasher key) psl

variable [NeZero n]

/-- The buckets that are passed end before a free one. -/
theorem Passed.le_gap {key : K} {hash : UInt64} {psl : ℕ} (h : Passed n buckets key hash psl)
    {z : ZMod n} (hz : slots n buckets z = none) : psl ≤ gap (hash.toNat : ZMod n) z := by
  apply Nat.le_of_not_lt
  intro hlt
  obtain ⟨b, hb, _⟩ := h _ hlt
  rw [Nat.cast_add, add_gap, hz] at hb
  cases hb

omit [NeZero n] in
/-- A bucket in the table and the home of its entry before it, without a turn around the
    end. -/
theorem LaidOut.hash_mod (h : LaidOut hasher n buckets) {x : ℕ} (hx : x < n) {e : Entry K V}
    (he : slots n buckets (x : ZMod n) = some e) (hle : e.psl ≤ x) :
    (hasher e.key).toNat % n = x - e.psl := by
  have hhome : (e.hash.toNat : ZMod n) = ((x - e.psl : ℕ) : ZMod n) := by
    rw [Nat.cast_sub hle]
    exact eq_sub_of_add_eq (h.layout.homed he)
  have hmod := (ZMod.natCast_eq_natCast_iff' _ _ _).mp hhome
  rw [Nat.mod_eq_of_lt (by omega : x - e.psl < n), h.hashed he] at hmod
  exact hmod

theorem Probing.exists_free {key : K} {psl : ℕ} (h : Probing hasher n buckets key psl) :
    ∃ z, slots n buckets z = none := by
  have hload := h.load
  exact KeyStore.exists_free h.laidOut.length (by omega)

omit [NeZero n] in
theorem Probing.next {key : K} {psl : ℕ} (h : Probing hasher n buckets key psl) {b : Entry K V}
    (hb : slots n buckets (((hasher key).toNat + psl : ℕ) : ZMod n) = some b) (hle : psl ≤ b.psl)
    (hkey : b.key ≠ key) : Probing hasher n buckets key (psl + 1) :=
  ⟨h.laidOut, h.distinct, h.load, h.passed.succ hb hle hkey⟩

omit [NeZero n] in
/-- An entry that neither stops a search nor is recognised is passed. -/
theorem Probing.onward {key : K} {psl : ℕ} (h : Probing hasher n buckets key psl)
    {b : Entry K V} (hb : slots n buckets (((hasher key).toNat + psl : ℕ) : ZMod n) = some b)
    (hlt : ¬b.psl < psl) (hmatch : ¬(b.hash = hasher key ∧ b.key = key)) :
    Probing hasher n buckets key (psl + 1) := by
  apply h.next hb (Nat.le_of_not_lt hlt)
  intro hkey
  apply hmatch
  rw [h.laidOut.hashed hb, hkey]
  exact ⟨rfl, rfl⟩

/-- Where an entry stands nearer to its home than `key` has come, `key` is not in the
    table. -/
theorem Probing.absent {key : K} {psl : ℕ} (h : Probing hasher n buckets key psl) {b : Entry K V}
    (hb : slots n buckets (((hasher key).toNat + psl : ℕ) : ZMod n) = some b) (hlt : b.psl < psl) :
    key ∉ (bindings buckets).map Prod.fst := by
  intro hmem
  obtain ⟨_, hbinding, hfst⟩ := List.mem_map.mp hmem
  obtain ⟨e, he, rfl⟩ := List.mem_map.mp hbinding
  obtain ⟨i, hi⟩ := exists_slots h.laidOut.length he
  have hhash : e.hash = hasher key := by
    rw [h.laidOut.hashed hi]
    exact congrArg hasher hfst
  rcases Nat.lt_or_ge e.psl psl with hpsl | hpsl
  · -- its entry has been passed, and was not recognised
    obtain ⟨c, hc, _, hne⟩ := h.passed e.psl hpsl
    obtain ⟨c', hc', _, heq⟩ := h.laidOut.ahead hi (Nat.le_refl e.psl)
    rw [hhash, hc] at hc'
    cases hc'
    rw [heq rfl] at hne
    exact hne hfst
  · -- its entry is ahead, and every entry on the way is as far from home
    obtain ⟨c, hc, hle, _⟩ := h.laidOut.ahead hi hpsl
    rw [hhash, hb] at hc
    cases hc
    omega

omit [NeZero n] in
/-- An entry on its way is supported by the entry it has just passed. -/
theorem Probing.supports {entry : Entry K V} (h : Probing hasher n buckets entry.key entry.psl)
    (hhash : entry.hash = hasher entry.key) :
    Supports Entry.psl (slots n buckets) (slotOf n entry) entry.psl := by
  cases hpsl : entry.psl with
  | zero => exact .inl rfl
  | succ d =>
    obtain ⟨b, hb, hle, _⟩ := h.passed d (by omega)
    refine .inr ⟨b, ?_, by omega⟩
    rw [← hb, slotOf, home, hpsl, hhash]
    congr 1
    push_cast
    ring

omit [NeZero n] in
/-- Slots below the end of the table have different numbers. -/
theorem eq_of_natCast_eq {x y : ℕ} (hx : x < n) (hy : y < n) (h : (x : ZMod n) = (y : ZMod n)) :
    x = y := by
  have hval := congrArg ZMod.val h
  rwa [ZMod.val_cast_of_lt hx, ZMod.val_cast_of_lt hy] at hval

/-- The entry on its way takes the bucket of one nearer to its home, which is on its way
    from there. -/
theorem Probing.swap (hn : IsCapacity n) {entry e : Entry K V}
    (h : Probing hasher n buckets entry.key entry.psl) (hhash : entry.hash = hasher entry.key)
    (he : slots n buckets (slotOf n entry) = some e) (hlt : e.psl < entry.psl) :
    Probing hasher n (buckets.set (getBucketIndex buckets entry.hash entry.psl) (some entry)) e.key
        (e.psl + 1) ∧
      (e.key :: (bindings (buckets.set (getBucketIndex buckets entry.hash entry.psl)
        (some entry))).map Prod.fst).Nodup := by
  have hlen := h.laidOut.length
  have hslot : slotOf n entry = (((hasher entry.key).toNat + entry.psl : ℕ) : ZMod n) := by
    rw [← hhash, natCast_slotOf]
  have habsent := h.absent (by rw [← hslot]; exact he) hlt
  have hput := slots_put hn hlen entry
  have hperm := bindings_put hn hlen entry
  rw [he] at hperm
  have hnodup := (hperm.map Prod.fst).nodup_iff.mpr (List.nodup_cons.mpr ⟨habsent, h.distinct⟩)
  refine ⟨⟨?_, (List.nodup_cons.mp hnodup).2, ?_, ?_⟩, hnodup⟩
  · apply h.laidOut.put hn hhash (h.supports hhash)
    intro e' he'
    rw [he] at he'
    cases he'
    exact Nat.le_of_lt hlt
  · have hcount := hperm.length_eq
    simp only [Option.toList_some, List.map_cons, List.map_nil, List.cons_append, List.nil_append,
      List.length_cons] at hcount
    have hload := h.load
    omega
  · obtain ⟨z, hz⟩ := h.exists_free
    have hhash' : e.hash = hasher e.key := h.laidOut.hashed he
    have hhome : home n e + e.psl = slotOf n entry := h.laidOut.layout.homed he
    have hsize := h.laidOut.psl_lt he hz
    rw [← hhash']
    -- up to its bucket the entries before it are the old ones, and there the new one stands
    apply Passed.succ
    · intro j hj
      obtain ⟨b, hb, hle⟩ := h.laidOut.layout.path he (Nat.le_of_lt hj)
      have hne : home n e + (j : ZMod n) ≠ slotOf n entry := by
        rw [← hhome]
        intro heq
        have hj' := eq_of_natCast_eq (Nat.lt_trans hj hsize) hsize (add_left_cancel heq)
        omega
      refine ⟨b, ?_, hle, ?_⟩
      · rw [hput, Nat.cast_add]
        exact (Function.update_of_ne hne _ _).trans hb
      · intro hkey
        exact hne (slots_injective hlen h.distinct hb he hkey)
    · rw [hput, Nat.cast_add]
      have hbucket : (e.hash.toNat : ZMod n) + (e.psl : ZMod n) = slotOf n entry := hhome
      rw [hbucket]
      exact Function.update_self _ _ _
    · exact Nat.le_of_lt hlt
    · intro hkey
      apply habsent
      rw [hkey]
      exact List.mem_map_of_mem (f := Prod.fst) (mem_bindings_of_slots he)

/-- A hash `2^64 - w` names the bucket `w` before the end of the table. -/
theorem natCast_end (hn : IsCapacity n) {hash w : ℕ} (hw : hash + w = 2^64) (hwn : w ≤ n) (j : ℕ) :
    ((hash + j : ℕ) : ZMod n) = ((n - w + j : ℕ) : ZMod n) := by
  obtain ⟨k, _, hk, rfl⟩ := hn
  have hpow : 2^64 = 2^k * 2^(64 - k) := by
    rw [← Nat.pow_add]
    congr 1
    omega
  have hzero : ((hash + w : ℕ) : ZMod (2^k)) = 0 := by
    rw [hw, hpow, Nat.cast_mul, ZMod.natCast_self, zero_mul]
  rw [Nat.cast_add] at hzero
  rw [Nat.cast_add, Nat.cast_add, Nat.cast_sub hwn, ZMod.natCast_self, zero_sub,
    eq_neg_of_add_eq_zero_left hzero]

/-- The key of an entry, by bucket. -/
def keyAt (n : ℕ) (buckets : List (Option (Entry K V))) (key : K) (x : ℕ) : K :=
  ((slots n buckets (x : ZMod n)).map Entry.key).getD key

/-- The entries between a free bucket and the end of the table, where these are all taken
    and `key` has passed the last of them. -/
theorem Probing.crowd (hn : IsCapacity n) {key : K} {psl f w : ℕ}
    (h : Probing hasher n buckets key psl) (hw : (hasher key).toNat + w = 2^64) (hwpsl : w ≤ psl)
    (hf : f < n - w) (hwn : w ≤ n) (hfree : slots n buckets (f : ZMod n) = none)
    (htaken : ∀ x, f < x → x < n → ∃ e, slots n buckets (x : ZMod n) = some e) :
    ∃ others, Crowd hasher n key others := by
  classical
  have hpos : 0 < w := by
    have hlt : (hasher key).toNat < 2^64 := (hasher key).toNat_lt
    omega
  -- what is known of the entry of a bucket after the free one
  have hentry : ∀ x ∈ Finset.Ioo f n, ∃ e, slots n buckets (x : ZMod n) = some e ∧
      keyAt n buckets key x = e.key ∧ e.psl < x - f ∧ (hasher e.key).toNat % n = x - e.psl ∧
      (n - w ≤ x → x - (n - w) ≤ e.psl ∧ e.key ≠ key) := by
    intro x hx
    obtain ⟨hfx, hxn⟩ := Finset.mem_Ioo.mp hx
    obtain ⟨e, he⟩ := htaken x hfx hxn
    have hdist := h.laidOut.layout.dist_lt_gap he hfree
    rw [gap_natCast (Nat.le_of_lt hfx) hxn] at hdist
    refine ⟨e, he, ?_, hdist, h.laidOut.hash_mod hxn he (by omega), ?_⟩
    · rw [keyAt, he]
      rfl
    · intro hlast
      obtain ⟨b, hb, hle, hne⟩ := h.passed (x - (n - w)) (by omega)
      rw [natCast_end hn hw hwn, Nat.add_sub_cancel' hlast, he] at hb
      cases hb
      exact ⟨hle, hne⟩
  have hcard : ((Finset.Ioo f n).image (keyAt n buckets key)).card = n - f - 1 := by
    rw [Finset.card_image_of_injOn, Nat.card_Ioo]
    intro x hx y hy heq
    obtain ⟨e, he, hkey, _⟩ := hentry x hx
    obtain ⟨e', he', hkey', _⟩ := hentry y hy
    have hslot := slots_injective h.laidOut.length h.distinct he he'
      (hkey.symm.trans (heq.trans hkey'))
    exact eq_of_natCast_eq (Finset.mem_Ioo.mp hx).2 (Finset.mem_Ioo.mp hy).2 hslot
  refine ⟨(Finset.Ioo f n).image (keyAt n buckets key), ?_, ?_, ?_, ?_, ?_⟩
  · intro hmem
    obtain ⟨x, hx, hkey⟩ := Finset.mem_image.mp hmem
    obtain ⟨e, _, hkey', hdist, hmod, hlast⟩ := hentry x hx
    have hek : e.key = key := hkey'.symm.trans hkey
    have hend := (ZMod.natCast_eq_natCast_iff' _ _ _).mp (natCast_end hn hw hwn 0)
    rw [Nat.add_zero, Nat.add_zero, Nat.mod_eq_of_lt (by omega : n - w < n)] at hend
    rw [hek, hend] at hmod
    exact (hlast (by omega)).2 hek
  · have hsub : (Finset.Ioo f n).image (keyAt n buckets key) ⊆
        ((bindings buckets).map Prod.fst).toFinset := by
      intro k hk
      obtain ⟨x, hx, rfl⟩ := Finset.mem_image.mp hk
      obtain ⟨e, he, hkey, _⟩ := hentry x hx
      rw [hkey, List.mem_toFinset]
      exact List.mem_map_of_mem (f := Prod.fst) (mem_bindings_of_slots he)
    have hle := calc ((Finset.Ioo f n).image (keyAt n buckets key)).card
        ≤ ((bindings buckets).map Prod.fst).toFinset.card := Finset.card_le_card hsub
      _ ≤ ((bindings buckets).map Prod.fst).length := List.toFinset_card_le _
      _ = (bindings buckets).length := List.length_map _
    have hload := h.load
    omega
  · rw [hcard]
    omega
  · intro other hother
    obtain ⟨x, hx, rfl⟩ := Finset.mem_image.mp hother
    obtain ⟨e, _, hkey, hdist, hmod, _⟩ := hentry x hx
    rw [hcard, hkey, hmod]
    omega
  · intro other hother
    obtain ⟨x, hx, rfl⟩ := Finset.mem_image.mp hother
    obtain ⟨e, _, hkey, _, hmod, hlast⟩ := hentry x hx
    rw [hkey, hmod]
    by_cases hle : n - w ≤ x
    · have := (hlast hle).1
      omega
    · omega

/-- A key whose hash leaves `usize` on its way has a crowd before it. -/
theorem Probing.exists_crowd (hn : IsCapacity n) {key : K} {psl : ℕ}
    (h : Probing hasher n buckets key psl) (hover : usizeMax < (hasher key).toNat + psl) :
    ∃ others, Crowd hasher n key others := by
  classical
  have hlt : (hasher key).toNat < 2^64 := (hasher key).toNat_lt
  obtain ⟨w, hw⟩ : ∃ w, (hasher key).toNat + w = 2^64 := ⟨_, Nat.add_sub_cancel' (Nat.le_of_lt hlt)⟩
  have hwpsl : w ≤ psl := by
    unfold usizeMax at hover
    omega
  obtain ⟨z, hz⟩ := h.exists_free
  have hwn : w < n := calc w ≤ psl := hwpsl
    _ ≤ gap _ z := h.passed.le_gap hz
    _ < n := gap_lt _ z
  have hlast : ∀ x, n - w ≤ x → x < n → ∃ e, slots n buckets (x : ZMod n) = some e := by
    intro x hx hxn
    obtain ⟨b, hb, _⟩ := h.passed (x - (n - w)) (by omega)
    rw [natCast_end hn hw (Nat.le_of_lt hwn), Nat.add_sub_cancel' hx] at hb
    exact ⟨b, hb⟩
  have hz' : slots n buckets (z.val : ZMod n) = none := by
    rw [ZMod.natCast_zmod_val]
    exact hz
  have hzw : z.val ≤ n - w := by
    apply Nat.le_of_not_lt
    intro hgt
    obtain ⟨e, he⟩ := hlast z.val (Nat.le_of_lt hgt) (ZMod.val_lt z)
    rw [hz'] at he
    cases he
  -- the free bucket nearest to the home of `key`
  have hfree := Nat.findGreatest_spec (P := fun x : ℕ => slots n buckets (x : ZMod n) = none) hzw hz'
  have hfw := Nat.findGreatest_le (P := fun x : ℕ => slots n buckets (x : ZMod n) = none) (n - w)
  have hgreatest := fun x => Nat.findGreatest_is_greatest (k := x) (n := n - w)
    (P := fun x : ℕ => slots n buckets (x : ZMod n) = none)
  generalize Nat.findGreatest (fun x : ℕ => slots n buckets (x : ZMod n) = none) (n - w) = f at *
  have hne : f ≠ n - w := by
    intro heq
    obtain ⟨e, he⟩ := hlast (n - w) (Nat.le_refl _) (by omega)
    rw [← heq, hfree] at he
    cases he
  apply h.crowd hn hw hwpsl (by omega) (Nat.le_of_lt hwn) hfree
  intro x hfx hxn
  rcases Nat.lt_or_ge x (n - w) with hxw | hxw
  · exact Option.ne_none_iff_exists'.mp (hgreatest x hfx (Nat.le_of_lt hxw))
  · exact hlast x hxw hxn

/-- Without a crowd, hashes stay within `usize`. -/
theorem Probing.fits (hr : Reaches K n) (hc : ¬Crowded hasher) {key : K} {psl : ℕ}
    (h : Probing hasher n buckets key psl) : (hasher key).toNat + psl ≤ usizeMax := by
  apply Nat.le_of_not_lt
  intro hover
  obtain ⟨others, hcrowd⟩ := h.exists_crowd hr.isCapacity hover
  exact hc ⟨n, key, others, hr, hcrowd⟩

/-- Keys of the table have their entries at their homes' counts. -/
theorem LaidOut.card_le_homes (h : LaidOut hasher n buckets) {keys : Finset K}
    (hkeys : ∀ k ∈ keys, k ∈ (bindings buckets).map Prod.fst) {i : ZMod n}
    (hhome : ∀ k ∈ keys, ((hasher k).toNat : ZMod n) = i) :
    keys.card ≤ homes (home n) (slots n buckets) i := by
  apply Finset.card_le_card_of_forall_subsingleton
    (fun k j => ∃ e, slots n buckets j = some e ∧ e.key = k)
  · intro k hk
    obtain ⟨_, hbinding, hfst⟩ := List.mem_map.mp (hkeys k hk)
    obtain ⟨e, he, rfl⟩ := List.mem_map.mp hbinding
    obtain ⟨j, hj⟩ := exists_slots h.length he
    refine ⟨j, Finset.mem_filter.mpr ⟨Finset.mem_univ _, e, hj, ?_⟩, e, hj, hfst⟩
    rw [home, h.hashed hj, ← hhome k hk, ← hfst]
  · intro j _ k hk k' hk'
    obtain ⟨_, e, he, hkey⟩ := hk
    obtain ⟨_, e', he', hkey'⟩ := hk'
    rw [he] at he'
    cases he'
    exact hkey.symm.trans hkey'

/-- In a table of a crowd, a search for its key passes the last bucket. -/
theorem Crowd.passed (hn : IsCapacity n) {key : K} {others : Finset K}
    (hc : Crowd hasher n key others) (h : Probing hasher n buckets key 0)
    (hkeys : ∀ k, k ∈ (bindings buckets).map Prod.fst ↔ k ∈ others) :
    Passed n buckets key (hasher key) (2^64 - (hasher key).toNat) := by
  have hlt : (hasher key).toNat < 2^64 := (hasher key).toNat_lt
  obtain ⟨w, hw⟩ : ∃ w, (hasher key).toNat + w = 2^64 := ⟨_, Nat.add_sub_cancel' (Nat.le_of_lt hlt)⟩
  have hsub : 2^64 - (hasher key).toNat = w := by omega
  obtain ⟨habsent, hload, hbeyond, habove, hbelow⟩ := hc
  rw [hsub] at hbeyond hbelow ⊢
  obtain ⟨z, hz⟩ := h.exists_free
  let c := others.card
  have hcn : c < n := by
    have hpos := Nat.pos_of_neZero n
    omega
  let i : ZMod n := (n - c : ℕ)
  -- the homes from bucket `n - c` to `n - w` have `c` entries, and these do not fit there
  have hcount : c ≤ ∑ k ∈ Finset.range (c - w + 1), homes (home n) (slots n buckets) (i + k) := by
    have hmaps : ∀ k ∈ others, (hasher k).toNat % n - (n - c) ∈ Finset.range (c - w + 1) := by
      intro k hk
      have h1 := habove k hk
      have h2 := hbelow k hk
      rw [Finset.mem_range]
      omega
    calc c = ∑ k ∈ Finset.range (c - w + 1),
          (others.filter (fun o => (hasher o).toNat % n - (n - c) = k)).card :=
        Finset.card_eq_sum_card_fiberwise hmaps
      _ ≤ _ := by
        apply Finset.sum_le_sum
        intro k _
        apply h.laidOut.card_le_homes
        · intro o ho
          exact (hkeys o).mpr (Finset.mem_filter.mp ho).1
        · intro o ho
          obtain ⟨hother, hk⟩ := Finset.mem_filter.mp ho
          have h1 := habove o hother
          have hsum : (hasher o).toNat % n = n - c + k := by omega
          rw [← ZMod.natCast_mod, hsum, Nat.cast_add]
  have hsum := sum_homes_le h.laidOut.layout hz i (c - w)
  have hoffered : w ≤ offered Entry.psl (slots n buckets) (i + (c - w : ℕ)) := by omega
  intro j hj
  obtain ⟨b, hb, hle⟩ := (lt_offered h.laidOut.layout hz).mp (Nat.lt_of_lt_of_le hj hoffered)
  have hbucket : i + ((c - w : ℕ) : ZMod n) = ((n - w : ℕ) : ZMod n) := by
    rw [← Nat.cast_add]
    congr 1
    omega
  refine ⟨b, ?_, hle, ?_⟩
  · rw [natCast_end hn hw (by omega), Nat.cast_add, ← hbucket]
    exact hb
  · rintro rfl
    apply habsent
    rw [← hkeys]
    exact List.mem_map_of_mem (f := Prod.fst) (mem_bindings_of_slots hb)

end Probing
end KeyStore
end SimpleKv
