import SimpleKv.KeyStoreMap

/- What growth costs. `resize` puts every entry of the table into one of twice the size,
   and the table never shrinks. The calls are run with a counter that goes up with each
   `insert_entry` of a `resize`. Whatever the hash function and the order of the calls, the
   size and the counter are those of the largest number of keys there have been at once:
   the table is the least that has room for them, and a table that has grown has moved
   fewer than two entries for each of them (`runOps_moves`). -/
namespace SimpleKv
namespace KeyStore
open Outcome PartialMap

variable {K V : Type}

/-- Computations that count. -/
abbrev Counted := StateT ℕ Rust

def insertEntryCounted (self : KeyStore K V) (entry : Entry K V) : Counted (KeyStore K V) := do
  modify (· + 1)
  self.insertEntry entry

def resizeCounted : KeyStore K V → Counted (KeyStore K V) := resizeWith insertEntryCounted

theorem insertEntryCounted_run (self : KeyStore K V) (entry : Entry K V) (moves : ℕ) :
    (self.insertEntryCounted entry).run moves =
      (fun store => (store, moves + 1)) <$> self.insertEntry entry := by
  unfold insertEntryCounted
  cases h : self.insertEntry entry <;> rfl

theorem insertEntry_foldlM_counted : ∀ (entries : List (Entry K V)) (self : KeyStore K V) (moves : ℕ),
    (entries.foldlM insertEntryCounted self).run moves =
      (fun store => (store, moves + entries.length)) <$> entries.foldlM insertEntry self := by
  intro entries
  induction entries with
  | nil =>
    intro self moves
    rfl
  | cons e entries ih =>
    intro self moves
    rw [List.foldlM_cons, List.foldlM_cons, StateT.run_bind, insertEntryCounted_run]
    cases self.insertEntry e with
    | error f => rfl
    | ok store =>
      show (entries.foldlM insertEntryCounted store).run (moves + 1) = _
      rw [ih store (moves + 1), List.length_cons, Nat.add_assoc, Nat.add_comm 1]
      rfl

/-- `resize` moves what the table holds. -/
theorem resizeCounted_run (self : KeyStore K V) (moves : ℕ) : self.resizeCounted.run moves =
    (fun store => (store, moves + self.buckets.reduceOption.length)) <$> self.resize := by
  unfold resizeCounted resize resizeWith
  simp only [StateT.run_bind]
  cases reserve (self.buckets.length * 2) entrySize with
  | error f => rfl
  | ok _ => exact insertEntry_foldlM_counted _ _ moves

section Operations
variable [DecidableEq K]

def insertCounted : KeyStore K V → K → V → Counted (Option V × KeyStore K V) :=
  insertWith wrappingAdd shouldResize resizeCounted

def Op.runCounted : Op K V → KeyStore K V → Counted (Option V × KeyStore K V) :=
  Op.runWith insertCounted KeyStore.get KeyStore.getMut KeyStore.del

def runOpsCounted : List (Op K V) → KeyStore K V → Counted (List (Option V) × KeyStore K V) :=
  runOpsWith Op.runCounted

/-! The largest number of keys. -/

/-- How many keys are bound. -/
noncomputable def keyCount (m : K → Option V) : ℕ := {k | m k ≠ none}.ncard

/-- The largest number of keys bound before, between and after the calls. -/
noncomputable def peak : List (Op K V) → (K → Option V) → ℕ
  | [], m => keyCount m
  | op :: ops, m => max (keyCount m) (peak ops (op.onMap m).2)

section Steps
variable {self self' : KeyStore K V} {m : K → Option V}

omit [DecidableEq K] in
theorem Holds.keyCount_eq (h : Holds self m) : keyCount m = self.len :=
  h.lists.ncard.trans h.len_eq.symm

omit [DecidableEq K] in
theorem Holds.finite (h : Holds self m) : {k | m k ≠ none}.Finite := by
  classical
  apply (self.iter.map Prod.fst).toFinset.finite_toSet.subset
  intro k hk
  rw [Finset.mem_coe, List.mem_toFinset]
  exact h.lists.mem_keys.mpr hk

/-- A call binds one key more at most, and only an `insert` does. -/
theorem Holds.keyCount_le (h : Holds self m) (op : Op K V) :
    keyCount (op.onMap m).2 ≤ keyCount m + (if op.inserts then 1 else 0) := by
  have hle : ∀ {m' : K → Option V}, (∀ k, m' k ≠ none → m k ≠ none) → keyCount m' ≤ keyCount m :=
    fun hsub => Set.ncard_le_ncard (fun k hk => hsub k hk) h.finite
  cases op with
  | insert key value =>
    have hsub : {k | Function.update m key (some value) k ≠ none} ⊆ Set.insert key {k | m k ≠ none} := by
      intro k hk
      by_cases he : k = key
      · exact .inl he
      · exact .inr (by simpa [Function.update_of_ne he] using hk)
    calc keyCount (Function.update m key (some value))
        ≤ (Set.insert key {k | m k ≠ none}).ncard :=
          Set.ncard_le_ncard hsub (h.finite.insert key)
      _ ≤ keyCount m + 1 := Set.ncard_insert_le _ _
  | get key => exact Nat.le_refl _
  | getMut key update =>
    apply hle
    intro k hk
    by_cases he : k = key
    · subst he
      simpa [Op.onMap] using hk
    · simpa [Op.onMap, Function.update_of_ne he] using hk
  | del key =>
    apply hle
    intro k hk
    by_cases he : k = key
    · subst he
      simp [Op.onMap] at hk
    · simpa [Op.onMap, Function.update_of_ne he] using hk

/-- The size of the table and the number of entries moved, after at most `most` keys. -/
structure Grown (store : KeyStore K V) (most moves : ℕ) : Prop where
  room : 4 * most < 3 * store.buckets.length
  needed : store.buckets.length = startCapacity ∨ 3 * store.buckets.length ≤ 8 * most
  moved : 4 * moves + 3 * startCapacity = 3 * store.buckets.length

omit [DecidableEq K] in
/-- A call after which the table has its size. -/
theorem Grown.keep {most moves : ℕ} (h : self.Grown most moves)
    (hlen : self'.buckets.length = self.buckets.length) {m' : K → Option V} (h' : Holds self' m') :
    self'.Grown (max most (keyCount m')) moves where
  room := by
    have hroom := h.room
    have hload := h'.load
    rw [h'.keyCount_eq]
    omega
  needed := by
    have := h.needed
    omega
  moved := by rw [hlen, h.moved]

omit [DecidableEq K] in
/-- One key too many: the entries moved are three quarters of the smaller table. -/
theorem Grown.double {most moves count : ℕ} (h : self.Grown most moves)
    (hn : IsCapacity self.buckets.length) (hlen : self'.buckets.length = self.buckets.length * 2)
    (hload : 4 * count < 3 * self.buckets.length + 4) (hfull : 3 * self.buckets.length ≤ 4 * count) :
    self'.Grown (max most count) (moves + count) where
  room := by
    have hroom := h.room
    have hpos := hn.two_lt
    omega
  needed := .inr (by omega)
  moved := by
    have hfour := hn.mod_four
    have hmoved := h.moved
    omega

theorem insertCounted_present (h : Holds self m) {key : K} {v : V} (hm : m key = some v) (value : V)
    (moves : ℕ) : (self.insertCounted key value).run moves =
      (fun r => (r, moves)) <$> self.insert key value := by
  obtain ⟨buckets, hrun, _⟩ := h.insertLoop_present hm value
  rw [insertCounted, insert, insertWith_present rfl hrun, insertWith_present rfl hrun]
  rfl

/-- A new key moves all entries or none. -/
theorem insertCounted_absent (h : Holds self m) {key : K} (hm : m key = none) (value : V)
    (moves : ℕ) : (self.insertCounted key value).run moves =
      (fun r => (r, if 3 * self.buckets.length ≤ 4 * (self.len + 1) then moves + (self.len + 1)
        else moves)) <$> self.insert key value := by
  obtain ⟨buckets, hrun, hlaid, hp⟩ := h.insertLoop_absent hm value
  have hcount : self.len + 1 = buckets.reduceOption.length := by
    rw [← List.length_map (f := fun entry => (entry.key, entry.value))]
    show _ = (bindings buckets).length
    rw [hp.length_eq, List.length_cons]
    exact congrArg (· + 1) h.len_eq
  let grown : KeyStore K V := { self with len := self.len + 1, buckets }
  have hfull : grown.shouldResize = decide (3 * self.buckets.length ≤ 4 * (self.len + 1)) := by
    unfold shouldResize
    rw [show grown.buckets.length = _ from hlaid.length]
  rw [insertCounted, insert, insertWith_absent rfl hrun, insertWith_absent rfl hrun]
  by_cases hresize : 3 * self.buckets.length ≤ 4 * (self.len + 1)
  · rw [decide_eq_true hresize] at hfull
    rw [if_pos hfull, if_pos hfull, if_pos hresize, StateT.run_map, resizeCounted_run]
    show (fun r => ((none, r.1), r.2)) <$>
        (fun store => (store, moves + buckets.reduceOption.length)) <$> grown.resize = _
    rw [← hcount]
    cases grown.resize <;> rfl
  · rw [decide_eq_false hresize] at hfull
    have hroom : ¬grown.shouldResize = true := Bool.not_eq_true _ ▸ hfull
    rw [if_neg hroom, if_neg hresize, if_neg hroom]
    rfl

theorem insertCounted_spec (h : Holds self m) {most moves : ℕ} (hgrown : self.Grown most moves)
    (key : K) (value : V) :
    Completes ((self.insertCounted key value).run moves) (fun ((old, self'), moves') =>
      self.insert key value = .ok (old, self') ∧
      Holds self' (Function.update m key (some value)) ∧
      self'.Grown (max most (keyCount (Function.update m key (some value)))) moves') := by
  cases hm : m key with
  | some v =>
    obtain ⟨self', hrun, h', hlen⟩ := insert_present h hm value
    rw [insertCounted_present h hm, hrun]
    exact ⟨rfl, h', hgrown.keep hlen h'⟩
  | none =>
    rw [insertCounted_absent h hm]
    have hgrows := insert_grows h key value
    cases hrun : self.insert key value with
    | error f => exact hgrows.of_error hrun
    | ok r =>
      obtain ⟨old, self'⟩ := r
      obtain ⟨_, h', hlen⟩ := hgrows.of_ok hrun
      have hcount := h'.keyCount_eq
      have hload := h'.load
      rw [h.len_insert hm h'] at hcount hload
      refine ⟨rfl, h', ?_⟩
      rcases hlen with hsame | ⟨_, hfull, _, hdouble⟩
      · rw [hsame] at hload
        rw [if_neg (by omega)]
        exact hgrown.keep hsame h'
      · rw [if_pos hfull, hcount]
        have hroom := h.load
        exact hgrown.double h.capacity hdouble (by omega) hfull

theorem Op.runCounted_spec (h : Holds self m) {most moves : ℕ} (hgrown : self.Grown most moves)
    (op : Op K V) : Completes ((op.runCounted self).run moves) (fun ((result, self'), moves') =>
      op.run self = .ok (result, self') ∧ Holds self' (op.onMap m).2 ∧
      self'.Grown (max most (keyCount (op.onMap m).2)) moves') := by
  cases op with
  | insert key value => exact insertCounted_spec h hgrown key value
  | get key =>
    rw [Op.runCounted, Op.run, Op.runWith, Op.runWith, get_spec h key]
    exact ⟨rfl, h, hgrown.keep rfl h⟩
  | getMut key update =>
    obtain ⟨self', hrun, h', hlen⟩ := getMut_spec h key update
    rw [Op.runCounted, Op.run, Op.runWith, Op.runWith, hrun]
    exact ⟨rfl, h', hgrown.keep hlen h'⟩
  | del key =>
    obtain ⟨self', hrun, h', hlen⟩ := del_spec h key
    rw [Op.runCounted, Op.run, Op.runWith, Op.runWith, hrun]
    exact ⟨rfl, h', hgrown.keep hlen h'⟩

theorem keyCount_le_peak (ops : List (Op K V)) (m : K → Option V) : keyCount m ≤ peak ops m := by
  cases ops with
  | nil => exact Nat.le_refl _
  | cons op ops => exact Nat.le_max_left _ _

theorem runOpsCounted_spec : ∀ (ops : List (Op K V)) {self : KeyStore K V} {m : K → Option V}
    {most moves : ℕ}, Holds self m → self.Grown most moves → keyCount m ≤ most →
    Completes ((runOpsCounted ops self).run moves) (fun ((results, self'), moves') =>
      runOps ops self = .ok (results, self') ∧
      self'.Grown (max most (peak ops m)) moves' ∧ peak ops m ≤ keyCount m + ops.countP Op.inserts) := by
  intro ops
  induction ops with
  | nil =>
    intro self m most moves h hgrown hle
    refine ⟨rfl, ?_, Nat.le_refl _⟩
    rw [show max most (peak ([] : List (Op K V)) m) = most from Nat.max_eq_left hle]
    exact hgrown
  | cons op ops ih =>
    intro self m most moves h hgrown hle
    rw [runOpsCounted, runOpsWith, StateT.run_bind]
    apply Yields.bind (Op.runCounted_spec h hgrown op)
    rintro ⟨⟨result, self'⟩, moves'⟩ ⟨hrun, h', hgrown'⟩
    rw [StateT.run_bind]
    apply Yields.bind (ih h' hgrown' (Nat.le_max_right _ _))
    rintro ⟨⟨results, self''⟩, moves''⟩ ⟨hruns, hgrown'', hinserts⟩
    have hstep := h.keyCount_le op
    have hpeak := keyCount_le_peak ops (op.onMap m).2
    refine ⟨?_, ?_, ?_⟩
    · rw [runOps, runOpsWith, hrun]
      show (do let r ← runOps ops self'; _) = _
      rw [hruns]
      rfl
    · rw [show max most (peak (op :: ops) m) =
        max (max most (keyCount (op.onMap m).2)) (peak ops (op.onMap m).2) by rw [peak]; omega]
      exact hgrown''
    · rw [peak, List.countP_cons]
      omega

/-- The table has the least of the sizes 16, 32, 64, .. that is more than four thirds of the
    largest number of keys there have been at once, and growing to it has moved an entry for
    three of four of its buckets but the first 16: fewer than two for each of the keys. -/
theorem runOps_moves (hasher : K → UInt64) (ops : List (Op K V)) :
    Completes ((runOpsCounted ops (withHasher hasher)).run 0) (fun ((results, self), moves) =>
      runOps ops (withHasher hasher) = .ok (results, self) ∧
      (∃ k, self.buckets.length = startCapacity * 2^k) ∧
      (∀ k, 4 * peak ops (fun _ => none) < 3 * (startCapacity * 2^k) ↔
        self.buckets.length ≤ startCapacity * 2^k) ∧
      4 * moves = 3 * (self.buckets.length - startCapacity) ∧
      moves ≤ 2 * peak ops (fun _ => none) ∧ peak ops (fun _ => none) ≤ ops.countP Op.inserts) := by
  have hnone : keyCount (fun _ : K => (none : Option V)) = 0 := by simp [keyCount]
  have hgrown : (withHasher hasher : KeyStore K V).Grown 0 0 :=
    ⟨by simp [withHasher, startCapacity], .inl rfl, rfl⟩
  apply Yields.mono (runOpsCounted_spec ops (withHasher_holds hasher) hgrown (by rw [hnone]))
  intro r hpost
  obtain ⟨⟨results, self⟩, moves⟩ := r
  obtain ⟨hrun, hgrown, hinserts⟩ := hpost
  rw [hnone, Nat.zero_add] at hinserts
  rw [Nat.zero_max] at hgrown
  have hmoved := hgrown.moved
  have hneeded := hgrown.needed
  have hroom := hgrown.room
  obtain ⟨j, hj, _, hpow⟩ := ((runOps_spec ops (withHasher_holds hasher)).of_ok hrun).2.capacity
  have hsize : self.buckets.length = startCapacity * 2^(j - 4) := by
    rw [hpow, show startCapacity = 2^4 from rfl, ← Nat.pow_add, Nat.add_sub_cancel' hj]
  refine ⟨hrun, ⟨_, hsize⟩, fun k => ⟨fun hk => ?_, fun hk => by omega⟩, by omega, ?_, hinserts⟩
  · -- half of a larger table has no room for the keys of the peak
    rw [show startCapacity * 2^k = 2^(k + 4) by rw [Nat.pow_add, Nat.mul_comm]; rfl] at hk ⊢
    rw [show startCapacity = 2^4 from rfl, hpow] at hneeded
    by_contra hlarge
    rw [hpow, Nat.not_le, Nat.pow_lt_pow_iff_right (by decide)] at hlarge
    have hdouble : 2^(k + 4) * 2 ≤ 2^j := calc
      2^(k + 4) * 2 = 2^(k + 5) := rfl
      _ ≤ 2^j := Nat.pow_le_pow_right (by decide) hlarge
    have hpos : 2^4 ≤ 2^(k + 4) := Nat.pow_le_pow_right (by decide) (by omega)
    omega
  · unfold startCapacity at hmoved hneeded
    omega

end Steps
end Operations
end KeyStore
end SimpleKv
