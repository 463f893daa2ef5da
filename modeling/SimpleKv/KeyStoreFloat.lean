import SimpleKv.KeyStoreInvariant
import SimpleKv.Lib.Binary32

/- `should_resize` as it is written, with its division in `f32`. From 2^25 buckets on the
   count is rounded, and the table doubles a little before it is three quarters full. It
   never doubles later, so the store with this test does what the store with the exact one
   does, and while it has 2^24 buckets at most, the two are the same. -/
namespace SimpleKv
namespace KeyStore
open Outcome PartialMap

variable {K V : Type}

/-- `RESIZE_FACTOR` -/
def resizeFactor : Float32 := 0.75

/-- `len as f32 / buckets.len() as f32 >= RESIZE_FACTOR` -/
def shouldResizeF32 (self : KeyStore K V) : Bool :=
  (UInt64.ofNat self.len).toFloat32 / (UInt64.ofNat self.buckets.length).toFloat32 ≥ resizeFactor

/-- The table doubles `buckets.len() / 2^25` entries early, rounded up. -/
theorem shouldResizeF32_iff {self : KeyStore K V} (hn : IsCapacity self.buckets.length)
    (hlen : self.len ≤ self.buckets.length) :
    self.shouldResizeF32 = true ↔ (3 * 2^23 - 1) * self.buckets.length ≤ 2^25 * self.len := by
  obtain ⟨k, _, hk, hpow⟩ := hn
  have hle : 2^k ≤ 2^63 := Nat.pow_le_pow_right (by decide) hk
  have hfactor : Binary32.Normal resizeFactor.toModel.unpack (3 * 2^22) (-24) :=
    ⟨by decide, by decide, by decide, rfl⟩
  unfold shouldResizeF32
  rw [hpow] at hlen ⊢
  rw [decide_eq_true_iff]
  exact hfactor.le_div_two_pow_iff (by decide) (by decide) (by omega) (by omega)

/-- Up to 2^24 buckets every count is an `f32`, or rounds to the same side. -/
theorem shouldResizeF32_eq {self : KeyStore K V} (hn : IsCapacity self.buckets.length)
    (hlen : self.len ≤ self.buckets.length) (hsmall : self.buckets.length ≤ 2^24) :
    self.shouldResizeF32 = self.shouldResize := by
  have hiff := shouldResizeF32_iff hn hlen
  have hfour := hn.mod_four
  rw [Bool.eq_iff_iff, hiff]
  unfold shouldResize
  rw [decide_eq_true_iff]
  omega

/-- And it is never three quarters full afterwards. -/
theorem shouldResizeF32_load {self : KeyStore K V} (hn : IsCapacity self.buckets.length)
    (hlen : self.len ≤ self.buckets.length) (hroom : self.shouldResizeF32 = false) :
    4 * self.len < 3 * self.buckets.length := by
  have hiff := shouldResizeF32_iff hn hlen
  have hpos := hn.two_lt
  rw [hroom] at hiff
  simp only [Bool.false_eq_true, false_iff] at hiff
  omega

section Operations
variable [DecidableEq K] {self : KeyStore K V} {m : K → Option V}

/-- `insert`, with that test. -/
def insertF32 : KeyStore K V → K → V → Rust (Option V × KeyStore K V) :=
  insertWith wrappingAdd shouldResizeF32 resize

theorem insertF32_present (h : Holds self m) {key : K} {v : V} (hm : m key = some v) (value : V) :
    self.insertF32 key value = self.insert key value := by
  obtain ⟨buckets, hrun, _⟩ := h.insertLoop_present hm value
  rw [insertF32, insert, insertWith_present rfl hrun, insertWith_present rfl hrun]

omit [DecidableEq K] in
/-- Doubling keeps the map, whatever it was decided by. -/
theorem resize_holds {store : KeyStore K V} (hn : IsCapacity store.buckets.length)
    (hlaid : LaidOut store.hasher store.buckets.length store.buckets) (hlists : Lists store.iter m)
    (hcount : store.len = store.iter.length) (hroom : store.len ≤ store.buckets.length) :
    Completes store.resize (fun store' => Holds store' m ∧ store'.hasher = store.hasher ∧
      store'.buckets.length = store.buckets.length * 2) := by
  by_cases hmem : store.buckets.length * 2 * entrySize ≤ isizeMax
  · obtain ⟨buckets, hrun, hlaid', hp⟩ := resize_ok hn store hlaid hmem
    have hcount' := calc store.len = store.iter.length := hcount
      _ = (bindings buckets).length := hp.length_eq.symm
    rw [hrun]
    refine ⟨⟨?_, ?_, hlists.perm hp, hcount', ?_⟩, rfl, hlaid'.length⟩
    · rw [hlaid'.length]; exact hn.double hmem
    · rw [hlaid'.length]; exact hlaid'
    · rw [hlaid'.length]
      have := hn.two_lt
      show 4 * store.len < _
      omega
  · obtain ⟨f, hrun, hf⟩ := resize_outOfMemory store (Nat.lt_of_not_le hmem)
    rw [hrun]
    exact hf

/-- A new key, with either test where the table is small. -/
theorem insertF32_absent (h : Holds self m) {key : K} (hm : m key = none) (value : V) :
    Completes (self.insertF32 key value) (fun (old, self') =>
      old = none ∧ Holds self' (Function.update m key (some value)) ∧ self'.hasher = self.hasher ∧
      self'.buckets.length = (if (3 * 2^23 - 1) * self.buckets.length ≤ 2^25 * (self.len + 1) then
        self.buckets.length * 2 else self.buckets.length)) ∧
    (self.buckets.length ≤ 2^24 → self.insertF32 key value = self.insert key value) := by
  obtain ⟨buckets, hrun, hlaid, hp⟩ := h.insertLoop_absent hm value
  have hcount : self.len + 1 = (bindings buckets).length := by
    rw [hp.length_eq, List.length_cons]
    exact congrArg (· + 1) h.len_eq
  have hload := h.load
  let grown : KeyStore K V := { self with len := self.len + 1, buckets }
  have hlength : grown.buckets.length = self.buckets.length := hlaid.length
  have hn : IsCapacity grown.buckets.length := hlength ▸ h.capacity
  have hlen : grown.len ≤ grown.buckets.length := by
    rw [hlength]
    show self.len + 1 ≤ _
    omega
  have hlaid' : LaidOut grown.hasher grown.buckets.length grown.buckets := hlength ▸ hlaid
  have hlists : Lists grown.iter (Function.update m key (some value)) :=
    (h.lists.add hm value).perm hp
  have hF32 : self.insertF32 key value =
      if grown.shouldResizeF32 then (fun store => (none, store)) <$> grown.resize
      else pure (none, grown) :=
    insertWith_absent rfl hrun
  refine ⟨?_, fun hsmall => ?_⟩
  · have hiff := shouldResizeF32_iff hn hlen
    rw [hlength] at hiff
    rw [hF32]
    by_cases hfull : grown.shouldResizeF32 = true
    · rw [if_pos hfull, if_pos (hiff.mp hfull)]
      apply Yields.map
      apply Yields.mono (resize_holds hn hlaid' hlists hcount hlen)
      intro store hstore
      obtain ⟨h', hhasher, hdouble⟩ := hstore
      exact ⟨rfl, h', hhasher, by rw [hdouble, hlength]⟩
    · rw [if_neg hfull, if_neg (fun hle => hfull (hiff.mpr hle))]
      exact ⟨rfl, ⟨hn, hlaid', hlists, hcount,
        shouldResizeF32_load hn hlen (Bool.eq_false_of_not_eq_true hfull)⟩, rfl, hlength⟩
  · have hsame := shouldResizeF32_eq hn hlen (by omega)
    rw [hF32, insert, insertWith_absent rfl hrun, hsame]

theorem insertF32_spec (h : Holds self m) (key : K) (value : V) :
    Completes (self.insertF32 key value) (fun (old, self') =>
      old = m key ∧ Holds self' (Function.update m key (some value)) ∧
      self'.hasher = self.hasher ∧ self.buckets.length ≤ self'.buckets.length) := by
  cases hm : m key with
  | some v =>
    obtain ⟨self', hrun, h', hlen⟩ := insert_present h hm value
    have hhasher := Op.run_hasher (.insert key value) self
    rw [Op.run, Op.runWith, hrun] at hhasher
    rw [insertF32_present h hm, hrun]
    exact ⟨rfl, h', hhasher, by rw [hlen]⟩
  | none =>
    apply Yields.mono (insertF32_absent h hm value).1
    rintro ⟨old, self'⟩ ⟨hold, h', hhasher, hlen⟩
    refine ⟨hold, h', hhasher, ?_⟩
    rw [hlen]
    split_ifs <;> omega

theorem insertF32_eq (h : Holds self m) (hsmall : self.buckets.length ≤ 2^24) (key : K) (value : V) :
    self.insertF32 key value = self.insert key value := by
  cases hm : m key with
  | some v => exact insertF32_present h hm value
  | none => exact (insertF32_absent h hm value).2 hsmall

/-! Runs. -/

/-- The methods of the store with that test. -/
def Op.runF32 : Op K V → KeyStore K V → Rust (Option V × KeyStore K V) :=
  Op.runWith insertF32 KeyStore.get KeyStore.getMut KeyStore.del

def runOpsF32 : List (Op K V) → KeyStore K V → Rust (List (Option V) × KeyStore K V) :=
  runOpsWith Op.runF32

theorem Op.runF32_spec (h : Holds self m) (op : Op K V) :
    Completes (op.runF32 self) (fun (result, self') =>
      result = (op.onMap m).1 ∧ Holds self' (op.onMap m).2 ∧ self'.hasher = self.hasher ∧
      self.buckets.length ≤ self'.buckets.length) := by
  have hhasher := op.run_hasher self
  cases op with
  | insert key value => exact insertF32_spec h key value
  | get key =>
    rw [Op.runF32, Op.runWith, get_spec h key]
    exact ⟨rfl, h, rfl, Nat.le_refl _⟩
  | getMut key update =>
    obtain ⟨self', hrun, h', hlen⟩ := getMut_spec h key update
    rw [Op.run, Op.runWith, hrun] at hhasher
    rw [Op.runF32, Op.runWith, hrun]
    exact ⟨rfl, h', hhasher, by rw [hlen]⟩
  | del key =>
    obtain ⟨self', hrun, h', hlen⟩ := del_spec h key
    rw [Op.run, Op.runWith, hrun] at hhasher
    rw [Op.runF32, Op.runWith, hrun]
    exact ⟨rfl, h', hhasher, by rw [hlen]⟩

theorem Op.runF32_eq (h : Holds self m) (hsmall : self.buckets.length ≤ 2^24) (op : Op K V) :
    op.runF32 self = op.run self := by
  cases op with
  | insert key value => exact insertF32_eq h hsmall key value
  | get | getMut | del => rfl

theorem runOpsF32_spec : ∀ (ops : List (Op K V)) {self : KeyStore K V} {m : K → Option V},
    Holds self m → Completes (runOpsF32 ops self) (fun (results, self') =>
      results = (opsOnMap ops m).1 ∧ Holds self' (opsOnMap ops m).2 ∧ self'.hasher = self.hasher ∧
      self.buckets.length ≤ self'.buckets.length ∧
      (self'.buckets.length ≤ 2^24 → runOps ops self = .ok (results, self'))) := by
  intro ops
  induction ops with
  | nil =>
    intro self m h
    exact ⟨rfl, h, rfl, Nat.le_refl _, fun _ => rfl⟩
  | cons op ops ih =>
    intro self m h
    have hop := Op.runF32_spec h op
    rw [runOpsF32, runOpsWith]
    cases hrun : op.runF32 self with
    | error f => exact hop.of_error hrun
    | ok r =>
      obtain ⟨result, self'⟩ := r
      obtain ⟨rfl, h', hhasher, hlen⟩ := hop.of_ok hrun
      apply Yields.bind (ih h')
      rintro ⟨results, self''⟩ ⟨rfl, h'', hhasher', hlen', hsame⟩
      refine ⟨rfl, h'', hhasher'.trans hhasher, hlen.trans hlen', fun hsmall => ?_⟩
      -- no table on the way was larger than the last one
      have hrun' : op.run self = .ok ((op.onMap m).1, self') := by
        rw [← Op.runF32_eq h (by omega) op, hrun]
      rw [runOps, runOpsWith, hrun']
      show (do let r ← runOps ops self'; _) = _
      rw [hsame hsmall]
      rfl

/-- The store with the test in `f32` refines the partial map and keeps the representation
    invariant, whatever the hash function and however large it grows; a new key doubles it
    as soon as it is three quarters full but for a 2^25th of its buckets, and it is the
    store with the exact test as long as it has 2^24 buckets at most. -/
theorem runOpsF32_refines_map (hasher : K → UInt64) (ops : List (Op K V)) :
    Completes (runOpsF32 ops (withHasher hasher)) (fun (results, self) =>
      results = (opsOnMap ops (fun _ => none)).1 ∧
      (∀ k v, (k, v) ∈ self.iter ↔ (opsOnMap ops (fun _ => none)).2 k = some v) ∧
      self.hasher = hasher ∧ self.RobinHoodTable ∧
      (self.buckets.length ≤ 2^24 → runOps ops (withHasher hasher) = .ok (results, self)) ∧
      ∀ key value, (opsOnMap ops (fun _ => none)).2 key = none →
        Completes (self.insertF32 key value) (fun (_, self') => self'.buckets.length =
          if (3 * 2^23 - 1) * self.buckets.length ≤ 2^25 * (self.len + 1) then
            self.buckets.length * 2 else self.buckets.length)) := by
  apply Yields.mono (runOpsF32_spec ops (withHasher_holds hasher))
  intro (results, self) hpost
  obtain ⟨hresults, h, hhasher, _, hsame⟩ := hpost
  refine ⟨hresults, fun _ _ => h.lists.mem_iff, hhasher, h.robinHoodTable, hsame, ?_⟩
  intro key value hkey
  apply Yields.mono (insertF32_absent h hkey value).1
  intro (_, self') hinsert
  exact hinsert.2.2.2

end Operations
end KeyStore
end SimpleKv
