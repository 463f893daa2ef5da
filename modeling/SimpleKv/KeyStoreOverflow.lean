import SimpleKv.KeyStoreChecked
import SimpleKv.KeyStoreCrowding

/- When the build with overflow checks stops. Without a crowd every loop finds the same
   buckets in both builds, along every run (`runOps_eq`). With one there is a run that
   gets to it: enough keys to make the table large, their deletion, then the crowd, and a
   search for its key (`exists_overflow`). -/
namespace SimpleKv
namespace KeyStore
open Outcome PartialMap RobinHood

variable {K V : Type}

theorem Reaches.start : Reaches K startCapacity where
  size := ⟨0, rfl⟩
  memory := by decide
  grown := .inl rfl

theorem Reaches.double {n : ℕ} (h : Reaches K n) (hmem : n * 2 * entrySize ≤ isizeMax)
    {l : List (K × V)} {m : K → Option V} (hl : Lists l m) (hfull : 3 * n ≤ 4 * l.length) :
    Reaches K (n * 2) where
  size := by
    obtain ⟨k, rfl⟩ := h.size
    exact ⟨k + 1, by rw [Nat.pow_succ, Nat.mul_assoc]⟩
  memory := hmem
  grown := by
    classical
    refine .inr ⟨(l.map Prod.fst).toFinset, ?_⟩
    rw [List.toFinset_card_of_nodup hl.distinct, List.length_map]
    omega

/-- A table only has lengths that the keys there are can make. -/
theorem Op.run_reaches [DecidableEq K] {self : KeyStore K V} {m : K → Option V} (h : Holds self m)
    (hr : Reaches K self.buckets.length) (op : Op K V) :
    Completes (op.run self) (fun (_, self') => Reaches K self'.buckets.length) := by
  cases op with
  | insert key value =>
    apply Yields.mono (insert_grows h key value)
    intro (old, self') hpost
    obtain ⟨_, h', hlen | ⟨hm, hfull, hmem, hlen⟩⟩ := hpost
    · show Reaches K self'.buckets.length
      rw [hlen]
      exact hr
    · show Reaches K self'.buckets.length
      rw [hlen]
      apply hr.double hmem h'.lists
      rw [← h'.len_eq, h.len_insert hm h']
      exact hfull
  | get key =>
    rw [Op.run, Op.runWith, get_spec h key]
    exact hr
  | getMut key update =>
    obtain ⟨self', hrun, _, hlen⟩ := getMut_spec h key update
    rw [Op.run, Op.runWith, hrun]
    show Reaches K self'.buckets.length
    rw [hlen]
    exact hr
  | del key =>
    obtain ⟨self', hrun, _, hlen⟩ := del_spec h key
    rw [Op.run, Op.runWith, hrun]
    show Reaches K self'.buckets.length
    rw [hlen]
    exact hr

namespace Checked

theorem getBucketIndex_ok (buckets : List (Option (Entry K V))) {hash : UInt64} {psl : ℕ}
    (h : hash.toNat + psl ≤ usizeMax) :
    getBucketIndexWith usizeAdd buckets hash psl =
      .ok (KeyStore.getBucketIndex buckets hash psl) := by
  have hmod : (hash.toNat + psl) % 2^64 = hash.toNat + psl := by
    apply Nat.mod_eq_of_lt
    unfold usizeMax at h
    omega
  unfold getBucketIndexWith KeyStore.getBucketIndex
  rw [usizeAdd_ok h, hmod]
  rfl

theorem getBucketIndex_overflow (buckets : List (Option (Entry K V))) {hash : UInt64} {psl : ℕ}
    (h : usizeMax < hash.toNat + psl) :
    getBucketIndexWith usizeAdd buckets hash psl = .error .arithmeticOverflow := by
  unfold getBucketIndexWith
  rw [usizeAdd_overflow h]
  rfl

/-! Without a crowd. -/

section Fits
variable {hasher : K → UInt64} (hc : ¬Crowded hasher) {n : ℕ} [NeZero n] (hr : Reaches K n)
include hc hr

theorem getBucketIndex_eq {buckets : List (Option (Entry K V))} {key : K} {psl : ℕ}
    (h : Probing hasher n buckets key psl) :
    getBucketIndexWith usizeAdd buckets (hasher key) psl =
      .ok (KeyStore.getBucketIndex buckets (hasher key) psl) :=
  getBucketIndex_ok buckets (h.fits hr hc)

/-- The displacement loop, for an entry with a new key. -/
theorem insertEntryLoop_eq : ∀ (fuel : ℕ) (buckets : List (Option (Entry K V))) (entry : Entry K V),
    entry.hash = hasher entry.key → Probing hasher n buckets entry.key entry.psl →
    (entry.key :: (bindings buckets).map Prod.fst).Nodup →
    insertEntryLoop fuel buckets entry = KeyStore.insertEntryLoop fuel buckets entry := by
  intro fuel
  induction fuel with
  | zero =>
    intro buckets entry hhash h hnodup
    rfl
  | succ fuel ih =>
    intro buckets entry hhash h hnodup
    have hlen := h.laidOut.length
    have hidx := getBucketIndex_eq hc hr h
    rw [← hhash] at hidx
    rw [insertEntryLoop, KeyStore.insertEntryLoop, insertEntryLoopWith, insertEntryLoopWith, hidx,
      getBucketIndexWith_wrapping, ok_bind, ok_bind, index_slotOf hr.isCapacity hlen]
    cases he : slots n buckets (slotOf n entry) with
    | none => rfl
    | some e =>
      rw [ok_bind, ok_bind]
      by_cases hlt : e.psl < entry.psl
      · obtain ⟨hswap, hnodup'⟩ := h.swap hr.isCapacity hhash he hlt
        simp only [hlt, if_true]
        have hhash' : e.hash = hasher e.key := h.laidOut.hashed he
        exact ih _ { e with psl := e.psl + 1 } hhash' hswap hnodup'
      · have hnext := h.next (b := e) (by rw [← hhash, natCast_slotOf]; exact he)
          (Nat.le_of_not_lt hlt) (by
            intro hkey
            apply (List.nodup_cons.mp hnodup).1
            rw [← hkey]
            exact List.mem_map_of_mem (f := Prod.fst) (mem_bindings_of_slots he))
        simp only [hlt, if_false]
        exact ih buckets { entry with psl := entry.psl + 1 } hhash hnext hnodup

variable [DecidableEq K]

theorem indexOfLoop_eq {self : KeyStore K V} {key : K} : ∀ (fuel psl : ℕ),
    Probing hasher n self.buckets key psl →
    indexOfLoop fuel self key (hasher key) psl =
      KeyStore.indexOfLoop fuel self key (hasher key) psl := by
  intro fuel
  induction fuel with
  | zero =>
    intro psl h
    rfl
  | succ fuel ih =>
    intro psl h
    have hlen := h.laidOut.length
    rw [indexOfLoop, KeyStore.indexOfLoop, indexOfLoopWith, indexOfLoopWith,
      getBucketIndex_eq hc hr h, getBucketIndexWith_wrapping, ok_bind, ok_bind,
      KeyStore.getBucketIndex_eq hr.isCapacity hlen, index_slots hlen, ok_bind, ok_bind]
    cases hb : slots n self.buckets (((hasher key).toNat + psl : ℕ) : ZMod n) with
    | none => rfl
    | some b =>
      by_cases hlt : b.psl < psl
      · simp only [hlt, if_true]
      · by_cases hmatch : b.hash = hasher key ∧ b.key = key
        · simp only [hlt, hmatch, and_self, if_true, if_false]
        · simp only [hlt, hmatch, if_false]
          exact ih (psl + 1) (h.onward hb hlt hmatch)

theorem delLoop_eq {self : KeyStore K V} {key : K} : ∀ (fuel psl : ℕ),
    Probing hasher n self.buckets key psl →
    delLoop fuel self key (hasher key) psl = KeyStore.delLoop fuel self key (hasher key) psl := by
  intro fuel
  induction fuel with
  | zero =>
    intro psl h
    rfl
  | succ fuel ih =>
    intro psl h
    have hlen := h.laidOut.length
    rw [delLoop, KeyStore.delLoop, delLoopWith, delLoopWith, getBucketIndex_eq hc hr h,
      getBucketIndexWith_wrapping, ok_bind, ok_bind,
      KeyStore.getBucketIndex_eq hr.isCapacity hlen, index_slots hlen, ok_bind, ok_bind]
    cases hb : slots n self.buckets (((hasher key).toNat + psl : ℕ) : ZMod n) with
    | none => rfl
    | some b =>
      by_cases hlt : b.psl < psl
      · simp only [hlt, if_true]
      · by_cases hmatch : b.hash = hasher key ∧ b.key = key
        · simp only [hlt, hmatch, and_self, if_true, if_false]
        · simp only [hlt, hmatch, if_false]
          exact ih (psl + 1) (h.onward hb hlt hmatch)

/-- The loop of `insert`, for a key in the table or a new one. -/
theorem insertLoop_eq : ∀ (fuel : ℕ) (buckets : List (Option (Entry K V))) (entry : Entry K V),
    entry.hash = hasher entry.key → Probing hasher n buckets entry.key entry.psl →
    insertLoop fuel buckets entry (KeyStore.getBucketIndex buckets entry.hash entry.psl) =
      KeyStore.insertLoop fuel buckets entry
        (KeyStore.getBucketIndex buckets entry.hash entry.psl) := by
  intro fuel
  induction fuel with
  | zero =>
    intro buckets entry hhash h
    rfl
  | succ fuel ih =>
    intro buckets entry hhash h
    have hlen := h.laidOut.length
    rw [insertLoop, KeyStore.insertLoop, insertLoopWith, insertLoopWith,
      index_slotOf hr.isCapacity hlen, ok_bind, ok_bind]
    cases he : slots n buckets (slotOf n entry) with
    | none => rfl
    | some e =>
      have hslot : slots n buckets (((hasher entry.key).toNat + entry.psl : ℕ) : ZMod n) = some e := by
        rw [← hhash, natCast_slotOf]
        exact he
      by_cases hmatch : e.hash = entry.hash ∧ e.key = entry.key
      · simp only [hmatch, and_self, if_true]
      · by_cases hlt : e.psl < entry.psl
        · -- the index of the displaced entry is computed for the table it leaves
          have hhash' : e.hash = hasher e.key := h.laidOut.hashed he
          obtain ⟨hswap, _⟩ := h.swap hr.isCapacity hhash he hlt
          have hrest := ih _ { e with psl := e.psl + 1 } hhash' hswap
          have hidx : ∀ i b, KeyStore.getBucketIndex (buckets.set i b) e.hash (e.psl + 1) =
              KeyStore.getBucketIndex buckets e.hash (e.psl + 1) := by
            intro i b
            unfold KeyStore.getBucketIndex
            rw [List.length_set]
          have hfits := hswap.fits hr hc
          rw [← hhash'] at hfits
          simp only [hmatch, hlt, if_true, if_false, getBucketIndex_ok buckets hfits,
            getBucketIndexWith_wrapping, ok_bind]
          rw [hidx] at hrest
          exact hrest
        · have hnext := h.onward hslot hlt (by rw [← hhash]; exact hmatch)
          have hfits := hnext.fits hr hc
          rw [← hhash] at hfits
          simp only [hmatch, hlt, if_false, getBucketIndex_ok buckets hfits,
            getBucketIndexWith_wrapping, ok_bind]
          exact ih buckets { entry with psl := entry.psl + 1 } hhash hnext

omit [DecidableEq K] in
/-- Entries with new keys, put in one by one. -/
theorem insertEntry_foldlM_eq : ∀ (entries : List (Entry K V)) {self : KeyStore K V},
    LaidOut hasher n self.buckets → (∀ e ∈ entries, e.hash = hasher e.key) →
    (entries.map Entry.key ++ (bindings self.buckets).map Prod.fst).Nodup →
    4 * ((bindings self.buckets).length + entries.length) < 3 * n →
    entries.foldlM insertEntry self = entries.foldlM KeyStore.insertEntry self := by
  intro entries
  induction entries with
  | nil =>
    intro self hl hhash hnodup hload
    rfl
  | cons e entries ih =>
    intro self hl hhash hnodup hload
    rw [List.length_cons] at hload
    have hhash' : e.hash = hasher e.key := hhash e List.mem_cons_self
    rw [List.map_cons, List.cons_append] at hnodup
    obtain ⟨hnew, hrest⟩ := List.nodup_cons.mp hnodup
    have hdistinct := (List.nodup_append.mp hrest).2.1
    obtain ⟨buckets, hrun, hl', hp⟩ := insertEntry_spec hr.isCapacity hl (by omega) hhash'
    have hsame : insertEntry self e = KeyStore.insertEntry self e :=
      congrArg (· >>= _) (insertEntryLoop_eq hc hr self.buckets.length self.buckets
        { e with psl := 0 } hhash' ⟨hl, hdistinct, by omega, Passed.zero _ _⟩
        (List.nodup_cons.mpr ⟨fun h => hnew (List.mem_append_right _ h), hdistinct⟩))
    rw [List.foldlM_cons, List.foldlM_cons, hsame, hrun, ok_bind, ok_bind]
    have hlen := hp.length_eq
    rw [List.length_cons] at hlen
    apply @ih { self with buckets } hl'
      (fun e' h' => hhash e' (List.mem_cons_of_mem _ h'))
    · have hkeys := (hp.map Prod.fst).append_left (entries.map Entry.key)
      exact (hkeys.trans List.perm_middle).nodup_iff.mpr hnodup
    · show 4 * ((bindings buckets).length + entries.length) < 3 * n
      omega

end Fits

section Calls
variable [DecidableEq K] {self : KeyStore K V} {m : K → Option V}

omit [DecidableEq K] in
/-- Growth of a table that is less than half full of the larger one. -/
theorem resize_eq {n : ℕ} (hn : IsCapacity n) (store : KeyStore K V)
    (hc : ¬Crowded store.hasher) (hl : LaidOut store.hasher n store.buckets)
    (hr : n * 2 * entrySize ≤ isizeMax → Reaches K (n * 2))
    (hdistinct : ((bindings store.buckets).map Prod.fst).Nodup)
    (hload : 4 * (bindings store.buckets).length < 3 * (n * 2)) :
    resize store = store.resize := by
  have := hn.neZero
  have hnil : bindings (List.replicate (n * 2) (none : Option (Entry K V))) = [] := by
    simp [bindings]
  have hkeys : store.buckets.reduceOption.map Entry.key = (bindings store.buckets).map Prod.fst := by
    simp [bindings]
  by_cases hmem : n * 2 * entrySize ≤ isizeMax
  · have hmem' : store.buckets.length * 2 * entrySize ≤ isizeMax := by
      rw [hl.length]
      exact hmem
    rw [resize, KeyStore.resize, resizeWith_ok hmem', resizeWith_ok hmem', hl.length]
    apply insertEntry_foldlM_eq hc (hr hmem) _ (LaidOut.empty store.hasher (n * 2))
    · intro e he
      obtain ⟨i, hi⟩ := exists_slots hl.length he
      exact hl.hashed hi
    · rw [hnil, hkeys, List.map_nil, List.append_nil]
      exact hdistinct
    · rw [hnil, List.length_nil, Nat.zero_add]
      simpa [bindings] using hload
  · unfold resize KeyStore.resize resizeWith
    simp only [hl.length, reserve, dif_pos (Nat.lt_of_not_le hmem)]
    rfl

omit [DecidableEq K] in
theorem probing (h : Holds self m) (key : K) :
    Probing self.hasher self.buckets.length self.buckets key 0 where
  laidOut := h.laidOut
  distinct := h.lists.distinct
  load := by
    have hcount : self.len = (bindings self.buckets).length := h.len_eq
    rw [← hcount]
    exact h.load
  passed := Passed.zero _ _

variable (h : Holds self m) (hr : Reaches K self.buckets.length) (hc : ¬Crowded self.hasher)
include h hr hc

theorem indexOf_eq (key : K) : indexOf self key = self.indexOf key := by
  have := h.capacity.neZero
  exact indexOfLoop_eq hc hr self.buckets.length 0 (probing h key)

theorem get_eq (key : K) : get self key = self.get key :=
  congrArg (· >>= _) (indexOf_eq h hr hc key)

theorem getMut_eq (key : K) (update : V → V) : getMut self key update = self.getMut key update :=
  congrArg (· >>= _) (indexOf_eq h hr hc key)

theorem del_eq (key : K) : del self key = self.del key := by
  have := h.capacity.neZero
  exact delLoop_eq hc hr self.buckets.length 0 (probing h key)

theorem insert_eq (key : K) (value : V) : insert self key value = self.insert key value := by
  have := h.capacity.neZero
  have hidx := getBucketIndex_eq hc hr (probing h key)
  have hloop := insertLoop_eq hc hr self.buckets.length self.buckets
    ⟨key, value, 0, self.hasher key⟩ rfl (probing h key)
  cases hm : m key with
  | some v =>
    obtain ⟨buckets, hrun, _⟩ := h.insertLoop_present hm value
    rw [insert, KeyStore.insert, insertWith_present hidx (hloop.trans hrun),
      insertWith_present rfl hrun]
  | none =>
    obtain ⟨buckets, hrun, hlaid, hp⟩ := h.insertLoop_absent hm value
    rw [insert, KeyStore.insert, insertWith_absent hidx (hloop.trans hrun),
      insertWith_absent rfl hrun]
    have hlists := (h.lists.add hm value).perm hp
    have hcount : (bindings buckets).length = self.len + 1 := by
      rw [hp.length_eq, List.length_cons]
      exact congrArg (· + 1) h.len_eq.symm
    by_cases hfull : shouldResize { self with len := self.len + 1, buckets }
    · have hgrown : 3 * self.buckets.length ≤ 4 * (self.len + 1) := by
        rw [← hlaid.length]
        exact of_decide_eq_true hfull
      have hload := h.load
      have htwo := h.capacity.two_lt
      have hresize := resize_eq h.capacity { self with len := self.len + 1, buckets } hc hlaid
        (fun hmem => hr.double hmem hlists (by rw [hcount]; exact hgrown)) hlists.distinct
        (by
          show 4 * (bindings buckets).length < _
          omega)
      rw [if_pos hfull, if_pos hfull, hresize]
    · rw [if_neg hfull, if_neg hfull]

theorem run_eq (op : Op K V) : run op self = op.run self := by
  cases op with
  | insert key value => exact insert_eq h hr hc key value
  | get key =>
    unfold run Op.run Op.runWith
    simp only [get_eq h hr hc]
  | getMut key update => exact getMut_eq h hr hc key update
  | del key => exact del_eq h hr hc key

end Calls

section Runs
variable [DecidableEq K]

/-- Without a crowd the checks never stop a run. -/
theorem runOps_eq : ∀ (ops : List (Op K V)) {self : KeyStore K V} {m : K → Option V},
    Holds self m → Reaches K self.buckets.length → ¬Crowded self.hasher →
    runOps ops self = KeyStore.runOps ops self := by
  intro ops
  induction ops with
  | nil =>
    intro self m h hr hc
    rfl
  | cons op ops ih =>
    intro self m h hr hc
    have hstep := (Op.run_spec h op).and ((Op.run_reaches h hr op).and (Op.run_hasher op self))
    rw [runOps, KeyStore.runOps, runOpsWith, runOpsWith, run_eq h hr hc op]
    cases hrun : op.run self with
    | error f => rfl
    | ok r =>
      rw [hrun] at hstep
      obtain ⟨⟨_, h'⟩, hr', hhasher⟩ := hstep
      rw [ok_bind, ok_bind]
      exact congrArg (· >>= _) (ih h' hr' (by rw [hhasher]; exact hc))

end Runs

/-! Whatever the hash function, the checks do nothing but stop a run. -/

section Guards

theorem getBucketIndex_guards (buckets : List (Option (Entry K V))) (hash : UInt64) (psl : ℕ) :
    Guards .arithmeticOverflow (getBucketIndexWith usizeAdd buckets hash psl)
      (getBucketIndexWith wrappingAdd buckets hash psl) := by
  rcases Nat.lt_or_ge usizeMax (hash.toNat + psl) with hover | hfits
  · exact .inr (getBucketIndex_overflow buckets hover)
  · exact .inl (getBucketIndex_ok buckets hfits)

theorem insertEntryLoop_guards : ∀ (fuel : ℕ) (buckets : List (Option (Entry K V)))
    (entry : Entry K V), Guards .arithmeticOverflow (insertEntryLoop fuel buckets entry)
      (KeyStore.insertEntryLoop fuel buckets entry) := by
  intro fuel
  induction fuel with
  | zero =>
    intro buckets entry
    exact Guards.refl _
  | succ fuel ih =>
    intro buckets entry
    rw [insertEntryLoop, KeyStore.insertEntryLoop, insertEntryLoopWith, insertEntryLoopWith]
    apply Guards.bind (getBucketIndex_guards buckets entry.hash entry.psl)
    intro i
    apply Guards.bind (Guards.refl _)
    intro b
    cases b with
    | none => exact Guards.refl _
    | some e =>
      by_cases hlt : e.psl < entry.psl
      · simp only [hlt, if_true]
        exact ih _ _
      · simp only [hlt, if_false]
        exact ih _ _

theorem resize_guards (self : KeyStore K V) :
    Guards .arithmeticOverflow (resize self) self.resize := by
  unfold resize KeyStore.resize resizeWith
  apply Guards.bind (Guards.refl _)
  intro _
  apply Guards.foldlM
  intro store entry
  exact Guards.bind (insertEntryLoop_guards _ _ _) (fun _ => Guards.refl _)

variable [DecidableEq K]

theorem indexOfLoop_guards (self : KeyStore K V) (key : K) (hash : UInt64) : ∀ (fuel psl : ℕ),
    Guards .arithmeticOverflow (indexOfLoop fuel self key hash psl)
      (KeyStore.indexOfLoop fuel self key hash psl) := by
  intro fuel
  induction fuel with
  | zero =>
    intro psl
    exact Guards.refl _
  | succ fuel ih =>
    intro psl
    rw [indexOfLoop, KeyStore.indexOfLoop, indexOfLoopWith, indexOfLoopWith]
    apply Guards.bind (getBucketIndex_guards self.buckets hash psl)
    intro i
    apply Guards.bind (Guards.refl _)
    intro b
    cases b with
    | none => exact Guards.refl _
    | some e =>
      simp only []
      split
      · exact Guards.refl _
      · split
        · exact Guards.refl _
        · exact ih _

theorem delLoop_guards (self : KeyStore K V) (key : K) (hash : UInt64) : ∀ (fuel psl : ℕ),
    Guards .arithmeticOverflow (delLoop fuel self key hash psl)
      (KeyStore.delLoop fuel self key hash psl) := by
  intro fuel
  induction fuel with
  | zero =>
    intro psl
    exact Guards.refl _
  | succ fuel ih =>
    intro psl
    rw [delLoop, KeyStore.delLoop, delLoopWith, delLoopWith]
    apply Guards.bind (getBucketIndex_guards self.buckets hash psl)
    intro i
    apply Guards.bind (Guards.refl _)
    intro b
    cases b with
    | none => exact Guards.refl _
    | some e =>
      simp only []
      split
      · exact Guards.refl _
      · split
        · exact Guards.refl _
        · exact ih _

theorem insertLoop_guards : ∀ (fuel : ℕ) (buckets : List (Option (Entry K V))) (entry : Entry K V)
    (i : ℕ), Guards .arithmeticOverflow (insertLoop fuel buckets entry i)
      (KeyStore.insertLoop fuel buckets entry i) := by
  intro fuel
  induction fuel with
  | zero =>
    intro buckets entry i
    exact Guards.refl _
  | succ fuel ih =>
    intro buckets entry i
    rw [insertLoop, KeyStore.insertLoop, insertLoopWith, insertLoopWith]
    apply Guards.bind (Guards.refl _)
    intro b
    cases b with
    | none => exact Guards.refl _
    | some e =>
      simp only []
      split
      · exact Guards.refl _
      · split
        · exact Guards.bind (getBucketIndex_guards buckets e.hash (e.psl + 1)) (ih _ _)
        · exact Guards.bind (getBucketIndex_guards buckets entry.hash (entry.psl + 1)) (ih _ _)

theorem run_guards (op : Op K V) (self : KeyStore K V) :
    Guards .arithmeticOverflow (run op self) (op.run self) := by
  cases op with
  | insert key value =>
    unfold run Op.run Op.runWith insert KeyStore.insert insertWith
    apply Guards.bind (getBucketIndex_guards self.buckets (self.hasher key) 0)
    intro i
    apply Guards.bind (insertLoop_guards _ _ _ _)
    intro r
    obtain ⟨old, buckets⟩ := r
    cases old with
    | some v => exact Guards.refl _
    | none =>
      simp only []
      split
      · exact Guards.bind (resize_guards _) (fun _ => Guards.refl _)
      · exact Guards.refl _
  | get key =>
    apply Guards.bind _ (fun _ => Guards.refl _)
    exact Guards.bind (indexOfLoop_guards _ _ _ _ _) (fun _ => Guards.refl _)
  | getMut key update =>
    exact Guards.bind (indexOfLoop_guards _ _ _ _ _) (fun _ => Guards.refl _)
  | del key => exact delLoop_guards _ _ _ _ _

end Guards

end Checked

/-! With a crowd: a run that gets to it. -/

section Run
variable [DecidableEq K]

theorem runOps_cons {op : Op K V} {ops : List (Op K V)} {self self'' : KeyStore K V}
    {results : List (Option V)} : runOps (op :: ops) self = .ok (results, self'') ↔
      ∃ result self' rest, op.run self = .ok (result, self') ∧
        runOps ops self' = .ok (rest, self'') ∧ results = result :: rest := by
  refine ⟨fun h => ?_, fun h => ?_⟩
  · obtain ⟨⟨result, self'⟩, hrun, h⟩ := bind_eq_ok.mp h
    obtain ⟨⟨rest, last⟩, hrest, h⟩ := bind_eq_ok.mp h
    cases h
    exact ⟨result, self', rest, hrun, hrest, rfl⟩
  · obtain ⟨result, self', rest, hrun, hrest, rfl⟩ := h
    rw [runOps, runOpsWith, hrun, ok_bind]
    exact congrArg (· >>= _) hrest

theorem runOps_append : ∀ (ops ops' : List (Op K V)) {self self' self'' : KeyStore K V}
    {results results' : List (Option V)}, runOps ops self = .ok (results, self') →
    runOps ops' self' = .ok (results', self'') →
    runOps (ops ++ ops') self = .ok (results ++ results', self'') := by
  intro ops
  induction ops with
  | nil =>
    intro ops' self self' self'' results results' h h'
    cases h
    exact h'
  | cons op ops ih =>
    intro ops' self self' self'' results results' h h'
    obtain ⟨result, next, rest, hrun, hrest, rfl⟩ := runOps_cons.mp h
    rw [List.cons_append]
    exact runOps_cons.mpr ⟨result, next, _, hrun, ih ops' hrest h', rfl⟩

theorem IsCapacity.double_le {a n : ℕ} (ha : IsCapacity a) (hn : IsCapacity n) (hlt : a < n) :
    a * 2 ≤ n := by
  obtain ⟨i, _, _, rfl⟩ := ha
  obtain ⟨j, _, _, rfl⟩ := hn
  have hij : i < j := (Nat.pow_lt_pow_iff_right (by decide)).mp hlt
  rw [← Nat.pow_succ]
  exact Nat.pow_le_pow_right (by decide) hij

/-- New keys that fit into `n` buckets are put in, and the table does not outgrow these. -/
theorem runOps_inserts {n : ℕ} (hn : IsCapacity n) (hmem : n * entrySize ≤ isizeMax) (value : V) :
    ∀ (keys : List K) {self : KeyStore K V} {m : K → Option V}, Holds self m → keys.Nodup →
      (∀ k ∈ keys, m k = none) → self.buckets.length ≤ n → 4 * (self.len + keys.length) < 3 * n →
      ∃ results self', runOps (keys.map (Op.insert · value)) self = .ok (results, self') ∧
        Holds self' (fun k => if k ∈ keys then some value else m k) ∧
        self'.len = self.len + keys.length ∧ self.buckets.length ≤ self'.buckets.length ∧
        self'.buckets.length ≤ n := by
  intro keys
  induction keys with
  | nil =>
    intro self m h hnodup hnew hle hroom
    exact ⟨[], self, rfl, by simpa using h, rfl, Nat.le_refl _, hle⟩
  | cons key keys ih =>
    intro self m h hnodup hnew hle hroom
    rw [List.length_cons] at hroom
    obtain ⟨hkey, hnodup'⟩ := List.nodup_cons.mp hnodup
    have hm : m key = none := hnew key List.mem_cons_self
    -- a table that is full with one key more is smaller than `n`
    have hdouble : 3 * self.buckets.length ≤ 4 * (self.len + 1) → self.buckets.length * 2 ≤ n := by
      intro hfull
      exact h.capacity.double_le hn (by omega)
    obtain ⟨store, hrun, hstore, hlen⟩ := insert_absent h hm value (fun hfull =>
      Nat.le_trans (Nat.mul_le_mul_right entrySize (hdouble hfull)) hmem)
    have hcount := h.len_insert hm hstore
    have hgrows : self.buckets.length ≤ store.buckets.length ∧ store.buckets.length ≤ n := by
      rw [hlen]
      split
      · next hfull =>
        exact ⟨by omega, hdouble hfull⟩
      · exact ⟨Nat.le_refl _, hle⟩
    obtain ⟨results, self', hrest, h', hcount', hle', hn'⟩ := ih hstore hnodup'
      (by
        intro k hk
        rw [Function.update_of_ne (by rintro rfl; exact hkey hk)]
        exact hnew k (List.mem_cons_of_mem _ hk))
      hgrows.2 (by omega)
    refine ⟨_, self', runOps_cons.mpr ⟨_, _, _, hrun, hrest, rfl⟩, ?_, ?_,
      Nat.le_trans hgrows.1 hle', hn'⟩
    · have hmap : (fun k => if k ∈ key :: keys then some value else m k) =
          fun k => if k ∈ keys then some value else Function.update m key (some value) k := by
        funext k
        by_cases hk : k = key
        · simp [hk]
        · simp [hk]
      rw [hmap]
      exact h'
    · rw [List.length_cons]
      omega

/-- Keys are deleted one after the other, and the table stays as large as it is. -/
theorem runOps_dels : ∀ (keys : List K) {self : KeyStore K V} {m : K → Option V}, Holds self m →
    ∃ results self', runOps (keys.map Op.del) self = .ok (results, self') ∧
      Holds self' (fun k => if k ∈ keys then none else m k) ∧
      self'.buckets.length = self.buckets.length := by
  intro keys
  induction keys with
  | nil =>
    intro self m h
    exact ⟨[], self, rfl, by simpa using h, rfl⟩
  | cons key keys ih =>
    intro self m h
    obtain ⟨store, hrun, hstore, hlen⟩ := del_spec h key
    obtain ⟨results, self', hrest, h', hlen'⟩ := ih hstore
    refine ⟨_, self', runOps_cons.mpr ⟨_, _, _, hrun, hrest, rfl⟩, ?_, hlen'.trans hlen⟩
    have hmap : (fun k => if k ∈ key :: keys then none else m k) =
        fun k => if k ∈ keys then none else Function.update m key none k := by
      funext k
      by_cases hk : k = key
      · simp [hk]
      · simp [hk]
    rw [hmap]
    exact h'

/-- A table of any length that can be reached, emptied again. -/
theorem exists_empty {n : ℕ} (hr : Reaches K n) (hasher : K → UInt64) (value : V) :
    ∃ (ops : List (Op K V)) (results : List (Option V)) (self : KeyStore K V),
      runOps ops (withHasher hasher) = .ok (results, self) ∧ Holds self (fun _ => none) ∧
      self.buckets.length = n := by
  have hstart := withHasher_holds (V := V) hasher
  have hsixteen : (withHasher hasher : KeyStore K V).buckets.length = 16 := List.length_replicate
  obtain ⟨k, hk⟩ := hr.size
  have hpow : 0 < 2^k := Nat.pow_pos (by decide)
  rcases hr.grown with rfl | ⟨keys, hkeys⟩
  · exact ⟨[], [], withHasher hasher, rfl, hstart, hsixteen⟩
  · -- as many keys as make a table of half the length full
    obtain ⟨some, _, hcard⟩ := Finset.exists_subset_card_eq (s := keys) (n := 6 * 2^k) (by omega)
    have hlength : some.toList.length = 6 * 2^k := by
      rw [Finset.length_toList]
      exact hcard
    obtain ⟨results, full, hrun, hfull, hcount, _, hle⟩ := runOps_inserts hr.isCapacity hr.memory
      value some.toList hstart some.nodup_toList (fun _ _ => rfl) (by omega)
      (by
        show 4 * (0 + some.toList.length) < 3 * n
        omega)
    have hlen : full.buckets.length = n := by
      apply Nat.le_antisymm hle
      apply Nat.le_of_not_lt
      intro hlt
      have hdouble := hfull.capacity.double_le hr.isCapacity hlt
      have hload := hfull.load
      have hzero : (withHasher hasher : KeyStore K V).len = 0 := rfl
      omega
    obtain ⟨results', self, hrun', h, hlen'⟩ := runOps_dels some.toList hfull
    refine ⟨_, _, self, runOps_append _ _ hrun hrun', ?_, hlen'.trans hlen⟩
    have hmap : (fun k => if k ∈ some.toList then none else
        if k ∈ some.toList then Option.some value else none) = fun _ => none := by
      funext k
      split <;> rfl
    rw [← hmap]
    exact h

namespace Checked

theorem indexOfLoop_overflow {n : ℕ} [NeZero n] (hn : IsCapacity n) {self : KeyStore K V}
    (hlen : self.buckets.length = n) {key : K} {hash : UInt64} {w : ℕ}
    (hpassed : Passed n self.buckets key hash w) (hover : usizeMax < hash.toNat + w) :
    ∀ (fuel psl : ℕ), psl ≤ w → w < psl + fuel →
      indexOfLoop fuel self key hash psl = .error .arithmeticOverflow := by
  intro fuel
  induction fuel with
  | zero =>
    intro psl hle hlt
    omega
  | succ fuel ih =>
    intro psl hle hlt
    rw [indexOfLoop, indexOfLoopWith]
    rcases Nat.lt_or_ge usizeMax (hash.toNat + psl) with hnow | hfits
    · rw [getBucketIndex_overflow _ hnow]
      rfl
    · obtain ⟨b, hb, hpsl, hkey⟩ := hpassed psl (by omega)
      have hmatch : ¬(b.hash = hash ∧ b.key = key) := fun h => hkey h.2
      rw [getBucketIndex_ok _ hfits, ok_bind, KeyStore.getBucketIndex_eq hn hlen, index_slots hlen,
        hb]
      simp only [ok_bind, Nat.not_lt.mpr hpsl, hmatch, if_false]
      exact ih (psl + 1) (by omega) (by omega)

/-- The checks stop a run at its last call, or before. -/
theorem runOps_overflow {key : K} : ∀ (ops : List (Op K V)) {self self' : KeyStore K V}
    {results : List (Option V)}, KeyStore.runOps ops self = .ok (results, self') →
    get self' key = .error .arithmeticOverflow →
    runOps (ops ++ [.get key]) self = .error .arithmeticOverflow := by
  intro ops
  induction ops with
  | nil =>
    intro self self' results h hget
    cases h
    rw [List.nil_append, runOps, runOpsWith, run, Op.runWith, hget]
    rfl
  | cons op ops ih =>
    intro self self' results h hget
    obtain ⟨result, next, rest, hrun, hrest, rfl⟩ := runOps_cons.mp h
    rw [List.cons_append, runOps, runOpsWith]
    rcases run_guards op self with hsame | hstop
    · rw [hsame, hrun, ok_bind]
      exact congrArg (· >>= _) (ih hrest hget)
    · rw [hstop]
      rfl

/-- A crowd can be brought into a table, and a search for its key then overflows. -/
theorem exists_overflow {hasher : K → UInt64} (hc : Crowded hasher) (value : V) :
    ∃ ops : List (Op K V), runOps ops (withHasher hasher) = .error .arithmeticOverflow := by
  obtain ⟨n, key, others, hr, hcrowd⟩ := hc
  have := hr.isCapacity.neZero
  obtain ⟨ops, results, empty, hrun, hempty, hlen⟩ := exists_empty hr hasher value
  have hnone : empty.len = 0 := by
    rw [hempty.len_eq, ← hempty.lists.ncard]
    simp
  have hload := hcrowd.load
  obtain ⟨results', self, hrun', h, _, hle, hge⟩ := runOps_inserts hr.isCapacity hr.memory value
    others.toList hempty others.nodup_toList (fun _ _ => rfl) (Nat.le_of_eq hlen) (by
      rw [hnone, Finset.length_toList]
      omega)
  have hrun'' := runOps_append _ _ hrun hrun'
  have hhasher : self.hasher = hasher := hasher_of_runOps hrun''
  have hlen' : self.buckets.length = n := by omega
  have hprobing := probing h key
  rw [hhasher, hlen'] at hprobing
  have hkeys : ∀ k, k ∈ (bindings self.buckets).map Prod.fst ↔ k ∈ others := by
    intro k
    apply h.lists.mem_keys.trans
    simp
  have hpassed := hcrowd.passed hr.isCapacity hprobing hkeys
  have hlt : (hasher key).toNat < 2^64 := (hasher key).toNat_lt
  have hover := hcrowd.beyond
  have hget : get self key = .error .arithmeticOverflow := by
    unfold get getWith indexOf
    rw [hhasher, indexOfLoop_overflow hr.isCapacity hlen' hpassed (by unfold usizeMax; omega) _ 0
      (Nat.zero_le _) (by omega)]
    rfl
  exact ⟨_, runOps_overflow _ hrun'' hget⟩

/-- No sum of a hash and a `psl` leaves `usize`, and the index is the slot modulo the number
    of buckets, on every run: this holds of a hash function if and only if it has no crowd. -/
theorem runOps_completes_iff (hasher : K → UInt64) (value : V) :
    (∀ ops : List (Op K V), Completes (runOps ops (withHasher hasher)) (fun (_, self) =>
      ∀ hash psl i, getBucketIndex self.buckets hash psl = .ok i →
        i = (hash.toNat + psl) % self.buckets.length)) ↔ ¬Crowded hasher := by
  constructor
  · intro h hc
    obtain ⟨ops, hover⟩ := exists_overflow hc value
    exact Yields.of_error (h ops) hover
  · intro hc ops
    have hstart := withHasher_holds (V := V) hasher
    have hlen : (withHasher hasher : KeyStore K V).buckets.length = startCapacity :=
      List.length_replicate
    rw [runOps_eq ops hstart (by rw [hlen]; exact Reaches.start) hc]
    apply Yields.mono (runOps_spec ops hstart)
    intro (results, self) hpost hash psl i hidx
    rcases getBucketIndex_guards self.buckets hash psl with hok | hstop
    · cases hok.symm.trans hidx
      exact KeyStore.getBucketIndex_eq hpost.2.capacity rfl hash psl
    · cases hstop.symm.trans hidx

/-- Two keys with the largest hash: the second is carried past the end. -/
theorem runOps_largest_hash :
    runOps [.insert 0 (), .insert 1 ()] (withHasher (fun _ : ℕ => 0xFFFFFFFFFFFFFFFF)) =
      .error .arithmeticOverflow := by
  rfl

end Checked
end Run
end KeyStore
end SimpleKv
