import Mathlib.Data.List.ReduceOption
import SimpleKv.KeyStore
import SimpleKv.Lib.PartialMap
import SimpleKv.Lib.RobinHood

/- The key store's buckets as a Robin Hood layout. `slots n buckets` reads a bucket
   array of length `n` as the slots of a circular table; an entry's home is its hash
   and its distance is its `psl`. For a table whose length is a power of two up to
   `2^64` the masked, wrapping index of the source is the slot `hash + psl`
   (`getBucketIndex_eq`), so each loop walks the slots one after the other. The
   lemmas here say what each loop does to the layout and, up to order, to the
   bindings. Every one of them ends: a free slot lies ahead within `n` steps. -/
namespace SimpleKv
namespace KeyStore
open RobinHood

variable {K V : Type}

/-- The pairs in a bucket array, in bucket order. -/
def bindings (buckets : List (Option (Entry K V))) : List (K × V) :=
  buckets.reduceOption.map (fun entry => (entry.key, entry.value))

def slots (n : ℕ) (buckets : List (Option (Entry K V))) : Slots n (Entry K V) :=
  fun i => buckets.getD i.val none

def home (n : ℕ) (entry : Entry K V) : ZMod n := entry.hash.toNat

/-- The slot an entry is carried to. -/
def slotOf (n : ℕ) (entry : Entry K V) : ZMod n := home n entry + entry.psl

/-- The bucket array is laid out as a table of `n` buckets, each entry with the hash
    of its key. -/
structure LaidOut (hasher : K → UInt64) (n : ℕ) (buckets : List (Option (Entry K V))) : Prop where
  length : buckets.length = n
  layout : Layout (home n) Entry.psl (slots n buckets)
  hashed : ∀ {i e}, slots n buckets i = some e → e.hash = hasher e.key

/-- The lengths a table can have. -/
def IsCapacity (n : ℕ) : Prop := ∃ k, 4 ≤ k ∧ k ≤ 63 ∧ n = 2^k

theorem IsCapacity.two_lt {n : ℕ} (h : IsCapacity n) : 2 < n := by
  obtain ⟨k, hk, _, rfl⟩ := h
  calc 2 < 2^4 := by decide
    _ ≤ 2^k := Nat.pow_le_pow_right (by decide) hk

theorem IsCapacity.le {n : ℕ} (h : IsCapacity n) : n ≤ 2^63 := by
  obtain ⟨k, _, hk, rfl⟩ := h
  exact Nat.pow_le_pow_right (by decide) hk

theorem IsCapacity.mod_four {n : ℕ} (h : IsCapacity n) : n % 4 = 0 := by
  obtain ⟨k, hk, _, rfl⟩ := h
  obtain ⟨j, rfl⟩ := Nat.exists_eq_add_of_le hk
  rw [Nat.pow_add]
  omega

theorem IsCapacity.mask {n : ℕ} (h : IsCapacity n) (x : ℕ) : x &&& (n - 1) = x % n := by
  obtain ⟨k, _, _, rfl⟩ := h
  exact Nat.and_two_pow_sub_one_eq_mod x k

/-! Reading and writing buckets. -/

section Slots
variable {hasher : K → UInt64} {n : ℕ} {buckets : List (Option (Entry K V))}

theorem getBucketIndex_eq (hn : IsCapacity n) (hlen : buckets.length = n) (hash : UInt64)
    (psl : ℕ) : getBucketIndex buckets hash psl = (hash.toNat + psl) % n := by
  unfold getBucketIndex
  rw [hlen, hn.mask]
  obtain ⟨k, _, hk, rfl⟩ := hn
  exact Nat.mod_mod_of_dvd _ (Nat.pow_dvd_pow 2 (Nat.le_succ_of_le hk))

variable [NeZero n]

theorem getElem?_slots (hlen : buckets.length = n) (x : ℕ) :
    buckets[x % n]? = some (slots n buckets (x : ZMod n)) := by
  have hlt : x % n < buckets.length := by rw [hlen]; exact Nat.mod_lt _ (Nat.pos_of_neZero n)
  unfold slots
  rw [ZMod.val_natCast, List.getD_eq_getElem?_getD, List.getElem?_eq_getElem hlt]
  rfl

theorem index_slots (hlen : buckets.length = n) (x : ℕ) :
    index buckets (x % n) = .ok (slots n buckets (x : ZMod n)) :=
  index_ok (getElem?_slots hlen x)

theorem slots_set (hlen : buckets.length = n) (x : ℕ) (b : Option (Entry K V)) :
    slots n (buckets.set (x % n) b) = Function.update (slots n buckets) (x : ZMod n) b := by
  have hlt : x % n < buckets.length := by rw [hlen]; exact Nat.mod_lt _ (Nat.pos_of_neZero n)
  funext i
  unfold slots
  by_cases hi : i = (x : ZMod n)
  · subst hi
    rw [Function.update_self, ZMod.val_natCast, List.getD_eq_getElem?_getD,
      List.getElem?_set_self hlt]
    rfl
  · have hne : x % n ≠ i.val := by
      intro e
      apply hi
      rw [← ZMod.natCast_zmod_val i, ← e, ZMod.natCast_mod]
    rw [Function.update_of_ne hi, List.getD_eq_getElem?_getD, List.getD_eq_getElem?_getD,
      List.getElem?_set_ne hne]

/-- Writing a bucket exchanges what it held for what it holds. -/
theorem bindings_set (hlen : buckets.length = n) (x : ℕ) (b : Option (Entry K V)) :
    List.Perm
      ((slots n buckets (x : ZMod n)).toList.map (fun e => (e.key, e.value)) ++
        bindings (buckets.set (x % n) b))
      (b.toList.map (fun e => (e.key, e.value)) ++ bindings buckets) := by
  have hlt : x % n < buckets.length := by rw [hlen]; exact Nat.mod_lt _ (Nat.pos_of_neZero n)
  have hget : buckets[x % n] = slots n buckets (x : ZMod n) := by
    have := getElem?_slots hlen x
    rw [List.getElem?_eq_getElem hlt] at this
    exact Option.some.inj this
  have hsplit : buckets = buckets.take (x % n) ++ slots n buckets (x : ZMod n) ::
      buckets.drop (x % n + 1) := by
    rw [← hget, ← List.drop_eq_getElem_cons hlt, List.take_append_drop]
  have one : ∀ (o : Option (Entry K V)) (l l' : List (Option (Entry K V))),
      List.Perm (bindings (l ++ o :: l'))
        (o.toList.map (fun e => (e.key, e.value)) ++ bindings (l ++ l')) := by
    intro o l l'
    unfold bindings
    cases o with
    | none => simp [List.reduceOption_append]
    | some e => simp [List.reduceOption_append]
  rw [List.set_eq_take_append_cons_drop, if_pos hlt]
  apply (List.Perm.append_left _ (one b _ _)).trans
  refine (List.perm_append_comm_assoc _ _ _).trans (List.Perm.append_left _ ?_)
  conv_rhs => rw [hsplit]
  exact (one _ _ _).symm

/-- An entry exchanged for another: the other bindings are `rest` before and after. -/
theorem bindings_exchange (hlen : buckets.length = n) {x : ℕ} {b : Entry K V}
    (hb : slots n buckets (x : ZMod n) = some b) (c : Entry K V) :
    ∃ rest, (bindings buckets).Perm ((b.key, b.value) :: rest) ∧
      (bindings (buckets.set (x % n) (some c))).Perm ((c.key, c.value) :: rest) := by
  have hlen' : (buckets.set (x % n) none).length = n := by rw [List.length_set]; exact hlen
  have hout := bindings_set hlen x none
  have hin := bindings_set hlen' x (some c)
  rw [hb] at hout
  rw [slots_set hlen, Function.update_self, List.set_set] at hin
  exact ⟨_, hout.symm, hin⟩

omit [NeZero n] in
theorem mem_bindings_of_slots {i : ZMod n} {e : Entry K V} (h : slots n buckets i = some e) :
    (e.key, e.value) ∈ bindings buckets := by
  unfold slots at h
  have hm : some e ∈ buckets := by
    rw [List.getD_eq_getElem?_getD] at h
    cases hg : buckets[i.val]? with
    | none => rw [hg] at h; cases h
    | some b =>
      rw [hg] at h
      exact h ▸ List.mem_of_getElem? hg
  exact List.mem_map.mpr ⟨e, List.reduceOption_mem_iff.mpr hm, rfl⟩

theorem exists_slots (hlen : buckets.length = n) {e : Entry K V} (h : e ∈ buckets.reduceOption) :
    ∃ i, slots n buckets i = some e := by
  obtain ⟨j, hj, hget⟩ := List.mem_iff_getElem.mp (List.reduceOption_mem_iff.mp h)
  refine ⟨(j : ZMod n), ?_⟩
  have := getElem?_slots hlen j
  rw [Nat.mod_eq_of_lt (by omega), List.getElem?_eq_getElem hj, hget] at this
  exact (Option.some.inj this).symm

/-- A table with fewer bindings than buckets has a free slot. -/
theorem exists_free (hlen : buckets.length = n) (h : (bindings buckets).length < n) :
    ∃ z, slots n buckets z = none := by
  have hm : none ∈ buckets := by
    apply (List.reduceOption_length_lt_iff).mp
    rw [hlen]
    simpa [bindings] using h
  obtain ⟨j, hj, hget⟩ := List.mem_iff_getElem.mp hm
  refine ⟨(j : ZMod n), ?_⟩
  have := getElem?_slots hlen j
  rw [Nat.mod_eq_of_lt (by omega), List.getElem?_eq_getElem hj, hget] at this
  exact (Option.some.inj this).symm

omit [NeZero n] in
theorem natCast_slotOf (entry : Entry K V) :
    ((entry.hash.toNat + entry.psl : ℕ) : ZMod n) = slotOf n entry := by
  rw [slotOf, home, Nat.cast_add]

omit [NeZero n] in
theorem slotOf_succ (entry : Entry K V) :
    slotOf n { entry with psl := entry.psl + 1 } = slotOf n entry + 1 := by
  unfold slotOf home
  push_cast
  ring

theorem index_slotOf (hn : IsCapacity n) (hlen : buckets.length = n) (entry : Entry K V) :
    index buckets (getBucketIndex buckets entry.hash entry.psl) =
      .ok (slots n buckets (slotOf n entry)) := by
  rw [getBucketIndex_eq hn hlen, index_slots hlen, natCast_slotOf]

theorem slots_put (hn : IsCapacity n) (hlen : buckets.length = n) (entry : Entry K V) :
    slots n (buckets.set (getBucketIndex buckets entry.hash entry.psl) (some entry)) =
      Function.update (slots n buckets) (slotOf n entry) (some entry) := by
  rw [getBucketIndex_eq hn hlen, slots_set hlen, natCast_slotOf]

theorem bindings_put (hn : IsCapacity n) (hlen : buckets.length = n) (entry : Entry K V) :
    List.Perm
      ((slots n buckets (slotOf n entry)).toList.map (fun e => (e.key, e.value)) ++
        bindings (buckets.set (getBucketIndex buckets entry.hash entry.psl) (some entry)))
      ((entry.key, entry.value) :: bindings buckets) := by
  have := bindings_set hlen (entry.hash.toNat + entry.psl) (some entry)
  rwa [natCast_slotOf, ← getBucketIndex_eq hn hlen] at this

theorem LaidOut.empty (hasher : K → UInt64) (n : ℕ) :
    LaidOut hasher n (List.replicate n (none : Option (Entry K V))) := by
  have hs : slots n (List.replicate n (none : Option (Entry K V))) = fun _ => none := by
    funext i
    unfold slots
    rw [List.getD_eq_getElem?_getD, List.getElem?_replicate]
    split <;> rfl
  refine ⟨List.length_replicate, ?_, fun {i e} h => ?_⟩
  · rw [hs]; exact Layout.empty
  · rw [hs] at h; cases h

/-- With a free slot in the table, a probe sequence is shorter than the table. -/
theorem LaidOut.psl_lt (h : LaidOut hasher n buckets) {i z : ZMod n} {e : Entry K V}
    (he : slots n buckets i = some e) (hz : slots n buckets z = none) : e.psl < n :=
  (h.layout.chained he).lt_size h.layout hz

/-- An entry's value plays no part in the layout. -/
theorem LaidOut.revalue (h : LaidOut hasher n buckets) {x : ℕ} {e : Entry K V}
    (he : slots n buckets (x : ZMod n) = some e) (v : V) :
    LaidOut hasher n (buckets.set (x % n) (some { e with value := v })) where
  length := by rw [List.length_set]; exact h.length
  layout := by
    rw [slots_set h.length]
    exact h.layout.replace (a := e) he rfl rfl
  hashed {i c} hc := by
    rw [slots_set h.length] at hc
    refine PartialMap.forall_update (P := fun _ c => c.hash = hasher c.key)
      (fun _ _ => h.hashed) (fun c heq => ?_) i c hc
    cases heq
    exact (h.hashed he : e.hash = hasher e.key)

theorem LaidOut.put (hn : IsCapacity n) (h : LaidOut hasher n buckets) {entry : Entry K V}
    (hhash : entry.hash = hasher entry.key)
    (hs : Supports Entry.psl (slots n buckets) (slotOf n entry) entry.psl)
    (hle : ∀ e, slots n buckets (slotOf n entry) = some e → e.psl ≤ entry.psl) :
    LaidOut hasher n
      (buckets.set (getBucketIndex buckets entry.hash entry.psl) (some entry)) where
  length := by rw [List.length_set]; exact h.length
  layout := by
    rw [slots_put hn h.length]
    exact h.layout.put hle hs rfl
  hashed {i e} hi := by
    rw [slots_put hn h.length] at hi
    refine PartialMap.forall_update (P := fun _ e => e.hash = hasher e.key)
      (fun _ _ => h.hashed) (fun e heq => ?_) i e hi
    cases heq
    exact hhash

end Slots

/-! Insertion of an entry with a new key. -/

section Insert
variable {n : ℕ} [NeZero n]

/-- The displacement loop ends, keeps the layout and adds the carried binding. -/
theorem insertEntryLoop_spec (hasher : K → UInt64) (hn : IsCapacity n) :
    ∀ (fuel : ℕ) (buckets : List (Option (Entry K V))) (entry : Entry K V) (z : ZMod n),
      LaidOut hasher n buckets → entry.hash = hasher entry.key →
      Supports Entry.psl (slots n buckets) (slotOf n entry) entry.psl →
      slots n buckets z = none → gap (slotOf n entry) z < fuel →
      ∃ buckets', insertEntryLoop fuel buckets entry = .ok buckets' ∧ LaidOut hasher n buckets' ∧
        (bindings buckets').Perm ((entry.key, entry.value) :: bindings buckets) := by
  intro fuel
  induction fuel with
  | zero =>
    intro buckets entry z hl hhash hs hz hfuel
    omega
  | succ fuel ih =>
    intro buckets entry z hl hhash hs hz hfuel
    have hperm := bindings_put hn hl.length entry
    rw [insertEntryLoop, insertEntryLoopWith, getBucketIndexWith_wrapping, ok_bind,
      index_slotOf hn hl.length]
    cases he : slots n buckets (slotOf n entry) with
    | none =>
      rw [he] at hperm
      refine ⟨_, rfl, hl.put hn hhash hs (fun e h => ?_), hperm⟩
      rw [he] at h
      cases h
    | some e =>
      -- the free slot `z` is ahead of the carried entry, one step nearer in each iteration
      have hne : slotOf n entry ≠ z := by
        intro h
        rw [h, hz] at he
        cases he
      have hgap := gap_step hne
      have hhome : slotOf n e = slotOf n entry := hl.layout.homed he
      rw [he] at hperm
      by_cases hlt : e.psl < entry.psl
      · -- the carried entry takes the bucket, and the loop carries on with the resident
        have hput := hl.put hn hhash hs (fun e' h => by rw [he] at h; cases h; omega)
        have hslots := slots_put hn hl.length entry
        obtain ⟨buckets', hrun, hl', hp⟩ := ih _
          { e with psl := e.psl + 1 } z hput (show e.hash = hasher e.key from hl.hashed he)
          (by
            rw [slotOf_succ, hhome, hslots]
            exact Supports.pass (Function.update_self _ _ _) (Nat.le_of_lt hlt))
          (by rw [hslots, Function.update_of_ne hne.symm]; exact hz)
          (by rw [slotOf_succ, hhome]; omega)
        refine ⟨buckets', ?_, hl', hp.trans hperm⟩
        rw [← hrun]
        exact if_pos hlt
      · -- the resident is at least as far from its home, and the carried entry moves on
        obtain ⟨buckets', hrun, hl', hp⟩ := ih buckets
          { entry with psl := entry.psl + 1 } z hl hhash
          (by rw [slotOf_succ]; exact Supports.pass he (Nat.le_of_not_lt hlt))
          hz (by rw [slotOf_succ]; omega)
        refine ⟨buckets', ?_, hl', hp⟩
        rw [← hrun]
        exact if_neg hlt

end Insert

/-! Searching: the walk from the home of a key meets it, or a free slot. -/

section Search
variable [DecidableEq K] {hasher : K → UInt64} {n : ℕ} [NeZero n]

omit [DecidableEq K] [NeZero n] in
/-- Where a present key's entry is still ahead, the slot under inspection holds an
    entry that does not stop the search. -/
theorem LaidOut.ahead {buckets : List (Option (Entry K V))} (h : LaidOut hasher n buckets)
    {i : ZMod n} {e : Entry K V} (he : slots n buckets i = some e) {psl : ℕ} (hle : psl ≤ e.psl) :
    ∃ b, slots n buckets ((e.hash.toNat + psl : ℕ) : ZMod n) = some b ∧ psl ≤ b.psl ∧
      (psl = e.psl → b = e) := by
  obtain ⟨b, hb, hpsl⟩ := h.layout.path he hle
  have hcast : ((e.hash.toNat + psl : ℕ) : ZMod n) = home n e + psl := by rw [home, Nat.cast_add]
  refine ⟨b, by rw [hcast]; exact hb, hpsl, ?_⟩
  intro heq
  subst heq
  rw [h.layout.homed he, he] at hb
  cases hb
  rfl

theorem indexOfLoop_present (hn : IsCapacity n) {self : KeyStore K V}
    (hl : LaidOut hasher n self.buckets) {i : ZMod n} {e : Entry K V}
    (he : slots n self.buckets i = some e) :
    ∀ (fuel psl : ℕ), psl ≤ e.psl → e.psl < psl + fuel →
      ∃ (x : ℕ) (b : Entry K V), indexOfLoop fuel self e.key e.hash psl = .ok (some (x % n)) ∧
        slots n self.buckets (x : ZMod n) = some b ∧ b.key = e.key := by
  intro fuel
  induction fuel with
  | zero =>
    intro psl hle hlt
    exact absurd hlt (Nat.not_lt.mpr hle)
  | succ fuel ih =>
    intro psl hle hlt
    obtain ⟨b, hb, hpsl, heq⟩ := hl.ahead he hle
    rw [indexOfLoop, indexOfLoopWith, getBucketIndexWith_wrapping, ok_bind,
      getBucketIndex_eq hn hl.length, index_slots hl.length, hb]
    by_cases hmatch : b.hash = e.hash ∧ b.key = e.key
    · refine ⟨e.hash.toNat + psl, b, ?_, hb, hmatch.2⟩
      exact (if_neg (Nat.not_lt.mpr hpsl)).trans (if_pos hmatch)
    · -- another entry, so the one searched for is farther on
      have hne : psl ≠ e.psl := by
        intro h
        exact hmatch ⟨by rw [heq h], by rw [heq h]⟩
      obtain ⟨x, c, hrun, hc⟩ := ih (psl + 1) (by omega) (by omega)
      refine ⟨x, c, ?_, hc⟩
      rw [← hrun]
      exact (if_neg (Nat.not_lt.mpr hpsl)).trans (if_neg hmatch)

theorem indexOfLoop_absent (hn : IsCapacity n) {self : KeyStore K V}
    (hl : LaidOut hasher n self.buckets) {key : K} (hash : UInt64)
    (habsent : ∀ {i e}, slots n self.buckets i = some e → e.key ≠ key)
    {z : ZMod n} (hz : slots n self.buckets z = none) :
    ∀ (fuel psl : ℕ), gap ((hash.toNat + psl : ℕ) : ZMod n) z < fuel →
      indexOfLoop fuel self key hash psl = .ok none := by
  intro fuel
  induction fuel with
  | zero =>
    intro psl hfuel
    omega
  | succ fuel ih =>
    intro psl hfuel
    rw [indexOfLoop, indexOfLoopWith, getBucketIndexWith_wrapping, ok_bind,
      getBucketIndex_eq hn hl.length, index_slots hl.length]
    cases hb : slots n self.buckets ((hash.toNat + psl : ℕ) : ZMod n) with
    | none => rfl
    | some b =>
      have hne : ((hash.toNat + psl : ℕ) : ZMod n) ≠ z := by
        intro h
        rw [h, hz] at hb
        cases hb
      have hgap := gap_step hne
      have hnext : ((hash.toNat + (psl + 1) : ℕ) : ZMod n) =
          ((hash.toNat + psl : ℕ) : ZMod n) + 1 := by
        push_cast
        ring
      -- the search stops at an entry nearer to its home, and at `z` at the latest
      by_cases hlt : b.psl < psl
      · exact if_pos hlt
      · have hrun := ih (psl + 1)
          (by rw [hnext]; omega)
        rw [← hrun]
        exact (if_neg hlt).trans (if_neg (fun h => habsent hb h.2))

/-- `del` searches as `index_of` does. -/
theorem delLoop_eq (self : KeyStore K V) (key : K) (hash : UInt64) :
    ∀ (fuel psl : ℕ), delLoop fuel self key hash psl = (do
      match ← indexOfLoop fuel self key hash psl with
      | none => return (none, self)
      | some i =>
        match ← index self.buckets i with
        | none => return (none, self)
        | some e =>
          let buckets ← shiftLoop self.buckets.length (self.buckets.set i none) i
          return (some e.value, { self with len := self.len - 1, buckets })) := by
  intro fuel
  induction fuel with
  | zero =>
    intro psl
    rfl
  | succ fuel ih =>
    intro psl
    rw [delLoop, indexOfLoop, delLoopWith, indexOfLoopWith, getBucketIndexWith_wrapping, ok_bind, ok_bind]
    cases hidx : index self.buckets (getBucketIndex self.buckets hash psl) with
    | error f => rfl
    | ok b =>
      cases b with
      | none => rfl
      | some e =>
        by_cases hlt : e.psl < psl
        · simp only [hlt, if_true, bind, Except.bind, pure, Except.pure]
        · by_cases hmatch : e.hash = hash ∧ e.key = key
          · simp only [hlt, hmatch, and_self, if_true, if_false, bind, Except.bind, pure,
              Except.pure, hidx]
          · have hrest := ih (psl + 1)
            simp only [hlt, hmatch, if_false, bind, Except.bind, pure, Except.pure] at hrest ⊢
            exact hrest

/-- `insert` finds a present key before it displaces anything, and exchanges the
    value. -/
theorem insertLoop_present (hn : IsCapacity n) {buckets : List (Option (Entry K V))}
    (hl : LaidOut hasher n buckets) {i : ZMod n} {e : Entry K V}
    (he : slots n buckets i = some e) :
    ∀ (fuel : ℕ) (entry : Entry K V), entry.key = e.key → entry.hash = e.hash →
      entry.psl ≤ e.psl → e.psl < entry.psl + fuel →
      ∃ old buckets', insertLoop fuel buckets entry
          (getBucketIndex buckets entry.hash entry.psl) = .ok (some old, buckets') ∧
        LaidOut hasher n buckets' ∧
        ∃ rest, (bindings buckets).Perm ((entry.key, old) :: rest) ∧
          (bindings buckets').Perm ((entry.key, entry.value) :: rest) := by
  intro fuel
  induction fuel with
  | zero =>
    intro entry hkey hhash hle hlt
    exact absurd hlt (Nat.not_lt.mpr hle)
  | succ fuel ih =>
    intro entry hkey hhash hle hlt
    obtain ⟨b, hb, hpsl, heq⟩ := hl.ahead he hle
    rw [insertLoop, insertLoopWith, getBucketIndex_eq hn hl.length, index_slots hl.length, hhash, hb]
    by_cases hmatch : b.hash = e.hash ∧ b.key = entry.key
    · have hrest := bindings_exchange hl.length hb { b with value := entry.value }
      refine ⟨b.value, _, if_pos hmatch, hl.revalue hb entry.value, ?_⟩
      rw [← hmatch.2]
      exact hrest
    · have hne : entry.psl ≠ e.psl := by
        intro h
        exact hmatch ⟨by rw [heq h], by rw [heq h, hkey]⟩
      obtain ⟨old, buckets', hrun, hl', hp⟩ := ih
        { entry with psl := entry.psl + 1 } hkey hhash (by show entry.psl + 1 ≤ e.psl; omega)
        (by show e.psl < entry.psl + 1 + fuel; omega)
      refine ⟨old, buckets', ?_, hl', hp⟩
      rw [← hrun, ← hhash]
      exact (if_neg (by rw [hhash]; exact hmatch)).trans (if_neg (Nat.not_lt.mpr hpsl))

/-- With a new key, the loop of `insert` is that of `insert_entry`: the carried entry
    meets no entry with its key, whichever entry that is. -/
theorem insertLoop_absent (hn : IsCapacity n) :
    ∀ (fuel : ℕ) (buckets : List (Option (Entry K V))) (entry : Entry K V),
      buckets.length = n → (entry.key :: (bindings buckets).map Prod.fst).Nodup →
      insertLoop fuel buckets entry (getBucketIndex buckets entry.hash entry.psl) =
        (fun buckets' => (none, buckets')) <$> insertEntryLoop fuel buckets entry := by
  intro fuel
  induction fuel with
  | zero =>
    intro buckets entry hlen hnodup
    rfl
  | succ fuel ih =>
    intro buckets entry hlen hnodup
    have hperm := bindings_put hn hlen entry
    rw [insertEntryLoop, insertEntryLoopWith, getBucketIndexWith_wrapping, ok_bind,
      index_slotOf hn hlen, insertLoop, insertLoopWith, index_slotOf hn hlen]
    cases he : slots n buckets (slotOf n entry) with
    | none => rfl
    | some e =>
      have hne : ¬(e.hash = entry.hash ∧ e.key = entry.key) := by
        intro hpost
        obtain ⟨_, hk⟩ := hpost
        have hm := List.mem_map_of_mem (f := Prod.fst) (mem_bindings_of_slots he)
        exact (List.nodup_cons.mp hnodup).1 (hk ▸ hm)
      rw [he] at hperm
      by_cases hlt : e.psl < entry.psl
      · -- the resident is carried on, and its key is new to what is left in the table
        have hkeys := (hperm.map Prod.fst).nodup_iff.mpr hnodup
        have hrest := ih
          (buckets.set (getBucketIndex buckets entry.hash entry.psl) (some entry))
          { e with psl := e.psl + 1 } (by rw [List.length_set]; exact hlen) hkeys
        have hidx : getBucketIndex (buckets.set (getBucketIndex buckets entry.hash entry.psl)
            (some entry)) e.hash (e.psl + 1) = getBucketIndex buckets e.hash (e.psl + 1) := by
          unfold getBucketIndex
          rw [List.length_set]
        rw [hidx] at hrest
        simp only [getBucketIndexWith_wrapping, bind, Except.bind, hne, hlt, if_true, if_false]
        exact hrest
      · have hrest := ih buckets { entry with psl := entry.psl + 1 } hlen hnodup
        simp only [getBucketIndexWith_wrapping, bind, Except.bind, hne, hlt, if_false]
        exact hrest

end Search

/-! Deletion: the backward shift. -/

section Shift
variable {n : ℕ} [NeZero n]

/-- The shift ends, closes the hole and keeps the bindings. -/
theorem shiftLoop_spec (hasher : K → UInt64) (hn : IsCapacity n) :
    ∀ (fuel : ℕ) (buckets : List (Option (Entry K V))) (x g : ℕ) (z : ZMod n),
      buckets.length = n → Hollow (home n) Entry.psl (slots n buckets) (x : ZMod n) g →
      (∀ {i e}, slots n buckets i = some e → e.hash = hasher e.key) →
      slots n buckets z = none → z ≠ (x : ZMod n) → gap ((x : ZMod n) + 1) z < fuel →
      ∃ buckets', shiftLoop fuel buckets (x % n) = .ok buckets' ∧ LaidOut hasher n buckets' ∧
        (bindings buckets').Perm (bindings buckets) := by
  intro fuel
  induction fuel with
  | zero =>
    intro buckets x g z hlen hh hhash hz hzx hfuel
    omega
  | succ fuel ih =>
    intro buckets x g z hlen hh hhash hz hzx hfuel
    have hnext : (x % n + 1) &&& (buckets.length - 1) = (x + 1) % n := by
      rw [hlen, hn.mask, Nat.mod_add_mod]
    have hcast : ((x + 1 : ℕ) : ZMod n) = (x : ZMod n) + 1 := by push_cast; rfl
    rw [shiftLoop, hnext, index_slots hlen, hcast]
    cases he : slots n buckets ((x : ZMod n) + 1) with
    | none =>
      -- before a free slot the hole can be left
      refine ⟨buckets, rfl, ⟨hlen, hh.close (fun a ha => ?_), hhash⟩, List.Perm.refl _⟩
      rw [he] at ha
      cases ha
    | some e =>
      by_cases hpsl : e.psl > 0
      · -- the entry after the hole moves into it, and the hole is where the entry was
        have hz1 : z ≠ (x : ZMod n) + 1 := by
          intro heq
          subst heq
          rw [he] at hz
          cases hz
        have hgap := gap_step hz1.symm
        have hlen1 : (buckets.set (x % n) (some { e with psl := e.psl - 1 })).length = n := by
          rw [List.length_set]; exact hlen
        have hs1 := slots_set hlen x (some { e with psl := e.psl - 1 })
        have hs2 : slots n ((buckets.set (x % n) (some { e with psl := e.psl - 1 })).set
            ((x + 1) % n) none) = Function.update (Function.update (slots n buckets) (x : ZMod n)
              (some { e with psl := e.psl - 1 })) ((x : ZMod n) + 1) none := by
          rw [slots_set hlen1, hs1, hcast]
        have hp1 := bindings_set hlen x (some { e with psl := e.psl - 1 })
        have hp2 := bindings_set hlen1 (x + 1) none
        rw [hs1, hcast, Function.update_of_ne (succ_ne hn.two_lt _), he] at hp2
        rw [hh.free] at hp1
        obtain ⟨buckets', hrun, hl', hp⟩ := ih
          ((buckets.set (x % n) (some { e with psl := e.psl - 1 })).set ((x + 1) % n) none)
          (x + 1) e.psl z (by rw [List.length_set]; exact hlen1)
          (by
            rw [hs2, hcast]
            exact hh.shift hn.two_lt (b := { e with psl := e.psl - 1 }) he rfl
              (Nat.sub_add_cancel hpsl))
          (by
            intro i c hc
            rw [hs2] at hc
            refine PartialMap.forall_update (P := fun _ c => c.hash = hasher c.key)
              (PartialMap.forall_update (fun _ _ => hhash) (fun c heq => ?_))
              (fun c heq => by cases heq) i c hc
            cases heq
            exact (hhash he : e.hash = hasher e.key))
          (by rw [hs2, Function.update_of_ne hz1, Function.update_of_ne hzx]; exact hz)
          (by rw [hcast]; exact hz1)
          (by rw [hcast]; omega)
        refine ⟨buckets', ?_, hl', hp.trans ?_⟩
        · rw [← hrun]
          simp only [bind, Except.bind, hpsl, if_true, index_slots hlen x, hh.free]
        · exact (List.perm_cons _).mp (hp2.trans hp1)
      · refine ⟨buckets, ?_, ⟨hlen, hh.close (fun a ha => ?_), hhash⟩, List.Perm.refl _⟩
        · exact if_neg hpsl
        · rw [he] at ha
          cases ha
          omega

end Shift
end KeyStore
end SimpleKv
