import Mathlib.Algebra.BigOperators.Intervals
import SimpleKv.Lib.RobinHood

/- Which slots of a Robin Hood layout are taken, and how far from home their items are,
   follows from the homes alone. At each slot `i` count the items that are carried into
   it, those with a home before `i` that stand at `i` or after (`carried`). The items
   with home `i` join them and one stays (`carried_succ`), so the counts satisfy a
   recurrence around the circle in which only the numbers of items per home occur. A
   free slot fixes its solution, and the counts in turn tell the distances
   (`lt_carried`). Two layouts with the same number of items at each home therefore
   have the same distances at the same slots (`Layout.unique`), whatever was put in and
   taken out to make them. -/
namespace RobinHood

/-- A finite set of numbers that holds every number below one of its own is an initial
    segment. -/
theorem mem_iff_lt_card {s : Finset ℕ} (h : ∀ k, k + 1 ∈ s → k ∈ s) (k : ℕ) :
    k ∈ s ↔ k < s.card := by
  have below : ∀ d j, j + d ∈ s → j ∈ s := by
    intro d
    induction d with
    | zero =>
      intro j hj
      exact hj
    | succ d ih =>
      intro j hj
      exact ih j (h (j + d) hj)
  constructor
  · intro hk
    have hsub : Finset.range (k + 1) ⊆ s := by
      intro j hj
      apply below (k - j) j
      rw [Nat.add_sub_cancel' (Nat.le_of_lt_succ (Finset.mem_range.mp hj))]
      exact hk
    have := Finset.card_le_card hsub
    rw [Finset.card_range] at this
    exact this
  · intro hk
    by_contra hmem
    -- then every member is below `k`
    have hsub : s ⊆ Finset.range k := by
      intro j hj
      rw [Finset.mem_range]
      apply Nat.lt_of_not_le
      intro hkj
      apply hmem
      apply below (j - k) k
      rw [Nat.add_sub_cancel' hkj]
      exact hj
    have := Finset.card_le_card hsub
    rw [Finset.card_range] at this
    omega

variable {n : ℕ} {α : Type} {home : α → ZMod n} {dist : α → ℕ} {slot : Slots n α}

/-- The slot holds an item at distance `d` or more. -/
def AtLeast (dist : α → ℕ) (slot : Slots n α) (d : ℕ) (i : ZMod n) : Prop :=
  ∃ a, slot i = some a ∧ d ≤ dist a

theorem AtLeast.step (hl : Layout home dist slot) {d : ℕ} {i : ZMod n}
    (h : AtLeast dist slot (d + 1) (i + 1)) : AtLeast dist slot d i := by
  obtain ⟨a, ha, hd⟩ := h
  rcases hl.chained ha with h0 | ⟨b, hb, hle⟩
  · omega
  · rw [add_sub_cancel_right] at hb
    exact ⟨b, hb, by omega⟩

/-- The slots `i + k` whose items are `k + c` or more steps from home: with `c = 0` those
    of the items with a home up to `i`, with `c = 1` before `i`, that stand at `i` or
    after. -/
noncomputable def ahead (dist : α → ℕ) (slot : Slots n α) (c : ℕ) (i : ZMod n) : Finset ℕ :=
  open Classical in (Finset.range n).filter (fun k => AtLeast dist slot (k + c) (i + k))

/-- How many items are carried into a slot. -/
noncomputable def carried (dist : α → ℕ) (slot : Slots n α) (i : ZMod n) : ℕ :=
  (ahead dist slot 1 i).card

/-- How many items are at a slot in the end, or pass over it. -/
noncomputable def offered (dist : α → ℕ) (slot : Slots n α) (i : ZMod n) : ℕ :=
  (ahead dist slot 0 i).card

/-- How many items have a home. -/
noncomputable def homes [NeZero n] (home : α → ZMod n) (slot : Slots n α) (i : ZMod n) : ℕ :=
  open Classical in (Finset.univ.filter (fun j => ∃ a, slot j = some a ∧ home a = i)).card

section Counts
variable [NeZero n] (hl : Layout home dist slot) {z : ZMod n} (hz : slot z = none)
include hl hz

theorem mem_ahead {c k : ℕ} {i : ZMod n} :
    k ∈ ahead dist slot c i ↔ AtLeast dist slot (k + c) (i + k) := by
  simp only [ahead, Finset.mem_filter, Finset.mem_range]
  refine and_iff_right_of_imp (fun h => ?_)
  obtain ⟨a, ha, hd⟩ := h
  have hlt := (hl.chained ha).lt_size hl hz
  omega

theorem lt_card_ahead {c k : ℕ} {i : ZMod n} :
    k < (ahead dist slot c i).card ↔ AtLeast dist slot (k + c) (i + k) := by
  rw [← mem_ahead hl hz]
  symm
  apply mem_iff_lt_card
  intro k hk
  rw [mem_ahead hl hz] at hk ⊢
  apply AtLeast.step hl
  rw [Nat.add_right_comm, Nat.cast_succ, ← add_assoc] at hk
  exact hk

theorem lt_offered {k : ℕ} {i : ZMod n} :
    k < offered dist slot i ↔ AtLeast dist slot k (i + k) := lt_card_ahead hl hz

theorem lt_carried {k : ℕ} {i : ZMod n} :
    k < carried dist slot i ↔ AtLeast dist slot (k + 1) (i + k) := lt_card_ahead hl hz

/-- One of the items offered to a slot stays, the others are carried on. -/
theorem carried_succ (i : ZMod n) :
    carried dist slot (i + 1) = offered dist slot i - 1 := by
  have hiff : ∀ k, k < carried dist slot (i + 1) ↔ k + 1 < offered dist slot i := by
    intro k
    rw [lt_carried hl hz, lt_offered hl hz, Nat.cast_succ, add_comm (k : ZMod n) 1, ← add_assoc]
  have h1 := hiff (carried dist slot (i + 1))
  have h2 := hiff (carried dist slot (i + 1) - 1)
  omega

/-- The items offered to a slot are those carried into it and those with their home
    there. -/
theorem offered_eq (i : ZMod n) :
    offered dist slot i = carried dist slot i + homes home slot i := by
  classical
  have hsub : ahead dist slot 1 i ⊆ ahead dist slot 0 i := by
    intro k hk
    rw [mem_ahead hl hz] at hk ⊢
    obtain ⟨a, ha, hd⟩ := hk
    exact ⟨a, ha, by omega⟩
  -- the other items at or ahead of `i` are as far from `i` as from home
  have hrest : ∀ k, k ∈ ahead dist slot 0 i \ ahead dist slot 1 i ↔
      ∃ a, slot (i + k) = some a ∧ dist a = k := by
    intro k
    rw [Finset.mem_sdiff, mem_ahead hl hz, mem_ahead hl hz]
    constructor
    · rintro ⟨⟨a, ha, hd⟩, hnot⟩
      refine ⟨a, ha, ?_⟩
      by_contra hne
      exact hnot ⟨a, ha, by omega⟩
    · rintro ⟨a, ha, hd⟩
      refine ⟨⟨a, ha, by omega⟩, ?_⟩
      rintro ⟨b, hb, hd'⟩
      rw [ha] at hb
      cases hb
      omega
  have hbij : (ahead dist slot 0 i \ ahead dist slot 1 i).card = homes home slot i := by
    unfold homes
    apply Finset.card_bij (fun (k : ℕ) _ => i + (k : ZMod n))
    · intro k hk
      obtain ⟨a, ha, hd⟩ := (hrest k).mp hk
      have hhome := hl.homed ha
      rw [hd] at hhome
      exact Finset.mem_filter.mpr ⟨Finset.mem_univ _, a, ha, add_right_cancel hhome⟩
    · intro k hk k' hk' heq
      obtain ⟨a, ha, hd⟩ := (hrest k).mp hk
      obtain ⟨a', ha', hd'⟩ := (hrest k').mp hk'
      rw [heq, ha'] at ha
      cases ha
      exact hd.symm.trans hd'
    · intro j hj
      obtain ⟨_, a, ha, hhome⟩ := Finset.mem_filter.mp hj
      have hslot := hl.homed ha
      rw [hhome] at hslot
      exact ⟨dist a, (hrest _).mpr ⟨a, by rw [hslot]; exact ha, rfl⟩, hslot⟩
  unfold offered carried
  rw [← hbij, Finset.card_sdiff_of_subset hsub]
  have := Finset.card_le_card hsub
  omega

theorem offered_of_free {i : ZMod n} (hi : slot i = none) : offered dist slot i = 0 := by
  by_contra hpos
  obtain ⟨a, ha, _⟩ := (lt_offered hl hz (k := 0)).mp (Nat.pos_of_ne_zero hpos)
  rw [Nat.cast_zero, add_zero, hi] at ha
  cases ha

/-- Where the homes of `s + 1` slots in a row have more items than slots, the rest is
    offered to the last of them. -/
theorem sum_homes_le (i : ZMod n) : ∀ s : ℕ,
    ∑ k ∈ Finset.range (s + 1), homes home slot (i + k) ≤ s + offered dist slot (i + s) := by
  intro s
  induction s with
  | zero =>
    rw [Finset.sum_range_one, offered_eq hl hz]
    omega
  | succ s ih =>
    have hnext := carried_succ hl hz (i + s)
    have hoffered := offered_eq hl hz (i + (s + 1 : ℕ))
    rw [add_assoc, ← Nat.cast_add_one] at hnext
    rw [Finset.sum_range_succ]
    omega

end Counts

/-! Two layouts. -/

section Unique
variable [NeZero n] {α' : Type} {home' : α' → ZMod n} {dist' : α' → ℕ} {slot' : Slots n α'}
  (hl : Layout home dist slot) (hl' : Layout home' dist' slot') {z z' : ZMod n}
  (hz : slot z = none) (hz' : slot' z' = none)
  (hhomes : ∀ i, homes home slot i = homes home' slot' i)
include hl hl' hz hz' hhomes

/-- What holds at one slot holds all the way round. -/
theorem carried_le {i : ZMod n} (h : carried dist slot i ≤ carried dist' slot' i) (j : ZMod n) :
    carried dist slot j ≤ carried dist' slot' j := by
  have hwalk : ∀ k : ℕ, carried dist slot (i + k) ≤ carried dist' slot' (i + k) := by
    intro k
    induction k with
    | zero =>
      rw [Nat.cast_zero, add_zero]
      exact h
    | succ k ih =>
      rw [Nat.cast_succ, ← add_assoc, carried_succ hl hz, carried_succ hl' hz',
        offered_eq hl hz, offered_eq hl' hz', hhomes]
      omega
  have := hwalk (j - i).val
  rw [ZMod.natCast_zmod_val, add_sub_cancel] at this
  exact this

theorem carried_eq (j : ZMod n) : carried dist slot j = carried dist' slot' j := by
  have hfree := offered_of_free hl hz hz
  have hfree' := offered_of_free hl' hz' hz'
  rw [offered_eq hl hz] at hfree
  rw [offered_eq hl' hz'] at hfree'
  have hle := carried_le hl hl' hz hz' hhomes (i := z) (by omega)
  have hge := carried_le hl' hl hz' hz (fun i => (hhomes i).symm) (i := z') (by omega)
  exact Nat.le_antisymm (hle j) (hge j)

theorem atLeast_iff (d : ℕ) (i : ZMod n) : AtLeast dist slot d i ↔ AtLeast dist' slot' d i := by
  have hoffered : offered dist slot (i - d) = offered dist' slot' (i - d) := by
    rw [offered_eq hl hz, offered_eq hl' hz', hhomes, carried_eq hl hl' hz hz' hhomes]
  have h := lt_offered hl hz (k := d) (i := i - d)
  have h' := lt_offered hl' hz' (k := d) (i := i - d)
  rw [sub_add_cancel] at h h'
  rw [← h, ← h', hoffered]

/-- Layouts with as many items at each home have the same slots taken, by items at the
    same distances. -/
theorem Layout.unique (i : ZMod n) : (slot i).map dist = (slot' i).map dist' := by
  have hiff := fun d => atLeast_iff hl hl' hz hz' hhomes d i
  cases hs : slot i with
  | none =>
    cases hs' : slot' i with
    | none => rfl
    | some b =>
      obtain ⟨a, ha, _⟩ := (hiff 0).mpr ⟨b, hs', Nat.zero_le _⟩
      rw [hs] at ha
      cases ha
  | some a =>
    obtain ⟨b, hb, hle⟩ := (hiff (dist a)).mp ⟨a, hs, Nat.le_refl _⟩
    obtain ⟨a', ha', hge⟩ := (hiff (dist' b)).mpr ⟨b, hb, Nat.le_refl _⟩
    rw [hs] at ha'
    cases ha'
    rw [hb, Option.map_some, Option.map_some, Nat.le_antisymm hle hge]

end Unique

/-! Any other arrangement. -/

section Arrangement
variable [NeZero n]

/-- The items with a home in a row of slots, each counted once. -/
theorem sum_homes_le_card (home : α → ZMod n) (slot : Slots n α) (i : ZMod n) {s : ℕ} (hs : s ≤ n) :
    ∑ k ∈ Finset.range s, homes home slot (i + k) ≤
      (Finset.univ.filter (fun j => ∃ a, slot j = some a ∧ ∃ k < s, home a = i + (k : ℕ))).card := by
  classical
  unfold homes
  rw [← Finset.card_biUnion]
  · apply Finset.card_le_card
    intro j hj
    obtain ⟨k, hk, hj⟩ := Finset.mem_biUnion.mp hj
    obtain ⟨_, a, ha, hhome⟩ := Finset.mem_filter.mp hj
    exact Finset.mem_filter.mpr ⟨Finset.mem_univ _, a, ha, k, Finset.mem_range.mp hk, hhome⟩
  · intro k hk k' hk' hne
    apply Finset.disjoint_left.mpr
    intro j hj hj'
    obtain ⟨_, a, ha, hhome⟩ := Finset.mem_filter.mp hj
    obtain ⟨_, a', ha', hhome'⟩ := Finset.mem_filter.mp hj'
    rw [ha] at ha'
    cases ha'
    -- less than all the way round, so the slots differ
    have hcast := (ZMod.natCast_eq_natCast_iff' k k' n).mp (add_left_cancel (hhome.symm.trans hhome'))
    have hlt := Finset.mem_range.mp hk
    have hlt' := Finset.mem_range.mp hk'
    rw [Nat.mod_eq_of_lt (by omega), Nat.mod_eq_of_lt (by omega)] at hcast
    exact hne hcast

variable (hl : Layout home dist slot) {z : ZMod n} (hz : slot z = none)
include hl hz

/-- The items offered to a slot fill a row of slots that ends with it: they and those that
    stay in the row have their homes there. -/
theorem exists_sum_homes (g : ℕ) : ∀ {i : ZMod n}, gap z i = g → 0 < offered dist slot i →
    ∃ s < g, ∑ k ∈ Finset.range (s + 1), homes home slot (i - s + k) = s + offered dist slot i := by
  induction g with
  | zero =>
    intro i hgap hpos
    have hi : z + (gap z i : ℕ) = i := add_gap z i
    rw [hgap, Nat.cast_zero, add_zero] at hi
    rw [offered_of_free hl hz (hi ▸ hz)] at hpos
    cases hpos
  | succ g ih =>
    intro i hgap hpos
    have hsum := offered_eq hl hz i
    rcases Nat.eq_zero_or_pos (carried dist slot i) with h0 | hcarried
    · refine ⟨0, Nat.succ_pos g, ?_⟩
      rw [Nat.cast_zero, Finset.sum_range_one, Nat.cast_zero, sub_zero, add_zero]
      omega
    · have hprev := carried_succ hl hz (i - 1)
      rw [sub_add_cancel] at hprev
      have hback : gap z (i - 1) = g := by
        have hne : z ≠ i := by
          rintro rfl
          rw [offered_of_free hl hz hz] at hpos
          cases hpos
        have hstep := gap_step hne
        have hshift : gap (z + 1) i = gap z (i - 1) := congrArg ZMod.val (by ring)
        omega
      obtain ⟨s, hs, hrow⟩ := ih hback (by omega)
      refine ⟨s + 1, by omega, ?_⟩
      have hindex : ∀ k : ℕ, i - (s + 1 : ℕ) + k = i - 1 - s + k := by
        intro k
        push_cast
        ring
      rw [Finset.sum_range_succ]
      simp only [hindex]
      rw [hrow, show i - 1 - (s : ZMod n) + (s + 1 : ℕ) = i by push_cast; ring]
      omega

/-- No arrangement keeps every item nearer to its home than one of them is in the layout. -/
theorem Layout.dist_le (place : α → ZMod n)
    (hinjective : ∀ {i j a b}, slot i = some a → slot j = some b → place a = place b → i = j) {d : ℕ}
    (hplace : ∀ {i a}, slot i = some a → gap (home a) (place a) ≤ d) {i : ZMod n} {a : α}
    (hi : slot i = some a) : dist a ≤ d := by
  classical
  have hoffered : dist a < offered dist slot (home a) :=
    (lt_offered hl hz).mpr ⟨a, by rw [hl.homed hi]; exact hi, Nat.le_refl _⟩
  obtain ⟨s, hs, hrow⟩ := exists_sum_homes hl hz _ rfl (Nat.zero_lt_of_lt hoffered)
  have hgap := gap_lt z (home a)
  -- the items with a home in the row, and the slots they can have
  have hcount := sum_homes_le_card home slot (home a - (s : ℕ)) (show s + 1 ≤ n by omega)
  have hroom : (Finset.univ.filter (fun j => ∃ b, slot j = some b ∧
      ∃ k < s + 1, home b = home a - (s : ℕ) + (k : ℕ))).card ≤
      ((Finset.range (s + d + 1)).image (fun k : ℕ => home a - (s : ℕ) + (k : ZMod n))).card := by
    apply Finset.card_le_card_of_injOn (fun j => (slot j).elim j place)
    · intro j hj
      obtain ⟨_, b, hb, k, hk, hhome⟩ := Finset.mem_filter.mp hj
      have hle := hplace hb
      refine Finset.mem_coe.mpr (Finset.mem_image.mpr ⟨k + gap (home b) (place b), ?_, ?_⟩)
      · rw [Finset.mem_range]
        omega
      · show _ = (slot j).elim j place
        rw [hb, Nat.cast_add, ← add_assoc, ← hhome]
        exact add_gap (home b) (place b)
    · intro j hj j' hj' heq
      obtain ⟨_, b, hb, _⟩ := Finset.mem_filter.mp hj
      obtain ⟨_, b', hb', _⟩ := Finset.mem_filter.mp hj'
      simp only [hb, hb', Option.elim_some] at heq
      exact hinjective hb hb' heq
  have himage : ((Finset.range (s + d + 1)).image
      (fun k : ℕ => home a - (s : ℕ) + (k : ZMod n))).card ≤ s + d + 1 :=
    Finset.card_image_le.trans (Nat.le_of_eq (Finset.card_range _))
  omega

end Arrangement

end RobinHood
