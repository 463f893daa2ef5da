import Mathlib.Data.ZMod.Basic
import Mathlib.Tactic.Ring

/- Robin Hood layouts of a circular table. The slots are numbered by `ZMod n`; an
   item knows its home slot and its distance from it. The table is laid out if every
   item stands at its distance from home, and no item is more than one step
   farther from home than the item before it: in particular the slots from an
   item's home to the item are all occupied, by items at least as far from their
   homes as that slot is from the home of the item sought.

   `Supports slot i d` is what an item at distance `d` asks of the slot before `i`.
   A carried item is put down where it is supported over an item that is no
   farther from home (`Layout.put`), or is carried on (`Supports.pass`). Taking an
   item away leaves a `Hollow`, a layout with a hole that stands for an item; the
   hole is shifted forward (`Hollow.shift`) until it can be left (`Hollow.close`). -/
namespace RobinHood

abbrev Slots (n : ℕ) (α : Type) := ZMod n → Option α

/-- Steps from `i` forward to `z`. -/
def gap {n : ℕ} (i z : ZMod n) : ℕ := (z - i).val

section Gap
variable {n : ℕ} [NeZero n]

theorem gap_lt (i z : ZMod n) : gap i z < n := ZMod.val_lt _

theorem gap_step {i z : ZMod n} (h : i ≠ z) : gap (i + 1) z + 1 = gap i z := by
  unfold gap
  have hx : z - i ≠ 0 := fun e => h (sub_eq_zero.mp e).symm
  have hpos : 0 < (z - i).val := Nat.pos_of_ne_zero (fun e => hx ((ZMod.val_eq_zero _).mp e))
  have hlt : (z - i).val < n := ZMod.val_lt _
  have he : z - (i + 1) = (((z - i).val - 1 : ℕ) : ZMod n) := by
    rw [Nat.cast_sub hpos, ZMod.natCast_zmod_val]
    push_cast
    ring
  rw [he, ZMod.val_natCast_of_lt (by omega)]
  omega

theorem sub_gap (i z : ZMod n) : i - (gap z i : ℕ) = z := by
  unfold gap
  rw [ZMod.natCast_zmod_val]
  ring

theorem add_gap (i z : ZMod n) : i + (gap i z : ℕ) = z := by
  unfold gap
  rw [ZMod.natCast_zmod_val]
  ring

omit [NeZero n] in
theorem gap_natCast {x y : ℕ} (hxy : x ≤ y) (hy : y < n) :
    gap (x : ZMod n) (y : ZMod n) = y - x := by
  unfold gap
  rw [← Nat.cast_sub hxy, ZMod.val_natCast_of_lt (by omega)]

end Gap

variable {n : ℕ} {α : Type} {home : α → ZMod n} {dist : α → ℕ} {slot : Slots n α}

/-- An item at distance `d` may stand at `i`: it is at home, or the slot before
    holds an item at distance `d - 1` or more. -/
def Supports (dist : α → ℕ) (slot : Slots n α) (i : ZMod n) (d : ℕ) : Prop :=
  d = 0 ∨ ∃ b, slot (i - 1) = some b ∧ d ≤ dist b + 1

structure Layout (home : α → ZMod n) (dist : α → ℕ) (slot : Slots n α) : Prop where
  homed : ∀ {i a}, slot i = some a → home a + dist a = i
  chained : ∀ {i a}, slot i = some a → Supports dist slot i (dist a)

theorem Layout.empty : Layout home dist (fun _ => none) where
  homed h := by cases h
  chained h := by cases h

theorem Supports.pass {i : ZMod n} {d : ℕ} {b : α} (hi : slot i = some b) (hd : d ≤ dist b) :
    Supports dist slot (i + 1) (d + 1) :=
  .inr ⟨b, by rw [add_sub_cancel_right]; exact hi, by omega⟩

/-- The slots before a supported item are occupied, as far back as its distance. -/
theorem Supports.reach (hl : Layout home dist slot) {i : ZMod n} {d : ℕ}
    (h : Supports dist slot i d) : ∀ {j : ℕ}, 0 < j → j ≤ d →
      ∃ b, slot (i - j) = some b ∧ d ≤ dist b + j
  | 0, hj, _ => absurd hj (Nat.lt_irrefl _)
  | 1, _, hj => by
    rcases h with rfl | ⟨b, hb, hle⟩
    · omega
    · exact ⟨b, by rw [Nat.cast_one]; exact hb, hle⟩
  | j+2, _, hj => by
    obtain ⟨b, hb, hle⟩ := reach hl h (Nat.succ_pos j) (by omega)
    rcases hl.chained hb with h0 | ⟨c, hc, hle'⟩
    · omega
    · refine ⟨c, ?_, by omega⟩
      rw [← hc]
      congr 1
      push_cast
      ring

/-- With a free slot in the table, no item is carried all the way round. -/
theorem Supports.lt_size [NeZero n] (hl : Layout home dist slot) {i z : ZMod n} {d : ℕ}
    (h : Supports dist slot i d) (hz : slot z = none) : d < n := by
  apply Nat.lt_of_not_le
  intro hn
  have hfree : ∀ j : ℕ, 0 < j → j ≤ d → i - j ≠ z := by
    intro j hj hjd e
    obtain ⟨b, hb, _⟩ := h.reach hl hj hjd
    rw [e, hz] at hb
    cases hb
  rcases Nat.eq_zero_or_pos (gap z i) with h0 | hpos
  · have hiz : i = z := by
      have := sub_gap i z
      rw [h0, Nat.cast_zero, sub_zero] at this
      exact this
    exact hfree n (Nat.pos_of_neZero n) hn (by rw [ZMod.natCast_self, sub_zero, hiz])
  · exact hfree (gap z i) hpos (by have := gap_lt z i; omega) (sub_gap i z)

/-- On the way from an item's home to the item, every slot holds an item at least
    that far from its own home. -/
theorem Layout.path (hl : Layout home dist slot) {i : ZMod n} {a : α} (hi : slot i = some a)
    {j : ℕ} (hj : j ≤ dist a) : ∃ b, slot (home a + j) = some b ∧ j ≤ dist b := by
  rcases Nat.eq_or_lt_of_le hj with rfl | hlt
  · exact ⟨a, by rw [hl.homed hi]; exact hi, Nat.le_refl _⟩
  · -- the slot is `dist a - j` before the item
    obtain ⟨b, hb, hle⟩ := (hl.chained hi).reach hl (j := dist a - j) (by omega) (by omega)
    refine ⟨b, ?_, by omega⟩
    rw [← hb, ← hl.homed hi, Nat.cast_sub hj]
    congr 1
    ring

/-- No item is carried over a free slot. -/
theorem Layout.dist_lt_gap [NeZero n] (hl : Layout home dist slot) {i z : ZMod n} {a : α}
    (hi : slot i = some a) (hz : slot z = none) : dist a < gap z i := by
  apply Nat.lt_of_not_le
  intro hle
  obtain ⟨b, hb, _⟩ := hl.path hi (Nat.sub_le (dist a) (gap z i))
  have hback : home a + (dist a - gap z i : ℕ) = z := by
    rw [Nat.cast_sub hle, ← add_sub_assoc, hl.homed hi, sub_gap]
  rw [hback, hz] at hb
  cases hb

/-- Put an item where it is supported, over an item that is no farther from home
    or on a free slot. -/
theorem Layout.put (hl : Layout home dist slot) {i : ZMod n} {a : α}
    (hle : ∀ b, slot i = some b → dist b ≤ dist a) (hs : Supports dist slot i (dist a))
    (ha : home a + dist a = i) : Layout home dist (Function.update slot i (some a)) where
  homed {j c} hj := by
    by_cases hji : j = i
    · subst hji
      rw [Function.update_self] at hj
      cases hj
      exact ha
    · rw [Function.update_of_ne hji] at hj
      exact hl.homed hj
  chained {j c} hj := by
    -- what the old item supported, the new one supports too
    have carry : ∀ {d}, Supports dist slot j d →
        Supports dist (Function.update slot i (some a)) j d := by
      intro d hd
      rcases hd with h0 | ⟨b, hb, hd⟩
      · exact .inl h0
      · by_cases hp : j - 1 = i
        · rw [hp] at hb
          have := hle b hb
          exact .inr ⟨a, by rw [hp, Function.update_self], by omega⟩
        · exact .inr ⟨b, by rw [Function.update_of_ne hp]; exact hb, hd⟩
    by_cases hji : j = i
    · subst hji
      rw [Function.update_self] at hj
      cases hj
      exact carry hs
    · rw [Function.update_of_ne hji] at hj
      exact carry (hl.chained hj)

/-- An item may be exchanged for another with the same home and distance. -/
theorem Layout.replace (hl : Layout home dist slot) {i : ZMod n} {a b : α} (hi : slot i = some a)
    (hh : home b = home a) (hd : dist b = dist a) :
    Layout home dist (Function.update slot i (some b)) := by
  refine hl.put ?_ ?_ ?_
  · intro c hc
    rw [hi] at hc
    cases hc
    exact Nat.le_of_eq hd.symm
  · rw [hd]; exact hl.chained hi
  · rw [hh, hd]; exact hl.homed hi

/-- A layout with a hole at `i`, which stands for an item at distance `g`. -/
structure Hollow (home : α → ZMod n) (dist : α → ℕ) (slot : Slots n α) (i : ZMod n) (g : ℕ) :
    Prop where
  free : slot i = none
  homed : ∀ {j a}, slot j = some a → home a + dist a = j
  chained : ∀ {j a}, j ≠ i + 1 → slot j = some a → Supports dist slot j (dist a)
  before : Supports dist slot i g
  after : ∀ {a}, slot (i + 1) = some a → dist a ≤ g + 1

section Remove
variable (hn : 2 < n)
include hn

theorem step_ne {j : ℕ} (i : ZMod n) (hpos : 0 < j) (hj : j ≤ 2) : i + (j : ℕ) ≠ i := by
  intro e
  have hz : ((j : ℕ) : ZMod n) = 0 := by
    have := congrArg (· - i) e
    simpa using this
  have := Nat.le_of_dvd hpos ((ZMod.natCast_eq_zero_iff j n).mp hz)
  omega

theorem pred_ne (i : ZMod n) : i - 1 ≠ i := by
  intro e
  apply step_ne hn (i - 1) (j := 1) (by decide) (by decide)
  rw [Nat.cast_one, sub_add_cancel]
  exact e.symm

theorem succ_ne (i : ZMod n) : i + 1 ≠ i := by
  have := step_ne hn i (j := 1) (by decide) (by decide)
  rwa [Nat.cast_one] at this

/-- Taking an item away leaves a hole that stands for it. -/
theorem Layout.remove (hl : Layout home dist slot) {i : ZMod n} {a : α} (hi : slot i = some a) :
    Hollow home dist (Function.update slot i none) i (dist a) where
  free := Function.update_self i none slot
  homed {j b} hj := by
    by_cases hji : j = i
    · rw [hji, Function.update_self] at hj; cases hj
    · rw [Function.update_of_ne hji] at hj
      exact hl.homed hj
  chained {j b} hnext hj := by
    have hp : j - 1 ≠ i := fun e => hnext (by rw [← e, sub_add_cancel])
    by_cases hji : j = i
    · rw [hji, Function.update_self] at hj; cases hj
    · rw [Function.update_of_ne hji] at hj
      rcases hl.chained hj with h0 | ⟨c, hc, hle⟩
      · exact .inl h0
      · exact .inr ⟨c, by rw [Function.update_of_ne hp]; exact hc, hle⟩
  before := by
    rcases hl.chained hi with h0 | ⟨c, hc, hle⟩
    · exact .inl h0
    · exact .inr ⟨c, by rw [Function.update_of_ne (pred_ne hn i)]; exact hc, hle⟩
  after {b} hb := by
    rw [Function.update_of_ne (succ_ne hn i)] at hb
    rcases hl.chained hb with h0 | ⟨c, hc, hle⟩
    · omega
    · rw [add_sub_cancel_right, hi] at hc
      cases hc
      exact hle

/-- The item after the hole moves into it, one step nearer home; the hole moves on
    and stands for the item as it was. -/
theorem Hollow.shift {i : ZMod n} {g : ℕ} (hh : Hollow home dist slot i g) {a b : α}
    (ha : slot (i + 1) = some a) (hhome : home b = home a) (hdist : dist b + 1 = dist a) :
    Hollow home dist (Function.update (Function.update slot i (some b)) (i + 1) none) (i + 1)
      (dist a) where
  free := Function.update_self _ _ _
  homed {j c} hj := by
    by_cases hj1 : j = i + 1
    · rw [hj1, Function.update_self] at hj; cases hj
    · rw [Function.update_of_ne hj1] at hj
      by_cases hji : j = i
      · subst hji
        rw [Function.update_self] at hj
        cases hj
        have := hh.homed ha
        rw [← hdist, Nat.cast_add, Nat.cast_one, ← add_assoc] at this
        rw [hhome]
        exact add_right_cancel this
      · rw [Function.update_of_ne hji] at hj
        exact hh.homed hj
  chained {j c} hnext hj := by
    have hp1 : j - 1 ≠ i + 1 := fun e => hnext (by rw [← e, sub_add_cancel])
    by_cases hj1 : j = i + 1
    · rw [hj1, Function.update_self] at hj; cases hj
    · rw [Function.update_of_ne hj1] at hj
      by_cases hji : j = i
      · subst hji
        rw [Function.update_self] at hj
        cases hj
        -- what supported the hole is enough for the item, now one step nearer home
        have hle := hh.after ha
        rcases hh.before with h0 | ⟨d, hd, hgd⟩
        · exact .inl (by omega)
        · refine .inr ⟨d, ?_, by omega⟩
          rw [Function.update_of_ne hp1, Function.update_of_ne (pred_ne hn j)]
          exact hd
      · rw [Function.update_of_ne hji] at hj
        have hp : j - 1 ≠ i := fun e => hj1 (by rw [← e, sub_add_cancel])
        rcases hh.chained hj1 hj with h0 | ⟨d, hd, hle⟩
        · exact .inl h0
        · exact .inr ⟨d, by rw [Function.update_of_ne hp1, Function.update_of_ne hp]; exact hd, hle⟩
  before := by
    refine .inr ⟨b, ?_, by omega⟩
    rw [add_sub_cancel_right, Function.update_of_ne (succ_ne hn i).symm, Function.update_self]
  after {c} hc := by
    have hi2 : i + 1 + 1 ≠ i := by
      intro e
      apply step_ne hn i (j := 2) (by decide) (by decide)
      rw [Nat.cast_ofNat]
      calc i + 2 = i + 1 + 1 := by ring
        _ = i := e
    rw [Function.update_of_ne (succ_ne hn (i + 1)), Function.update_of_ne hi2] at hc
    rcases hh.chained (succ_ne hn (i + 1)) hc with h0 | ⟨d, hd, hle⟩
    · omega
    · rw [add_sub_cancel_right, ha] at hd
      cases hd
      exact hle

end Remove

/-- Before a free slot or an item at home, the hole can be left. -/
theorem Hollow.close {i : ZMod n} {g : ℕ} (hh : Hollow home dist slot i g)
    (hnext : ∀ a, slot (i + 1) = some a → dist a = 0) : Layout home dist slot where
  homed hj := hh.homed hj
  chained {j a} hj := by
    by_cases hj1 : j = i + 1
    · rw [hj1] at hj
      exact .inl (hnext a hj)
    · exact hh.chained hj1 hj

end RobinHood
