import Mathlib.Data.Stream.Init
import SimpleKv.Lib.Expiring

/- A clock as the stream of its readings, and computations that read it as they go along a
   list. Each element is looked at at an instant of its own, between the first and the
   last reading the whole computation takes (`mapM_scan`). Whether all looks could have
   been at one instant is a question about deadlines only: they could unless one that was
   still to come at its look is not after another that had come at its own
   (`exists_instant_iff`). -/
namespace Readings

section Scan
variable {T : Type} [Preorder T]

/-- The clock does not go back. -/
def Forward (clock : Stream' T) : Prop := ∀ n, clock.get n ≤ clock.get (n + 1)

/-- Between the first and the last of `n` readings. Where none is taken, this is the
    reading to come. -/
def During (clock : Stream' T) (n : Nat) (t : T) : Prop := clock.head ≤ t ∧ t ≤ clock.get (n - 1)

/-- Instants of looks at the elements of `l`, one after the other, during `n` readings. -/
structure Instants {α : Type} (clock : Stream' T) (n : Nat) (l : List α) (instants : List T) : Prop where
  length : instants.length = l.length
  forward : instants.Pairwise (· ≤ ·)
  during : ∀ t ∈ instants, During clock n t

/-- The last of `n` readings, and `start` before the first. -/
def lastReading (start : T) (clock : Stream' T) : Nat → T
  | 0 => start
  | n+1 => clock.get n

/-- The clock shows `t` or later for good. -/
def Late (t : T) (clock : Stream' T) : Prop := ∀ n, t ≤ clock.get n

theorem late_append {t : T} {readings : List T} {clock : Stream' T} :
    Late t (readings ++ₛ clock) ↔ (∀ reading ∈ readings, t ≤ reading) ∧ Late t clock := by
  induction readings with
  | nil => exact ⟨fun h => ⟨by simp, h⟩, fun h => h.2⟩
  | cons first readings ih =>
    constructor
    · intro h
      obtain ⟨hreadings, hclock⟩ := ih.mp (fun n => h (n + 1))
      refine ⟨fun reading hmem => ?_, hclock⟩
      rcases List.mem_cons.mp hmem with rfl | hmem
      · exact h 0
      · exact hreadings reading hmem
    · intro h n
      cases n with
      | zero => exact h.1 first List.mem_cons_self
      | succ n => exact ih.mpr ⟨fun reading hmem => h.1 reading (List.mem_cons_of_mem _ hmem), h.2⟩ n

theorem Forward.tail {clock : Stream' T} (h : Forward clock) : Forward clock.tail :=
  fun n => h (n + 1)

omit [Preorder T] in
theorem lastReading_head (clock : Stream' T) (n : Nat) :
    lastReading clock.head clock n = clock.get (n - 1) := by
  cases n <;> rfl

omit [Preorder T] in
theorem lastReading_tail (start : T) (clock : Stream' T) (n : Nat) :
    lastReading clock.head clock.tail n = lastReading start clock (n + 1) := by
  cases n <;> rfl

theorem le_lastReading {start : T} {clock : Stream' T} (h : Forward clock) (hstart : start ≤ clock.head) :
    ∀ n, start ≤ lastReading start clock n
  | 0 => le_refl start
  | n+1 => by
    induction n with
    | zero => exact hstart
    | succ n ih => exact le_trans ih (h n)

theorem Forward.head_le {clock : Stream' T} (h : Forward clock) (n : Nat) :
    clock.head ≤ clock.get (n - 1) := by
  rw [← lastReading_head]
  exact le_lastReading h (le_refl _) n

variable {ε α β : Type} {g : α → StateT (Stream' T) (Except ε) β} {asks : α → Bool} {v : T → α → β}

/-- The scan from `start` on, the last reading before it. An element that does not ask for
    a reading is looked at at the last one. -/
theorem mapM_scan_from (hv : ∀ a, asks a = false → ∀ t t', v t a = v t' a) :
    ∀ (l : List α), (∀ a ∈ l, ∀ c, (g a).run c = .ok (v c.head a, if asks a then c.tail else c)) →
    ∀ {clock : Stream' T} {start : T}, Forward clock → start ≤ clock.head →
    ∃ instants : List T, instants.length = l.length ∧ (start :: instants).Pairwise (· ≤ ·) ∧
      (∀ t ∈ instants, t ≤ lastReading start clock (l.countP asks)) ∧
      (l.mapM g).run clock = .ok (List.zipWith v instants l, clock.drop (l.countP asks)) := by
  intro l
  induction l with
  | nil =>
    intro hg clock start hclock hstart
    exact ⟨[], rfl, List.pairwise_singleton _ _, by simp, rfl⟩
  | cons a l ih =>
    intro hg clock start hclock hstart
    have hrest : ∀ a' ∈ l, ∀ c, (g a').run c = .ok (v c.head a', if asks a' then c.tail else c) :=
      fun a' ha' => hg a' (List.mem_cons_of_mem a ha')
    rw [List.mapM_cons, StateT.run_bind, hg a List.mem_cons_self]
    by_cases ha : asks a = true
    · obtain ⟨instants, hlen, hpair, hlast, hrun⟩ := ih hrest hclock.tail (hclock 0)
      rw [lastReading_tail start] at hlast
      have hhead := (List.pairwise_cons.mp hpair).1
      rw [List.countP_cons_of_pos ha]
      refine ⟨clock.head :: instants, by simp [hlen], ?_, ?_, ?_⟩
      · refine List.pairwise_cons.mpr ⟨fun t ht => ?_, hpair⟩
        rcases List.mem_cons.mp ht with rfl | ht
        · exact hstart
        · exact le_trans hstart (hhead t ht)
      · intro t ht
        rcases List.mem_cons.mp ht with rfl | ht
        · rw [← lastReading_tail start]
          exact le_lastReading hclock.tail (hclock 0) _
        · exact hlast t ht
      · rw [if_pos ha]
        show (do let p ← (l.mapM g).run clock.tail; _) = _
        rw [hrun]
        rfl
    · obtain ⟨instants, hlen, hpair, hlast, hrun⟩ := ih hrest hclock hstart
      rw [List.countP_cons_of_neg ha]
      have hhead := (List.pairwise_cons.mp hpair).1
      refine ⟨start :: instants, by simp [hlen], ?_, ?_, ?_⟩
      · refine List.pairwise_cons.mpr ⟨fun t ht => ?_, hpair⟩
        rcases List.mem_cons.mp ht with rfl | ht
        · exact le_refl _
        · exact hhead t ht
      · intro t ht
        rcases List.mem_cons.mp ht with rfl | ht
        · exact le_lastReading hclock hstart _
        · exact hlast t ht
      · rw [if_neg ha]
        show (do let p ← (l.mapM g).run clock; _) = _
        rw [hrun, List.zipWith_cons_cons, hv a (Bool.eq_false_iff.mpr ha) start clock.head]
        rfl

/-- A scan of a list: each element asks for at most one reading and depends on the clock
    in no other way. -/
theorem mapM_scan (hv : ∀ a, asks a = false → ∀ t t', v t a = v t' a) {l : List α}
    (hg : ∀ a ∈ l, ∀ c, (g a).run c = .ok (v c.head a, if asks a then c.tail else c))
    {clock : Stream' T} (hclock : Forward clock) : ∃ instants,
      Instants clock (l.countP asks) l instants ∧
      (l.mapM g).run clock = .ok (List.zipWith v instants l, clock.drop (l.countP asks)) := by
  obtain ⟨instants, hlen, hpair, hlast, hrun⟩ := mapM_scan_from hv l hg hclock (le_refl _)
  obtain ⟨hhead, hforward⟩ := List.pairwise_cons.mp hpair
  rw [lastReading_head] at hlast
  exact ⟨instants, ⟨hlen, hforward, fun t ht => ⟨hhead t ht, hlast t ht⟩⟩, hrun⟩

omit [Preorder T] in
/-- All elements looked at at one instant. -/
theorem zipWith_eq_map {l : List α} {instants : List T} (hlen : instants.length = l.length) (t : T) :
    List.zipWith v instants l = l.map (v t) ↔ ∀ look ∈ instants.zip l, v look.1 look.2 = v t look.2 := by
  induction l generalizing instants with
  | nil => simp
  | cons a l ih =>
    cases instants with
    | nil => cases hlen
    | cons t' instants =>
      rw [List.zipWith_cons_cons, List.map_cons, List.cons.injEq, ih (Nat.succ.inj hlen),
        List.zip_cons_cons, List.forall_mem_cons]

end Scan

section Deadlines
open Expiring
variable {T β : Type} [Preorder T] {deadline : β → Option T}

/-- A deadline still to come at one look, and one that is no earlier and had come at
    another. -/
def Torn (deadline : β → Option T) (looks : List (T × β)) : Prop :=
  ∃ look ∈ looks, ∃ look' ∈ looks, ∃ d ∈ deadline look.2, ∃ d' ∈ deadline look'.2,
    look.1 < d ∧ d ≤ d' ∧ d' ≤ look'.1

variable [Std.Total (fun a b : T => a ≤ b)]

theorem total (a b : T) : a ≤ b ∨ b ≤ a := Std.Total.total a b

theorem ge_of_not_lt {a b : T} (h : ¬a < b) : b ≤ a := by
  rcases total a b with hab | hba
  · by_contra hba
    exact h (lt_of_le_not_ge hab hba)
  · exact hba

theorem exists_le_of_not_live {t : T} {b : β} (h : ¬Live deadline t b) :
    ∃ d ∈ deadline b, d ≤ t := by
  by_contra hnone
  refine h (fun d hd => ?_)
  by_contra hlt
  exact hnone ⟨d, hd, ge_of_not_lt hlt⟩

/-- The latest of the times with a property, and of `first`. -/
theorem exists_latest (first : T) (p : T → Prop) : ∀ times : List T, (∀ x ∈ times, p x) →
    ∃ t, first ≤ t ∧ (t = first ∨ p t) ∧ ∀ x ∈ times, x ≤ t := by
  intro times
  induction times with
  | nil =>
    intro hp
    exact ⟨first, le_refl _, .inl rfl, by simp⟩
  | cons x times ih =>
    intro hp
    obtain ⟨t, hfirst, ht, hle⟩ := ih (fun y hy => hp y (List.mem_cons_of_mem _ hy))
    rcases total x t with hx | hx
    · exact ⟨t, hfirst, ht, List.forall_mem_cons.mpr ⟨hx, hle⟩⟩
    · refine ⟨x, le_trans hfirst hx, .inr (hp x List.mem_cons_self), ?_⟩
      exact List.forall_mem_cons.mpr ⟨le_refl x, fun y hy => le_trans (hle y hy) hx⟩

/-- Looks at one instant, as far as anyone can tell who sees what has expired. -/
theorem exists_instant_iff {first last : T} (hle : first ≤ last) {looks : List (T × β)}
    (hlooks : ∀ look ∈ looks, first ≤ look.1 ∧ look.1 ≤ last) :
    (∃ t, (first ≤ t ∧ t ≤ last) ∧ ∀ look ∈ looks, (Live deadline look.1 look.2 ↔ Live deadline t look.2)) ↔
      ¬Torn deadline looks := by
  refine ⟨fun hone htorn => ?_, fun hwhole => ?_⟩
  · obtain ⟨t, _, hsame⟩ := hone
    obtain ⟨look, hlook, look', hlook', d, hd, d', hd', hlive, hdd, hcome⟩ := htorn
    -- the first deadline is after `t`, and the second is not
    have hlate : Live deadline look.1 look.2 := by
      intro e he
      rw [Option.mem_unique he hd]
      exact hlive
    have hearly : ¬Live deadline look'.1 look'.2 := fun h => absurd (h d' hd') (not_lt_of_ge hcome)
    obtain ⟨e, he, het⟩ := exists_le_of_not_live (fun h => hearly ((hsame look' hlook').mpr h))
    rw [Option.mem_unique he hd'] at het
    have htd := (hsame look hlook).mp hlate d hd
    exact absurd (lt_of_lt_of_le htd hdd) (not_lt_of_ge het)
  · classical
    -- the deadlines that had come at their looks, and the latest of them
    obtain ⟨t, hfirst, ht, hmax⟩ := exists_latest first
      (fun x => ∃ look ∈ looks, x ∈ deadline look.2 ∧ x ≤ look.1)
      (looks.filterMap (fun look => (deadline look.2).filter (fun d => d ≤ look.1))) (by
        intro x hx
        obtain ⟨look, hlook, hx⟩ := List.mem_filterMap.mp hx
        obtain ⟨hmem, hxle⟩ := Option.filter_eq_some_iff.mp hx
        exact ⟨look, hlook, hmem, of_decide_eq_true hxle⟩)
    refine ⟨t, ⟨hfirst, ?_⟩, fun look hlook => ⟨fun hlive d hd => ?_, fun hlive d hd => ?_⟩⟩
    · rcases ht with rfl | ⟨look, hlook, _, hx⟩
      · exact hle
      · exact le_trans hx (hlooks look hlook).2
    · rcases ht with rfl | ⟨look', hlook', hmem, hx⟩
      · exact lt_of_le_of_lt (hlooks look hlook).1 (hlive d hd)
      · by_contra hlt
        exact hwhole ⟨look, hlook, look', hlook', d, hd, t, hmem, hlive d hd, ge_of_not_lt hlt, hx⟩
    · by_contra hlt
      refine absurd (hlive d hd) (not_lt_of_ge (hmax d (List.mem_filterMap.mpr ⟨look, hlook, ?_⟩)))
      exact Option.filter_eq_some_iff.mpr ⟨hd, decide_eq_true (ge_of_not_lt hlt)⟩

end Deadlines
end Readings
