import SimpleKv.Lib.Incremental

/- Grammars that mention themselves. A grammar is a function `F` of the parser for its
   own nested values. If every nested value is read after some input (`Guarded`),
   unrolling `F` more often than the input is long changes nothing any more, so the
   limit `fix F` is an incremental parser again, and it solves `p = F p`. -/
namespace Incremental
namespace Parser

variable {β ε α γ : Type}

/-- `p` and `q` answer alike on inputs shorter than `n`. -/
def Agree (n : Nat) (p q : Parser β ε α) : Prop := ∀ s, s.length < n → p.run s = q.run s

namespace Agree
variable {n : Nat} {p q : Parser β ε α}

theorem refl (n : Nat) (p : Parser β ε α) : Agree n p p := fun _ _ => rfl

theorem bind {f g : α → Parser β ε γ} (h : Agree n p q) (hfg : ∀ a, Agree n (f a) (g a)) :
    Agree n (p.bind f) (q.bind g) := by
  intro s hs
  have hpq := h s hs
  cases hp : p.run s with
  | more => rw [bind_more hp, bind_more (hpq ▸ hp)]
  | fail e => rw [bind_fail hp, bind_fail (hpq ▸ hp)]
  | done a r =>
    obtain ⟨u, rfl⟩ := p.done_suffix hp
    rw [bind_done hp, bind_done (hpq ▸ hp)]
    apply hfg
    simp at hs
    omega

/-- What comes after some input may agree on one symbol less. -/
theorem after {f g : α → Parser β ε γ}
    (hconsumes : Consumes p) (hfg : ∀ a, Agree n (f a) (g a)) : Agree (n + 1) (p.bind f) (p.bind g) := by
  intro s hs
  cases hp : p.run s with
  | more => rw [bind_more hp, bind_more hp]
  | fail e => rw [bind_fail hp, bind_fail hp]
  | done a r =>
    have hlt := hconsumes _ _ _ hp
    rw [bind_done hp, bind_done hp]
    apply hfg
    omega

theorem ite {c : Prop} [Decidable c] {p' q' : Parser β ε α} (h : Agree n p q)
    (h' : Agree n p' q') : Agree n (if c then p else p') (if c then q else q') := by
  by_cases hc : c
  · simp only [hc, if_true]
    exact h
  · simp only [hc, if_false]
    exact h'

theorem times (h : Agree n p q) (k : Nat) : Agree n (p.times k) (q.times k) := by
  induction k with
  | zero => exact refl n _
  | succ k ih =>
    rw [Parser.times, Parser.times]
    apply h.bind
    intro a
    exact ih.bind (fun as => refl n _)

theorem branch {f g : β → Parser β ε α} (h : ∀ b, Agree n (f b) (g b)) :
    Agree n (branch f) (branch g) := by
  intro s hs
  cases s with
  | nil => rfl
  | cons b s => exact h b (b :: s) hs

end Agree

/-- In `F p`, what `p` reads comes after some input. -/
def Guarded (F : Parser β ε α → Parser β ε α) : Prop :=
  ∀ n p q, Agree n p q → Agree (n + 1) (F p) (F q)

def stall : Parser β ε α where
  run _ := .more
  done_append h := by cases h
  fail_append h := by cases h
  done_suffix h := by cases h

def unroll (F : Parser β ε α → Parser β ε α) : Nat → Parser β ε α
  | 0 => stall
  | n+1 => F (unroll F n)

section Fix
variable {F : Parser β ε α → Parser β ε α} (hF : Guarded F)
include hF

theorem unroll_agree (n k : Nat) : Agree n (unroll F n) (unroll F (n + k)) := by
  induction n with
  | zero =>
    intro s hs
    omega
  | succ n ih =>
    rw [Nat.add_right_comm]
    exact hF n _ _ ih

theorem unroll_run {s : List β} {n : Nat} (h : s.length < n) :
    (unroll F n).run s = (unroll F (s.length + 1)).run s := by
  have hagree := unroll_agree hF (s.length + 1) (n - (s.length + 1)) s (Nat.lt_succ_self _)
  rw [Nat.add_sub_cancel' h] at hagree
  exact hagree.symm

def fix : Parser β ε α where
  run s := (unroll F (s.length + 1)).run s
  done_append {s t a r} h := by
    rw [← unroll_run hF (n := (s ++ t).length + 1) (by rw [List.length_append]; omega)] at h
    exact (unroll F _).done_append h
  fail_append {s t e} h := by
    rw [← unroll_run hF (n := (s ++ t).length + 1) (by rw [List.length_append]; omega)] at h
    exact (unroll F _).fail_append h
  done_suffix h := (unroll F _).done_suffix h

/-- The nested values of `fix F` are read by `fix F`. -/
theorem fix_run (s : List β) : (fix hF).run s = (F (fix hF)).run s := by
  apply hF s.length (unroll F s.length) (fix hF)
  · intro t ht
    exact unroll_run hF ht
  · exact Nat.lt_succ_self _

theorem Consumes.fix (h : ∀ p, Consumes (F p)) : Consumes (fix hF) := by
  intro s r a hs
  rw [fix_run] at hs
  exact h _ _ _ _ hs

end Fix

end Parser
end Incremental
