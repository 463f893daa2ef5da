import SimpleKv.Lib.Outcome

/- Two computations side by side. `Lockstep stop R x y`: wherever `x` returns, `y` returns
   from the same state, with a value related by `R` and the same state after, unless it
   stops for a reason `stop` tolerates. The rules follow the combinators, so that two
   runs of one program on related data are compared step by step. -/
namespace Outcome

variable {ε α α' β β' γ σ : Type}

def Lockstep (stop : ε → Prop) (R : α → α' → Prop) (x : StateT σ (Except ε) α)
    (y : StateT σ (Except ε) α') : Prop :=
  ∀ s a s', x.run s = .ok (a, s') → Yields stop (y.run s) (fun r => R a r.1 ∧ r.2 = s')

namespace Lockstep
variable {stop : ε → Prop} {R : α → α' → Prop} {S : β → β' → Prop} {x : StateT σ (Except ε) α}
  {y : StateT σ (Except ε) α'} {f : α → StateT σ (Except ε) β} {g : α' → StateT σ (Except ε) β'}

theorem pure {a : α} {a' : α'} (h : R a a') :
    Lockstep stop R (Pure.pure a : StateT σ (Except ε) α) (Pure.pure a') := by
  intro s b s' hrun
  cases hrun
  exact ⟨h, rfl⟩

theorem refl (x : StateT σ (Except ε) α) : Lockstep stop (· = ·) x x := by
  intro s a s' hrun
  rw [hrun]
  exact ⟨rfl, rfl⟩

theorem bind (hx : Lockstep stop R x y) (hf : ∀ a a', R a a' → Lockstep stop S (f a) (g a')) :
    Lockstep stop S (x >>= f) (y >>= g) := by
  intro s b s' hrun
  rw [StateT.run_bind] at hrun
  obtain ⟨⟨a, next⟩, hfirst, hrest⟩ := bind_eq_ok.mp hrun
  rw [StateT.run_bind]
  apply Yields.bind (hx s a next hfirst)
  intro r hr
  rw [hr.2]
  exact hf a r.1 hr.1 next b s' hrest

/-- Computations that leave the state alone. -/
theorem lift {u : Except ε α} {v : Except ε α'}
    (h : ∀ a, u = .ok a → Yields stop v (R a)) :
    Lockstep stop R (liftM u : StateT σ (Except ε) α) (liftM v) := by
  intro s a s' hrun
  cases u with
  | error e => cases hrun
  | ok b =>
    cases hrun
    have hv := h _ rfl
    cases v with
    | error e => exact hv
    | ok c => exact ⟨hv, rfl⟩

theorem ite {c : Prop} [Decidable c] {x' : StateT σ (Except ε) α} {y' : StateT σ (Except ε) α'}
    (hx : c → Lockstep stop R x y) (hx' : ¬c → Lockstep stop R x' y') :
    Lockstep stop R (if c then x else x') (if c then y else y') := by
  by_cases h : c
  · rw [if_pos h, if_pos h]
    exact hx h
  · rw [if_neg h, if_neg h]
    exact hx' h

theorem foldlM {f : β → γ → StateT σ (Except ε) β} {g : β' → γ → StateT σ (Except ε) β'} :
    ∀ {l : List γ}, (∀ b b', ∀ c ∈ l, S b b' → Lockstep stop S (f b c) (g b' c)) →
    ∀ b b', S b b' → Lockstep stop S (l.foldlM f b) (l.foldlM g b') := by
  intro l
  induction l with
  | nil =>
    intro step b b' h
    exact pure h
  | cons c l ih =>
    intro step b b' h
    rw [List.foldlM_cons, List.foldlM_cons]
    exact bind (step b b' c (by simp) h)
      (ih (fun b b' c hc => step b b' c (by simp [hc])))

/-- Element by element the values are the same. -/
theorem mapM {f g : γ → StateT σ (Except ε) β} : ∀ {l : List γ},
    (∀ c ∈ l, Lockstep stop (· = ·) (f c) (g c)) → Lockstep stop (· = ·) (l.mapM f) (l.mapM g) := by
  intro l
  induction l with
  | nil =>
    intro h
    rw [List.mapM_nil, List.mapM_nil]
    exact refl _
  | cons c l ih =>
    intro h
    rw [List.mapM_cons, List.mapM_cons]
    apply bind (h c (by simp))
    intro b b' hb
    apply bind (ih (fun c hc => h c (by simp [hc])))
    intro bs bs' hbs
    exact pure (by rw [hb, hbs])

end Lockstep
end Outcome
