import Mathlib.Logic.Basic

/- Postconditions for computations that return a value or stop with an error.
   `Yields stop x post`: the run of `x` returns a value with `post`, or stops
   for a reason `stop` tolerates. Nothing else can happen, so with
   `stop := fun _ => False` it says that `x` returns. `YieldsAt` is the same for a
   computation that also reads a state it leaves as it found it (a clock that
   does not move, a configuration), and `YieldsAlways` is for a computation that may
   read and change any state. `Guards f x y` relates two computations, one of which
   stops with `f` where the other goes on. The rules compose along `bind`, `foldlM`
   and `mapM`. -/
namespace Outcome

variable {ε α β γ σ : Type}

/-- What has returned has returned at each step. -/
theorem bind_eq_ok {x : Except ε α} {f : α → Except ε β} {b : β} :
    x >>= f = .ok b ↔ ∃ a, x = .ok a ∧ f a = .ok b := by
  cases x with
  | ok a => simp [bind, Except.bind]
  | error e => simp [bind, Except.bind]

/-- `x` returns a value with `post`, or stops with an error `stop` tolerates. -/
def Yields (stop : ε → Prop) (x : Except ε α) (post : α → Prop) : Prop :=
  match x with
  | .ok a => post a
  | .error e => stop e

/-- Run from `s`, `x` leaves the state at `s` and yields a value with `post`. -/
def YieldsAt (stop : ε → Prop) (s : σ) (x : StateT σ (Except ε) α) (post : α → Prop) : Prop :=
  Yields stop (x.run s) (fun r => r.2 = s ∧ post r.1)

/-- From whichever state it is run, `x` yields a value with `post`. -/
def YieldsAlways (stop : ε → Prop) (x : StateT σ (Except ε) α) (post : α → Prop) : Prop :=
  ∀ s, Yields stop (x.run s) (fun r => post r.1)

namespace Yields
variable {stop : ε → Prop} {x : Except ε α} {f : α → Except ε β} {P Q : α → Prop} {R : β → Prop}

@[simp] theorem ok (a : α) : Yields stop (.ok a : Except ε α) P ↔ P a := Iff.rfl

@[simp] theorem pure (a : α) : Yields stop (Pure.pure a : Except ε α) P ↔ P a := Iff.rfl

@[simp] theorem error (e : ε) : Yields stop (.error e : Except ε α) P ↔ stop e := Iff.rfl

@[simp] theorem throw (e : ε) : Yields stop (MonadExcept.throw e : Except ε α) P ↔ stop e := Iff.rfl

theorem mono (h : Yields stop x P) (hPQ : ∀ a, P a → Q a) : Yields stop x Q := by
  cases x with
  | ok a => exact hPQ a h
  | error e => exact h

theorem and {stop' : ε → Prop} (hP : Yields stop x P) (hQ : Yields stop' x Q) :
    Yields stop x (fun a => P a ∧ Q a) := by
  cases x with
  | ok a => exact ⟨hP, hQ⟩
  | error e => exact hP

theorem bind (hx : Yields stop x P) (hf : ∀ a, P a → Yields stop (f a) R) :
    Yields stop (x >>= f) R := by
  cases x with
  | ok a => exact hf a hx
  | error e => exact hx

theorem map {g : α → β} (hx : Yields stop x (fun a => R (g a))) : Yields stop (g <$> x) R := by
  cases x with
  | ok a => exact hx
  | error e => exact hx

theorem of_map {g : α → β} (h : Yields stop (g <$> x) R) : Yields stop x (fun a => R (g a)) := by
  cases x with
  | ok a => exact h
  | error e => exact h

/-- More errors tolerated. -/
theorem weaken {stop' : ε → Prop} (h : Yields stop x P) (hs : ∀ e, stop e → stop' e) :
    Yields stop' x P := by
  cases x with
  | ok a => exact h
  | error e => exact hs e h

/-- Where no error matters, a step of which nothing is known. -/
theorem bind_any (hf : ∀ a, Yields (fun _ => True) (f a) R) :
    Yields (fun _ => True) (x >>= f) R := by
  cases x with
  | ok a => exact hf a
  | error e => exact True.intro

/-- The value a returning computation returns has the postcondition. -/
theorem of_ok {a : α} (h : Yields stop x P) (hx : x = .ok a) : P a := by
  rw [hx] at h; exact h

/-- An error is one of the tolerated ones. -/
theorem of_error {e : ε} (h : Yields stop x P) (hx : x = .error e) : stop e := by
  rw [hx] at h; exact h

/-- Where no error is tolerated, the computation returns. -/
theorem exists_ok (h : Yields (fun _ : ε => False) x P) : ∃ a, x = .ok a ∧ P a := by
  cases x with
  | ok a => exact ⟨a, rfl, h⟩
  | error e => exact h.elim

/-- The same where the tolerated errors are none. -/
theorem returns (h : Yields stop x P) (hs : ∀ e, ¬stop e) : ∃ a, x = .ok a ∧ P a :=
  exists_ok (h.weaken hs)

/-- The loop rule: `inv` relates what is left of the list to the state. -/
theorem foldlM {g : β → α → Except ε β} (inv : List α → β → Prop)
    (step : ∀ a l b, inv (a :: l) b → Yields stop (g b a) (inv l)) :
    ∀ (l : List α) (b : β), inv l b → Yields stop (l.foldlM g b) (inv []) := by
  intro l
  induction l with
  | nil =>
    intro b h
    exact h
  | cons a l ih =>
    intro b h
    rw [List.foldlM_cons]
    exact bind (step a l b h) (fun b' h' => ih b' h')

end Yields

namespace YieldsAt
variable {stop : ε → Prop} {s : σ} {x : StateT σ (Except ε) α} {f : α → StateT σ (Except ε) β}
  {P Q : α → Prop} {R : β → Prop}

theorem pure {a : α} (h : P a) : YieldsAt stop s (Pure.pure a) P := ⟨rfl, h⟩

theorem bind (hx : YieldsAt stop s x P) (hf : ∀ a, P a → YieldsAt stop s (f a) R) :
    YieldsAt stop s (x >>= f) R := by
  unfold YieldsAt
  rw [StateT.run_bind]
  refine Yields.bind hx (fun r hr => ?_)
  rw [hr.1]
  exact hf r.1 hr.2

/-- A step whose value is known. -/
theorem bind_eq {v : α} (hx : YieldsAt stop s x (· = v)) (hf : YieldsAt stop s (f v) R) :
    YieldsAt stop s (x >>= f) R := by
  apply bind hx
  intro a ha
  rw [ha]
  exact hf

theorem lift {y : Except ε α} (h : Yields stop y P) : YieldsAt stop s (liftM y) P := by
  cases y with
  | ok a => exact ⟨rfl, h⟩
  | error e => exact h

theorem ite {c : Prop} [Decidable c] {y : StateT σ (Except ε) α}
    (hx : c → YieldsAt stop s x P) (hy : ¬c → YieldsAt stop s y P) :
    YieldsAt stop s (if c then x else y) P := by
  by_cases h : c
  · rw [if_pos h]; exact hx h
  · rw [if_neg h]; exact hy h

theorem foldlM {g : β → α → StateT σ (Except ε) β} (inv : List α → β → Prop)
    (step : ∀ a l b, inv (a :: l) b → YieldsAt stop s (g b a) (inv l)) :
    ∀ (l : List α) (b : β), inv l b → YieldsAt stop s (l.foldlM g b) (inv []) := by
  intro l
  induction l with
  | nil =>
    intro b h
    exact pure h
  | cons a l ih =>
    intro b h
    rw [List.foldlM_cons]
    exact bind (step a l b h) (fun b' h' => ih b' h')

/-- Computations whose values are known element by element. -/
theorem mapM {g : α → StateT σ (Except ε) β} (v : α → β) :
    ∀ (l : List α), (∀ a ∈ l, YieldsAt stop s (g a) (· = v a)) →
      YieldsAt stop s (l.mapM g) (· = l.map v) := by
  intro l
  induction l with
  | nil =>
    intro h
    rw [List.mapM_nil]
    exact pure rfl
  | cons a l ih =>
    intro h
    rw [List.mapM_cons]
    refine bind (h a (by simp)) (fun b hb => ?_)
    refine bind (ih (fun a' h' => h a' (by simp [h']))) (fun bs hbs => ?_)
    exact pure (by rw [hb, hbs, List.map_cons])

end YieldsAt

namespace YieldsAlways
variable {stop : ε → Prop} {x : StateT σ (Except ε) α} {f : α → StateT σ (Except ε) β}
  {P : α → Prop} {R : β → Prop}

theorem pure {a : α} (h : P a) : YieldsAlways stop (Pure.pure a : StateT σ (Except ε) α) P :=
  fun _ => h

/-- Where no error matters, a step of which nothing is known. -/
theorem bind_any (hf : ∀ a, YieldsAlways (fun _ => True) (f a) R) :
    YieldsAlways (fun _ => True) (x >>= f) R := by
  intro s
  rw [StateT.run_bind]
  exact Yields.bind_any (fun r => hf r.1 r.2)

/-- The value a run returns has the postcondition. -/
theorem of_ok {a : α} {s s' : σ} (h : YieldsAlways stop x P) (hx : x.run s = .ok (a, s')) : P a := by
  have hs := h s
  rw [hx] at hs
  exact hs

/-- The value comes from some run. -/
theorem ran (h : YieldsAlways stop x P) :
    YieldsAlways stop x (fun a => P a ∧ ∃ s s', x.run s = .ok (a, s')) := by
  intro s
  have hs := h s
  cases hrun : x.run s with
  | ok r =>
    rw [hrun] at hs
    exact ⟨hs, s, r.2, hrun⟩
  | error e =>
    rw [hrun] at hs
    exact hs

theorem weaken {stop' : ε → Prop} (h : YieldsAlways stop x P) (hs : ∀ e, stop e → stop' e) :
    YieldsAlways stop' x P :=
  fun s => Yields.weaken (h s) hs

theorem bind (hx : YieldsAlways stop x P) (hf : ∀ a, P a → YieldsAlways stop (f a) R) :
    YieldsAlways stop (x >>= f) R := by
  intro s
  rw [StateT.run_bind]
  exact Yields.bind (hx s) (fun r hr => hf r.1 hr r.2)

theorem lift {y : Except ε α} (h : Yields stop y P) :
    YieldsAlways stop (liftM y : StateT σ (Except ε) α) P := by
  intro s
  cases y with
  | ok a => exact h
  | error e => exact h

theorem ite {c : Prop} [Decidable c] {y : StateT σ (Except ε) α}
    (hx : c → YieldsAlways stop x P) (hy : ¬c → YieldsAlways stop y P) :
    YieldsAlways stop (if c then x else y) P := by
  by_cases h : c
  · rw [if_pos h]; exact hx h
  · rw [if_neg h]; exact hy h

theorem foldlM {g : β → α → StateT σ (Except ε) β} (inv : β → Prop) : ∀ {l : List α},
    (∀ b, ∀ a ∈ l, inv b → YieldsAlways stop (g b a) inv) →
    ∀ b, inv b → YieldsAlways stop (l.foldlM g b) inv := by
  intro l
  induction l with
  | nil =>
    intro step b h
    exact pure h
  | cons a l ih =>
    intro step b h
    rw [List.foldlM_cons]
    exact bind (step b a (by simp) h)
      (fun b' h' => ih (fun b a ha => step b a (by simp [ha])) b' h')

theorem mono {Q : α → Prop} (h : YieldsAlways stop x P) (hPQ : ∀ a, P a → Q a) :
    YieldsAlways stop x Q :=
  fun s => Yields.mono (h s) (fun r => hPQ r.1)

/-- Each element becomes a value with `Q`. -/
theorem mapM {g : α → StateT σ (Except ε) β} {Q : β → Prop} :
    ∀ {l : List α}, (∀ a ∈ l, YieldsAlways stop (g a) Q) →
      YieldsAlways stop (l.mapM g) (fun bs => bs.length = l.length ∧ ∀ b ∈ bs, Q b) := by
  intro l
  induction l with
  | nil =>
    intro h
    rw [List.mapM_nil]
    exact pure (by simp)
  | cons a l ih =>
    intro h
    rw [List.mapM_cons]
    apply bind (h a (by simp))
    intro b hb
    apply bind (ih (fun a' h' => h a' (by simp [h'])))
    intro bs ⟨hlen, hbs⟩
    apply pure
    simp [hlen, hb]
    exact hbs

end YieldsAlways

/-- `x` is `y` with checks, which may stop it with `f`. -/
def Guards (f : ε) (x y : Except ε α) : Prop := x = y ∨ x = .error f

namespace Guards
variable {f : ε} {x y : Except ε α} {g g' : α → Except ε β}

theorem refl (x : Except ε α) : Guards f x x := .inl rfl

theorem stop (y : Except ε α) : Guards f (.error f) y := .inr rfl

theorem bind (h : Guards f x y) (hg : ∀ a, Guards f (g a) (g' a)) :
    Guards f (x >>= g) (y >>= g') := by
  rcases h with rfl | rfl
  · cases x with
    | ok a => exact hg a
    | error e => exact refl _
  · exact stop _

theorem foldlM {g g' : β → α → Except ε β} (hg : ∀ b a, Guards f (g b a) (g' b a)) :
    ∀ (l : List α) (b : β), Guards f (l.foldlM g b) (l.foldlM g' b) := by
  intro l
  induction l with
  | nil =>
    intro b
    exact refl _
  | cons a l ih =>
    intro b
    rw [List.foldlM_cons, List.foldlM_cons]
    exact bind (hg b a) ih

end Guards

end Outcome
