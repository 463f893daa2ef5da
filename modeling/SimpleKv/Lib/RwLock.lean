import Mathlib.Data.Stream.Init
import Mathlib.Logic.Function.Basic
import SimpleKv.Lib.Outcome

/- Sections of code under a readers-writer lock. Tasks take the lock, shared with other
   readers or for themselves, go through their sections step by step, and give it back;
   between any two steps the others may take theirs. All of them read one tape, a clock
   for example. `Atomic` says what the sections under way amount to: each goes on as if
   it had been alone from the start, on a tape of its own. So when a section is over, it
   has done what it does in one piece at that moment (`Atomic.release`). -/

/-! Computations that read a tape. -/
namespace Tape

variable {ε τ α β : Type}

/-- What `x` returns is decided by what it has read. -/
def Local (x : StateT (Stream' τ) (Except ε) α) : Prop :=
  ∀ ⦃tape a tape'⦄, x.run tape = .ok (a, tape') →
    ∃ us, tape = us ++ₛ tape' ∧ ∀ rest, x.run (us ++ₛ rest) = .ok (a, rest)

namespace Local

theorem pure (a : α) : Local (Pure.pure a : StateT (Stream' τ) (Except ε) α) := by
  intro tape a' tape' h
  cases h
  exact ⟨[], rfl, fun rest => rfl⟩

theorem lift (x : Except ε α) : Local (liftM x : StateT (Stream' τ) (Except ε) α) := by
  intro tape a tape' h
  cases x with
  | error e => cases h
  | ok a => cases h; exact ⟨[], rfl, fun rest => rfl⟩

theorem throw (e : ε) : Local (MonadExcept.throw e : StateT (Stream' τ) (Except ε) α) := by
  intro tape a tape' h
  cases h

theorem bind {x : StateT (Stream' τ) (Except ε) α} {f : α → StateT (Stream' τ) (Except ε) β}
    (hx : Local x) (hf : ∀ a, Local (f a)) : Local (x >>= f) := by
  intro tape b tape' h
  rw [StateT.run_bind] at h
  obtain ⟨⟨a, middle⟩, hrun, hrest⟩ := Outcome.bind_eq_ok.mp h
  obtain ⟨us, rfl, hus⟩ := hx hrun
  obtain ⟨vs, rfl, hvs⟩ := hf a hrest
  refine ⟨us ++ vs, by rw [Stream'.append_append_stream], fun rest => ?_⟩
  rw [StateT.run_bind, Stream'.append_append_stream, hus]
  exact hvs rest

theorem ite {c : Prop} [Decidable c] {x y : StateT (Stream' τ) (Except ε) α} (hx : Local x)
    (hy : Local y) : Local (if c then x else y) := by
  by_cases h : c
  · rw [if_pos h]; exact hx
  · rw [if_neg h]; exact hy

end Local
end Tape

/-! Sections. -/
namespace RwLock

inductive Mode where
  | shared
  | exclusive
  deriving DecidableEq

/-- What a task that holds the lock holds, and where it is. -/
structure Guard (ρ : Type) where
  mode : Mode
  progress : ρ

/-- Sections of code on a state `σ`, with progress in `ρ` and results in `α`. -/
structure Sections (σ ρ α ε τ : Type) where
  step : ρ → σ → StateT (Stream' τ) (Except ε) (ρ × σ)
  /-- What is left of the section, in one piece. -/
  rest : ρ → σ → StateT (Stream' τ) (Except ε) (α × σ)
  result : ρ → Option α
  /-- The section only reads. -/
  reading : ρ → Prop
  step_local : ∀ p s, Tape.Local (step p s)
  rest_step : ∀ p s, result p = none → rest p s = step p s >>= fun q => rest q.1 q.2
  rest_result : ∀ p s a, result p = some a → rest p s = pure (a, s)
  reading_step : ∀ {p s tape q tape'}, reading p → (step p s).run tape = .ok (q, tape') →
    q.2 = s ∧ reading q.1

variable {σ ρ α ε τ ι : Type} (sections : Sections σ ρ α ε τ)

/-- Of a section that began with `p₀` in `s₀` there is `p` left in `s`, and it has read
    `us` so far. -/
def Within (p₀ : ρ) (s₀ : σ) (us : List τ) (p : ρ) (s : σ) : Prop :=
  ∀ tape, (sections.rest p₀ s₀).run (us ++ₛ tape) = (sections.rest p s).run tape

namespace Within
variable {sections} {p₀ p p' : ρ} {s₀ s s' : σ} {us : List τ} {tape tape' : Stream' τ}

theorem start (p : ρ) (s : σ) : Within sections p s [] p s := fun _ => rfl

/-- A step that reads `vs`. -/
theorem step (h : Within sections p₀ s₀ us p s) (hp : sections.result p = none) {vs : List τ}
    (hvs : ∀ rest, (sections.step p s).run (vs ++ₛ rest) = .ok ((p', s'), rest)) :
    Within sections p₀ s₀ (us ++ vs) p' s' := by
  intro rest
  rw [Stream'.append_append_stream, h, sections.rest_step p s hp, StateT.run_bind, hvs]
  rfl

/-- A section that is over is what it is in one piece. -/
theorem result (h : Within sections p₀ s₀ us p s) {a : α} (hp : sections.result p = some a)
    (tape : Stream' τ) : (sections.rest p₀ s₀).run (us ++ₛ tape) = .ok ((a, s), tape) := by
  rw [h, sections.rest_result p s a hp]
  rfl

/-- And one that fails at a step fails in one piece. -/
theorem error (h : Within sections p₀ s₀ us p s) (hp : sections.result p = none) {e : ε}
    (hrun : (sections.step p s).run tape = .error e) :
    (sections.rest p₀ s₀).run (us ++ₛ tape) = .error e := by
  rw [h, sections.rest_step p s hp, StateT.run_bind, hrun]
  rfl

end Within

/-- The tasks in `held` have their sections under way, task `i` since it was at
    `begun i`, and it has read `own i` since then. `s₀` is the state by the sections that are
    over, `s` the one there is. -/
structure Atomic (begun : ι → ρ) (held : ι → Option (Guard ρ)) (own : ι → List τ) (s₀ s : σ) :
    Prop where
  within : ∀ i g, held i = some g → Within sections (begun i) s₀ (own i) g.progress s
  reading : ∀ i g, held i = some g → g.mode = .shared → sections.reading g.progress
  alone : ∀ i g, held i = some g → g.mode = .exclusive → ∀ j, j ≠ i → held j = none
  settled : (∀ i g, held i = some g → g.mode = .shared) → s = s₀

/-- The lock is given to a task only if this leaves no writer together with another
    task. -/
def Grants (held : ι → Option (Guard ρ)) : Mode → Prop
  | .shared => ∀ i g, held i = some g → g.mode = .shared
  | .exclusive => ∀ i, held i = none

namespace Atomic
variable {sections} {begun : ι → ρ} {held : ι → Option (Guard ρ)} {own : ι → List τ} {s₀ s s' : σ}

theorem free (begun : ι → ρ) (own : ι → List τ) (s : σ) :
    Atomic sections begun (fun _ => none) own s s where
  within _ _ h := by cases h
  reading _ _ h := by cases h
  alone _ _ h := by cases h
  settled _ := rfl

/-- Nothing else counts but where those that hold the lock have started. -/
theorem congr (h : Atomic sections begun held own s₀ s) (begun' : ι → ρ)
    (hbegun : ∀ i, held i ≠ none → begun' i = begun i) :
    Atomic sections begun' held own s₀ s where
  within i g hi := by
    rw [hbegun i (by rw [hi]; exact Option.some_ne_none g)]
    exact h.within i g hi
  reading := h.reading
  alone := h.alone
  settled := h.settled

/-- A task that shares the lock shares it with readers only. -/
theorem all_shared (h : Atomic sections begun held own s₀ s) {i : ι} {g : Guard ρ}
    (hi : held i = some g) (hg : g.mode = .shared) : ∀ j g', held j = some g' → g'.mode = .shared := by
  intro j g' hj
  by_cases hij : i = j
  · subst hij
    cases hi.symm.trans hj
    exact hg
  · cases hmode : g'.mode with
    | shared => rfl
    | exclusive => exact absurd (h.alone j g' hj hmode i hij) (by simp [hi])

/-- The state changes under a writer only, and then nobody else is there. -/
theorem step_frame (h : Atomic sections begun held own s₀ s) {i j : ι} {g g' : Guard ρ}
    (hi : held i = some g) (hj : held j = some g') (hij : j ≠ i) {p' : ρ} {tape tape' : Stream' τ}
    (hrun : (sections.step g.progress s).run tape = .ok ((p', s'), tape')) : s' = s := by
  cases hmode : g.mode with
  | shared => exact (sections.reading_step (h.reading i g hi hmode) hrun).1
  | exclusive => exact absurd (h.alone i g hi hmode j hij) (by simp [hj])

variable [DecidableEq ι]

/-- A task takes the lock. It has read nothing yet. -/
theorem acquire (h : Atomic sections begun held own s₀ s) {mode : Mode}
    (hgrants : Grants held mode) {i : ι} (hreading : mode = .shared → sections.reading (begun i)) :
    Atomic sections begun (Function.update held i (some ⟨mode, begun i⟩))
      (Function.update own i []) s₀ s := by
  have hs : s = s₀ := by
    apply h.settled
    cases mode with
    | shared => exact hgrants
    | exclusive =>
      intro j g hj
      exact absurd (hgrants j) (by simp [hj])
  refine ⟨fun j g hj => ?_, fun j g hj hg => ?_, fun j g hj hg k hk => ?_, fun _ => hs⟩
  · by_cases hij : j = i
    · subst hij
      rw [Function.update_self] at hj
      cases hj
      rw [hs, Function.update_self]
      exact .start _ _
    · rw [Function.update_of_ne hij] at hj
      rw [Function.update_of_ne hij]
      exact h.within j g hj
  · by_cases hij : j = i
    · subst hij
      rw [Function.update_self] at hj
      cases hj
      exact hreading hg
    · rw [Function.update_of_ne hij] at hj
      exact h.reading j g hj hg
  · by_cases hij : j = i
    · subst hij
      rw [Function.update_self] at hj
      cases hj
      cases (show mode = .exclusive from hg)
      rw [Function.update_of_ne hk]
      exact hgrants k
    · -- a writer is there already, so nothing was granted
      rw [Function.update_of_ne hij] at hj
      cases mode with
      | shared => exact absurd ((hgrants j g hj).symm.trans hg) (by decide)
      | exclusive => exact absurd (hgrants j) (by simp [hj])

/-- A task takes a step of its section, which reads `vs`. -/
theorem step (h : Atomic sections begun held own s₀ s) {i : ι} {g : Guard ρ}
    (hi : held i = some g) (hg : sections.result g.progress = none) {p' : ρ} {vs : List τ}
    (hvs : ∀ rest, (sections.step g.progress s).run (vs ++ₛ rest) = .ok ((p', s'), rest))
    (tape : Stream' τ) :
    Atomic sections begun (Function.update held i (some ⟨g.mode, p'⟩))
      (Function.update own i (own i ++ vs)) s₀ s' := by
  have hrun := hvs tape
  refine ⟨fun j g' hj => ?_, fun j g' hj hg' => ?_, fun j g' hj hg' k hk => ?_,
    fun hshared => ?_⟩
  · by_cases hij : j = i
    · subst hij
      rw [Function.update_self] at hj ⊢
      cases hj
      exact (h.within j g hi).step hg hvs
    · rw [Function.update_of_ne hij] at hj ⊢
      rw [h.step_frame hi hj hij hrun]
      exact h.within j g' hj
  · by_cases hij : j = i
    · subst hij
      rw [Function.update_self] at hj
      cases hj
      exact (sections.reading_step (h.reading j g hi hg') hrun).2
    · rw [Function.update_of_ne hij] at hj
      exact h.reading j g' hj hg'
  · by_cases hij : j = i
    · subst hij
      rw [Function.update_self] at hj
      cases hj
      rw [Function.update_of_ne hk]
      exact h.alone j g hi hg' k hk
    · rw [Function.update_of_ne hij] at hj
      by_cases hki : k = i
      · subst hki
        exact absurd (h.alone j g' hj hg' k hk) (by simp [hi])
      · rw [Function.update_of_ne hki]
        exact h.alone j g' hj hg' k hk
  · have hmode : g.mode = .shared := hshared i ⟨g.mode, p'⟩ (Function.update_self _ _ _)
    have hsame : s' = s := (sections.reading_step (h.reading i g hi hmode) hrun).1
    rw [hsame]
    exact h.settled (h.all_shared hi hmode)

/-- A task gives the lock back: its section has done what it does in one piece, from
    where the sections that were over before had led, on what it has read while it had the
    lock. -/
theorem release (h : Atomic sections begun held own s₀ s) {i : ι} {g : Guard ρ}
    (hi : held i = some g) {a : α} (hg : sections.result g.progress = some a) :
    (∀ tape, (sections.rest (begun i) s₀).run (own i ++ₛ tape) = .ok ((a, s), tape)) ∧
      Atomic sections begun (Function.update held i none) own s s := by
  refine ⟨(h.within i g hi).result hg, ?_⟩
  have hrest : ∀ {j g'}, Function.update held i none j = some g' → j ≠ i ∧ held j = some g' := by
    intro j g' hj
    by_cases hij : j = i
    · subst hij
      rw [Function.update_self] at hj
      cases hj
    · rw [Function.update_of_ne hij] at hj
      exact ⟨hij, hj⟩
  refine ⟨fun j g' hj => ?_, fun j g' hj => h.reading j g' (hrest hj).2, fun j g' hj hg' k hk => ?_,
    fun _ => rfl⟩
  · obtain ⟨hij, hj⟩ := hrest hj
    cases hmode : g.mode with
    | exclusive => exact absurd (h.alone i g hi hmode j hij) (by simp [hj])
    | shared =>
      have hs := h.settled (h.all_shared hi hmode)
      subst hs
      exact h.within j g' hj
  · obtain ⟨_, hj⟩ := hrest hj
    by_cases hki : k = i
    · rw [hki, Function.update_self]
    · rw [Function.update_of_ne hki]
      exact h.alone j g' hj hg' k hk

end Atomic
end RwLock
