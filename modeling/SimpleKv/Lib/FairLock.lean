import SimpleKv.Lib.RwLock

/- A readers-writer lock that is given out in the order in which it is asked for. A task
   that asks for it goes to the end of a queue. It gets the lock when those that hold it
   allow this and nobody before it in the queue is kept from it: a reader may pass readers,
   a writer nobody. If each task that takes a turn takes turns again and again, and holders
   give the lock back after finitely many of theirs, no task waits for ever
   (`Run.gets_lock`): the front of the queue gets the lock, and everything before a task
   leaves the queue in time. -/
namespace RwLock

variable {ι : Type} [DecidableEq ι]

/-- Those before the task in the queue. -/
def ahead (task : ι) (queue : List (ι × Mode)) : List (ι × Mode) :=
  queue.takeWhile (fun entry => entry.1 ≠ task)

/-- Whether a task may get the lock before those. -/
def passes : Mode → List (ι × Mode) → Bool
  | .shared, before => before.all (fun entry => entry.2 = .shared)
  | .exclusive, before => before.isEmpty

/-- The queue without the task. -/
def leave (task : ι) (queue : List (ι × Mode)) : List (ι × Mode) :=
  queue.filter (fun entry => entry.1 ≠ task)

/-! The queue. -/

section Queue
variable {task other : ι} {mode mode' : Mode} {queue : List (ι × Mode)}

@[simp] theorem ahead_nil : ahead task ([] : List (ι × Mode)) = [] := rfl

@[simp] theorem ahead_cons_self : ahead task ((task, mode) :: queue) = [] := by simp [ahead]

@[simp] theorem ahead_cons_ne (h : other ≠ task) :
    ahead task ((other, mode) :: queue) = (other, mode) :: ahead task queue := by simp [ahead, h]

@[simp] theorem leave_nil : leave task ([] : List (ι × Mode)) = [] := rfl

@[simp] theorem leave_cons_self : leave task ((task, mode) :: queue) = leave task queue := by
  simp [leave]

@[simp] theorem leave_cons_ne (h : other ≠ task) :
    leave task ((other, mode) :: queue) = (other, mode) :: leave task queue := by simp [leave, h]

@[simp] theorem lookup_cons_ne (h : other ≠ task) :
    ((other, mode) :: queue).lookup task = queue.lookup task := by
  rw [List.lookup_cons, beq_false_of_ne (Ne.symm h)]

theorem lookup_leave_self (task : ι) (queue : List (ι × Mode)) :
    (leave task queue).lookup task = none := by
  induction queue with
  | nil => rfl
  | cons entry queue ih =>
    obtain ⟨key, mode⟩ := entry
    by_cases hkey : key = task
    · subst hkey
      rw [leave_cons_self, ih]
    · rw [leave_cons_ne hkey, lookup_cons_ne hkey, ih]

theorem lookup_leave (h : other ≠ task) : (leave other queue).lookup task = queue.lookup task := by
  induction queue with
  | nil => rfl
  | cons entry queue ih =>
    obtain ⟨key, mode⟩ := entry
    by_cases hkey : key = other
    · subst hkey
      rw [leave_cons_self, lookup_cons_ne h, ih]
    · rw [leave_cons_ne hkey, List.lookup_cons, List.lookup_cons, ih]

theorem lookup_ask (h : other ≠ task) :
    (queue ++ [(other, mode)]).lookup task = queue.lookup task := by
  rw [List.lookup_append, lookup_cons_ne h]
  exact Option.or_none

theorem ahead_leave (h : other ≠ task) :
    ahead task (leave other queue) = leave other (ahead task queue) := by
  induction queue with
  | nil => rfl
  | cons entry queue ih =>
    obtain ⟨key, mode⟩ := entry
    by_cases hkey : key = other
    · subst hkey
      simp [h, ih]
    · by_cases htask : key = task
      · subst htask
        simp [hkey]
      · simp [hkey, htask, ih]

theorem front_eq (hwaits : queue.lookup task = some mode) (hfirst : ahead task queue = []) :
    ∃ rest, queue = (task, mode) :: rest := by
  cases queue with
  | nil => cases hwaits
  | cons entry queue =>
    obtain ⟨key, mode'⟩ := entry
    by_cases htask : key = task
    · subst htask
      rw [List.lookup_cons_self] at hwaits
      cases hwaits
      exact ⟨queue, rfl⟩
    · simp [htask] at hfirst

theorem ahead_ask (h : queue.lookup task = some mode) :
    ahead task (queue ++ [(other, mode')]) = ahead task queue := by
  induction queue with
  | nil => cases h
  | cons entry queue ih =>
    obtain ⟨key, mode⟩ := entry
    by_cases htask : key = task
    · subst htask
      simp
    · rw [lookup_cons_ne htask] at h
      simp [htask, ih h]

/-- The first of those before the task is the front of the queue. -/
theorem front_of_ahead {rest : List (ι × Mode)} (h : ahead task queue = (other, mode) :: rest) :
    queue.lookup other = some mode ∧ ahead other queue = [] := by
  cases queue with
  | nil => cases h
  | cons entry queue =>
    obtain ⟨key, mode⟩ := entry
    by_cases htask : key = task
    · subst htask
      simp at h
    · rw [ahead_cons_ne htask] at h
      cases h
      simp

theorem lookup_of_mem_ahead (h : (other, mode) ∈ ahead task queue) : queue.lookup other ≠ none := by
  intro hnone
  have hmem := (List.takeWhile_prefix _).subset h
  have hne := List.lookup_eq_none_iff.mp hnone _ hmem
  simp at hne

end Queue

/-! Turns. -/

/-- Who holds the lock, each for a number of its own turns at most, and who waits for it. -/
structure Line (ι : Type) where
  held : ι → Option (Guard ℕ)
  queue : List (ι × Mode)

namespace Line

/-- A turn of a task. -/
inductive Step (task : ι) : Line ι → Line ι → Prop where
  | idle {line : Line ι} : line.queue.lookup task = none → line.held task = none →
      Step task line line
  | ask {line : Line ι} (mode : Mode) : line.queue.lookup task = none → line.held task = none →
      Step task line { line with queue := line.queue ++ [(task, mode)] }
  | wait {line : Line ι} {mode : Mode} : line.queue.lookup task = some mode →
      ¬(passes mode (ahead task line.queue) = true ∧ Grants line.held mode) →
      Step task line line
  | take {line : Line ι} {mode : Mode} (left : ℕ) : line.queue.lookup task = some mode →
      passes mode (ahead task line.queue) = true → Grants line.held mode →
      Step task line ⟨Function.update line.held task (some ⟨mode, left⟩), leave task line.queue⟩
  | work {line : Line ι} {guard : Guard ℕ} (left : ℕ) : line.held task = some guard →
      left < guard.progress →
      Step task line { line with held := Function.update line.held task (some { guard with progress := left }) }
  | release {line : Line ι} {guard : Guard ℕ} : line.held task = some guard →
      Step task line { line with held := Function.update line.held task none }

variable {line line' : Line ι} {task other : ι} {mode : Mode}

theorem Step.held_other (h : Step other line line') (hne : task ≠ other) :
    line'.held task = line.held task := by
  cases h with
  | idle | ask | wait => rfl
  | take | work | release => exact Function.update_of_ne hne _ _

theorem Step.lookup_other (h : Step other line line') (hne : task ≠ other) :
    line'.queue.lookup task = line.queue.lookup task := by
  cases h with
  | idle | wait | work | release => rfl
  | ask => exact lookup_ask hne.symm
  | take => exact lookup_leave hne.symm

/-- Nobody comes before a task that waits. -/
theorem Step.ahead_other (h : Step other line line') (hne : task ≠ other)
    (hwaits : line.queue.lookup task = some mode) :
    (ahead task line'.queue).Sublist (ahead task line.queue) := by
  cases h with
  | idle | wait | work | release => exact List.Sublist.refl _
  | ask mode' => exact (ahead_ask hwaits) ▸ List.Sublist.refl _
  | take left =>
    rw [ahead_leave hne.symm]
    exact List.filter_sublist

/-- A task that waits gets the lock at its turn or waits on. -/
theorem Step.waiting (h : Step task line line') (hline : line.held task = none)
    (hwaits : line.queue.lookup task = some mode) : line'.held task ≠ none ∨
      line' = line ∧ ¬(passes mode (ahead task line.queue) = true ∧ Grants line.held mode) := by
  cases h with
  | idle hlookup | ask _ hlookup => exact absurd (hlookup.symm.trans hwaits) (by simp)
  | wait hlookup hbarred =>
    cases hlookup.symm.trans hwaits
    exact .inr ⟨rfl, hbarred⟩
  | take left => exact .inl (by simp)
  | work _ hheld | release hheld => exact absurd (hheld.symm.trans hline) (by simp)

/-- A task that holds the lock gives it back at its turn or has fewer turns left. -/
theorem Step.holding (h : Step task line line') (hlookup : line.queue.lookup task = none)
    {guard : Guard ℕ} (hheld : line.held task = some guard) : line'.held task = none ∨
      ∃ left < guard.progress, line'.held task = some { guard with progress := left } := by
  cases h with
  | idle _ hnone | ask _ _ hnone => simp [hheld] at hnone
  | wait hwaits | take _ hwaits => simp [hlookup] at hwaits
  | work left hheld' hlt =>
    cases hheld.symm.trans hheld'
    exact .inr ⟨left, hlt, by simp⟩
  | release => exact .inl (by simp)

/-- No task waits for the lock and holds it. -/
def Apart (line : Line ι) : Prop := ∀ task, line.queue.lookup task ≠ none → line.held task = none

theorem Step.apart (h : Step other line line') (hline : line.Apart) : line'.Apart := by
  intro task hwaits
  cases h with
  | idle | wait => exact hline task hwaits
  | ask mode hlookup hheld =>
    by_cases htask : task = other
    · rw [htask]
      exact hheld
    · rw [lookup_ask (Ne.symm htask)] at hwaits
      exact hline task hwaits
  | take left =>
    by_cases htask : task = other
    · subst htask
      exact absurd (lookup_leave_self _ _) hwaits
    · rw [lookup_leave (Ne.symm htask)] at hwaits
      exact (Function.update_of_ne htask _ _).trans (hline task hwaits)
  | work left hheld | release hheld =>
    by_cases htask : task = other
    · subst htask
      exact absurd (hline task hwaits) (by simp [hheld])
    · exact (Function.update_of_ne htask _ _).trans (hline task hwaits)

end Line

/-- Turns of tasks, one after the other for ever. A task that takes a turn takes turns again
    and again. -/
structure Run (turn : ℕ → ι) (line : ℕ → Line ι) : Prop where
  start : line 0 = ⟨fun _ => none, []⟩
  step : ∀ n, (line n).Step (turn n) (line (n + 1))
  fair : ∀ n k, ∃ m, k ≤ m ∧ turn m = turn n

/-- A task with the lock that keeps those away that ask for it in the mode. -/
def Bars : Mode → Option (Guard ℕ) → Prop
  | .shared, held => ∃ guard, held = some guard ∧ guard.mode = .exclusive
  | .exclusive, held => held ≠ none

theorem not_bars_none (mode : Mode) : ¬Bars mode none := by
  cases mode <;> simp [Bars]

omit [DecidableEq ι] in
theorem grants_of_not_bars {held : ι → Option (Guard ℕ)} {mode : Mode}
    (h : ∀ task, ¬Bars mode (held task)) : Grants held mode := by
  cases mode with
  | shared =>
    intro task guard hheld
    cases hmode : guard.mode with
    | shared => rfl
    | exclusive => exact absurd ⟨guard, hheld, hmode⟩ (h task)
  | exclusive =>
    intro task
    by_contra hheld
    exact h task hheld

namespace Run
variable {turn : ℕ → ι} {line : ℕ → Line ι} (h : Run turn line)
include h

theorem apart (n : ℕ) : (line n).Apart := by
  induction n with
  | zero =>
    intro task _
    rw [h.start]
  | succ n ih => exact (h.step n).apart ih

/-- Who waits for the lock or holds it has had a turn. -/
theorem exists_turn {task : ι} : ∀ {n : ℕ},
    (line n).held task ≠ none ∨ (line n).queue.lookup task ≠ none → ∃ m, turn m = task := by
  intro n
  induction n with
  | zero =>
    intro hactive
    simp [h.start] at hactive
  | succ n ih =>
    intro hactive
    by_cases hturn : turn n = task
    · exact ⟨n, hturn⟩
    · rw [(h.step n).held_other (Ne.symm hturn), (h.step n).lookup_other (Ne.symm hturn)] at hactive
      exact ih hactive

/-- What the others leave as it is is there at the next turn of the task. -/
theorem next {task : ι} (htask : ∃ m, turn m = task) {P : Line ι → Prop}
    (hP : ∀ n, turn n ≠ task → P (line n) → P (line (n + 1))) {n : ℕ} (hn : P (line n)) :
    ∃ m, n ≤ m ∧ turn m = task ∧ P (line m) := by
  obtain ⟨m₀, rfl⟩ := htask
  obtain ⟨m, hle, hm⟩ := h.fair m₀ n
  obtain ⟨d, rfl⟩ := Nat.exists_eq_add_of_le hle
  clear hle
  induction d generalizing n with
  | zero => exact ⟨n, Nat.le_refl n, hm, hn⟩
  | succ d ih =>
    by_cases hturn : turn n = turn m₀
    · exact ⟨n, Nat.le_refl n, hturn, hn⟩
    · obtain ⟨m, hle, hpost⟩ := ih (hP n hturn hn) (by rw [← hm]; congr 1; omega)
      exact ⟨m, by omega, hpost⟩

/-- The lock is given back, at a turn of its holder. -/
theorem gives_back {task : ι} : ∀ (left : ℕ) {n : ℕ} {guard : Guard ℕ},
    (line n).held task = some guard → guard.progress = left →
    ∃ m, n ≤ m ∧ turn m = task ∧ (line m).held task ≠ none ∧ (line (m + 1)).held task = none := by
  intro left
  induction left using Nat.strong_induction_on with
  | _ left ih =>
    intro n guard hheld hleft
    have hturn : ∃ m, turn m = task := h.exists_turn (n := n) (.inl (by simp [hheld]))
    obtain ⟨m, hle, rfl, hm⟩ := h.next hturn (P := fun line => line.held task = some guard)
      (fun k hk hheld => ((h.step k).held_other (Ne.symm hk)).trans hheld) hheld
    have hlookup : (line m).queue.lookup (turn m) = none := by
      by_contra hwaits
      simp [h.apart m _ hwaits] at hm
    rcases (h.step m).holding hlookup hm with hnone | ⟨left', hlt, hm'⟩
    · exact ⟨m, hle, rfl, by simp [hm], hnone⟩
    · obtain ⟨m', hle', hback⟩ := ih left' (by omega) hm' rfl
      exact ⟨m', by omega, hback⟩

omit h in
/-- The task is the first to get the lock, once `tasks` do not keep it away. -/
structure Front (task : ι) (mode : Mode) (tasks : List ι) (line : Line ι) : Prop where
  waits : line.queue.lookup task = some mode
  first : ahead task line.queue = []
  barred : ∀ other, Bars mode (line.held other) → other ∈ tasks

omit h in
/-- While a task waits at the front, nobody gets the lock that keeps it away. -/
theorem Front.step_other {task other : ι} {mode : Mode} {tasks : List ι} {line line' : Line ι}
    (h : Front task mode tasks line) (hstep : line.Step other line') (hne : task ≠ other) :
    Front task mode tasks line' where
  waits := (hstep.lookup_other hne).trans h.waits
  first := List.sublist_nil.mp (h.first ▸ hstep.ahead_other hne h.waits)
  barred := by
    intro holder hbars
    by_cases hholder : holder = other
    · subst hholder
      cases hstep with
      | idle | ask | wait => exact h.barred holder hbars
      | @take mode' left hlookup hpasses =>
        -- only a reader passes, and it does not keep a reader away
        obtain ⟨rest, hqueue⟩ := front_eq h.waits h.first
        rw [hqueue, ahead_cons_ne hne] at hpasses
        simp only [Function.update_self] at hbars
        cases mode' with
        | exclusive => simp [passes] at hpasses
        | shared =>
          simp only [passes, List.all_cons, Bool.and_eq_true, decide_eq_true_eq] at hpasses
          rw [hpasses.1] at hbars
          simp [Bars] at hbars
      | @work guard left hheld =>
        apply h.barred
        simp only [Function.update_self] at hbars
        rw [hheld]
        cases mode with
        | shared => simpa [Bars] using hbars
        | exclusive => simp [Bars]
      | release => simp [not_bars_none] at hbars
    · rw [hstep.held_other hholder] at hbars
      exact h.barred holder hbars

/-- What the others leave as it is while the task waits is there until it gets the lock. -/
theorem keeps {task : ι} {mode : Mode} {P : Line ι → Prop}
    (hP : ∀ n, turn n ≠ task → P (line n) → P (line (n + 1)))
    (hwaits : ∀ line, P line → line.queue.lookup task = some mode) {n : ℕ} (hn : P (line n)) :
    ∀ d, P (line (n + d)) ∨ ∃ m, n ≤ m ∧ (line m).held task ≠ none := by
  intro d
  induction d with
  | zero => exact .inl hn
  | succ d ih =>
    rcases ih with hd | hgot
    · by_cases hturn : turn (n + d) = task
      · subst hturn
        have hlookup := hwaits _ hd
        have hfree := h.apart (n + d) (turn (n + d)) (by simp [hlookup])
        rcases (h.step (n + d)).waiting hfree hlookup with hheld | ⟨hsame, _⟩
        · exact .inr ⟨n + d + 1, by omega, hheld⟩
        · exact .inl (by rw [← Nat.add_assoc, hsame]; exact hd)
      · exact .inl (hP (n + d) hturn hd)
    · exact .inr hgot

/-- The front of the queue gets the lock: those who keep it away give it back, one after the
    other, and no others come. -/
theorem front_gets_lock {task : ι} {mode : Mode} : ∀ (tasks : List ι) {n : ℕ},
    Front task mode tasks (line n) → ∃ m, n ≤ m ∧ (line m).held task ≠ none := by
  intro tasks
  induction tasks with
  | nil =>
    intro n hfront
    have hturn : ∃ m, turn m = task := h.exists_turn (n := n) (.inr (by simp [hfront.waits]))
    obtain ⟨m, hle, rfl, hm⟩ := h.next hturn (P := Front task mode [])
      (fun k hk hfront => hfront.step_other (h.step k) (Ne.symm hk)) hfront
    have hfree := h.apart m (turn m) (by simp [hm.waits])
    rcases (h.step m).waiting hfree hm.waits with hheld | ⟨_, hbarred⟩
    · exact ⟨m + 1, by omega, hheld⟩
    · -- nothing keeps it away at this turn
      refine absurd ⟨?_, grants_of_not_bars (fun other hbars => ?_)⟩ hbarred
      · rw [hm.first]
        cases mode <;> rfl
      · exact absurd (hm.barred other hbars) (by simp)
  | cons holder tasks ih =>
    intro n hfront
    have hkeeps := h.keeps (fun k hk hfront => hfront.step_other (h.step k) (Ne.symm hk))
      (fun _ hfront => hfront.waits) hfront
    -- the holder has given the lock back some time
    have hback : ∃ d, (line (n + d)).held holder = none := by
      cases hheld : (line n).held holder with
      | none => exact ⟨0, hheld⟩
      | some guard =>
        obtain ⟨m, hle, _, _, hnone⟩ := h.gives_back _ hheld rfl
        obtain ⟨d, rfl⟩ := Nat.exists_eq_add_of_le hle
        exact ⟨d + 1, hnone⟩
    obtain ⟨d, hnone⟩ := hback
    rcases hkeeps d with hd | hgot
    · obtain ⟨m, hle, hheld⟩ := ih (n := n + d) ⟨hd.waits, hd.first, fun other hbars => by
        rcases List.mem_cons.mp (hd.barred other hbars) with rfl | hmem
        · rw [hnone] at hbars
          exact absurd hbars (not_bars_none mode)
        · exact hmem⟩
      exact ⟨m, by omega, hheld⟩
    · exact hgot

/-- Finitely many tasks hold the lock. -/
theorem exists_holders (n : ℕ) : ∃ tasks : List ι, ∀ task, (line n).held task ≠ none → task ∈ tasks := by
  induction n with
  | zero => exact ⟨[], fun task hheld => by simp [h.start] at hheld⟩
  | succ n ih =>
    obtain ⟨tasks, htasks⟩ := ih
    refine ⟨turn n :: tasks, fun task hheld => ?_⟩
    by_cases hturn : task = turn n
    · simp [hturn]
    · rw [(h.step n).held_other hturn] at hheld
      exact List.mem_cons_of_mem _ (htasks task hheld)

theorem first_gets_lock {task : ι} {mode : Mode} {n : ℕ}
    (hwaits : (line n).queue.lookup task = some mode) (hfirst : ahead task (line n).queue = []) :
    ∃ m, n ≤ m ∧ (line m).held task ≠ none := by
  obtain ⟨tasks, htasks⟩ := h.exists_holders n
  refine h.front_gets_lock tasks ⟨hwaits, hfirst, fun other hbars => htasks other (fun hnone => ?_)⟩
  rw [hnone] at hbars
  exact not_bars_none mode hbars

/-- A task that waits for the lock gets it. -/
theorem gets_lock {task : ι} {mode : Mode} : ∀ (before : ℕ) {n : ℕ},
    (line n).queue.lookup task = some mode → (ahead task (line n).queue).length = before →
    ∃ m, n ≤ m ∧ (line m).held task ≠ none := by
  intro before
  induction before using Nat.strong_induction_on with
  | _ before ih =>
    intro n hwaits hbefore
    cases hahead : ahead task (line n).queue with
    | nil => exact h.first_gets_lock hwaits hahead
    | cons entry rest =>
      -- the front of the queue is before the task until it has the lock
      obtain ⟨other, mode'⟩ := entry
      obtain ⟨hfront, hfirst⟩ := front_of_ahead hahead
      obtain ⟨m, hle, hheld⟩ := h.first_gets_lock hfront hfirst
      obtain ⟨d, rfl⟩ := Nat.exists_eq_add_of_le hle
      have hkeeps := h.keeps (P := fun l => l.queue.lookup task = some mode ∧
          (ahead task l.queue).Sublist (ahead task (line n).queue))
        (fun k hk hl => ⟨((h.step k).lookup_other (Ne.symm hk)).trans hl.1,
          ((h.step k).ahead_other (Ne.symm hk) hl.1).trans hl.2⟩)
        (fun _ hl => hl.1) ⟨hwaits, List.Sublist.refl _⟩ d
      rcases hkeeps with ⟨hwaits', hsub⟩ | hgot
      · have hshorter : (ahead task (line (n + d)).queue).length < before := by
          rw [← hbefore]
          apply Nat.lt_of_le_of_ne hsub.length_le
          intro hsame
          -- the other one does not wait any more
          have hmem : (other, mode') ∈ ahead task (line (n + d)).queue := by
            rw [hsub.eq_of_length hsame, hahead]
            exact List.mem_cons_self
          exact hheld (h.apart (n + d) other (lookup_of_mem_ahead hmem))
        obtain ⟨m, hle, hgot⟩ := ih _ hshorter hwaits' rfl
        exact ⟨m, by omega, hgot⟩
      · exact hgot

end Run
end RwLock
