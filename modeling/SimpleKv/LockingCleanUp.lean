import SimpleKv.CommandFrame
import SimpleKv.Lib.Readings
import SimpleKv.LockingLiveness

/- The clean-up does what it is for. Once the clock shows a time for good and the clients
   have been served, the table is without the bindings that have come to their deadlines by
   then, for ever, whenever nobody has the lock (`run_sweeps`). The first clean-up that
   starts after that moment reads only such times, and what it leaves no later one
   brings back. -/
namespace SimpleKv
open RwLock Expiring Outcome Reader Readings

namespace ServerState

/-- Every binding is within its deadline at `T`. -/
def Swept (T : UInt64) (self : ServerState) : Prop :=
  ∀ key value, self.keyStore.get key = .ok (some value) → value.LiveAt T

theorem removeExpired_sweeps {self self' : ServerState} (h : Sized self.keyStore) {T : UInt64}
    {clock clock' : Clock} (hclock : Late T clock) {count : ℕ}
    (hrun : self.removeExpired.run clock = .ok ((count, self'), clock')) : Swept T self' := by
  obtain ⟨m, hm, _⟩ := h
  obtain ⟨_, _, _, hages, hself⟩ := removeExpired_ages hm clock clock.head
  rw [hages] at hrun
  cases hrun
  intro key value hget
  rw [KeyStore.get_spec hself] at hget
  obtain ⟨_, hlive⟩ := Option.filter_eq_some_iff.mp (Except.ok.inj hget)
  refine Live.of_le ?_ (of_decide_eq_true hlive)
  show T ≤ (readingFor key self.keyStore.iter clock).getD clock.head
  cases hreading : readingFor key self.keyStore.iter clock with
  | none => exact hclock 0
  | some t =>
    obtain ⟨n, rfl⟩ := readingFor_shown hreading
    exact hclock n

end ServerState

theorem Account.late_add {account : Account} {T : UInt64}
    (h : ∀ reading ∈ account.own .cleanUp, T ≤ reading) {vs : List UInt64}
    (hvs : ∀ reading ∈ vs, T ≤ reading) (use : Use) :
    ∀ reading ∈ (account.add ⟨.cleanUp, use, vs⟩).own .cleanUp, T ≤ reading := by
  unfold Account.add
  cases use with
  | apart | waits | returns => exact h
  | takes => simp
  | works =>
    intro reading hmem
    simp only [Function.update_self, List.mem_append] at hmem
    rcases hmem with hmem | hmem
    · exact h reading hmem
    · exact hvs reading hmem

namespace LockedSystem
variable {self self' : LockedSystem} {T : UInt64} {clock clock' : Clock}

/-- All clients have been served, and what the clean-up has read under the lock is late. -/
structure Quiet (T : UInt64) (locked : LockedSystem) : Prop where
  closed : ∀ connection ∈ locked.system.connections, connection.phase = .closed
  served : ∀ i, locked.held (.serve i) = none
  late : ∃ account : Account, ∃ s₀,
    Atomic sections locked.begun locked.held account.own s₀ locked.system.state ∧
      Sized s₀.keyStore ∧ ∀ reading ∈ account.own .cleanUp, T ≤ reading

/-- A connection that is closed does nothing any more. -/
theorem turn_closed (hclosed : ∀ connection ∈ self.system.connections, connection.phase = .closed)
    {i : ℕ} (hrun : (self.turn (.serve i)).run clock = .ok (self', clock')) : self' = self := by
  cases hi : self.system.connections[i]? with
  | none =>
    simp only [LockedSystem.turn, hi] at hrun
    cases hrun
    rfl
  | some connection =>
    have hphase := hclosed connection (List.mem_of_getElem? hi)
    simp only [LockedSystem.turn, hi, hphase, Connection.step] at hrun
    cases hrun
    obtain ⟨hlt, rfl⟩ := List.getElem?_eq_some_iff.mp hi
    unfold setConnection
    rw [List.set_getElem_self hlt]

/-- Asking for the lock changes nothing else. -/
theorem lockTurn_free {task : Turn} (hheld : self.held task = none) {mode : Mode} {first : Section}
    {result : Option (Response ⊕ Nat)}
    (hrun : (self.lockTurn task mode first).run clock = .ok ((result, self'), clock')) :
    self'.system = self.system := by
  have hlookup : self.guards.lookup task = none := hheld
  unfold lockTurn at hrun
  simp only [hlookup] at hrun
  split at hrun
  · cases hrun
    rfl
  · cases hrun
    rfl

/-- A turn of the clean-up after which it does not have the lock has removed what is past its
    deadline, or done nothing. -/
theorem Quiet.turn_cleanUp (h : Quiet T self) (hclock : Late T clock)
    (hrun : (self.turn .cleanUp).run clock = .ok (self', clock')) :
    Quiet T self' ∧ (self'.held .cleanUp = none → self'.system.state.Swept T ∨
      self.held .cleanUp = none ∧ self'.system.state = self.system.state) := by
  obtain ⟨account, s₀, hatomic, hsized, hown⟩ := h.late
  obtain ⟨⟨⟨result, next⟩, _⟩, hlock, hrun⟩ := bind_eq_ok.mp hrun
  cases hrun
  obtain ⟨vs, rfl, _, hsame, hother, hdone, hpost⟩ :=
    (lockTurn_atomic hatomic .cleanUp .exclusive asks_cleanUp (fun hm => by cases hm) clock).of_ok hlock
  have hlate := Account.late_add hown (late_append.mp hclock).1 (self.use .cleanUp)
  have hclosed : ∀ connection ∈ self'.system.connections, connection.phase = .closed := by
    rw [hsame]
    exact h.closed
  have hserved : ∀ i, self'.held (.serve i) = none := by
    intro i
    rw [hother (.serve i) (by simp)]
    exact h.served i
  cases result with
  | none =>
    refine ⟨⟨hclosed, hserved, _, s₀, ?_, hsized, hlate⟩, fun hfree => .inr ?_⟩
    · rw [begun_congr hsame]
      exact hdone
    · cases hheld : self.held .cleanUp with
      | none => exact ⟨rfl, by rw [lockTurn_free hheld hlock]⟩
      | some guard =>
        obtain ⟨_, ⟨hsome, _⟩ | ⟨_, progress, hgoes, _⟩⟩ := lockTurn_held hheld hlock
        · exact absurd rfl hsome
        · rw [hgoes, Function.update_self] at hfree
          cases hfree
  | some result =>
    obtain ⟨_, _, hsection⟩ := hpost
    have hrest := hsection (Stream'.const T)
    rw [show self.begun .cleanUp = .collect 0 [] from rfl, Section.rest_collect,
      StateT.run_bind] at hrest
    obtain ⟨⟨⟨count, state'⟩, _⟩, hremove, hrest⟩ := bind_eq_ok.mp hrest
    cases hrest
    refine ⟨⟨hclosed, hserved, _, self'.system.state, ?_, ?_, hlate⟩, fun _ => .inl ?_⟩
    · rw [begun_congr hsame]
      exact hdone
    · exact (ServerState.removeExpired_safe hsized).of_ok hremove
    · exact ServerState.removeExpired_sweeps hsized
        (late_append.mpr ⟨hown, fun _ => le_refl T⟩) hremove

end LockedSystem

namespace QueuedSystem
variable {self self' : QueuedSystem} {T : UInt64} {clock clock' : Clock}

theorem turn_quiet (h : self.locked.Quiet T) (hclock : Late T clock) {task : Turn}
    (hrun : (self.turn task).run clock = .ok (self', clock')) :
    self'.locked.Quiet T ∧ (self'.locked.held .cleanUp = none →
      self'.locked.system.state.Swept T ∨
        self.locked.held .cleanUp = none ∧ self'.locked.system.state = self.locked.system.state) := by
  have hsame : self'.locked = self.locked → self'.locked.Quiet T ∧
      (self'.locked.held .cleanUp = none → self'.locked.system.state.Swept T ∨
        self.locked.held .cleanUp = none ∧
          self'.locked.system.state = self.locked.system.state) := by
    intro heq
    rw [heq]
    exact ⟨h, fun hfree => .inr ⟨hfree, rfl⟩⟩
  rcases turn_locked self task clock with ⟨next, hnext, hlocked⟩ | hlocked
  · cases hnext.symm.trans hrun
    exact hsame hlocked
  · rw [hrun] at hlocked
    cases task with
    | serve i => exact hsame (LockedSystem.turn_closed h.closed hlocked)
    | cleanUp => exact h.turn_cleanUp hclock hlocked

/-- A clean-up that takes a turn has the lock or waits for it then. -/
theorem turn_active (hrun : (self.turn .cleanUp).run clock = .ok (self', clock')) :
    self.line.held .cleanUp ≠ none ∨ self'.line.held .cleanUp ≠ none ∨
      self'.queue.lookup .cleanUp ≠ none := by
  unfold turn at hrun
  cases hasks : self.locked.asks .cleanUp with
  | none =>
    refine .inl (fun hfree => ?_)
    obtain ⟨i, hi, _⟩ :=
      LockedSystem.asks_eq_none (LockedSystem.holders_eq_none.mp hfree) hasks
    cases hi
  | some mode =>
    simp only [hasks] at hrun
    refine .inr ?_
    cases hlookup : self.queue.lookup .cleanUp with
    | none =>
      simp only [hlookup, Option.isNone_none, if_true] at hrun
      cases hrun
      exact .inr (by simp [List.lookup_append, hlookup])
    | some mode' =>
      simp only [hlookup, Option.isNone_some] at hrun
      by_cases hnext : (passes mode (ahead .cleanUp self.queue) && self.locked.grants mode) = true
      · rw [if_neg Bool.false_ne_true, if_pos hnext] at hrun
        obtain ⟨⟨locked, _⟩, hlocked, hrun⟩ := bind_eq_ok.mp hrun
        cases hrun
        rw [Bool.and_eq_true] at hnext
        obtain ⟨_, progress, hheld⟩ := LockedSystem.turn_asking hasks hnext.2 hlocked
        refine .inl (fun hfree => ?_)
        have hfree := LockedSystem.holders_eq_none.mp hfree
        rw [hheld, Function.update_self] at hfree
        cases hfree
      · rw [if_neg Bool.false_ne_true, if_neg hnext] at hrun
        cases hrun
        exact .inr (by simp [hlookup])

section Start
variable {state : ServerState} {sources : List Source} {schedule : ℕ → Turn}
  {self : ℕ → QueuedSystem × Clock}

/-- The clean-up gives the lock back again and again. -/
theorem Forever.cleans (h : Forever schedule (fun n => (self n).1))
    (hself : ∀ n, ((self n).1.turn (schedule n)).run (self n).2 = .ok (self (n + 1)))
    (hcleans : ∃ n, schedule n = .cleanUp) (n : ℕ) : ∃ m, n ≤ m ∧ schedule m = .cleanUp ∧
      (self m).1.locked.held .cleanUp ≠ none ∧ (self (m + 1)).1.locked.held .cleanUp = none := by
  obtain ⟨m₀, hm₀⟩ := hcleans
  obtain ⟨m, hle, hm⟩ := h.line.fair m₀ n
  rw [hm₀] at hm
  have hgets : ∃ m, n ≤ m ∧ (self m).1.line.held .cleanUp ≠ none := by
    have hturn := hself m
    rw [hm] at hturn
    rcases turn_active hturn with hheld | hheld | hwaits
    · exact ⟨m, hle, hheld⟩
    · exact ⟨m + 1, by omega, hheld⟩
    · obtain ⟨mode, hmode⟩ := Option.ne_none_iff_exists'.mp hwaits
      obtain ⟨m', hle', hheld⟩ := h.line.gets_lock _ (n := m + 1) hmode rfl
      exact ⟨m', by omega, hheld⟩
  obtain ⟨m', hle', hheld⟩ := hgets
  obtain ⟨guard, hguard⟩ := Option.ne_none_iff_exists'.mp hheld
  obtain ⟨k, hk, hturn, hhas, hnone⟩ := h.line.gives_back _ (n := m') hguard rfl
  exact ⟨k, by omega, hturn, fun hfree => hhas (LockedSystem.holders_eq_none.mpr hfree),
    LockedSystem.holders_eq_none.mp hnone⟩

/-- What the clock still shows, it has shown before. -/
theorem turn_late (hsafe : LockedSystem.Safe state sources) {history : List Record}
    {abstract : System} {first next : QueuedSystem}
    (h : LockedSystem.Simulates state sources history abstract first.locked)
    (hclock : Late T clock) {task : Turn}
    (hrun : (first.turn task).run clock = .ok (next, clock')) : Late T clock' := by
  rcases turn_locked first task clock with ⟨next', hnext, _⟩ | hlocked
  · cases hnext.symm.trans hrun
    exact hclock
  · rw [hrun] at hlocked
    obtain ⟨vs, _, rfl, _⟩ := (LockedSystem.turn_simulates hsafe h task clock).of_ok hlocked
    exact (late_append.mp hclock).2

/-- When all clients have been served and nobody has the lock. -/
theorem quiet_of_free (hstate : state.Started)
    (hne : ∀ source ∈ sources, ∀ chunk ∈ source, chunk ≠ []) {history : List Record}
    {abstract : System} {locked : LockedSystem}
    (h : LockedSystem.Simulates state sources history abstract locked)
    (hclosed : ∀ connection ∈ locked.system.connections, connection.phase = .closed)
    (hfree : locked.held .cleanUp = none) (T : UInt64) : locked.Quiet T := by
  have hserved : ∀ i, locked.held (.serve i) = none := by
    intro i
    cases hheld : locked.held (.serve i) with
    | none => rfl
    | some guard =>
      obtain ⟨connection, command, hi, hphase⟩ := h.executing i guard hheld
      rw [hclosed connection (List.mem_of_getElem? hi)] at hphase
      cases hphase
  have hheld : locked.held = fun _ => none := by
    funext task
    cases task with
    | serve i => exact hserved i
    | cleanUp => exact hfree
  have hserves := (System.run_serves (System.start_serves hstate.sized hne) _).of_ok
    (h.run (Stream'.const 0))
  have hsame := h.atomic.settled (fun task guard hguard => by rw [hheld] at hguard; cases hguard)
  refine ⟨hclosed, hserved, ⟨[], fun _ => []⟩, locked.system.state, ?_, ?_, by simp⟩
  · rw [hheld]
    exact .free _ _ _
  · rw [hsame]
    exact hserves.sized

/-- Once the clock shows `T` for good, and when all clients have been served, the table is
    without the bindings that have come to their deadlines by `T` from some turn on, as
    often as nobody has the lock. -/
theorem run_sweeps (hstate : state.Started)
    (hne : ∀ source ∈ sources, ∀ chunk ∈ source, chunk ≠ [])
    (hfair : ∀ n k, ∃ m, k ≤ m ∧ schedule m = schedule n)
    (hturns : ∀ i < sources.length, ∃ n, schedule n = .serve i)
    (hcleans : ∃ n, schedule n = .cleanUp) (clock : Clock) (T : UInt64) (first : ℕ) :
    Completes (((start state sources).run ((List.range first).map schedule)).run clock)
      (fun (_, clock') => Late T clock' → ∃ n, ∀ m, n ≤ m →
        Completes (((start state sources).run ((List.range m).map schedule)).run clock)
          (fun (self, _) => (∀ task, self.locked.held task = none) →
            ∀ key value, self.locked.system.state.keyStore.get key = .ok (some value) →
              value.LiveAt T)) := by
  have hsafe := LockedSystem.started_safe hstate hne
  cases hfirst : ((start state sources).run ((List.range first).map schedule)).run clock with
  | error f => exact (run_simulates hsafe _ clock).of_error hfirst
  | ok r =>
    intro hlate
    refine Filter.eventually_atTop.mp (eventually_completes hstate hne (fun self hself => ?_))
    have hturn := turn_of_ok hself
    have hforever := forever_of_ok hsafe hself hfair
    have hsim : ∀ n, ∃ history abstract,
        LockedSystem.Simulates state sources history abstract (self n).1.locked := by
      intro n
      obtain ⟨history, abstract, _, h⟩ := (run_simulates hsafe _ clock).of_ok (hself n)
      exact ⟨history, abstract, h⟩
    have hclocks : ∀ n, first ≤ n → Late T (self n).2 := by
      intro n hn
      induction n, hn using Nat.le_induction with
      | base =>
        cases hfirst.symm.trans (hself first)
        exact hlate
      | succ n _ ih =>
        obtain ⟨_, _, h⟩ := hsim n
        exact turn_late hsafe h ih (hturn n)
    obtain ⟨n, hn⟩ := Filter.eventually_atTop.mp
      (run_closes_all hstate hne hfair hturns clock)
    -- from the first time on that the lock is given back after that, all is quiet
    obtain ⟨m, hm, _, _, hfree⟩ := hforever.cleans hturn hcleans (max n first)
    have hquiet : ∀ k, m + 1 ≤ k → (self k).1.locked.Quiet T := by
      intro k hk
      induction k, hk using Nat.le_induction with
      | base =>
        obtain ⟨_, _, h⟩ := hsim (m + 1)
        exact quiet_of_free hstate hne h ((hn (m + 1) (by omega)).of_ok (hself (m + 1))) hfree T
      | succ k hk ih => exact (turn_quiet ih (hclocks k (by omega)) (hturn k)).1
    -- and from the second time on, the table is swept
    obtain ⟨m', hm', _, hheld, hfree'⟩ := hforever.cleans hturn hcleans (m + 1)
    have hswept : ∀ k, m' + 1 ≤ k → (self k).1.locked.held .cleanUp = none →
        (self k).1.locked.system.state.Swept T := by
      intro k hk
      induction k, hk using Nat.le_induction with
      | base =>
        intro hfree
        rcases (turn_quiet (hquiet m' hm') (hclocks m' (by omega)) (hturn m')).2 hfree with
          hswept | ⟨hnone, _⟩
        · exact hswept
        · exact absurd hnone hheld
      | succ k hk ih =>
        intro hfree
        rcases (turn_quiet (hquiet k (by omega)) (hclocks k (by omega)) (hturn k)).2 hfree with
          hswept | ⟨hnone, hsame⟩
        · exact hswept
        · rw [hsame]
          exact ih hnone
    exact ⟨m' + 1, fun k hk hnobody => hswept k hk (hnobody .cleanUp)⟩

end Start

/-- A client sets a key with a deadline in the past, and the clean-up comes around. -/
theorem run_sweeps_past : ∃ n, ∀ m, n ≤ m →
    Completes (((start ⟨{}, .withHasher (fun _ => 0)⟩
        [[asBytes "*3\r\n$3\r\nSET\r\n$1\r\na\r\n$1\r\nb\r\n",
          asBytes "*3\r\n$8\r\nEXPIREAT\r\n$1\r\na\r\n$1\r\n5\r\n"]]).run
        ((List.range m).map (fun n => if n % 2 = 0 then .serve 0 else .cleanUp))).run
        (Stream'.const 7))
      (fun (self, _) => (∀ task, self.locked.held task = none) →
        ∀ key value, self.locked.system.state.keyStore.get key = .ok (some value) →
          value.LiveAt 7) := by
  have hsweeps := @run_sweeps ⟨{}, .withHasher (fun _ => 0)⟩
    [[asBytes "*3\r\n$3\r\nSET\r\n$1\r\na\r\n$1\r\nb\r\n",
      asBytes "*3\r\n$8\r\nEXPIREAT\r\n$1\r\na\r\n$1\r\n5\r\n"]]
    (fun n => if n % 2 = 0 then .serve 0 else .cleanUp)
    ⟨{}, fun _ => 0, Stream'.const 0, Stream'.const 0, rfl⟩ (by decide)
    (fun n k => ⟨n + 2 * k, by omega, by simp [Nat.add_mul_mod_self_left]⟩)
    (fun i hi => ⟨0, by obtain rfl : i = 0 := Nat.lt_one_iff.mp hi; rfl⟩) ⟨1, rfl⟩
    (Stream'.const 7) 7 0
  exact hsweeps (fun n => le_refl 7)

end QueuedSystem
end SimpleKv
