import Mathlib.Data.List.Induction
import SimpleKv.Locking

/- What the tasks do with the lock in a run, turn by turn, and the readings of the clock they
   make (`Trace`). From this follows which run of the server without the lock it is to be
   (`account`): a command or clean-up stands there at the turn that gives the lock back,
   with what its task has read since it took the lock. -/
namespace SimpleKv
open RwLock

/-- What a task does with the lock at its turn. -/
inductive Use where
  /-- It neither has the lock nor asks for it. -/
  | apart
  | waits
  | takes
  /-- It has the lock and goes on in its section. -/
  | works
  | returns
  deriving DecidableEq

/-- A turn of a run: what its task does with the lock, and the readings of the clock that are
    made. -/
structure Record where
  task : Turn
  use : Use
  readings : List UInt64

def readings (history : List Record) : List UInt64 := history.flatMap Record.readings

/-- The turns of the server without the lock so far, each with its readings, and what every
    task has read since it took the lock last. -/
structure Account where
  script : List (Turn × List UInt64)
  own : Turn → List UInt64

def Account.add (self : Account) (record : Record) : Account :=
  match record.use with
  | .apart => { self with script := self.script ++ [(record.task, record.readings)] }
  | .waits => self
  | .takes => { self with own := Function.update self.own record.task [] }
  | .works =>
    let read := self.own record.task ++ record.readings
    { self with own := Function.update self.own record.task read }
  | .returns => { self with script := self.script ++ [(record.task, self.own record.task)] }

def account (history : List Record) : Account :=
  history.foldl Account.add { script := [], own := fun _ => [] }

def script (history : List Record) : List (Turn × List UInt64) := (account history).script

theorem account_snoc (history : List Record) (record : Record) :
    account (history ++ [record]) = (account history).add record := by
  unfold account
  rw [List.foldl_append]
  rfl

theorem Account.script_prefix_add (self : Account) (record : Record) :
    self.script <+: (self.add record).script := by
  unfold Account.add
  cases record.use with
  | apart | returns => exact List.prefix_append _ _
  | waits | takes | works => exact List.prefix_refl _

/-- What is over at some time stays before what comes after. -/
theorem script_prefix (history : List Record) (after : List Record) :
    script history <+: script (history ++ after) := by
  induction after using List.reverseRecOn with
  | nil => simp
  | append_singleton after record ih =>
    unfold script at ih ⊢
    rw [← List.append_assoc, account_snoc]
    exact ih.trans (Account.script_prefix_add _ record)

theorem readings_append (history after : List Record) :
    readings (history ++ after) = readings history ++ readings after := List.flatMap_append

namespace LockedSystem

def held (self : LockedSystem) (task : Turn) : Option (Guard Section) := self.guards.lookup task

/-- What the task asks the lock for at its turn. If it has it, it asks for nothing. -/
def asks (self : LockedSystem) (task : Turn) : Option Mode :=
  match self.guards.lookup task, task with
  | some _, _ => none
  | none, .cleanUp => some .exclusive
  | none, .serve i =>
    match (self.system.connections[i]?).map Connection.phase with
    | some (.executing command) => some (modeOf command)
    | _ => none

def use (self : LockedSystem) (task : Turn) : Use :=
  match self.guards.lookup task with
  | some guard => if guard.progress.result.isSome then .returns else .works
  | none =>
    match self.asks task with
    | none => .apart
    | some mode => if self.grants mode then .takes else .waits

/-- `self` has come from `first` by the turns of the history, which have made its
    readings. -/
inductive Trace (first : LockedSystem) : List Record → LockedSystem → Prop where
  | start : Trace first [] first
  | turn {history : List Record} {self self' : LockedSystem} {task : Turn} {readings : List UInt64}
      (h : Trace first history self)
      (hturn : ∀ clock, (self.turn task).run (readings ++ₛ clock) = .ok (self', clock)) :
      Trace first (history ++ [⟨task, self.use task, readings⟩]) self'

variable {self : LockedSystem} {task : Turn}

/-- The clean-up asks for the lock, and connections that have a command to execute. -/
theorem asks_eq_some {mode : Mode} (h : self.asks task = some mode) : self.held task = none ∧
    (task = .cleanUp ∧ mode = .exclusive ∨ ∃ i connection command, task = .serve i ∧
      self.system.connections[i]? = some connection ∧ connection.phase = .executing command ∧
      mode = modeOf command) := by
  unfold asks at h
  unfold held
  cases hlookup : self.guards.lookup task with
  | some guard => simp [hlookup] at h
  | none =>
    refine ⟨rfl, ?_⟩
    cases task with
    | cleanUp =>
      simp only [hlookup] at h
      exact .inl ⟨rfl, (Option.some.inj h).symm⟩
    | serve i =>
      simp only [hlookup] at h
      cases hi : self.system.connections[i]? with
      | none => simp [hi] at h
      | some connection =>
        cases hphase : connection.phase with
        | executing command =>
          simp only [hi, Option.map_some, hphase] at h
          exact .inr ⟨i, connection, command, rfl, hi, hphase, (Option.some.inj h).symm⟩
        | reading | parsing | sending | closed => simp [hi, hphase] at h

theorem asks_eq_none (hheld : self.held task = none) (h : self.asks task = none) :
    ∃ i, task = .serve i ∧ ∀ connection command, self.system.connections[i]? = some connection →
      connection.phase ≠ .executing command := by
  unfold asks at h
  rw [show self.guards.lookup task = none from hheld] at h
  cases task with
  | cleanUp => cases h
  | serve i =>
    refine ⟨i, rfl, fun connection command hi hphase => ?_⟩
    simp [hi, hphase] at h

/-- A clean-up that does not have the lock asks for it. -/
theorem asks_cleanUp (hheld : self.held .cleanUp = none) : self.asks .cleanUp = some .exclusive := by
  unfold asks
  rw [show self.guards.lookup .cleanUp = none from hheld]

theorem asks_executing {i : ℕ} {connection : Connection} {command : Command}
    (hi : self.system.connections[i]? = some connection)
    (hphase : connection.phase = .executing command) (hheld : self.held (.serve i) = none) :
    self.asks (.serve i) = some (modeOf command) := by
  unfold asks
  rw [show self.guards.lookup (.serve i) = none from hheld]
  simp only [hi, Option.map_some, hphase]

theorem use_apart (hheld : self.held task = none) (hasks : self.asks task = none) :
    self.use task = .apart := by
  unfold use
  rw [show self.guards.lookup task = none from hheld, hasks]

end LockedSystem
end SimpleKv
