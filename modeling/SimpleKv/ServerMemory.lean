import SimpleKv.CommandMemory
import SimpleKv.Replies

/- When there is no memory for a server. A command that a client sent has no more pairs
   than a request has elements, and a turn executes one command at most. -/
namespace SimpleKv
open Outcome Incremental Request Reader

theorem Command.WellSized.inserts_le {command : Command} (h : command.WellSized) :
    command.inserts ≤ maxArrayLength := by
  have helements := h.elements
  cases command with
  | set key value => exact Nat.le_trans (Nat.le_add_left 1 2) helements
  | mset entries =>
    have hlen : entries.length ≤ (Command.mset entries).parts.length := by
      simp only [Command.parts, List.length_cons, List.length_flatMap, List.length_nil,
        List.map_const', List.sum_replicate, smul_eq_mul]
      omega
    exact Nat.le_trans hlen helements
  | get | mget | getAll | ttl | del | expireAt => exact Nat.zero_le _

theorem ServerState.execute_crowded (self : ServerState) (command : Command) :
    YieldsAlways (Fault.Crowded (self.keyStore.len + command.inserts)) (self.execute command none)
      (fun r => r.2.keyStore.len ≤ self.keyStore.len + command.inserts) := by
  apply YieldsAlways.ite
  · intro _
    exact YieldsAlways.bind (Command.applyWrite_crowded command self.keyStore)
      (fun _ hlen => YieldsAlways.pure hlen)
  · intro _
    exact YieldsAlways.bind (Command.applyRead_crowded command)
      (fun _ _ => YieldsAlways.pure (Nat.le_add_right _ _))

namespace Connection

/-- A step adds the pairs of one request at most. -/
theorem Serves.step_crowded {source : Source} {k : ℕ} {self : Connection} (h : self.Serves source k)
    (state : ServerState) :
    YieldsAlways (Fault.Crowded (state.keyStore.len + maxArrayLength)) (self.step state)
      (fun r => r.2.keyStore.len ≤ state.keyStore.len + maxArrayLength) := by
  obtain ⟨requests, d, hd, hserving⟩ := h
  have hsame : state.keyStore.len ≤ state.keyStore.len + maxArrayLength := Nat.le_add_right _ _
  unfold step
  cases hserving with
  | @reading reader accepted rest sent h hrequests hcomputed hk =>
    cases rest with
    | nil =>
      obtain ⟨reader', hrun⟩ := h.readNext_nil
      have hread : reader.readNextAsync = _ := hrun
      simp only [ServerState.liftM_bind hread]
      cases d with
      | clean | cut | failed => exact YieldsAlways.pure hsame
    | cons request rest =>
      obtain ⟨reader', hrun, _⟩ := h.readNext_cons
      have hread : reader.readNextAsync = _ := hrun
      simp only [ServerState.liftM_bind hread]
      exact YieldsAlways.pure hsame
  | @parsing reader accepted rest request sent h hrequests hcomputed hk =>
    apply YieldsAlways.bind (ServerState.tryFrom_always request)
    intro result _
    cases result with
    | error e => exact YieldsAlways.pure hsame
    | ok command => exact YieldsAlways.pure hsame
  | @executing reader accepted rest request now command sent h hrequests hcomputed hc hk =>
    -- the request came from the decoder, so the command is within the limits
    have hlimits := ServerState.withinLimits_of_drains hd request (by simp [hrequests])
    have hle := (Command.wellSized_of_command hlimits hc).inserts_le
    refine YieldsAlways.bind ((state.execute_crowded command).weaken
      (fun _ => Fault.Crowded.mono (Nat.add_le_add_left hle _))) ?_
    intro (response, state') hlen
    exact YieldsAlways.pure (Nat.le_trans hlen (Nat.add_le_add_left hle _))
  | sending | ending | closed => exact YieldsAlways.pure hsame

end Connection

namespace System
variable {sources : List Source}

theorem Serves.turn_crowded {k : ℕ → ℕ} {self : System} (h : self.Serves sources k) (t : Turn) :
    YieldsAlways (Fault.Crowded (self.state.keyStore.len + maxArrayLength)) (self.turn t)
      (fun self' => self'.state.keyStore.len ≤ self.state.keyStore.len + maxArrayLength) := by
  cases t with
  | cleanUp =>
    exact YieldsAlways.bind (ServerState.removeExpired_crowded _ self.state)
      (fun _ hlen => YieldsAlways.pure (Nat.le_trans hlen (Nat.le_add_right _ _)))
  | serve i =>
    cases hi : self.connections[i]? with
    | none =>
      simp only [turn, hi]
      exact YieldsAlways.pure (Nat.le_add_right _ _)
    | some connection =>
      obtain ⟨source, _, hserves⟩ := h.connection hi
      simp only [turn, hi]
      exact YieldsAlways.bind (hserves.step_crowded self.state) (fun _ hlen => YieldsAlways.pure hlen)

/-- Each turn adds the pairs of one request at most. -/
theorem Serves.run_crowded {turns : List Turn} : ∀ {k : ℕ → ℕ} {self : System},
    self.Serves sources k →
    YieldsAlways (Fault.Crowded (self.state.keyStore.len + turns.length * maxArrayLength))
      (self.run turns) (fun _ => True) := by
  unfold run
  induction turns with
  | nil =>
    intro k self h
    exact YieldsAlways.pure trivial
  | cons t turns ih =>
    intro k self h clock
    rw [List.foldlM_cons, StateT.run_bind, List.length_cons, Nat.succ_mul]
    refine Yields.bind (((h.turn_crowded t clock).weaken
      (fun _ => Fault.Crowded.mono (by omega))).and (turn_serves h t clock)) ?_
    intro (self', clock') hpost
    obtain ⟨hlen, h'⟩ := hpost
    exact (ih h' clock').weaken (fun _ => Fault.Crowded.mono (by omega))

end System
end SimpleKv
