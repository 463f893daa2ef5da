import SimpleKv.CommandErrors
import SimpleKv.Connection
import SimpleKv.ResponseReading
import SimpleKv.RestoreTotal

/- What the clients of the server receive. Whatever the turns of the others are, a
   connection that gets enough of them reads the requests of its stream one by one and
   writes one response for each, in order, and an error at the end if the stream does
   not end between two requests (`run_serves`). The responses are read back from the
   bytes exactly when no request breaks the stream. -/
namespace SimpleKv
open Incremental Outcome Request Reader

/-- What the server may answer to a request: the text of the error, or the response of
    the command, executed by a server whose store is within the limits. -/
inductive Computed (request : Request) : Response → Prop where
  | rejected {now : UInt64} {e : CommandError} : request.command now = .error e →
      Computed request (.error e.toString)
  | executed {now : UInt64} {command : Command} {state state' : ServerState}
      {response : Response} {clock clock' : Clock} : request.command now = .ok command →
      Sized state.keyStore →
      (state.execute command none).run clock = .ok ((response, state'), clock') →
      Computed request response

theorem ServerState.execute_safe {state : ServerState} (h : Sized state.keyStore)
    {command : Command} (hsized : command.WellSized) :
    CompletesAlways (state.execute command none) (fun (response, state') =>
      response.Wire ∧ Sized state'.keyStore) := by
  unfold execute
  apply YieldsAlways.ite
  · intro hwrite
    exact YieldsAlways.bind (Command.applyWrite_safe h hsized hwrite)
      (fun _ hr => YieldsAlways.pure hr)
  · intro hread
    exact YieldsAlways.bind (Command.applyRead_safe h hsized (Bool.eq_false_iff.mpr hread))
      (fun _ hr => YieldsAlways.pure ⟨hr, h⟩)

namespace Computed
variable {request : Request} {response : Response}

theorem wire_or_rejected (h : Computed request response) (hlimits : request.WithinLimits) :
    (response.Wire ∧ ¬request.Breaks) ∨
      ∃ now e, request.command now = .error e ∧ response = .error e.toString := by
  cases h with
  | @rejected now e he => exact .inr ⟨now, e, he, rfl⟩
  | @executed now command state state' response clock clock' hc hsized hrun =>
    have hsafe := ServerState.execute_safe hsized (Command.wellSized_of_command hlimits hc) clock
    exact .inl ⟨(Yields.of_ok hsafe hrun).1, not_breaks_of_ok hc⟩

/-- A response is read back unless its request breaks the stream. -/
theorem wire_iff (h : Computed request response) (hlimits : request.WithinLimits) :
    response.Wire ↔ ¬request.Breaks := by
  rcases h.wire_or_rejected hlimits with ⟨hwire, hbreaks⟩ | ⟨now, e, he, rfl⟩
  · exact iff_of_true hwire hbreaks
  · exact wire_iff_of_error he

theorem wire_or_error (h : Computed request response) (hlimits : request.WithinLimits) :
    response.Wire ∨ ∃ msg, response = .error msg := by
  rcases h.wire_or_rejected hlimits with ⟨hwire, _⟩ | ⟨now, e, _, rfl⟩
  · exact .inl hwire
  · exact .inr ⟨_, rfl⟩

end Computed

/-! One connection. -/

/-- The response to the error a stream of requests ends with. -/
def farewell (ending : Option RequestParseError) : List Response :=
  match ending with
  | none => []
  | some e => [.error e.toString]

namespace Connection

/-- The connection has the stream of `requests` ending in `d`, and closes within `k` of its
    steps. `rest` is what it has not read yet. -/
inductive Serving (requests : List Request) (d : End RequestParseError) (k : ℕ) :
    Connection → Prop where
  | reading {reader : RequestReader} {accepted rest : List Request} {sent : List Response} :
      reader.Upcoming rest d → requests = accepted ++ rest →
      List.Forall₂ Computed accepted sent → 4 * rest.length + 2 ≤ k →
      Serving requests d k ⟨reader, sent.flatMap Response.toBytes, .reading, accepted, sent⟩
  | parsing {reader : RequestReader} {accepted rest : List Request} {request : Request}
      {sent : List Response} : reader.Upcoming rest d →
      requests = accepted ++ [request] ++ rest → List.Forall₂ Computed accepted sent →
      4 * rest.length + 5 ≤ k →
      Serving requests d k
        ⟨reader, sent.flatMap Response.toBytes, .parsing request, accepted ++ [request], sent⟩
  | executing {reader : RequestReader} {accepted rest : List Request} {request : Request}
      {now : UInt64} {command : Command} {sent : List Response} : reader.Upcoming rest d →
      requests = accepted ++ [request] ++ rest → List.Forall₂ Computed accepted sent →
      request.command now = .ok command → 4 * rest.length + 4 ≤ k →
      Serving requests d k
        ⟨reader, sent.flatMap Response.toBytes, .executing command, accepted ++ [request], sent⟩
  | sending {reader : RequestReader} {accepted rest : List Request} {response : Response}
      {sent : List Response} : reader.Upcoming rest d → requests = accepted ++ rest →
      List.Forall₂ Computed accepted (sent ++ [response]) → 4 * rest.length + 3 ≤ k →
      Serving requests d k
        ⟨reader, sent.flatMap Response.toBytes, .sending response false, accepted, sent⟩
  | ending {reader : RequestReader} {response : Response} {sent : List Response} :
      List.Forall₂ Computed requests sent → farewell (errorOf .unexpectedEof d) = [response] → 1 ≤ k →
      Serving requests d k
        ⟨reader, sent.flatMap Response.toBytes, .sending response true, requests, sent⟩
  | closed {reader : RequestReader} {answers sent : List Response} :
      List.Forall₂ Computed requests answers → sent = answers ++ farewell (errorOf .unexpectedEof d) →
      Serving requests d k ⟨reader, sent.flatMap Response.toBytes, .closed, requests, sent⟩

variable {requests : List Request} {d : End RequestParseError}

/-- What is written is the responses sent. -/
theorem flatMap_sent (sent : List Response) (response : Response) :
    sent.flatMap Response.toBytes ++ response.toBytes =
      (sent ++ [response]).flatMap Response.toBytes := by
  rw [List.flatMap_append, List.flatMap_singleton]

/-- Each step brings a connection closer to its end. -/
theorem step_serving (hlimits : ∀ request ∈ requests, request.WithinLimits) {k : ℕ}
    {self : Connection} (h : Serving requests d k self) {state : ServerState}
    (hstate : Sized state.keyStore) :
    CompletesAlways (self.step state) (fun (self', state') =>
      Serving requests d (k - 1) self' ∧ Sized state'.keyStore) := by
  unfold step
  cases h with
  | @reading reader accepted rest sent h hrequests hcomputed hk =>
    cases rest with
    | nil =>
      rw [List.append_nil] at hrequests
      subst hrequests
      -- the stream is over: nothing is left to say after a clean end, and an error otherwise
      obtain ⟨reader', hrun⟩ := h.readNext_nil
      have hread : reader.readNextAsync = _ := hrun
      simp only [ServerState.liftM_bind hread]
      rw [List.length_nil] at hk
      cases d with
      | clean => exact YieldsAlways.pure ⟨.closed hcomputed (List.append_nil _).symm, hstate⟩
      | cut => exact YieldsAlways.pure ⟨.ending hcomputed rfl (by omega), hstate⟩
      | failed e => exact YieldsAlways.pure ⟨.ending hcomputed rfl (by omega), hstate⟩
    | cons request rest =>
      obtain ⟨reader', hrun, hrest, _⟩ := h.readNext_cons
      have hread : reader.readNextAsync = _ := hrun
      simp only [ServerState.liftM_bind hread]
      apply YieldsAlways.pure
      refine ⟨.parsing hrest ?_ hcomputed ?_, hstate⟩
      · rw [hrequests, List.append_assoc, List.singleton_append]
      · rw [List.length_cons] at hk
        omega
  | @parsing reader accepted rest request sent h hrequests hcomputed hk =>
    apply YieldsAlways.bind (ServerState.tryFrom_always request)
    intro result hresult
    obtain ⟨now, rfl⟩ := hresult
    cases hc : request.command now with
    | error e =>
      apply YieldsAlways.pure
      refine ⟨.sending h hrequests ?_ (by omega), hstate⟩
      exact List.rel_append hcomputed (.cons (.rejected hc) .nil)
    | ok command =>
      apply YieldsAlways.pure
      exact ⟨.executing h hrequests hcomputed hc (by omega), hstate⟩
  | @executing reader accepted rest request now command sent h hrequests hcomputed hc hk =>
    -- the request came from the decoder, so the command is within the limits
    have hmem : request ∈ requests := by simp [hrequests]
    have hsized := Command.wellSized_of_command (hlimits request hmem) hc
    apply YieldsAlways.bind (ServerState.execute_safe hstate hsized).ran
    intro (response, state') hr
    obtain ⟨⟨_, hstate'⟩, clock, clock', hrun⟩ := hr
    apply YieldsAlways.pure
    refine ⟨.sending h hrequests ?_ (by omega), hstate'⟩
    exact List.rel_append hcomputed (.cons (.executed hc hstate hrun) .nil)
  | @sending reader accepted rest response sent h hrequests hcomputed hk =>
    apply YieldsAlways.pure
    simp only [sendResponse, flatMap_sent]
    exact ⟨.reading h hrequests hcomputed (by omega), hstate⟩
  | @ending reader response sent hcomputed hlast hk =>
    apply YieldsAlways.pure
    simp only [sendResponse, flatMap_sent]
    exact ⟨.closed hcomputed (by rw [hlast]), hstate⟩
  | closed hcomputed hsent => exact YieldsAlways.pure ⟨.closed hcomputed hsent, hstate⟩

/-- The connection serves the stream of `source`. -/
def Serves (source : Source) (k : ℕ) (self : Connection) : Prop :=
  ∃ requests d, Drains frame source.flatten requests d ∧ Serving requests d k self

theorem step_serves {source : Source} {k : ℕ} {self : Connection} (h : self.Serves source k)
    {state : ServerState} (hstate : Sized state.keyStore) :
    CompletesAlways (self.step state) (fun (self', state') =>
      self'.Serves source (k - 1) ∧ Sized state'.keyStore) := by
  obtain ⟨requests, d, hd, hserving⟩ := h
  apply YieldsAlways.mono (step_serving (ServerState.withinLimits_of_drains hd) hserving hstate)
  intro (self', state') hr
  exact ⟨⟨requests, d, hd, hr.1⟩, hr.2⟩

/-- Four steps for each request of the stream, and two for its end. -/
def stepsFor (source : Source) : ℕ :=
  match readAll RequestReader.readNext (RequestReader.new source) with
  | .ok (requests, _) => 4 * requests.length + 2
  | .error _ => 0

theorem stepsFor_eq {source : Source} {requests : List Request} {ending : Option RequestParseError}
    (hrequests : readAll RequestReader.readNext (RequestReader.new source) = .ok (requests, ending)) :
    stepsFor source = 4 * requests.length + 2 := by
  unfold stepsFor
  rw [hrequests]

theorem serves_new {source : Source} (hne : ∀ chunk ∈ source, chunk ≠ []) :
    (new source).Serves source (stepsFor source) := by
  obtain ⟨requests, d, hd⟩ := RequestReader.exists_drains source.flatten
  refine ⟨requests, d, hd, .reading (.new hne hd) rfl .nil ?_⟩
  rw [stepsFor_eq (RequestReader.readAll_spec hne hd)]

/-- A connection with no step left has answered the whole stream. -/
theorem Serves.answered {source : Source} {self : Connection} (h : self.Serves source 0)
    (hne : ∀ chunk ∈ source, chunk ≠ []) {requests : List Request}
    {ending : Option RequestParseError}
    (hrequests : readAll RequestReader.readNext (RequestReader.new source) = .ok (requests, ending)) :
    self.phase = .closed ∧ self.accepted = requests ∧
      self.outbound = self.sent.flatMap Response.toBytes ∧
      ∃ answers, List.Forall₂ Computed requests answers ∧ self.sent = answers ++ farewell ending := by
  obtain ⟨requests', d, hd, hserving⟩ := h
  rw [RequestReader.readAll_spec hne hd] at hrequests
  cases hrequests
  cases hserving with
  | @closed reader answers sent hcomputed hsent => exact ⟨rfl, rfl, rfl, answers, hcomputed, hsent⟩
  | reading h hrequests hcomputed hk => omega
  | parsing h hrequests hcomputed hk => omega
  | executing h hrequests hcomputed hc hk => omega
  | sending h hrequests hcomputed hk => omega
  | ending hcomputed hlast hk => omega

end Connection

/-! The system. -/

namespace System
open Connection

/-- Connection `i` serves the stream of its client, and closes within `k i` of its turns. -/
structure Serves (sources : List Source) (k : ℕ → ℕ) (system : System) : Prop where
  sized : Sized system.state.keyStore
  count : system.connections.length = sources.length
  connection : ∀ {i : ℕ} {connection : Connection}, system.connections[i]? = some connection →
    ∃ source, sources[i]? = some source ∧ connection.Serves source (k i)

variable {sources : List Source}

/-- Every client has its connection. -/
theorem Serves.exists_connection {k : ℕ → ℕ} {system : System} (h : system.Serves sources k) {i : ℕ}
    {source : Source} (hsource : sources[i]? = some source) :
    ∃ connection, system.connections[i]? = some connection ∧ connection.Serves source (k i) := by
  have hi : i < system.connections.length := by
    rw [h.count]
    exact (List.getElem?_eq_some_iff.mp hsource).1
  have hconnection := List.getElem?_eq_getElem hi
  obtain ⟨source', hsource', hserves⟩ := h.connection hconnection
  rw [hsource] at hsource'
  cases hsource'
  exact ⟨_, hconnection, hserves⟩

theorem start_serves {state : ServerState} (hstate : Sized state.keyStore)
    (hne : ∀ source ∈ sources, ∀ chunk ∈ source, chunk ≠ []) :
    (start state sources).Serves sources
      (fun i => (sources[i]?.map Connection.stepsFor).getD 0) where
  sized := hstate
  count := List.length_map _
  connection := by
    intro i connection hi
    obtain ⟨source, hsource, rfl⟩ := Option.map_eq_some_iff.mp (List.getElem?_map ▸ hi)
    refine ⟨source, hsource, ?_⟩
    simp only [hsource, Option.map_some, Option.getD_some]
    exact serves_new (hne source (List.mem_of_getElem? hsource))

theorem turn_serves {k : ℕ → ℕ} {self : System} (h : self.Serves sources k) (t : Turn) :
    CompletesAlways (self.turn t) (fun self' =>
      self'.Serves sources (fun i => k i - if t = .serve i then 1 else 0)) := by
  cases t with
  | cleanUp =>
    simp only [turn]
    apply YieldsAlways.bind (ServerState.removeExpired_safe h.sized)
    intro (_, state) hr
    apply YieldsAlways.pure
    exact ⟨hr, h.count, h.connection⟩
  | serve i =>
    cases hi : self.connections[i]? with
    | none =>
      simp only [turn, hi]
      refine YieldsAlways.pure ⟨h.sized, h.count, ?_⟩
      intro j connection hj
      have hne : i ≠ j := by
        intro heq
        rw [heq, hj] at hi
        cases hi
      simp only [Turn.serve.injEq, hne, if_false, Nat.sub_zero]
      exact h.connection hj
    | some connection =>
      obtain ⟨source, hsource, hserves⟩ := h.connection hi
      simp only [turn, hi]
      apply YieldsAlways.bind (step_serves hserves h.sized)
      intro (connection', state) hr
      refine YieldsAlways.pure ⟨hr.2, ?_, ?_⟩
      · rw [List.length_set]
        exact h.count
      · intro j connection'' hj
        -- the turn changes the connection it is for, and no other
        by_cases heq : i = j
        · subst heq
          rw [List.getElem?_set_self (List.getElem?_eq_some_iff.mp hi).1] at hj
          cases hj
          simp only [if_true]
          exact ⟨source, hsource, hr.1⟩
        · rw [List.getElem?_set_ne heq] at hj
          simp only [Turn.serve.injEq, heq, if_false, Nat.sub_zero]
          exact h.connection hj

theorem run_serves {turns : List Turn} : ∀ {k : ℕ → ℕ} {self : System}, self.Serves sources k →
    CompletesAlways (self.run turns) (fun self' =>
      self'.Serves sources (fun i => k i - turns.count (.serve i))) := by
  unfold run
  induction turns with
  | nil =>
    intro k self h
    exact YieldsAlways.pure h
  | cons t turns ih =>
    intro k self h
    rw [List.foldlM_cons]
    apply YieldsAlways.bind (turn_serves h t)
    intro self' h'
    apply YieldsAlways.mono (ih h')
    intro self'' h''
    have hk : ∀ i, k i - (if t = .serve i then 1 else 0) - turns.count (.serve i) =
        k i - (t :: turns).count (.serve i) := by
      intro i
      rw [List.count_cons, Nat.sub_sub, Nat.add_comm]
      simp
    simp only [hk] at h''
    exact h''

/-- Given enough turns, a connection answers every request of its client's stream, in
    order, whatever the other clients send and do. -/
theorem run_answers {state : ServerState} (hstate : Sized state.keyStore)
    (hne : ∀ source ∈ sources, ∀ chunk ∈ source, chunk ≠ []) {i : ℕ} {source : Source}
    (hsource : sources[i]? = some source) {requests : List Request}
    {ending : Option RequestParseError}
    (hrequests : readAll RequestReader.readNext (RequestReader.new source) = .ok (requests, ending))
    {turns : List Turn} (hturns : 4 * requests.length + 2 ≤ turns.count (.serve i)) :
    CompletesAlways ((start state sources).run turns) (fun system =>
      ∃ connection, system.connections[i]? = some connection ∧ connection.phase = .closed ∧
        connection.accepted = requests ∧
        connection.outbound = connection.sent.flatMap Response.toBytes ∧
        ∃ answers, List.Forall₂ Computed requests answers ∧
          connection.sent = answers ++ farewell ending) := by
  apply YieldsAlways.mono (run_serves (start_serves hstate hne))
  intro system h
  obtain ⟨connection, hconnection, hserves⟩ := h.exists_connection hsource
  simp only [hsource, Option.map_some, Option.getD_some, stepsFor_eq hrequests,
    Nat.sub_eq_zero_of_le hturns] at hserves
  exact ⟨connection, hconnection,
    hserves.answered (hne source (List.mem_of_getElem? hsource)) hrequests⟩

end System

/-! Reading the responses back. -/

theorem farewell_wire (ending : Option RequestParseError) :
    ∀ response ∈ farewell ending, response.Wire := by
  cases ending with
  | none => simp [farewell]
  | some e =>
    intro response hr
    rw [List.mem_singleton.mp hr]
    exact e.wire

theorem answers_wire_iff {requests : List Request} {answers : List Response}
    (h : List.Forall₂ Computed requests answers)
    (hlimits : ∀ request ∈ requests, request.WithinLimits) :
    (∀ response ∈ answers, response.Wire) ↔ ∀ request ∈ requests, ¬request.Breaks := by
  induction h with
  | nil => simp
  | @cons request response requests answers hcomputed _ ih =>
    rw [List.forall_mem_cons, List.forall_mem_cons,
      hcomputed.wire_iff (hlimits request List.mem_cons_self),
      ih (fun q hq => hlimits q (List.mem_cons_of_mem _ hq))]

theorem answers_wire_or_error {requests : List Request} {answers : List Response}
    (h : List.Forall₂ Computed requests answers)
    (hlimits : ∀ request ∈ requests, request.WithinLimits) :
    ∀ response ∈ answers, response.Wire ∨ ∃ msg, response = .error msg := by
  induction h with
  | nil => simp
  | @cons request response requests answers hcomputed _ ih =>
    rw [List.forall_mem_cons]
    exact ⟨hcomputed.wire_or_error (hlimits request List.mem_cons_self),
      ih (fun q hq => hlimits q (List.mem_cons_of_mem _ hq))⟩

/-- The responses of a connection are read back from its bytes exactly when no request
    of it breaks the stream. -/
theorem readAll_answers {requests : List Request} {answers : List Response}
    {ending : Option RequestParseError} (h : List.Forall₂ Computed requests answers)
    (hlimits : ∀ request ∈ requests, request.WithinLimits) {chunks : Source}
    (hne : ∀ chunk ∈ chunks, chunk ≠ [])
    (hflat : chunks.flatten = (answers ++ farewell ending).flatMap Response.toBytes) :
    Completes (readAll ResponseReader.readNext (ResponseReader.new chunks)) (fun result =>
      result = (answers ++ farewell ending, none) ↔ ∀ request ∈ requests, ¬request.Breaks) := by
  have hkinds : ∀ response ∈ answers ++ farewell ending,
      response.Wire ∨ ∃ msg, response = .error msg := by
    intro response hr
    rcases List.mem_append.mp hr with hr | hr
    · exact answers_wire_or_error h hlimits response hr
    · exact .inl (farewell_wire ending response hr)
  apply Yields.mono (ResponseReader.readAll_iff hne hflat hkinds)
  intro result hresult
  rw [hresult, List.forall_mem_append, answers_wire_iff h hlimits]
  exact and_iff_left (farewell_wire ending)

end SimpleKv
