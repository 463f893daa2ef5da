import SimpleKv.ReaderFailures
import SimpleKv.Serial

/- The connections of `server.rs` when the operating system fails them. A turn may come with
   a failure: of the read that `read_next_async` waits in, of the append of `ServerState::write`,
   or of the `write_all` of `send_response`. A failed read ends the connection with an error
   response, a failed append is answered with its error and leaves the key store alone, and
   a failed send is only logged: the loop goes on. -/
namespace SimpleKv
open Outcome Reader

namespace IoFailure

/-- The append of `bytes`. -/
def append (self : IoFailure) (bytes : Bytes) : AppendFailure bytes :=
  if h : self.done < bytes.length then some (⟨self.done, h⟩, self.error) else none

/-- What is written of `bytes`. -/
def written (failure : Option IoFailure) (bytes : Bytes) : Bytes :=
  match failure with
  | none => bytes
  | some failure => bytes.take failure.done

end IoFailure

/-- The texts of `RequestParseError`, with that of `Io`. -/
def ReadError.toString : ReadError RequestParseError → String
  | .io e => s!"failed to read request: {e.text}"
  | .decoder e => e.toString

namespace Connection

/-- `send_response`: an error is logged. -/
def sendResponseFailing (failure : Option IoFailure) (self : Connection) (response : Response) :
    Connection :=
  { self with outbound := self.outbound ++ IoFailure.written failure response.toBytes,
              sent := self.sent ++ [response] }

/-- The next step of `handle_client_connection`. -/
def stepFailing (failure : Option IoFailure) (self : Connection) (state : ServerState) :
    Clocked (Connection × ServerState) := do
  match self.phase with
  | .reading =>
    match ← self.requestReader.readNextFailing failure with
    | (.ok (some request), requestReader) =>
      return ({ self with requestReader, phase := .parsing request,
                          accepted := self.accepted ++ [request] }, state)
    | (.ok none, requestReader) =>
      return ({ self with requestReader, phase := .closed }, state)
    | (.error e, requestReader) =>
      return ({ self with requestReader, phase := .sending (.error e.toString) true }, state)
  | .parsing request =>
    match ← Command.tryFrom request with
    | .ok command => return ({ self with phase := .executing command }, state)
    | .error e => return ({ self with phase := .sending (.error e.toString) false }, state)
  | .executing command =>
    let (response, state) ← state.execute command (failure.bind (fun f => f.append command.toBytes))
    return ({ self with phase := .sending response false }, state)
  | .sending response last =>
    let self := self.sendResponseFailing failure response
    return ({ self with phase := if last then .closed else .reading }, state)
  | .closed => return (self, state)

/-- Under no failure the step is the one of `Connection`. -/
theorem stepFailing_none (self : Connection) (state : ServerState) :
    self.stepFailing none state = self.step state := by
  unfold stepFailing step
  cases hp : self.phase with
  | reading =>
    have hread : self.requestReader.readNextAsync = Reader.readNext self.requestReader := rfl
    simp only [Reader.readNextFailing_none, hread]
    cases Reader.readNext self.requestReader with
    | error f => rfl
    | ok r =>
      obtain ⟨result, reader⟩ := r
      cases result with
      | error e => rfl
      | ok value => cases value <;> rfl
  | parsing request => rfl
  | executing command => rfl
  | sending response last => rfl
  | closed => rfl

end Connection

namespace System

/-- A turn under a failure. -/
def turnFailing (failure : Option IoFailure) (self : System) : Turn → Clocked System
  | .serve i =>
    match self.connections[i]? with
    | none => return self
    | some connection => do
      let (connection, state) ← connection.stepFailing failure self.state
      return { state, connections := self.connections.set i connection }
  | .cleanUp => do
    let (_, state) ← self.state.removeExpired
    return { self with state }

def runFailing (turns : List (Turn × Option IoFailure)) (self : System) : Clocked System :=
  turns.foldlM (fun self turn => self.turnFailing turn.2 turn.1) self

theorem turnFailing_none (self : System) (turn : Turn) :
    self.turnFailing none turn = self.turn turn := by
  cases turn with
  | cleanUp => rfl
  | serve i =>
    cases hi : self.connections[i]? with
    | none => simp only [turnFailing, System.turn, hi]
    | some connection => simp only [turnFailing, System.turn, hi, Connection.stepFailing_none]

/-- A run in which nothing fails is one of `System`. -/
theorem runFailing_none (turns : List Turn) (self : System) :
    self.runFailing (turns.map (fun turn => (turn, none))) = self.run turns := by
  unfold runFailing run
  rw [List.foldlM_map]
  simp only [turnFailing_none]

end System
end SimpleKv
