import SimpleKv.Server

/- The tasks of `server.rs`: `handle_client_connection`, once for each client, and the
   clean-up. A task runs alone between two points where it may be suspended, so a run
   of the server is a sequence of turns: a connection takes its next step, or the
   clean-up its next round. Parsing is a step of its own, since it may read the clock
   without the lock; what is done under the lock is one step. Sends and appends
   succeed. -/
namespace SimpleKv

/-- The dispatch of `handle_client_connection`, under the lock. -/
def ServerState.execute (self : ServerState) (command : Command)
    (failure : AppendFailure command.toBytes) : Clocked (Response × ServerState) := do
  if command.isWriteOp then
    self.write command failure
  else
    return (← self.read command, self)

/-- Where `handle_client_connection` is. It returns after the response to an unreadable
    request, which is its `last`. -/
inductive Phase where
  | reading
  | parsing (request : Request)
  | executing (command : Command)
  | sending (response : Response) (last : Bool)
  | closed

/-- `accepted` and `sent` are not the program's: they record the requests read and the
    responses written so far. -/
structure Connection where
  requestReader : RequestReader
  outbound : Bytes := []
  phase : Phase := .reading
  accepted : List Request := []
  sent : List Response := []

namespace Connection

def new (incoming : Source) : Connection := { requestReader := .new incoming }

/-- `send_response` -/
def sendResponse (self : Connection) (response : Response) : Connection :=
  { self with outbound := self.outbound ++ response.toBytes, sent := self.sent ++ [response] }

/-- The next step of `handle_client_connection`. -/
def step (self : Connection) (state : ServerState) : Clocked (Connection × ServerState) := do
  match self.phase with
  | .reading =>
    match ← self.requestReader.readNextAsync with
    | (.ok (some request), requestReader) =>
      return ({ self with requestReader, phase := .parsing request,
                          accepted := self.accepted ++ [request] }, state)
    | (.ok none, requestReader) =>
      return ({ self with requestReader, phase := .closed }, state)
    | (.error e, requestReader) =>
      return ({ self with requestReader, phase := .sending (.error e.toString) true }, state)
  | .parsing request =>
    match ← Command.tryFrom request with
    | .ok command => return ({ self with phase := .executing command }, state)
    | .error e => return ({ self with phase := .sending (.error e.toString) false }, state)
  | .executing command =>
    let (response, state) ← state.execute command none
    return ({ self with phase := .sending response false }, state)
  | .sending response last =>
    let self := self.sendResponse response
    return ({ self with phase := if last then .closed else .reading }, state)
  | .closed => return (self, state)

end Connection

/-- The server with its clients. One that connects later takes no turn before. -/
structure System where
  state : ServerState
  connections : List Connection

inductive Turn where
  | serve (i : Nat)
  | cleanUp
  deriving DecidableEq

namespace System

def start (state : ServerState) (sources : List Source) : System :=
  { state, connections := sources.map .new }

def turn (self : System) : Turn → Clocked System
  | .serve i =>
    match self.connections[i]? with
    | none => return self
    | some connection => do
      let (connection, state) ← connection.step self.state
      return { state, connections := self.connections.set i connection }
  | .cleanUp => do
    let (_, state) ← self.state.removeExpired
    return { self with state }

def run (turns : List Turn) (self : System) : Clocked System := turns.foldlM turn self

end System
end SimpleKv
