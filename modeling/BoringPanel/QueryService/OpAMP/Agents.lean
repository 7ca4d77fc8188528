import BoringPanel.Lib.GoText
import BoringPanel.Lib.Runs

/-!
# The connected agents

`Agents` of `app/opamp/model/agents.go`, the two maps that the OpAMP server keeps of the agents that
are connected: `agentsById`, and for each connection the ids that were first seen on it. The server
reads and changes them on each message of an agent and when a connection closes
(`app/opamp/opamp_server.go`). `Conn` is the type of connections.
-/

namespace QueryService.OpAMP

inductive AgentStatus where
  | unknown
  | connected
  | disconnected
deriving DecidableEq, Repr

structure AgentConfigFile where
  body : String
  contentType : String
deriving DecidableEq, Repr

/-- `protobufs.AgentRemoteConfig`. -/
structure AgentRemoteConfig where
  configMap : List (String × AgentConfigFile)
  configHash : String
deriving DecidableEq, Repr

structure Agent (Conn : Type) where
  id : String
  effectiveConfig : String
  currentStatus : AgentStatus
  remoteConfig : Option AgentRemoteConfig
  conn : Conn

variable {Conn : Type}

/-- `New`. -/
def Agent.new (id : String) (conn : Conn) : Agent Conn where
  id := id
  effectiveConfig := ""
  currentStatus := .connected
  remoteConfig := none
  conn := conn

/-- `updateEffectiveConfig`, for a message that reports a configuration or none. -/
def Agent.updateEffectiveConfig (agent : Agent Conn) (reported : Option String) : Agent Conn :=
  match reported with
  | some config => { agent with effectiveConfig := config }
  | none => agent

/-- `Agents`. A connection without a map of ids has no ids. -/
structure Agents (Conn : Type) where
  agentsById : Go.Map (Agent Conn)
  connections : Conn → List String

/-- The maps that `InitDB` makes. -/
def Agents.empty : Agents Conn where
  agentsById := Go.Map.empty
  connections _ := []

namespace Agents

variable [DecidableEq Conn]

/-- The loop of `RemoveConnection`; `none` where a missing agent is dereferenced. -/
def removeAgents : List String → Go.Map (Agent Conn) → Option (Go.Map (Agent Conn))
  | [], agentsById => some agentsById
  | instanceId :: ids, agentsById =>
    match agentsById.lookup instanceId with
    | none => none
    -- the agent is marked as disconnected, in the database only
    | some _ => removeAgents ids (agentsById.erase instanceId)

/-- `RemoveConnection`, with the ids of the connection in the order of the `range`. -/
def removeConnection (agents : Agents Conn) (order : List String) (conn : Conn) :
    Option (Agents Conn) := do
  let agentsById ← removeAgents order agents.agentsById
  return { agentsById, connections := Function.update agents.connections conn [] }

/-- `FindOrCreateAgent`, for an `Upsert` that succeeds or not. -/
def findOrCreateAgent (agents : Agents Conn) (agentID : String) (conn : Conn) (upsert : Bool) :
    Option (Agent Conn) × Agents Conn :=
  match agents.agentsById.lookup agentID with
  | some agent => (some agent, agents)
  | none =>
    if upsert then
      let agent := Agent.new agentID conn
      let ids := agents.connections conn
      (some agent,
        { agentsById := agents.agentsById.set agentID agent
          connections := Function.update agents.connections conn
            (if agentID ∈ ids then ids else ids ++ [agentID]) })
    else (none, agents)

/-- `OnMessage`, as far as the maps go; `none` where the status of a missing agent is updated. -/
def onMessage (agents : Agents Conn) (agentID : String) (conn : Conn) (upsert : Bool)
    (reported : Option String) : Option (Agents Conn) :=
  match agents.findOrCreateAgent agentID conn upsert with
  | (none, _) => none
  | (some agent, agents) =>
    some { agents with
      agentsById := agents.agentsById.set agentID (agent.updateEffectiveConfig reported) }

end Agents

/-! ### Events -/

/-- What the server is told. -/
inductive Event (Conn : Type) where
  /-- A message of an agent; `upsert` says whether the database takes a new agent. -/
  | message (agentID : String) (conn : Conn) (upsert : Bool) (reported : Option String)
  | close (conn : Conn)

variable [DecidableEq Conn]

/-- One event. The ids of a connection that closes are visited in any order. -/
inductive Step : Agents Conn → Event Conn → Agents Conn → Prop
  | message {agents agents' : Agents Conn} {agentID : String} {conn : Conn} {upsert : Bool}
      {reported : Option String}
      (h : agents.onMessage agentID conn upsert reported = some agents') :
      Step agents (.message agentID conn upsert reported) agents'
  | close {agents agents' : Agents Conn} {conn : Conn} {order : List String}
      (horder : order.Perm (agents.connections conn))
      (h : agents.removeConnection order conn = some agents') : Step agents (.close conn) agents'

/-! ### Where an agent listens -/

/-- How an event changes the connection on which an agent listens. -/
def Event.listening (agentID : String) (live : Option Conn) : Event Conn → Option Conn
  | .message id conn _ _ => if id = agentID then some conn else live
  | .close conn => if live = some conn then none else live

/-- The connection on which the latest message of an agent arrived, if it is still open: not closed
since. -/
def liveConn (events : List (Event Conn)) (agentID : String) : Option Conn :=
  events.foldl (Event.listening agentID) none

/-- **The maps show who is connected**, after what the server has been told. -/
structure Consistent (events : List (Event Conn)) (agents : Agents Conn) : Prop where
  /-- An agent is there exactly when its connection is open, and configurations are sent to that
  connection. -/
  listening : ∀ id, (agents.agentsById.lookup id).map Agent.conn = liveConn events id
  agree : ∀ id conn, id ∈ agents.connections conn ↔
    ∃ agent, agents.agentsById.lookup id = some agent ∧ agent.conn = conn
  /-- No missing agent is dereferenced. -/
  remove : ∀ conn order, order.Perm (agents.connections conn) →
    (agents.removeConnection order conn).isSome

/-- A message of an agent that is connected arrives on the connection it was first seen on. -/
def Stays (agents : Agents Conn) : Event Conn → Prop
  | .message id conn _ _ => ∀ agent, agents.agentsById.lookup id = some agent → agent.conn = conn
  | .close _ => True

end QueryService.OpAMP
