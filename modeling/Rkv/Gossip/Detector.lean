import Rkv.Ring.ConsistentHash

/-!
# Gossip and failure detection

`gossip/detector.rs`.  Instants and timeouts are milliseconds of a monotonic
clock, and every step that reads it takes its reading as an argument.  The peer
table is a map from ids; its entries are listed in the order of the ids.
-/

namespace Rkv.Gossip

open Std (ExtTreeMap)
open Rkv.Ring (Node HashRing)

inductive NodeStatus where
  | alive
  | suspect
  | dead
  deriving DecidableEq, Repr

structure PeerState where
  nodeId : String
  address : String
  status : NodeStatus
  heartbeat : UInt64
  generation : UInt64
  lastSeen : Nat
  deriving DecidableEq

abbrev PeerMap := ExtTreeMap String PeerState

structure GossipConfig where
  suspectTimeout : Nat
  deadTimeout : Nat
  fanout : Nat

structure GossipService where
  nodeId : String
  peers : PeerMap
  ring : HashRing
  heartbeatCounter : UInt64
  generation : UInt64
  config : GossipConfig

namespace Proto

structure NodeState where
  nodeId : String
  address : String
  status : Int
  heartbeat : UInt64
  generation : UInt64
  deriving DecidableEq

structure GossipMessage where
  senderId : String
  nodes : List NodeState
  deriving DecidableEq

end Proto

def NodeStatus.code : NodeStatus → Int
  | .alive => 0
  | .suspect => 1
  | .dead => 2

/-- An unknown code reads as alive. -/
def NodeStatus.ofCode : Int → NodeStatus
  | 1 => .suspect
  | 2 => .dead
  | _ => .alive

def shouldUpdate (peers : PeerMap) (nodeState : Proto.NodeState) : Bool :=
  match peers[nodeState.nodeId]? with
  | none => true
  | some existing =>
      decide (existing.generation < nodeState.generation) ||
        (nodeState.generation == existing.generation &&
          decide (existing.heartbeat < nodeState.heartbeat))

def peerOf (nodeState : Proto.NodeState) (now : Nat) : PeerState where
  nodeId := nodeState.nodeId
  address := nodeState.address
  status := .ofCode nodeState.status
  heartbeat := nodeState.heartbeat
  generation := nodeState.generation
  lastSeen := now

def stateOf (p : PeerState) : Proto.NodeState where
  nodeId := p.nodeId
  address := p.address
  status := p.status.code
  heartbeat := p.heartbeat
  generation := p.generation

def buildNodeStates (peers : PeerMap) : List Proto.NodeState :=
  peers.toList.map fun entry => stateOf entry.2

def statusAfter (suspectTimeout deadTimeout now : Nat) (peer : PeerState) :
    NodeStatus :=
  let elapsed := now - peer.lastSeen
  match peer.status with
  | .alive => if suspectTimeout < elapsed then .suspect else .alive
  | .suspect => if deadTimeout < elapsed then .dead else .suspect
  | .dead => .dead

namespace GossipService

variable (hash : String → UInt64)

def new (nodeId address : String) (ring : HashRing) (config : GossipConfig) :
    GossipService where
  nodeId := nodeId
  peers := ∅
  ring := ring.addNode hash ⟨nodeId, address⟩
  heartbeatCounter := 0
  generation := 1
  config := config

def addSeed (g : GossipService) (nodeId address : String) (now : Nat) :
    GossipService :=
  { g with
    peers := g.peers.insert nodeId ⟨nodeId, address, .alive, 0, 0, now⟩
    ring := g.ring.addNode hash ⟨nodeId, address⟩ }

/-- One round of the loop of `handle_gossip`. -/
def handleEntry (now : Nat) (g : GossipService) (nodeState : Proto.NodeState) :
    GossipService :=
  if shouldUpdate g.peers nodeState && nodeState.nodeId ≠ g.nodeId then
    let peer := peerOf nodeState now
    let ring :=
      match peer.status with
      | .dead => g.ring.removeNode nodeState.nodeId
      | .alive => g.ring.addNode hash ⟨nodeState.nodeId, nodeState.address⟩
      | .suspect => g.ring
    { g with ring := ring, peers := g.peers.insert nodeState.nodeId peer }
  else g

def handleGossip (g : GossipService) (msg : Proto.GossipMessage) (now : Nat) :
    GossipService × List Proto.NodeState :=
  let g := msg.nodes.foldl (handleEntry hash now) g
  (g, buildNodeStates g.peers)

/-- The sender's own entry has no address. -/
def selfState (g : GossipService) : Proto.NodeState where
  nodeId := g.nodeId
  address := ""
  status := NodeStatus.alive.code
  heartbeat := g.heartbeatCounter
  generation := g.generation

def buildGossipMessage (g : GossipService) : Proto.GossipMessage where
  senderId := g.nodeId
  nodes := buildNodeStates g.peers ++ [g.selfState]

/-- The peers a round chooses its targets from. -/
def candidates (g : GossipService) : List PeerState :=
  (g.peers.toList.map (·.2)).filter fun p => p.status ≠ .dead

/-- The heartbeat goes up even when there is nobody to talk to. -/
def beat (g : GossipService) : GossipService :=
  { g with heartbeatCounter := g.heartbeatCounter + 1 }

def checkFailures (g : GossipService) (suspectTimeout deadTimeout now : Nat) :
    GossipService :=
  let after := statusAfter suspectTimeout deadTimeout now
  let died := (g.peers.toList.map (·.2)).filter fun p =>
    p.status ≠ .dead && after p = .dead
  { g with
    peers := g.peers.map fun _ p => { p with status := after p }
    ring := died.foldl (fun ring p => ring.removeNode p.nodeId) g.ring }

def alivePeers (g : GossipService) : List PeerState :=
  (g.peers.toList.map (·.2)).filter fun p => p.status = .alive

def peerStatus (g : GossipService) (nodeId : String) : Option NodeStatus :=
  (g.peers[nodeId]?).map (·.status)

end GossipService

end Rkv.Gossip
