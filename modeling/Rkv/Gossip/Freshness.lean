import Rkv.Foundation.Counter
import Rkv.Gossip.Steps

/-!
# No node is ahead of a heartbeat's owner

A cluster of nodes that gossip over a network which loses, repeats, reorders and
misdelivers.  A gossip round counts the heartbeat first and builds its message
later, so the two are separate steps; the answer to a message is in flight as
well.  Whatever tables and messages say about a node, they have it from the node
itself, so its counter is a bound on all of it.
-/

namespace Rkv.Gossip

open Std (ExtTreeMap)
open Rkv.Foundation
open Rkv.Ring (HashRing)

structure GossipNet where
  services : String → GossipService
  messages : List Proto.GossipMessage
  answers : List (List Proto.NodeState)

inductive NetAction where
  | addSeed (id nodeId address : String) (now : Nat)
  | beat (id : String)
  | announce (id : String)
  | deliver (index : Nat) (receiver : String) (now : Nat)
  | check (id : String) (now : Nat)

namespace GossipNet

def boot (hash : String → UInt64) (address : String → String)
    (ring : String → HashRing) (config : String → GossipConfig) : GossipNet :=
  ⟨fun id => .new hash id (address id) (ring id) (config id), [], []⟩

def setService (s : GossipNet) (id : String) (g : GossipService) : GossipNet :=
  { s with services := Function.update s.services id g }

theorem services_setService_self (s : GossipNet) (id : String)
    (g : GossipService) : (s.setService id g).services id = g :=
  Function.update_self ..

theorem services_setService_of_ne (s : GossipNet) {id other : String}
    (h : other ≠ id) (g : GossipService) :
    (s.setService id g).services other = s.services other :=
  Function.update_of_ne h ..

/-- A message stays in flight when it is delivered, and it can be delivered to
any node. -/
def next (hash : String → UInt64) (s : GossipNet) : NetAction → Option GossipNet
  | .addSeed id nodeId address now =>
      some (s.setService id ((s.services id).addSeed hash nodeId address now))
  | .beat id => some (s.setService id (s.services id).beat)
  | .announce id =>
      some { s with messages := s.messages ++ [(s.services id).buildGossipMessage] }
  | .deliver index receiver now =>
      match s.messages[index]? with
      | none => none
      | some msg =>
          let (g, answer) := (s.services receiver).handleGossip hash msg now
          some { s.setService receiver g with answers := s.answers ++ [answer] }
  | .check id now =>
      let g := s.services id
      some (s.setService id
        (g.checkFailures g.config.suspectTimeout g.config.deadTimeout now))

/-- Heartbeat counters stay below 2^64. -/
def NoWrap (s : GossipNet) : NetAction → Prop
  | .beat id => (s.services id).heartbeatCounter.toNat + 1 < 2 ^ 64
  | _ => True

def current (s : GossipNet) (id : String) : ℕ ×ₗ ℕ :=
  rank (s.services id).generation (s.services id).heartbeatCounter

def inFlight (s : GossipNet) : List Proto.NodeState :=
  s.messages.flatMap (·.nodes) ++ s.answers.flatten

end GossipNet

/-! ## One node -/

/-- The table is filed by id and has nothing past these bounds. -/
structure Within (bound : String → ℕ ×ₗ ℕ) (g : GossipService) : Prop where
  keyed : Keyed g.peers
  rank_le : ∀ id p, g.peers[id]? = some p → p.rank ≤ bound id

namespace Within

variable {bound : String → ℕ ×ₗ ℕ} {g : GossipService}

theorem mono (h : Within bound g) {higher : String → ℕ ×ₗ ℕ}
    (hle : ∀ id, bound id ≤ higher id) : Within higher g :=
  ⟨h.keyed, fun id p hp => (h.rank_le id p hp).trans (hle id)⟩

theorem addSeed (h : Within bound g) (hash : String → UInt64)
    (nodeId address : String) (now : Nat) :
    Within bound (g.addSeed hash nodeId address now) where
  keyed := h.keyed.insert ⟨nodeId, address, .alive, 0, 0, now⟩
  rank_le := by
    intro id p hp
    simp only [GossipService.addSeed, ExtTreeMap.getElem?_insert] at hp
    split at hp
    · cases hp
      exact bot_le
    · exact h.rank_le id p hp

theorem handleEntry (h : Within bound g) (hash : String → UInt64) (now : Nat)
    {nodeState : Proto.NodeState}
    (hentry : nodeState.rank ≤ bound nodeState.nodeId) :
    Within bound (g.handleEntry hash now nodeState) := by
  refine ⟨GossipService.keyed_handleEntry hash h.keyed now nodeState, ?_⟩
  by_cases haccepts : g.Accepts nodeState
  · intro id p hp
    rw [GossipService.getElem?_handleEntry haccepts] at hp
    split at hp
    · rename_i hid
      cases hp
      exact hid ▸ hentry
    · exact h.rank_le id p hp
  · rw [GossipService.handleEntry_of_not_accepts haccepts]
    exact h.rank_le

theorem handleGossip (h : Within bound g) (hash : String → UInt64) (now : Nat)
    {msg : Proto.GossipMessage}
    (hmsg : ∀ nodeState ∈ msg.nodes, nodeState.rank ≤ bound nodeState.nodeId) :
    Within bound (g.handleGossip hash msg now).1 :=
  GossipService.handleGossip_induction
    (fun _ nodeState hmem hg => hg.handleEntry hash now (hmsg nodeState hmem)) h

theorem checkFailures (h : Within bound g) (hash : String → UInt64) (now : Nat) :
    Within bound
      (g.checkFailures g.config.suspectTimeout g.config.deadTimeout now) where
  keyed := GossipService.keyed_step hash h.keyed (.check now)
  rank_le := by
    intro id p hp
    rw [GossipService.getElem?_checkFailures, Option.map_eq_some_iff] at hp
    obtain ⟨old, hold, rfl⟩ := hp
    exact h.rank_le id old hold

theorem buildNodeStates (h : Within bound g) :
    ∀ nodeState ∈ buildNodeStates g.peers,
      nodeState.rank ≤ bound nodeState.nodeId := by
  intro nodeState hmem
  obtain ⟨⟨id, p⟩, hentry, rfl⟩ := List.mem_map.mp hmem
  have hp := ExtTreeMap.mem_toList_iff_getElem?_eq_some.mp hentry
  have hid : (stateOf p).nodeId = id := h.keyed id p hp
  rw [hid]
  exact h.rank_le id p hp

end Within

theorem rank_lt_beat {g : GossipService}
    (h : g.heartbeatCounter.toNat + 1 < 2 ^ 64) :
    rank g.generation g.heartbeatCounter < g.beat.selfState.rank := by
  change rank g.generation g.heartbeatCounter <
    rank g.generation (g.heartbeatCounter + 1)
  rw [rank_lt_iff]
  exact .inr ⟨rfl, counter_lt_succ_iff.mpr h⟩

/-! ## The cluster -/

/-- Everything held and everything in flight is within what the owners have
reached. -/
structure Bounded (s : GossipNet) : Prop where
  nodeIds : ∀ id, (s.services id).nodeId = id
  tables : ∀ id, Within s.current (s.services id)
  flight : ∀ nodeState ∈ s.inFlight,
    nodeState.rank ≤ s.current nodeState.nodeId

namespace Bounded

variable {hash : String → UInt64} {s t : GossipNet}

theorem boot (hash : String → UInt64) (address : String → String)
    (ring : String → HashRing) (config : String → GossipConfig) :
    Bounded (.boot hash address ring config) where
  nodeIds := fun _ => rfl
  tables := fun id => ⟨by simp [GossipNet.boot, GossipService.new, Keyed],
    by simp [GossipNet.boot, GossipService.new]⟩
  flight := by simp [GossipNet.inFlight, GossipNet.boot]

theorem current_le_setService {id : String} {g : GossipService}
    (hcurrent : s.current id ≤ rank g.generation g.heartbeatCounter)
    (other : String) : s.current other ≤ (s.setService id g).current other := by
  by_cases hid : other = id
  · subst hid
    refine hcurrent.trans (le_of_eq ?_)
    rw [GossipNet.current, s.services_setService_self]
  · rw [GossipNet.current, GossipNet.current,
      s.services_setService_of_ne hid]

/-- A node's service can be replaced by one that knows no more than before and
whose own counters have not gone back. -/
theorem setService (h : Bounded s) {id : String} {g : GossipService}
    (hid : g.nodeId = id)
    (hcurrent : s.current id ≤ rank g.generation g.heartbeatCounter)
    (hg : Within s.current g) : Bounded (s.setService id g) where
  nodeIds := fun other => by
    by_cases heq : other = id
    · subst heq
      rw [s.services_setService_self]
      exact hid
    · rw [s.services_setService_of_ne heq]
      exact h.nodeIds other
  tables := fun other => by
    have hmono : ∀ x, s.current x ≤ (s.setService id g).current x :=
      current_le_setService hcurrent
    by_cases heq : other = id
    · subst heq
      rw [s.services_setService_self]
      exact hg.mono hmono
    · rw [s.services_setService_of_ne heq]
      exact (h.tables other).mono hmono
  flight := fun nodeState hmem =>
    (h.flight nodeState hmem).trans (current_le_setService hcurrent _)

theorem announce (h : Bounded s) (id : String) :
    Bounded
      { s with
        messages := s.messages ++ [(s.services id).buildGossipMessage] } where
  nodeIds := h.nodeIds
  tables := h.tables
  flight := by
    intro nodeState hmem
    simp only [GossipNet.inFlight, List.flatMap_append, List.flatMap_cons,
      List.flatMap_nil, List.append_nil, List.mem_append] at hmem
    rcases hmem with (hold | hsent) | hanswers
    · exact h.flight nodeState (List.mem_append_left _ hold)
    · rcases List.mem_append.mp hsent with hpeers | hself
      · exact (h.tables id).buildNodeStates nodeState hpeers
      · -- the node's own entry has what it has reached itself
        rw [List.mem_singleton.mp hself]
        change rank _ _ ≤ s.current (s.services id).nodeId
        rw [h.nodeIds id]
        exact le_rfl
    · exact h.flight nodeState (List.mem_append_right _ hanswers)

theorem answer (h : Bounded s) {entries : List Proto.NodeState}
    (hentries : ∀ nodeState ∈ entries,
      nodeState.rank ≤ s.current nodeState.nodeId) :
    Bounded { s with answers := s.answers ++ [entries] } where
  nodeIds := h.nodeIds
  tables := h.tables
  flight := by
    intro nodeState hmem
    simp only [GossipNet.inFlight, List.flatten_append, List.flatten_cons,
      List.flatten_nil, List.append_nil, List.mem_append] at hmem
    rcases hmem with hmessages | hold | hnew
    · exact h.flight nodeState (List.mem_append_left _ hmessages)
    · exact h.flight nodeState (List.mem_append_right _ hold)
    · exact hentries nodeState hnew

theorem deliver (h : Bounded s) {msg : Proto.GossipMessage}
    (hmsg : msg ∈ s.messages) (hash : String → UInt64) (receiver : String)
    (now : Nat) :
    Bounded
      { s.setService receiver
          ((s.services receiver).handleGossip hash msg now).1 with
        answers := s.answers ++
          [((s.services receiver).handleGossip hash msg now).2] } := by
  have hentries : ∀ nodeState ∈ msg.nodes,
      nodeState.rank ≤ s.current nodeState.nodeId := fun nodeState hmem =>
    h.flight nodeState (List.mem_append_left _
      (List.mem_flatMap.mpr ⟨msg, hmsg, hmem⟩))
  have htable := (h.tables receiver).handleGossip hash now hentries
  obtain ⟨hid, -, hgeneration, hheartbeat⟩ :=
    GossipService.handleGossip_frame hash (s.services receiver) msg now
  have hcurrent : s.current receiver ≤
      rank ((s.services receiver).handleGossip hash msg now).1.generation
        ((s.services receiver).handleGossip hash msg now).1.heartbeatCounter := by
    rw [hgeneration, hheartbeat]
    exact le_rfl
  have hset := h.setService (hid.trans (h.nodeIds receiver)) hcurrent htable
  exact hset.answer
    (htable.mono (current_le_setService hcurrent)).buildNodeStates

theorem step (h : Bounded s) {action : NetAction} (hguard : s.NoWrap action)
    (hnext : s.next hash action = some t) : Bounded t := by
  cases action with
  | addSeed id nodeId address now =>
      cases hnext
      exact h.setService (h.nodeIds id) le_rfl
        ((h.tables id).addSeed hash nodeId address now)
  | beat id =>
      cases hnext
      have htable := h.tables id
      exact h.setService (h.nodeIds id) (rank_lt_beat hguard).le
        ⟨htable.keyed, htable.rank_le⟩
  | announce id =>
      cases hnext
      exact h.announce id
  | deliver index receiver now =>
      simp only [GossipNet.next] at hnext
      split at hnext
      · contradiction
      · rename_i msg hmsg
        cases hnext
        exact h.deliver (List.mem_of_getElem? hmsg) hash receiver now
  | check id now =>
      cases hnext
      exact h.setService (h.nodeIds id) le_rfl
        ((h.tables id).checkFailures hash now)

end Bounded

/-- In every state of a run, what any table has and any message or answer says of
a node is at most what the node has reached, and less than what its next gossip
round announces. -/
theorem heartbeats_bounded_by_owner (hash : String → UInt64)
    (address : String → String) (ring : String → HashRing)
    (config : String → GossipConfig) {actions : List NetAction} {s : GossipNet}
    (hrun : Run (GossipNet.next hash) GossipNet.NoWrap
      (.boot hash address ring config) actions s) (x : String) :
    ((∀ id p, (s.services id).peers[x]? = some p → p.rank ≤ s.current x) ∧
      ∀ nodeState ∈ s.inFlight, nodeState.nodeId = x →
        nodeState.rank ≤ s.current x) ∧
    (s.NoWrap (.beat x) →
      (∀ id p, (s.services id).peers[x]? = some p →
        p.rank < (s.services x).beat.selfState.rank) ∧
      ∀ nodeState ∈ s.inFlight, nodeState.nodeId = x →
        nodeState.rank < (s.services x).beat.selfState.rank) := by
  have hbounded : Bounded s :=
    hrun.invariant (fun _ _ _ h => h.step) (.boot hash address ring config)
  have hheld : ∀ id p, (s.services id).peers[x]? = some p →
      p.rank ≤ s.current x := fun id => (hbounded.tables id).rank_le x
  have hflight : ∀ nodeState ∈ s.inFlight, nodeState.nodeId = x →
      nodeState.rank ≤ s.current x := by
    rintro nodeState hmem rfl
    exact hbounded.flight nodeState hmem
  refine ⟨⟨hheld, hflight⟩, fun hbelow => ?_⟩
  have hannounced := rank_lt_beat hbelow
  exact ⟨fun id p hp => (hheld id p hp).trans_lt hannounced,
    fun nodeState hmem hid => (hflight nodeState hmem hid).trans_lt hannounced⟩

def firstRound : List NetAction :=
  [.beat "node1", .announce "node1", .deliver 0 "node2" 10]

def freshNet : GossipNet :=
  .boot Ring.sha256Labels id (fun _ => HashRing.new 1 3) fun _ => ⟨5000, 15000, 3⟩

theorem heartbeats_bounded_after_first_round :
    ∃ s, Run (GossipNet.next Ring.sha256Labels) GossipNet.NoWrap freshNet
        firstRound s ∧
      ((s.services "node2").peers["node1"]?.map fun p =>
        (p.generation, p.heartbeat)) = some (1, 1) ∧
      ∀ id p, (s.services id).peers["node1"]? = some p →
        p.rank < (s.services "node1").beat.selfState.rank := by
  have hstate : (runActions (GossipNet.next Ring.sha256Labels) freshNet
      firstRound).map (fun s => ((s.services "node2").peers["node1"]?.map fun p =>
        (p.generation, p.heartbeat), (s.services "node1").heartbeatCounter)) =
      some (some (1, 1), 1) := by decide +kernel
  obtain ⟨s, hs, hfound⟩ := Option.map_eq_some_iff.mp hstate
  rw [Prod.mk.injEq] at hfound
  have hrun : Run (GossipNet.next Ring.sha256Labels) GossipNet.NoWrap freshNet
      firstRound s := by
    cases Run.of_runActions hs with
    | cons _ hbeat hrest =>
        refine .cons (show (0 : UInt64).toNat + 1 < 2 ^ 64 by decide) hbeat ?_
        cases hrest with
        | cons _ hannounce hrest =>
            refine .cons trivial hannounce ?_
            cases hrest with
            | cons _ hdeliver hdone =>
                cases hdone
                exact .cons trivial hdeliver (.nil _)
  have hbelow : s.NoWrap (.beat "node1") := by
    change (s.services "node1").heartbeatCounter.toNat + 1 < 2 ^ 64
    rw [hfound.2]
    decide
  exact ⟨s, hrun, hfound.1, ((heartbeats_bounded_by_owner Ring.sha256Labels id
    (fun _ => HashRing.new 1 3) (fun _ => ⟨5000, 15000, 3⟩) hrun "node1").2
    hbelow).1⟩

end Rkv.Gossip
