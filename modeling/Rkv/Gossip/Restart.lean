import Rkv.Gossip.Knowledge

/-!
# A node that starts again

`GossipService::new` always begins with generation 1, so the first round of a
restarted node announces the pair (1, 1), the same as the first round of the
life before it.  What a peer does with the message is settled by the entry its
table has for the node.
-/

namespace Rkv.Gossip

open Std (ExtTreeMap)
open Rkv.Foundation
open Rkv.Ring (Node HashRing)

/-! ## The restarted node -/

/-- Registered seeds may name the node itself; nothing else in its table does. -/
structure Restarted (id : String) (heartbeat : UInt64) (g : GossipService) :
    Prop where
  nodeId : g.nodeId = id
  generation : g.generation = 1
  heartbeatCounter : g.heartbeatCounter = heartbeat
  keyed : Keyed g.peers
  own : ∀ p, g.peers[id]? = some p → p.rank = rank 0 0

namespace Restarted

variable {hash : String → UInt64} {id : String} {heartbeat : UInt64}
  {g : GossipService}

theorem new (hash : String → UInt64) (id address : String) (ring : HashRing)
    (config : GossipConfig) :
    Restarted id 0 (.new hash id address ring config) where
  nodeId := rfl
  generation := rfl
  heartbeatCounter := rfl
  keyed := by simp [Keyed, GossipService.new]
  own := by simp [GossipService.new]

theorem beat (h : Restarted id 0 g) : Restarted id 1 g.beat where
  nodeId := h.nodeId
  generation := h.generation
  heartbeatCounter := by rw [GossipService.beat, h.heartbeatCounter]; rfl
  keyed := h.keyed
  own := h.own

theorem handleEntry (h : Restarted id heartbeat g) (hash : String → UInt64)
    (now : Nat) (nodeState : Proto.NodeState) :
    Restarted id heartbeat (g.handleEntry hash now nodeState) := by
  obtain ⟨hid, -, hgeneration, hheartbeat⟩ :=
    GossipService.handleEntry_frame hash now g nodeState
  refine ⟨hid.trans h.nodeId, hgeneration.trans h.generation,
    hheartbeat.trans h.heartbeatCounter,
    GossipService.keyed_handleEntry hash h.keyed now nodeState, ?_⟩
  by_cases haccepts : g.Accepts nodeState
  · intro p hp
    have hne : nodeState.nodeId ≠ id := h.nodeId ▸ haccepts.ne
    rw [GossipService.getElem?_handleEntry haccepts, if_neg hne] at hp
    exact h.own p hp
  · rw [GossipService.handleEntry_of_not_accepts haccepts]
    exact h.own

theorem step (h : Restarted id heartbeat g) (hash : String → UInt64)
    (action : NodeAction) :
    Restarted id heartbeat (g.step hash action) := by
  cases action with
  | addSeed nodeId address now =>
      refine ⟨h.nodeId, h.generation, h.heartbeatCounter,
        GossipService.keyed_step hash h.keyed _, ?_⟩
      intro p hp
      simp only [GossipService.step, GossipService.addSeed,
        ExtTreeMap.getElem?_insert] at hp
      split at hp
      · cases hp
        rfl
      · exact h.own p hp
  | handle msg now =>
      exact GossipService.handleGossip_induction
        (fun _ nodeState _ hg => hg.handleEntry hash now nodeState) h
  | check now =>
      refine ⟨h.nodeId, h.generation, h.heartbeatCounter,
        GossipService.keyed_step hash h.keyed _, ?_⟩
      intro p hp
      rw [GossipService.step, GossipService.getElem?_checkFailures,
        Option.map_eq_some_iff] at hp
      obtain ⟨old, hold, rfl⟩ := hp
      exact h.own old hold

theorem run (h : Restarted id heartbeat g) {actions : List NodeAction}
    {later : GossipService}
    (hrun : Run (GossipService.next hash) anyAction g actions later) :
    Restarted id heartbeat later :=
  hrun.invariant
    (fun _ action _ h _ hnext => Option.some.inj hnext ▸ h.step hash action) h

theorem rank_of_mem (h : Restarted id heartbeat g) {nodeState : Proto.NodeState}
    (hmem : nodeState ∈ buildNodeStates g.peers) (hid : nodeState.nodeId = id) :
    nodeState.rank = rank 0 0 := by
  obtain ⟨⟨key, p⟩, hentry, rfl⟩ := List.mem_map.mp hmem
  have hp := ExtTreeMap.mem_toList_iff_getElem?_eq_some.mp hentry
  have hkey : key = id := (h.keyed key p hp).symm.trans hid
  exact h.own p (hkey ▸ hp)

theorem rank_selfState (h : Restarted id 1 g) :
    g.selfState.rank = rank 1 1 := by
  rw [Proto.NodeState.rank, GossipService.selfState, h.generation,
    h.heartbeatCounter]

end Restarted

/-! ## The peer -/

namespace GossipService

variable {hash : String → UInt64} {g : GossipService} {now : Nat}
  {id : String} {p : PeerState}

/-- The peer as it was, as far as one id and its entry go. -/
structure Keeps (g : GossipService) (id : String) (p : PeerState)
    (after : GossipService) : Prop where
  nodeId : after.nodeId = g.nodeId
  vnodes : after.ring.vnodesPerNode = g.ring.vnodesPerNode
  entry : after.peers[id]? = some p
  holds : after.ring.Holds id → g.ring.Holds id

theorem vnodesPerNode_ringAfter (g : GossipService)
    (nodeState : Proto.NodeState) :
    (g.ringAfter hash nodeState).vnodesPerNode = g.ring.vnodesPerNode := by
  unfold ringAfter
  split <;> rfl

theorem vnodesPerNode_handleEntry (hash : String → UInt64) (now : Nat)
    (g : GossipService) (nodeState : Proto.NodeState) :
    (g.handleEntry hash now nodeState).ring.vnodesPerNode =
      g.ring.vnodesPerNode := by
  by_cases haccepts : g.Accepts nodeState
  · rw [handleEntry_of_accepts haccepts]
    exact vnodesPerNode_ringAfter g nodeState
  · rw [handleEntry_of_not_accepts haccepts]

theorem Keeps.handleEntry {after : GossipService} (h : g.Keeps id p after)
    {nodeState : Proto.NodeState}
    (hentry : nodeState.nodeId = id → nodeState.rank ≤ p.rank) :
    g.Keeps id p (after.handleEntry hash now nodeState) := by
  have hvnodes := vnodesPerNode_handleEntry hash now after nodeState
  by_cases haccepts : after.Accepts nodeState
  · have hne : nodeState.nodeId ≠ id := by
      rintro rfl
      exact absurd (haccepts.newer p h.entry) (not_lt_of_ge (hentry rfl))
    rw [handleEntry_of_accepts haccepts] at hvnodes ⊢
    refine ⟨h.nodeId, hvnodes.trans h.vnodes, ?_, ?_⟩
    · simpa [ExtTreeMap.getElem?_insert, compare_eq_iff_eq, hne] using h.entry
    · intro hholds
      rcases holds_of_holds_ringAfter hholds with hold | ⟨heq, -⟩
      · exact h.holds hold
      · exact absurd heq.symm hne
  · rw [handleEntry_of_not_accepts haccepts]
    exact h

/-- Handling the sender's message leaves its entry alive with the pair it says of
itself, and it on the ring. -/
def Believes (hash : String → UInt64) (g sender : GossipService) (now : Nat) :
    Prop :=
  let after := (g.handleGossip hash sender.buildGossipMessage now).1
  (∃ q, after.peers[sender.nodeId]? = some q ∧ q.status = .alive ∧
      q.generation = sender.generation ∧
      q.heartbeat = sender.heartbeatCounter) ∧
    after.ring.Holds sender.nodeId

theorem holds_ringAfter_selfState (g sender : GossipService) :
    (g.ringAfter hash sender.selfState).Holds sender.nodeId ↔
      1 ≤ g.ring.vnodesPerNode ∨ g.ring.Holds sender.nodeId := by
  change (g.ring.addNode hash ⟨sender.nodeId, ""⟩).Holds sender.nodeId ↔ _
  by_cases hvnodes : 1 ≤ g.ring.vnodesPerNode
  · refine iff_of_true ?_ (.inl hvnodes)
    refine ⟨hash (Ring.vnodeKey sender.nodeId 0), ⟨sender.nodeId, ""⟩, ?_, rfl⟩
    rw [HashRing.getElem?_addNode, if_pos ⟨0, hvnodes, rfl⟩]
  · have hzero : g.ring.vnodesPerNode = 0 := by omega
    simp [HashRing.Holds, HashRing.getElem?_addNode, hzero]

/-! ## Places on the ring -/

def HoldsAt (g : GossipService) (id : String) (position : UInt64) : Prop :=
  ∃ node, g.ring.ring[position]? = some node ∧ node.id = id

/-- The entry is taken, and its node goes to this position of the ring. -/
structure Displaces (hash : String → UInt64) (g : GossipService)
    (position : UInt64) (nodeState : Proto.NodeState) : Prop where
  accepts : g.Accepts nodeState
  alive : NodeStatus.ofCode nodeState.status = .alive
  place : ∃ i < g.ring.vnodesPerNode,
    hash (Ring.vnodeKey nodeState.nodeId i) = position

/-- The ring has the node at a position that none of the entries brings another
node to. -/
def KeepsPlace (hash : String → UInt64) (g : GossipService) (id : String)
    (entries : List Proto.NodeState) : Prop :=
  ∃ position, g.HoldsAt id position ∧
    ∀ nodeState ∈ entries, ¬g.Displaces hash position nodeState

section

variable {position : UInt64} {nodeState : Proto.NodeState}

theorem holdsAt_handleEntry
    (hrefused : nodeState.nodeId = id → ¬g.Accepts nodeState) :
    (g.handleEntry hash now nodeState).HoldsAt id position ↔
      g.HoldsAt id position ∧ ¬g.Displaces hash position nodeState := by
  by_cases haccepts : g.Accepts nodeState
  · have hne : nodeState.nodeId ≠ id := fun hid => hrefused hid haccepts
    rw [handleEntry_of_accepts haccepts, HoldsAt, HoldsAt]
    unfold ringAfter
    cases hcode : NodeStatus.ofCode nodeState.status with
    | dead =>
        have hstays : ¬g.Displaces hash position nodeState := fun h => by
          simpa [hcode] using h.alive
        simp only [hstays, not_false_eq_true, and_true,
          HashRing.getElem?_removeNode, Option.filter_eq_some_iff,
          decide_eq_true_eq]
        constructor
        · rintro ⟨node, ⟨hnode, -⟩, rfl⟩
          exact ⟨node, hnode, rfl⟩
        · rintro ⟨node, hnode, rfl⟩
          exact ⟨node, ⟨hnode, hne.symm⟩, rfl⟩
    | alive =>
        simp only [HashRing.getElem?_addNode]
        split
        · rename_i hplace
          refine iff_of_false ?_ fun h => h.2 ⟨haccepts, hcode, hplace⟩
          rintro ⟨node, hnode, hid⟩
          cases hnode
          exact hne hid
        · rename_i hplace
          exact (and_iff_left fun h => hplace h.place).symm
    | suspect =>
        refine (and_iff_left fun h => ?_).symm
        simpa [hcode] using h.alive
  · rw [handleEntry_of_not_accepts haccepts]
    exact (and_iff_left fun h => haccepts h.accepts).symm

/-- Whether an entry is taken does not depend on entries about other nodes. -/
theorem accepts_handleEntry {other : Proto.NodeState}
    (hne : nodeState.nodeId ≠ other.nodeId) :
    (g.handleEntry hash now nodeState).Accepts other ↔ g.Accepts other := by
  have hid := (handleEntry_frame hash now g nodeState).1
  have hentry : (g.handleEntry hash now nodeState).peers[other.nodeId]? =
      g.peers[other.nodeId]? := by
    by_cases haccepts : g.Accepts nodeState
    · rw [getElem?_handleEntry haccepts, if_neg hne]
    · rw [handleEntry_of_not_accepts haccepts]
  constructor
  · exact fun h => ⟨hentry ▸ h.newer, hid ▸ h.ne⟩
  · exact fun h => ⟨hentry.symm ▸ h.newer, hid.symm ▸ h.ne⟩

theorem displaces_handleEntry {other : Proto.NodeState}
    (hne : nodeState.nodeId ≠ other.nodeId) :
    (g.handleEntry hash now nodeState).Displaces hash position other ↔
      g.Displaces hash position other := by
  have haccepts : (g.handleEntry hash now nodeState).Accepts other ↔ _ :=
    accepts_handleEntry hne
  have hvnodes := vnodesPerNode_handleEntry hash now g nodeState
  constructor
  · exact fun h => ⟨haccepts.mp h.accepts, h.alive, hvnodes ▸ h.place⟩
  · exact fun h => ⟨haccepts.mpr h.accepts, h.alive, hvnodes.symm ▸ h.place⟩

theorem holdsAt_foldl_handleEntry {entries : List Proto.NodeState}
    (hdistinct : (entries.map (·.nodeId)).Nodup)
    (hrefused : ∀ nodeState ∈ entries,
      nodeState.nodeId = id → ¬g.Accepts nodeState) :
    (entries.foldl (handleEntry hash now) g).HoldsAt id position ↔
      g.HoldsAt id position ∧
        ∀ nodeState ∈ entries, ¬g.Displaces hash position nodeState := by
  induction entries generalizing g with
  | nil => simp
  | cons nodeState entries ih =>
      rw [List.map_cons, List.nodup_cons] at hdistinct
      have hne : ∀ other ∈ entries, nodeState.nodeId ≠ other.nodeId :=
        fun other hother heq =>
          hdistinct.1 (heq ▸ List.mem_map_of_mem hother)
      have hlater : ∀ other ∈ entries, other.nodeId = id →
          ¬(g.handleEntry hash now nodeState).Accepts other := by
        intro other hother hid haccepts
        exact hrefused other (List.mem_cons_of_mem _ hother) hid
          ((accepts_handleEntry (hne other hother)).mp haccepts)
      rw [List.foldl_cons, ih hdistinct.2 hlater,
        holdsAt_handleEntry (hrefused nodeState List.mem_cons_self),
        List.forall_mem_cons, and_assoc]
      refine and_congr_right fun _ => and_congr_right fun _ => ?_
      exact forall₂_congr fun other hother =>
        not_congr (displaces_handleEntry (hne other hother))

theorem nodup_buildNodeStates {peers : PeerMap} (hkeyed : Keyed peers) :
    ((buildNodeStates peers).map (·.nodeId)).Nodup := by
  rw [buildNodeStates, List.map_map, List.Nodup, List.pairwise_map]
  refine peers.distinct_keys_toList.imp_of_mem fun {a b} ha hb hne heq => hne ?_
  have hkeys : ∀ entry ∈ peers.toList, entry.2.nodeId = entry.1 :=
    fun entry hentry => hkeyed entry.1 entry.2
      (ExtTreeMap.mem_toList_iff_getElem?_eq_some.mp hentry)
  rw [compare_eq_iff_eq, ← hkeys a ha, ← hkeys b hb]
  exact heq

end

end GossipService

/-- A peer believes a restarted node exactly when the pair it has for the node is
below the one of a first round, or it has the node alive at that pair and on the
ring already.  Unless the pair is below, it keeps its entry, and a node off its
ring stays off. -/
theorem restart_believed_iff (hash : String → UInt64) {id address : String}
    {ring : HashRing} {config : GossipConfig}
    {before between : List NodeAction} {started sender : GossipService}
    (hstart : Run (GossipService.next hash) anyAction
      (.new hash id address ring config) before started)
    (hround : Run (GossipService.next hash) anyAction started.beat between sender)
    {g : GossipService} {p : PeerState} {now : Nat} (hother : g.nodeId ≠ id)
    (hring : g.ring.vnodesPerNode = 0 → ¬g.ring.Holds id)
    (hp : g.peers[id]? = some p) :
    (g.Believes hash sender now ↔
      p.rank < rank 1 1 ∧ 1 ≤ g.ring.vnodesPerNode ∨
        p.status = .alive ∧ p.generation = 1 ∧ p.heartbeat = 1 ∧
          g.KeepsPlace hash id (buildNodeStates sender.peers)) ∧
    (¬p.rank < rank 1 1 →
      let after := (g.handleGossip hash sender.buildGossipMessage now).1
      after.peers[id]? = some p ∧ (after.ring.Holds id → g.ring.Holds id)) := by
  have hsender : Restarted id 1 sender :=
    ((Restarted.new hash id address ring config).run hstart).beat.run hround
  -- what the sender repeats of others leaves its own entry alone
  have hold : ∀ nodeState ∈ buildNodeStates sender.peers,
      nodeState.nodeId = id → nodeState.rank ≤ p.rank := by
    intro nodeState hmem hid
    exact (hsender.rank_of_mem hmem hid).trans_le bot_le
  have hkeeps : g.Keeps id p
      ((buildNodeStates sender.peers).foldl (GossipService.handleEntry hash now)
        g) :=
    List.foldlRecOn _ _ ⟨rfl, rfl, hp, fun h => h⟩ fun after h nodeState hmem =>
      h.handleEntry (hold nodeState hmem)
  have hplaces : ∀ position,
      ((buildNodeStates sender.peers).foldl (GossipService.handleEntry hash now)
        g).HoldsAt id position ↔
      g.HoldsAt id position ∧ ∀ nodeState ∈ buildNodeStates sender.peers,
        ¬g.Displaces hash position nodeState := fun position =>
    GossipService.holdsAt_foldl_handleEntry
      (GossipService.nodup_buildNodeStates hsender.keyed)
      fun nodeState hmem hid haccepts =>
        not_lt_of_ge (hold nodeState hmem hid) (haccepts.newer p (hid ▸ hp))
  have hafter : (g.handleGossip hash sender.buildGossipMessage now).1 =
      ((buildNodeStates sender.peers).foldl (GossipService.handleEntry hash now)
        g).handleEntry hash now sender.selfState := by
    simp only [GossipService.handleGossip, GossipService.buildGossipMessage,
      List.foldl_append, List.foldl_cons, List.foldl_nil]
  generalize (buildNodeStates sender.peers).foldl
    (GossipService.handleEntry hash now) g = mid at hkeeps hafter hplaces
  have hself : sender.selfState.nodeId = id := hsender.nodeId
  rw [GossipService.Believes, hafter]
  by_cases hlt : p.rank < rank 1 1
  · have haccepts : mid.Accepts sender.selfState := by
      refine ⟨fun q hq => ?_, ?_⟩
      · obtain rfl := Option.some.inj (hkeeps.entry.symm.trans (hself ▸ hq))
        exact hsender.rank_selfState ▸ hlt
      · rw [hself, hkeeps.nodeId]
        exact hother.symm
    have hnot : ¬(p.generation = 1 ∧ p.heartbeat = 1) := by
      rintro ⟨hgeneration, hheartbeat⟩
      rw [PeerState.rank, hgeneration, hheartbeat] at hlt
      exact lt_irrefl _ hlt
    refine ⟨?_, fun hge => absurd hlt hge⟩
    rw [GossipService.handleEntry_of_accepts haccepts]
    constructor
    · rintro ⟨-, hholds⟩
      refine .inl ⟨hlt, ?_⟩
      rcases (GossipService.holds_ringAfter_selfState mid sender).mp hholds
        with hvnodes | hheld
      · exact hkeeps.vnodes ▸ hvnodes
      · -- a node that is on the ring already has virtual nodes there
        by_contra hnone
        exact hring (by omega) (hkeeps.holds (hsender.nodeId ▸ hheld))
    · rintro (⟨-, hvnodes⟩ | ⟨-, hgeneration, hheartbeat, -⟩)
      · refine ⟨⟨_, ExtTreeMap.getElem?_insert_self, rfl, rfl, rfl⟩, ?_⟩
        exact (GossipService.holds_ringAfter_selfState mid sender).mpr
          (.inl (hkeeps.vnodes ▸ hvnodes))
      · exact absurd ⟨hgeneration, hheartbeat⟩ hnot
  · have hrefuses : ¬mid.Accepts sender.selfState := by
      intro haccepts
      have hnewer := haccepts.newer p (hself ▸ hkeeps.entry)
      exact hlt (hsender.rank_selfState ▸ hnewer)
    rw [GossipService.handleEntry_of_not_accepts hrefuses, hsender.nodeId,
      hsender.generation, hsender.heartbeatCounter]
    refine ⟨?_, fun _ => ⟨hkeeps.entry, hkeeps.holds⟩⟩
    -- the entry and the place must be there already
    constructor
    · rintro ⟨⟨q, hq, hstatus, hgeneration, hheartbeat⟩, position, node, hnode⟩
      obtain rfl := Option.some.inj (hkeeps.entry.symm.trans hq)
      exact .inr ⟨hstatus, hgeneration, hheartbeat, position,
        (hplaces position).mp ⟨node, hnode⟩⟩
    · rintro (⟨hless, -⟩ | ⟨halive, hgeneration, hheartbeat, position, hplace⟩)
      · exact absurd hless hlt
      · obtain ⟨node, hnode⟩ := (hplaces position).mpr hplace
        exact ⟨⟨p, hkeeps.entry, halive, hgeneration, hheartbeat⟩, position,
          node, hnode⟩

def node2Started : GossipService :=
  (GossipService.new Ring.sha256Labels "node2" "10.0.0.2:50051"
    (HashRing.new 1 3) ⟨5000, 15000, 3⟩).addSeed Ring.sha256Labels "node1"
      "10.0.0.1:50051" 0

theorem restart_believed_by_timed_out_seed :
    node2TimedOut.Believes Ring.sha256Labels node2Started.beat 20000 := by
  have hstart : Run (GossipService.next Ring.sha256Labels) anyAction
      (.new Ring.sha256Labels "node2" "10.0.0.2:50051" (HashRing.new 1 3)
        ⟨5000, 15000, 3⟩) [.addSeed "node1" "10.0.0.1:50051" 0] node2Started :=
    .cons trivial rfl (.nil _)
  have hp : node2TimedOut.peers["node2"]? =
      some ⟨"node2", "10.0.0.2:50051", .dead, 0, 0, 0⟩ := by decide +kernel
  have hbelieved : node2TimedOut.Believes Ring.sha256Labels node2Started.beat
      20000 ↔ _ :=
    (restart_believed_iff Ring.sha256Labels hstart (.nil node2Started.beat)
      (by decide +kernel) (by decide +kernel) hp).1
  exact hbelieved.mpr (.inl ⟨by decide +kernel, by decide +kernel⟩)

/-- `node1` after three rounds of `node2` and both timeouts since. -/
def node2Stopped : GossipService :=
  (((GossipService.new Ring.sha256Labels "node1" "10.0.0.1:50051"
    (HashRing.new 1 3) ⟨5000, 15000, 3⟩).step Ring.sha256Labels
      (.handle node2Started.beat.beat.beat.buildGossipMessage 3000)).step
        Ring.sha256Labels (.check 9000)).step Ring.sha256Labels (.check 19000)

/-- Started again, `node2` announces (1, 1) and stays dead and off the ring. -/
theorem restarted_node_stays_dead :
    let after := (node2Stopped.handleGossip Ring.sha256Labels
      node2Started.beat.buildGossipMessage 30000).1
    node2Stopped.peers["node2"]? = some ⟨"node2", "", .dead, 3, 1, 3000⟩ ∧
      ¬node2Stopped.Believes Ring.sha256Labels node2Started.beat 30000 ∧
      after.peers["node2"]? = some ⟨"node2", "", .dead, 3, 1, 3000⟩ ∧
      ¬after.ring.Holds "node2" := by
  have hoff : ¬(node2Stopped.handleGossip Ring.sha256Labels
      node2Started.beat.buildGossipMessage 30000).1.ring.Holds "node2" := by
    decide +kernel
  exact ⟨by decide +kernel, fun hbelieved => hoff hbelieved.2, by decide +kernel,
    hoff⟩

end Rkv.Gossip
