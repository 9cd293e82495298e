import Rkv.Gossip.Steps

/-!
# What a node knows of its peers does not go back

Once the seeds are registered, an entry of the table is only replaced by one with
a greater generation and heartbeat, and a failure check changes nothing but the
status.  A dead peer is off the ring, and a message that brings it back carries an
alive entry newer than the one it was dead at.
-/

namespace Rkv.Gossip

open Std (ExtTreeMap)
open Rkv.Foundation
open Rkv.Ring (Node HashRing)

def NodeAction.isSeed : NodeAction → Bool
  | addSeed _ _ _ => true
  | _ => false

/-- Start-up is over: no seed is registered. -/
def Running (_ : GossipService) (action : NodeAction) : Prop :=
  action.isSeed = false

def NodeAction.Revives (id : String) (r : ℕ ×ₗ ℕ) : NodeAction → Prop
  | handle msg _ => ∃ nodeState ∈ msg.nodes, nodeState.nodeId = id ∧
      NodeStatus.ofCode nodeState.status = .alive ∧ r < nodeState.rank
  | _ => False

namespace GossipService

variable {hash : String → UInt64} {g : GossipService} {now : Nat}
  {nodeState : Proto.NodeState}

/-! ## Ranks -/

def Knows (g : GossipService) (id : String) (r : ℕ ×ₗ ℕ) : Prop :=
  ∃ p, g.peers[id]? = some p ∧ r ≤ p.rank

namespace Knows

variable {id : String} {r : ℕ ×ₗ ℕ}

theorem handleEntry (h : g.Knows id r) (hash : String → UInt64) (now : Nat)
    (nodeState : Proto.NodeState) :
    (g.handleEntry hash now nodeState).Knows id r := by
  obtain ⟨p, hp, hle⟩ := h
  by_cases haccepts : g.Accepts nodeState
  · rw [Knows, getElem?_handleEntry haccepts]
    by_cases hid : nodeState.nodeId = id
    · have hlt := haccepts.newer p (hid.symm ▸ hp)
      exact ⟨_, if_pos hid, hle.trans hlt.le⟩
    · exact ⟨p, by rw [if_neg hid, hp], hle⟩
  · rw [handleEntry_of_not_accepts haccepts]
    exact ⟨p, hp, hle⟩

theorem checkFailures (h : g.Knows id r) (suspectTimeout deadTimeout now : Nat) :
    (g.checkFailures suspectTimeout deadTimeout now).Knows id r := by
  obtain ⟨p, hp, hle⟩ := h
  rw [Knows, getElem?_checkFailures, hp]
  exact ⟨_, rfl, hle⟩

theorem step (h : g.Knows id r) {action : NodeAction}
    (hrunning : Running g action) : (g.step hash action).Knows id r := by
  cases action with
  | addSeed nodeId address now => contradiction
  | handle msg now =>
      exact handleGossip_induction (I := fun g => g.Knows id r)
        (fun g nodeState _ hg => hg.handleEntry hash now nodeState) h
  | check now => exact h.checkFailures _ _ now

end Knows

/-! ## Dead peers -/

theorem holds_of_holds_ringAfter {id : String}
    (h : (g.ringAfter hash nodeState).Holds id) :
    g.ring.Holds id ∨
      id = nodeState.nodeId ∧ NodeStatus.ofCode nodeState.status = .alive := by
  unfold ringAfter at h
  cases hcode : NodeStatus.ofCode nodeState.status with
  | dead =>
      rw [hcode] at h
      exact .inl (HashRing.holds_removeNode.mp h).1
  | alive =>
      rw [hcode] at h
      rcases HashRing.holds_of_holds_addNode h with hid | hold
      · exact .inr ⟨hid, rfl⟩
      · exact .inl hold
  | suspect =>
      rw [hcode] at h
      exact .inl h

theorem holds_checkFailures {suspectTimeout deadTimeout : Nat}
    (hkeyed : Keyed g.peers) {id : String} :
    (g.checkFailures suspectTimeout deadTimeout now).ring.Holds id ↔
      g.ring.Holds id ∧ g.expires deadTimeout now id = false := by
  simp only [HashRing.Holds, getElem?_ring_checkFailures hkeyed]
  constructor
  · rintro ⟨position, node, ⟨hentry, hkept⟩, rfl⟩
    exact ⟨⟨position, node, hentry, rfl⟩, hkept⟩
  · rintro ⟨⟨position, node, hentry, rfl⟩, hkept⟩
    exact ⟨position, node, ⟨hentry, hkept⟩, rfl⟩

structure DeadOff (g : GossipService) : Prop where
  keyed : Keyed g.peers
  off : ∀ id p, g.peers[id]? = some p → p.status = .dead → ¬g.ring.Holds id

namespace DeadOff

theorem new (hash : String → UInt64) (own address : String) (ring : HashRing)
    (config : GossipConfig) : DeadOff (.new hash own address ring config) where
  keyed := by simp [Keyed, GossipService.new]
  off := by simp [GossipService.new]

theorem addSeed (h : DeadOff g) (hash : String → UInt64)
    (nodeId address : String) (now : Nat) :
    DeadOff (g.addSeed hash nodeId address now) where
  keyed := h.keyed.insert ⟨nodeId, address, .alive, 0, 0, now⟩
  off := by
    intro id p hp hdead hholds
    simp only [GossipService.addSeed, ExtTreeMap.getElem?_insert,
      compare_eq_iff_eq] at hp
    split at hp
    · cases hp
      contradiction
    · rename_i hne
      rcases HashRing.holds_of_holds_addNode hholds with rfl | hold
      · exact hne rfl
      · exact h.off id p hp hdead hold

theorem handleEntry (h : DeadOff g) (hash : String → UInt64) (now : Nat)
    (nodeState : Proto.NodeState) :
    DeadOff (g.handleEntry hash now nodeState) := by
  refine ⟨keyed_handleEntry hash h.keyed now nodeState, ?_⟩
  by_cases haccepts : g.Accepts nodeState
  · intro id p hp hdead hholds
    rw [getElem?_handleEntry haccepts] at hp
    rw [handleEntry_of_accepts haccepts] at hholds
    split at hp
    · rename_i hid
      cases hp
      have hcode : NodeStatus.ofCode nodeState.status = .dead := hdead
      simp only [ringAfter, hcode, HashRing.holds_removeNode] at hholds
      exact hholds.2 hid.symm
    · rename_i hid
      rcases holds_of_holds_ringAfter hholds with hold | ⟨heq, -⟩
      · exact h.off id p hp hdead hold
      · exact hid heq.symm
  · rw [handleEntry_of_not_accepts haccepts]
    exact h.off

theorem step (h : DeadOff g) (hash : String → UInt64) (action : NodeAction) :
    DeadOff (g.step hash action) := by
  cases action with
  | addSeed nodeId address now => exact h.addSeed hash nodeId address now
  | handle msg now =>
      exact handleGossip_induction
        (fun g nodeState _ hg => hg.handleEntry hash now nodeState) h
  | check now =>
      refine ⟨keyed_step hash h.keyed (.check now), ?_⟩
      intro id p hp hdead hholds
      rw [GossipService.step, getElem?_checkFailures,
        Option.map_eq_some_iff] at hp
      obtain ⟨old, hold, rfl⟩ := hp
      rw [GossipService.step, holds_checkFailures h.keyed] at hholds
      rcases (statusAfter_eq_dead_iff _ _ now hold).mp hdead with hwas | hexpires
      · exact h.off id old hold hwas hholds.1
      · rw [hholds.2] at hexpires
        contradiction

end DeadOff

/-! ## Coming back -/

structure OffSince (g : GossipService) (id : String) (r : ℕ ×ₗ ℕ) : Prop where
  knows : g.Knows id r
  keyed : Keyed g.peers
  off : ¬g.ring.Holds id

namespace OffSince

variable {id : String} {r : ℕ ×ₗ ℕ}

/-- An entry that puts the peer back is alive and newer than what was known. -/
theorem handleEntry (h : g.OffSince id r) (hash : String → UInt64) (now : Nat)
    (hnot : ¬(nodeState.nodeId = id ∧
      NodeStatus.ofCode nodeState.status = .alive ∧ r < nodeState.rank)) :
    (g.handleEntry hash now nodeState).OffSince id r := by
  refine ⟨h.knows.handleEntry hash now nodeState,
    keyed_handleEntry hash h.keyed now nodeState, fun hholds => ?_⟩
  by_cases haccepts : g.Accepts nodeState
  · rw [handleEntry_of_accepts haccepts] at hholds
    rcases holds_of_holds_ringAfter hholds with hold | ⟨rfl, halive⟩
    · exact h.off hold
    · obtain ⟨p, hp, hle⟩ := h.knows
      exact hnot ⟨rfl, halive, hle.trans_lt (haccepts.newer p hp)⟩
  · rw [handleEntry_of_not_accepts haccepts] at hholds
    exact h.off hholds

theorem step (h : g.OffSince id r) {action : NodeAction}
    (hrunning : Running g action) (hnot : ¬action.Revives id r) :
    (g.step hash action).OffSince id r := by
  cases action with
  | addSeed nodeId address now => contradiction
  | handle msg now =>
      refine handleGossip_induction (I := fun g => g.OffSince id r)
        (fun g nodeState hmem hg => hg.handleEntry hash now fun hrevives => ?_) h
      exact hnot ⟨nodeState, hmem, hrevives⟩
  | check now =>
      refine ⟨h.knows.step hrunning, keyed_step hash h.keyed (.check now), ?_⟩
      intro hholds
      rw [GossipService.step, holds_checkFailures h.keyed] at hholds
      exact h.off hholds.1

end OffSince

def startUp (hash : String → UInt64) (own address : String) (ring : HashRing)
    (config : GossipConfig) (seeds : List (String × String × Nat)) :
    GossipService :=
  seeds.foldl (fun g seed => g.addSeed hash seed.1 seed.2.1 seed.2.2)
    (.new hash own address ring config)

theorem deadOff_startUp (hash : String → UInt64) (own address : String)
    (ring : HashRing) (config : GossipConfig)
    (seeds : List (String × String × Nat)) :
    DeadOff (startUp hash own address ring config seeds) :=
  List.foldlRecOn seeds _ (.new hash own address ring config)
    fun _ h seed _ => h.addSeed hash seed.1 seed.2.1 seed.2.2

end GossipService

/-- Between two points of a run every peer stays in the table with a rank that
does not go down, and one that is dead at the first point is off the ring there
and on it later only if a message in between brought an alive entry with a
greater rank. -/
theorem knowledge_never_regresses (hash : String → UInt64)
    (own address : String) (ring : HashRing) (config : GossipConfig)
    (seeds : List (String × String × Nat)) {before after : List NodeAction}
    {g later : GossipService}
    (hbefore : Run (GossipService.next hash) Running
      (.startUp hash own address ring config seeds) before g)
    (hafter : Run (GossipService.next hash) Running g after later)
    {id : String} {p : PeerState} (hp : g.peers[id]? = some p) :
    (∃ q, later.peers[id]? = some q ∧ p.rank ≤ q.rank) ∧
      (p.status = .dead → ¬g.ring.Holds id ∧
        (later.ring.Holds id →
          ∃ msg now, NodeAction.handle msg now ∈ after ∧
            ∃ nodeState ∈ msg.nodes, nodeState.nodeId = id ∧
              NodeStatus.ofCode nodeState.status = .alive ∧
              p.rank < nodeState.rank)) := by
  have hoff : g.DeadOff := hbefore.invariant
    (fun g action t h _ hnext => Option.some.inj hnext ▸ h.step hash action)
    (GossipService.deadOff_startUp hash own address ring config seeds)
  have hknows : g.Knows id p.rank := ⟨p, hp, le_rfl⟩
  refine ⟨?_, fun hdead => ⟨hoff.off id p hp hdead, fun hback => ?_⟩⟩
  · exact hafter.invariant (I := fun g => g.Knows id p.rank)
      (fun g action t h hrunning hnext =>
        Option.some.inj hnext ▸ h.step hrunning) hknows
  · by_contra hnone
    -- without such a message no step puts the peer back
    have hnot : ∀ action ∈ after, ¬action.Revives id p.rank := by
      intro action haction hrevives
      cases action with
      | addSeed nodeId seedAddr now => exact hrevives
      | handle msg now => exact hnone ⟨msg, now, haction, hrevives⟩
      | check now => exact hrevives
    have hstill : later.OffSince id p.rank := (hafter.restrict hnot).invariant
      (I := fun g => g.OffSince id p.rank)
      (fun g action t h hguard hnext =>
        Option.some.inj hnext ▸ h.step hguard.1 hguard.2)
      ⟨hknows, hoff.keyed, hoff.off id p hp hdead⟩
    exact hstill.off hback

/-- `node1` after both timeouts of its seed `node2`. -/
def node2TimedOut : GossipService :=
  ((GossipService.startUp Ring.sha256Labels "node1" "10.0.0.1:50051"
    (HashRing.new 1 3) ⟨5000, 15000, 3⟩ [("node2", "10.0.0.2:50051", 0)]).step
      Ring.sha256Labels (.check 6000)).step Ring.sha256Labels (.check 16000)

def node2Answers : NodeAction :=
  .handle ⟨"node3", [⟨"node2", "10.0.0.2:50051", 0, 3, 1⟩]⟩ 17000

theorem knowledge_of_timed_out_seed :
    let later := node2TimedOut.step Ring.sha256Labels node2Answers
    (node2TimedOut.peers["node2"]?.map (·.status)) = some .dead ∧
      ¬node2TimedOut.ring.Holds "node2" ∧ later.ring.Holds "node2" ∧
      (∃ q, later.peers["node2"]? = some q ∧ rank 0 0 ≤ q.rank) ∧
      ∃ msg : Proto.GossipMessage, ∃ nodeState ∈ msg.nodes,
        nodeState.nodeId = "node2" ∧
          NodeStatus.ofCode nodeState.status = .alive ∧
          rank 0 0 < nodeState.rank := by
  intro later
  have hp : node2TimedOut.peers["node2"]? =
      some ⟨"node2", "10.0.0.2:50051", .dead, 0, 0, 0⟩ := by decide +kernel
  have hbefore : Run (GossipService.next Ring.sha256Labels) Running
      (.startUp Ring.sha256Labels "node1" "10.0.0.1:50051" (HashRing.new 1 3)
        ⟨5000, 15000, 3⟩ [("node2", "10.0.0.2:50051", 0)])
      [.check 6000, .check 16000] node2TimedOut :=
    .cons rfl rfl (.cons rfl rfl (.nil _))
  have hafter : Run (GossipService.next Ring.sha256Labels) Running
      node2TimedOut [node2Answers] later := .cons rfl rfl (.nil _)
  obtain ⟨hkept, hdead⟩ := knowledge_never_regresses Ring.sha256Labels "node1"
    "10.0.0.1:50051" (HashRing.new 1 3) ⟨5000, 15000, 3⟩
    [("node2", "10.0.0.2:50051", 0)] hbefore hafter hp
  have hback : later.ring.Holds "node2" := by decide +kernel
  obtain ⟨hoff, hbrought⟩ := hdead rfl
  refine ⟨by rw [hp]; rfl, hoff, hback, hkept, ?_⟩
  obtain ⟨msg, now, -, nodeState, hmem, hentry⟩ := hbrought hback
  exact ⟨msg, nodeState, hmem, hentry⟩

end Rkv.Gossip
