import Rkv.Foundation.Run
import Rkv.Gossip.Detector

/-!
# What one step does to the table and the ring

An entry is taken when its generation and heartbeat are past what the table has
for its node.  The lemmas here say what a taken entry and a failure check leave
at each id of the table and each position of the ring; the later modules do not
unfold the operations.
-/

namespace Rkv.Gossip

open Std (ExtTreeMap)
open Rkv.Foundation
open Rkv.Ring (Node HashRing)

/-! ## Generation and heartbeat -/

def rank (generation heartbeat : UInt64) : ℕ ×ₗ ℕ :=
  toLex (generation.toNat, heartbeat.toNat)

theorem rank_lt_iff {g h g' h' : UInt64} :
    rank g h < rank g' h' ↔ g < g' ∨ g = g' ∧ h < h' := by
  simp only [rank, Prod.Lex.toLex_lt_toLex, UInt64.toNat_inj,
    UInt64.lt_iff_toNat_lt]

theorem rank_inj {g h g' h' : UInt64} (heq : rank g h = rank g' h') :
    g = g' ∧ h = h' := by
  have hpair := toLex_inj.mp heq
  exact ⟨UInt64.toNat_inj.mp (congrArg Prod.fst hpair),
    UInt64.toNat_inj.mp (congrArg Prod.snd hpair)⟩

def PeerState.rank (p : PeerState) : ℕ ×ₗ ℕ :=
  Gossip.rank p.generation p.heartbeat

def Proto.NodeState.rank (nodeState : Proto.NodeState) : ℕ ×ₗ ℕ :=
  Gossip.rank nodeState.generation nodeState.heartbeat

@[simp] theorem rank_peerOf (nodeState : Proto.NodeState) (now : Nat) :
    (peerOf nodeState now).rank = nodeState.rank := rfl

@[simp] theorem rank_stateOf (p : PeerState) : (stateOf p).rank = p.rank := rfl

@[simp] theorem NodeStatus.ofCode_code (status : NodeStatus) :
    NodeStatus.ofCode status.code = status := by
  cases status <;> rfl

theorem shouldUpdate_iff {peers : PeerMap} {nodeState : Proto.NodeState} :
    shouldUpdate peers nodeState = true ↔
      ∀ p, peers[nodeState.nodeId]? = some p → p.rank < nodeState.rank := by
  unfold shouldUpdate
  cases hp : peers[nodeState.nodeId]? with
  | none => simp
  | some existing =>
      simp only [Option.some.injEq, forall_eq', PeerState.rank,
        Proto.NodeState.rank, rank_lt_iff, Bool.or_eq_true, decide_eq_true_eq,
        Bool.and_eq_true, beq_iff_eq]
      rw [eq_comm (a := existing.generation)]

/-! ## Entries -/

def Keyed (peers : PeerMap) : Prop :=
  ∀ (id : String) (p : PeerState), peers[id]? = some p → p.nodeId = id

theorem Keyed.insert {peers : PeerMap} (h : Keyed peers) (p : PeerState) :
    Keyed (peers.insert p.nodeId p) := by
  intro id found hfound
  rw [ExtTreeMap.getElem?_insert] at hfound
  split at hfound
  · rename_i heq
    cases hfound
    exact compare_eq_iff_eq.mp heq
  · exact h id found hfound

namespace GossipService

/-- The entry is about another node and newer than what is known of it. -/
structure Accepts (g : GossipService) (nodeState : Proto.NodeState) : Prop where
  newer : ∀ p, g.peers[nodeState.nodeId]? = some p → p.rank < nodeState.rank
  ne : nodeState.nodeId ≠ g.nodeId

variable {hash : String → UInt64} {g : GossipService} {now : Nat}
  {nodeState : Proto.NodeState}

def ringAfter (hash : String → UInt64) (g : GossipService)
    (nodeState : Proto.NodeState) : HashRing :=
  match NodeStatus.ofCode nodeState.status with
  | .dead => g.ring.removeNode nodeState.nodeId
  | .alive => g.ring.addNode hash ⟨nodeState.nodeId, nodeState.address⟩
  | .suspect => g.ring

theorem handleEntry_of_accepts (h : g.Accepts nodeState) :
    g.handleEntry hash now nodeState =
      { g with
        ring := g.ringAfter hash nodeState
        peers := g.peers.insert nodeState.nodeId (peerOf nodeState now) } := by
  unfold handleEntry
  rw [if_pos (by simp [shouldUpdate_iff.mpr h.newer, h.ne])]
  rfl

theorem handleEntry_of_not_accepts (h : ¬g.Accepts nodeState) :
    g.handleEntry hash now nodeState = g := by
  unfold handleEntry
  rw [if_neg]
  intro htaken
  simp only [Bool.and_eq_true, decide_eq_true_eq] at htaken
  exact h ⟨shouldUpdate_iff.mp htaken.1, htaken.2⟩

theorem handleEntry_frame (hash : String → UInt64) (now : Nat)
    (g : GossipService) (nodeState : Proto.NodeState) :
    (g.handleEntry hash now nodeState).nodeId = g.nodeId ∧
      (g.handleEntry hash now nodeState).config = g.config ∧
      (g.handleEntry hash now nodeState).generation = g.generation ∧
      (g.handleEntry hash now nodeState).heartbeatCounter =
        g.heartbeatCounter := by
  unfold handleEntry
  split <;> exact ⟨rfl, rfl, rfl, rfl⟩

theorem getElem?_handleEntry (h : g.Accepts nodeState) (id : String) :
    (g.handleEntry hash now nodeState).peers[id]? =
      if nodeState.nodeId = id then some (peerOf nodeState now)
      else g.peers[id]? := by
  rw [handleEntry_of_accepts h]
  simp only [ExtTreeMap.getElem?_insert, compare_eq_iff_eq]

/-- What holds of a node and is kept by each entry of a message holds after the
message. -/
theorem handleGossip_induction {I : GossipService → Prop}
    {msg : Proto.GossipMessage}
    (hentry : ∀ g nodeState, nodeState ∈ msg.nodes → I g →
      I (g.handleEntry hash now nodeState))
    (hg : I g) : I (g.handleGossip hash msg now).1 :=
  List.foldlRecOn msg.nodes _ hg fun g hg nodeState hmem =>
    hentry g nodeState hmem hg

theorem handleGossip_frame (hash : String → UInt64) (g : GossipService)
    (msg : Proto.GossipMessage) (now : Nat) :
    (g.handleGossip hash msg now).1.nodeId = g.nodeId ∧
      (g.handleGossip hash msg now).1.config = g.config ∧
      (g.handleGossip hash msg now).1.generation = g.generation ∧
      (g.handleGossip hash msg now).1.heartbeatCounter = g.heartbeatCounter := by
  refine handleGossip_induction (I := fun after => after.nodeId = g.nodeId ∧
    after.config = g.config ∧ after.generation = g.generation ∧
    after.heartbeatCounter = g.heartbeatCounter)
    (fun after nodeState _ h => ?_) ⟨rfl, rfl, rfl, rfl⟩
  obtain ⟨hid, hconfig, hgeneration, hheartbeat⟩ :=
    handleEntry_frame hash now after nodeState
  exact ⟨hid.trans h.1, hconfig.trans h.2.1, hgeneration.trans h.2.2.1,
    hheartbeat.trans h.2.2.2⟩

/-! ## Failure checks -/

/-- A check with this reading declares the peer dead. -/
def expires (g : GossipService) (deadTimeout now : Nat) (id : String) : Bool :=
  (g.peers[id]?).any fun p =>
    p.status = .suspect && decide (deadTimeout < now - p.lastSeen)

section

variable {suspectTimeout deadTimeout : Nat}

theorem dies_iff (suspectTimeout deadTimeout now : Nat) (p : PeerState) :
    (p.status ≠ .dead ∧ statusAfter suspectTimeout deadTimeout now p = .dead) ↔
      p.status = .suspect ∧ deadTimeout < now - p.lastSeen := by
  unfold statusAfter
  cases hstatus : p.status with
  | alive =>
      dsimp only
      split <;> simp
  | suspect =>
      dsimp only
      split <;> simp_all
  | dead => simp

theorem statusAfter_eq_dead_iff (suspectTimeout deadTimeout now : Nat)
    {id : String} {p : PeerState} (hp : g.peers[id]? = some p) :
    statusAfter suspectTimeout deadTimeout now p = .dead ↔
      p.status = .dead ∨ g.expires deadTimeout now id = true := by
  have hdies := dies_iff suspectTimeout deadTimeout now p
  simp only [expires, hp, Option.any_some, Bool.and_eq_true, decide_eq_true_eq]
  rw [← hdies]
  by_cases hdead : p.status = .dead
  · simp [hdead, statusAfter]
  · simp [hdead]

theorem getElem?_checkFailures (g : GossipService) (id : String) :
    (g.checkFailures suspectTimeout deadTimeout now).peers[id]? =
      (g.peers[id]?).map fun p =>
        { p with status := statusAfter suspectTimeout deadTimeout now p } := by
  simp [checkFailures]

theorem getElem?_foldl_removeNode (died : List PeerState) (r : HashRing)
    {position : UInt64} {node : Node} :
    (died.foldl (fun ring p => ring.removeNode p.nodeId) r).ring[position]? =
        some node ↔
      r.ring[position]? = some node ∧ ∀ p ∈ died, p.nodeId ≠ node.id := by
  induction died using List.reverseRecOn with
  | nil => simp
  | append_singleton died p ih =>
      rw [List.foldl_append, List.foldl_cons, List.foldl_nil,
        HashRing.getElem?_removeNode, Option.filter_eq_some_iff, ih]
      simp only [List.forall_mem_append, List.forall_mem_singleton,
        decide_eq_true_eq, ne_comm, and_assoc]

theorem vnodesPerNode_checkFailures (g : GossipService) :
    (g.checkFailures suspectTimeout deadTimeout now).ring.vnodesPerNode =
      g.ring.vnodesPerNode := by
  rw [checkFailures]
  dsimp only
  generalize List.filter _ _ = died
  induction died using List.reverseRecOn with
  | nil => rfl
  | append_singleton died p ih =>
      rw [List.foldl_append]
      exact ih

/-- A check takes the peers that expire off the ring. -/
theorem getElem?_ring_checkFailures (hkeyed : Keyed g.peers) {position : UInt64}
    {node : Node} :
    (g.checkFailures suspectTimeout deadTimeout now).ring.ring[position]? =
        some node ↔
      g.ring.ring[position]? = some node ∧
        g.expires deadTimeout now node.id = false := by
  rw [checkFailures]
  dsimp only
  rw [getElem?_foldl_removeNode]
  refine and_congr_right fun _ => ?_
  rw [← Bool.not_eq_true, expires, Option.any_eq_true]
  constructor
  · rintro hnone ⟨p, hp, hexpired⟩
    simp only [Bool.and_eq_true, decide_eq_true_eq] at hexpired
    refine hnone p (List.mem_filter.mpr ⟨?_, ?_⟩) (hkeyed _ p hp)
    · exact List.mem_map.mpr ⟨(node.id, p),
        ExtTreeMap.mem_toList_iff_getElem?_eq_some.mpr hp, rfl⟩
    · simpa using (dies_iff _ _ _ p).mpr hexpired
  · intro hnone p hp hid
    obtain ⟨hmem, hdies⟩ := List.mem_filter.mp hp
    obtain ⟨⟨id, found⟩, hentry, rfl⟩ := List.mem_map.mp hmem
    have hfound := ExtTreeMap.mem_toList_iff_getElem?_eq_some.mp hentry
    have hkey : node.id = id := hid.symm.trans (hkeyed id found hfound)
    refine hnone ⟨found, ?_, ?_⟩
    · rw [hkey]
      exact hfound
    · simpa using (dies_iff _ _ _ found).mp (by simpa using hdies)

end

/-! ## Steps -/

end GossipService

inductive NodeAction where
  | addSeed (nodeId address : String) (now : Nat)
  | handle (msg : Proto.GossipMessage) (now : Nat)
  | check (now : Nat)

def NodeAction.ids : NodeAction → List String
  | addSeed nodeId _ _ => [nodeId]
  | handle msg _ => msg.nodes.map (·.nodeId)
  | check _ => []

namespace GossipService

def step (hash : String → UInt64) (g : GossipService) :
    NodeAction → GossipService
  | .addSeed nodeId address now => g.addSeed hash nodeId address now
  | .handle msg now => (g.handleGossip hash msg now).1
  | .check now =>
      g.checkFailures g.config.suspectTimeout g.config.deadTimeout now

def next (hash : String → UInt64) (g : GossipService) (action : NodeAction) :
    Option GossipService :=
  some (g.step hash action)

section

variable {g : GossipService}

theorem keyed_handleEntry (hash : String → UInt64) (h : Keyed g.peers)
    (now : Nat) (nodeState : Proto.NodeState) :
    Keyed (g.handleEntry hash now nodeState).peers := by
  by_cases haccepts : g.Accepts nodeState
  · rw [handleEntry_of_accepts haccepts]
    exact h.insert (peerOf nodeState now)
  · rw [handleEntry_of_not_accepts haccepts]
    exact h

theorem keyed_step (hash : String → UInt64) (h : Keyed g.peers)
    (action : NodeAction) :
    Keyed (g.step hash action).peers := by
  cases action with
  | addSeed nodeId address now =>
      exact h.insert ⟨nodeId, address, .alive, 0, 0, now⟩
  | handle msg now =>
      exact handleGossip_induction (I := fun g => Keyed g.peers)
        (fun _ _ _ hg => keyed_handleEntry hash hg now _) h
  | check now =>
      intro id p hp
      rw [GossipService.step, getElem?_checkFailures,
        Option.map_eq_some_iff] at hp
      obtain ⟨old, hold, rfl⟩ := hp
      exact h id old hold

end

end GossipService

end Rkv.Gossip
