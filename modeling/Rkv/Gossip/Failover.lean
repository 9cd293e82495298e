import Rkv.Gossip.FailureDetection
import Rkv.Gossip.Merging
import Rkv.Ring.Disruption

/-!
# Routing after failures

While nothing new is heard, failure checks are all that changes the ring, and
they only take nodes off it.  Every key's preference list is then the list it
would have had without the peers that are dead: the replicas that are left keep
their order, and the next nodes on the key's walk take the places that are free.
-/

namespace Rkv.Ring.HashRing

open Std (ExtTreeMap)
open Rkv.Foundation

variable {hash : String → UInt64} {r other : HashRing} {keep : String → Bool}

/-- The ring without the nodes that are not kept. -/
def Thinned (keep : String → Bool) (r other : HashRing) : Prop :=
  other.replicationFactor = r.replicationFactor ∧
    ∀ (position : UInt64) (node : Node), other.ring[position]? = some node ↔
      r.ring[position]? = some node ∧ keep node.id = true

theorem Thinned.ring_eq (h : Thinned keep r other) :
    other.ring = r.ring.filter fun _ node => keep node.id := by
  apply ExtTreeMap.ext_getElem?
  intro position
  have hfiltered : (r.ring.filter fun _ node => keep node.id)[position]? =
      (r.ring[position]?).filter fun node => keep node.id := by simp
  rw [hfiltered]
  apply Option.ext
  intro node
  rw [h.2, Option.filter_eq_some_iff]

theorem Thinned.walk (h : Thinned keep r other) (key : String) :
    other.walk hash key =
      (r.walk hash key).filter fun node => keep node.id := by
  have hnodes : other.nodes = r.nodes.filter fun node => keep node.id := by
    simp only [nodes, h.ring_eq, ExtTreeMap.toList_filter, List.filter_map]
    rfl
  have hfrom : other.nodesFrom (hash key) =
      (r.nodesFrom (hash key)).filter fun node => keep node.id := by
    simp only [nodesFrom, h.ring_eq, ExtTreeMap.toList_filter, List.filter_map,
      List.filter_filter]
    congr 1
    apply List.filter_congr
    intro entry _
    exact Bool.and_comm _ _
  rw [HashRing.walk, HashRing.walk, hnodes, hfrom]
  exact (List.filter_append _ _).symm

theorem Thinned.getNodes (h : Thinned keep r other) (key : String) :
    other.getNodes hash key =
      ((r.candidates hash key).filter fun node => keep node.id).take
        (max 1 r.replicationFactor) := by
  rw [getNodes_eq, h.walk, h.1, firstsBy_filter]
  rfl

/-- The nodes of a preference list that are kept stay in front. -/
theorem Thinned.survivors (h : Thinned keep r other) (key : String) :
    (r.getNodes hash key).filter (fun node => keep node.id) <+:
      other.getNodes hash key := by
  rw [h.getNodes, getNodes_eq, List.prefix_take_iff]
  refine ⟨(List.take_prefix _ _).filter _, ?_⟩
  exact (List.length_filter_le _ _).trans (List.length_take_le _ _)

end Rkv.Ring.HashRing

namespace Rkv.Gossip

open Rkv.Foundation
open Rkv.Ring (Node HashRing)

namespace GossipService

variable {hash : String → UInt64} {g start : GossipService}

/-- Nothing new is heard: the node checks for failures or handles what it has
handled before. -/
def NothingNew (g : GossipService) : NodeAction → Prop
  | .check _ => True
  | .handle msg _ => ∀ nodeState ∈ msg.nodes, g.Handled nodeState
  | .addSeed _ _ _ => False

def notDead (g : GossipService) (id : String) : Bool :=
  decide (g.peerStatus id ≠ some .dead)

/-- The ring is the first one without the peers that are dead. -/
structure Thins (start g : GossipService) : Prop where
  deadOff : g.DeadOff
  ring : HashRing.Thinned g.notDead start.ring g.ring

theorem notDead_checkFailures (g : GossipService)
    (suspectTimeout deadTimeout now : Nat) (id : String) :
    (g.checkFailures suspectTimeout deadTimeout now).notDead id = true ↔
      g.notDead id = true ∧ g.expires deadTimeout now id = false := by
  rw [notDead, notDead, decide_eq_true_iff, decide_eq_true_iff, peerStatus,
    peerStatus, getElem?_checkFailures]
  cases hp : g.peers[id]? with
  | none => simp [expires, hp]
  | some p =>
      have hdead := statusAfter_eq_dead_iff suspectTimeout deadTimeout now hp
      simp only [Option.map_some, ne_eq, Option.some.injEq, hdead, not_or,
        Bool.not_eq_true]

theorem replicationFactor_checkFailures (g : GossipService)
    (suspectTimeout deadTimeout now : Nat) :
    (g.checkFailures suspectTimeout deadTimeout now).ring.replicationFactor =
      g.ring.replicationFactor := by
  rw [checkFailures]
  exact List.foldlRecOn (motive := fun ring : HashRing =>
      ring.replicationFactor = g.ring.replicationFactor) _ _ rfl
    fun _ h _ _ => h

theorem Thins.step (h : start.Thins g) {action : NodeAction}
    (hguard : g.NothingNew action) : start.Thins (g.step hash action) := by
  cases action with
  | addSeed nodeId address now => exact absurd hguard id
  | handle msg now =>
      rw [GossipService.step, handleGossip_of_handled hguard]
      exact h
  | check now =>
      refine ⟨h.deadOff.step hash (.check now), ?_, fun position node => ?_⟩
      · exact (g.replicationFactor_checkFailures ..).trans h.ring.1
      · rw [GossipService.step, getElem?_ring_checkFailures h.deadOff.keyed,
          h.ring.2, notDead_checkFailures, and_assoc]

theorem DeadOff.thins (h : g.DeadOff) : g.Thins g where
  deadOff := h
  ring := by
    refine ⟨rfl, fun position node => (and_iff_left_of_imp fun hnode => ?_).symm⟩
    simp only [notDead, decide_eq_true_eq, peerStatus, ne_eq,
      Option.map_eq_some_iff, not_exists, not_and]
    intro p hp hdead
    exact h.off node.id p hp hdead ⟨position, node, hnode, rfl⟩

end GossipService

/-- From any state of a run on, while nothing new is heard, every key's
preference list is what its walk of the ring gives without the peers that have
died, and the old list's survivors are its front, in their order. -/
theorem failover_exact (hash : String → UInt64) (own address : String)
    (ring : HashRing) (config : GossipConfig) {before after : List NodeAction}
    {g later : GossipService}
    (hbefore : Run (GossipService.next hash) anyAction
      (.new hash own address ring config) before g)
    (hafter : Run (GossipService.next hash) GossipService.NothingNew g after
      later) (key : String) :
    later.ring.getNodes hash key =
        ((g.ring.candidates hash key).filter fun node =>
          later.notDead node.id).take (max 1 g.ring.replicationFactor) ∧
      (g.ring.getNodes hash key).filter (fun node => later.notDead node.id) <+:
        later.ring.getNodes hash key := by
  have hoff : g.DeadOff := hbefore.invariant
    (fun g action t h _ hnext => Option.some.inj hnext ▸ h.step hash action)
    (.new hash own address ring config)
  have hthins : g.Thins later := hafter.invariant
    (fun _ _ _ h hguard hnext => Option.some.inj hnext ▸ h.step hguard)
    hoff.thins
  exact ⟨hthins.ring.getNodes key, hthins.ring.survivors key⟩

def threeSeeded : List NodeAction :=
  [.addSeed "node2" "10.0.0.2:50051" 0, .addSeed "node3" "10.0.0.3:50051" 12000]

/-- Of the replicas `node3`, `node2` and `node1` the second dies. -/
theorem failover_exact_of_three :
    ∃ g later, Run (GossipService.next Ring.sha256Labels) anyAction node1Started
        threeSeeded g ∧
      Run (GossipService.next Ring.sha256Labels) GossipService.NothingNew g
        [.check 16000, .check 16001] later ∧
      (g.ring.getNodes Ring.sha256Labels "k").map Node.id =
        ["node3", "node2", "node1"] ∧
      (later.ring.getNodes Ring.sha256Labels "k").map Node.id =
        ["node3", "node1"] := by
  let g := threeSeeded.foldl (GossipService.step Ring.sha256Labels) node1Started
  let later := (g.step Ring.sha256Labels (.check 16000)).step Ring.sha256Labels
    (.check 16001)
  have hbefore : Run (GossipService.next Ring.sha256Labels) anyAction
      node1Started threeSeeded g :=
    .cons trivial rfl (.cons trivial rfl (.nil _))
  have hafter : Run (GossipService.next Ring.sha256Labels)
      GossipService.NothingNew g [.check 16000, .check 16001] later :=
    .cons trivial rfl (.cons trivial rfl (.nil _))
  refine ⟨g, later, hbefore, hafter, by decide +kernel, ?_⟩
  rw [(failover_exact Ring.sha256Labels "node1" "10.0.0.1:50051"
    (HashRing.new 1 3) ⟨5000, 15000, 3⟩ hbefore hafter "k").1]
  decide +kernel

end Rkv.Gossip
