import Rkv.Gossip.RingAgreement
import Rkv.Storage.Wal

/-!
# A node's own entry on its ring

Messages cannot touch a node's own entry, but its own id can get into its table
as a seed.  Nothing ever refreshes that peer, so the failure detector suspects it
and then takes it off the ring.
-/

namespace Rkv.Gossip

open Std (ExtTreeMap)
open Rkv.Foundation
open Rkv.Ring (Node HashRing NoCollisions)
open Rkv.Storage (isWhitespace)

/-! ## The seeds flag -/

def trim (text : List Char) : List Char :=
  (text.dropWhile isWhitespace).rdropWhile isWhitespace

def parseSeed (seed : List Char) : Option (String × String) :=
  match seed.splitOn '=' with
  | [seedId, seedAddr] =>
      some (String.ofList (trim seedId), String.ofList (trim seedAddr))
  | _ => none

/-- The seeds that `--seeds` names; a part that is not of the form `id=address`
is left out. -/
def parseSeeds (seeds : String) : List (String × String) :=
  if seeds = "" then [] else (seeds.toList.splitOn ',').filterMap parseSeed

def seedActions (seeds : String) (now : Nat) : List NodeAction :=
  (parseSeeds seeds).map fun (seedId, seedAddr) => .addSeed seedId seedAddr now

example :
    parseSeeds "node2=10.0.0.2:50051, node3 = 10.0.0.3:50051,node4" =
      [("node2", "10.0.0.2:50051"), ("node3", "10.0.0.3:50051")] := by
  decide +kernel

/-! ## Own entries -/

/-- The node is on its own ring, and under no address but its own. -/
def OwnEntry (own address : String) (g : GossipService) : Prop :=
  g.ring.Holds own ∧
    ∀ (position : UInt64) (node : Node),
      g.ring.ring[position]? = some node → node.id = own →
        node.address = address

/-- No seed names the node at another address, and no failure check finds it
suspect in its own table for longer than the timeout. -/
def SparesOwn (own address : String) (g : GossipService) : NodeAction → Prop
  | .addSeed nodeId seedAddr _ => nodeId = own → seedAddr = address
  | .handle _ _ => True
  | .check now => g.expires g.config.deadTimeout now own = false

def TracksOwn (hash : String → UInt64) (vnodes : Nat) (ids : List String)
    (own address : String) (g : GossipService) : Prop :=
  g.nodeId = own ∧ ∃ members, Tracks hash vnodes ids g members ∧
    members own = some address

namespace TracksOwn

variable {hash : String → UInt64} {vnodes : Nat} {ids : List String}
  {own address : String} {g : GossipService}

theorem ownEntry (h : TracksOwn hash vnodes ids own address g)
    (hvnodes : 1 ≤ vnodes) : OwnEntry own address g := by
  obtain ⟨-, members, htracks, hown⟩ := h
  constructor
  · rw [htracks.ring.holds_iff (htracks.vnodesPerNode.symm ▸ hvnodes)]
    exact ⟨address, hown⟩
  · rintro position node hentry rfl
    have hmember := ((htracks.ring position node).mp hentry).1
    exact Option.some.inj (hmember.symm.trans hown)

theorem handleEntry (h : TracksOwn hash vnodes ids own address g)
    (hcollide : NoCollisions hash vnodes ids) {nodeState : Proto.NodeState}
    (hid : nodeState.nodeId ∈ ids) (now : Nat) :
    TracksOwn hash vnodes ids own address (g.handleEntry hash now nodeState) := by
  obtain ⟨hnodeId, members, htracks, hown⟩ := h
  by_cases haccepts : g.Accepts nodeState
  · have hne : own ≠ nodeState.nodeId := hnodeId ▸ haccepts.ne.symm
    refine ⟨(GossipService.handleEntry_frame hash now g nodeState).1.trans hnodeId,
      _, htracks.handleEntry hcollide hid haccepts now, ?_⟩
    rw [membersAfter, Function.update_of_ne hne]
    exact hown
  · rw [GossipService.handleEntry_of_not_accepts haccepts]
    exact ⟨hnodeId, members, htracks, hown⟩

theorem step (h : TracksOwn hash vnodes ids own address g)
    (hcollide : NoCollisions hash vnodes ids) {action : NodeAction}
    (hids : action.ids ⊆ ids) (hspares : SparesOwn own address g action) :
    TracksOwn hash vnodes ids own address (g.step hash action) := by
  cases action with
  | addSeed nodeId seedAddr now =>
      obtain ⟨hnodeId, members, htracks, hown⟩ := h
      refine ⟨hnodeId, _, htracks.addSeed hcollide
        (hids (by simp [NodeAction.ids])) seedAddr now, ?_⟩
      by_cases heq : own = nodeId
      · rw [heq, Function.update_self, hspares heq.symm]
      · rw [Function.update_of_ne heq]
        exact hown
  | handle msg now =>
      exact GossipService.handleGossip_induction
        (fun g nodeState hmem hg => hg.handleEntry hcollide
          (hids (List.mem_map_of_mem hmem)) now) h
  | check now =>
      obtain ⟨hnodeId, members, htracks, hown⟩ := h
      refine ⟨hnodeId, _, htracks.checkFailures now, ?_⟩
      rw [if_neg (by simp [show g.expires _ now own = false from hspares])]
      exact hown

/-- A seed with the node's id at another address takes over its positions, and a
check that finds it expired removes them. -/
theorem breaks (h : TracksOwn hash vnodes ids own address g)
    (hcollide : NoCollisions hash vnodes ids) (hvnodes : 1 ≤ vnodes)
    {action : NodeAction} (hids : action.ids ⊆ ids)
    (hspares : ¬SparesOwn own address g action) :
    ¬OwnEntry own address (g.step hash action) := by
  obtain ⟨-, members, htracks, hown⟩ := h
  rintro ⟨hholds, haddress⟩
  cases action with
  | addSeed nodeId seedAddr now =>
      simp only [SparesOwn, Classical.not_imp] at hspares
      obtain ⟨rfl, hother⟩ := hspares
      have hid : nodeId ∈ ids := hids (by simp [NodeAction.ids])
      have hadded := htracks.addSeed hcollide hid seedAddr now
      have hentry := (hadded.ring _ ⟨nodeId, seedAddr⟩).mpr
        ⟨Function.update_self .., 0, hadded.vnodesPerNode.symm ▸ hvnodes, rfl⟩
      exact hother (haddress _ _ hentry rfl)
  | handle msg now => exact hspares trivial
  | check now =>
      obtain ⟨position, node, hentry, rfl⟩ := hholds
      rw [GossipService.step,
        GossipService.getElem?_ring_checkFailures htracks.keyed] at hentry
      exact hspares hentry.2

theorem new (hcollide : NoCollisions hash vnodes ids) (hown : own ∈ ids)
    (address : String) (factor : Nat) (config : GossipConfig) :
    TracksOwn hash vnodes ids own address
      (.new hash own address (HashRing.new vnodes factor) config) :=
  ⟨rfl, _, .new hcollide hown address factor config, Function.update_self ..⟩

end TracksOwn

/-- A node keeps its own entry throughout a run exactly when no seed of the run
names it at another address and no check finds it expired in its own table. -/
theorem own_entry_iff (hash : String → UInt64) {vnodes : Nat}
    (hvnodes : 1 ≤ vnodes) (factor : Nat) (own address : String)
    (config : GossipConfig) {actions : List NodeAction}
    (hcollide : NoCollisions hash vnodes
      (own :: actions.flatMap NodeAction.ids))
    {g : GossipService}
    (hrun : Run (GossipService.next hash) anyAction
      (.new hash own address (HashRing.new vnodes factor) config) actions g) :
    (∀ pre post v, actions = pre ++ post →
      Run (GossipService.next hash) anyAction
        (.new hash own address (HashRing.new vnodes factor) config) pre v →
      OwnEntry own address v) ↔
      Run (GossipService.next hash) (SparesOwn own address)
        (.new hash own address (HashRing.new vnodes factor) config) actions g := by
  have hids : ∀ action ∈ actions,
      action.ids ⊆ own :: actions.flatMap NodeAction.ids :=
    fun action haction id hid => List.mem_cons_of_mem _
      (List.mem_flatMap.mpr ⟨action, haction, hid⟩)
  refine Run.forall_prefix_iff (I := TracksOwn hash vnodes _ own address)
    (fun g h => h.ownEntry hvnodes) (fun g action t hids h hspares hnext => ?_)
    (fun g action t hids h hspares hnext => ?_) hids hrun
    (.new hcollide List.mem_cons_self address factor config)
  · obtain rfl := Option.some.inj hnext
    exact h.step hcollide hids hspares
  · obtain rfl := Option.some.inj hnext
    exact h.breaks hcollide hvnodes hids hspares

theorem own_entry_with_other_seed :
    let actions := seedActions "node2=10.0.0.2:50051" 0 ++
      [.check 6000, .check 16000]
    OwnEntry "node1" "10.0.0.1:50051"
      (actions.foldl (GossipService.step Ring.sha256Labels) node1Started) := by
  intro actions
  have hactions : actions = [.addSeed "node2" "10.0.0.2:50051" 0, .check 6000,
      .check 16000] := by
    have hseeds : parseSeeds "node2=10.0.0.2:50051" =
        [("node2", "10.0.0.2:50051")] := by decide +kernel
    simp only [actions, seedActions, hseeds]
    rfl
  have hcollide : NoCollisions Ring.sha256Labels 1
      ("node1" :: actions.flatMap NodeAction.ids) := by
    rw [hactions]
    exact Ring.noCollisions_of_nodup ["node1", "node2"] (by decide +kernel)
      (by decide)
  have hrun : Run (GossipService.next Ring.sha256Labels) anyAction node1Started
      actions (actions.foldl (GossipService.step Ring.sha256Labels)
        node1Started) := by
    rw [hactions]
    exact .cons trivial rfl (.cons trivial rfl (.cons trivial rfl (.nil _)))
  have hspares : Run (GossipService.next Ring.sha256Labels)
      (SparesOwn "node1" "10.0.0.1:50051") node1Started actions
      (actions.foldl (GossipService.step Ring.sha256Labels) node1Started) := by
    rw [hactions]
    refine .cons (fun hid => absurd hid (by decide)) rfl
      (.cons ?_ rfl (.cons ?_ rfl (.nil _))) <;>
    · change GossipService.expires _ _ _ _ = false
      decide +kernel
  exact (own_entry_iff Ring.sha256Labels (le_refl 1) 3 "node1" "10.0.0.1:50051"
    ⟨5000, 15000, 3⟩ hcollide hrun).mpr hspares actions [] _
      (List.append_nil _).symm hrun

/-- Started with itself as a seed, a node drops itself from its ring after two
timeouts. -/
theorem own_seed_dropped :
    let actions := seedActions "node1=10.0.0.1:50051" 0 ++
      [.check 6000, .check 16000]
    actions = [.addSeed "node1" "10.0.0.1:50051" 0, .check 6000, .check 16000] ∧
      NoCollisions Ring.sha256Labels 1 ["node1"] ∧
      ¬(actions.foldl (GossipService.step Ring.sha256Labels)
        node1Started).ring.Holds "node1" := by
  have hseeds : parseSeeds "node1=10.0.0.1:50051" =
      [("node1", "10.0.0.1:50051")] := by decide +kernel
  refine ⟨?_, Ring.noCollisions_of_nodup ["node1"] (by decide +kernel)
    (List.Subset.refl _), by decide +kernel⟩
  simp only [seedActions, hseeds]
  rfl

end Rkv.Gossip
