import Rkv.Foundation.Simulation
import Rkv.Gossip.Partition
import Rkv.Replication.Cluster
import Rkv.Storage.ReferenceCodec

/-!
# Clients on both sides of a partition

The whole of a deployment: the gossip of the nodes and the engines their
coordinators serve clients from.  A node's coordinator routes with the ring its
gossip keeps.  Once the sides of a split have declared each other dead and no
message from before is under way, the clients of one side and those of the other
use two stores that never meet again, even over a network that has healed.
-/

namespace Rkv.Replication

open Rkv.Foundation
open Rkv.Gossip (Deployment Mesh MeshAction)
open Rkv.Grpc
open Rkv.Ring (Node HashRing)
open Rkv.Storage (Codecs StorageEngine)

structure System where
  mesh : Mesh
  cluster : Cluster

inductive SystemAction where
  | gossip (action : MeshAction)
  | put (call : PutCall)
  | delete (call : DeleteCall)
  | evict (node : String) (now : Int64)

/-- The node at which an action of the client side takes place. -/
def SystemAction.at? : SystemAction → Option String
  | gossip _ => none
  | put call => some call.coordinator
  | delete call => some call.coordinator
  | evict node _ => some node

namespace System

def ringAt (s : System) (id : String) : HashRing := (s.mesh.services id).ring

section

variable (hash : String → UInt64) (d : Deployment) (c : Codecs)
  (quorum : QuorumConfig)

def next (s : System) : SystemAction → Option System
  | .gossip action =>
      (s.mesh.next hash d action).map fun mesh => { s with mesh := mesh }
  | .put call =>
      if call.coordinator ∈ d.members then
        some { s with cluster :=
          s.cluster.put hash c (s.ringAt call.coordinator) quorum call }
      else none
  | .delete call =>
      if call.coordinator ∈ d.members then
        some { s with cluster :=
          s.cluster.delete hash c (s.ringAt call.coordinator) quorum call }
      else none
  | .evict node now =>
      if node ∈ d.members then
        some { s with cluster := s.cluster.evict node now }
      else none

def get (s : System) (call : GetCall) :
    QuorumResult Storage.VersionedValue :=
  s.cluster.get hash (s.ringAt call.coordinator) quorum call

end

/-- The action is gossip or takes place on this side. -/
def keeps {T : Type} [DecidableEq T] (side : String → T) (here : T)
    (action : SystemAction) : Bool :=
  action.at?.all fun id => decide (side id = here)

end System

/-! ## Calls that stay on their side -/

namespace Cluster

variable {hash : String → UInt64} {c : Codecs} {ring : HashRing}
  {quorum : QuorumConfig} {cluster other : Cluster}

theorem rpcApplied_congr (cluster other : Cluster) (coordinator key : String)
    (delivery : String → Delivery) (id : String) :
    cluster.rpcApplied hash ring quorum coordinator key delivery id =
      other.rpcApplied hash ring quorum coordinator key delivery id := by
  rw [rpcApplied, rpcApplied, peers_coordinatorAt, peers_coordinatorAt]

theorem holds_of_rpcApplied {coordinator key : String}
    {delivery : String → Delivery} {id : String}
    (h : cluster.rpcApplied hash ring quorum coordinator key delivery id =
      true) : ring.Holds id := by
  rw [rpcApplied, Bool.and_eq_true, List.any_eq_true] at h
  obtain ⟨⟨node, hnode, hid⟩, -⟩ := h
  rw [peers_coordinatorAt, List.mem_filter] at hnode
  rw [beq_iff_eq] at hid
  exact hid ▸ HashRing.holds_of_mem_getNodes (List.mem_map_of_mem hnode.1)

/-- A put changes the coordinator and nodes of its ring. -/
theorem engines_put_of_not_holds (call : PutCall) {id : String}
    (hne : id ≠ call.coordinator) (hoff : ¬ring.Holds id) :
    (cluster.put hash c ring quorum call).engines id = cluster.engines id := by
  change cluster.putEngines hash c ring quorum call id = _
  rw [putEngines, if_neg hne, if_neg fun h => hoff (holds_of_rpcApplied h)]

theorem engines_delete_of_not_holds (call : DeleteCall) {id : String}
    (hne : id ≠ call.coordinator) (hoff : ¬ring.Holds id) :
    (cluster.delete hash c ring quorum call).engines id =
      cluster.engines id := by
  change cluster.deleteEngines hash c ring quorum call id = _
  rw [deleteEngines, if_neg hne, if_neg fun h => hoff (holds_of_rpcApplied h)]

/-- What a put leaves at a node depends on that node and the coordinator. -/
theorem engines_put_congr (call : PutCall) {id : String}
    (hcoordinator : cluster.engines call.coordinator =
      other.engines call.coordinator)
    (hid : cluster.engines id = other.engines id) :
    (cluster.put hash c ring quorum call).engines id =
      (other.put hash c ring quorum call).engines id := by
  change cluster.putEngines hash c ring quorum call id =
    other.putEngines hash c ring quorum call id
  rw [putEngines, putEngines, coordinatePut_engine, coordinatePut_engine,
    version, version, hcoordinator, hid, rpcApplied_congr cluster other]

theorem engines_delete_congr (call : DeleteCall) {id : String}
    (hcoordinator : cluster.engines call.coordinator =
      other.engines call.coordinator)
    (hid : cluster.engines id = other.engines id) :
    (cluster.delete hash c ring quorum call).engines id =
      (other.delete hash c ring quorum call).engines id := by
  change cluster.deleteEngines hash c ring quorum call id =
    other.deleteEngines hash c ring quorum call id
  rw [deleteEngines, deleteEngines, coordinateDelete_engine,
    coordinateDelete_engine, hcoordinator, hid, rpcApplied_congr cluster other]

/-- A read depends on the coordinator and the nodes of its ring. -/
theorem get_congr (call : GetCall)
    (hcoordinator : cluster.engines call.coordinator =
      other.engines call.coordinator)
    (hring : ∀ id, ring.Holds id → cluster.engines id = other.engines id) :
    cluster.get hash ring quorum call = other.get hash ring quorum call := by
  rw [Cluster.get, Cluster.get, ReplicationCoordinator.get_eq,
    ReplicationCoordinator.get_eq]
  have hpeers : ((cluster.coordinatorAt ring quorum call.coordinator).peers hash
      call.key) = (other.coordinatorAt ring quorum call.coordinator).peers hash
        call.key := by
    rw [peers_coordinatorAt, peers_coordinatorAt]
  have hresponses : ∀ node ∈ (other.coordinatorAt ring quorum
      call.coordinator).peers hash call.key,
      readResult ((call.reply node.id).outcome
        (InternalService.getInternal (cluster.engines node.id) ⟨call.key⟩)) =
      readResult ((call.reply node.id).outcome
        (InternalService.getInternal (other.engines node.id) ⟨call.key⟩)) := by
    intro node hnode
    rw [peers_coordinatorAt, List.mem_filter] at hnode
    rw [hring node.id
      (HashRing.holds_of_mem_getNodes (List.mem_map_of_mem hnode.1))]
  rw [ReplicationCoordinator.responses, ReplicationCoordinator.responses,
    responsible_coordinatorAt, responsible_coordinatorAt,
    engine_coordinatorAt, engine_coordinatorAt, hcoordinator, hpeers,
    List.map_congr_left hresponses]
  rfl

end Cluster

namespace System

variable {T : Type} [DecidableEq T] {hash : String → UInt64} {d : Deployment}
  {c : Codecs} {quorum : QuorumConfig} {side : String → T} {here : T}
  {s t alone : System}

/-- Gossip is as in a second system, and so are the engines of this side. -/
structure Mirrors (d : Deployment) (side : String → T) (here : T)
    (s alone : System) : Prop where
  apart : s.mesh.Apart d side
  mesh : alone.mesh = s.mesh
  engines : ∀ id, side id = here →
    alone.cluster.engines id = s.cluster.engines id

omit [DecidableEq T] in
/-- A coordinator's ring has no node of another side. -/
theorem Mirrors.side_of_holds (h : Mirrors d side here s alone) {id : String}
    (hid : id ∈ d.members) {node : String} (hholds : (s.ringAt id).Holds node) :
    side node = side id := by
  by_contra hfar
  exact (h.apart.tables id hid).ring node hfar hholds

theorem Mirrors.keep (h : Mirrors d side here s alone) {action : SystemAction}
    (hkeeps : keeps side here action = true)
    (hnext : s.next hash d c quorum action = some t) :
    ∃ after, alone.next hash d c quorum action = some after ∧
      Mirrors d side here t after := by
  cases action with
  | gossip action =>
      obtain ⟨mesh, hmesh, rfl⟩ := Option.map_eq_some_iff.mp hnext
      refine ⟨{ alone with mesh := mesh }, ?_, (h.apart.step hmesh).1, rfl,
        h.engines⟩
      rw [next, h.mesh, hmesh]
      rfl
  | put call =>
      have hside : side call.coordinator = here := of_decide_eq_true hkeeps
      simp only [next] at hnext
      split at hnext <;> cases hnext
      rename_i hid
      refine ⟨_, if_pos hid, h.apart, h.mesh, fun id hhere => ?_⟩
      have hring : alone.ringAt call.coordinator = s.ringAt call.coordinator := by
        rw [ringAt, ringAt, h.mesh]
      dsimp only
      rw [hring]
      exact Cluster.engines_put_congr call (h.engines _ hside)
        (h.engines id hhere)
  | delete call =>
      have hside : side call.coordinator = here := of_decide_eq_true hkeeps
      simp only [next] at hnext
      split at hnext <;> cases hnext
      rename_i hid
      refine ⟨_, if_pos hid, h.apart, h.mesh, fun id hhere => ?_⟩
      have hring : alone.ringAt call.coordinator = s.ringAt call.coordinator := by
        rw [ringAt, ringAt, h.mesh]
      dsimp only
      rw [hring]
      exact Cluster.engines_delete_congr call (h.engines _ hside)
        (h.engines id hhere)
  | evict node now =>
      simp only [next] at hnext
      split at hnext <;> cases hnext
      rename_i hid
      refine ⟨_, if_pos hid, h.apart, h.mesh, fun id hhere => ?_⟩
      dsimp only [Cluster.evict]
      rw [h.engines id hhere]

theorem Mirrors.skip (h : Mirrors d side here s alone) {action : SystemAction}
    (hskips : keeps side here action = false)
    (hnext : s.next hash d c quorum action = some t) :
    Mirrors d side here t alone := by
  cases action with
  | gossip action => contradiction
  | put call =>
      have hside : side call.coordinator ≠ here := of_decide_eq_false hskips
      simp only [next] at hnext
      split at hnext <;> cases hnext
      rename_i hid
      refine ⟨h.apart, h.mesh, fun id hhere => (h.engines id hhere).trans ?_⟩
      refine (Cluster.engines_put_of_not_holds call ?_ fun hholds => ?_).symm
      · rintro rfl
        exact hside hhere
      · exact hside ((h.side_of_holds hid hholds).symm.trans hhere)
  | delete call =>
      have hside : side call.coordinator ≠ here := of_decide_eq_false hskips
      simp only [next] at hnext
      split at hnext <;> cases hnext
      rename_i hid
      refine ⟨h.apart, h.mesh, fun id hhere => (h.engines id hhere).trans ?_⟩
      refine (Cluster.engines_delete_of_not_holds call ?_ fun hholds => ?_).symm
      · rintro rfl
        exact hside hhere
      · exact hside ((h.side_of_holds hid hholds).symm.trans hhere)
  | evict node now =>
      have hside : side node ≠ here := of_decide_eq_false hskips
      simp only [next] at hnext
      split at hnext <;> cases hnext
      refine ⟨h.apart, h.mesh, fun id hhere => (h.engines id hhere).trans ?_⟩
      have hne : id ≠ node := by
        rintro rfl
        exact hside hhere
      simp [Cluster.evict, hne]

end System

/-- From a state in which the sides of a split have given each other up and nothing
is under way between them, in every run of gossip and client calls: the calls of
one side leave its engines as they would be if the other sides had no clients, and
a read on that side, through any of its nodes and whatever its peers answer,
returns what it would then. -/
theorem split_brain {T : Type} [DecidableEq T] (hash : String → UInt64)
    (d : Deployment) (c : Codecs) (quorum : QuorumConfig) (side : String → T)
    {s t : System} (hapart : s.mesh.Apart d side) {actions : List SystemAction}
    (hrun : Run (System.next hash d c quorum) anyAction s actions t) (here : T) :
    ∃ alone, Run (System.next hash d c quorum) anyAction s
        (actions.filter (System.keeps side here)) alone ∧
      alone.mesh = t.mesh ∧
      (∀ id, side id = here →
        alone.cluster.engines id = t.cluster.engines id) ∧
      ∀ call, call.coordinator ∈ d.members → side call.coordinator = here →
        alone.get hash quorum call = t.get hash quorum call := by
  obtain ⟨alone, halone, hend⟩ : ∃ alone, Run (System.next hash d c quorum)
      anyAction s (actions.filter (System.keeps side here)) alone ∧
      System.Mirrors d side here t alone := hrun.project
    (fun _ _ _ _ h _ hnext hkeeps => h.keep hkeeps hnext)
    (fun _ _ _ _ h _ hnext hskips => h.skip hskips hnext)
    ⟨hapart, rfl, fun _ _ => rfl⟩
  refine ⟨alone, halone, hend.mesh, hend.engines, fun call hid hside => ?_⟩
  have hring : alone.ringAt call.coordinator = t.ringAt call.coordinator := by
    rw [System.ringAt, System.ringAt, hend.mesh]
  rw [System.get, System.get, hring]
  refine Cluster.get_congr call (hend.engines _ hside) fun id hholds => ?_
  exact hend.engines id ((hend.side_of_holds hid hholds).trans hside)

/-- A value that `node1` acknowledges by itself is not seen through `node2`. -/
theorem split_brain_of_two_nodes :
    let next := System.next Ring.sha256Labels Gossip.twoNodes
      Storage.referenceCodecs ⟨3, 1, 1⟩
    let s : System :=
      ⟨Gossip.splitNodes, .fresh Storage.referenceCodecs 1048576 3⟩
    let write : PutCall := ⟨"node1", "k", [1], 0, 0, 1700000000000,
      fun _ => .acked⟩
    let read : GetCall := ⟨"node2", "k", 0, 1700000000001, fun _ => .answers⟩
    ∃ t, Run next anyAction s [.put write] t ∧
      t.get Ring.sha256Labels ⟨3, 1, 1⟩ read =
        s.get Ring.sha256Labels ⟨3, 1, 1⟩ read := by
  intro next s write read
  have hmember : write.coordinator ∈ Gossip.twoNodes.members := by decide
  obtain ⟨t, ht⟩ : ∃ t, next s (.put write) = some t := by
    rw [← Option.isSome_iff_exists]
    simp [next, System.next, hmember]
  have hrun : Run next anyAction s [.put write] t := .cons trivial ht (.nil _)
  obtain ⟨alone, halone, -, -, hget⟩ := split_brain Ring.sha256Labels
    Gossip.twoNodes Storage.referenceCodecs ⟨3, 1, 1⟩ (fun id => id)
    Gossip.splitNodes_apart hrun "node2"
  cases halone with
  | nil => exact ⟨t, hrun, (hget read (by decide) rfl).symm⟩

end Rkv.Replication
