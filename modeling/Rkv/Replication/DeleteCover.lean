import Rkv.Replication.Cluster
import Rkv.Storage.ReferenceCodec

/-!
# The clocks of replicated tombstones

A coordinated delete sends its tombstone's clock along, but `delete_internal`
does not look at it: a replica counts on the clock it has stored itself.  Its
tombstone covers the coordinator's only if its stored clock did so before, up to
the one count that it adds.
-/

namespace Rkv.Replication

open Rkv.Foundation
open Rkv.Grpc
open Rkv.Ring (HashRing)
open Rkv.Storage (Codecs StorageEngine VectorClock referenceCodecs)

def requestClock (req : Proto.DeleteInternalRequest) : VectorClock :=
  (req.vectorClock.map fromProtoVectorClock).getD VectorClock.new

/-- A node can count on for the key, and with that count its stored clock covers
the other. -/
structure ReadyFor (engine : StorageEngine) (key : String)
    (clock : VectorClock) : Prop where
  room : ((engine.storedClock key).count engine.nodeId).toNat + 1 < 2 ^ 64
  covers : ∀ node, (clock.count node).toNat ≤
    ((engine.storedClock key).count node).toNat +
      if node = engine.nodeId then 1 else 0

theorem storedClock_delete (c : Codecs) (engine : StorageEngine) (key : String)
    (now : Int64) :
    (engine.delete c key now).storedClock key =
      (engine.storedClock key).increment engine.nodeId := by
  unfold StorageEngine.storedClock
  rw [StorageEngine.getRaw_delete, if_pos rfl]
  rfl

theorem toNat_count_increment {clock : VectorClock} {nodeId : String}
    (hroom : (clock.count nodeId).toNat + 1 < 2 ^ 64) (node : String) :
    ((clock.increment nodeId).count node).toNat =
      (clock.count node).toNat + if node = nodeId then 1 else 0 := by
  rw [VectorClock.count_increment]
  by_cases hnode : nodeId = node
  · subst hnode
    rw [if_pos rfl, if_pos rfl, counter_toNat_succ hroom]
  · rw [if_neg hnode, if_neg (Ne.symm hnode), Nat.add_zero]

theorem covers_increment_iff (engine : StorageEngine) (key : String)
    (clock : VectorClock) :
    ((engine.storedClock key).increment engine.nodeId).Covers clock ∧
        ((engine.storedClock key).increment engine.nodeId).Covers
          (engine.storedClock key) ↔
      ReadyFor engine key clock := by
  constructor
  · rintro ⟨hclock, hstored⟩
    have hroom : ((engine.storedClock key).count engine.nodeId).toNat + 1 <
        2 ^ 64 := by
      have hown := hstored engine.nodeId
      rwa [VectorClock.count_increment, if_pos rfl,
        counter_le_succ_iff] at hown
    refine ⟨hroom, fun node => ?_⟩
    rw [← toNat_count_increment hroom]
    exact UInt64.le_iff_toNat_le.mp (hclock node)
  · intro hready
    constructor
    · intro node
      rw [UInt64.le_iff_toNat_le, toNat_count_increment hready.room]
      exact hready.covers node
    · intro node
      rw [UInt64.le_iff_toNat_le, toNat_count_increment hready.room]
      exact Nat.le_add_right _ _

/-- A deleting replica's clock covers the request's and its own exactly when it
was ready for the request's; a delete that reaches all replicas leaves tombstones
that cover the coordinator's exactly when all were ready for that one. -/
theorem delete_covers_iff (hash : String → UInt64) (c : Codecs) :
    (∀ (engine : StorageEngine) (req : Proto.DeleteInternalRequest)
      (now : Int64),
      let after := (InternalService.deleteInternal c engine req now).1
      ((after.storedClock req.key).Covers (requestClock req) ∧
        (after.storedClock req.key).Covers (engine.storedClock req.key)) ↔
          ReadyFor engine req.key (requestClock req)) ∧
    ∀ (cluster : Cluster) (ring : HashRing) (quorum : QuorumConfig)
      (call : DeleteCall),
      ring.isResponsible hash call.coordinator call.key = true →
      (∀ node ∈ ring.getNodes hash call.key,
        Cluster.reaches call.coordinator call.delivery node.id = true) →
      let after := cluster.delete hash c ring quorum call
      let tombstone := (after.engines call.coordinator).storedClock call.key
      (∀ node ∈ ring.getNodes hash call.key,
        ((after.engines node.id).storedClock call.key).Covers tombstone ∧
          ((after.engines node.id).storedClock call.key).Covers
            ((cluster.engines node.id).storedClock call.key)) ↔
        ∀ node ∈ ring.getNodes hash call.key,
          ReadyFor (cluster.engines node.id) call.key
            (((cluster.engines call.coordinator).storedClock
              call.key).increment call.coordinator) := by
  constructor
  · intro engine req now after
    rw [show after.storedClock req.key = _ from
      storedClock_delete c engine req.key now]
    exact covers_increment_iff engine req.key (requestClock req)
  · intro cluster ring quorum call hcoordinator hreaches after tombstone
    have hafter : ∀ node ∈ ring.getNodes hash call.key,
        (after.engines node.id).storedClock call.key =
          ((cluster.engines node.id).storedClock call.key).increment
            (cluster.engines node.id).nodeId := by
      intro node hnode
      rw [show after.engines node.id = _ from
        cluster.engines_delete_of_mem call hnode, if_pos (hreaches node hnode)]
      exact storedClock_delete c _ _ _
    have htombstone : tombstone =
        ((cluster.engines call.coordinator).storedClock call.key).increment
          call.coordinator := by
      obtain ⟨node, hnode, hid⟩ := List.mem_map.mp
        (HashRing.isResponsible_iff.mp hcoordinator)
      have hstored := hafter node hnode
      rwa [hid, cluster.nodeId_eq] at hstored
    refine forall₂_congr fun node hnode => ?_
    rw [hafter node hnode, htombstone]
    exact covers_increment_iff (cluster.engines node.id) call.key _

/-- A put through `node1` reached all three nodes and expired, and `node1` has
evicted it: there the tombstone counts from nothing again, and those of the others
cover it. -/
theorem delete_covers_after_evict :
    let cluster := ((Cluster.fresh referenceCodecs 1048576 3).put
      Ring.sha256Labels referenceCodecs Ring.threeNodes .defaultStrong
      ⟨"node1", "k", [1], 1000, 0, 1700000000000, fun _ => .acked⟩).evict "node1"
        1700000002000
    let call : DeleteCall :=
      ⟨"node1", "k", 0, fun _ => 1700000003000, fun _ => .acked⟩
    let after := cluster.delete Ring.sha256Labels referenceCodecs Ring.threeNodes
      .defaultStrong call
    let tombstone := (after.engines "node1").storedClock "k"
    (Ring.threeNodes.getNodes Ring.sha256Labels "k").length = 3 ∧
      tombstone.count "node1" = 1 ∧
      ∀ node ∈ Ring.threeNodes.getNodes Ring.sha256Labels "k",
        ((after.engines node.id).storedClock "k").Covers tombstone ∧
          ((after.engines node.id).storedClock "k").Covers
            ((cluster.engines node.id).storedClock "k") := by
  intro cluster call after tombstone
  refine ⟨by decide +kernel, by decide +kernel, ?_⟩
  have hstored : ∀ node ∈ Ring.threeNodes.getNodes Ring.sha256Labels "k",
      (cluster.engines node.id).storedClock "k" =
        if node.id = "node1" then .new else VectorClock.new.increment "node1" := by
    decide +kernel
  refine ((delete_covers_iff Ring.sha256Labels referenceCodecs).2 cluster
    Ring.threeNodes .defaultStrong call (by decide +kernel)
    (by decide +kernel)).mpr fun node hnode => ?_
  have hcoordinator : (cluster.engines "node1").storedClock "k" = .new := by
    decide +kernel
  change ReadyFor _ "k"
    (((cluster.engines "node1").storedClock "k").increment "node1")
  rw [hcoordinator]
  have hown : (cluster.engines node.id).nodeId = node.id := cluster.nodeId_eq _
  by_cases hid : node.id = "node1"
  · have hnew : (cluster.engines node.id).storedClock "k" = .new :=
      (hstored node hnode).trans (if_pos hid)
    refine ⟨by simp [hnew], fun other => ?_⟩
    rw [hnew, hown, hid, toNat_count_increment (by simp)]
  · have hfirst : (cluster.engines node.id).storedClock "k" =
        VectorClock.new.increment "node1" :=
      (hstored node hnode).trans (if_neg hid)
    refine ⟨?_, fun other => ?_⟩
    · rw [hfirst, hown, toNat_count_increment (by simp), if_neg hid]
      simp
    · rw [hfirst]
      exact Nat.le_add_right _ _

/-- A replica that does not store the key answers a delete that carries the count
2 of `node1` with a tombstone that counts 1 for itself. -/
theorem tombstone_misses_request :
    let engine := StorageEngine.fresh referenceCodecs ⟨1048576, 3, "node2"⟩
    let req : Proto.DeleteInternalRequest :=
      ⟨"k", some ⟨{("node1", 2)}⟩⟩
    let answer :=
      InternalService.deleteInternal referenceCodecs engine req 1700000000000
    answer.2.success = true ∧
      (answer.1.storedClock "k").count "node1" = 0 ∧
      (requestClock req).count "node1" = 2 ∧
      ¬(answer.1.storedClock "k").Covers (requestClock req) := by
  intro engine req answer
  have hstored : ((engine.delete referenceCodecs "k" 1700000000000).storedClock
      "k").count "node1" = 0 := by
    rw [storedClock_delete]
    have hnew : engine.storedClock "k" = VectorClock.new := by
      simp [engine, StorageEngine.storedClock]
    rw [hnew]
    decide +kernel
  have hrequest : (requestClock req).count "node1" = 2 := by decide +kernel
  refine ⟨rfl, hstored, hrequest, fun hcovers => ?_⟩
  have hle := hcovers "node1"
  rw [hrequest, show (answer.1.storedClock "k").count "node1" = 0 from
    hstored] at hle
  exact absurd hle (by decide)

end Rkv.Replication
