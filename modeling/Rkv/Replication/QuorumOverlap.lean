import Rkv.Foundation.Quorums
import Rkv.Replication.OwnReads
import Rkv.Ring.PreferenceList

/-!
# Quorums that overlap

What `is_strongly_consistent` decides: whether every read quorum of a key's
replicas meets every write quorum.  The sum it compares wraps, so it is exact
below 2^32.  Overlap alone does not make a read return the last put, but it keeps
a key that was once acknowledged from being reported missing.
-/

namespace Rkv.Replication

open Rkv.Foundation
open Rkv.Ring (Node HashRing)
open Rkv.Storage (Codecs StorageEngine VersionedValue)

namespace QuorumConfig

/-- The configuration as a read and a write with these overrides see it. -/
def overridden (q : QuorumConfig) (overrideR overrideW : Nat) : QuorumConfig :=
  ⟨q.replicationFactor, q.effectiveReadQuorum overrideR,
    q.effectiveWriteQuorum overrideW⟩

theorem lt_of_isStronglyConsistent {q : QuorumConfig}
    (h : q.isStronglyConsistent = true) :
    q.replicationFactor < q.readQuorum + q.writeQuorum := by
  rw [isStronglyConsistent, decide_eq_true_eq] at h
  exact h.trans_le (Nat.mod_le _ _)

theorem isStronglyConsistent_iff {q : QuorumConfig}
    (hsum : q.readQuorum + q.writeQuorum < 2 ^ 32) :
    q.isStronglyConsistent = true ↔
      q.replicationFactor < q.readQuorum + q.writeQuorum := by
  rw [isStronglyConsistent, decide_eq_true_eq, Nat.mod_eq_of_lt hsum]

end QuorumConfig

/-- The nodes responsible for a key are as many as asked for, where there are so
many. -/
theorem card_replicas (hash : String → UInt64) {ring : HashRing} (key : String)
    (hpos : 1 ≤ ring.replicationFactor)
    (hnodes : ring.replicationFactor ≤ ring.nodeCount) :
    ((ring.getNodes hash key).map Node.id).toFinset.card =
      ring.replicationFactor := by
  rw [List.toFinset_card_of_nodup (HashRing.nodup_getNodes hash ring key),
    List.length_map, HashRing.getNodes_of_pos hpos, List.length_take,
    HashRing.length_firstsBy_walk]
  exact min_eq_left hnodes

/-- For every key of a ring with enough nodes and every pair of overrides, the
check says whether a read quorum and a write quorum of the key's replicas always
have a replica in common. -/
theorem strongly_consistent_iff_quorums_meet (hash : String → UInt64)
    (ring : HashRing) (key : String) (q : QuorumConfig)
    (hfactor : ring.replicationFactor = q.replicationFactor)
    (hpos : 1 ≤ q.replicationFactor)
    (hnodes : q.replicationFactor ≤ ring.nodeCount)
    (overrideR overrideW : Nat)
    (hsum : q.effectiveReadQuorum overrideR +
      q.effectiveWriteQuorum overrideW < 2 ^ 32) :
    (q.overridden overrideR overrideW).isStronglyConsistent = true ↔
      ∀ readers writers : Finset String,
        (∀ id ∈ readers, ring.isResponsible hash id key = true) →
        (∀ id ∈ writers, ring.isResponsible hash id key = true) →
        q.effectiveReadQuorum overrideR ≤ readers.card →
        q.effectiveWriteQuorum overrideW ≤ writers.card →
          ∃ id, id ∈ readers ∧ id ∈ writers := by
  have hreplicas : ∀ ids : Finset String,
      (∀ id ∈ ids, ring.isResponsible hash id key = true) ↔
        ids ⊆ ((ring.getNodes hash key).map Node.id).toFinset := by
    intro ids
    simp only [Finset.subset_iff, List.mem_toFinset,
      HashRing.isResponsible_iff]
  have hcard := card_replicas hash key (hfactor ▸ hpos)
    (hfactor ▸ hnodes)
  have hmeet := quorums_meet_iff
    ((ring.getNodes hash key).map Node.id).toFinset
    (q.effectiveReadQuorum overrideR) (q.effectiveWriteQuorum overrideW)
  rw [hcard, hfactor] at hmeet
  rw [QuorumConfig.isStronglyConsistent_iff hsum]
  refine Iff.trans hmeet.symm ?_
  simp only [hreplicas, Finset.Nonempty, Finset.mem_inter]
  constructor
  · intro h readers writers hreaders hwriters
    exact h readers hreaders writers hwriters
  · intro h readers hreaders writers hwriters
    exact h readers writers hreaders hwriters

theorem quorums_meet_on_three_nodes :
    QuorumConfig.defaultStrong.isStronglyConsistent = true ∧
      ∀ readers writers : Finset String,
        (∀ id ∈ readers,
          Ring.threeNodes.isResponsible Ring.sha256Labels id "k" = true) →
        (∀ id ∈ writers,
          Ring.threeNodes.isResponsible Ring.sha256Labels id "k" = true) →
        2 ≤ readers.card → 2 ≤ writers.card →
          ∃ id, id ∈ readers ∧ id ∈ writers := by
  have hconsistent : QuorumConfig.defaultStrong.isStronglyConsistent = true := by
    decide
  exact ⟨hconsistent,
    (strongly_consistent_iff_quorums_meet Ring.sha256Labels Ring.threeNodes "k"
      .defaultStrong rfl (by decide) (by decide +kernel) 0 0 (by decide)).mp
      hconsistent⟩

/-! ## No acknowledged key goes missing -/

/-- The key is not deleted, and what is put has no lifetime. -/
def ClusterOp.Keeps (key : String) : ClusterOp → Prop
  | .put call => call.key = key → call.ttlMs = 0
  | .delete call => call.key ≠ key
  | .evict _ _ => True

namespace Cluster

variable {hash : String → UInt64} {c : Codecs} {ring : HashRing}
  {quorum : QuorumConfig} {key : String}

/-- The node has a version of the key that never goes away by itself. -/
def HasKey (cluster : Cluster) (key id : String) : Prop :=
  ∃ v, (cluster.engines id).getRaw key = some v ∧ v.deleted = false ∧
    v.ttlMs = 0

theorem HasKey.step {cluster : Cluster} {id : String}
    (h : cluster.HasKey key id) {op : ClusterOp} (hop : op.Keeps key) :
    (cluster.step hash c ring quorum op).HasKey key id := by
  obtain ⟨v, hv, hlive, httl⟩ := h
  cases op with
  | put call =>
      rcases cluster.putEngines_eq hash c ring quorum call id with hsame | hput
      · exact ⟨v, (congrArg (·.getRaw key) hsame).trans hv, hlive, httl⟩
      · by_cases hkey : call.key = key
        · refine ⟨cluster.version call, (congrArg (·.getRaw key) hput).trans ?_,
            rfl, hop hkey⟩
          rw [StorageEngine.getRaw_put, if_pos hkey]
        · refine ⟨v, (congrArg (·.getRaw key) hput).trans ?_, hlive, httl⟩
          rw [StorageEngine.getRaw_put, if_neg hkey]
          exact hv
  | delete call =>
      rcases cluster.deleteEngines_eq hash c ring quorum call id with
        hsame | hdelete
      · exact ⟨v, (congrArg (·.getRaw key) hsame).trans hv, hlive, httl⟩
      · refine ⟨v, (congrArg (·.getRaw key) hdelete).trans ?_, hlive, httl⟩
        rw [StorageEngine.getRaw_delete, if_neg hop]
        exact hv
  | evict node now =>
      refine ⟨v, ?_, hlive, httl⟩
      have hkept : (v.isExpired now) = false :=
        VersionedValue.isExpired_of_ttl_zero httl now
      exact getRaw_step hv hkept
        (show ClusterOp.Avoids key now (.evict node now) from Int64.le_refl now)

theorem HasKey.run (hash : String → UInt64) (c : Codecs) (ring : HashRing)
    (quorum : QuorumConfig) {cluster : Cluster} {id : String}
    (h : cluster.HasKey key id) {ops : List ClusterOp}
    (hops : ∀ op ∈ ops, op.Keeps key) :
    (cluster.run hash c ring quorum ops).HasKey key id := by
  induction ops generalizing cluster with
  | nil => exact h
  | cons op ops ih =>
      exact ih (h.step (hops op (by simp)))
        fun other hother => hops other (by simp [hother])

end Cluster

open Cluster in
/-- Once a put without a lifetime has been acknowledged under a strongly
consistent configuration, every read that hears a read quorum of the replicas
finds the key, whatever is put to it later, through whatever nodes and with
whatever deliveries, as long as it is not deleted or given a lifetime. -/
theorem acked_key_never_missing (hash : String → UInt64) (c : Codecs)
    (ring : HashRing) (quorum : QuorumConfig)
    (hconsistent : quorum.isStronglyConsistent = true) (key : String)
    (hreplicas : (ring.getNodes hash key).length ≤ quorum.replicationFactor)
    (cluster : Cluster) (call : PutCall) (hkey : call.key = key)
    (httl : call.ttlMs = 0) (hoverride : call.writeQuorum = 0)
    (hacked : (cluster.coordinatePut hash c ring quorum call).2.isSuccess =
      true)
    (later : List ClusterOp) (hlater : ∀ op ∈ later, op.Keeps key)
    (read : GetCall) (hread : read.key = key)
    (hheard : quorum.readQuorum ≤ (ring.getNodes hash key).countP fun n =>
      n.id == read.coordinator || read.reply n.id == .answers) :
    (((cluster.put hash c ring quorum call).run hash c ring quorum later).get
      hash ring quorum read).value.isSome = true := by
  subst hkey
  have hwritten := writeQuorum_le_of_isSuccess hoverride hacked
  have hoverlap := QuorumConfig.lt_of_isStronglyConsistent hconsistent
  obtain ⟨node, hnode, hhears, hreached⟩ :=
    exists_mem_of_length_lt_countP (l := ring.getNodes hash call.key)
      (p := fun n => n.id == read.coordinator || read.reply n.id == .answers)
      (q := fun n => reaches call.coordinator call.delivery n.id) (by omega)
  have hput : (cluster.put hash c ring quorum call).HasKey call.key node.id := by
    refine ⟨cluster.version call, ?_, rfl, httl⟩
    rw [engines_put_of_mem cluster call hnode, if_pos hreached,
      StorageEngine.getRaw_put, if_pos rfl]
  obtain ⟨v, hv, hlive, hforever⟩ := hput.run hash c ring quorum hlater
  rw [Option.isSome_iff_ne_none, get_value, Ne, resolveConflicts_eq_none_iff]
  intro hnone
  refine hnone v ((mem_responses_iff _ read).mpr ⟨node, hread ▸ hnode,
    seen_of_hears (hread ▸ hv) hlive ?_⟩)
    ⟨hlive, VersionedValue.isExpired_of_ttl_zero hforever read.now⟩
  simpa [GetCall.hears] using hhears

open Cluster in
/-- A later put reaches one replica only, and the reader does not hear it. -/
theorem acked_key_never_missing_after_lost_put :
    let call := putByte "node1" 1 1700000000000 ["node3"]
    let lost := putByte "node2" 2 1700000000001 ["node1", "node3"]
    let read : GetCall := ⟨"node3", "k", 0, 1700000000002,
      fun id => if id = "node1" then .answers else .timeout⟩
    ((((fresh Storage.referenceCodecs 1048576 3).put Ring.sha256Labels
        Storage.referenceCodecs Ring.threeNodes .defaultStrong call).run
        Ring.sha256Labels Storage.referenceCodecs Ring.threeNodes
        .defaultStrong [.put lost]).get Ring.sha256Labels Ring.threeNodes
        .defaultStrong read).value.isSome = true := by
  intro call lost read
  refine acked_key_never_missing Ring.sha256Labels Storage.referenceCodecs
    Ring.threeNodes .defaultStrong (by decide) "k" (by decide +kernel)
    (fresh Storage.referenceCodecs 1048576 3) call rfl rfl rfl
    (by decide +kernel) [.put lost] ?_ read rfl (by decide +kernel)
  simp [ClusterOp.Keeps, lost, putByte]

end Rkv.Replication
