import Rkv.Replication.Cluster
import Rkv.Storage.ReferenceCodec

/-!
# Reading after a delete

A delete that reached every replica leaves a tombstone on each.  The reader's
own tombstone is skipped, but one that comes over the wire has lost its marker
and looks like an empty value, so a read finds nothing exactly as long as no
other replica answers.
-/

namespace Rkv.Replication

open Rkv.Ring (Node HashRing)
open Rkv.Storage (Codecs VersionedValue)

/-- What else a cluster does: writes to other keys, and eviction on a node. -/
inductive ClusterOp where
  | put (call : PutCall)
  | delete (call : DeleteCall)
  | evict (node : String) (now : Int64)

def ClusterOp.Avoids (key : String) (now : Int64) : ClusterOp → Prop
  | .put call => call.key ≠ key
  | .delete call => call.key ≠ key
  | .evict _ reading => reading ≤ now

namespace Cluster

section

variable (hash : String → UInt64) (c : Codecs) (ring : HashRing)
  (quorum : QuorumConfig)

def step (cluster : Cluster) : ClusterOp → Cluster
  | .put call => cluster.put hash c ring quorum call
  | .delete call => cluster.delete hash c ring quorum call
  | .evict node now => cluster.evict node now

def run (cluster : Cluster) (ops : List ClusterOp) : Cluster :=
  ops.foldl (step hash c ring quorum) cluster

end

variable {hash : String → UInt64} {c : Codecs} {ring : HashRing}
  {quorum : QuorumConfig}

/-- An entry that has not expired survives what avoids its key. -/
theorem getRaw_step {cluster : Cluster} {key id : String} {now : Int64}
    {v : VersionedValue} (hv : (cluster.engines id).getRaw key = some v)
    (hlive : v.isExpired now = false) {op : ClusterOp}
    (hop : op.Avoids key now) :
    ((cluster.step hash c ring quorum op).engines id).getRaw key = some v := by
  cases op with
  | put call =>
      rcases cluster.putEngines_eq hash c ring quorum call id with h | h
      · exact (congrArg (·.getRaw key) h).trans hv
      · refine (congrArg (·.getRaw key) h).trans ?_
        simp only [Storage.StorageEngine.getRaw_put]
        rw [if_neg hop, hv]
  | delete call =>
      rcases cluster.deleteEngines_eq hash c ring quorum call id with h | h
      · exact (congrArg (·.getRaw key) h).trans hv
      · refine (congrArg (·.getRaw key) h).trans ?_
        simp only [Storage.StorageEngine.getRaw_delete]
        rw [if_neg hop, hv]
  | evict node reading =>
      have hfresh : v.isExpired reading = false := by
        by_contra hexpired
        rw [Bool.not_eq_false] at hexpired
        have hlater := VersionedValue.isExpired_mono hop hexpired
        rw [hlive] at hlater
        contradiction
      change ((if id = node then _ else _ : Storage.StorageEngine)).getRaw key =
        some v
      split
      · simp only [Storage.StorageEngine.getRaw,
          Storage.StorageEngine.evictExpired, Storage.MemTable.getRaw_evictExpired]
        simp only [Storage.StorageEngine.getRaw] at hv
        simp [hv, hfresh]
      · exact hv

theorem getRaw_run {cluster : Cluster} {key id : String} {now : Int64}
    {v : VersionedValue} (hv : (cluster.engines id).getRaw key = some v)
    (hlive : v.isExpired now = false) {ops : List ClusterOp}
    (hops : ∀ op ∈ ops, op.Avoids key now) :
    ((cluster.run hash c ring quorum ops).engines id).getRaw key = some v := by
  induction ops generalizing cluster with
  | nil => exact hv
  | cons op ops ih =>
      exact ih (getRaw_step hv hlive (hops op (by simp)))
        fun other hother => hops other (by simp [hother])

end Cluster

open Cluster in
/-- After a delete that every replica applied, a read of the key before the
tombstones expire returns nothing exactly when no replica other than the one the
read goes through answers. -/
theorem get_after_delete_iff (hash : String → UInt64) (c : Codecs)
    (ring : HashRing) (quorum : QuorumConfig) (cluster : Cluster)
    (call : DeleteCall)
    (happlied : ∀ node ∈ ring.getNodes hash call.key,
      reaches call.coordinator call.delivery node.id = true)
    (read : GetCall) (hkey : read.key = call.key)
    (hunexpired : ∀ node ∈ ring.getNodes hash call.key, ∀ v,
      ((cluster.delete hash c ring quorum call).engines node.id).getRaw
        call.key = some v → v.isExpired read.now = false)
    (later : List ClusterOp)
    (hlater : ∀ op ∈ later, op.Avoids call.key read.now) :
    (((cluster.delete hash c ring quorum call).run hash c ring quorum
        later).get hash ring quorum read).value = none ↔
      ∀ node ∈ ring.getNodes hash call.key, node.id ≠ read.coordinator →
        read.reply node.id ≠ .answers := by
  -- every replica holds an unexpired tombstone when the read comes
  have hstored : ∀ node ∈ ring.getNodes hash call.key, ∃ v : VersionedValue,
      v.deleted = true ∧ v.isExpired read.now = false ∧
        (((cluster.delete hash c ring quorum call).run hash c ring quorum
          later).engines node.id).getRaw call.key = some v := by
    intro node hnode
    have hdeleted : ((cluster.delete hash c ring quorum call).engines
        node.id).getRaw call.key =
          some ((cluster.engines node.id).tombstoneFor call.key
            (call.now node.id)) := by
      rw [engines_delete_of_mem cluster call hnode, if_pos (happlied node hnode)]
      simp
    have hlive := hunexpired node hnode _ hdeleted
    exact ⟨_, rfl, hlive, getRaw_run hdeleted hlive hlater⟩
  rw [get_value, resolveConflicts_eq_none_iff]
  constructor
  · intro hnone node hnode hne hanswers
    obtain ⟨v, -, hlive, hv⟩ := hstored node hnode
    refine hnone { v with deleted := false }
      ((mem_responses_iff _ read).mpr ⟨node, hkey ▸ hnode, ?_⟩) ⟨rfl, ?_⟩
    · rw [seen, if_neg hne, if_pos hanswers, hkey, hv]
      rfl
    · exact hlive
  · intro hsilent v hv
    obtain ⟨node, hnode, hseen⟩ := (mem_responses_iff _ read).mp hv
    rw [hkey] at hnode
    obtain ⟨w, hdeleted, -, hw⟩ := hstored node hnode
    unfold seen at hseen
    split at hseen
    · rw [hkey, hw] at hseen
      cases hseen
      rintro ⟨hlive, -⟩
      rw [hdeleted] at hlive
      contradiction
    · rename_i hne
      rw [if_neg (hsilent node hnode hne)] at hseen
      contradiction

/-! ## A delete on three nodes -/

def deleteThroughNode1 : DeleteCall where
  coordinator := "node1"
  key := "k"
  writeQuorum := 0
  now := fun _ => 1700000000000
  delivery := fun _ => .acked

def readAfterDelete (reply : String → Reply) : GetCall where
  coordinator := "node1"
  key := "k"
  readQuorum := 0
  now := 1700000000001
  reply := reply

open Cluster in
theorem get_after_delete_without_peers :
    (((fresh Storage.referenceCodecs 1048576 3).delete Ring.sha256Labels
      Storage.referenceCodecs Ring.threeNodes .defaultStrong
      deleteThroughNode1).run Ring.sha256Labels Storage.referenceCodecs
      Ring.threeNodes .defaultStrong [.evict "node2" 1700000000001] |>.get
      Ring.sha256Labels Ring.threeNodes .defaultStrong
      (readAfterDelete fun _ => .timeout)).value = none :=
  (get_after_delete_iff Ring.sha256Labels Storage.referenceCodecs
    Ring.threeNodes .defaultStrong (fresh Storage.referenceCodecs 1048576 3)
    deleteThroughNode1 (by decide +kernel) (readAfterDelete fun _ => .timeout)
    rfl (by decide +kernel) [.evict "node2" 1700000000001]
    (by simp [ClusterOp.Avoids, readAfterDelete])).mpr (by decide +kernel)

open Cluster in
/-- A peer's tombstone comes back as an empty value. -/
theorem deleted_key_reads_empty :
    let nodes := Ring.threeNodes.getNodes Ring.sha256Labels "k"
    let deleted := (fresh Storage.referenceCodecs 1048576 3).delete
      Ring.sha256Labels Storage.referenceCodecs Ring.threeNodes .defaultStrong
      deleteThroughNode1
    let read := readAfterDelete fun _ => .answers
    (∀ node ∈ nodes, reaches deleteThroughNode1.coordinator
        deleteThroughNode1.delivery node.id = true) ∧
      (∀ node ∈ nodes, ∀ v, (deleted.engines node.id).getRaw "k" = some v →
        v.deleted = true ∧ v.isExpired read.now = false) ∧
      ((deleted.get Ring.sha256Labels Ring.threeNodes .defaultStrong
        read).value.map (·.value)) = some [] := by
  decide +kernel

end Rkv.Replication
