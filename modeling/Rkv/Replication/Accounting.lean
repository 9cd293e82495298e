import Rkv.Replication.Coordinator
import Rkv.Storage.ReferenceCodec

/-!
# What a read quorum counts

A peer that did not answer and one that answered "not found" both come back as
`None`, and the loop of `get` counts a success for every peer it asked.  The
numbers of a read are right when every peer answered, and only then.
-/

namespace Rkv.Replication

open Rkv.Grpc
open Rkv.Ring (Node HashRing)

namespace ReplicationCoordinator

variable {hash : String → UInt64}

/-- A replica really answers a read: it is the coordinator itself, or its RPC
came back. -/
def answers (co : ReplicationCoordinator) (key : String)
    (rpc : Node → Proto.GetInternalRequest →
      RpcResult Proto.GetInternalResponse) (node : Node) : Bool :=
  node.id == co.engine.nodeId || (rpc node ⟨key⟩).answered

theorem successes_get (co : ReplicationCoordinator) (key : String)
    (readQuorumOverride : Nat) (now : Int64)
    (rpc : Node → Proto.GetInternalRequest →
      RpcResult Proto.GetInternalResponse) :
    (co.get hash key readQuorumOverride now rpc).successes =
      (co.ring.getNodes hash key).length := by
  rw [get_eq, length_getNodes]

theorem required_le_of_kvGet_ok {co : ReplicationCoordinator}
    {req : Proto.GetRequest} {now : Int64}
    {rpc : Node → Proto.GetInternalRequest →
      RpcResult Proto.GetInternalResponse} {resp : Proto.GetResponse}
    (h : kvGet hash co req now rpc = .ok resp) :
    co.quorum.effectiveReadQuorum req.readQuorum ≤
      (co.ring.getNodes hash req.key).length := by
  unfold kvGet at h
  dsimp only at h
  split at h
  · contradiction
  · rename_i hsuccess
    have hle : (co.get hash req.key req.readQuorum now rpc).required ≤
        (co.get hash req.key req.readQuorum now rpc).successes := by
      simpa [QuorumResult.isSuccess] using hsuccess
    rwa [successes_get, get_eq] at hle

end ReplicationCoordinator

open ReplicationCoordinator in
/-- A read counts its answers and failures truthfully, and is only then granted
on a real quorum, exactly when every peer answers. -/
theorem read_accounting_iff (hash : String → UInt64)
    (co : ReplicationCoordinator) (key : String) (readQuorumOverride : Nat)
    (now : Int64)
    (rpc : Node → Proto.GetInternalRequest →
      RpcResult Proto.GetInternalResponse) :
    let nodes := co.ring.getNodes hash key
    let result := co.get hash key readQuorumOverride now rpc
    let answered := nodes.countP (co.answers key rpc)
    (result.successes = answered ∧
        result.failures = nodes.countP (fun n => !co.answers key rpc n) ∧
        ∀ resp, kvGet hash co ⟨key, readQuorumOverride⟩ now rpc = .ok resp →
          co.quorum.effectiveReadQuorum readQuorumOverride ≤ answered) ↔
      ∀ node ∈ nodes, node.id ≠ co.engine.nodeId →
        (rpc node ⟨key⟩).answered = true := by
  intro nodes result answered
  have hall : nodes.length = answered ↔ ∀ node ∈ nodes,
      node.id ≠ co.engine.nodeId → (rpc node ⟨key⟩).answered = true := by
    rw [eq_comm, List.countP_eq_length]
    simp only [answers, Bool.or_eq_true, beq_iff_eq, or_iff_not_imp_left]
  constructor
  · rintro ⟨hsuccesses, -, -⟩
    rw [← hall, ← hsuccesses]
    exact (successes_get co key readQuorumOverride now rpc).symm
  · intro hpeers
    have hanswered := hall.mpr hpeers
    refine ⟨?_, ?_, fun resp hresp => ?_⟩
    · rw [← hanswered]
      exact successes_get co key readQuorumOverride now rpc
    · have hsilent : nodes.countP (fun n => !co.answers key rpc n) = 0 := by
        rw [List.countP_eq_zero]
        intro node hnode
        simp [List.countP_eq_length.mp hanswered.symm node hnode]
      rw [hsilent]
      exact congrArg QuorumResult.failures
        (get_eq co key readQuorumOverride now rpc)
    · rw [← hanswered]
      exact required_le_of_kvGet_ok hresp

/-- A read whose two peers fail is counted as three answers and granted. -/
theorem failed_peers_counted :
    let co : ReplicationCoordinator :=
      ⟨.fresh Storage.referenceCodecs ⟨1048576, 3, "node1"⟩, Ring.threeNodes,
        .defaultStrong⟩
    let rpc : Node → Proto.GetInternalRequest →
      RpcResult Proto.GetInternalResponse := fun _ _ => .error
    let nodes := co.ring.getNodes Ring.sha256Labels "k"
    let result := co.get Ring.sha256Labels "k" 0 1700000000000 rpc
    nodes.countP (co.answers "k" rpc) = 1 ∧
      nodes.countP (fun n => !co.answers "k" rpc n) = 2 ∧
      result.successes = 3 ∧ result.failures = 0 ∧
      kvGet Ring.sha256Labels co ⟨"k", 0⟩ 1700000000000 rpc =
        .ok ⟨false, [], none⟩ ∧
      co.quorum.effectiveReadQuorum 0 = 2 := by
  decide +kernel

end Rkv.Replication
