import Rkv.Ring.ConsistentHash

/-!
# Preference lists

`get_nodes` walks the ring from the key's position to its end and then once more
from the start, past the position it began at.  What the second part meets again
is already in the list, so the result is that of one turn of the ring.
-/

namespace Rkv.Ring

open Rkv.Foundation

namespace HashRing

/-- One turn of the ring: from the key's position to the end, then from the start
up to that position. -/
def clockwise (hash : String → UInt64) (r : HashRing) (key : String) :
    List Node :=
  (r.ring.toList.filter (fun p => hash key ≤ p.1) ++
    r.ring.toList.filter fun p => p.1 < hash key).map (·.2)

variable {hash : String → UInt64} {r : HashRing} {key : String}

/-- What is left of the whole ring without the nodes met up to its end. -/
private theorem removeAll_nodes (entries : List (UInt64 × Node))
    (position : UInt64) :
    let met := (entries.filter fun p => position ≤ p.1).map (·.2.id)
    (entries.map (·.2.id)).removeAll met =
      ((entries.filter fun p => p.1 < position).map (·.2.id)).removeAll met := by
  intro met
  rw [List.removeAll, List.removeAll, List.filter_map, List.filter_map,
    List.filter_filter]
  refine congrArg _ (List.filter_congr ?_)
  intro p hp
  by_cases hbefore : p.1 < position
  · simp [hbefore]
  · have hmet : p.2.id ∈ met := List.mem_map_of_mem (List.mem_filter.mpr
      ⟨hp, decide_eq_true (UInt64.not_lt.mp hbefore)⟩)
    simp [hbefore, hmet]

theorem eraseDups_walk :
    ((r.walk hash key).map Node.id).eraseDups =
      ((r.clockwise hash key).map Node.id).eraseDups := by
  have hrest := removeAll_nodes r.ring.toList (hash key)
  dsimp only at hrest
  unfold walk clockwise nodesFrom nodes
  rw [List.map_append, List.map_append, List.map_append, List.eraseDups_append,
    List.eraseDups_append]
  simp only [List.map_map, Function.comp_def]
  rw [hrest]

theorem mem_map_walk {nodeId : String} :
    nodeId ∈ (r.walk hash key).map Node.id ↔ r.Holds nodeId := by
  rw [holds_iff_mem_nodes, walk, List.map_append, List.mem_append,
    or_iff_right_of_imp]
  intro hfrom
  rw [nodesFrom, List.map_map] at hfrom
  obtain ⟨p, hp, rfl⟩ := List.mem_map.mp hfrom
  rw [nodes, List.map_map]
  exact List.mem_map_of_mem (List.mem_of_mem_filter hp)

theorem holds_of_mem_getNodes {nodeId : String}
    (h : nodeId ∈ (r.getNodes hash key).map Node.id) : r.Holds nodeId := by
  rw [getNodes_eq] at h
  obtain ⟨node, hnode, rfl⟩ := List.mem_map.mp h
  have hwalk := mem_of_mem_firstsBy (List.mem_of_mem_take hnode)
  exact mem_map_walk.mp (List.mem_map_of_mem hwalk.1)

theorem length_firstsBy_walk (hash : String → UInt64) (r : HashRing)
    (key : String) :
    (firstsBy Node.id (r.walk hash key) []).length = r.nodeCount := by
  obtain ⟨hnodup, hmem⟩ := r.getAllNodes_spec
  have hperm := (List.perm_ext_iff_of_nodup (nodup_map_firstsBy
    (r.walk hash key) []) hnodup).mpr fun nodeId => by
      rw [mem_map_firstsBy, mem_map_walk, hmem]
  simpa [nodeCount] using hperm.length_eq

theorem getNodes_of_pos (hpos : 1 ≤ r.replicationFactor) :
    r.getNodes hash key =
      (firstsBy Node.id (r.walk hash key) []).take r.replicationFactor := by
  rw [getNodes_eq, max_eq_right hpos]

theorem head?_getNodes : (r.getNodes hash key).head? = r.getNode hash key := by
  rw [getNodes_eq, getNode_eq]
  cases r.walk hash key with
  | nil => simp [firstsBy]
  | cons node rest =>
      obtain ⟨n, hn⟩ : ∃ n, max 1 r.replicationFactor = n + 1 :=
        ⟨_, (Nat.sub_add_cancel (Nat.le_max_left 1 _)).symm⟩
      rw [hn, firstsBy, if_neg List.not_mem_nil, List.take_succ_cons]
      rfl

/-- A preference list has the first distinct nodes of one turn of the ring, as
many as asked for or as there are. -/
theorem getNodes_exact (hash : String → UInt64) (r : HashRing) (key : String)
    (hpos : 1 ≤ r.replicationFactor) :
    let ids := (r.getNodes hash key).map Node.id
    let count := min r.replicationFactor r.nodeCount
    ids.Nodup ∧ ids.length = count ∧
      ids = ((r.clockwise hash key).map Node.id).eraseDups.take count ∧
      (r.getNodes hash key).head? = r.getNode hash key ∧
      (r.ring.isEmpty = true →
        r.getNodes hash key = [] ∧ r.getNode hash key = none) ∧
      ∀ nodeId, r.isResponsible hash nodeId key = true ↔ nodeId ∈ ids := by
  intro ids count
  have hids : ids = ((r.clockwise hash key).map Node.id).eraseDups.take
      r.replicationFactor := by
    change (r.getNodes hash key).map Node.id = _
    rw [getNodes_of_pos hpos, List.map_take, map_firstsBy, ← eraseDups_walk]
    simp
  have htotal : ((r.clockwise hash key).map Node.id).eraseDups.length =
      r.nodeCount := by
    rw [← eraseDups_walk, ← length_firstsBy_walk hash r key,
      ← List.length_map (f := Node.id), map_firstsBy]
    simp
  refine ⟨nodup_getNodes hash r key, ?_, ?_, head?_getNodes, fun hempty => ?_,
    fun nodeId => isResponsible_iff⟩
  · rw [hids, List.length_take, htotal]
  · rw [hids, List.take_eq_take_min, htotal]
  · exact ⟨if_pos hempty, if_pos hempty⟩

theorem getNodes_exact_threeNodes :
    1 ≤ threeNodes.replicationFactor ∧
      ((threeNodes.getNodes sha256Labels "k").map Node.id).length =
        min threeNodes.replicationFactor threeNodes.nodeCount ∧
      (threeNodes.getNodes sha256Labels "k").head? =
        threeNodes.getNode sha256Labels "k" := by
  obtain ⟨-, hlength, -, hhead, -⟩ :=
    getNodes_exact sha256Labels threeNodes "k" (by decide)
  exact ⟨by decide, hlength, hhead⟩

end HashRing

end Rkv.Ring
