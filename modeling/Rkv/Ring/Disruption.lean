import Rkv.Ring.ConsistentHash

/-!
# What a membership change does to preference lists

Removing a node leaves its entries out of every walk, so the first occurrences
of what is left are the old ones without that node.  Adding a node to positions
that are free is undone by removing it again, so one comparison of two walks
covers both directions.
-/

namespace Rkv.Ring

open Std (ExtTreeMap)
open Rkv.Foundation

namespace HashRing

variable {hash : String → UInt64}

/-- The positions of a node's labels are not taken. -/
def FreeFor (hash : String → UInt64) (r : HashRing) (nodeId : String) : Prop :=
  ∀ i < r.vnodesPerNode, r.ring[hash (vnodeKey nodeId i)]? = none

def without (nodeId : String) (nodes : List Node) : List Node :=
  nodes.filter fun node => node.id ≠ nodeId

theorem walk_removeNode (hash : String → UInt64) (r : HashRing)
    (nodeId key : String) :
    (r.removeNode nodeId).walk hash key = without nodeId (r.walk hash key) := by
  have hnodes : (r.removeNode nodeId).nodes = without nodeId r.nodes := by
    simp only [nodes, removeNode, without, ExtTreeMap.toList_filter,
      List.filter_map]
    rfl
  have hfrom : (r.removeNode nodeId).nodesFrom (hash key) =
      without nodeId (r.nodesFrom (hash key)) := by
    simp only [nodesFrom, removeNode, without, ExtTreeMap.toList_filter,
      List.filter_map, List.filter_filter]
    congr 1
    apply List.filter_congr
    intro entry _
    exact Bool.and_comm _ _
  rw [walk, walk, hnodes, hfrom]
  exact (List.filter_append _ _).symm

theorem removeNode_addNode {r : HashRing} {node : Node}
    (habsent : ¬r.Holds node.id) (hfree : r.FreeFor hash node.id) :
    (r.addNode hash node).removeNode node.id = r := by
  have hring : ((r.addNode hash node).removeNode node.id).ring = r.ring := by
    apply ExtTreeMap.ext_getElem?
    intro position
    rw [getElem?_removeNode, getElem?_addNode]
    split
    · rename_i hlabel
      obtain ⟨i, hi, rfl⟩ := hlabel
      rw [hfree i hi]
      simp
    · cases hentry : r.ring[position]? with
      | none => rfl
      | some other =>
          have hne : other.id ≠ node.id := fun heq =>
            habsent ⟨position, other, hentry, heq⟩
          simp [hne]
  exact congrArg
    (fun ring => (⟨ring, r.vnodesPerNode, r.replicationFactor⟩ : HashRing)) hring

theorem mem_walk {r : HashRing} {node : Node} {key : String}
    (h : node ∈ r.walk hash key) :
    ∃ position : UInt64, r.ring[position]? = some node := by
  have hmem : node ∈ r.nodes := by
    rcases List.mem_append.mp h with hfrom | hnodes
    · obtain ⟨entry, hentry, rfl⟩ := List.mem_map.mp hfrom
      exact List.mem_map_of_mem (List.mem_filter.mp hentry).1
    · exact hnodes
  obtain ⟨⟨position, found⟩, hentry, rfl⟩ := List.mem_map.mp hmem
  exact ⟨position, ExtTreeMap.mem_toList_iff_getElem?_eq_some.mp hentry⟩

theorem eq_of_mem_walk_addNode {r : HashRing} {node found : Node} {key : String}
    (habsent : ¬r.Holds node.id)
    (hmem : found ∈ (r.addNode hash node).walk hash key)
    (hid : found.id = node.id) : found = node := by
  obtain ⟨position, hentry⟩ := mem_walk hmem
  rcases eq_or_of_getElem?_addNode hentry with heq | hold
  · exact heq
  · exact absurd ⟨position, found, hold, hid⟩ habsent

def candidates (hash : String → UInt64) (r : HashRing) (key : String) :
    List Node :=
  firstsBy Node.id (r.walk hash key) []

theorem candidates_removeNode (r : HashRing) (nodeId key : String) :
    (r.removeNode nodeId).candidates hash key =
      without nodeId (r.candidates hash key) := by
  rw [candidates, walk_removeNode]
  exact firstsBy_filter (fun id => decide (id ≠ nodeId)) _ _

theorem getNodes_eq_take {r : HashRing} (hfactor : 1 ≤ r.replicationFactor)
    (key : String) :
    r.getNodes hash key =
      (r.candidates hash key).take r.replicationFactor := by
  rw [getNodes_eq, Nat.max_eq_right hfactor]
  rfl

/-- With a node removed, a preference list is what it was, or it had the node and
loses it, and moves up by one. -/
theorem getNodes_removeNode (hash : String → UInt64) {r : HashRing}
    (hfactor : 1 ≤ r.replicationFactor) (nodeId key : String) :
    (nodeId ∉ (r.getNodes hash key).map Node.id ∧
        (r.removeNode nodeId).getNodes hash key = r.getNodes hash key) ∨
      nodeId ∈ (r.getNodes hash key).map Node.id ∧
        without nodeId (r.getNodes hash key) =
          ((r.removeNode nodeId).candidates hash key).take
            (r.replicationFactor - 1) := by
  have hremoved : (r.removeNode nodeId).getNodes hash key =
      (without nodeId (r.candidates hash key)).take r.replicationFactor := by
    rw [getNodes_eq_take (r := r.removeNode nodeId) hfactor,
      candidates_removeNode]
    rfl
  rw [hremoved, getNodes_eq_take hfactor, candidates_removeNode]
  by_cases hmem : nodeId ∈
      ((r.candidates hash key).take r.replicationFactor).map Node.id
  · right
    exact ⟨hmem, filter_take_of_mem (nodup_map_firstsBy _ _) hmem⟩
  · left
    exact ⟨hmem, take_filter_of_notMem hmem⟩

theorem getNodes_removeNode_gain {r : HashRing}
    (hfactor : 1 ≤ r.replicationFactor) (nodeId key : String) :
    without nodeId (r.getNodes hash key) <+:
        (r.removeNode nodeId).getNodes hash key ∧
      ((r.removeNode nodeId).getNodes hash key).length ≤
        (without nodeId (r.getNodes hash key)).length + 1 := by
  rcases getNodes_removeNode hash hfactor nodeId key with
    ⟨hnot, hsame⟩ | ⟨-, hmoved⟩
  · have hkept : without nodeId (r.getNodes hash key) = r.getNodes hash key := by
      rw [without, List.filter_eq_self]
      intro node hnode
      have hne : node.id ≠ nodeId := by
        rintro rfl
        exact hnot (List.mem_map_of_mem hnode)
      simpa using hne
    rw [hsame, hkept]
    exact ⟨List.prefix_rfl, Nat.le_succ _⟩
  · rw [hmoved, getNodes_eq_take (r := r.removeNode nodeId) hfactor]
    change List.take (r.replicationFactor - 1) _ <+:
      List.take r.replicationFactor _ ∧ _
    refine ⟨List.take_prefix_take_left (Nat.sub_le _ _), ?_⟩
    simp only [List.length_take, removeNode]
    omega

/-- Where the positions are free, a preference list either stays as it is or gets
the new node and loses the last one it has room for no more. -/
theorem getNodes_addNode {r : HashRing} (hfactor : 1 ≤ r.replicationFactor)
    {node : Node} (habsent : ¬r.Holds node.id)
    (hfree : r.FreeFor hash node.id) (key : String) :
    (r.addNode hash node).getNodes hash key = r.getNodes hash key ∨
      node ∈ (r.addNode hash node).getNodes hash key ∧
        without node.id ((r.addNode hash node).getNodes hash key) =
          if (r.getNodes hash key).length < r.replicationFactor then
            r.getNodes hash key
          else (r.getNodes hash key).dropLast := by
  have hback := removeNode_addNode habsent hfree
  have hchange := getNodes_removeNode hash (r := r.addNode hash node)
    hfactor node.id key
  rw [hback] at hchange
  rcases hchange with ⟨-, hsame⟩ | ⟨hmem, hmoved⟩
  · exact .inl hsame.symm
  · right
    constructor
    · obtain ⟨found, hfound, hid⟩ := List.mem_map.mp hmem
      have hwalk : found ∈ (r.addNode hash node).walk hash key := by
        rw [getNodes_eq] at hfound
        exact (mem_of_mem_firstsBy (List.mem_of_mem_take hfound)).1
      obtain rfl := eq_of_mem_walk_addNode habsent hwalk hid
      exact hfound
    · rw [hmoved, getNodes_eq_take hfactor]
      change List.take (r.replicationFactor - 1) _ = _
      split
      · rename_i hshort
        rw [List.length_take] at hshort
        rw [List.take_of_length_le (by omega), List.take_of_length_le (by omega)]
      · rename_i hfull
        rw [List.length_take] at hfull
        rw [List.dropLast_eq_take, List.take_take, List.length_take]
        congr 1
        omega

theorem getNode_addNode {r : HashRing} {node : Node}
    (habsent : ¬r.Holds node.id) (hfree : r.FreeFor hash node.id)
    (key : String) :
    (r.addNode hash node).getNode hash key = r.getNode hash key ∨
      (r.addNode hash node).getNode hash key = some node := by
  have hwalk := walk_removeNode hash (r.addNode hash node) node.id key
  rw [removeNode_addNode habsent hfree] at hwalk
  rw [getNode_eq, getNode_eq, hwalk]
  cases hfirst : (r.addNode hash node).walk hash key with
  | nil => exact .inl rfl
  | cons first rest =>
      by_cases hid : first.id = node.id
      · right
        have hmem : first ∈ (r.addNode hash node).walk hash key := by
          simp [hfirst]
        rw [eq_of_mem_walk_addNode habsent hmem hid]
        rfl
      · left
        rw [without, List.filter_cons_of_pos (by simp [hid])]
        rfl

end HashRing

open HashRing in
/-- A node that joins at free positions displaces at most the last node of a
preference list, and one that leaves lets in at most one. -/
theorem minimal_disruption (hash : String → UInt64) (r : HashRing)
    (hfactor : 1 ≤ r.replicationFactor) (x : Node) (key : String) :
    (¬r.Holds x.id → r.FreeFor hash x.id →
      ((r.addNode hash x).getNodes hash key = r.getNodes hash key ∨
        x ∈ (r.addNode hash x).getNodes hash key ∧
          without x.id ((r.addNode hash x).getNodes hash key) =
            if (r.getNodes hash key).length < r.replicationFactor then
              r.getNodes hash key
            else (r.getNodes hash key).dropLast) ∧
      ((r.addNode hash x).getNode hash key = r.getNode hash key ∨
        (r.addNode hash x).getNode hash key = some x)) ∧
    without x.id (r.getNodes hash key) <+:
        (r.removeNode x.id).getNodes hash key ∧
      ((r.removeNode x.id).getNodes hash key).length ≤
        (without x.id (r.getNodes hash key)).length + 1 := by
  constructor
  · intro habsent hfree
    exact ⟨getNodes_addNode hfactor habsent hfree key,
      getNode_addNode habsent hfree key⟩
  · exact getNodes_removeNode_gain hfactor x.id key

def twoNodes : HashRing :=
  ((HashRing.new 1 2).addNode sha256Labels ⟨"node1", "10.0.0.1:50051"⟩).addNode
    sha256Labels ⟨"node2", "10.0.0.2:50051"⟩

open HashRing in
theorem minimal_disruption_third_node :
    let joined := twoNodes.addNode sha256Labels ⟨"node3", "10.0.0.3:50051"⟩
    1 ≤ twoNodes.replicationFactor ∧ ¬twoNodes.Holds "node3" ∧
      twoNodes.FreeFor sha256Labels "node3" ∧
      ⟨"node3", "10.0.0.3:50051"⟩ ∈ joined.getNodes sha256Labels "k" ∧
      without "node3" (joined.getNodes sha256Labels "k") =
        (twoNodes.getNodes sha256Labels "k").dropLast := by
  intro joined
  have habsent : ¬twoNodes.Holds "node3" := by decide +kernel
  have hfree : twoNodes.FreeFor sha256Labels "node3" := by
    intro i hi
    obtain rfl : i = 0 := Nat.lt_one_iff.mp hi
    decide +kernel
  have hfactor : 1 ≤ twoNodes.replicationFactor := by decide
  obtain ⟨hsame | ⟨hmem, hwithout⟩, -⟩ := (minimal_disruption sha256Labels
    twoNodes hfactor ⟨"node3", "10.0.0.3:50051"⟩ "k").1 habsent hfree
  · exact absurd hsame (by decide +kernel)
  · refine ⟨hfactor, habsent, hfree, hmem, hwithout.trans ?_⟩
    decide +kernel

end Rkv.Ring
