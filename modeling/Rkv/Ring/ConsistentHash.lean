import Rkv.Foundation.FirstOccurrence

/-!
# The consistent hash ring

`ring/consistent_hash.rs`.  `hash` stands for the first eight bytes of SHA-256.
A preference list is a clockwise walk from the key's position, once around and
beyond, that keeps the first node of each id.
-/

namespace Rkv.Ring

open Std (ExtTreeMap)
open Rkv.Foundation

structure Node where
  id : String
  address : String
  deriving DecidableEq, Repr

structure HashRing where
  ring : ExtTreeMap UInt64 Node
  vnodesPerNode : Nat
  replicationFactor : Nat

def vnodeKey (nodeId : String) (i : Nat) : String :=
  nodeId ++ ":vnode:" ++ i.repr

/-- The loop of `get_nodes`. -/
def collectNodes (target : Nat) :
    List Node → List String → List Node → List Node
  | [], _, result => result
  | node :: rest, seenIds, result =>
      if node.id ∈ seenIds then collectNodes target rest seenIds result
      else if target ≤ (result ++ [node]).length then result ++ [node]
      else collectNodes target rest (node.id :: seenIds) (result ++ [node])

/-- The loop of `get_all_nodes`. -/
def collectAll : List Node → List String → List Node → List Node
  | [], _, nodes => nodes
  | node :: rest, seen, nodes =>
      if node.id ∈ seen then collectAll rest seen nodes
      else collectAll rest (node.id :: seen) (nodes ++ [node])

namespace HashRing

def new (vnodesPerNode replicationFactor : Nat) : HashRing :=
  ⟨∅, vnodesPerNode, replicationFactor⟩

def addNode (hash : String → UInt64) (r : HashRing) (node : Node) : HashRing :=
  { r with
    ring := (List.range r.vnodesPerNode).foldl
      (fun ring i => ring.insert (hash (vnodeKey node.id i)) node) r.ring }

def removeNode (r : HashRing) (nodeId : String) : HashRing :=
  { r with ring := r.ring.filter fun _ node => node.id ≠ nodeId }

def nodes (r : HashRing) : List Node := r.ring.toList.map (·.2)

def nodesFrom (r : HashRing) (position : UInt64) : List Node :=
  (r.ring.toList.filter fun p => position ≤ p.1).map (·.2)

def getNode (hash : String → UInt64) (r : HashRing) (key : String) :
    Option Node :=
  if r.ring.isEmpty then none
  else (r.nodesFrom (hash key)).head?.or r.nodes.head?

def getNodes (hash : String → UInt64) (r : HashRing) (key : String) :
    List Node :=
  if r.ring.isEmpty then []
  else collectNodes r.replicationFactor
    (r.nodesFrom (hash key) ++ r.nodes) [] []

def getAllNodes (r : HashRing) : List Node := collectAll r.nodes [] []

def nodeCount (r : HashRing) : Nat := r.getAllNodes.length

def isResponsible (hash : String → UInt64) (r : HashRing)
    (nodeId key : String) : Bool :=
  (r.getNodes hash key).any fun n => n.id == nodeId

end HashRing

/-! ## Updates -/

namespace HashRing

def Holds (r : HashRing) (nodeId : String) : Prop :=
  ∃ (position : UInt64) (node : Node),
    r.ring[position]? = some node ∧ node.id = nodeId

theorem holds_iff_mem_nodes {r : HashRing} {nodeId : String} :
    r.Holds nodeId ↔ nodeId ∈ r.nodes.map Node.id := by
  rw [nodes, List.map_map, List.mem_map]
  constructor
  · rintro ⟨position, node, hentry, rfl⟩
    exact ⟨(position, node),
      ExtTreeMap.mem_toList_iff_getElem?_eq_some.mpr hentry, rfl⟩
  · rintro ⟨⟨position, node⟩, hmem, rfl⟩
    exact ⟨position, node, ExtTreeMap.mem_toList_iff_getElem?_eq_some.mp hmem, rfl⟩

instance (r : HashRing) (nodeId : String) : Decidable (r.Holds nodeId) :=
  decidable_of_iff _ holds_iff_mem_nodes.symm

theorem getElem?_addNode (hash : String → UInt64) (r : HashRing) (node : Node)
    (position : UInt64) :
    (r.addNode hash node).ring[position]? =
      if ∃ i < r.vnodesPerNode, hash (vnodeKey node.id i) = position then
        some node
      else r.ring[position]? := by
  unfold addNode
  dsimp only
  generalize r.vnodesPerNode = vnodes
  induction vnodes with
  | zero => simp
  | succ vnodes ih =>
      rw [List.range_succ, List.foldl_append, List.foldl_cons, List.foldl_nil,
        ExtTreeMap.getElem?_insert, ih]
      by_cases hlast : hash (vnodeKey node.id vnodes) = position
      · have hany : ∃ i < vnodes + 1, hash (vnodeKey node.id i) = position :=
          ⟨vnodes, Nat.lt_succ_self vnodes, hlast⟩
        rw [if_pos (by simp [hlast]), if_pos hany]
      · have hiff : (∃ i < vnodes + 1, hash (vnodeKey node.id i) = position) ↔
            ∃ i < vnodes, hash (vnodeKey node.id i) = position := by
          constructor
          · rintro ⟨i, hi, heq⟩
            rcases Nat.lt_succ_iff_lt_or_eq.mp hi with hlt | rfl
            · exact ⟨i, hlt, heq⟩
            · exact absurd heq hlast
          · rintro ⟨i, hi, heq⟩
            exact ⟨i, Nat.lt_succ_of_lt hi, heq⟩
        rw [if_neg (by simp [hlast])]
        simp only [hiff]

theorem getElem?_removeNode (r : HashRing) (nodeId : String)
    (position : UInt64) :
    (r.removeNode nodeId).ring[position]? =
      (r.ring[position]?).filter fun node => node.id ≠ nodeId := by
  simp [removeNode]

theorem eq_or_of_getElem?_addNode {hash : String → UInt64} {r : HashRing}
    {node found : Node} {position : UInt64}
    (h : (r.addNode hash node).ring[position]? = some found) :
    found = node ∨ r.ring[position]? = some found := by
  rw [getElem?_addNode] at h
  split at h
  · exact .inl (Option.some.inj h).symm
  · exact .inr h

theorem of_getElem?_removeNode {r : HashRing} {nodeId : String}
    {position : UInt64} {found : Node}
    (h : (r.removeNode nodeId).ring[position]? = some found) :
    r.ring[position]? = some found := by
  rw [getElem?_removeNode, Option.filter_eq_some_iff] at h
  exact h.1

theorem holds_of_holds_addNode {hash : String → UInt64} {r : HashRing}
    {node : Node} {nodeId : String} (h : (r.addNode hash node).Holds nodeId) :
    nodeId = node.id ∨ r.Holds nodeId := by
  obtain ⟨position, found, hentry, rfl⟩ := h
  rcases eq_or_of_getElem?_addNode hentry with rfl | hold
  · exact .inl rfl
  · exact .inr ⟨position, found, hold, rfl⟩

theorem holds_removeNode {r : HashRing} {nodeId removed : String} :
    (r.removeNode removed).Holds nodeId ↔ r.Holds nodeId ∧ nodeId ≠ removed := by
  simp only [Holds, getElem?_removeNode, Option.filter_eq_some_iff,
    decide_eq_true_eq]
  constructor
  · rintro ⟨position, node, ⟨hentry, hne⟩, rfl⟩
    exact ⟨⟨position, node, hentry, rfl⟩, hne⟩
  · rintro ⟨⟨position, node, hentry, rfl⟩, hne⟩
    exact ⟨position, node, ⟨hentry, hne⟩, rfl⟩

end HashRing

/-! ## Preference lists -/

/-- The loop of `get_nodes` takes first occurrences until it has enough, and at
least one. -/
theorem collectNodes_eq (target : Nat) (walk : List Node)
    (seenIds : List String) (result : List Node) :
    collectNodes target walk seenIds result =
      result ++ (firstsBy Node.id walk seenIds).take
        (max 1 (target - result.length)) := by
  induction walk generalizing seenIds result with
  | nil => simp [collectNodes, firstsBy]
  | cons node walk ih =>
      rw [collectNodes, firstsBy]
      split
      · exact ih seenIds result
      · rw [List.length_append, List.length_singleton]
        split
        · rename_i henough
          rw [show max 1 (target - result.length) = 0 + 1 by omega,
            List.take_succ_cons, List.take_zero]
        · rename_i hmore
          rw [ih, List.length_append, List.length_singleton, List.append_assoc,
            show max 1 (target - result.length) =
              max 1 (target - (result.length + 1)) + 1 by omega,
            List.take_succ_cons]
          rfl

theorem collectAll_eq (walk : List Node) (seen : List String)
    (nodes : List Node) :
    collectAll walk seen nodes = nodes ++ firstsBy Node.id walk seen := by
  induction walk generalizing seen nodes with
  | nil => simp [collectAll, firstsBy]
  | cons node walk ih =>
      rw [collectAll, firstsBy]
      split
      · exact ih seen nodes
      · rw [ih, List.append_assoc]
        rfl

namespace HashRing

/-- `get_all_nodes` lists each node of the ring once. -/
theorem getAllNodes_spec (r : HashRing) :
    (r.getAllNodes.map Node.id).Nodup ∧
      ∀ nodeId, nodeId ∈ r.getAllNodes.map Node.id ↔ r.Holds nodeId := by
  have hall : r.getAllNodes = firstsBy Node.id r.nodes [] := by
    rw [getAllNodes, collectAll_eq, List.nil_append]
  rw [hall]
  refine ⟨nodup_map_firstsBy _ _, fun nodeId => ?_⟩
  rw [mem_map_firstsBy, holds_iff_mem_nodes]

/-- The entries in the order a key's walk meets them. -/
def walk (hash : String → UInt64) (r : HashRing) (key : String) : List Node :=
  r.nodesFrom (hash key) ++ r.nodes

theorem walk_eq_nil {hash : String → UInt64} {r : HashRing} {key : String}
    (h : r.ring.isEmpty = true) : r.walk hash key = [] := by
  have hnil : r.ring.toList = [] := by
    rw [ExtTreeMap.toList_eq_nil_iff, ← ExtTreeMap.isEmpty_iff]
    exact h
  simp [walk, nodesFrom, nodes, hnil]

theorem getNodes_eq (hash : String → UInt64) (r : HashRing) (key : String) :
    r.getNodes hash key =
      (firstsBy Node.id (r.walk hash key) []).take
        (max 1 r.replicationFactor) := by
  unfold getNodes
  split
  · rename_i hempty
    simp [walk_eq_nil hempty, firstsBy]
  · exact collectNodes_eq _ _ _ _

theorem getNode_eq (hash : String → UInt64) (r : HashRing) (key : String) :
    r.getNode hash key = (r.walk hash key).head? := by
  unfold getNode
  split
  · rename_i hempty
    simp [walk_eq_nil hempty]
  · exact List.head?_append.symm

theorem nodup_getNodes (hash : String → UInt64) (r : HashRing) (key : String) :
    ((r.getNodes hash key).map Node.id).Nodup := by
  rw [getNodes_eq, List.map_take]
  exact (nodup_map_firstsBy _ _).sublist (List.take_sublist _ _)

theorem isResponsible_iff {hash : String → UInt64} {r : HashRing}
    {nodeId key : String} :
    r.isResponsible hash nodeId key = true ↔
      nodeId ∈ (r.getNodes hash key).map Node.id := by
  simp [isResponsible]

theorem countP_id_eq (hash : String → UInt64) (r : HashRing)
    (key nodeId : String) :
    (r.getNodes hash key).countP (fun n => n.id == nodeId) =
      if r.isResponsible hash nodeId key then 1 else 0 := by
  have hcount : (r.getNodes hash key).countP (fun n => n.id == nodeId) =
      ((r.getNodes hash key).map Node.id).count nodeId := by
    rw [List.count, List.countP_map]
    rfl
  have hnodup := nodup_getNodes hash r key
  rw [hcount]
  split
  · rename_i hresponsible
    exact List.count_eq_one_of_mem hnodup (isResponsible_iff.mp hresponsible)
  · rename_i hnot
    exact List.count_eq_zero.mpr fun hmem => hnot (isResponsible_iff.mpr hmem)

end HashRing

/-! ## Three nodes -/

/-- The first eight bytes of SHA-256 for the labels of three nodes with one
virtual node each, and for the key `k`. -/
def sha256Labels : String → UInt64
  | "node1:vnode:0" => 0x1b2db06c4a602bea
  | "node2:vnode:0" => 0xd8908c550815c73d
  | "node3:vnode:0" => 0x9870bed1221e7322
  | "k" => 0x8254c329a92850f6
  | _ => 0

def threeNodes : HashRing :=
  (((HashRing.new 1 3).addNode sha256Labels ⟨"node1", "10.0.0.1:50051"⟩).addNode
    sha256Labels ⟨"node2", "10.0.0.2:50051"⟩).addNode sha256Labels
      ⟨"node3", "10.0.0.3:50051"⟩

example :
    threeNodes.getNodes sha256Labels "k" =
      [⟨"node3", "10.0.0.3:50051"⟩, ⟨"node2", "10.0.0.2:50051"⟩,
        ⟨"node1", "10.0.0.1:50051"⟩] := by decide +kernel

end Rkv.Ring
