import Rkv.Foundation.Decimal
import Rkv.Foundation.Log
import Rkv.Ring.ConsistentHash

/-!
# A ring is determined by its members

Gossip tells the nodes of a cluster about each other in different orders.  What
a ring holds depends on the last call for each id only: `Represents` says which
entries a membership gives, and every call changes the membership at one id.
-/

namespace Rkv.Ring

open Std (ExtTreeMap)
open Rkv.Foundation

/-! ## Labels -/

theorem toList_vnodeKey (nodeId : String) (i : Nat) :
    (vnodeKey nodeId i).toList =
      (nodeId.toList ++ ":vnode".toList) ++ ':' :: decimal i := by
  simp [vnodeKey, decimal]

theorem vnodeKey_inj {id other : String} {i j : Nat}
    (h : vnodeKey id i = vnodeKey other j) : id = other ∧ i = j := by
  have hlist := congrArg String.toList h
  rw [toList_vnodeKey, toList_vnodeKey] at hlist
  obtain ⟨hfront, hnumber⟩ := append_cons_decimal_inj (by decide) hlist
  exact ⟨String.ext (List.append_cancel_right hfront), hnumber⟩

/-- The labels of these nodes hash to different positions. -/
def NoCollisions (hash : String → UInt64) (vnodes : Nat) (ids : List String) :
    Prop :=
  Set.InjOn hash {label | ∃ id ∈ ids, ∃ i < vnodes, label = vnodeKey id i}

theorem NoCollisions.eq_of_hash_eq {hash : String → UInt64} {vnodes : Nat}
    {ids : List String} (h : NoCollisions hash vnodes ids) {id other : String}
    (hid : id ∈ ids) (hother : other ∈ ids) {i j : Nat} (hi : i < vnodes)
    (hj : j < vnodes)
    (heq : hash (vnodeKey id i) = hash (vnodeKey other j)) : id = other :=
  (vnodeKey_inj (h ⟨id, hid, i, hi, rfl⟩ ⟨other, hother, j, hj, rfl⟩ heq)).1

theorem NoCollisions.mono {hash : String → UInt64} {vnodes : Nat}
    {ids others : List String} (h : NoCollisions hash vnodes ids)
    (hsub : others ⊆ ids) : NoCollisions hash vnodes others := by
  refine Set.InjOn.mono ?_ h
  rintro label ⟨id, hid, hlabel⟩
  exact ⟨id, hsub hid, hlabel⟩

theorem noCollisions_of_nodup {hash : String → UInt64} {vnodes : Nat}
    (ids : List String)
    (h : ((ids.flatMap fun id =>
      (List.range vnodes).map (vnodeKey id)).map hash).Nodup)
    {others : List String} (hsub : others ⊆ ids) :
    NoCollisions hash vnodes others := by
  refine NoCollisions.mono (fun label hlabel other hother heq => ?_) hsub
  have hmem : ∀ label, (∃ id ∈ ids, ∃ i < vnodes, label = vnodeKey id i) →
      label ∈ ids.flatMap fun id => (List.range vnodes).map (vnodeKey id) := by
    rintro label ⟨id, hid, i, hi, rfl⟩
    exact List.mem_flatMap.mpr ⟨id, hid,
      List.mem_map_of_mem (List.mem_range.mpr hi)⟩
  exact List.inj_on_of_nodup_map h (hmem label hlabel) (hmem other hother) heq

/-! ## Members -/

namespace HashRing

/-- The ring has the entries of these members, each under its labels. -/
def Represents (hash : String → UInt64) (r : HashRing)
    (members : String → Option String) : Prop :=
  ∀ (position : UInt64) (node : Node),
    r.ring[position]? = some node ↔
      members node.id = some node.address ∧
        ∃ i < r.vnodesPerNode, hash (vnodeKey node.id i) = position

namespace Represents

variable {hash : String → UInt64} {r other : HashRing}
  {members : String → Option String}

theorem new (hash : String → UInt64) (vnodes factor : Nat) :
    Represents hash (HashRing.new vnodes factor) fun _ => none := by
  intro position node
  simp [HashRing.new]

theorem addNode (h : Represents hash r members) {ids : List String}
    (hcollide : NoCollisions hash r.vnodesPerNode ids)
    (hmembers : ∀ id address, members id = some address → id ∈ ids)
    (node : Node) (hnode : node.id ∈ ids) :
    Represents hash (r.addNode hash node)
      (Function.update members node.id (some node.address)) := by
  intro position found
  rw [getElem?_addNode]
  split
  · rename_i hlabel
    obtain ⟨i, hi, rfl⟩ := hlabel
    constructor
    · intro hfound
      cases hfound
      exact ⟨Function.update_self .., i, hi, rfl⟩
    · rintro ⟨hmember, j, hj, hposition⟩
      -- an entry at a position of the new node is one of its own
      have hfound : found.id ∈ ids := by
        by_cases hid : found.id = node.id
        · exact hid ▸ hnode
        · rw [Function.update_of_ne hid] at hmember
          exact hmembers _ _ hmember
      have hid := hcollide.eq_of_hash_eq hfound hnode hj hi hposition
      rw [hid, Function.update_self] at hmember
      obtain ⟨id, address⟩ := found
      obtain ⟨nodeId, nodeAddress⟩ := node
      simp_all
  · rename_i hfree
    rw [h position found]
    constructor
    · rintro ⟨hmember, i, hi, hposition⟩
      have hid : found.id ≠ node.id := fun hid =>
        hfree ⟨i, hi, hid ▸ hposition⟩
      rw [Function.update_of_ne hid]
      exact ⟨hmember, i, hi, hposition⟩
    · rintro ⟨hmember, i, hi, hposition⟩
      have hid : found.id ≠ node.id := fun hid =>
        hfree ⟨i, hi, hid ▸ hposition⟩
      rw [Function.update_of_ne hid] at hmember
      exact ⟨hmember, i, hi, hposition⟩

theorem removeNode (h : Represents hash r members) (nodeId : String) :
    Represents hash (r.removeNode nodeId)
      (Function.update members nodeId none) := by
  intro position found
  rw [getElem?_removeNode, Option.filter_eq_some_iff, h position found]
  by_cases hid : found.id = nodeId
  · simp [hid]
  · simp [hid, HashRing.removeNode]

theorem ring_eq (h : Represents hash r members)
    (hother : Represents hash other members)
    (hvnodes : r.vnodesPerNode = other.vnodesPerNode) : r.ring = other.ring := by
  apply ExtTreeMap.ext_getElem?
  intro position
  apply Option.ext
  intro node
  rw [h position node, hother position node, hvnodes]

theorem holds_iff (h : Represents hash r members) (hvnodes : 1 ≤ r.vnodesPerNode)
    {nodeId : String} :
    r.Holds nodeId ↔ ∃ address, members nodeId = some address := by
  constructor
  · rintro ⟨position, node, hnode, rfl⟩
    exact ⟨node.address, ((h position node).mp hnode).1⟩
  · rintro ⟨address, hmember⟩
    exact ⟨_, ⟨nodeId, address⟩,
      (h _ ⟨nodeId, address⟩).mpr ⟨hmember, 0, hvnodes, rfl⟩, rfl⟩

end Represents

end HashRing

/-! ## Histories -/

inductive RingOp where
  | add (node : Node)
  | remove (nodeId : String)

namespace RingOp

def nodeId : RingOp → String
  | add node => node.id
  | remove nodeId => nodeId

/-- What the call leaves under its id: an address or nothing. -/
def write : RingOp → String × Option String
  | add node => (node.id, some node.address)
  | remove nodeId => (nodeId, none)

/-- The ids whose last call adds them, with the address of that call. -/
def membership (ops : List RingOp) (id : String) : Option String :=
  (lastWrite id (ops.map write)).join

theorem membership_concat (ops : List RingOp) (op : RingOp) :
    membership (ops ++ [op]) =
      Function.update (membership ops) op.write.1 op.write.2 := by
  funext id
  simp only [membership, List.map_append, List.map_cons, List.map_nil,
    lastWrite_append, lastWrite, Option.none_or]
  by_cases hid : op.write.1 = id
  · subst hid
    simp
  · rw [Function.update_of_ne (Ne.symm hid)]
    simp [hid, membership]

theorem mem_of_membership {ops : List RingOp} {id address : String}
    (h : membership ops id = some address) : id ∈ ops.map nodeId := by
  have hlast : lastWrite id (ops.map write) = some (some address) :=
    Option.join_eq_some_iff.mp h
  obtain ⟨op, hop, hwrite⟩ := List.mem_map.mp (mem_of_lastWrite_eq_some hlast)
  refine List.mem_map.mpr ⟨op, hop, ?_⟩
  cases op with
  | add node => exact congrArg Prod.fst hwrite
  | remove nodeId => exact congrArg Prod.fst hwrite

end RingOp

namespace HashRing

def apply (hash : String → UInt64) (r : HashRing) : RingOp → HashRing
  | .add node => r.addNode hash node
  | .remove nodeId => r.removeNode nodeId

def applyAll (hash : String → UInt64) (r : HashRing) (ops : List RingOp) :
    HashRing :=
  ops.foldl (apply hash) r

theorem config_applyAll (hash : String → UInt64) (r : HashRing)
    (ops : List RingOp) :
    (r.applyAll hash ops).vnodesPerNode = r.vnodesPerNode ∧
      (r.applyAll hash ops).replicationFactor = r.replicationFactor := by
  induction ops generalizing r with
  | nil => exact ⟨rfl, rfl⟩
  | cons op ops ih =>
      have hrest := ih (r.apply hash op)
      cases op with
      | add node => exact hrest
      | remove nodeId => exact hrest

theorem represents_applyAll {hash : String → UInt64} {vnodes : Nat}
    {ops : List RingOp}
    (hcollide : NoCollisions hash vnodes (ops.map RingOp.nodeId))
    (factor : Nat) :
    Represents hash ((new vnodes factor).applyAll hash ops)
      (RingOp.membership ops) := by
  induction ops using List.reverseRecOn with
  | nil => exact Represents.new hash vnodes factor
  | append_singleton ops op ih =>
      have hfront := ih (hcollide.mono (by simp))
      have hvnodes : ((new vnodes factor).applyAll hash ops).vnodesPerNode =
          vnodes :=
        (config_applyAll hash (new vnodes factor) ops).1
      rw [applyAll, List.foldl_append, RingOp.membership_concat]
      cases op with
      | add node =>
          refine hfront.addNode (hvnodes.symm ▸ hcollide) ?_ node ?_
          · intro id address hmember
            rw [List.map_append]
            exact List.mem_append_left _ (RingOp.mem_of_membership hmember)
          · rw [List.map_append]
            exact List.mem_append_right _ (List.mem_singleton.mpr rfl)
      | remove nodeId => exact hfront.removeNode nodeId

theorem walk_congr {r other : HashRing} (h : r.ring = other.ring)
    (hash : String → UInt64) (key : String) :
    r.walk hash key = other.walk hash key := by
  simp only [walk, nodesFrom, nodes, h]

end HashRing

/-- Two histories with the same members give the same map, the same primary node
for each key and the same nodes overall, and preference lists that differ only in
how long the replication factor makes them. -/
theorem ring_of_membership (hash : String → UInt64)
    (vnodes factor otherFactor : Nat) (ops otherOps : List RingOp)
    (hcollide : NoCollisions hash vnodes ((ops ++ otherOps).map RingOp.nodeId))
    (hmembers : RingOp.membership ops = RingOp.membership otherOps) :
    let r := (HashRing.new vnodes factor).applyAll hash ops
    let other := (HashRing.new vnodes otherFactor).applyAll hash otherOps
    (∀ id id' i i', vnodeKey id i = vnodeKey id' i' → id = id' ∧ i = i') ∧
      r.ring = other.ring ∧ r.getAllNodes = other.getAllNodes ∧
      ∀ key, r.getNode hash key = other.getNode hash key ∧
        (factor = otherFactor →
          r.getNodes hash key = other.getNodes hash key) ∧
        (factor ≤ otherFactor →
          r.getNodes hash key <+: other.getNodes hash key) := by
  intro r other
  obtain ⟨hvnodes, hfactor⟩ :=
    HashRing.config_applyAll hash (HashRing.new vnodes factor) ops
  obtain ⟨hvnodes', hfactor'⟩ :=
    HashRing.config_applyAll hash (HashRing.new vnodes otherFactor) otherOps
  have hring : r.ring = other.ring := by
    refine (HashRing.represents_applyAll (hcollide.mono (by simp)) factor).ring_eq
      ?_ (hvnodes.trans hvnodes'.symm)
    rw [hmembers]
    exact HashRing.represents_applyAll (hcollide.mono (by simp)) otherFactor
  refine ⟨fun _ _ _ _ => vnodeKey_inj, hring, ?_, fun key => ⟨?_, ?_, ?_⟩⟩
  · simp only [HashRing.getAllNodes, HashRing.nodes, hring]
  · rw [HashRing.getNode_eq, HashRing.getNode_eq, HashRing.walk_congr hring]
  · intro heq
    rw [HashRing.getNodes_eq, HashRing.getNodes_eq, HashRing.walk_congr hring,
      hfactor.trans (heq.trans hfactor'.symm)]
  · intro hle
    rw [HashRing.getNodes_eq, HashRing.getNodes_eq, HashRing.walk_congr hring]
    apply List.take_prefix_take_left
    have hle' : r.replicationFactor ≤ other.replicationFactor := by
      rw [hfactor, hfactor']
      exact hle
    omega

def movedNode2 : List RingOp :=
  [.add ⟨"node2", "10.0.0.9:50051"⟩, .add ⟨"node1", "10.0.0.1:50051"⟩,
    .remove "node2", .add ⟨"node2", "10.0.0.2:50051"⟩]

def joinedOnce : List RingOp :=
  [.add ⟨"node1", "10.0.0.1:50051"⟩, .add ⟨"node2", "10.0.0.2:50051"⟩]

theorem ring_of_membership_moved :
    ((HashRing.new 1 3).applyAll sha256Labels movedNode2).ring =
      ((HashRing.new 1 3).applyAll sha256Labels joinedOnce).ring := by
  have hcollide : NoCollisions sha256Labels 1
      ((movedNode2 ++ joinedOnce).map RingOp.nodeId) :=
    noCollisions_of_nodup ["node1", "node2"] (by decide +kernel) (by decide)
  have hmembers : RingOp.membership movedNode2 = RingOp.membership joinedOnce := by
    funext id
    simp only [RingOp.membership, movedNode2, joinedOnce, RingOp.write,
      List.map_cons, List.map_nil, lastWrite, Option.none_or]
    by_cases h1 : "node1" = id
    · subst h1
      decide
    · by_cases h2 : "node2" = id
      · subst h2
        decide
      · simp [h1, h2]
  exact (ring_of_membership sha256Labels 1 3 3 movedNode2 joinedOnce hcollide
    hmembers).2.1

/-- The same calls on rings with the replication factors 1 and 2 give different
preference lists. -/
theorem preference_lists_differ :
    NoCollisions sha256Labels 1
        ((joinedOnce ++ joinedOnce).map RingOp.nodeId) ∧
      ((HashRing.new 1 1).applyAll sha256Labels joinedOnce).getNodes
          sha256Labels "k" ≠
        ((HashRing.new 1 2).applyAll sha256Labels joinedOnce).getNodes
          sha256Labels "k" :=
  ⟨noCollisions_of_nodup ["node1", "node2"] (by decide +kernel) (by decide),
    by decide +kernel⟩

end Rkv.Ring
