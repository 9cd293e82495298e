import Rkv.Gossip.Steps
import Rkv.Ring.Membership

/-!
# The ring and the peer table

The ring of a node is the ring of a membership that follows the entries it takes:
an alive entry adds its node, a dead one removes it, a suspect one changes
nothing, and a failure check removes the peers it declares dead.  A suspect entry
therefore leaves a node off the ring that was not on it.
-/

namespace Rkv.Gossip

open Std (ExtTreeMap)
open Rkv.Foundation
open Rkv.Ring (Node HashRing NoCollisions)

/-! ## Memberships -/

def membersAfter (members : String → Option String)
    (nodeState : Proto.NodeState) : String → Option String :=
  Function.update members nodeState.nodeId
    (match NodeStatus.ofCode nodeState.status with
    | .dead => none
    | .alive => some nodeState.address
    | .suspect => members nodeState.nodeId)

/-- The node's ring is that of the membership, which names these ids only. -/
structure Tracks (hash : String → UInt64) (vnodes : Nat) (ids : List String)
    (g : GossipService) (members : String → Option String) : Prop where
  vnodesPerNode : g.ring.vnodesPerNode = vnodes
  ring : g.ring.Represents hash members
  known : ∀ id address, members id = some address → id ∈ ids
  keyed : Keyed g.peers

namespace Tracks

variable {hash : String → UInt64} {vnodes : Nat} {ids : List String}
  {g : GossipService} {members : String → Option String}

theorem known_update (h : Tracks hash vnodes ids g members) {nodeId : String}
    (hid : nodeId ∈ ids) (entry : Option String) (id address : String)
    (hmember : Function.update members nodeId entry id = some address) :
    id ∈ ids := by
  by_cases heq : id = nodeId
  · exact heq ▸ hid
  · rw [Function.update_of_ne heq] at hmember
    exact h.known id address hmember

theorem ring_addNode (h : Tracks hash vnodes ids g members)
    (hcollide : NoCollisions hash vnodes ids) {nodeId : String}
    (hid : nodeId ∈ ids) (address : String) :
    (g.ring.addNode hash ⟨nodeId, address⟩).Represents hash
      (Function.update members nodeId (some address)) :=
  h.ring.addNode (h.vnodesPerNode.symm ▸ hcollide) h.known ⟨nodeId, address⟩ hid

theorem new (hcollide : NoCollisions hash vnodes ids) {own : String}
    (hown : own ∈ ids) (address : String) (factor : Nat)
    (config : GossipConfig) :
    Tracks hash vnodes ids
      (.new hash own address (HashRing.new vnodes factor) config)
      (Function.update (fun _ => none) own (some address)) where
  vnodesPerNode := rfl
  ring := (HashRing.Represents.new hash vnodes factor).addNode hcollide
    (by simp) ⟨own, address⟩ hown
  known := by
    intro id found hmember
    by_cases heq : id = own
    · exact heq ▸ hown
    · simp [heq] at hmember
  keyed := by simp [Keyed, GossipService.new]

theorem addSeed (h : Tracks hash vnodes ids g members)
    (hcollide : NoCollisions hash vnodes ids) {nodeId : String}
    (hid : nodeId ∈ ids) (address : String) (now : Nat) :
    Tracks hash vnodes ids (g.addSeed hash nodeId address now)
      (Function.update members nodeId (some address)) where
  vnodesPerNode := h.vnodesPerNode
  ring := h.ring_addNode hcollide hid address
  known := h.known_update hid (some address)
  keyed := h.keyed.insert ⟨nodeId, address, .alive, 0, 0, now⟩

theorem handleEntry (h : Tracks hash vnodes ids g members)
    (hcollide : NoCollisions hash vnodes ids) {nodeState : Proto.NodeState}
    (hid : nodeState.nodeId ∈ ids) (haccepts : g.Accepts nodeState) (now : Nat) :
    Tracks hash vnodes ids (g.handleEntry hash now nodeState)
      (membersAfter members nodeState) := by
  have hkeyed := GossipService.keyed_handleEntry hash h.keyed now nodeState
  rw [GossipService.handleEntry_of_accepts haccepts] at hkeyed ⊢
  have hring : (g.ringAfter hash nodeState).vnodesPerNode = vnodes ∧
      (g.ringAfter hash nodeState).Represents hash
        (membersAfter members nodeState) := by
    unfold membersAfter GossipService.ringAfter
    cases NodeStatus.ofCode nodeState.status with
    | dead => exact ⟨h.vnodesPerNode, h.ring.removeNode nodeState.nodeId⟩
    | alive =>
        exact ⟨h.vnodesPerNode, h.ring_addNode hcollide hid nodeState.address⟩
    | suspect =>
        dsimp only
        rw [Function.update_eq_self]
        exact ⟨h.vnodesPerNode, h.ring⟩
  exact ⟨hring.1, hring.2, h.known_update hid _, hkeyed⟩

theorem checkFailures (h : Tracks hash vnodes ids g members) (now : Nat) :
    Tracks hash vnodes ids
      (g.checkFailures g.config.suspectTimeout g.config.deadTimeout now)
      (fun id =>
        if g.expires g.config.deadTimeout now id then none else members id) where
  vnodesPerNode := g.vnodesPerNode_checkFailures.trans h.vnodesPerNode
  ring := by
    intro position node
    rw [GossipService.getElem?_ring_checkFailures h.keyed, h.ring position node,
      g.vnodesPerNode_checkFailures]
    by_cases hexpires : g.expires g.config.deadTimeout now node.id = true
    · simp [hexpires]
    · simp [hexpires]
  known := by
    intro id address hmember
    split at hmember
    · contradiction
    · exact h.known id address hmember
  keyed := GossipService.keyed_step hash h.keyed (.check now)

end Tracks

/-! ## Ring and table -/

/-- The node itself and the peers that are not dead. -/
def Listed (own : String) (peers : PeerMap) (id : String) : Prop :=
  id = own ∨ ∃ p, peers[id]? = some p ∧ p.status ≠ .dead

theorem listed_insert_self {own : String} {peers : PeerMap} {id : String}
    {p : PeerState} :
    Listed own (peers.insert id p) id ↔ id = own ∨ p.status ≠ .dead := by
  simp [Listed]

theorem listed_insert_of_ne {own : String} {peers : PeerMap} {id other : String}
    {p : PeerState} (h : other ≠ id) :
    Listed own (peers.insert id p) other ↔ Listed own peers other := by
  rw [Listed, Listed, ExtTreeMap.getElem?_insert,
    if_neg fun heq => h (compare_eq_iff_eq.mp heq).symm]

namespace GossipService

/-- Each suspect entry that is taken is about a peer that the table has and that
is not dead, at the moment the entry is handled. -/
def SuspectsListed (hash : String → UInt64) (now : Nat) :
    GossipService → List Proto.NodeState → Prop
  | _, [] => True
  | g, nodeState :: rest =>
      (g.Accepts nodeState → NodeStatus.ofCode nodeState.status = .suspect →
        ∃ p, g.peers[nodeState.nodeId]? = some p ∧ p.status ≠ .dead) ∧
      SuspectsListed hash now (g.handleEntry hash now nodeState) rest

def ListedSuspects (hash : String → UInt64) (g : GossipService) :
    NodeAction → Prop
  | .handle msg now => g.SuspectsListed hash now msg.nodes
  | _ => True

end GossipService

def NodeAction.Within (own : String) (ids : List String) (action : NodeAction) :
    Prop :=
  (∀ address now, action ≠ .addSeed own address now) ∧ action.ids ⊆ ids

/-- The membership the ring follows is the one the table has. -/
structure Agrees (hash : String → UInt64) (vnodes : Nat) (ids : List String)
    (own : String) (g : GossipService) (members : String → Option String) :
    Prop where
  tracks : Tracks hash vnodes ids g members
  nodeId : g.nodeId = own
  absent : g.peers[own]? = none
  listed : ∀ id, (∃ address, members id = some address) ↔ Listed own g.peers id

namespace Agrees

variable {hash : String → UInt64} {vnodes : Nat} {ids : List String}
  {own : String} {g : GossipService} {members : String → Option String}

theorem listed_update (h : Agrees hash vnodes ids own g members) {id : String}
    {p : PeerState} {entry : Option String}
    (hentry : (∃ address, entry = some address) ↔ id = own ∨ p.status ≠ .dead)
    (other : String) :
    (∃ address, Function.update members id entry other = some address) ↔
      Listed own (g.peers.insert id p) other := by
  by_cases heq : other = id
  · subst heq
    rw [Function.update_self, listed_insert_self]
    exact hentry
  · rw [Function.update_of_ne heq, listed_insert_of_ne heq]
    exact h.listed other

theorem absent_insert (h : Agrees hash vnodes ids own g members) {id : String}
    (hne : id ≠ own) (p : PeerState) : (g.peers.insert id p)[own]? = none := by
  rw [ExtTreeMap.getElem?_insert,
    if_neg fun heq => hne (compare_eq_iff_eq.mp heq)]
  exact h.absent

theorem addSeed (h : Agrees hash vnodes ids own g members)
    (hcollide : NoCollisions hash vnodes ids) {nodeId : String}
    (hid : nodeId ∈ ids) (hne : nodeId ≠ own) (address : String) (now : Nat) :
    Agrees hash vnodes ids own (g.addSeed hash nodeId address now)
      (Function.update members nodeId (some address)) where
  tracks := h.tracks.addSeed hcollide hid address now
  nodeId := h.nodeId
  absent := h.absent_insert hne _
  listed := h.listed_update (by simp)

theorem handleEntry (h : Agrees hash vnodes ids own g members)
    (hcollide : NoCollisions hash vnodes ids) {nodeState : Proto.NodeState}
    (hid : nodeState.nodeId ∈ ids) (haccepts : g.Accepts nodeState) (now : Nat)
    (hsuspect : NodeStatus.ofCode nodeState.status = .suspect →
      ∃ p, g.peers[nodeState.nodeId]? = some p ∧ p.status ≠ .dead) :
    Agrees hash vnodes ids own (g.handleEntry hash now nodeState)
      (membersAfter members nodeState) := by
  have htracks := h.tracks.handleEntry hcollide hid haccepts now
  have hne : nodeState.nodeId ≠ own := h.nodeId ▸ haccepts.ne
  rw [GossipService.handleEntry_of_accepts haccepts] at htracks ⊢
  refine ⟨htracks, h.nodeId, h.absent_insert hne _, h.listed_update ?_⟩
  have hstatus : (peerOf nodeState now).status =
      NodeStatus.ofCode nodeState.status := rfl
  rw [hstatus]
  cases hcode : NodeStatus.ofCode nodeState.status with
  | dead => simp [hne]
  | alive => simp
  | suspect =>
      -- the peer was on the ring before and stays there
      refine iff_of_true ?_ (by simp)
      exact (h.listed nodeState.nodeId).mpr (.inr (hsuspect hcode))

theorem checkFailures (h : Agrees hash vnodes ids own g members) (now : Nat) :
    Agrees hash vnodes ids own
      (g.checkFailures g.config.suspectTimeout g.config.deadTimeout now)
      (fun id =>
        if g.expires g.config.deadTimeout now id then none else members id) where
  tracks := h.tracks.checkFailures now
  nodeId := h.nodeId
  absent := by
    rw [GossipService.getElem?_checkFailures, h.absent]
    rfl
  listed := by
    intro id
    have hold := h.listed id
    rw [Listed] at hold ⊢
    rw [GossipService.getElem?_checkFailures]
    cases hp : g.peers[id]? with
    | none => simpa [GossipService.expires, hp] using hold
    | some p =>
        have hne : id ≠ own := by
          rintro rfl
          rw [h.absent] at hp
          contradiction
        have hdies := GossipService.statusAfter_eq_dead_iff
          g.config.suspectTimeout g.config.deadTimeout now hp
        simp only [hp, hne, false_or, Option.some.injEq, exists_eq_left'] at hold
        simp only [hne, false_or, Option.map_some, Option.some.injEq,
          exists_eq_left', ne_eq, hdies]
        split
        · rename_i hexpires
          simp [hexpires]
        · rename_i hexpires
          simp [hexpires, hold]

theorem foldl_handleEntry (hcollide : NoCollisions hash vnodes ids) (now : Nat)
    {entries : List Proto.NodeState} (hids : entries.map (·.nodeId) ⊆ ids)
    (h : Agrees hash vnodes ids own g members)
    (hlisted : g.SuspectsListed hash now entries) :
    ∃ members', Agrees hash vnodes ids own
      (entries.foldl (GossipService.handleEntry hash now) g) members' := by
  induction entries generalizing g members with
  | nil => exact ⟨members, h⟩
  | cons nodeState entries ih =>
      rw [List.map_cons, List.cons_subset] at hids
      obtain ⟨hsuspect, hrest⟩ := hlisted
      by_cases haccepts : g.Accepts nodeState
      · exact ih hids.2 (h.handleEntry hcollide hids.1 haccepts now
          (hsuspect haccepts)) hrest
      · rw [List.foldl_cons]
        rw [GossipService.handleEntry_of_not_accepts haccepts] at hrest ⊢
        exact ih hids.2 h hrest

theorem step (h : Agrees hash vnodes ids own g members)
    (hcollide : NoCollisions hash vnodes ids) {action : NodeAction}
    (hwithin : action.Within own ids) (hlisted : g.ListedSuspects hash action) :
    ∃ members', Agrees hash vnodes ids own (g.step hash action) members' := by
  cases action with
  | addSeed nodeId address now =>
      have hne : nodeId ≠ own := by
        rintro rfl
        exact hwithin.1 address now rfl
      exact ⟨_, h.addSeed hcollide (hwithin.2 (by simp [NodeAction.ids])) hne
        address now⟩
  | handle msg now => exact h.foldl_handleEntry hcollide now hwithin.2 hlisted
  | check now => exact ⟨_, h.checkFailures now⟩

theorem new (hcollide : NoCollisions hash vnodes ids) (hown : own ∈ ids)
    (address : String) (factor : Nat) (config : GossipConfig) :
    Agrees hash vnodes ids own
      (.new hash own address (HashRing.new vnodes factor) config)
      (Function.update (fun _ => none) own (some address)) where
  tracks := .new hcollide hown address factor config
  nodeId := rfl
  absent := by simp [GossipService.new]
  listed := by
    intro id
    by_cases heq : id = own
    · simp [Listed, heq]
    · simp [Listed, heq, GossipService.new]

end Agrees

/-- As long as suspect entries are only taken for peers that are on the ring, the
ids on the ring are the node's own and those of the peers that are not dead. -/
theorem ring_agrees_with_table (hash : String → UInt64) {vnodes : Nat}
    (hvnodes : 1 ≤ vnodes) (factor : Nat) (own address : String)
    (config : GossipConfig) {actions : List NodeAction}
    (hseeds : ∀ seedAddress now,
      NodeAction.addSeed own seedAddress now ∉ actions)
    (hcollide : NoCollisions hash vnodes
      (own :: actions.flatMap NodeAction.ids))
    {g : GossipService}
    (hrun : Run (GossipService.next hash) (GossipService.ListedSuspects hash)
      (.new hash own address (HashRing.new vnodes factor) config) actions g)
    (id : String) :
    g.ring.Holds id ↔
      id = own ∨ ∃ p, g.peers[id]? = some p ∧ p.status ≠ .dead := by
  have hwithin : ∀ action ∈ actions,
      action.Within own (own :: actions.flatMap NodeAction.ids) := by
    intro action haction
    constructor
    · rintro seedAddress now rfl
      exact hseeds seedAddress now haction
    · exact fun id hid => List.mem_cons_of_mem _
        (List.mem_flatMap.mpr ⟨action, haction, hid⟩)
  obtain ⟨members, hagrees⟩ := (hrun.restrict hwithin).invariant
    (I := fun g => ∃ members, Agrees hash vnodes _ own g members)
    (fun g action t h hguard hnext => by
      obtain ⟨members, h⟩ := h
      obtain rfl := Option.some.inj hnext
      exact h.step hcollide hguard.2 hguard.1)
    ⟨_, .new hcollide List.mem_cons_self address factor config⟩
  rw [hagrees.tracks.ring.holds_iff (hagrees.tracks.vnodesPerNode.symm ▸ hvnodes)]
  exact hagrees.listed id

/-- `node1` at its start, alone on a ring with one virtual node each. -/
def node1Started : GossipService :=
  .new Ring.sha256Labels "node1" "10.0.0.1:50051" (HashRing.new 1 3)
    ⟨5000, 15000, 3⟩

def node2Alive : Proto.GossipMessage :=
  ⟨"node3", [⟨"node2", "10.0.0.2:50051", 0, 3, 1⟩]⟩

def node2Suspect : Proto.GossipMessage :=
  ⟨"node3", [⟨"node2", "10.0.0.2:50051", 1, 4, 1⟩]⟩

theorem ring_agrees_alive_first :
    let g := (node1Started.step Ring.sha256Labels (.handle node2Alive 10)).step
      Ring.sha256Labels (.handle node2Suspect 20)
    (g.peers["node2"]?.map (·.status)) = some .suspect ∧
      g.ring.Holds "node2" := by
  intro g
  have hrun : Run (GossipService.next Ring.sha256Labels)
      (GossipService.ListedSuspects Ring.sha256Labels) node1Started
      [.handle node2Alive 10, .handle node2Suspect 20] g := by
    refine .cons ⟨fun _ hsuspect => ?_, trivial⟩ rfl
      (.cons ⟨fun _ _ => ?_, trivial⟩ rfl (.nil _))
    · exact absurd hsuspect (by decide)
    · exact ⟨⟨"node2", "10.0.0.2:50051", .alive, 3, 1, 10⟩, by decide +kernel,
        by decide⟩
  have hcollide : NoCollisions Ring.sha256Labels 1
      ("node1" :: [NodeAction.handle node2Alive 10,
        .handle node2Suspect 20].flatMap NodeAction.ids) :=
    Ring.noCollisions_of_nodup ["node1", "node2"] (by decide +kernel)
      (by decide)
  refine ⟨by decide +kernel, (ring_agrees_with_table Ring.sha256Labels
    (le_refl 1) 3 "node1" "10.0.0.1:50051" ⟨5000, 15000, 3⟩ (by simp)
    hcollide hrun "node2").mpr (.inr ?_)⟩
  exact ⟨⟨"node2", "10.0.0.2:50051", .suspect, 4, 1, 20⟩, by decide +kernel,
    by decide⟩

/-- A peer that is first heard of as suspect is in the table and not on the
ring. -/
theorem suspect_peer_off_ring :
    let g := node1Started.step Ring.sha256Labels (.handle node2Suspect 10)
    Run (GossipService.next Ring.sha256Labels) anyAction node1Started
        [.handle node2Suspect 10] g ∧
      NoCollisions Ring.sha256Labels 1 ["node1", "node2"] ∧
      (g.peers["node2"]?.map (·.status)) = some .suspect ∧
      ¬g.ring.Holds "node2" :=
  ⟨.cons trivial rfl (.nil _),
    Ring.noCollisions_of_nodup ["node1", "node2"] (by decide +kernel)
      (List.Subset.refl _),
    by decide +kernel, by decide +kernel⟩

end Rkv.Gossip
