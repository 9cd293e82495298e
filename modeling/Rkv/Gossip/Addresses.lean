import Rkv.Gossip.Steps

/-!
# Addresses in a gossiping cluster

A deployment is a set of nodes, each started with its own id and advertised
address and with seeds that name other nodes at their right addresses.  A gossip
round sends the message the node builds to the addresses its table has for the
chosen peers; a message stays in flight, so it can be delivered late, again or
never.  Every message ends with an entry for its sender that has no address, and
the receiver takes it as it is.
-/

namespace Rkv.Gossip

open Std (ExtTreeMap)
open Rkv.Foundation
open Rkv.Ring (Node HashRing)

structure Deployment where
  members : List String
  address : String → String
  seeds : String → List String
  vnodesPerNode : Nat
  replicationFactor : Nat
  config : GossipConfig
  address_ne : ∀ id ∈ members, address id ≠ ""
  seeds_mem : ∀ id ∈ members, ∀ seed ∈ seeds id, seed ∈ members

structure Envelope where
  target : String
  msg : Proto.GossipMessage

structure GossipCluster where
  services : String → GossipService
  network : List Envelope

inductive GossipAction where
  | round (id : String) (targets : List String)
  | deliver (index : Nat) (receiver : String) (now : Nat)
  | check (id : String) (now : Nat)

section

variable (hash : String → UInt64) (d : Deployment)

def Deployment.start (now : Nat) (id : String) : GossipService :=
  (d.seeds id).foldl (fun g seed => g.addSeed hash seed (d.address seed) now)
    (GossipService.new hash id (d.address id)
      (HashRing.new d.vnodesPerNode d.replicationFactor) d.config)

def Deployment.boot (now : Nat) : GossipCluster := ⟨d.start hash now, []⟩

namespace GossipCluster

def setService (s : GossipCluster) (id : String) (g : GossipService) :
    GossipCluster :=
  { s with services := Function.update s.services id g }

/-- A round with the targets the random choice gave. -/
def gossipRound (s : GossipCluster) (id : String) (targets : List String) :
    Option GossipCluster :=
  let g := (s.services id).beat
  if targets.Nodup ∧ targets.length = min g.config.fanout g.candidates.length ∧
      ∀ target ∈ targets, target ∈ g.candidates.map (·.nodeId) then
    some ⟨Function.update s.services id g,
      s.network ++ (g.candidates.filter fun p => p.nodeId ∈ targets).map
        fun p => ⟨p.address, g.buildGossipMessage⟩⟩
  else none

def next (s : GossipCluster) : GossipAction → Option GossipCluster
  | .round id targets => if id ∈ d.members then s.gossipRound id targets else none
  | .deliver index receiver now =>
      match s.network[index]? with
      | none => none
      | some envelope =>
          -- a message reaches the node that listens at its address
          if receiver ∈ d.members ∧ envelope.target = d.address receiver then
            some (s.setService receiver
              ((s.services receiver).handleGossip hash envelope.msg now).1)
          else none
  | .check id now =>
      if id ∈ d.members then
        let g := s.services id
        some (s.setService id (g.checkFailures g.config.suspectTimeout
          g.config.deadTimeout now))
      else none

/-- Every peer entry and every ring entry has its node's advertised address. -/
def AddressesRight (s : GossipCluster) : Prop :=
  ∀ id ∈ d.members,
    (∀ peer p, (s.services id).peers[peer]? = some p →
      p.address = d.address peer) ∧
    ∀ (position : UInt64) (node : Node),
      (s.services id).ring.ring[position]? = some node →
        node.address = d.address node.id

/-- No node handles a message that another node built. -/
def OwnDelivery (s : GossipCluster) : GossipAction → Prop
  | .deliver index receiver _ => ∀ envelope,
      s.network[index]? = some envelope → envelope.msg.senderId = receiver
  | _ => True

end GossipCluster

end

/-! ## Tables that hold seeds only -/

/-- A node that has not taken anything from gossip: its peers are seeds at their
right addresses. -/
structure SeedsOnly (address : String → String) (g : GossipService) : Prop where
  generation : g.generation = 1
  peers : ∀ peer p, g.peers[peer]? = some p →
    p.nodeId = peer ∧ p.address = address peer ∧ p.generation = 0
  ring : ∀ (position : UInt64) (node : Node),
    g.ring.ring[position]? = some node → node.address = address node.id

namespace SeedsOnly

variable {hash : String → UInt64} {address : String → String}
  {g : GossipService}

theorem ring_addNode (h : SeedsOnly address g) (nodeId : String) :
    ∀ (position : UInt64) (node : Node),
      (g.ring.addNode hash ⟨nodeId, address nodeId⟩).ring[position]? =
        some node → node.address = address node.id := by
  intro position node hnode
  rcases HashRing.eq_or_of_getElem?_addNode hnode with rfl | hold
  · rfl
  · exact h.ring position node hold

theorem new (hash : String → UInt64) (address : String → String) (id : String)
    (vnodes factor : Nat) (config : GossipConfig) :
    SeedsOnly address (GossipService.new hash id (address id)
      (HashRing.new vnodes factor) config) where
  generation := rfl
  peers := by simp [GossipService.new]
  ring := by
    intro position node hnode
    rcases HashRing.eq_or_of_getElem?_addNode hnode with rfl | hold
    · rfl
    · simp [HashRing.new] at hold

theorem addSeed (h : SeedsOnly address g) (seed : String) (now : Nat) :
    SeedsOnly address (g.addSeed hash seed (address seed) now) where
  generation := h.generation
  peers := by
    intro peer p hp
    simp only [GossipService.addSeed, ExtTreeMap.getElem?_insert] at hp
    split at hp
    · rename_i heq
      cases hp
      have hpeer : seed = peer := compare_eq_iff_eq.mp heq
      subst hpeer
      exact ⟨rfl, rfl, rfl⟩
    · exact h.peers peer p hp
  ring := h.ring_addNode seed

theorem beat (h : SeedsOnly address g) : SeedsOnly address g.beat :=
  ⟨h.generation, h.peers, h.ring⟩

theorem handleEntry (h : SeedsOnly address g) {now : Nat}
    {nodeState : Proto.NodeState}
    (hseed : nodeState.nodeId = g.nodeId ∨
      nodeState.address = address nodeState.nodeId ∧ nodeState.generation = 0) :
    SeedsOnly address (g.handleEntry hash now nodeState) := by
  by_cases haccepts : g.Accepts nodeState
  · obtain ⟨haddress, hgeneration⟩ := hseed.resolve_left haccepts.ne
    refine ⟨?_, fun peer p hp => ?_, fun position node hnode => ?_⟩
    · rw [(GossipService.handleEntry_frame hash now g nodeState).2.2.1]
      exact h.generation
    · rw [GossipService.getElem?_handleEntry haccepts] at hp
      split at hp
      · rename_i hpeer
        cases hp
        subst hpeer
        exact ⟨rfl, haddress, hgeneration⟩
      · exact h.peers peer p hp
    · rw [GossipService.handleEntry_of_accepts haccepts] at hnode
      dsimp only [GossipService.ringAfter] at hnode
      split at hnode
      · exact h.ring position node (HashRing.of_getElem?_removeNode hnode)
      · rw [haddress] at hnode
        exact h.ring_addNode nodeState.nodeId position node hnode
      · exact h.ring position node hnode
  · rw [GossipService.handleEntry_of_not_accepts haccepts]
    exact h

theorem handleEntry_newer (h : SeedsOnly address g) {now : Nat}
    {nodeState : Proto.NodeState} (hgeneration : nodeState.generation = 1)
    (hne : nodeState.nodeId ≠ g.nodeId) :
    (g.handleEntry hash now nodeState).peers[nodeState.nodeId]? =
      some (peerOf nodeState now) := by
  have haccepts : g.Accepts nodeState := by
    refine ⟨fun p hp => rank_lt_iff.mpr (.inl ?_), hne⟩
    rw [(h.peers _ p hp).2.2, hgeneration]
    decide
  rw [GossipService.getElem?_handleEntry haccepts, if_pos rfl]

theorem checkFailures (h : SeedsOnly address g)
    (suspectTimeout deadTimeout now : Nat) :
    SeedsOnly address (g.checkFailures suspectTimeout deadTimeout now) where
  generation := h.generation
  peers := by
    intro peer p hp
    rw [GossipService.getElem?_checkFailures, Option.map_eq_some_iff] at hp
    obtain ⟨old, hold, rfl⟩ := hp
    exact h.peers peer old hold
  ring := by
    intro position node hnode
    have hkeyed : Keyed g.peers := fun peer p hp => (h.peers peer p hp).1
    rw [GossipService.getElem?_ring_checkFailures hkeyed] at hnode
    exact h.ring position node hnode.1

theorem foldl_handleEntry (hash : String → UInt64) (h : SeedsOnly address g)
    (now : Nat) {entries : List Proto.NodeState}
    (hseeds : ∀ entry ∈ entries, entry.nodeId = g.nodeId ∨
      entry.address = address entry.nodeId ∧ entry.generation = 0) :
    SeedsOnly address (entries.foldl (GossipService.handleEntry hash now) g) ∧
      (entries.foldl (GossipService.handleEntry hash now) g).nodeId =
        g.nodeId := by
  induction entries generalizing g with
  | nil => exact ⟨h, rfl⟩
  | cons entry entries ih =>
      have hid := (GossipService.handleEntry_frame hash now g entry).1
      have hrest := ih (g := g.handleEntry hash now entry)
        (h.handleEntry (hseeds entry (by simp))) fun e he => by
          rw [hid]
          exact hseeds e (by simp [he])
      exact ⟨hrest.1, hrest.2.trans hid⟩

theorem start (hash : String → UInt64) (d : Deployment) (now : Nat)
    (id : String) : SeedsOnly d.address (d.start hash now id) := by
  unfold Deployment.start
  induction d.seeds id using List.reverseRecOn with
  | nil => exact new hash d.address id _ _ _
  | append_singleton seeds seed ih =>
      rw [List.foldl_append, List.foldl_cons, List.foldl_nil]
      exact ih.addSeed seed now

end SeedsOnly

/-- A message built from a table of seeds: the seeds, then the sender's own entry
without an address. -/
structure SeedMessage (d : Deployment) (msg : Proto.GossipMessage) : Prop where
  sender : msg.senderId ∈ d.members
  nodes : ∃ front self, msg.nodes = front ++ [self] ∧
    self.nodeId = msg.senderId ∧ self.address = "" ∧ self.generation = 1 ∧
    ∀ entry ∈ front,
      entry.address = d.address entry.nodeId ∧ entry.generation = 0

theorem SeedsOnly.seedMessage {d : Deployment} {g : GossipService}
    (h : SeedsOnly d.address g) (hmember : g.nodeId ∈ d.members) :
    SeedMessage d g.buildGossipMessage where
  sender := hmember
  nodes := by
    refine ⟨buildNodeStates g.peers, g.selfState, rfl, rfl, rfl, h.generation,
      fun entry hentry => ?_⟩
    obtain ⟨⟨peer, p⟩, hp, rfl⟩ := List.mem_map.mp hentry
    obtain ⟨rfl, haddress, hgeneration⟩ :=
      h.peers peer p (ExtTreeMap.mem_toList_iff_getElem?_eq_some.mp hp)
    exact ⟨haddress, hgeneration⟩

/-! ## Runs -/

/-- Nothing has been handled from another node yet. -/
structure Undelivered (d : Deployment) (s : GossipCluster) : Prop where
  nodeIds : ∀ id, (s.services id).nodeId = id
  tables : ∀ id ∈ d.members, SeedsOnly d.address (s.services id)
  messages : ∀ envelope ∈ s.network, SeedMessage d envelope.msg

namespace Undelivered

variable {hash : String → UInt64} {d : Deployment} {s t : GossipCluster}

theorem addressesRight (h : Undelivered d s) : s.AddressesRight d :=
  fun id hid => ⟨fun peer p hp => ((h.tables id hid).peers peer p hp).2.1,
    (h.tables id hid).ring⟩

theorem boot (hash : String → UInt64) (d : Deployment) (now : Nat) :
    Undelivered d (d.boot hash now) where
  nodeIds := fun id => by
    change (d.start hash now id).nodeId = id
    unfold Deployment.start
    induction d.seeds id using List.reverseRecOn with
    | nil => rfl
    | append_singleton seeds seed ih =>
        rw [List.foldl_append]
        exact ih
  tables := fun id _ => .start hash d now id
  messages := by simp [Deployment.boot]

theorem setService (h : Undelivered d s) {id : String} {g : GossipService}
    (hid : g.nodeId = id) (hg : SeedsOnly d.address g) :
    Undelivered d (s.setService id g) where
  nodeIds := fun other => by
    by_cases heq : other = id
    · subst heq
      simpa [GossipCluster.setService] using hid
    · simpa [GossipCluster.setService, heq] using h.nodeIds other
  tables := fun other hother => by
    by_cases heq : other = id
    · subst heq
      simpa [GossipCluster.setService] using hg
    · simpa [GossipCluster.setService, heq] using h.tables other hother
  messages := h.messages

theorem gossipRound (h : Undelivered d s) {id : String} {targets : List String}
    (hid : id ∈ d.members) (hnext : s.gossipRound id targets = some t) :
    Undelivered d t := by
  unfold GossipCluster.gossipRound at hnext
  dsimp only at hnext
  split at hnext
  · cases hnext
    have hbeat := (h.tables id hid).beat
    have hset : Undelivered d (s.setService id (s.services id).beat) :=
      h.setService (h.nodeIds id) hbeat
    refine ⟨hset.nodeIds, hset.tables, fun envelope henvelope => ?_⟩
    rcases List.mem_append.mp henvelope with hold | hsent
    · exact h.messages envelope hold
    · obtain ⟨p, -, rfl⟩ := List.mem_map.mp hsent
      exact hbeat.seedMessage ((h.nodeIds id).symm ▸ hid)
  · contradiction

theorem step (h : Undelivered d s) {action : GossipAction}
    (hguard : s.OwnDelivery action) (hnext : s.next hash d action = some t) :
    Undelivered d t := by
  cases action with
  | round id targets =>
      simp only [GossipCluster.next] at hnext
      split at hnext
      · rename_i hid
        exact h.gossipRound hid hnext
      · contradiction
  | deliver index receiver now =>
      simp only [GossipCluster.next] at hnext
      split at hnext
      · contradiction
      · rename_i envelope henvelope
        split at hnext
        · rename_i hreceiver
          cases hnext
          obtain ⟨front, self, hnodes, hself, -, -, hfront⟩ :=
            (h.messages envelope (List.mem_of_getElem? henvelope)).nodes
          have hown : envelope.msg.senderId = receiver := hguard envelope henvelope
          have hentries : ∀ entry ∈ envelope.msg.nodes,
              entry.nodeId = (s.services receiver).nodeId ∨
                entry.address = d.address entry.nodeId ∧
                  entry.generation = 0 := by
            rw [hnodes]
            intro entry hentry
            rcases List.mem_append.mp hentry with hfrom | hlast
            · exact .inr (hfront entry hfrom)
            · left
              rw [List.mem_singleton.mp hlast, hself, hown, h.nodeIds]
          have hhandled := (h.tables receiver hreceiver.1).foldl_handleEntry
            hash now hentries
          exact h.setService (hhandled.2.trans (h.nodeIds receiver)) hhandled.1
        · contradiction
  | check id now =>
      simp only [GossipCluster.next] at hnext
      split at hnext
      · rename_i hid
        cases hnext
        exact h.setService (h.nodeIds id) ((h.tables id hid).checkFailures ..)
      · contradiction

/-- The first message handled from another node leaves its sender without an
address. -/
theorem breaks (h : Undelivered d s) {action : GossipAction}
    (hguard : ¬s.OwnDelivery action) (hnext : s.next hash d action = some t) :
    ¬t.AddressesRight d := by
  cases action with
  | round id targets => exact absurd trivial hguard
  | check id now => exact absurd trivial hguard
  | deliver index receiver now =>
      simp only [GossipCluster.OwnDelivery, not_forall] at hguard
      obtain ⟨envelope, henvelope, hforeign⟩ := hguard
      simp only [GossipCluster.next, henvelope] at hnext
      split at hnext
      · rename_i hreceiver
        cases hnext
        have hmsg := h.messages envelope (List.mem_of_getElem? henvelope)
        obtain ⟨front, self, hnodes, hself, hempty, hgeneration, hfront⟩ :=
          hmsg.nodes
        obtain ⟨hseeds, hid⟩ :=
          (h.tables receiver hreceiver.1).foldl_handleEntry hash now
            fun entry hentry => .inr (hfront entry hentry)
        have htaken : ((s.services receiver).handleGossip hash envelope.msg
            now).1.peers[self.nodeId]? = some (peerOf self now) := by
          simp only [GossipService.handleGossip, hnodes, List.foldl_append,
            List.foldl_cons, List.foldl_nil]
          apply hseeds.handleEntry_newer hgeneration
          rw [hid, h.nodeIds, hself]
          exact hforeign
        intro hright
        have haddress := (hright receiver hreceiver.1).1 self.nodeId
          (peerOf self now) (by simpa [GossipCluster.setService] using htaken)
        refine d.address_ne envelope.msg.senderId hmsg.sender ?_
        rw [← hself, ← haddress]
        exact hempty
      · contradiction

end Undelivered

/-- Every state of a run has the right addresses exactly when no node of the run
handles a message that another node built. -/
theorem addresses_right_iff (hash : String → UInt64) (d : Deployment)
    (startedAt : Nat) {actions : List GossipAction} {s : GossipCluster}
    (hrun : Run (GossipCluster.next hash d) anyAction (d.boot hash startedAt)
      actions s) :
    (∀ pre post u, actions = pre ++ post →
      Run (GossipCluster.next hash d) anyAction (d.boot hash startedAt) pre u →
        u.AddressesRight d) ↔
      Run (GossipCluster.next hash d) GossipCluster.OwnDelivery
        (d.boot hash startedAt) actions s :=
  Run.forall_prefix_iff (fun _ => Undelivered.addressesRight)
    (fun _ _ _ _ h => h.step) (fun _ _ _ _ h => h.breaks)
    (fun _ _ => trivial) hrun (.boot hash d startedAt)

/-! ## Two nodes -/

def twoNodes : Deployment where
  members := ["node1", "node2"]
  address := fun id => if id = "node1" then "10.0.0.1:50051" else "10.0.0.2:50051"
  seeds := fun id => if id = "node1" then ["node2"] else []
  vnodesPerNode := 1
  replicationFactor := 3
  config := ⟨5000, 15000, 3⟩
  address_ne := by decide
  seeds_mem := by decide

theorem addresses_right_undelivered :
    ∃ s, Run (GossipCluster.next Ring.sha256Labels twoNodes) anyAction
        (twoNodes.boot Ring.sha256Labels 0)
        [.round "node1" ["node2"], .check "node1" 6000] s ∧
      s.AddressesRight twoNodes := by
  obtain ⟨s, hs⟩ := Option.isSome_iff_exists.mp
    (show (runActions (GossipCluster.next Ring.sha256Labels twoNodes)
      (twoNodes.boot Ring.sha256Labels 0)
      [.round "node1" ["node2"], .check "node1" 6000]).isSome = true by
        decide +kernel)
  have hrun := Run.of_runActions hs
  have hown : Run (GossipCluster.next Ring.sha256Labels twoNodes)
      GossipCluster.OwnDelivery (twoNodes.boot Ring.sha256Labels 0)
      [.round "node1" ["node2"], .check "node1" 6000] s := by
    cases hrun with
    | cons _ hround hrest =>
        exact .cons trivial hround (by
          cases hrest with
          | cons _ hcheck hdone =>
              cases hdone
              exact .cons trivial hcheck (.nil _))
  exact ⟨s, hrun, (addresses_right_iff Ring.sha256Labels twoNodes 0 hrun).mpr
    hown _ [] s (List.append_nil _).symm hrun⟩

/-- The first message `node2` gets from `node1` leaves it with an empty address
for `node1`, in its table and on its ring. -/
theorem first_gossip_loses_address :
    ∃ s, Run (GossipCluster.next Ring.sha256Labels twoNodes) anyAction
        (twoNodes.boot Ring.sha256Labels 0)
        [.round "node1" ["node2"], .deliver 0 "node2" 10] s ∧
      ((s.services "node2").peers["node1"]?.map (·.address)) = some "" ∧
      (s.services "node2").ring.ring[(0x1b2db06c4a602bea : UInt64)]? =
        some ⟨"node1", ""⟩ ∧
      twoNodes.address "node1" = "10.0.0.1:50051" ∧
      ¬s.AddressesRight twoNodes := by
  have hlost : (runActions (GossipCluster.next Ring.sha256Labels twoNodes)
      (twoNodes.boot Ring.sha256Labels 0)
      [.round "node1" ["node2"], .deliver 0 "node2" 10]).map (fun s =>
        ((s.services "node2").peers["node1"]?.map (·.address),
          (s.services "node2").ring.ring[(0x1b2db06c4a602bea : UInt64)]?)) =
      some (some "", some ⟨"node1", ""⟩) := by
    decide +kernel
  obtain ⟨s, hs, hfound⟩ := Option.map_eq_some_iff.mp hlost
  rw [Prod.mk.injEq] at hfound
  refine ⟨s, Run.of_runActions hs, hfound.1, hfound.2, by decide, fun hright => ?_⟩
  have haddress := (hright "node2" (by decide)).2 _ _ hfound.2
  exact absurd haddress (by decide)

end Rkv.Gossip
