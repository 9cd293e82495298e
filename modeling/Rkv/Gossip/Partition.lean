import Rkv.Gossip.Rounds

/-!
# A partition that outlasts the dead timeout

A round leaves out the peers that are dead, and a dead peer comes back only
through an entry that is newer and alive.  When the nodes on each side of a split
have declared all of the other side dead and no message from before is still under
way, no such entry can reach them any more: whatever the network does afterwards,
the sides never talk to each other again, and each routes every key to its own
nodes.
-/

namespace Rkv.Gossip

open Std (ExtTreeMap)
open Rkv.Foundation
open Rkv.Ring (Node HashRing)

variable {T : Type} {hash : String → UInt64} {d : Deployment}
  {side : String → T} {here : T}

/-- No node of another side has the address. -/
def Near (d : Deployment) (side : String → T) (here : T) (address : String) :
    Prop :=
  ∀ id ∈ d.members, d.address id = address → side id = here

theorem near_empty (d : Deployment) (side : String → T) (here : T) :
    Near d side here "" :=
  fun id hid haddress => absurd haddress (d.address_ne id hid)

/-- What may be said of a peer on one side: those of other sides are dead. -/
structure Tells (d : Deployment) (side : String → T) (here : T) (id : String)
    (status : NodeStatus) (address : String) : Prop where
  far : side id ≠ here → status = .dead
  near : side id = here → Near d side here address

/-- A node that has given up all other sides. -/
structure Sided (d : Deployment) (side : String → T) (here : T)
    (g : GossipService) : Prop where
  keyed : Keyed g.peers
  own : side g.nodeId = here
  peers : ∀ id p, g.peers[id]? = some p →
    Tells d side here id p.status p.address
  ring : ∀ id, side id ≠ here → ¬g.ring.Holds id

namespace Sided

variable {g : GossipService}

theorem handleEntry (h : Sided d side here g) {now : Nat}
    {nodeState : Proto.NodeState}
    (hentry : Tells d side here nodeState.nodeId
      (.ofCode nodeState.status) nodeState.address) :
    Sided d side here (g.handleEntry hash now nodeState) := by
  have hid := (GossipService.handleEntry_frame hash now g nodeState).1
  refine ⟨GossipService.keyed_handleEntry hash h.keyed now nodeState,
    by rw [hid]; exact h.own, ?_, ?_⟩
  · intro id p hp
    by_cases haccepts : g.Accepts nodeState
    · rw [GossipService.getElem?_handleEntry haccepts] at hp
      split at hp
      · rename_i heq
        cases hp
        exact heq ▸ hentry
      · exact h.peers id p hp
    · rw [GossipService.handleEntry_of_not_accepts haccepts] at hp
      exact h.peers id p hp
  · intro id hfar hholds
    by_cases haccepts : g.Accepts nodeState
    · rw [GossipService.handleEntry_of_accepts haccepts] at hholds
      rcases GossipService.holds_of_holds_ringAfter hholds with hold | ⟨rfl, halive⟩
      · exact h.ring id hfar hold
      · rw [hentry.far hfar] at halive
        contradiction
    · rw [GossipService.handleEntry_of_not_accepts haccepts] at hholds
      exact h.ring id hfar hholds

theorem handleGossip (h : Sided d side here g) {now : Nat}
    {msg : Proto.GossipMessage}
    (hmsg : ∀ nodeState ∈ msg.nodes, Tells d side here nodeState.nodeId
      (.ofCode nodeState.status) nodeState.address) :
    Sided d side here (g.handleGossip hash msg now).1 :=
  GossipService.handleGossip_induction
    (fun _ nodeState hmem hg => hg.handleEntry (hmsg nodeState hmem)) h

theorem checkFailures (h : Sided d side here g)
    (suspectTimeout deadTimeout now : Nat) :
    Sided d side here (g.checkFailures suspectTimeout deadTimeout now) where
  keyed := fun id p hp => by
    rw [GossipService.getElem?_checkFailures, Option.map_eq_some_iff] at hp
    obtain ⟨old, hold, rfl⟩ := hp
    exact h.keyed id old hold
  own := h.own
  peers := fun id p hp => by
    rw [GossipService.getElem?_checkFailures, Option.map_eq_some_iff] at hp
    obtain ⟨old, hold, rfl⟩ := hp
    refine ⟨fun hfar => ?_, (h.peers id old hold).near⟩
    simp [statusAfter, (h.peers id old hold).far hfar]
  ring := fun id hfar hholds =>
    h.ring id hfar ((GossipService.holds_checkFailures h.keyed).mp hholds).1

theorem buildGossipMessage (h : Sided d side here g) :
    ∀ nodeState ∈ g.buildGossipMessage.nodes, Tells d side here
      nodeState.nodeId (.ofCode nodeState.status) nodeState.address := by
  intro nodeState hmem
  rcases List.mem_append.mp hmem with hpeers | hself
  · obtain ⟨⟨id, p⟩, hentry, rfl⟩ := List.mem_map.mp hpeers
    have hp := ExtTreeMap.mem_toList_iff_getElem?_eq_some.mp hentry
    have hid : (stateOf p).nodeId = id := h.keyed id p hp
    rw [hid]
    simpa [stateOf] using h.peers id p hp
  · -- a node's own entry has no address to be reached at
    rw [List.mem_singleton.mp hself]
    exact ⟨fun hfar => absurd h.own hfar, fun _ => near_empty d side here⟩

theorem of_lists (hown : side g.nodeId = here)
    (hentries : ∀ entry ∈ g.peers.toList, entry.2.nodeId = entry.1 ∧
      Tells d side here entry.1 entry.2.status entry.2.address)
    (hring : ∀ id ∈ g.ring.nodes.map Node.id, side id = here) :
    Sided d side here g where
  keyed := fun id p hp => (hentries (id, p)
    (ExtTreeMap.mem_toList_iff_getElem?_eq_some.mpr hp)).1
  own := hown
  peers := fun id p hp => (hentries (id, p)
    (ExtTreeMap.mem_toList_iff_getElem?_eq_some.mpr hp)).2
  ring := fun id hfar hholds =>
    hfar (hring id (HashRing.holds_iff_mem_nodes.mp hholds))

theorem near_of_mem_candidates (h : Sided d side here g) {p : PeerState}
    (hp : p ∈ g.candidates) : Near d side here p.address := by
  obtain ⟨hmem, hlive⟩ := List.mem_filter.mp hp
  obtain ⟨⟨id, q⟩, hentry, rfl⟩ := List.mem_map.mp hmem
  have hfound := h.peers id q
    (ExtTreeMap.mem_toList_iff_getElem?_eq_some.mp hentry)
  by_cases hside : side id = here
  · exact hfound.near hside
  · have hdead : q.status = .dead := hfound.far hside
    simp [hdead] at hlive

end Sided

/-- The sides have given each other up, and nothing is under way between them. -/
structure Mesh.Apart (d : Deployment) (side : String → T) (s : Mesh) : Prop where
  nodeIds : ∀ id, (s.services id).nodeId = id
  tables : ∀ id ∈ d.members, Sided d side (side id) (s.services id)
  chosen : ∀ id targets, s.chosen id = some targets →
    ∀ p ∈ targets, Near d side (side id) p.address
  network : ∀ envelope ∈ s.network,
    Near d side (side envelope.msg.senderId) envelope.target ∧
      ∀ nodeState ∈ envelope.msg.nodes,
        Tells d side (side envelope.msg.senderId) nodeState.nodeId
          (.ofCode nodeState.status) nodeState.address

namespace Mesh.Apart

variable {s t : Mesh}

theorem setService (h : Apart d side s) {id : String} {g : GossipService}
    (hid : g.nodeId = (s.services id).nodeId) (hg : Sided d side (side id) g) :
    Apart d side (s.setService id g) where
  nodeIds := fun other => by
    by_cases heq : other = id
    · subst heq
      rw [s.services_setService_self, hid]
      exact h.nodeIds other
    · rw [s.services_setService_of_ne heq]
      exact h.nodeIds other
  tables := fun other hother => by
    by_cases heq : other = id
    · subst heq
      rw [s.services_setService_self]
      exact hg
    · rw [s.services_setService_of_ne heq]
      exact h.tables other hother
  chosen := h.chosen
  network := h.network

theorem setChosen (h : Apart d side s) {id : String}
    {targets : Option (List PeerState)}
    (htargets : ∀ chosen, targets = some chosen →
      ∀ p ∈ chosen, Near d side (side id) p.address) :
    Apart d side (s.setChosen id targets) where
  nodeIds := h.nodeIds
  tables := h.tables
  chosen := fun other chosen hchosen => by
    by_cases heq : other = id
    · subst heq
      simp only [Mesh.setChosen, Function.update_self] at hchosen
      exact htargets chosen hchosen
    · simp only [Mesh.setChosen, Function.update_of_ne heq] at hchosen
      exact h.chosen other chosen hchosen
  network := h.network

theorem step (h : Apart d side s) {action : MeshAction}
    (hnext : s.next hash d action = some t) :
    Apart d side t ∧ ∃ sent, t.network = s.network ++ sent ∧
      ∀ envelope ∈ sent,
        Near d side (side envelope.msg.senderId) envelope.target := by
  rcases next_cases hnext with ⟨id, targets, -, hid, hfrom, rfl⟩ |
    ⟨id, targets, -, hid, htargets, rfl⟩ |
    ⟨_, receiver, now, envelope, -, hid, henvelope, htarget, rfl⟩ |
    ⟨id, now, -, hid, rfl⟩
  · have htable := h.tables id hid
    have hset := h.setService (g := (s.services id).beat) rfl
      ⟨htable.keyed, htable.own, htable.peers, htable.ring⟩
    refine ⟨hset.setChosen fun chosen hchosen p hp => ?_, [],
      by simp [Mesh.setChosen]⟩
    cases hchosen
    exact htable.near_of_mem_candidates (hfrom p hp)
  · have hsender : ((s.services id).buildGossipMessage).senderId = id :=
      h.nodeIds id
    have hnear : ∀ envelope ∈ targets.map fun p =>
        Envelope.mk p.address (s.services id).buildGossipMessage,
        Near d side (side envelope.msg.senderId) envelope.target := by
      intro envelope henvelope
      obtain ⟨p, hp, rfl⟩ := List.mem_map.mp henvelope
      rw [hsender]
      exact h.chosen id targets htargets p hp
    have hset := h.setChosen (show ∀ chosen : List PeerState,
      none = some chosen → ∀ p ∈ chosen, Near d side (side id) p.address by simp)
    refine ⟨⟨hset.nodeIds, hset.tables, hset.chosen, ?_⟩, _, rfl, hnear⟩
    intro envelope henvelope
    rcases List.mem_append.mp henvelope with hold | hsent
    · exact h.network envelope hold
    · refine ⟨hnear envelope hsent, ?_⟩
      obtain ⟨p, -, rfl⟩ := List.mem_map.mp hsent
      rw [hsender]
      exact (h.tables id hid).buildGossipMessage
  · obtain ⟨hnear, hentries⟩ := h.network envelope henvelope
    -- whoever listens at the message's address is on its sender's side
    have hside := hnear receiver hid htarget.symm
    refine ⟨h.setService (GossipService.handleGossip_frame hash _ _ now).1
      ((h.tables receiver hid).handleGossip (hside ▸ hentries)), [], by simp⟩
  · exact ⟨h.setService rfl ((h.tables id hid).checkFailures ..), [], by simp⟩

end Mesh.Apart

/-- From a state in which the sides of a split have given each other up and nothing
is under way between them, in every run: a node has no peer of another side that
is not dead, none of these is in a key's preference list, and no message is sent
to any of them. -/
theorem partition_never_heals (hash : String → UInt64) (d : Deployment)
    (side : String → T) {s t : Mesh} (hapart : s.Apart d side)
    {actions : List MeshAction}
    (hrun : Run (Mesh.next hash d) anyAction s actions t) {id far : String}
    (hid : id ∈ d.members) (hfar : side far ≠ side id) :
    (∀ p, (t.services id).peers[far]? = some p → p.status = .dead) ∧
      (∀ key, far ∉ ((t.services id).ring.getNodes hash key).map Node.id) ∧
      ∃ sent, t.network = s.network ++ sent ∧ ∀ envelope ∈ sent,
        envelope.msg.senderId = id → far ∈ d.members →
          envelope.target ≠ d.address far := by
  obtain ⟨hstill, sent, hsent, hnear⟩ := hrun.invariant
    (I := fun t => t.Apart d side ∧ ∃ sent, t.network = s.network ++ sent ∧
      ∀ envelope ∈ sent,
        Near d side (side envelope.msg.senderId) envelope.target)
    (fun t action u h _ hnext => by
      obtain ⟨hstill, sent, hsent, hnear⟩ := h
      obtain ⟨hlater, more, hmore, hmoreNear⟩ := hstill.step hnext
      refine ⟨hlater, sent ++ more, by rw [hmore, hsent, List.append_assoc], ?_⟩
      exact List.forall_mem_append.mpr ⟨hnear, hmoreNear⟩)
    ⟨hapart, [], by simp⟩
  have htable := hstill.tables id hid
  refine ⟨fun p hp => (htable.peers far p hp).far hfar, fun key hmem => ?_,
    sent, hsent, fun envelope henvelope hsender hmember htarget => ?_⟩
  · exact htable.ring far hfar (HashRing.holds_of_mem_getNodes hmem)
  · have hside := hnear envelope henvelope far hmember htarget.symm
    rw [hsender] at hside
    exact hfar hside

/-! ## Two nodes -/

/-- `node2` has been silent for both timeouts and has not heard of `node1`. -/
def splitNodes : Mesh :=
  (twoNodes.mesh Ring.sha256Labels 0).setService "node1"
    (((twoNodes.start Ring.sha256Labels 0 "node1").checkFailures 5000 15000
      6000).checkFailures 5000 15000 16000)

theorem splitNodes_apart : splitNodes.Apart twoNodes (fun id => id) := by
  have hpeers : (splitNodes.services "node1").peers.toList =
      [("node2", ⟨"node2", "10.0.0.2:50051", .dead, 0, 0, 0⟩)] := by
    decide +kernel
  have hnone : (splitNodes.services "node2").peers.toList = [] := by
    decide +kernel
  have hring : (splitNodes.services "node1").ring.nodes.map Node.id =
      ["node1"] := by decide +kernel
  have hring' : (splitNodes.services "node2").ring.nodes.map Node.id =
      ["node2"] := by decide +kernel
  refine ⟨fun id => ?_, fun id hid => ?_, by simp [splitNodes, Deployment.mesh],
    by simp [splitNodes, Deployment.mesh]⟩
  · by_cases heq : id = "node1"
    · subst heq
      decide +kernel
    · rw [splitNodes, Mesh.services_setService_of_ne _ heq]
      exact (Undelivered.boot Ring.sha256Labels twoNodes 0).nodeIds id
  · rcases List.mem_pair.mp hid with rfl | rfl
    · refine .of_lists (by decide +kernel) (hpeers ▸ ?_) (hring ▸ by simp)
      simpa using ⟨fun _ => rfl, fun hsame => absurd hsame (by decide)⟩
    · exact .of_lists (by decide +kernel) (hnone ▸ by simp) (hring' ▸ by simp)

theorem partition_of_two_nodes :
    ∃ t, Run (Mesh.next Ring.sha256Labels twoNodes) anyAction splitNodes
        [.choose "node1" [], .choose "node2" [], .send "node1", .send "node2",
          .check "node2" 20000] t ∧
      (∀ key, "node2" ∉ ((t.services "node1").ring.getNodes Ring.sha256Labels
        key).map Node.id) ∧
      ∀ key, "node1" ∉ ((t.services "node2").ring.getNodes Ring.sha256Labels
        key).map Node.id := by
  have hsome : (runActions (Mesh.next Ring.sha256Labels twoNodes) splitNodes
      [.choose "node1" [], .choose "node2" [], .send "node1", .send "node2",
        .check "node2" 20000]).isSome = true := by decide +kernel
  obtain ⟨t, ht⟩ := Option.isSome_iff_exists.mp hsome
  have hrun := Run.of_runActions ht
  exact ⟨t, hrun, (partition_never_heals Ring.sha256Labels twoNodes
      (fun id => id) splitNodes_apart hrun (by decide) (by decide)).2.1,
    (partition_never_heals Ring.sha256Labels twoNodes (fun id => id)
      splitNodes_apart hrun (by decide) (by decide)).2.1⟩

end Rkv.Gossip
