import Rkv.Gossip.Knowledge

/-!
# Merging gossip in any order

A table built from messages holds, for each other node, the entry of greatest
generation and heartbeat among all that were handled, whatever their order.  What
has been handled once is known from then on and is not taken again.
-/

namespace Rkv.Gossip

open Std (ExtTreeMap)

def handleAll (hash : String → UInt64) (g : GossipService)
    (msgs : List (Proto.GossipMessage × Nat)) : GossipService :=
  msgs.foldl (fun g m => (g.handleGossip hash m.1 m.2).1) g

def entriesOf (msgs : List (Proto.GossipMessage × Nat)) :
    List Proto.NodeState :=
  msgs.flatMap fun m => m.1.nodes

def PeerState.unseen (p : PeerState) : PeerState := { p with lastSeen := 0 }

/-- The table's entry for an id is the greatest of these, or there is none. -/
def Newest (entries : List Proto.NodeState) (id : String) :
    Option PeerState → Prop
  | none => ∀ nodeState ∈ entries, nodeState.nodeId ≠ id
  | some p => ∃ nodeState ∈ entries, nodeState.nodeId = id ∧
      p = peerOf nodeState p.lastSeen ∧
      ∀ other ∈ entries, other.nodeId = id → other.rank ≤ nodeState.rank

/-- The table is what merging these entries gives. -/
structure Merged (own : String) (entries : List Proto.NodeState)
    (g : GossipService) : Prop where
  nodeId : g.nodeId = own
  absent : g.peers[own]? = none
  newest : ∀ id, id ≠ own → Newest entries id g.peers[id]?

namespace Merged

variable {own : String} {g : GossipService}
  {entries : List Proto.NodeState}

theorem newest_concat_of_ne {id : String} {entry : Option PeerState}
    (h : Newest entries id entry) {nodeState : Proto.NodeState}
    (hne : nodeState.nodeId ≠ id) :
    Newest (entries ++ [nodeState]) id entry := by
  cases entry with
  | none =>
      intro other hother
      rcases List.mem_append.mp hother with hold | hlast
      · exact h other hold
      · rw [List.mem_singleton.mp hlast]
        exact hne
  | some p =>
      obtain ⟨best, hbest, hid, hp, hgreatest⟩ := h
      refine ⟨best, List.mem_append_left _ hbest, hid, hp, fun other hother => ?_⟩
      rcases List.mem_append.mp hother with hold | hlast
      · exact hgreatest other hold
      · rw [List.mem_singleton.mp hlast]
        exact fun heq => absurd heq hne

theorem rank_le {id : String} {p : PeerState} (h : Newest entries id (some p))
    {other : Proto.NodeState} (hother : other ∈ entries)
    (hid : other.nodeId = id) : other.rank ≤ p.rank := by
  obtain ⟨best, -, -, hp, hgreatest⟩ := h
  rw [hp, rank_peerOf]
  exact hgreatest other hother hid

theorem newest_taken {nodeState : Proto.NodeState}
    (h : Newest entries nodeState.nodeId g.peers[nodeState.nodeId]?)
    (haccepts : g.Accepts nodeState) (now : Nat) :
    Newest (entries ++ [nodeState]) nodeState.nodeId
      (some (peerOf nodeState now)) := by
  refine ⟨nodeState, by simp, rfl, rfl, fun other hother hid => ?_⟩
  rcases List.mem_append.mp hother with hold | hlast
  · cases hp : g.peers[nodeState.nodeId]? with
    | none =>
        rw [hp] at h
        exact absurd hid (h other hold)
    | some p =>
        rw [hp] at h
        exact (rank_le h hold hid).trans (haccepts.newer p hp).le
  · rw [List.mem_singleton.mp hlast]

theorem newest_refused {nodeState : Proto.NodeState}
    (h : Newest entries nodeState.nodeId g.peers[nodeState.nodeId]?)
    (hne : nodeState.nodeId ≠ g.nodeId) (hrefused : ¬g.Accepts nodeState) :
    Newest (entries ++ [nodeState]) nodeState.nodeId
      g.peers[nodeState.nodeId]? := by
  obtain ⟨p, hp, hle⟩ : ∃ p, g.peers[nodeState.nodeId]? = some p ∧
      nodeState.rank ≤ p.rank := by
    by_contra hnone
    refine hrefused ⟨fun p hp => ?_, hne⟩
    exact lt_of_not_ge fun hle => hnone ⟨p, hp, hle⟩
  rw [hp] at h ⊢
  obtain ⟨best, hbest, hid, hpeer, hgreatest⟩ := h
  refine ⟨best, List.mem_append_left _ hbest, hid, hpeer,
    fun other hother heq => ?_⟩
  rcases List.mem_append.mp hother with hold | hlast
  · exact hgreatest other hold heq
  · rw [List.mem_singleton.mp hlast]
    rw [hpeer, rank_peerOf] at hle
    exact hle

theorem handleEntry (h : Merged own entries g) (hash : String → UInt64)
    (now : Nat) (nodeState : Proto.NodeState) :
    Merged own (entries ++ [nodeState]) (g.handleEntry hash now nodeState) := by
  have hnodeId := (GossipService.handleEntry_frame hash now g nodeState).1
  by_cases haccepts : g.Accepts nodeState
  · have hne : nodeState.nodeId ≠ own := h.nodeId ▸ haccepts.ne
    refine ⟨hnodeId.trans h.nodeId, ?_, fun id hid => ?_⟩
    · rw [GossipService.getElem?_handleEntry haccepts, if_neg hne]
      exact h.absent
    · rw [GossipService.getElem?_handleEntry haccepts]
      split
      · rename_i heq
        subst heq
        exact newest_taken (h.newest _ hid) haccepts now
      · rename_i heq
        exact newest_concat_of_ne (h.newest id hid) heq
  · rw [GossipService.handleEntry_of_not_accepts haccepts]
    refine ⟨h.nodeId, h.absent, fun id hid => ?_⟩
    by_cases heq : nodeState.nodeId = id
    · subst heq
      exact newest_refused (h.newest _ hid) (h.nodeId.symm ▸ hid) haccepts
    · exact newest_concat_of_ne (h.newest id hid) heq

theorem handleGossip (h : Merged own entries g) (hash : String → UInt64)
    (msg : Proto.GossipMessage) (now : Nat) :
    Merged own (entries ++ msg.nodes) (g.handleGossip hash msg now).1 := by
  change Merged own (entries ++ msg.nodes)
    (msg.nodes.foldl (GossipService.handleEntry hash now) g)
  induction msg.nodes using List.reverseRecOn with
  | nil => simpa using h
  | append_singleton front nodeState ih =>
      rw [List.foldl_append, ← List.append_assoc]
      exact ih.handleEntry hash now nodeState

theorem handleAll (hash : String → UInt64) (hempty : g.peers = ∅)
    (msgs : List (Proto.GossipMessage × Nat)) :
    Merged g.nodeId (entriesOf msgs) (handleAll hash g msgs) := by
  induction msgs using List.reverseRecOn with
  | nil =>
      refine ⟨rfl, by simp [Gossip.handleAll, hempty], fun id _ => ?_⟩
      simp [Gossip.handleAll, hempty, Newest, entriesOf]
  | append_singleton msgs m ih =>
      have hentries : entriesOf (msgs ++ [m]) = entriesOf msgs ++ m.1.nodes := by
        simp [entriesOf]
      have hlast : Gossip.handleAll hash g (msgs ++ [m]) =
          ((Gossip.handleAll hash g msgs).handleGossip hash m.1 m.2).1 := by
        simp [Gossip.handleAll]
      rw [hentries, hlast]
      exact ih.handleGossip hash m.1 m.2

end Merged

/-- Where a node's rank comes with one status and address, the newest entry is
determined by the set of entries. -/
theorem Newest.unseen_eq {entries others : List Proto.NodeState}
    (hsame : ∀ nodeState, nodeState ∈ entries ↔ nodeState ∈ others)
    (hunique : ∀ a ∈ entries, ∀ b ∈ entries, a.nodeId = b.nodeId →
      a.generation = b.generation → a.heartbeat = b.heartbeat →
      a.status = b.status ∧ a.address = b.address)
    {id : String} {x y : Option PeerState} (hx : Newest entries id x)
    (hy : Newest others id y) :
    x.map PeerState.unseen = y.map PeerState.unseen := by
  cases x with
  | none =>
      cases y with
      | none => rfl
      | some q =>
          obtain ⟨b, hb, hid, -⟩ := hy
          exact absurd hid (hx b ((hsame b).mpr hb))
  | some p =>
      obtain ⟨a, ha, haid, hp, hagreatest⟩ := hx
      cases y with
      | none => exact absurd haid (hy a ((hsame a).mp ha))
      | some q =>
          obtain ⟨b, hb, hbid, hq, hbgreatest⟩ := hy
          have hrank : a.rank = b.rank :=
            le_antisymm (hbgreatest a ((hsame a).mp ha) haid)
              (hagreatest b ((hsame b).mpr hb) hbid)
          obtain ⟨hgeneration, hheartbeat⟩ := rank_inj hrank
          obtain ⟨hstatus, haddress⟩ := hunique a ha b ((hsame b).mpr hb)
            (haid.trans hbid.symm) hgeneration hheartbeat
          rw [hp, hq]
          simp [PeerState.unseen, peerOf, haid, hbid, hgeneration, hheartbeat,
            hstatus, haddress]

/-! ## Handled before -/

namespace GossipService

/-- The entry is about the node itself or not newer than the table. -/
def Handled (g : GossipService) (nodeState : Proto.NodeState) : Prop :=
  nodeState.nodeId = g.nodeId ∨ g.Knows nodeState.nodeId nodeState.rank

variable {g : GossipService} {nodeState : Proto.NodeState}

theorem Handled.not_accepts (h : g.Handled nodeState) :
    ¬g.Accepts nodeState := by
  intro haccepts
  rcases h with hown | ⟨p, hp, hle⟩
  · exact haccepts.ne hown
  · exact absurd (haccepts.newer p hp) (not_lt_of_ge hle)

theorem handled_of_not_accepts (h : ¬g.Accepts nodeState) :
    g.Handled nodeState := by
  by_contra hnot
  rw [Handled, not_or] at hnot
  exact h ⟨fun p hp => lt_of_not_ge fun hle => hnot.2 ⟨p, hp, hle⟩, hnot.1⟩

theorem Handled.handleEntry (h : g.Handled nodeState) (hash : String → UInt64)
    (now : Nat) (other : Proto.NodeState) :
    (g.handleEntry hash now other).Handled nodeState := by
  rcases h with hown | hknows
  · exact .inl (hown.trans (handleEntry_frame hash now g other).1.symm)
  · exact .inr (hknows.handleEntry hash now other)

theorem handled_handleEntry (hash : String → UInt64) (now : Nat)
    (g : GossipService) (nodeState : Proto.NodeState) :
    (g.handleEntry hash now nodeState).Handled nodeState := by
  by_cases haccepts : g.Accepts nodeState
  · right
    exact ⟨peerOf nodeState now,
      by rw [getElem?_handleEntry haccepts, if_pos rfl], le_rfl⟩
  · rw [handleEntry_of_not_accepts haccepts]
    exact handled_of_not_accepts haccepts

theorem Handled.handleGossip (h : g.Handled nodeState) (hash : String → UInt64)
    (msg : Proto.GossipMessage) (now : Nat) :
    (g.handleGossip hash msg now).1.Handled nodeState :=
  handleGossip_induction (I := fun g => g.Handled nodeState)
    (fun _ other _ hg => hg.handleEntry hash now other) h

theorem Handled.handleAll (h : g.Handled nodeState) (hash : String → UInt64)
    (msgs : List (Proto.GossipMessage × Nat)) :
    (handleAll hash g msgs).Handled nodeState := by
  induction msgs generalizing g with
  | nil => exact h
  | cons m msgs ih => exact ih (h.handleGossip hash m.1 m.2)

theorem handled_handleGossip (hash : String → UInt64) (g : GossipService)
    (msg : Proto.GossipMessage) (now : Nat) :
    ∀ nodeState ∈ msg.nodes,
      (g.handleGossip hash msg now).1.Handled nodeState := by
  change ∀ nodeState ∈ msg.nodes,
    (msg.nodes.foldl (GossipService.handleEntry hash now) g).Handled nodeState
  induction msg.nodes using List.reverseRecOn with
  | nil => simp
  | append_singleton front last ih =>
      intro nodeState hmem
      rw [List.foldl_append]
      rcases List.mem_append.mp hmem with hfront | hlast
      · exact (ih nodeState hfront).handleEntry hash now last
      · rw [List.mem_singleton.mp hlast]
        exact handled_handleEntry hash now _ last

theorem handleGossip_of_handled {msg : Proto.GossipMessage}
    (h : ∀ nodeState ∈ msg.nodes, g.Handled nodeState)
    (hash : String → UInt64) (now : Nat) :
    (g.handleGossip hash msg now).1 = g := by
  refine handleGossip_induction (I := fun after => after = g)
    (fun after nodeState hmem heq => ?_) rfl
  rw [heq]
  exact handleEntry_of_not_accepts (h nodeState hmem).not_accepts

end GossipService

/-- Two collections with the same entries, each rank of a node with one status and
address, give the same table up to when the peers were last seen: each other
node at its greatest rank.  A message handled before changes nothing. -/
theorem merge_order_independent (hash : String → UInt64)
    (g other : GossipService) (hnodeId : g.nodeId = other.nodeId)
    (hempty : g.peers = ∅) (hempty' : other.peers = ∅)
    (msgs otherMsgs : List (Proto.GossipMessage × Nat))
    (hsame : ∀ nodeState,
      nodeState ∈ entriesOf msgs ↔ nodeState ∈ entriesOf otherMsgs)
    (hunique : ∀ a ∈ entriesOf msgs, ∀ b ∈ entriesOf msgs,
      a.nodeId = b.nodeId → a.generation = b.generation →
      a.heartbeat = b.heartbeat → a.status = b.status ∧ a.address = b.address) :
    (handleAll hash g msgs).peers.map (fun _ p => p.unseen) =
        (handleAll hash other otherMsgs).peers.map (fun _ p => p.unseen) ∧
      (handleAll hash g msgs).peers[g.nodeId]? = none ∧
      (∀ id, id ≠ g.nodeId →
        Newest (entriesOf msgs) id (handleAll hash g msgs).peers[id]?) ∧
      ∀ (anyNode : GossipService) (msg : Proto.GossipMessage) (now later : Nat)
        (between : List (Proto.GossipMessage × Nat)),
        let handled :=
          handleAll hash (anyNode.handleGossip hash msg now).1 between
        (handled.handleGossip hash msg later).1.peers = handled.peers ∧
          (handled.handleGossip hash msg later).1.ring = handled.ring := by
  have hmerged := Merged.handleAll hash hempty msgs
  have hmerged' := Merged.handleAll hash hempty' otherMsgs
  refine ⟨?_, hmerged.absent, hmerged.newest, ?_⟩
  · apply ExtTreeMap.ext_getElem?
    intro id
    rw [ExtTreeMap.getElem?_map, ExtTreeMap.getElem?_map]
    by_cases hid : id = g.nodeId
    · rw [hid, hmerged.absent, hnodeId, hmerged'.absent]
    · exact (hmerged.newest id hid).unseen_eq hsame hunique
        (hmerged'.newest id (hnodeId ▸ hid))
  · intro anyNode msg now later between handled
    have hhandled : ∀ nodeState ∈ msg.nodes, handled.Handled nodeState :=
      fun nodeState hmem =>
        (GossipService.handled_handleGossip hash anyNode msg now nodeState
          hmem).handleAll hash between
    rw [GossipService.handleGossip_of_handled hhandled hash later]
    exact ⟨rfl, rfl⟩

theorem merge_order_independent_two_entries :
    let older : Proto.NodeState := ⟨"node2", "10.0.0.2:50051", 0, 3, 1⟩
    let newer : Proto.NodeState := ⟨"node2", "10.0.0.2:50051", 1, 4, 1⟩
    let started : GossipService := .new Ring.sha256Labels "node1"
      "10.0.0.1:50051" (Ring.HashRing.new 1 3) ⟨5000, 15000, 3⟩
    (handleAll Ring.sha256Labels started
        [(⟨"node3", [older, newer]⟩, 10)]).peers.map (fun _ p => p.unseen) =
      (handleAll Ring.sha256Labels started
        [(⟨"node3", [newer]⟩, 5), (⟨"node2", [older]⟩, 6),
          (⟨"node3", [newer]⟩, 7)]).peers.map (fun _ p => p.unseen) := by
  intro older newer started
  refine (merge_order_independent Ring.sha256Labels started started rfl rfl rfl
    [(⟨"node3", [older, newer]⟩, 10)]
    [(⟨"node3", [newer]⟩, 5), (⟨"node2", [older]⟩, 6), (⟨"node3", [newer]⟩, 7)]
    ?_ (by decide +kernel)).1
  intro nodeState
  simp only [entriesOf, List.flatMap_cons, List.flatMap_nil, List.append_nil,
    List.mem_cons, List.mem_append, List.not_mem_nil, or_false]
  tauto

end Rkv.Gossip
