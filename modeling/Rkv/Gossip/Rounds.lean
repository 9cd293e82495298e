import Rkv.Gossip.Addresses
import Rkv.Gossip.FailureDetection

/-!
# Gossip rounds and the links they use

A round counts the heartbeat and takes its targets from the peers that are not
dead; it builds its message later, from the table as it then is, and sends it to
the addresses the targets had.  The answer is dropped.  An entry either is a
seed's as it was registered, with generation zero and the right address, or goes
back to what its node said of itself, with generation one and no address.  A node
therefore sends only to peers it has heard nothing of, and it gives these up
after the dead timeout: no link between two nodes outlives it.
-/

namespace Rkv.Gossip

open Std (ExtTreeMap)
open Rkv.Foundation
open Rkv.Ring (Node HashRing)

/-- The nodes, the targets of the rounds in progress and the messages sent. -/
structure Mesh where
  services : String → GossipService
  chosen : String → Option (List PeerState)
  network : List Envelope

inductive MeshAction where
  | choose (id : String) (targets : List PeerState)
  | send (id : String)
  | deliver (index : Nat) (receiver : String) (now : Nat)
  | check (id : String) (now : Nat)

def MeshAction.readingOf (id : String) : MeshAction → Option Nat
  | check checker now => if checker = id then some now else none
  | _ => none

/-- What the clock read at the failure checks of a node. -/
def readingsOf (id : String) (actions : List MeshAction) : List Nat :=
  actions.filterMap (MeshAction.readingOf id)

theorem readingsOf_concat (id : String) (past : List MeshAction)
    (action : MeshAction) :
    readingsOf id (past ++ [action]) =
      readingsOf id past ++ (action.readingOf id).toList := by
  cases h : action.readingOf id with
  | none => simp [readingsOf, h]
  | some now => simp [readingsOf, h]

def Deployment.mesh (hash : String → UInt64) (d : Deployment) (now : Nat) :
    Mesh :=
  ⟨d.start hash now, fun _ => none, []⟩

namespace Mesh

def setService (s : Mesh) (id : String) (g : GossipService) : Mesh :=
  { s with services := Function.update s.services id g }

@[simp] theorem services_setService_self (s : Mesh) (id : String)
    (g : GossipService) : (s.setService id g).services id = g :=
  Function.update_self ..

theorem services_setService_of_ne (s : Mesh) {id other : String}
    (h : other ≠ id) (g : GossipService) :
    (s.setService id g).services other = s.services other :=
  Function.update_of_ne h ..

@[simp] theorem chosen_setService (s : Mesh) (id : String) (g : GossipService) :
    (s.setService id g).chosen = s.chosen := rfl

@[simp] theorem network_setService (s : Mesh) (id : String)
    (g : GossipService) : (s.setService id g).network = s.network := rfl

def setChosen (s : Mesh) (id : String) (targets : Option (List PeerState)) :
    Mesh :=
  { s with chosen := Function.update s.chosen id targets }

/-- A node is in one round at a time.  A message stays in the network, so it may
arrive late, again or never, and only at a node with its address. -/
def next (hash : String → UInt64) (d : Deployment) (s : Mesh) :
    MeshAction → Option Mesh
  | .choose id targets =>
      let g := (s.services id).beat
      if id ∈ d.members ∧ s.chosen id = none ∧ targets.Nodup ∧
          targets.length = min g.config.fanout g.candidates.length ∧
          ∀ target ∈ targets, target ∈ g.candidates then
        some ((s.setService id g).setChosen id (some targets))
      else none
  | .send id =>
      match s.chosen id with
      | none => none
      | some targets =>
          let msg := (s.services id).buildGossipMessage
          if id ∈ d.members then
            some { s.setChosen id none with
              network := s.network ++ targets.map fun p => ⟨p.address, msg⟩ }
          else none
  | .deliver index receiver now =>
      match s.network[index]? with
      | none => none
      | some envelope =>
          if receiver ∈ d.members ∧ envelope.target = d.address receiver then
            some (s.setService receiver
              ((s.services receiver).handleGossip hash envelope.msg now).1)
          else none
  | .check id now =>
      if id ∈ d.members then
        let g := s.services id
        some (s.setService id (g.checkFailures g.config.suspectTimeout
          g.config.deadTimeout now))
      else none

/-- What a step has done, by the node that took it. -/
theorem next_cases {hash : String → UInt64} {d : Deployment} {s t : Mesh}
    {action : MeshAction} (h : s.next hash d action = some t) :
    (∃ id targets, action = .choose id targets ∧ id ∈ d.members ∧
        (∀ target ∈ targets, target ∈ (s.services id).candidates) ∧
        t = (s.setService id (s.services id).beat).setChosen id
          (some targets)) ∨
      (∃ id targets, action = .send id ∧ id ∈ d.members ∧
        s.chosen id = some targets ∧
        t = { s.setChosen id none with
          network := s.network ++ targets.map fun p =>
            ⟨p.address, (s.services id).buildGossipMessage⟩ }) ∨
      (∃ index receiver now envelope, action = .deliver index receiver now ∧
        receiver ∈ d.members ∧ envelope ∈ s.network ∧
        envelope.target = d.address receiver ∧
        t = s.setService receiver
          ((s.services receiver).handleGossip hash envelope.msg now).1) ∨
      ∃ id now, action = .check id now ∧ id ∈ d.members ∧
        t = s.setService id ((s.services id).checkFailures
          (s.services id).config.suspectTimeout
          (s.services id).config.deadTimeout now) := by
  cases action with
  | choose id targets =>
      simp only [next] at h
      split at h
      · rename_i henabled
        cases h
        exact .inl ⟨id, targets, rfl, henabled.1, henabled.2.2.2.2, rfl⟩
      · contradiction
  | send id =>
      simp only [next] at h
      split at h
      · contradiction
      · rename_i targets htargets
        split at h
        · rename_i hid
          cases h
          exact .inr (.inl ⟨id, targets, rfl, hid, htargets, rfl⟩)
        · contradiction
  | deliver index receiver now =>
      simp only [next] at h
      split at h
      · contradiction
      · rename_i envelope henvelope
        split at h
        · rename_i hreceiver
          cases h
          exact .inr (.inr (.inl ⟨index, receiver, now, envelope, rfl,
            hreceiver.1, List.mem_of_getElem? henvelope, hreceiver.2, rfl⟩))
        · contradiction
  | check id now =>
      simp only [next] at h
      split at h
      · rename_i hid
        cases h
        exact .inr (.inr (.inr ⟨id, now, rfl, hid, rfl⟩))
      · contradiction

end Mesh

/-! ## Where an entry comes from -/

/-- A seed's entry, or one that goes back to what a node said of itself. -/
def Origin (d : Deployment) (nodeState : Proto.NodeState) : Prop :=
  nodeState.nodeId ∈ d.members ∧
    (nodeState.generation = 0 ∧ nodeState.heartbeat = 0 ∧
        nodeState.address = d.address nodeState.nodeId ∨
      nodeState.generation = 1 ∧ nodeState.address = "")

structure Traced (d : Deployment) (g : GossipService) : Prop where
  generation : g.generation = 1
  config : g.config = d.config
  peers : ∀ peer p, g.peers[peer]? = some p →
    p.nodeId = peer ∧ Origin d (stateOf p)

namespace Traced

variable {hash : String → UInt64} {d : Deployment} {g : GossipService}

theorem start (hash : String → UInt64) (d : Deployment) (now : Nat)
    {id : String} (hid : id ∈ d.members) : Traced d (d.start hash now id) := by
  unfold Deployment.start
  refine List.foldlRecOn (d.seeds id) _ ⟨rfl, rfl, by simp [GossipService.new]⟩
    fun g h seed hseed => ⟨h.generation, h.config, fun peer p hp => ?_⟩
  simp only [GossipService.addSeed, ExtTreeMap.getElem?_insert] at hp
  split at hp
  · rename_i heq
    cases hp
    exact ⟨compare_eq_iff_eq.mp heq, d.seeds_mem id hid seed hseed,
      .inl ⟨rfl, rfl, rfl⟩⟩
  · exact h.peers peer p hp

theorem beat (h : Traced d g) : Traced d g.beat :=
  ⟨h.generation, h.config, h.peers⟩

theorem handleEntry (h : Traced d g) {now : Nat} {nodeState : Proto.NodeState}
    (horigin : Origin d nodeState) :
    Traced d (g.handleEntry hash now nodeState) := by
  obtain ⟨-, hconfig, hgeneration, -⟩ :=
    GossipService.handleEntry_frame hash now g nodeState
  refine ⟨hgeneration.trans h.generation, hconfig.trans h.config,
    fun peer p hp => ?_⟩
  by_cases haccepts : g.Accepts nodeState
  · rw [GossipService.getElem?_handleEntry haccepts] at hp
    split at hp
    · rename_i hpeer
      cases hp
      exact ⟨hpeer, horigin⟩
    · exact h.peers peer p hp
  · rw [GossipService.handleEntry_of_not_accepts haccepts] at hp
    exact h.peers peer p hp

theorem handleGossip (h : Traced d g) {now : Nat} {msg : Proto.GossipMessage}
    (hmsg : ∀ nodeState ∈ msg.nodes, Origin d nodeState) :
    Traced d (g.handleGossip hash msg now).1 :=
  GossipService.handleGossip_induction
    (fun _ nodeState hmem hg => hg.handleEntry (hmsg nodeState hmem)) h

theorem checkFailures (h : Traced d g) (suspectTimeout deadTimeout now : Nat) :
    Traced d (g.checkFailures suspectTimeout deadTimeout now) := by
  refine ⟨h.generation, h.config, fun peer p hp => ?_⟩
  rw [GossipService.getElem?_checkFailures, Option.map_eq_some_iff] at hp
  obtain ⟨old, hold, rfl⟩ := hp
  exact h.peers peer old hold

theorem buildGossipMessage (h : Traced d g) (hmember : g.nodeId ∈ d.members) :
    ∀ nodeState ∈ g.buildGossipMessage.nodes, Origin d nodeState := by
  intro nodeState hmem
  rcases List.mem_append.mp hmem with hpeers | hself
  · obtain ⟨⟨peer, p⟩, hentry, rfl⟩ := List.mem_map.mp hpeers
    exact (h.peers peer p (ExtTreeMap.mem_toList_iff_getElem?_eq_some.mp
      hentry)).2
  · rw [List.mem_singleton.mp hself]
    exact ⟨hmember, .inr ⟨h.generation, rfl⟩⟩

theorem of_mem_candidates (h : Traced d g) {p : PeerState}
    (hp : p ∈ g.candidates) :
    g.peers[p.nodeId]? = some p ∧ p.status ≠ .dead ∧ Origin d (stateOf p) := by
  obtain ⟨hmem, halive⟩ := List.mem_filter.mp hp
  obtain ⟨⟨peer, _⟩, hentry, rfl⟩ := List.mem_map.mp hmem
  have hfound := ExtTreeMap.mem_toList_iff_getElem?_eq_some.mp hentry
  obtain ⟨hid, horigin⟩ := h.peers peer _ hfound
  dsimp only at hid ⊢
  exact ⟨hid.symm ▸ hfound, by simpa using halive, horigin⟩

end Traced

structure Mesh.AllTraced (d : Deployment) (s : Mesh) : Prop where
  nodeIds : ∀ id, (s.services id).nodeId = id
  tables : ∀ id ∈ d.members, Traced d (s.services id)
  network : ∀ envelope ∈ s.network, ∀ nodeState ∈ envelope.msg.nodes,
    Origin d nodeState

namespace Mesh.AllTraced

variable {hash : String → UInt64} {d : Deployment} {s t : Mesh}

theorem boot (hash : String → UInt64) (d : Deployment) (now : Nat) :
    AllTraced d (d.mesh hash now) where
  nodeIds := (Undelivered.boot hash d now).nodeIds
  tables := fun _ hid => .start hash d now hid
  network := by simp [Deployment.mesh]

theorem setService (h : AllTraced d s) {id : String} {g : GossipService}
    (hid : g.nodeId = (s.services id).nodeId) (hg : Traced d g) :
    AllTraced d (s.setService id g) where
  nodeIds := fun other => by
    by_cases heq : other = id
    · subst heq
      rw [s.services_setService_self, hid]
      exact h.nodeIds other
    · rw [s.services_setService_of_ne heq]
      exact h.nodeIds other
  tables := fun other hother => by
    by_cases heq : other = id
    · subst heq
      rw [s.services_setService_self]
      exact hg
    · rw [s.services_setService_of_ne heq]
      exact h.tables other hother
  network := h.network

theorem step (h : AllTraced d s) {action : MeshAction}
    (hnext : s.next hash d action = some t) : AllTraced d t := by
  rcases next_cases hnext with ⟨id, targets, -, hid, -, rfl⟩ |
    ⟨id, targets, -, hid, -, rfl⟩ |
    ⟨_, receiver, now, envelope, -, hid, henvelope, -, rfl⟩ |
    ⟨id, now, -, hid, rfl⟩
  · have hset := h.setService (g := (s.services id).beat) rfl
      (h.tables id hid).beat
    exact ⟨hset.nodeIds, hset.tables, hset.network⟩
  · refine ⟨h.nodeIds, h.tables, fun envelope henvelope => ?_⟩
    rcases List.mem_append.mp henvelope with hold | hsent
    · exact h.network envelope hold
    · obtain ⟨p, -, rfl⟩ := List.mem_map.mp hsent
      exact (h.tables id hid).buildGossipMessage (by rw [h.nodeIds]; exact hid)
  · exact h.setService (GossipService.handleGossip_frame hash _ _ now).1
      ((h.tables receiver hid).handleGossip (h.network envelope henvelope))
  · exact h.setService rfl ((h.tables id hid).checkFailures ..)

end Mesh.AllTraced

/-! ## One link -/

namespace GossipService

/-- The node has heard of the peer, or has given it up. -/
def Lost (g : GossipService) (peer : String) : Prop :=
  ∃ q, g.peers[peer]? = some q ∧ (q.generation = 1 ∨ q.status = .dead)

variable {hash : String → UInt64} {d : Deployment} {g : GossipService}
  {peer : String}

theorem generation_of_accepts {nodeState : Proto.NodeState}
    (horigin : Origin d nodeState) {q : PeerState}
    (hq : g.peers[nodeState.nodeId]? = some q) (haccepts : g.Accepts nodeState) :
    nodeState.generation = 1 := by
  rcases horigin.2 with ⟨hgeneration, hheartbeat, -⟩ | ⟨hgeneration, -⟩
  · -- nothing is older than a seed's entry
    have hlt := haccepts.newer q hq
    rw [Proto.NodeState.rank, hgeneration, hheartbeat] at hlt
    exact absurd hlt (not_lt_of_ge bot_le)
  · exact hgeneration

theorem Lost.handleEntry (h : g.Lost peer) {now : Nat}
    {nodeState : Proto.NodeState} (horigin : Origin d nodeState) :
    (g.handleEntry hash now nodeState).Lost peer := by
  obtain ⟨q, hq, hlost⟩ := h
  by_cases haccepts : g.Accepts nodeState
  · rw [Lost, getElem?_handleEntry haccepts]
    by_cases hid : nodeState.nodeId = peer
    · subst hid
      exact ⟨_, if_pos rfl, .inl (generation_of_accepts horigin hq haccepts)⟩
    · exact ⟨q, by rw [if_neg hid, hq], hlost⟩
  · rw [handleEntry_of_not_accepts haccepts]
    exact ⟨q, hq, hlost⟩

theorem Lost.handleGossip (h : g.Lost peer) {now : Nat}
    {msg : Proto.GossipMessage}
    (hmsg : ∀ nodeState ∈ msg.nodes, Origin d nodeState) :
    (g.handleGossip hash msg now).1.Lost peer :=
  handleGossip_induction (I := fun g => g.Lost peer)
    (fun _ nodeState hmem hg => hg.handleEntry (hmsg nodeState hmem)) h

theorem Lost.checkFailures (h : g.Lost peer)
    (suspectTimeout deadTimeout now : Nat) :
    (g.checkFailures suspectTimeout deadTimeout now).Lost peer := by
  obtain ⟨q, hq, hlost⟩ := h
  rw [Lost, getElem?_checkFailures, hq]
  refine ⟨_, rfl, hlost.imp id fun hdead => ?_⟩
  simp [statusAfter, hdead]

/-- A node sends nothing to the address of a peer whose link is lost. -/
theorem Lost.address_ne (h : g.Lost peer) (htraced : Traced d g)
    (hdistinct : ∀ a ∈ d.members, ∀ b ∈ d.members,
      d.address a = d.address b → a = b)
    (hpeer : peer ∈ d.members) {p : PeerState} (hp : p ∈ g.candidates) :
    p.address ≠ d.address peer := by
  obtain ⟨hfound, hlive, hmember, horigin⟩ := htraced.of_mem_candidates hp
  intro haddress
  rcases horigin with ⟨hgeneration, -, hright⟩ | ⟨-, hempty⟩
  · have hid : p.nodeId = peer := hdistinct _ hmember _ hpeer
      (hright.symm.trans haddress)
    obtain ⟨q, hq, hlost⟩ := h
    rw [← hid, hfound] at hq
    obtain rfl := Option.some.inj hq
    rcases hlost with hheard | hdead
    · have hzero : p.generation = 0 := hgeneration
      rw [hzero] at hheard
      contradiction
    · exact hlive hdead
  · exact d.address_ne peer hpeer (haddress.symm.trans hempty)

/-- The checks at these readings have moved the entry on. -/
structure Advanced (suspectTimeout deadTimeout lastSeen : Nat)
    (past : List Nat) (status : NodeStatus) : Prop where
  late : (∃ now ∈ past, suspectTimeout < now - lastSeen) → status ≠ .alive
  veryLate : InOrder (suspectTimeout < · - lastSeen)
    (deadTimeout < · - lastSeen) past → status = .dead

theorem advanced_nil {suspectTimeout deadTimeout lastSeen : Nat}
    (status : NodeStatus) :
    Advanced suspectTimeout deadTimeout lastSeen [] status :=
  ⟨by simp, fun h => absurd h inOrder_nil⟩

theorem Advanced.check {suspectTimeout deadTimeout : Nat} {p : PeerState}
    {past : List Nat} {status : NodeStatus}
    (h : Advanced suspectTimeout deadTimeout p.lastSeen past status)
    (now : Nat) :
    Advanced suspectTimeout deadTimeout p.lastSeen (past ++ [now])
      (statusAfter suspectTimeout deadTimeout now
        { p with status := status }) := by
  refine ⟨fun hlate => ?_, fun hboth => ?_⟩
  · cases status with
    | alive =>
        simp only [List.mem_append, List.mem_singleton] at hlate
        obtain ⟨a, hold | rfl, ha⟩ := hlate
        · exact absurd rfl (h.late ⟨a, hold, ha⟩)
        · simp [statusAfter, ha]
    | suspect =>
        simp only [statusAfter]
        split <;> simp
    | dead => simp [statusAfter]
  · rcases inOrder_concat.mp hboth with hold | ⟨hlate, hnow⟩
    · rw [h.veryLate hold]
      rfl
    · cases status with
      | alive => exact absurd rfl (h.late hlate)
      | suspect => simp [statusAfter, hnow]
      | dead => rfl

/-- The entry for the peer is the one it was, moved on by the checks, or the
link is lost. -/
def Ageing (d : Deployment) (peer : String) (p : PeerState) (past : List Nat)
    (g : GossipService) : Prop :=
  g.Lost peer ∨ ∃ status, g.peers[peer]? = some { p with status := status } ∧
    Advanced d.config.suspectTimeout d.config.deadTimeout p.lastSeen past status

theorem Ageing.handleGossip {p : PeerState} {past : List Nat}
    (h : g.Ageing d peer p past) {now : Nat} {msg : Proto.GossipMessage}
    (hmsg : ∀ nodeState ∈ msg.nodes, Origin d nodeState) :
    (g.handleGossip hash msg now).1.Ageing d peer p past := by
  refine handleGossip_induction (I := fun g => g.Ageing d peer p past)
    (fun g nodeState hmem hg => ?_) h
  have horigin := hmsg nodeState hmem
  rcases hg with hlost | ⟨status, hentry, hadvanced⟩
  · exact .inl (hlost.handleEntry horigin)
  · by_cases haccepts : g.Accepts nodeState
    · by_cases hid : nodeState.nodeId = peer
      · subst hid
        refine .inl ⟨peerOf nodeState now, ?_,
          .inl (generation_of_accepts horigin hentry haccepts)⟩
        rw [getElem?_handleEntry haccepts, if_pos rfl]
      · refine .inr ⟨status, ?_, hadvanced⟩
        rw [getElem?_handleEntry haccepts, if_neg hid, hentry]
    · rw [handleEntry_of_not_accepts haccepts]
      exact .inr ⟨status, hentry, hadvanced⟩

theorem Ageing.checkFailures {p : PeerState} {past : List Nat}
    (h : g.Ageing d peer p past) (hconfig : g.config = d.config) (now : Nat) :
    (g.checkFailures g.config.suspectTimeout g.config.deadTimeout now).Ageing d
      peer p (past ++ [now]) := by
  rcases h with hlost | ⟨status, hentry, hadvanced⟩
  · exact .inl (hlost.checkFailures ..)
  · refine .inr ⟨_, ?_, hadvanced.check now⟩
    rw [getElem?_checkFailures, hentry, hconfig]
    rfl

end GossipService

/-! ## Runs -/

namespace Mesh

variable {hash : String → UInt64} {d : Deployment} {s t : Mesh}
  {id peer : String}

/-- What every step of another node leaves alone and every step of the node
keeps holds of the node after the step. -/
theorem step_service {action : MeshAction} {I : List Nat → GossipService → Prop}
    (past : List MeshAction) (hs : I (readingsOf id past) (s.services id))
    (hbeat : ∀ g, I (readingsOf id past) g → I (readingsOf id past) g.beat)
    (hhandle : ∀ g envelope now, envelope ∈ s.network →
      I (readingsOf id past) g →
      I (readingsOf id past) (g.handleGossip hash envelope.msg now).1)
    (hcheck : ∀ now, I (readingsOf id past ++ [now])
      ((s.services id).checkFailures (s.services id).config.suspectTimeout
        (s.services id).config.deadTimeout now))
    (hnext : s.next hash d action = some t) :
    I (readingsOf id (past ++ [action])) (t.services id) := by
  rw [readingsOf_concat]
  rcases next_cases hnext with ⟨other, targets, rfl, -, -, rfl⟩ |
    ⟨other, targets, rfl, -, -, rfl⟩ |
    ⟨_, receiver, now, envelope, rfl, -, henvelope, -, rfl⟩ |
    ⟨other, now, rfl, -, rfl⟩
  · simp only [MeshAction.readingOf, Option.toList_none, List.append_nil]
    change I _ ((s.setService other _).services id)
    by_cases heq : id = other
    · subst heq
      rw [services_setService_self]
      exact hbeat _ hs
    · rw [services_setService_of_ne _ heq]
      exact hs
  · simp only [MeshAction.readingOf, Option.toList_none, List.append_nil]
    exact hs
  · simp only [MeshAction.readingOf, Option.toList_none, List.append_nil]
    by_cases heq : id = receiver
    · subst heq
      rw [services_setService_self]
      exact hhandle _ envelope now henvelope hs
    · rw [services_setService_of_ne _ heq]
      exact hs
  · by_cases heq : id = other
    · subst heq
      rw [services_setService_self, MeshAction.readingOf, if_pos rfl]
      exact hcheck now
    · rw [services_setService_of_ne _ heq, MeshAction.readingOf,
        if_neg (Ne.symm heq), Option.toList_none, List.append_nil]
      exact hs

theorem ageing_step (htraced : AllTraced d s) (hid : id ∈ d.members)
    {past : List MeshAction} {p : PeerState}
    (h : (s.services id).Ageing d peer p (readingsOf id past))
    {action : MeshAction} (hnext : s.next hash d action = some t) :
    (t.services id).Ageing d peer p (readingsOf id (past ++ [action])) :=
  step_service (I := fun readings g => g.Ageing d peer p readings) past h
    (fun _ hg => hg)
    (fun _ envelope _ henvelope hg =>
      hg.handleGossip (htraced.network envelope henvelope))
    (fun now => h.checkFailures (htraced.tables id hid).config now) hnext

/-- Since the network was this one the node has sent nothing to the peer and is
not about to. -/
structure Cut (d : Deployment) (id peer : String) (before : List Envelope)
    (s : Mesh) : Prop where
  traced : AllTraced d s
  lost : (s.services id).Lost peer
  chosen : ∀ targets, s.chosen id = some targets →
    ∀ p ∈ targets, p.address ≠ d.address peer
  sent : ∃ sent, s.network = before ++ sent ∧ ∀ envelope ∈ sent,
    envelope.msg.senderId = id → envelope.target ≠ d.address peer

theorem Cut.step {before : List Envelope} (h : s.Cut d id peer before)
    (hdistinct : ∀ a ∈ d.members, ∀ b ∈ d.members,
      d.address a = d.address b → a = b)
    (hpeer : peer ∈ d.members) {action : MeshAction}
    (hnext : s.next hash d action = some t) : t.Cut d id peer before := by
  have htraced := h.traced.step hnext
  have hlost : (t.services id).Lost peer :=
    step_service (I := fun _ g => g.Lost peer) [] h.lost
      (fun _ hg => hg)
      (fun _ envelope _ henvelope hg =>
        hg.handleGossip (h.traced.network envelope henvelope))
      (fun now => h.lost.checkFailures ..) hnext
  refine ⟨htraced, hlost, ?_, ?_⟩
  · rcases next_cases hnext with ⟨other, targets, -, hother, hfrom, rfl⟩ |
      ⟨other, targets, -, -, -, rfl⟩ | ⟨_, _, _, _, -, -, -, -, rfl⟩ |
      ⟨_, _, -, -, rfl⟩
    · intro chosen hchosen p hp
      by_cases heq : id = other
      · subst heq
        simp only [setChosen, Function.update_self, Option.some.injEq] at hchosen
        subst hchosen
        exact h.lost.address_ne (h.traced.tables id hother) hdistinct hpeer
          (hfrom p hp)
      · simp only [setChosen, Function.update_of_ne heq, chosen_setService]
          at hchosen
        exact h.chosen chosen hchosen p hp
    · intro chosen hchosen p hp
      by_cases heq : id = other
      · subst heq
        simp [setChosen] at hchosen
      · simp only [setChosen, Function.update_of_ne heq] at hchosen
        exact h.chosen chosen hchosen p hp
    · exact h.chosen
    · exact h.chosen
  · obtain ⟨sent, hsent, hnone⟩ := h.sent
    rcases next_cases hnext with ⟨_, _, -, -, -, rfl⟩ |
      ⟨other, targets, -, -, htargets, rfl⟩ | ⟨_, _, _, _, -, -, -, -, rfl⟩ |
      ⟨_, _, -, -, rfl⟩
    · exact ⟨sent, hsent, hnone⟩
    · refine ⟨sent ++ targets.map _, by rw [hsent, List.append_assoc], ?_⟩
      intro envelope henvelope hsender
      rcases List.mem_append.mp henvelope with hold | hnew
      · exact hnone envelope hold hsender
      · obtain ⟨p, hp, rfl⟩ := List.mem_map.mp hnew
        have hown : other = id := (h.traced.nodeIds other).symm.trans hsender
        exact h.chosen targets (hown ▸ htargets) p hp
    · exact ⟨sent, hsent, hnone⟩
    · exact ⟨sent, hsent, hnone⟩

end Mesh

/-- Once a node has heard of a peer, or has made two checks that found the entry
it had for it past the suspect and then the dead timeout, it sends the peer
nothing in any round that begins later. -/
theorem links_expire (hash : String → UInt64) (d : Deployment)
    (hdistinct : ∀ a ∈ d.members, ∀ b ∈ d.members,
      d.address a = d.address b → a = b)
    (startedAt : Nat) {before between after : List MeshAction} {s t u : Mesh}
    (hbefore : Run (Mesh.next hash d) anyAction (d.mesh hash startedAt) before s)
    (hbetween : Run (Mesh.next hash d) anyAction s between t)
    (hafter : Run (Mesh.next hash d) anyAction t after u)
    {id peer : String} (hid : id ∈ d.members) (hpeer : peer ∈ d.members)
    {p : PeerState} (hp : (s.services id).peers[peer]? = some p)
    (hexpired : p.generation = 1 ∨
      InOrder (d.config.suspectTimeout < · - p.lastSeen)
        (d.config.deadTimeout < · - p.lastSeen) (readingsOf id between))
    (hround : t.chosen id = none) :
    ∃ sent, u.network = t.network ++ sent ∧ ∀ envelope ∈ sent,
      envelope.msg.senderId = id → envelope.target ≠ d.address peer := by
  have htraced : s.AllTraced d := hbefore.invariant
    (fun _ _ _ h _ hnext => h.step hnext) (.boot hash d startedAt)
  have hstart : (s.services id).Ageing d peer p (readingsOf id []) :=
    .inr ⟨p.status, hp, GossipService.advanced_nil p.status⟩
  obtain ⟨htraced', hageing⟩ := hbetween.history
    (I := fun past s => s.AllTraced d ∧
      (s.services id).Ageing d peer p (readingsOf id past))
    (fun past s action t h _ hnext =>
      ⟨h.1.step hnext, Mesh.ageing_step h.1 hid h.2 hnext⟩) ⟨htraced, hstart⟩
  rw [List.nil_append] at hageing
  have hlost : (t.services id).Lost peer := by
    rcases hageing with hlost | ⟨status, hentry, hadvanced⟩
    · exact hlost
    · refine ⟨_, hentry, hexpired.imp (fun h => h) fun hchecks => ?_⟩
      exact hadvanced.veryLate hchecks
  have hcut : t.Cut d id peer t.network :=
    ⟨htraced', hlost, by simp [hround], [], by simp⟩
  exact (hafter.invariant (I := Mesh.Cut d id peer t.network)
    (fun _ _ _ h _ hnext => h.step hdistinct hpeer hnext) hcut).sent

def firstSend : List MeshAction :=
  [.choose "node1" [⟨"node2", "10.0.0.2:50051", .alive, 0, 0, 0⟩], .send "node1"]

def bothTimeouts : List MeshAction :=
  [.check "node1" 6000, .check "node1" 16000]

def emptyRound : List MeshAction := [.choose "node1" [], .send "node1"]

theorem links_expire_after_two_checks :
    let next := Mesh.next Ring.sha256Labels twoNodes
    ∃ s t u, Run next anyAction (twoNodes.mesh Ring.sha256Labels 0) firstSend s ∧
      (s.network.map Envelope.target) = [twoNodes.address "node2"] ∧
      Run next anyAction s bothTimeouts t ∧ Run next anyAction t emptyRound u ∧
      ∃ sent, u.network = t.network ++ sent ∧ ∀ envelope ∈ sent,
        envelope.msg.senderId = "node1" →
          envelope.target ≠ twoNodes.address "node2" := by
  intro next
  have hfirst : (runActions next (twoNodes.mesh Ring.sha256Labels 0)
      firstSend).map (fun s => ((s.services "node1").peers["node2"]?,
        s.network.map Envelope.target)) =
      some (some ⟨"node2", "10.0.0.2:50051", .alive, 0, 0, 0⟩,
        ["10.0.0.2:50051"]) := by decide +kernel
  obtain ⟨s, hs, hfound⟩ := Option.map_eq_some_iff.mp hfirst
  rw [Prod.mk.injEq] at hfound
  have hsecond : (runActions next (twoNodes.mesh Ring.sha256Labels 0)
      (firstSend ++ bothTimeouts)).map (fun t => t.chosen "node1") =
      some none := by decide +kernel
  rw [runActions_append, hs, Option.bind_some] at hsecond
  obtain ⟨t, ht, hround⟩ := Option.map_eq_some_iff.mp hsecond
  have hthird : (runActions next (twoNodes.mesh Ring.sha256Labels 0)
      (firstSend ++ (bothTimeouts ++ emptyRound))).isSome = true := by
    decide +kernel
  rw [runActions_append, hs, Option.bind_some, runActions_append, ht,
    Option.bind_some] at hthird
  obtain ⟨u, hu⟩ := Option.isSome_iff_exists.mp hthird
  have hchecks : InOrder (5000 < · - 0) (15000 < · - 0) [6000, 16000] :=
    ⟨6000, 16000, List.Sublist.refl _, by decide, by decide⟩
  exact ⟨s, t, u, .of_runActions hs, hfound.2, .of_runActions ht,
    .of_runActions hu, links_expire Ring.sha256Labels twoNodes (by decide) 0
      (.of_runActions hs) (.of_runActions ht) (.of_runActions hu) (by decide)
      (by decide) hfound.1 (.inr hchecks) hround⟩

end Rkv.Gossip
