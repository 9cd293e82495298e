import Rkv.Foundation.Simulation
import Rkv.Gossip.Knowledge
import Rkv.Gossip.RingAgreement
import Rkv.Ring.PreferenceList

/-!
# What a silent peer becomes

A failure check moves a peer by one stage at most, so a peer nothing newer is
heard of is dead once a check found it past the suspect timeout and a later one
past the dead timeout; a single check, however late, only makes it suspect.  The
readings of the clock need not grow: only the order of the checks counts.
-/

namespace Rkv.Gossip

open Rkv.Foundation
open Rkv.Ring (Node HashRing)

/-! ## One alarm after the other -/

section

variable {α : Type*} {P Q : α → Prop} {l : List α}

/-- An element with the first property stands before one with the second. -/
def InOrder (P Q : α → Prop) (l : List α) : Prop :=
  ∃ a b, [a, b].Sublist l ∧ P a ∧ Q b

theorem inOrder_nil : ¬InOrder P Q [] := by
  rintro ⟨a, b, hsub, -⟩
  simp at hsub

theorem inOrder_concat {x : α} :
    InOrder P Q (l ++ [x]) ↔ InOrder P Q l ∨ (∃ a ∈ l, P a) ∧ Q x := by
  constructor
  · rintro ⟨a, b, hsub, ha, hb⟩
    obtain ⟨front, last, hsplit, hfront, hlast⟩ := List.sublist_append_iff.mp hsub
    rcases List.sublist_singleton.mp hlast with rfl | rfl
    · rw [List.append_nil] at hsplit
      exact .inl ⟨a, b, hsplit ▸ hfront, ha, hb⟩
    · have hpair : [a] ++ [b] = front ++ [x] := hsplit
      obtain ⟨rfl, hlast⟩ := List.append_inj' hpair rfl
      obtain rfl := List.singleton_inj.mp hlast
      exact .inr ⟨⟨a, List.singleton_sublist.mp hfront, ha⟩, hb⟩
  · rintro (⟨a, b, hsub, ha, hb⟩ | ⟨⟨a, hmem, ha⟩, hx⟩)
    · exact ⟨a, b, hsub.trans (List.sublist_append_left _ _), ha, hb⟩
    · have hpair := (List.singleton_sublist.mpr hmem).append
        (List.Sublist.refl [x])
      exact ⟨a, x, hpair, ha, hx⟩

end

/-! ## Nothing newer is heard -/

/-- The action brings nothing newer about the peer than this rank. -/
def NodeAction.Silent (id : String) (r : ℕ ×ₗ ℕ) : NodeAction → Prop
  | addSeed nodeId _ _ => nodeId ≠ id
  | handle msg _ => ∀ nodeState ∈ msg.nodes, nodeState.nodeId = id →
      nodeState.rank ≤ r
  | check _ => True

def NodeAction.reading : NodeAction → Option Nat
  | check now => some now
  | _ => none

/-- What the clock read at the failure checks. -/
def readings (actions : List NodeAction) : List Nat :=
  actions.filterMap NodeAction.reading

theorem readings_concat (past : List NodeAction) (action : NodeAction) :
    readings (past ++ [action]) = readings past ++ action.reading.toList := by
  cases h : action.reading with
  | none => simp [readings, h]
  | some now => simp [readings, h]

namespace GossipService

variable {hash : String → UInt64} {g : GossipService}

theorem getElem?_handleGossip_of_silent {id : String} {p : PeerState}
    (hp : g.peers[id]? = some p) {msg : Proto.GossipMessage} {now : Nat}
    (hsilent : ∀ nodeState ∈ msg.nodes, nodeState.nodeId = id →
      nodeState.rank ≤ p.rank) :
    (g.handleGossip hash msg now).1.peers[id]? = some p := by
  refine handleGossip_induction (I := fun g => g.peers[id]? = some p)
    (fun g nodeState hmem hg => ?_) hp
  by_cases haccepts : g.Accepts nodeState
  · rw [getElem?_handleEntry haccepts, if_neg, hg]
    intro hid
    have hlt := haccepts.newer p (hid.symm ▸ hg)
    exact absurd (hsilent nodeState hmem hid) (not_le_of_gt hlt)
  · rw [handleEntry_of_not_accepts haccepts]
    exact hg

theorem config_step (action : NodeAction) :
    (g.step hash action).config = g.config := by
  cases action with
  | addSeed nodeId address now => rfl
  | handle msg now => exact (handleGossip_frame hash g msg now).2.1
  | check now => rfl

theorem mem_alivePeers_iff (hkeyed : Keyed g.peers) {id : String} :
    (∃ p ∈ g.alivePeers, p.nodeId = id) ↔ g.peerStatus id = some .alive := by
  simp only [alivePeers, peerStatus, List.mem_filter, List.mem_map,
    decide_eq_true_eq, Option.map_eq_some_iff]
  constructor
  · rintro ⟨_, ⟨⟨⟨key, p⟩, hentry, rfl⟩, halive⟩, hid⟩
    have hp := Std.ExtTreeMap.mem_toList_iff_getElem?_eq_some.mp hentry
    have hkey : key = id := (hkeyed key p hp).symm.trans hid
    exact ⟨p, hkey ▸ hp, halive⟩
  · rintro ⟨p, hp, halive⟩
    exact ⟨p, ⟨⟨(id, p), Std.ExtTreeMap.mem_toList_iff_getElem?_eq_some.mpr hp,
      rfl⟩, halive⟩, hkeyed id p hp⟩

/-- The stage a peer that was alive reaches by these readings. -/
structure Staged (suspectTimeout deadTimeout : Nat) (p : PeerState)
    (past : List Nat) (status : NodeStatus) : Prop where
  dead : status = .dead ↔
    InOrder (suspectTimeout < · - p.lastSeen) (deadTimeout < · - p.lastSeen) past
  alive : status = .alive ↔ ∀ now ∈ past, ¬suspectTimeout < now - p.lastSeen

theorem staged_nil {suspectTimeout deadTimeout : Nat} {p : PeerState} :
    Staged suspectTimeout deadTimeout p [] .alive where
  dead := iff_of_false (by simp) inOrder_nil
  alive := iff_of_true rfl (by simp)

theorem Staged.check {suspectTimeout deadTimeout : Nat} {p : PeerState}
    {past : List Nat} {status : NodeStatus}
    (h : Staged suspectTimeout deadTimeout p past status) (now : Nat) :
    Staged suspectTimeout deadTimeout p (past ++ [now])
      (statusAfter suspectTimeout deadTimeout now
        { p with status := status }) := by
  have hseen : (∃ a ∈ past, suspectTimeout < a - p.lastSeen) ↔
      status ≠ .alive := by
    rw [ne_eq, h.alive]
    simp only [not_forall, not_not, exists_prop]
  refine ⟨?_, ?_⟩
  · rw [inOrder_concat, ← h.dead, hseen]
    cases status with
    | alive =>
        simp only [statusAfter]
        split <;> simp
    | suspect =>
        simp only [statusAfter]
        split <;> simp_all
    | dead => simp [statusAfter]
  · simp only [List.forall_mem_append, List.forall_mem_singleton, ← h.alive]
    cases status with
    | alive =>
        simp only [statusAfter]
        split <;> simp_all
    | suspect =>
        simp only [statusAfter]
        split <;> simp
    | dead => simp [statusAfter]

/-- The table's entry is the one it was, at the stage the checks gave it. -/
def Watches (config : GossipConfig) (id : String) (p : PeerState)
    (past : List NodeAction) (g : GossipService) : Prop :=
  g.config = config ∧ ∃ status, g.peers[id]? = some { p with status := status } ∧
    Staged config.suspectTimeout config.deadTimeout p (readings past) status

theorem Watches.step {config : GossipConfig} {id : String} {p : PeerState}
    {past : List NodeAction} (h : g.Watches config id p past)
    {action : NodeAction} (hsilent : action.Silent id p.rank) :
    (g.step hash action).Watches config id p (past ++ [action]) := by
  obtain ⟨hconfig, status, hentry, hstaged⟩ := h
  refine ⟨(config_step action).trans hconfig, ?_⟩
  rw [readings_concat]
  cases action with
  | addSeed nodeId address now =>
      refine ⟨status, ?_, by simpa [NodeAction.reading] using hstaged⟩
      have hne : nodeId ≠ id := hsilent
      simpa [GossipService.step, GossipService.addSeed,
        Std.ExtTreeMap.getElem?_insert, hne] using hentry
  | handle msg now =>
      refine ⟨status, ?_, by simpa [NodeAction.reading] using hstaged⟩
      exact getElem?_handleGossip_of_silent hentry hsilent
  | check now =>
      refine ⟨_, ?_, hstaged.check now⟩
      rw [GossipService.step, getElem?_checkFailures, hentry, hconfig]
      rfl

end GossipService

/-- From a state of any run in which a peer is alive, as long as nothing newer is
heard of it: it is alive as long as no check has found it past the suspect
timeout, and dead, and then in no key's preference list, as soon as such a check
has been followed by one that found it past the dead timeout. -/
theorem silent_peer_status (hash : String → UInt64) (own address : String)
    (ring : HashRing) (config : GossipConfig) {before after : List NodeAction}
    {g later : GossipService}
    (hbefore : Run (GossipService.next hash) anyAction
      (.new hash own address ring config) before g)
    {id : String} {p : PeerState} (hp : g.peers[id]? = some p)
    (halive : p.status = .alive)
    (hafter : Run (GossipService.next hash)
      (fun _ action => action.Silent id p.rank) g after later) :
    let late := fun now => config.suspectTimeout < now - p.lastSeen
    let veryLate := fun now => config.deadTimeout < now - p.lastSeen
    (∃ status, later.peers[id]? = some { p with status := status }) ∧
      (later.peerStatus id = some .alive ↔ ∀ now ∈ readings after, ¬late now) ∧
      ((∃ q ∈ later.alivePeers, q.nodeId = id) ↔
        ∀ now ∈ readings after, ¬late now) ∧
      (later.peerStatus id = some .dead ↔
        InOrder late veryLate (readings after)) ∧
      (InOrder late veryLate (readings after) →
        ∀ key, id ∉ (later.ring.getNodes hash key).map Node.id) := by
  intro late veryLate
  have hconfig : g.config = config := hbefore.invariant
    (I := fun g => g.config = config)
    (fun g action t h _ hnext => by
      obtain rfl := Option.some.inj hnext
      exact (GossipService.config_step action).trans h) rfl
  have hoff : later.DeadOff := (hafter.mono fun _ _ _ => trivial).invariant
    (fun g action t h _ hnext => Option.some.inj hnext ▸ h.step hash action)
    (hbefore.invariant
      (fun g action t h _ hnext => Option.some.inj hnext ▸ h.step hash action)
      (.new hash own address ring config))
  have hstart : g.Watches config id p [] :=
    ⟨hconfig, .alive, by rw [hp, ← halive], GossipService.staged_nil⟩
  obtain ⟨-, status, hentry, hstaged⟩ := hafter.history
    (I := fun past g => g.Watches config id p past)
    (fun past g action t h hsilent hnext => by
      obtain rfl := Option.some.inj hnext
      exact h.step hsilent) hstart
  rw [List.nil_append] at hstaged
  have hstatus : later.peerStatus id = some status := by
    rw [GossipService.peerStatus, hentry]
    rfl
  have halives : later.peerStatus id = some .alive ↔
      ∀ now ∈ readings after, ¬late now := by
    rw [hstatus, Option.some.injEq]
    exact hstaged.alive
  refine ⟨⟨status, hentry⟩, halives, ?_, ?_, fun hdead key hmem => ?_⟩
  · exact (GossipService.mem_alivePeers_iff hoff.keyed).trans halives
  · rw [hstatus, Option.some.injEq]
    exact hstaged.dead
  · exact hoff.off id _ hentry (hstaged.dead.mpr hdead)
      (HashRing.holds_of_mem_getNodes hmem)

/-- One check long after both timeouts leaves the seed suspect, the next one
finds it dead. -/
theorem silent_peer_status_two_checks :
    let g := node1Started.step Ring.sha256Labels
      (.addSeed "node2" "10.0.0.2:50051" 0)
    let once := g.step Ring.sha256Labels (.check 60000)
    let twice := once.step Ring.sha256Labels (.check 60001)
    (once.peerStatus "node2" ≠ some .alive ∧
        once.peerStatus "node2" ≠ some .dead) ∧
      twice.peerStatus "node2" = some .dead ∧
      ∀ key, "node2" ∉
        (twice.ring.getNodes Ring.sha256Labels key).map Node.id := by
  intro g once twice
  have hbefore : Run (GossipService.next Ring.sha256Labels) anyAction
      node1Started [.addSeed "node2" "10.0.0.2:50051" 0] g :=
    .cons trivial rfl (.nil _)
  have hp : g.peers["node2"]? =
      some ⟨"node2", "10.0.0.2:50051", .alive, 0, 0, 0⟩ := by decide +kernel
  have honce : Run (GossipService.next Ring.sha256Labels)
      (fun _ action => action.Silent "node2" (rank 0 0)) g [.check 60000] once :=
    .cons trivial rfl (.nil _)
  have htwice : Run (GossipService.next Ring.sha256Labels)
      (fun _ action => action.Silent "node2" (rank 0 0)) g
      [.check 60000, .check 60001] twice :=
    .cons trivial rfl (.cons trivial rfl (.nil _))
  have hfirst := silent_peer_status Ring.sha256Labels "node1" "10.0.0.1:50051"
    (HashRing.new 1 3) ⟨5000, 15000, 3⟩ hbefore hp rfl honce
  have hsecond := silent_peer_status Ring.sha256Labels "node1" "10.0.0.1:50051"
    (HashRing.new 1 3) ⟨5000, 15000, 3⟩ hbefore hp rfl htwice
  have hboth : InOrder (5000 < · - 0) (15000 < · - 0) [60000, 60001] :=
    ⟨60000, 60001, List.Sublist.refl _, by decide, by decide⟩
  refine ⟨⟨?_, ?_⟩, hsecond.2.2.2.1.mpr hboth, hsecond.2.2.2.2 hboth⟩
  · rw [ne_eq, hfirst.2.1]
    exact fun hnever => hnever 60000 List.mem_cons_self (by decide)
  · rw [ne_eq, hfirst.2.2.2.1]
    rintro ⟨a, b, hsub, -⟩
    have hlength : 2 ≤ 1 := hsub.length_le
    omega

end Rkv.Gossip
