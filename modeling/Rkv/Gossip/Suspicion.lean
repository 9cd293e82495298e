import Rkv.Foundation.Simulation
import Rkv.Gossip.Freshness

/-!
# Where a suspicion comes from

A status travels with the generation and heartbeat it was given at.  In a cluster
that gossips over any network, whatever calls a node suspect at some rank goes
back to a failure check that found it alive at that very rank and silent for
longer than the checking node's suspect timeout; whatever calls it dead goes back
to a later check, perhaps of another node, that found it suspect at that rank and
silent for longer than the dead timeout.
-/

namespace Rkv.Gossip

open Std (ExtTreeMap)
open Rkv.Foundation
open Rkv.Ring (HashRing)

/-! ## Entries that satisfy a predicate -/

/-- Every entry of the table satisfies the predicate of id, rank and status. -/
structure Satisfies (P : String → ℕ ×ₗ ℕ → NodeStatus → Prop)
    (g : GossipService) : Prop where
  keyed : Keyed g.peers
  peers : ∀ id p, g.peers[id]? = some p → P id p.rank p.status

namespace Satisfies

variable {P : String → ℕ ×ₗ ℕ → NodeStatus → Prop} {g : GossipService}

theorem mono (h : Satisfies P g) {Q : String → ℕ ×ₗ ℕ → NodeStatus → Prop}
    (hle : ∀ id r status, P id r status → Q id r status) : Satisfies Q g :=
  ⟨h.keyed, fun id p hp => hle _ _ _ (h.peers id p hp)⟩

theorem addSeed (h : Satisfies P g) (halive : ∀ id r, P id r .alive)
    (hash : String → UInt64) (nodeId address : String) (now : Nat) :
    Satisfies P (g.addSeed hash nodeId address now) where
  keyed := h.keyed.insert ⟨nodeId, address, .alive, 0, 0, now⟩
  peers := by
    intro id p hp
    simp only [GossipService.addSeed, ExtTreeMap.getElem?_insert] at hp
    split at hp
    · cases hp
      exact halive id _
    · exact h.peers id p hp

theorem handleGossip (h : Satisfies P g) (hash : String → UInt64) (now : Nat)
    {msg : Proto.GossipMessage}
    (hmsg : ∀ nodeState ∈ msg.nodes,
      P nodeState.nodeId nodeState.rank (.ofCode nodeState.status)) :
    Satisfies P (g.handleGossip hash msg now).1 := by
  refine GossipService.handleGossip_induction
    (fun g nodeState hmem hg => ?_) h
  refine ⟨GossipService.keyed_handleEntry hash hg.keyed now nodeState, ?_⟩
  by_cases haccepts : g.Accepts nodeState
  · intro id p hp
    rw [GossipService.getElem?_handleEntry haccepts] at hp
    split at hp
    · rename_i hid
      cases hp
      exact hid ▸ hmsg nodeState hmem
    · exact hg.peers id p hp
  · rw [GossipService.handleEntry_of_not_accepts haccepts]
    exact hg.peers

theorem buildNodeStates (h : Satisfies P g) :
    ∀ nodeState ∈ buildNodeStates g.peers,
      P nodeState.nodeId nodeState.rank (.ofCode nodeState.status) := by
  intro nodeState hmem
  obtain ⟨⟨id, p⟩, hentry, rfl⟩ := List.mem_map.mp hmem
  have hp := ExtTreeMap.mem_toList_iff_getElem?_eq_some.mp hentry
  have hid : (stateOf p).nodeId = id := h.keyed id p hp
  have hstatus : (stateOf p).status = p.status.code := rfl
  rw [hid, hstatus, NodeStatus.ofCode_code]
  exact h.peers id p hp

theorem buildGossipMessage (h : Satisfies P g)
    (halive : ∀ id r, P id r .alive) :
    ∀ nodeState ∈ g.buildGossipMessage.nodes,
      P nodeState.nodeId nodeState.rank (.ofCode nodeState.status) := by
  intro nodeState hmem
  rcases List.mem_append.mp hmem with hpeers | hself
  · exact h.buildNodeStates nodeState hpeers
  · rw [List.mem_singleton.mp hself]
    exact halive _ _

end Satisfies

/-! ## Checks that found a node silent -/

section

variable (hash : String → UInt64) (start : GossipNet)

/-- A check at this reading, after these actions, finds the node at this rank and
status, silent for longer than the checking node allows. -/
def FoundSilent (pre : List NetAction) (checker : String) (now : Nat)
    (x : String) (r : ℕ ×ₗ ℕ) (status : NodeStatus)
    (limit : GossipConfig → Nat) : Prop :=
  ∃ v p, Run (GossipNet.next hash) anyAction start pre v ∧
    (v.services checker).peers[x]? = some p ∧ p.rank = r ∧
    p.status = status ∧ limit (v.services checker).config < now - p.lastSeen

/-- A check found the node alive at this rank and past the suspect timeout. -/
def Suspected (past : List NetAction) (x : String) (r : ℕ ×ₗ ℕ) : Prop :=
  ∃ pre checker now post, past = pre ++ .check checker now :: post ∧
    FoundSilent hash start pre checker now x r .alive (·.suspectTimeout)

/-- After that a check found it suspect at this rank and past the dead timeout. -/
def Buried (past : List NetAction) (x : String) (r : ℕ ×ₗ ℕ) : Prop :=
  ∃ pre checker now post, past = pre ++ .check checker now :: post ∧
    FoundSilent hash start pre checker now x r .suspect (·.deadTimeout) ∧
    Suspected hash start pre x r

def Blame (past : List NetAction) (x : String) (r : ℕ ×ₗ ℕ) :
    NodeStatus → Prop
  | .alive => True
  | .suspect => Suspected hash start past x r
  | .dead => Buried hash start past x r

end

variable {hash : String → UInt64} {start : GossipNet} {past : List NetAction}

theorem blame_concat {action : NetAction} (x : String) (r : ℕ ×ₗ ℕ)
    (status : NodeStatus) (h : Blame hash start past x r status) :
    Blame hash start (past ++ [action]) x r status := by
  cases status with
  | alive => trivial
  | suspect =>
      obtain ⟨pre, checker, now, post, rfl, hfound⟩ := h
      exact ⟨pre, checker, now, post ++ [action], by simp, hfound⟩
  | dead =>
      obtain ⟨pre, checker, now, post, rfl, hfound⟩ := h
      exact ⟨pre, checker, now, post ++ [action], by simp, hfound⟩

/-- All that is held and all that is in flight has its cause in the past. -/
structure Caused (hash : String → UInt64) (start : GossipNet)
    (past : List NetAction) (s : GossipNet) : Prop where
  run : Run (GossipNet.next hash) anyAction start past s
  tables : ∀ id, Satisfies (Blame hash start past) (s.services id)
  flight : ∀ nodeState ∈ s.inFlight,
    Blame hash start past nodeState.nodeId nodeState.rank
      (.ofCode nodeState.status)

namespace Caused

variable {s t : GossipNet}

theorem tables_setService {action : NetAction}
    (h : Caused hash start past s) {id : String} {g : GossipService}
    (hg : Satisfies (Blame hash start (past ++ [action])) g) (other : String) :
    Satisfies (Blame hash start (past ++ [action]))
      ((s.setService id g).services other) := by
  by_cases heq : other = id
  · subst heq
    rw [s.services_setService_self]
    exact hg
  · rw [s.services_setService_of_ne heq]
    exact (h.tables other).mono blame_concat

theorem later (h : Caused hash start past s) (action : NetAction) :
    (∀ id, Satisfies (Blame hash start (past ++ [action])) (s.services id)) ∧
      ∀ nodeState ∈ s.inFlight, Blame hash start (past ++ [action])
        nodeState.nodeId nodeState.rank (.ofCode nodeState.status) :=
  ⟨fun id => (h.tables id).mono blame_concat,
    fun nodeState hmem => blame_concat _ _ _ (h.flight nodeState hmem)⟩

/-- A check itself is the cause of what it changes. -/
theorem checkFailures (h : Caused hash start past s) (id : String) (now : Nat) :
    Satisfies (Blame hash start (past ++ [.check id now]))
      ((s.services id).checkFailures (s.services id).config.suspectTimeout
        (s.services id).config.deadTimeout now) := by
  refine ⟨GossipService.keyed_step hash (h.tables id).keyed (.check now), ?_⟩
  intro x p hp
  rw [GossipService.getElem?_checkFailures, Option.map_eq_some_iff] at hp
  obtain ⟨old, hold, rfl⟩ := hp
  have hcause := (h.tables id).peers x old hold
  change Blame hash start _ x old.rank (statusAfter _ _ now old)
  unfold statusAfter
  cases hstatus : old.status with
  | alive =>
      dsimp only
      split
      · rename_i hlate
        exact ⟨past, id, now, [], rfl, s, old, h.run, hold, rfl, hstatus, hlate⟩
      · trivial
  | suspect =>
      rw [hstatus] at hcause
      dsimp only
      split
      · rename_i hlate
        exact ⟨past, id, now, [], rfl,
          ⟨s, old, h.run, hold, rfl, hstatus, hlate⟩, hcause⟩
      · exact blame_concat x _ .suspect hcause
  | dead =>
      rw [hstatus] at hcause
      exact blame_concat x _ .dead hcause

theorem step (h : Caused hash start past s) {action : NetAction}
    (hnext : s.next hash action = some t) :
    Caused hash start (past ++ [action]) t := by
  have hrun := h.run.concat trivial hnext
  obtain ⟨htables, hflight⟩ := h.later action
  cases action with
  | addSeed id nodeId address now =>
      cases hnext
      exact ⟨hrun, h.tables_setService ((htables id).addSeed
        (fun _ _ => trivial) hash nodeId address now), hflight⟩
  | beat id =>
      cases hnext
      exact ⟨hrun, h.tables_setService
        ⟨(htables id).keyed, (htables id).peers⟩, hflight⟩
  | announce id =>
      cases hnext
      refine ⟨hrun, htables, fun nodeState hmem => ?_⟩
      simp only [GossipNet.inFlight, List.flatMap_append, List.flatMap_cons,
        List.flatMap_nil, List.append_nil, List.mem_append] at hmem
      rcases hmem with (hold | hsent) | hanswers
      · exact hflight nodeState (List.mem_append_left _ hold)
      · exact (htables id).buildGossipMessage (fun _ _ => trivial) nodeState hsent
      · exact hflight nodeState (List.mem_append_right _ hanswers)
  | deliver index receiver now =>
      simp only [GossipNet.next] at hnext
      split at hnext
      · contradiction
      · rename_i msg hmsg
        cases hnext
        have hentries : ∀ nodeState ∈ msg.nodes, Blame hash start _
            nodeState.nodeId nodeState.rank (.ofCode nodeState.status) :=
          fun nodeState hmem => hflight nodeState (List.mem_append_left _
            (List.mem_flatMap.mpr ⟨msg, List.mem_of_getElem? hmsg, hmem⟩))
        have htable := (htables receiver).handleGossip hash now hentries
        refine ⟨hrun, h.tables_setService htable, fun nodeState hmem => ?_⟩
        simp only [GossipNet.inFlight, List.flatten_append, List.flatten_cons,
          List.flatten_nil, List.append_nil, List.mem_append] at hmem
        rcases hmem with hmessages | hold | hnew
        · exact hflight nodeState (List.mem_append_left _ hmessages)
        · exact hflight nodeState (List.mem_append_right _ hold)
        · exact htable.buildNodeStates nodeState hnew
  | check id now =>
      cases hnext
      exact ⟨hrun, h.tables_setService (h.checkFailures id now), hflight⟩

end Caused

/-- In every state of a run, whatever a table or a message calls suspect or dead
has been found silent at that rank by checks of the run. -/
theorem suspicion_has_cause (hash : String → UInt64)
    (address : String → String) (ring : String → HashRing)
    (config : String → GossipConfig) {actions : List NetAction} {s : GossipNet}
    (hrun : Run (GossipNet.next hash) anyAction
      (.boot hash address ring config) actions s) :
    let blame := Blame hash (.boot hash address ring config) actions
    (∀ id x p, (s.services id).peers[x]? = some p → blame x p.rank p.status) ∧
      ∀ nodeState ∈ s.inFlight, blame nodeState.nodeId nodeState.rank
        (.ofCode nodeState.status) := by
  intro blame
  have hstart : Caused hash (.boot hash address ring config) []
      (.boot hash address ring config) :=
    ⟨.nil _, fun id => ⟨by simp [GossipNet.boot, GossipService.new, Keyed],
      by simp [GossipNet.boot, GossipService.new]⟩,
      by simp [GossipNet.inFlight, GossipNet.boot]⟩
  have hcaused := hrun.history
    (I := Caused hash (.boot hash address ring config))
    (fun _ _ _ _ h _ hnext => h.step hnext) hstart
  rw [List.nil_append] at hcaused
  exact ⟨fun id => (hcaused.tables id).peers, hcaused.flight⟩

def suspectRun : List NetAction :=
  [.beat "node1", .announce "node1", .deliver 0 "node2" 10,
    .check "node2" 6000, .announce "node2", .deliver 1 "node3" 6001]

theorem suspicion_has_cause_of_hearsay :
    ∃ s p, Run (GossipNet.next Ring.sha256Labels) anyAction freshNet
        suspectRun s ∧
      (s.services "node3").peers["node1"]? = some p ∧ p.status = .suspect ∧
      p.rank = rank 1 1 ∧
      Suspected Ring.sha256Labels freshNet suspectRun "node1" p.rank := by
  have hstate : (runActions (GossipNet.next Ring.sha256Labels) freshNet
      suspectRun).map (fun s => (s.services "node3").peers["node1"]?) =
      some (some ⟨"node1", "", .suspect, 1, 1, 6001⟩) := by decide +kernel
  obtain ⟨s, hs, hfound⟩ := Option.map_eq_some_iff.mp hstate
  have hrun := Run.of_runActions hs
  exact ⟨s, _, hrun, hfound, rfl, rfl, (suspicion_has_cause Ring.sha256Labels id
    (fun _ => HashRing.new 1 3) (fun _ => ⟨5000, 15000, 3⟩) hrun).1 "node3"
      "node1" _ hfound⟩

end Rkv.Gossip
