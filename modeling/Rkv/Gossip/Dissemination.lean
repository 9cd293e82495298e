import Rkv.Foundation.Simulation
import Rkv.Gossip.Freshness
import Rkv.Gossip.Merging

/-!
# News of a node spreads with the messages

`Spread` follows who has heard of a node since some state, looking at nothing but
who announced and which message was delivered to whom.  Everyone it lists has the
node's news in its table, however the messages were reordered, repeated or
overtaken and whatever the failure checks did in between; registering a seed is
the only step that can take the news away.
-/

namespace Rkv.Gossip

open Std (ExtTreeMap)
open Rkv.Foundation
open Rkv.Ring (HashRing)

/-- Who has the news, and which messages carry it. -/
structure Spread where
  nodes : List String
  messages : List Bool

namespace Spread

/-- At first only the node itself has its news, and no message in flight need
carry it. -/
def start (x : String) (s : GossipNet) : Spread :=
  ⟨[x], List.replicate s.messages.length false⟩

def step (x : String) (a : Spread) : NetAction → Spread
  | .announce id =>
      { a with messages := a.messages ++ [decide (id ∈ a.nodes)] }
  | .deliver index receiver _ =>
      if a.messages[index]? = some true then
        { a with nodes := receiver :: a.nodes }
      else a
  | .addSeed id nodeId _ _ =>
      -- the entry of a seed replaces what was known of it
      if nodeId = x then
        { a with nodes := a.nodes.filter fun y => decide (y = x ∨ y ≠ id) }
      else a
  | .beat _ => a
  | .check _ _ => a

end Spread

/-- The listed nodes and messages are at least this far. -/
structure Reached (x : String) (r : ℕ ×ₗ ℕ) (s : GossipNet) (a : Spread) :
    Prop where
  bounded : Bounded s
  own : r ≤ s.current x
  nodes : ∀ y ∈ a.nodes, y ≠ x → (s.services y).Knows x r
  length : a.messages.length = s.messages.length
  messages : ∀ (index : Nat) (msg : Proto.GossipMessage),
    a.messages[index]? = some true → s.messages[index]? = some msg →
    ∃ nodeState ∈ msg.nodes, nodeState.nodeId = x ∧ r ≤ nodeState.rank

namespace Reached

variable {hash : String → UInt64} {x : String} {r : ℕ ×ₗ ℕ}
  {s t : GossipNet} {a : Spread}

theorem start {s : GossipNet} (h : Bounded s) (x : String) :
    Reached x (s.current x) s (Spread.start x s) where
  bounded := h
  own := le_rfl
  nodes := fun y hy hne => absurd (List.mem_singleton.mp hy) hne
  length := List.length_replicate
  messages := by
    intro index msg hcarries
    simp [Spread.start, List.getElem?_replicate] at hcarries

/-- A node that has the news says so in its message. -/
theorem announces (h : Reached x r s a) {id : String} (hid : id ∈ a.nodes) :
    ∃ nodeState ∈ (s.services id).buildGossipMessage.nodes,
      nodeState.nodeId = x ∧ r ≤ nodeState.rank := by
  by_cases heq : id = x
  · refine ⟨(s.services id).selfState, by simp [GossipService.buildGossipMessage],
      (h.bounded.nodeIds id).trans heq, ?_⟩
    rw [heq]
    exact h.own
  · obtain ⟨p, hp, hle⟩ := h.nodes id hid heq
    refine ⟨stateOf p, List.mem_append_left _ (List.mem_map.mpr ⟨(x, p), ?_, rfl⟩),
      (h.bounded.tables id).keyed x p hp, hle⟩
    exact ExtTreeMap.mem_toList_iff_getElem?_eq_some.mpr hp

/-- A node that handles the news has it. -/
theorem knows_of_handled {g : GossipService} (hx : g.nodeId ≠ x)
    {msg : Proto.GossipMessage} {now : Nat}
    (hmsg : ∃ nodeState ∈ msg.nodes, nodeState.nodeId = x ∧
      r ≤ nodeState.rank) :
    (g.handleGossip hash msg now).1.Knows x r := by
  obtain ⟨nodeState, hmem, rfl, hle⟩ := hmsg
  rcases GossipService.handled_handleGossip hash g msg now nodeState hmem with
    hown | ⟨p, hp, hrank⟩
  · exact absurd (hown.trans (GossipService.handleGossip_frame hash g msg now).1).symm
      hx
  · exact ⟨p, hp, hle.trans hrank⟩

theorem knows_setService (h : Reached x r s a) {id : String}
    {g : GossipService} {y : String} (hy : y ∈ a.nodes) (hne : y ≠ x)
    (hg : (s.services id).Knows x r → g.Knows x r) :
    ((s.setService id g).services y).Knows x r := by
  by_cases heq : y = id
  · subst heq
    rw [s.services_setService_self]
    exact hg (h.nodes y hy hne)
  · rw [s.services_setService_of_ne heq]
    exact h.nodes y hy hne

theorem step (h : Reached x r s a) {action : NetAction}
    (hguard : s.NoWrap action) (hnext : s.next hash action = some t) :
    Reached x r t (a.step x action) := by
  have hbounded := h.bounded.step hguard hnext
  cases action with
  | addSeed id nodeId address now =>
      cases hnext
      have hown : r ≤ (s.setService id _).current x :=
        h.own.trans (Bounded.current_le_setService
          (g := (s.services id).addSeed hash nodeId address now) le_rfl x)
      by_cases hseed : nodeId = x
      · simp only [Spread.step, if_pos hseed]
        refine ⟨hbounded, hown, fun y hy hne => ?_, h.length, h.messages⟩
        obtain ⟨hmem, hkept⟩ := List.mem_filter.mp hy
        have hother : y ≠ id := (of_decide_eq_true hkept).resolve_left hne
        rw [s.services_setService_of_ne hother]
        exact h.nodes y hmem hne
      · simp only [Spread.step, if_neg hseed]
        refine ⟨hbounded, hown, fun y hy hne => ?_, h.length, h.messages⟩
        refine h.knows_setService hy hne fun ⟨p, hp, hle⟩ => ⟨p, ?_, hle⟩
        simpa [GossipService.addSeed, ExtTreeMap.getElem?_insert, hseed] using hp
  | beat id =>
      cases hnext
      refine ⟨hbounded, ?_, fun y hy hne => ?_, h.length, h.messages⟩
      · exact h.own.trans (Bounded.current_le_setService
          (rank_lt_beat hguard).le x)
      · exact h.knows_setService hy hne fun hknows => hknows
  | announce id =>
      cases hnext
      refine ⟨hbounded, h.own, h.nodes, by simp [Spread.step, h.length], ?_⟩
      intro index msg hcarries hmsg
      simp only [Spread.step] at hcarries
      by_cases hlast : index < s.messages.length
      · rw [List.getElem?_append_left (h.length.symm ▸ hlast)] at hcarries
        rw [List.getElem?_append_left hlast] at hmsg
        exact h.messages index msg hcarries hmsg
      · -- the new message, carried if the node has the news
        rw [List.getElem?_append_right (h.length.symm ▸ not_lt.mp hlast),
          List.getElem?_singleton] at hcarries
        rw [List.getElem?_append_right (not_lt.mp hlast),
          List.getElem?_singleton] at hmsg
        split at hmsg
        · cases hmsg
          split at hcarries
          · exact h.announces (of_decide_eq_true (Option.some.inj hcarries))
          · contradiction
        · contradiction
  | deliver index receiver now =>
      simp only [GossipNet.next] at hnext
      split at hnext
      · contradiction
      · rename_i msg hmsg
        cases hnext
        obtain ⟨hid, -, hgeneration, hheartbeat⟩ :=
          GossipService.handleGossip_frame hash (s.services receiver) msg now
        have hown : r ≤ (s.setService receiver
            ((s.services receiver).handleGossip hash msg now).1).current x := by
          refine h.own.trans (Bounded.current_le_setService ?_ x)
          rw [hgeneration, hheartbeat]
          exact le_rfl
        have hkeeps : (s.services receiver).Knows x r →
            ((s.services receiver).handleGossip hash msg now).1.Knows x r :=
          fun hknows => GossipService.handleGossip_induction
            (I := fun g => g.Knows x r)
            (fun _ nodeState _ hg => hg.handleEntry hash now nodeState) hknows
        simp only [Spread.step]
        split
        · rename_i hcarries
          refine ⟨hbounded, hown, fun y hy hne => ?_, h.length, h.messages⟩
          rcases List.mem_cons.mp hy with rfl | hold
          · rw [s.services_setService_self]
            exact knows_of_handled (by rw [h.bounded.nodeIds]; exact hne)
              (h.messages index msg hcarries hmsg)
          · exact h.knows_setService hold hne hkeeps
        · exact ⟨hbounded, hown, fun y hy hne => h.knows_setService hy hne hkeeps,
            h.length, h.messages⟩
  | check id now =>
      cases hnext
      refine ⟨hbounded, ?_, fun y hy hne => ?_, h.length, h.messages⟩
      · exact h.own.trans (Bounded.current_le_setService
          (g := (s.services id).checkFailures _ _ now) le_rfl x)
      · exact h.knows_setService hy hne fun hknows => hknows.checkFailures _ _ now

end Reached

/-- From every state of a run on, the nodes that news of a node has spread to
know it at no less than it had reached in that state, and at no more than it has
reached at the end. -/
theorem gossip_spreads (hash : String → UInt64) (address : String → String)
    (ring : String → HashRing) (config : String → GossipConfig)
    {before actions : List NetAction} {s t : GossipNet}
    (hbefore : Run (GossipNet.next hash) GossipNet.NoWrap
      (.boot hash address ring config) before s)
    (hrun : Run (GossipNet.next hash) GossipNet.NoWrap s actions t) (x : String)
    {y : String}
    (hy : y ∈ (actions.foldl (Spread.step x) (Spread.start x s)).nodes)
    (hne : y ≠ x) :
    ∃ p, (t.services y).peers[x]? = some p ∧ s.current x ≤ p.rank ∧
      p.rank ≤ t.current x := by
  have hbounded : Bounded s :=
    hbefore.invariant (fun _ _ _ h => h.step) (.boot hash address ring config)
  have hreached : Reached x (s.current x) t
      (actions.foldl (Spread.step x) (Spread.start x s)) :=
    hrun.simulates (fun _ _ _ _ h hguard hnext => h.step hguard hnext)
      (.start hbounded x)
  obtain ⟨p, hp, hle⟩ := hreached.nodes y hy hne
  exact ⟨p, hp, hle, (hreached.bounded.tables y).rank_le x p hp⟩

/-- `node1` gossips to `node2`, and `node2` to `node3`. -/
def hearsayRun : List NetAction :=
  [.announce "node1", .deliver 0 "node2" 10, .announce "node2",
    .deliver 1 "node3" 20]

theorem gossip_spreads_by_hearsay :
    ∃ t p, Run (GossipNet.next Ring.sha256Labels) GossipNet.NoWrap
        (freshNet.setService "node1" (freshNet.services "node1").beat)
        hearsayRun t ∧
      (t.services "node3").peers["node1"]? = some p ∧ rank 1 1 ≤ p.rank := by
  have hbefore : Run (GossipNet.next Ring.sha256Labels) GossipNet.NoWrap freshNet
      [.beat "node1"]
      (freshNet.setService "node1" (freshNet.services "node1").beat) :=
    .cons (show (0 : UInt64).toNat + 1 < 2 ^ 64 by decide) rfl (.nil _)
  have hsome : (runActions (GossipNet.next Ring.sha256Labels)
      (freshNet.setService "node1" (freshNet.services "node1").beat)
      hearsayRun).isSome = true := by decide +kernel
  obtain ⟨t, ht⟩ := Option.isSome_iff_exists.mp hsome
  have hrun : Run (GossipNet.next Ring.sha256Labels) GossipNet.NoWrap
      (freshNet.setService "node1" (freshNet.services "node1").beat)
      hearsayRun t := by
    refine ((Run.of_runActions ht).restrict
      (Q := fun action => ∀ id, action ≠ .beat id)
      (by simp [hearsayRun])).mono fun s action h => ?_
    cases action with
    | beat id => exact absurd rfl (h.2 id)
    | _ => trivial
  obtain ⟨p, hp, hle, -⟩ := gossip_spreads Ring.sha256Labels id
    (fun _ => HashRing.new 1 3) (fun _ => ⟨5000, 15000, 3⟩) hbefore hrun "node1"
    (y := "node3") (by decide) (by decide)
  exact ⟨t, p, hrun, hp, hle⟩

end Rkv.Gossip
