import Mathlib.Algebra.BigOperators.Group.Finset.Basic
import P2pMpc.Lib.Progress
import P2pMpc.Network

/-!
# The traffic ends

Every message in a network goes back to something a node did by itself: a publication becomes one
packet for each other node, and of the messages that are received only a Request is answered, once
and with an Acceptance, which is not. So an action brings about at most one command, `n - 1` packets
and as many answers to each of them, `1 + (n - 1) * n` steps in all, whatever is lost on the way.
-/

namespace P2pMpc

open StateMachine

variable {X : Platform} {n : ℕ}

/-- The step takes a command from a channel or delivers a packet. -/
def NetLabel.moves : NetLabel X n → Bool
  | .act _ _ => false
  | .process _ _ => true
  | .deliver _ _ _ => true

/-- Gossipsub takes what is published in the step. -/
def NetLabel.lossless : NetLabel X n → Bool
  | .act _ _ => true
  | .process _ published => published
  | .deliver _ published _ => published

/-- The deliveries that a packet with the content leads to: its own, and for a Request those of the
answer. -/
def Gossip.load (n : ℕ) : Gossip X → ℕ
  | .assignment (.request _ _ _) => 1 + (n - 1)
  | _ => 1

/-- The steps that a command leads to at most. -/
def commandLoad (n : ℕ) : ℕ := 1 + (n - 1) * n

namespace Net

/-- No command waits in a channel, and no packet is on its way. -/
structure Silent (s : Net X n) : Prop where
  queue : ∀ k, (s.hosts k).queue = []
  wire : s.wire = []

/-- The load of the packets on their way. -/
def wireLoad (w : List (Packet X n)) : ℕ := (w.map fun p => p.content.load n).sum

/-- The steps that the commands and the packets lead to at most. -/
def load (s : Net X n) : ℕ :=
  ∑ k, (s.hosts k).queue.length * commandLoad n + wireLoad s.wire

variable {s t : Net X n} {k : Fin n}

theorem wireLoad_append (w w' : List (Packet X n)) :
    wireLoad (w ++ w') = wireLoad w + wireLoad w' := by
  simp [wireLoad]

theorem load_pos (g : Gossip X) : 0 < g.load n := by
  unfold Gossip.load
  split <;> omega

theorem load_le (k : Fin n) (g : Gossip X) : g.load n ≤ n := by
  have hpos := k.pos
  unfold Gossip.load
  split <;> omega

/-- The number of the other hosts. -/
theorem length_others (k : Fin n) : ((List.finRange n).filter (· ≠ k)).length = n - 1 := by
  have herase : (List.finRange n).filter (· ≠ k) = (List.finRange n).erase k := by
    rw [(List.nodup_finRange n).erase_eq_filter]
    exact List.filter_congr fun d _ => by by_cases hd : d = k <;> simp [hd]
  rw [herase, List.length_erase_of_mem (List.mem_finRange k), List.length_finRange]

theorem wireLoad_packets (s : Net X n) (k : Fin n) (g : Gossip X) :
    wireLoad (s.packets k g) = (n - 1) * g.load n := by
  rw [wireLoad, packets, List.map_map]
  show (((List.finRange n).filter (· ≠ k)).map fun _ => g.load n).sum = _
  rw [List.map_const', List.sum_replicate_nat, length_others]

/-- What a publication adds. -/
theorem load_publish (s : Net X n) (k : Fin n) (g : Option (Gossip X)) :
    (s.publish k g).load = s.load + match g with
      | none => 0
      | some g => (n - 1) * g.load n := by
  cases g with
  | none => simp
  | some g =>
    have hwire : wireLoad (s.publish k (some g)).wire = wireLoad s.wire + (n - 1) * g.load n := by
      rw [publish, Option.toList_some, List.flatMap_singleton, wireLoad_append, wireLoad_packets]
    simp only [load, hosts_publish, hwire]
    omega

/-- What the commands of the changed host change. -/
theorem load_setHost (s : Net X n) (k : Fin n) (h : Host X) :
    (s.setHost k h).load + (s.hosts k).queue.length * commandLoad n =
      s.load + h.queue.length * commandLoad n := by
  have hsum := Finset.add_sum_erase Finset.univ
    (fun i => ((s.setHost k h).hosts i).queue.length * commandLoad n) (Finset.mem_univ k)
  have hsum' := Finset.add_sum_erase Finset.univ
    (fun i => (s.hosts i).queue.length * commandLoad n) (Finset.mem_univ k)
  have hrest : ∑ i ∈ Finset.univ.erase k,
      ((s.setHost k h).hosts i).queue.length * commandLoad n =
        ∑ i ∈ Finset.univ.erase k, (s.hosts i).queue.length * commandLoad n := by
    refine Finset.sum_congr rfl fun i hi => ?_
    rw [hosts_setHost, if_neg (Finset.ne_of_mem_erase hi)]
  rw [hrest, hosts_setHost, if_pos rfl] at hsum
  have hwire : (s.setHost k h).wire = s.wire := rfl
  unfold load
  rw [← hsum, ← hsum', hwire]
  omega

theorem load_erase {i : ℕ} {p : Packet X n} (hp : s.wire[i]? = some p) :
    load { s with wire := s.wire.eraseIdx i } + p.content.load n = s.load := by
  obtain ⟨hi, rfl⟩ := List.getElem?_eq_some_iff.1 hp
  have hperm := (List.getElem_cons_eraseIdx_perm hi).map fun p : Packet X n => p.content.load n
  have hsum := hperm.sum_eq
  rw [List.map_cons, List.sum_cons] at hsum
  simp only [load, wireLoad]
  omega

end Net

/-- An action sends one command at most. -/
theorem Node.length_act_le {m : Node X} {a : Action X} {r : Node X × List (NetworkCommand X)}
    (h : m.act a = some r) : r.2.length ≤ 1 := by
  rcases act_sends h with ⟨φ, out, -, -, rfl⟩ | ⟨g, -, rfl⟩ | ⟨now, -, he⟩ | ⟨p, msg, -, he⟩ |
      ⟨-, he⟩
  · exact le_refl 1
  · exact le_refl 1
  · rw [he]
    exact le_refl 1
  · rw [he]
    exact le_refl 1
  · rw [he]
    exact Nat.zero_le 1

/-- Only a Request is answered, with an Acceptance. -/
theorem Node.onMessage_answers {m : Node X} {source : Option X.PeerId} {published : Bool}
    {now : UInt64} {g g' : Gossip X}
    (h : (m.onMessage source published now g).published = some g') :
    (∃ c A sid, g = .assignment (.request c A sid)) ∧
      ∃ p i sid, g' = .assignment (.acceptance p i sid) := by
  unfold onMessage at h
  split at h
  · cases h
  · cases g with
    | assignment msg =>
      obtain ⟨answer, hanswer, rfl⟩ := Option.map_eq_some_iff.1 h
      cases msg with
      | request c A sid =>
        refine ⟨⟨c, A, sid, rfl⟩, ?_⟩
        rcases m.handleRequest_cases published now c A sid with
          ⟨-, he⟩ | ⟨i, -, ⟨-, he⟩ | ⟨-, -, he⟩⟩ <;> rw [he] at hanswer <;> cases hanswer
        exact ⟨_, i, sid, rfl⟩
      | acceptance p i sid =>
        rcases m.handleAcceptance_cases published now p i sid with
          ⟨-, he⟩ | ⟨s, -, ⟨-, he⟩ | ⟨-, he⟩⟩ <;> rw [he] at hanswer <;> cases hanswer
    | _ => cases h

namespace Net

variable {s t : Net X n}

/-- A command that is taken and a packet that is delivered lower the load; an action adds a command
at most. -/
theorem step_load {l : NetLabel X n} (h : s.step l = some t) :
    t.load + (if l.moves then 1 else 0) ≤ s.load + if l.moves then 0 else commandLoad n := by
  cases l with
  | act k a =>
    obtain ⟨r, hr, rfl⟩ := step_act_eq_some.1 h
    have hset := load_setHost s k ((s.hosts k).acted r)
    have hqueue : ((s.hosts k).acted r).queue.length = (s.hosts k).queue.length + r.2.length :=
      List.length_append
    rw [hqueue, Nat.add_mul] at hset
    have hone := Nat.mul_le_mul_right (commandLoad n) (Node.length_act_le hr)
    simp only [NetLabel.moves, Bool.false_eq_true, if_false]
    omega
  | process k published =>
    obtain ⟨c, cs, hq, rfl⟩ := step_process_eq_some.1 h
    have hset := load_setHost s k { s.hosts k with queue := cs }
    simp only [hq, List.length_cons, Nat.add_mul, Nat.one_mul] at hset
    rw [load_publish]
    simp only [NetLabel.moves, if_true]
    split
    · simp only [commandLoad] at hset
      omega
    · next g _ =>
      have hle := Nat.mul_le_mul_left (n - 1) (load_le k g)
      simp only [commandLoad] at hset
      omega
  | deliver i published now =>
    obtain ⟨p, hp, rfl⟩ := step_deliver_eq_some.1 h
    have herase := load_erase hp
    have hset := load_setHost { s with wire := s.wire.eraseIdx i } p.dest
      ((s.hosts p.dest).receive p.source published now p.content)
    have hqueue : ((s.hosts p.dest).receive p.source published now p.content).queue =
      (s.hosts p.dest).queue := rfl
    have hset := Nat.add_right_cancel (hqueue ▸ hset)
    have hpos := load_pos (n := n) p.content
    rw [deliver, load_publish, hset]
    simp only [NetLabel.moves, if_true]
    split
    · omega
    · next g hg =>
      obtain ⟨⟨c, A, sid, hc⟩, q, j, sid', rfl⟩ := Node.onMessage_answers hg
      have hrequest : p.content.load n = 1 + (n - 1) := by rw [hc]; rfl
      simp only [Gossip.load]
      omega

/-- In a network that is not silent a command can be taken or a packet delivered. -/
theorem exists_moves (h : ¬ s.Silent) :
    ∃ l t, (l.moves && l.lossless) = true ∧ s.step l = some t := by
  by_cases hwire : s.wire = []
  · have hqueue : ∃ k, (s.hosts k).queue ≠ [] := by
      by_contra hno
      push Not at hno
      exact h ⟨hno, hwire⟩
    obtain ⟨k, hk⟩ := hqueue
    obtain ⟨c, cs, hq⟩ := List.exists_cons_of_ne_nil hk
    exact ⟨.process k true, _, rfl, step_process_eq_some.2 ⟨c, cs, hq, rfl⟩⟩
  · obtain ⟨p, w, hw⟩ := List.exists_cons_of_ne_nil hwire
    exact ⟨.deliver 0 true 0, _, rfl, step_deliver_eq_some.2 ⟨p, by rw [hw]; rfl, rfl⟩⟩

/-- The moves of a run are paid for by its actions. -/
theorem traffic (X : Platform) (n : ℕ) : Amortised (netMachine X n) (fun _ => True) load
    NetLabel.moves fun _ => commandLoad n where
  keeps := fun _ _ _ _ _ => trivial
  pays := fun _ _ _ _ h => step_load h

/-- So are its lossless moves alone. -/
theorem losslessTraffic (X : Platform) (n : ℕ) : Amortised (netMachine X n) (fun _ => True) load
    (fun l => l.moves && l.lossless) fun _ => commandLoad n where
  keeps := fun _ _ _ _ _ => trivial
  pays := by
    intro s l t _ h
    have hload := step_load h
    cases hm : l.moves with
    | false => simpa [hm] using hload
    | true =>
      simp only [hm, if_true, Bool.true_and] at hload ⊢
      split_ifs <;> omega

/-- Lossless moves alone lead to a silent network. -/
theorem exists_silent (s : Net X n) : ∃ ms t, (∀ l ∈ ms, l.moves = true ∧ l.lossless = true) ∧
    (netMachine X n).run s ms = some t ∧ t.Silent := by
  obtain ⟨ms, t, hms, hr, ht⟩ :=
    (losslessTraffic X n).exists_run_to_rest (fun _ _ h => exists_moves h) (s := s) trivial
  exact ⟨ms, t, fun l hl => Bool.and_eq_true_iff.1 (hms l hl), hr, ht⟩

theorem load_of_init (h : (netMachine X n).init s) : s.load = 0 := by
  obtain ⟨ids, -, rfl⟩ := h
  simp [load, wireLoad, Host.new]

end Net

/-- In every run, at most `1 + (n - 1) * n` commands are taken and packets delivered for each action
of a node; and from every state that is reached, taking and delivering alone silence the network. -/
theorem traffic_ends {s₀ s : Net X n} {ls : List (NetLabel X n)} (h : (netMachine X n).init s₀)
    (hr : (netMachine X n).run s₀ ls = some s) :
    ls.countP NetLabel.moves ≤ ls.countP (fun l => !l.moves) * (1 + (n - 1) * n) ∧
      ∃ ms t, (∀ l ∈ ms, l.moves = true ∧ l.lossless = true) ∧
        (netMachine X n).run s ms = some t ∧ t.Silent := by
  refine ⟨?_, s.exists_silent⟩
  have hle := (Net.traffic X n).run_count_internal_le trivial hr
  rw [Net.load_of_init h, List.map_const', List.sum_replicate_nat,
    ← List.countP_eq_length_filter] at hle
  exact (Nat.le_add_left _ _).trans (hle.trans (Nat.zero_add _).le)

/-- After `b` and `c` have accepted, the network of three falls silent again. -/
theorem three_nodes_fall_silent : ∃ s, (netMachine .plain 3).run ThreeNodes.start
    ThreeNodes.assign = some s ∧ ThreeNodes.assign.countP NetLabel.moves ≤ 3 * 7 ∧
      ∃ ms t, (∀ l ∈ ms, l.moves = true ∧ l.lossless = true) ∧
        (netMachine .plain 3).run s ms = some t ∧ t.Silent := by
  obtain ⟨s, hs⟩ : ∃ s, (netMachine .plain 3).run ThreeNodes.start ThreeNodes.assign = some s :=
    ⟨_, rfl⟩
  exact ⟨s, hs, traffic_ends ⟨ThreeNodes.ids, ThreeNodes.ids_injective, rfl⟩ hs⟩

end P2pMpc
