import Mathlib.Logic.Relation
import P2pMpc.Delivery
import P2pMpc.Traffic

/-!
# Rounds of a silent network

Between the messages of a coordinator a network can fall silent, and then its nodes are all there is
to its state. `Reaches` relates the nodes of a silent network to those it can have when it is silent
again: after the nodes have acted by themselves, `Reaches.each`, and after one of them has broadcast
a coordination message that all others have handled, `Reaches.broadcast`.
-/

namespace P2pMpc

open StateMachine

variable {X : Platform} {n : ℕ}

/-- An action by which the node sends nothing. -/
def Node.Acts (m m' : Node X) : Prop := ∃ a, m.act a = some (m', [])

namespace Net

/-- The nodes of the network. -/
def nodes (s : Net X n) (k : Fin n) : Node X := (s.hosts k).node

/-- Some run leads from one state to the other. -/
def Leads (s t : Net X n) : Prop := ∃ ls, (netMachine X n).run s ls = some t

/-- Whenever the network is silent with the nodes `N`, it can become silent with the nodes `N'`. -/
def Reaches (N N' : Fin n → Node X) : Prop :=
  ∀ s : Net X n, s.Silent → s.nodes = N → ∃ t, s.Leads t ∧ t.Silent ∧ t.nodes = N'

variable {s t u : Net X n} {N N' N'' : Fin n → Node X} {k c : Fin n}

theorem Leads.refl (s : Net X n) : s.Leads s := ⟨[], rfl⟩

theorem Leads.trans (h : s.Leads t) (h' : t.Leads u) : s.Leads u := by
  obtain ⟨ls, hls⟩ := h
  obtain ⟨ms, hms⟩ := h'
  exact ⟨ls ++ ms, Machine.run_append_eq_some.2 ⟨t, hls, hms⟩⟩

theorem Leads.of_step {l : NetLabel X n} (h : s.step l = some t) : s.Leads t :=
  ⟨[l], Machine.run_singleton.2 h⟩

theorem Reaches.refl (N : Fin n → Node X) : Reaches N N :=
  fun s hs hN => ⟨s, .refl s, hs, hN⟩

theorem Reaches.trans (h : Reaches N N') (h' : Reaches N' N'') : Reaches N N'' := by
  intro s hs hN
  obtain ⟨t, hst, ht, hN'⟩ := h s hs hN
  obtain ⟨u, htu, hu, hN''⟩ := h' t ht hN'
  exact ⟨u, hst.trans htu, hu, hN''⟩

theorem nodes_setHost (s : Net X n) (k : Fin n) (h : Host X) :
    (s.setHost k h).nodes = Function.update s.nodes k h.node := by
  funext i
  by_cases hi : i = k
  · subst hi
    simp [nodes]
  · simp [nodes, hi]

/-- A node acts by itself. -/
theorem Reaches.act {m : Node X} (h : (N k).Acts m) : Reaches N (Function.update N k m) := by
  rintro s hs rfl
  obtain ⟨a, ha⟩ := h
  refine ⟨_, .of_step (step_act_eq_some.2 ⟨_, ha, rfl⟩), ⟨fun i => ?_, hs.wire⟩, ?_⟩
  · rw [hosts_setHost]
    split_ifs with hi
    · simp [Host.acted, hs.queue k]
    · exact hs.queue i
  · exact nodes_setHost s k _

/-- A node acts by itself any number of times. -/
theorem Reaches.acts {m : Node X} (h : Relation.ReflTransGen Node.Acts (N k) m) :
    Reaches N (Function.update N k m) := by
  induction h with
  | refl =>
    rw [Function.update_eq_self]
    exact .refl N
  | tail _ hlast ih =>
    have hlast := Reaches.act (N := Function.update N k _) (k := k)
      (by rw [Function.update_self]; exact hlast)
    rw [Function.update_idem] at hlast
    exact ih.trans hlast

/-- All nodes act by themselves. -/
theorem Reaches.each (h : ∀ k, Relation.ReflTransGen Node.Acts (N k) (N' k)) : Reaches N N' := by
  have hlist : ∀ ks : List (Fin n), ks.Nodup →
      Reaches N fun k => if k ∈ ks then N' k else N k := by
    intro ks
    induction ks with
    | nil =>
      intro _
      simp only [List.not_mem_nil, if_false]
      exact .refl N
    | cons k ks ih =>
      intro hnodup
      obtain ⟨hk, hks⟩ := List.nodup_cons.1 hnodup
      have hnext : (fun i => if i ∈ k :: ks then N' i else N i) =
          Function.update (fun i => if i ∈ ks then N' i else N i) k (N' k) := by
        funext i
        by_cases hi : i = k
        · subst hi
          simp
        · simp [hi]
      rw [hnext]
      refine (ih hks).trans (.acts ?_)
      simp only [if_neg hk]
      exact h k
  simpa using hlist (List.finRange n) (List.nodup_finRange n)

/-- A coordination message that is on its way to different hosts reaches them all. -/
theorem exists_delivered {p : X.PeerId} {msg : CoordinationMessage X} (w : List (Packet X n))
    (hw : ∀ q ∈ w, q.source = p ∧ q.content = .coordination msg)
    (hdest : (w.map Packet.dest).Nodup) :
    ∀ s : Net X n, (∀ q ∈ w, s.id q.dest ≠ p) → (∀ k, (s.hosts k).queue = []) → s.wire = w →
      ∃ t, s.Leads t ∧ t.Silent ∧ t.nodes = fun k =>
        if k ∈ w.map Packet.dest then (s.nodes k).onCoordination (some p) msg else s.nodes k := by
  induction w with
  | nil =>
    intro s _ hqueue hwire
    refine ⟨s, .refl s, ⟨hqueue, hwire⟩, ?_⟩
    simp
  | cons q w ih =>
    intro s hne hqueue hwire
    obtain ⟨hsource, hcontent⟩ := hw q List.mem_cons_self
    obtain ⟨hq, hdest⟩ := List.nodup_cons.1 hdest
    have hp : s.wire[0]? = some q := by rw [hwire]; rfl
    have hother : some q.source ≠ some (s.hosts q.dest).node.id := by
      rw [hsource, ne_eq, Option.some.injEq]
      exact (hne q List.mem_cons_self).symm
    have heffect : (s.hosts q.dest).effect q.source true 0 q.content =
        ⟨(s.nodes q.dest).onCoordination (some p) msg, none, none⟩ := by
      rw [hcontent, ← hsource]
      exact if_neg hother
    -- the state after the first packet
    let u := s.deliver 0 q true 0
    have hu : s.step (.deliver 0 true 0) = some u := step_deliver_eq_some.2 ⟨q, hp, rfl⟩
    have hid : u.id = s.id := step_id hu
    have hnodes : u.nodes = Function.update s.nodes q.dest
        ((s.nodes q.dest).onCoordination (some p) msg) := by
      show (Net.publish _ _ ((s.hosts q.dest).effect q.source true 0 q.content).published).nodes = _
      rw [heffect, publish_none, nodes_setHost]
      show Function.update s.nodes q.dest
        ((s.hosts q.dest).effect q.source true 0 q.content).node = _
      rw [heffect]
    have huqueue : ∀ k, (u.hosts k).queue = [] := by
      intro k
      show ((Net.setHost _ _ _).hosts k).queue = []
      rw [hosts_setHost]
      split_ifs
      · exact hqueue q.dest
      · exact hqueue k
    have huwire : u.wire = w := by
      show (Net.publish _ _ ((s.hosts q.dest).effect q.source true 0 q.content).published).wire = _
      rw [heffect, publish_none]
      show s.wire.eraseIdx 0 = w
      rw [hwire]
      rfl
    obtain ⟨t, hut, ht, htn⟩ := ih (fun q' hq' => hw q' (List.mem_cons_of_mem _ hq')) hdest u
      (fun q' hq' => by rw [hid]; exact hne q' (List.mem_cons_of_mem _ hq')) huqueue huwire
    refine ⟨t, (Leads.of_step hu).trans hut, ht, htn.trans ?_⟩
    funext k
    rw [hnodes]
    by_cases hk : k = q.dest
    · subst hk
      simp [hq]
    · simp [hk]

/-- A host handles a coordination message itself and broadcasts it to all others. -/
theorem Reaches.broadcast (hids : Function.Injective fun k => (N k).id) {a : Action X}
    {msg : CoordinationMessage X} (h : (N c).act a =
      some ((N c).onCoordination (some (N c).id) msg, [.broadcast (.coordination msg)])) :
    Reaches N fun k => (N k).onCoordination (some (N c).id) msg := by
  rintro s hs rfl
  -- the action, and the publication of its message
  let s₁ := s.setHost c ((s.hosts c).acted ((s.nodes c).onCoordination (some (s.nodes c).id) msg,
    [.broadcast (.coordination msg)]))
  have h₁ : s.step (.act c a) = some s₁ := step_act_eq_some.2 ⟨_, h, rfl⟩
  have hqueue : (s₁.hosts c).queue = [.broadcast (.coordination msg)] := by
    simp [s₁, Host.acted, hs.queue c]
  let s₂ := (s₁.setHost c { s₁.hosts c with queue := [] }).publish c (some (.coordination msg))
  have h₂ : s₁.step (.process c true) = some s₂ :=
    step_process_eq_some.2 ⟨_, [], hqueue, rfl⟩
  have hid : s₂.id = s.id := (step_id h₂).trans (step_id h₁)
  have hnodes : s₂.nodes = Function.update s.nodes c
      ((s.nodes c).onCoordination (some (s.nodes c).id) msg) := by
    have hset : s₂.nodes = Function.update s₁.nodes c (s₁.nodes c) := nodes_setHost s₁ c _
    rw [hset, Function.update_eq_self]
    exact nodes_setHost s c _
  have hempty : ∀ k, (s₂.hosts k).queue = [] := by
    intro k
    show ((s₁.setHost c { s₁.hosts c with queue := [] }).hosts k).queue = []
    rw [hosts_setHost]
    split_ifs with hk
    · rfl
    · simp [s₁, hk, hs.queue k]
  let w := Net.packets (s₁.setHost c { s₁.hosts c with queue := [] }) c (.coordination msg)
  have hwire : s₂.wire = w := by
    show s.wire ++ [Gossip.coordination msg].flatMap _ = w
    rw [hs.wire, List.flatMap_singleton, List.nil_append]
  have hpackets : ∀ q ∈ w, q.source = (s.nodes c).id ∧ q.content = .coordination msg := by
    intro q hq
    obtain ⟨hsource, -, hcontent⟩ := mem_packets.1 hq
    exact ⟨hsource.trans (congrFun hid c), hcontent⟩
  have hdest : w.map Packet.dest = (List.finRange n).filter (· ≠ c) := by
    show (List.map _ _).map Packet.dest = _
    rw [List.map_map]
    exact List.map_id _
  have hmem : ∀ k, k ∈ w.map Packet.dest ↔ k ≠ c := by
    intro k
    rw [hdest]
    simp
  have hother : ∀ q ∈ w, s₂.id q.dest ≠ (s.nodes c).id := by
    intro q hq heq
    rw [hid] at heq
    exact (hmem q.dest).1 (List.mem_map_of_mem hq) (hids heq)
  obtain ⟨t, hst, ht, htn⟩ := exists_delivered w hpackets
    (by rw [hdest]; exact (List.nodup_finRange n).filter _) s₂ hother hempty hwire
  refine ⟨t, (Leads.of_step h₁).trans ((Leads.of_step h₂).trans hst), ht, htn.trans ?_⟩
  funext k
  by_cases hk : k = c
  · subst hk
    simp [hmem, hnodes]
  · simp [hmem, hnodes, hk]

end Net

end P2pMpc
