import Mathlib.Data.Fintype.Basic
import Mathlib.Data.List.FinRange
import P2pMpc.Handshake

/-!
# The invariant of the handshake

Of a network the handshake depends on the nodes, on the assignment messages that wait in their
command channels, and on those in flight; these make an `Exchange`. The invariant of a round,
`Exchange.InRound`, says that all of this belongs to the round, and counts: the Request that is on
its way to a node and the Acceptance that is on its way from it to the coordinator are together at
most one message, and none once the coordinator has counted the node. `InRound.step` says that
every step of an exchange keeps it.
-/

namespace P2pMpc

variable {X : Platform} {n : ℕ}

/-- What the handshake depends on. -/
structure Exchange (X : Platform) (n : ℕ) where
  nodes : Fin n → Node X
  queue : Fin n → List AssignmentMessage
  wire : List (Fin n × AssignmentMessage)

/-- A Request on its way to the host `k`. -/
def requestTo (k : Fin n) : Fin n × AssignmentMessage → Bool
  | (d, .request _ _ _) => d = k
  | (_, .acceptance _ _ _) => false

/-- An Acceptance of the peer `p` on its way to the host `c`. -/
def acceptanceTo (c : Fin n) (p : String) : Fin n × AssignmentMessage → Bool
  | (_, .request _ _ _) => false
  | (d, .acceptance q _ _) => d = c && q = p

/-- One copy of an assignment message for every host but `k`. -/
def copies (k : Fin n) (msg : AssignmentMessage) : List (Fin n × AssignmentMessage) :=
  ((List.finRange n).filter (· ≠ k)).map fun d => (d, msg)

theorem mem_copies {k d : Fin n} {msg msg' : AssignmentMessage} :
    (d, msg') ∈ copies k msg ↔ d ≠ k ∧ msg' = msg := by
  simp only [copies, List.mem_map, List.mem_filter, List.mem_finRange, true_and,
    decide_eq_true_eq, Prod.mk.injEq]
  constructor
  · rintro ⟨_, hne, rfl, rfl⟩
    exact ⟨hne, rfl⟩
  · rintro ⟨hne, rfl⟩
    exact ⟨d, hne, rfl, rfl⟩

theorem countP_copies (k d : Fin n) (msg : AssignmentMessage) (f : Fin n × AssignmentMessage → Bool)
    (hf : ∀ d', f (d', msg) = true → d' = d) :
    (copies k msg).countP f = if d ≠ k ∧ f (d, msg) = true then 1 else 0 := by
  have hcount : (copies k msg).countP f =
      ((List.finRange n).filter (· ≠ k)).countP fun d' => f (d', msg) := List.countP_map
  have hnodup := (List.nodup_finRange n).filter fun d' => decide (d' ≠ k)
  have hpred : (fun d' => f (d', msg)) = fun d' => d' == d && f (d, msg) := by
    funext d'
    by_cases hd : d' = d
    · simp [hd]
    · have hno : f (d', msg) = false := Bool.eq_false_iff.2 fun h => hd (hf d' h)
      simp [hno, hd]
  rw [hcount, hpred]
  cases hfd : f (d, msg) with
  | false => simp
  | true =>
    simp only [Bool.and_true, and_true]
    show List.count d ((List.finRange n).filter fun d' => decide (d' ≠ k)) = _
    by_cases hdk : d = k
    · rw [if_neg (not_not.2 hdk)]
      apply List.count_eq_zero.2
      simp [hdk]
    · rw [if_pos hdk]
      apply List.count_eq_one_of_mem hnodup
      simp [hdk]

theorem countP_copies_eq_zero (k : Fin n) {msg : AssignmentMessage}
    {f : Fin n × AssignmentMessage → Bool} (hf : ∀ d, f (d, msg) = false) :
    (copies k msg).countP f = 0 := by
  apply List.countP_eq_zero.2
  rintro ⟨d, msg'⟩ hm
  rw [(mem_copies.1 hm).2, hf]
  exact Bool.false_ne_true

/-- The Acceptances of the round tell the hosts they come from apart. -/
theorem Round.Valid.acceptanceTo_eq (hX : X.ParsesPeers) {r : Round X n} (hr : r.Valid)
    (j k : Fin n) (i : ℕ) (sid : String) :
    acceptanceTo r.coordinator (X.peerToString (r.ids j))
      (r.coordinator, .acceptance (X.peerToString (r.ids k)) i sid) = decide (j = k) := by
  by_cases hjk : j = k
  · subst hjk
    simp [acceptanceTo]
  · have hne : X.peerToString (r.ids k) ≠ X.peerToString (r.ids j) :=
      fun heq => hjk (hr.ids_injective (hX.injective heq)).symm
    simp [acceptanceTo, hne, hjk]

namespace Exchange

/-- The host has an orchestrator. -/
def Installed (e : Exchange X n) (k : Fin n) : Prop := (e.nodes k).mpcOrchestrator ≠ none

/-- The number of Requests on their way to the host `k`. -/
def requests (e : Exchange X n) (r : Round X n) (k : Fin n) : ℕ :=
  (e.queue r.coordinator).length + e.wire.countP (requestTo k)

/-- The number of Acceptances of the host `k` on their way to the coordinator. -/
def acceptances (e : Exchange X n) (r : Round X n) (k : Fin n) : ℕ :=
  e.wire.countP (acceptanceTo r.coordinator (X.peerToString (r.ids k)))

/-- Everything in the exchange belongs to the round. -/
structure OfRound (r : Round X n) (e : Exchange X n) : Prop where
  ids : ∀ k, (e.nodes k).id = r.ids k
  wellFormed : ∀ k, (e.nodes k).WellFormed
  queue : ∀ k, ∀ msg ∈ e.queue k, k = r.coordinator ∧
    msg = .request r.coordinatorId r.assignments r.sessionId
  wire : ∀ d msg, (d, msg) ∈ e.wire → r.MessageTo e.Installed d msg
  sessions : ∀ k, r.SessionsOf e.Installed k (e.nodes k)
  agreed : ∀ k inst, (e.nodes k).mpcOrchestrator = some inst → r.Agreed inst
  once : ∀ k, (e.nodes k).retired = []

/-- What is on its way between the coordinator and each other host, by what the two have done. -/
structure Counts (r : Round X n) (e : Exchange X n) : Prop where
  one : ∀ k, k ≠ r.coordinator → e.requests r k + e.acceptances r k ≤ 1
  installed : ∀ k, k ≠ r.coordinator → e.Installed k → e.requests r k = 0
  counted : ∀ k, k ≠ r.coordinator → r.Counted (e.nodes r.coordinator) (r.ids k) →
    e.requests r k + e.acceptances r k = 0
  complete : e.Installed r.coordinator → ∀ q ∈ r.peers, r.Counted (e.nodes r.coordinator) q

/-- The invariant of the round. -/
structure InRound (r : Round X n) (e : Exchange X n) : Prop where
  ofRound : e.OfRound r
  counts : e.Counts r

/-- The exchange with the node of one host replaced and the messages in flight changed. -/
def setNode (e : Exchange X n) (k : Fin n) (m : Node X) (wire : List (Fin n × AssignmentMessage)) :
    Exchange X n :=
  { e with nodes := Function.update e.nodes k m, wire := wire }

variable {r : Round X n} {e e' : Exchange X n}

@[simp] theorem nodes_setNode_self (e : Exchange X n) (k : Fin n) (m : Node X)
    (w : List (Fin n × AssignmentMessage)) : (e.setNode k m w).nodes k = m :=
  Function.update_self ..

theorem nodes_setNode_ne (e : Exchange X n) {i k : Fin n} (h : i ≠ k) (m : Node X)
    (w : List (Fin n × AssignmentMessage)) : (e.setNode k m w).nodes i = e.nodes i :=
  Function.update_of_ne h ..

theorem forall_setNode (P : Fin n → Node X → Prop) {k : Fin n} {m : Node X}
    {w : List (Fin n × AssignmentMessage)} (hm : P k m) (h : ∀ i, P i (e.nodes i)) (i : Fin n) :
    P i ((e.setNode k m w).nodes i) :=
  (Function.forall_update_iff e.nodes (p := P)).2 ⟨hm, fun i _ => h i⟩ i

theorem installed_setNode_self {k : Fin n} {m : Node X} {w : List (Fin n × AssignmentMessage)} :
    (e.setNode k m w).Installed k ↔ m.mpcOrchestrator ≠ none := by
  rw [Installed, nodes_setNode_self]

theorem installed_setNode_ne {i k : Fin n} (h : i ≠ k) {m : Node X}
    {w : List (Fin n × AssignmentMessage)} :
    (e.setNode k m w).Installed i ↔ e.Installed i := by
  rw [Installed, Installed, nodes_setNode_ne e h]

theorem installed_setNode_mono {k : Fin n} {m : Node X}
    (h : e.Installed k → m.mpcOrchestrator ≠ none) (w : List (Fin n × AssignmentMessage))
    (i : Fin n) (hi : e.Installed i) : (e.setNode k m w).Installed i := by
  by_cases hik : i = k
  · subst hik
    exact installed_setNode_self.2 (h hi)
  · exact (installed_setNode_ne hik).2 hi

/-- What a node may become for the exchange to stay in the round. -/
theorem OfRound.setNode (h : e.OfRound r) {k : Fin n} {m : Node X}
    {w : List (Fin n × AssignmentMessage)} (hid : m.id = (e.nodes k).id) (hwf : m.WellFormed)
    (hkeep : e.Installed k → m.mpcOrchestrator ≠ none) (hs : r.SessionsOf e.Installed k m)
    (hagreed : ∀ inst, m.mpcOrchestrator = some inst → r.Agreed inst) (honce : m.retired = [])
    (hw : ∀ d msg, (d, msg) ∈ w → r.MessageTo (e.setNode k m w).Installed d msg) :
    (e.setNode k m w).OfRound r where
  ids := forall_setNode (fun i m => m.id = r.ids i) (hid.trans (h.ids k)) h.ids
  wellFormed := forall_setNode (fun _ m => m.WellFormed) hwf h.wellFormed
  queue := h.queue
  wire := hw
  sessions := by
    have hmono := installed_setNode_mono hkeep w
    apply forall_setNode (r.SessionsOf (e.setNode k m w).Installed)
    · exact fun sid s hl => (hs sid s hl).mono hmono
    · exact fun i sid s hl => (h.sessions i sid s hl).mono hmono
  agreed := forall_setNode (fun _ m => ∀ inst, m.mpcOrchestrator = some inst → r.Agreed inst)
    hagreed h.agreed
  once := forall_setNode (fun _ m => m.retired = []) honce h.once

/-- Fewer messages on their way, and nothing new installed or counted. -/
theorem Counts.of_le (h : e.Counts r)
    (hrequests : ∀ k, k ≠ r.coordinator → e'.requests r k ≤ e.requests r k)
    (hacceptances : ∀ k, k ≠ r.coordinator → e'.acceptances r k ≤ e.acceptances r k)
    (hinstalled : ∀ k, e'.Installed k → e.Installed k)
    (hcounted : ∀ q, r.Counted (e'.nodes r.coordinator) q ↔
      r.Counted (e.nodes r.coordinator) q) : e'.Counts r where
  one := by
    intro k hk
    have h1 := h.one k hk
    have h2 := hrequests k hk
    have h3 := hacceptances k hk
    omega
  installed := by
    intro k hk hi
    have h1 := h.installed k hk (hinstalled k hi)
    have h2 := hrequests k hk
    omega
  counted := by
    intro k hk hc
    have h1 := h.counted k hk ((hcounted _).1 hc)
    have h2 := hrequests k hk
    have h3 := hacceptances k hk
    omega
  complete := by
    intro hi q hq
    exact (hcounted q).2 (h.complete (hinstalled _ hi) q hq)

/-- A host other than the coordinator answers the Request that was on its way to it by an
Acceptance, and may install an orchestrator. -/
theorem Counts.answer (h : e.Counts r) {k : Fin n} (hk : k ≠ r.coordinator)
    (hrequests : ∀ j, e'.requests r j + (if j = k then 1 else 0) = e.requests r j)
    (hacceptances : ∀ j, e'.acceptances r j = e.acceptances r j + if j = k then 1 else 0)
    (hinstalled : ∀ j, j ≠ k → e'.Installed j → e.Installed j)
    (hcoordinator : e'.nodes r.coordinator = e.nodes r.coordinator) : e'.Counts r where
  one := by
    intro j hj
    have h1 := h.one j hj
    have h2 := hrequests j
    have h3 := hacceptances j
    omega
  installed := by
    intro j hj hi
    have h2 := hrequests j
    by_cases hjk : j = k
    · -- the Request that has been delivered was the only message of `k` on its way
      have h1 := h.one j hj
      rw [if_pos hjk] at h2
      omega
    · have h1 := h.installed j hj (hinstalled j hjk hi)
      omega
  counted := by
    intro j hj hc
    rw [hcoordinator] at hc
    have h1 := h.counted j hj hc
    have h2 := hrequests j
    have h3 := hacceptances j
    omega
  complete := by
    intro hi q hq
    rw [hcoordinator]
    exact h.complete (hinstalled _ hk.symm hi) q hq

/-- The coordinator counts the Acceptance of a host that was on its way, and installs its
orchestrator only if it has counted everybody. -/
theorem Counts.count (h : e.Counts r) {j : Fin n}
    (hrequests : ∀ k, e'.requests r k = e.requests r k)
    (hacceptances : ∀ k, e'.acceptances r k + (if k = j then 1 else 0) = e.acceptances r k)
    (hinstalled : ∀ k, k ≠ r.coordinator → e'.Installed k → e.Installed k)
    (hcounted : ∀ k, r.Counted (e'.nodes r.coordinator) (r.ids k) →
      r.Counted (e.nodes r.coordinator) (r.ids k) ∨ k = j)
    (hcomplete : e'.Installed r.coordinator →
      ∀ q ∈ r.peers, r.Counted (e'.nodes r.coordinator) q) : e'.Counts r where
  one := by
    intro k hk
    have h1 := h.one k hk
    have h2 := hrequests k
    have h3 := hacceptances k
    omega
  installed := by
    intro k hk hi
    exact (hrequests k).trans (h.installed k hk (hinstalled k hk hi))
  counted := by
    intro k hk hc
    have h2 := hrequests k
    have h3 := hacceptances k
    rcases hcounted k hc with hc | hkj
    · have h1 := h.counted k hk hc
      omega
    · -- the Acceptance that has been delivered was the only message of `j` on its way
      have h1 := h.one k hk
      rw [if_pos hkj] at h3
      omega
  complete := hcomplete

/-- The steps of an exchange. Nodes work and messages are lost; a command is taken from its channel,
and published or lost; a message is delivered and handled; and the assignments of a session or of a
Request are met in another order. -/
inductive Step (e : Exchange X n) : Exchange X n → Prop
  | stay : Step e e
  | works (k : Fin n) (l : NodeLabel X) (m : Node X) (w : List (Fin n × AssignmentMessage))
      (hw : w.Subperm e.wire) (hl : (e.nodes k).step l = some m)
      (hworks : (e.nodes k).WorksTo l m) : Step e (e.setNode k m w)
  | process (k : Fin n) (msg : AssignmentMessage) (q : List AssignmentMessage) (published : Bool)
      (hq : e.queue k = msg :: q) : Step e
        { e with
          queue := Function.update e.queue k q
          wire := e.wire ++ if published then copies k msg else [] }
  | deliver (k : Fin n) (msg : AssignmentMessage) (w : List (Fin n × AssignmentMessage))
      (published : Bool) (now : UInt64) (hw : e.wire.Perm ((k, msg) :: w)) : Step e
        (e.setNode k ((e.nodes k).handleAssignmentMessage published now msg).1
          (w ++ ((e.nodes k).handleAssignmentMessage published now msg).2.toList.flatMap
            (copies k)))
  | rehashSession (k : Fin n) (sessionId : String) (s : SessionInfo)
      (assignments : HashMap String ℕ)
      (hs : (e.nodes k).sessions.lookup sessionId = some s)
      (hA : assignments.entries.Perm s.assignments.entries) : Step e
        (e.setNode k ((e.nodes k).record sessionId { s with assignments := assignments }) e.wire)
  | rehashMessage (k : Fin n) (coordinatorId sessionId : String) (old assignments : HashMap String ℕ)
      (w w' : List (Fin n × AssignmentMessage))
      (hw : e.wire.Perm ((k, .request coordinatorId old sessionId) :: w))
      (hA : assignments.entries.Perm old.entries)
      (hw' : w'.Perm ((k, .request coordinatorId assignments sessionId) :: w)) : Step e
        { e with wire := w' }

/-! ### Steps that hand over no message -/

/-- The two nodes have no orchestrator, or one of the same roster. -/
def SameRoster (m m' : Node X) : Prop :=
  m'.mpcOrchestrator = m.mpcOrchestrator ∨
    ∃ inst inst', m.mpcOrchestrator = some inst ∧ m'.mpcOrchestrator = some inst' ∧
      inst'.orch.roster = inst.orch.roster

theorem SameRoster.none_iff {m m' : Node X} (h : SameRoster m m') :
    m'.mpcOrchestrator ≠ none ↔ m.mpcOrchestrator ≠ none := by
  rcases h with he | ⟨inst, inst', hs, hs', -⟩
  · rw [he]
  · simp [hs, hs']

/-- A node that keeps its roster and what it has counted keeps the round, and so does the loss of
messages. -/
theorem InRound.settle (h : e.InRound r) {k : Fin n} {m : Node X}
    {w : List (Fin n × AssignmentMessage)} (hw : w.Subperm e.wire) (hid : m.id = (e.nodes k).id)
    (hwf : m.WellFormed) (hslot : SameRoster (e.nodes k) m)
    (hretired : m.retired = (e.nodes k).retired) (hs : r.SessionsOf e.Installed k m)
    (hcounted : k = r.coordinator → ∀ q, r.Counted m q ↔ r.Counted (e.nodes k) q) :
    (e.setNode k m w).InRound r := by
  have hmono := installed_setNode_mono hslot.none_iff.2 w
  constructor
  · refine h.ofRound.setNode hid hwf hslot.none_iff.2 hs ?_ ?_ ?_
    · intro inst' hinst'
      rcases hslot with he | ⟨inst, inst₁, hs, hs', hroster⟩
      · exact h.ofRound.agreed k inst' (he ▸ hinst')
      · obtain rfl := Option.some.inj (hs'.symm.trans hinst')
        exact (h.ofRound.agreed k inst hs).of_roster hroster
    · rw [hretired]
      exact h.ofRound.once k
    · exact fun d msg hm => (h.ofRound.wire d msg (hw.subset hm)).mono hmono
  · refine h.counts.of_le ?_ (fun _ _ => hw.countP_le _) ?_ ?_
    · intro i _
      exact Nat.add_le_add_left (hw.countP_le _) _
    · intro i hi
      by_cases hik : i = k
      · subst hik
        exact hslot.none_iff.1 (installed_setNode_self.1 hi)
      · exact (installed_setNode_ne hik).1 hi
    · intro q
      by_cases hk : k = r.coordinator
      · subst hk
        rw [nodes_setNode_self]
        exact hcounted rfl q
      · rw [nodes_setNode_ne e (Ne.symm hk)]

theorem SameRoster.of_works {m m' : Node X} {l : NodeLabel X} (h : m.Works l m'.mpcOrchestrator) :
    SameRoster m m' := by
  generalize hslot : m'.mpcOrchestrator = slot at h
  cases h with
  | keep => exact .inl hslot
  | coordinate inst p msg hinst hl => exact .inr ⟨inst, _, hinst, hslot, handle_roster _ _ _ _⟩
  | task inst l' c hinst hl hc => exact .inr ⟨inst, _, hinst, hslot, Config.step_roster hc⟩

/-- A node that works keeps the round, also if messages are lost meanwhile. -/
theorem InRound.works (hX : X.ParsesPeers) (h : e.InRound r) {k : Fin n} {m : Node X}
    {w : List (Fin n × AssignmentMessage)} (hw : w.Subperm e.wire) {l : NodeLabel X}
    (hl : (e.nodes k).step l = some m) (hworks : (e.nodes k).WorksTo l m) :
    (e.setNode k m w).InRound r := by
  obtain ⟨hsessions, -, hretired, hslot⟩ := hworks
  refine h.settle hw (Node.step_slot hl).1 ((h.ofRound.wellFormed k).step hX hl)
    (SameRoster.of_works hslot) hretired ?_ ?_
  · intro sid s hlookup
    rw [hsessions] at hlookup
    exact h.ofRound.sessions k sid s hlookup
  · intro _ q
    unfold Round.Counted
    rw [hsessions]

/-- A command is taken from the channel of a host, and published or lost. -/
theorem InRound.process (h : e.InRound r) {k : Fin n} {msg : AssignmentMessage}
    {q : List AssignmentMessage} (hq : e.queue k = msg :: q) (published : Bool) :
    InRound r { e with
      queue := Function.update e.queue k q
      wire := e.wire ++ if published then copies k msg else [] } := by
  obtain ⟨rfl, rfl⟩ := h.ofRound.queue k msg (by simp [hq])
  constructor
  · refine { h.ofRound with queue := ?_, wire := ?_ }
    · intro i msg hm
      dsimp only at hm
      by_cases hi : i = r.coordinator
      · subst hi
        rw [Function.update_self] at hm
        exact h.ofRound.queue _ msg (by rw [hq]; exact List.mem_cons_of_mem _ hm)
      · rw [Function.update_of_ne hi] at hm
        exact h.ofRound.queue i msg hm
    · intro d msg hm
      rcases List.mem_append.1 hm with hm | hm
      · exact h.ofRound.wire d msg hm
      · split_ifs at hm
        · obtain ⟨hne, rfl⟩ := mem_copies.1 hm
          exact ⟨rfl, List.Perm.refl _, rfl, hne⟩
        · cases hm
  · refine h.counts.of_le ?_ ?_ (fun _ hi => hi) fun _ => Iff.rfl
    · intro i hi
      have hcopies := countP_copies r.coordinator i
        (.request r.coordinatorId r.assignments r.sessionId) (requestTo i) (by simp [requestTo])
      simp only [requests, hq, Function.update_self, List.length_cons, List.countP_append]
      cases published
      · simp
      · rw [if_pos rfl, hcopies]
        split_ifs <;> omega
    · intro i hi
      have hnone : (copies r.coordinator
          (.request r.coordinatorId r.assignments r.sessionId)).countP
            (acceptanceTo r.coordinator (X.peerToString (r.ids i))) = 0 :=
        countP_copies_eq_zero _ fun _ => rfl
      simp only [acceptances, List.countP_append]
      split_ifs
      · omega
      · simp

/-! ### The delivery of a message of the round -/

section Delivery

variable {k : Fin n} {w : List (Fin n × AssignmentMessage)} {published : Bool} {now : UInt64}
  {m : Node X} {answer : Option AssignmentMessage}

theorem countP_deliver {p : Fin n × AssignmentMessage} (hw : e.wire.Perm (p :: w))
    (f : Fin n × AssignmentMessage → Bool) :
    e.wire.countP f = w.countP f + if f p = true then 1 else 0 := by
  rw [hw.countP_eq, List.countP_cons]

theorem mem_of_deliver {p q : Fin n × AssignmentMessage} (hw : e.wire.Perm (p :: w)) (hq : q ∈ w) :
    q ∈ e.wire :=
  hw.mem_iff.2 (List.mem_cons_of_mem _ hq)

/-- A node that a Request reaches while it is on its way has no orchestrator yet. -/
theorem InRound.not_installed (h : e.InRound r) (hk : k ≠ r.coordinator)
    (hrequest : 0 < e.wire.countP (requestTo k)) : (e.nodes k).mpcOrchestrator = none := by
  by_contra hi
  have hzero := h.counts.installed k hk hi
  unfold requests at hzero
  omega

/-- A member that installs an orchestrator turns the Request that was on its way into an Acceptance
that is. -/
theorem InRound.install_member (hX : X.ParsesPeers) (hr : r.Valid) (h : e.InRound r)
    (hmember : r.Member k) (hid : m.id = (e.nodes k).id) (hwf : m.WellFormed)
    (hs : r.SessionsOf e.Installed k m) (hinst : r.Installed (e.nodes k) m)
    {coordinatorId sid : String} {A : HashMap String ℕ}
    (hw : e.wire.Perm ((k, .request coordinatorId A sid) :: w)) (i : ℕ) :
    (e.setNode k m (w ++ copies k (.acceptance (X.peerToString (r.ids k)) i
      r.sessionId))).InRound r := by
  have hk : k ≠ r.coordinator := hmember.1
  obtain ⟨A', hA', hslot, hretired⟩ := hinst
  have hcount := countP_deliver hw
  have hnone : (e.nodes k).mpcOrchestrator = none := by
    apply h.not_installed hk
    rw [hcount]
    simp [requestTo]
  have hkeep : e.Installed k → m.mpcOrchestrator ≠ none := fun _ => by simp [hslot]
  constructor
  · refine h.ofRound.setNode hid hwf hkeep hs ?_ ?_ ?_
    · intro inst hinst
      rw [hslot] at hinst
      obtain rfl := Option.some.inj hinst
      exact Round.agreed_ofAssignments hr hA' _
    · rw [hretired, h.ofRound.once k, hnone]
      rfl
    · intro d msg hm
      rcases List.mem_append.1 hm with hm | hm
      · exact (h.ofRound.wire d msg (mem_of_deliver hw hm)).mono (installed_setNode_mono hkeep _)
      · obtain ⟨hd, rfl⟩ := mem_copies.1 hm
        refine ⟨rfl, k, hmember, installed_setNode_self.2 ?_, hd.symm, rfl⟩
        rw [hslot]
        exact Option.some_ne_none _
  · refine h.counts.answer hk ?_ ?_ ?_ (nodes_setNode_ne e hk.symm m _)
    · intro j
      show (e.queue r.coordinator).length + (w ++ _).countP _ + _ =
        (e.queue r.coordinator).length + _
      rw [List.countP_append, countP_copies_eq_zero k fun _ => rfl, hcount (requestTo j)]
      simp only [requestTo, decide_eq_true_eq, eq_comm (a := j)]
      omega
    · intro j
      show (w ++ _).countP _ = e.wire.countP _ + _
      rw [List.countP_append, hcount, countP_copies k r.coordinator _ _ (by simp [acceptanceTo]),
        hr.acceptanceTo_eq hX]
      simp [acceptanceTo, hk.symm]
    · exact fun j hj => (installed_setNode_ne hj).1

/-- An Acceptance of a peer that the coordinator counts is the only one of that peer; with the last
one it installs its orchestrator. -/
theorem InRound.count (hX : X.ParsesPeers) (hr : r.Valid) (h : e.InRound r)
    (hid : m.id = (e.nodes r.coordinator).id) (hwf : m.WellFormed)
    (hs : r.SessionsOf e.Installed r.coordinator m) {j : Fin n} (hj : r.Member j) {i : ℕ}
    {sid : String}
    (hw : e.wire.Perm ((r.coordinator, .acceptance (X.peerToString (r.ids j)) i sid) :: w))
    (hnew : ∀ q, r.Counted m q → r.Counted (e.nodes r.coordinator) q ∨
      X.peerToString q = X.peerToString (r.ids j))
    (hslot : Round.SameSlot (e.nodes r.coordinator) m ∨
      (r.Installed (e.nodes r.coordinator) m ∧ ∀ q ∈ r.peers, r.Counted m q)) :
    (e.setNode r.coordinator m w).InRound r := by
  have hcount := countP_deliver hw
  have hacc : ∀ k, w.countP (acceptanceTo r.coordinator (X.peerToString (r.ids k))) +
      (if k = j then 1 else 0) = e.acceptances r k := by
    intro k
    rw [acceptances, hcount, hr.acceptanceTo_eq hX]
    simp only [decide_eq_true_eq]
  -- the peer had not been counted, so the coordinator was not complete
  have hnot : ¬ e.Installed r.coordinator := by
    intro hi
    have hzero := h.counts.counted j hj.1 (h.counts.complete hi _ hj.2)
    have haccj := hacc j
    rw [if_pos rfl] at haccj
    omega
  have hnone : (e.nodes r.coordinator).mpcOrchestrator = none := not_not.1 hnot
  have hkeep : e.Installed r.coordinator → m.mpcOrchestrator ≠ none := fun hi => absurd hi hnot
  constructor
  · refine h.ofRound.setNode hid hwf hkeep hs ?_ ?_ ?_
    · intro inst hinst
      rcases hslot with hsame | ⟨⟨A, hA, hslot, -⟩, -⟩
      · rw [hsame.1, hnone] at hinst
        cases hinst
      · rw [hslot] at hinst
        obtain rfl := Option.some.inj hinst
        exact Round.agreed_ofAssignments hr hA _
    · rcases hslot with hsame | ⟨⟨_, -, -, hretired⟩, -⟩
      · rw [hsame.2]
        exact h.ofRound.once _
      · rw [hretired, h.ofRound.once, hnone]
        rfl
    · intro d msg hm
      exact (h.ofRound.wire d msg (mem_of_deliver hw hm)).mono (installed_setNode_mono hkeep w)
  · refine h.counts.count ?_ hacc (fun k hk => (installed_setNode_ne hk).1) ?_ ?_
    · intro k
      show (e.queue r.coordinator).length + w.countP _ = (e.queue r.coordinator).length + _
      rw [hcount]
      rfl
    · intro k hc
      rw [nodes_setNode_self] at hc
      refine (hnew _ hc).imp_right fun heq => ?_
      exact hr.ids_injective (hX.injective heq)
    · intro hi q hq
      have hi' := installed_setNode_self.1 hi
      rw [nodes_setNode_self]
      rcases hslot with hsame | ⟨-, hall⟩
      · exact absurd (hsame.1.trans hnone) hi'
      · exact hall q hq

/-- The handling of a message of the round keeps the round. -/
theorem InRound.deliver (hX : X.ParsesPeers) (hr : r.Valid) (h : e.InRound r)
    {msg : AssignmentMessage} (hw : e.wire.Perm ((k, msg) :: w))
    (he : (e.nodes k).handleAssignmentMessage published now msg = (m, answer)) :
    (e.setNode k m (w ++ answer.toList.flatMap (copies k))).InRound r := by
  have hmsg := h.ofRound.wire k msg (hw.mem_iff.2 List.mem_cons_self)
  have hid : m.id = (e.nodes k).id := by
    have hkeeps := (e.nodes k).handleAssignmentMessage_keeps published now msg
    rw [he] at hkeeps
    exact hkeeps.1
  have hwf : m.WellFormed := by
    have hwf := (h.ofRound.wellFormed k).handleAssignmentMessage hX published now msg
    rw [he] at hwf
    exact hwf
  have hsub : w.Subperm e.wire := (List.sublist_cons_self _ w).subperm.trans hw.symm.subperm
  cases msg with
  | request coordinatorId A sid =>
    obtain ⟨hs, ⟨rfl, hslot, hretired⟩ | ⟨hmember, hinst, i, rfl⟩⟩ :=
      Round.handle_request hX hr (h.ofRound.ids k) (h.ofRound.sessions k) hmsg published now he
    · rw [Option.toList_none, List.flatMap_nil, List.append_nil]
      refine h.settle hsub hid hwf (.inl hslot) hretired hs ?_
      intro hk
      exact absurd hk hmsg.2.2.2
    · rw [Option.toList_some, List.flatMap_singleton]
      exact h.install_member hX hr hmember hid hwf hs hinst hw i
  | acceptance p i sid =>
    obtain ⟨rfl, hs, hnew, hslot⟩ := Round.handle_acceptance hX hr (h.ofRound.ids k)
      (h.ofRound.wellFormed k) (h.ofRound.sessions k) hmsg published now he
    rw [Option.toList_none, List.flatMap_nil, List.append_nil]
    obtain ⟨rfl, j, hj, -, -, rfl⟩ := hmsg
    by_cases hk : k = r.coordinator
    · subst hk
      exact h.count hX hr hid hwf hs hj hw hnew (hslot.imp_right fun hi => hi.2)
    · rcases hslot with ⟨hslot, hretired⟩ | ⟨hk', -⟩
      · exact h.settle hsub hid hwf (.inl hslot) hretired hs fun hk' => absurd hk' hk
      · exact absurd hk' hk

end Delivery

/-! ### The order of the assignments -/

/-- The assignments of a session are met in another order. -/
theorem InRound.rehashSession (h : e.InRound r) {k : Fin n} {sid : String} {s : SessionInfo}
    (hs : (e.nodes k).sessions.lookup sid = some s) {A : HashMap String ℕ}
    (hA : A.entries.Perm s.assignments.entries) :
    (e.setNode k ((e.nodes k).record sid { s with assignments := A }) e.wire).InRound r := by
  have hof := h.ofRound.sessions k sid s hs
  obtain rfl := hof.session
  refine h.settle (List.Subperm.refl _) rfl ?_ (.inl rfl) rfl ?_ ?_
  · refine (h.ofRound.wellFormed k).record ?_ r.sessionId
    exact (AList.mem_of_perm hA).2 ((h.ofRound.wellFormed k).sessions _ s hs)
  · exact (h.ofRound.sessions k).record { hof with assignments := hA.trans hof.assignments }
  · intro _ q
    have hlookup : ((e.nodes k).record r.sessionId { s with assignments := A }).sessions.lookup
      r.sessionId = some { s with assignments := A } := AList.lookup_insert _
    simp only [Round.Counted, hlookup, hs, Option.some.injEq, exists_eq_left']

/-- The assignments of a Request are met in another order. -/
theorem InRound.rehashMessage (h : e.InRound r) {k : Fin n} {coordinatorId sid : String}
    {A A' : HashMap String ℕ} {w w' : List (Fin n × AssignmentMessage)}
    (hw : e.wire.Perm ((k, .request coordinatorId A sid) :: w))
    (hA : A'.entries.Perm A.entries)
    (hw' : w'.Perm ((k, .request coordinatorId A' sid) :: w)) :
    InRound r { e with wire := w' } := by
  have hcount : ∀ f, f (k, .request coordinatorId A' sid) = f (k, .request coordinatorId A sid) →
      w'.countP f = e.wire.countP f := by
    intro f hf
    rw [hw'.countP_eq, hw.countP_eq, List.countP_cons, List.countP_cons, hf]
  constructor
  · refine { h.ofRound with wire := fun d msg hm => ?_ }
    rcases List.mem_cons.1 (hw'.mem_iff.1 hm) with he | hm
    · cases he
      obtain ⟨h1, h2, h3, h4⟩ := h.ofRound.wire k _ (hw.mem_iff.2 List.mem_cons_self)
      exact ⟨h1, hA.trans h2, h3, h4⟩
    · exact h.ofRound.wire d msg (mem_of_deliver hw hm)
  · refine h.counts.of_le ?_ ?_ (fun _ hi => hi) fun _ => Iff.rfl
    · intro i _
      exact Nat.add_le_add_left (hcount (requestTo i) rfl).le _
    · intro i _
      exact (hcount (acceptanceTo r.coordinator (X.peerToString (r.ids i))) rfl).le

/-- Every step keeps the round. -/
theorem InRound.step (hX : X.ParsesPeers) (hr : r.Valid) (h : e.InRound r) (hs : e.Step e') :
    e'.InRound r := by
  cases hs with
  | stay => exact h
  | works k l m w hw hl hworks => exact h.works hX hw hl hworks
  | process k msg q published hq => exact h.process hq published
  | deliver k msg w published now hw => exact h.deliver hX hr hw rfl
  | rehashSession k sid s A hs hA => exact h.rehashSession hs hA
  | rehashMessage k c sid old A w w' hw hA hw' => exact h.rehashMessage hw hA hw'

end Exchange

end P2pMpc
