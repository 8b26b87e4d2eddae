import P2pMpc.Delivery
import P2pMpc.MockCoordinator

/-!
# The router refines the coordinator of the tests

The tests run the parties over a coordinator that puts each message into the channels of its
recipients; the program broadcasts every message and lets the receivers filter. While the channel
of a phase is open on all nodes, the two come to the same: in every run that sends the messages of
the phase and delivers everything, in any order, each party receives as a multiset what the
coordinator would have put into its channel. `router_refines_mock` also says that such a run
exists for every sequence of messages.
-/

namespace P2pMpc

open StateMachine Lists

variable {X : Platform} {n : ℕ} {φ : Phase}

/-- The node follows the assignment `A` and has the channel of the phase open. -/
def Node.Ready (A : HashMap X.PeerId PartyIndex) (φ : Phase) (m : Node X) : Prop :=
  m.Follows A ∧ m.isOpen φ = true

/-- The run sends the messages in this order, and otherwise publishes and delivers. -/
inductive Transmits (φ : Phase) : List (Fin n × Outgoing (X.Msg φ)) → List (NetLabel X n) → Prop
  | nil : Transmits φ [] []
  | emit {sends ls} (k : Fin n) (out : Outgoing (X.Msg φ)) (h : Transmits φ sends ls) :
      Transmits φ ((k, out) :: sends) (.act k (.emit φ out) :: ls)
  | process {sends ls} (k : Fin n) (h : Transmits φ sends ls) :
      Transmits φ sends (.process k true :: ls)
  | deliver {sends ls} (i : ℕ) (published : Bool) (now : UInt64) (h : Transmits φ sends ls) :
      Transmits φ sends (.deliver i published now :: ls)

/-- The message serializes, and is for all parties or for another one of the `n`. -/
def Addressable (idx : Fin n → PartyIndex) (e : Fin n × Outgoing (X.Msg φ)) : Prop :=
  (X.serialize φ e.2.msg).isSome ∧
    match e.2.recipient with
    | .allParties => True
    | .oneParty j => j ≠ idx e.1 ∧ ∃ k, idx k = j

theorem Addressable.registered {idx : Fin n → PartyIndex} {e : Fin n × Outgoing (X.Msg φ)}
    (h : Addressable idx e) : NetworkCoordinator.Registered idx e.2.recipient := by
  obtain ⟨-, h⟩ := h
  cases hr : e.2.recipient with
  | allParties => trivial
  | oneParty j =>
    rw [hr] at h
    exact h.2

namespace Net

/-- Nothing waits to be published or delivered. -/
structure Drained (s : Net X n) : Prop where
  queue : ∀ k, (s.hosts k).queue = []
  wire : s.wire = []

/-- The network is drained, and the logs start here. -/
structure Fresh (s : Net X n) : Prop extends s.Drained where
  emitted : ∀ k, (s.hosts k).emitted = []
  received : ∀ k, (s.hosts k).received = []

/-- What the party of the host `k` has received. -/
def inbox (s : Net X n) (k : Fin n) : Multiset (Arrival X) :=
  (s.hosts k).received.filterMap fun r => r.forwarded.map Forwarded.arrival

/-- In a run that transmits messages of the phase, nothing else is under way. -/
structure Carries (A : HashMap X.PeerId PartyIndex) (φ : Phase) (s : Net X n) : Prop where
  ready : ∀ k, (s.hosts k).node.Ready A φ
  queue : ∀ k, ∀ c ∈ (s.hosts k).queue, ∃ out, c = .send φ out
  wire : ∀ p ∈ s.wire, (∃ m, p.content = .protocol φ m) ∧ ∃ i, i ≠ p.dest ∧ p.source = s.id i
  received : ∀ k, ∀ r ∈ (s.hosts k).received, ∃ i, i ≠ k ∧ r.source = s.id i

variable {A : HashMap X.PeerId PartyIndex} {s t : Net X n}

theorem Carries.of_setHost (h : s.Carries A φ) (k : Fin n) (host : Host X)
    (hnode : host.node = (s.hosts k).node) (hqueue : ∀ c ∈ host.queue, ∃ out, c = .send φ out)
    (hreceived : ∀ r ∈ host.received, ∃ i, i ≠ k ∧ r.source = s.id i)
    {w : List (Packet X n)} (hw : w ⊆ s.wire) :
    Carries A φ (({ s with wire := w } : Net X n).setHost k host) := by
  have hid : (({ s with wire := w } : Net X n).setHost k host).id = s.id :=
    id_setHost (s := { s with wire := w }) (congrArg Node.id hnode)
  refine ⟨?_, ?_, ?_, ?_⟩
  · intro i
    rw [hosts_setHost]
    split_ifs with hi
    · rw [hnode, ← hi]
      exact h.ready i
    · exact h.ready i
  · intro i
    rw [hosts_setHost]
    split_ifs
    · exact hqueue
    · exact h.queue i
  · rw [hid]
    exact fun p hp => h.wire p (hw hp)
  · rw [hid]
    intro i
    rw [hosts_setHost]
    split_ifs with hi
    · rw [hi]
      exact hreceived
    · exact h.received i

theorem carries_emit (h : s.Carries A φ) {k : Fin n} {out : Outgoing (X.Msg φ)}
    (hs : s.step (.act k (.emit φ out)) = some t) :
    t.Carries A φ ∧ ∀ i, (t.hosts i).emitted =
      (s.hosts i).emitted ++ if i = k then [⟨φ, out⟩] else [] := by
  obtain ⟨r, hr, rfl⟩ := step_act_eq_some.1 hs
  simp only [Node.act, Option.ite_none_right_eq_some, Option.some.injEq] at hr
  obtain ⟨-, rfl⟩ := hr
  constructor
  · refine h.of_setHost k ((s.hosts k).acted ((s.hosts k).node, [.send φ out])) rfl ?_
      (h.received k) (List.Subset.refl _)
    intro c hc
    rcases List.mem_append.1 hc with hc | hc
    · exact h.queue k c hc
    · exact ⟨out, List.mem_singleton.1 hc⟩
  · intro i
    rw [hosts_setHost]
    split_ifs with hi
    · subst hi
      rfl
    · exact (List.append_nil _).symm

theorem carries_process (h : s.Carries A φ) {k : Fin n} (hs : s.step (.process k true) = some t) :
    t.Carries A φ ∧ ∀ i, (t.hosts i).emitted = (s.hosts i).emitted := by
  obtain ⟨c, cs, hq, rfl⟩ := step_process_eq_some.1 hs
  have hqueue := h.queue k
  rw [hq] at hqueue
  obtain ⟨out, rfl⟩ := hqueue c List.mem_cons_self
  have hset : Carries A φ (s.setHost k { s.hosts k with queue := cs }) :=
    h.of_setHost k { s.hosts k with queue := cs } rfl
      (fun c hc => hqueue c (List.mem_cons_of_mem _ hc)) (h.received k) (List.Subset.refl _)
  constructor
  · refine ⟨hset.ready, hset.queue, fun p hp => ?_, hset.received⟩
    rcases mem_publish.1 hp with hp | ⟨hsource, hdest, hg⟩
    · exact hset.wire p hp
    · obtain ⟨m, -, hm⟩ := Option.map_eq_some_iff.1 hg
      exact ⟨⟨m, hm.symm⟩, k, hdest.symm, hsource⟩
  · intro i
    rw [hosts_publish, hosts_setHost]
    split_ifs with hi
    · rw [hi]
    · rfl

/-- A delivered protocol message changes no node and makes nothing be published. -/
theorem carries_deliver (h : s.Carries A φ) {i : ℕ} {published : Bool} {now : UInt64}
    (hs : s.step (.deliver i published now) = some t) :
    t.Carries A φ ∧ (∀ k, (t.hosts k).emitted = (s.hosts k).emitted) ∧
      (∀ k, (t.hosts k).queue = (s.hosts k).queue) ∧ t.wire = s.wire.eraseIdx i := by
  obtain ⟨p, hp, rfl⟩ := step_deliver_eq_some.1 hs
  obtain ⟨⟨m, hm⟩, j, hj, hsource⟩ := h.wire p (List.mem_of_getElem? hp)
  have heffect : ((s.hosts p.dest).effect p.source published now p.content).node =
      (s.hosts p.dest).node ∧
        ((s.hosts p.dest).effect p.source published now p.content).published = none := by
    rw [hm]
    unfold Host.effect Node.onMessage
    split_ifs <;> exact ⟨rfl, rfl⟩
  have hdeliver : s.deliver i p published now =
      ({ s with wire := s.wire.eraseIdx i } : Net X n).setHost p.dest
        ((s.hosts p.dest).receive p.source published now p.content) := by
    simp only [deliver, heffect.2, publish_none]
  rw [hdeliver]
  refine ⟨?_, ?_, ?_, rfl⟩
  · refine h.of_setHost p.dest ((s.hosts p.dest).receive p.source published now p.content)
      heffect.1 (h.queue p.dest) ?_ (List.eraseIdx_sublist _ _).subset
    intro r hr
    rcases List.mem_append.1 hr with hr | hr
    · exact h.received p.dest r hr
    · rw [List.mem_singleton.1 hr]
      exact ⟨j, hj, hsource⟩
  · intro k
    rw [hosts_setHost]
    split_ifs with hk
    · rw [hk]
      rfl
    · rfl
  · intro k
    rw [hosts_setHost]
    split_ifs with hk
    · rw [hk]
      rfl
    · rfl

/-! ### Runs -/

/-- What an honest step delivers is of the phase, which is open everywhere. -/
theorem Carries.deliversOpen (h : s.Carries A φ) (l : NetLabel X n) : s.DeliversOpen A l := by
  cases l with
  | act | process => trivial
  | deliver i published now =>
    intro p hp a ha
    obtain ⟨⟨m, hm⟩, -⟩ := h.wire p (List.mem_of_getElem? hp)
    rw [hm] at ha
    simp only [Gossip.arrival, Option.mem_def, Option.ite_none_right_eq_some,
      Option.bind_eq_some_iff, Option.map_eq_some_iff] at ha
    obtain ⟨-, _, -, _, -, rfl⟩ := ha
    exact (h.ready p.dest).2

/-- A run that transmits messages keeps to the phase, is honest, meets only open channels, and logs
what it transmits. -/
theorem transmits_run {idx : Fin n → PartyIndex} {sends : List (Fin n × Outgoing (X.Msg φ))}
    {ls : List (NetLabel X n)} (hls : Transmits φ sends ls) (hsends : ∀ e ∈ sends,
      Addressable idx e) (h : s.Carries A φ) (hr : (netMachine X n).run s ls = some t) :
    t.Carries A φ ∧ (netMachine X n).Meets (HonestStep A) s ls ∧
      (netMachine X n).Meets (DeliversOpen A) s ls ∧
      ∀ i, (t.hosts i).emitted = (s.hosts i).emitted ++
        (sends.filter (·.1 = i)).map fun e => ⟨φ, e.2⟩ := by
  have hfollows : ∀ {s : Net X n}, s.Carries A φ → ∀ k, (s.hosts k).node.Follows A :=
    fun h k => (h.ready k).1
  -- on the way the run is transmitted; the log grows at the emissions
  induction hls generalizing s with
  | nil =>
    cases hr
    exact ⟨h, trivial, trivial, fun i => (List.append_nil _).symm⟩
  | @emit sends ls k out hls ih =>
    obtain ⟨u, hu, hr⟩ := Machine.run_cons_eq_some.1 hr
    obtain ⟨hcarries, hemitted⟩ := carries_emit h hu
    obtain ⟨ht, hmeets, hopen, hrest⟩ :=
      ih (fun e he => hsends e (List.mem_cons_of_mem _ he)) hcarries hr
    have hserial := (hsends (k, out) List.mem_cons_self).1
    refine ⟨ht, hmeets.cons ⟨hserial, hfollows h⟩ hu, hopen.cons (h.deliversOpen _) hu, fun i => ?_⟩
    rw [hrest i, hemitted i, List.append_assoc]
    congr 1
    by_cases hi : i = k
    · subst hi
      simp
    · have hne : k ≠ i := Ne.symm hi
      simp [hi, hne]
  | @process sends ls k hls ih =>
    obtain ⟨u, hu, hr⟩ := Machine.run_cons_eq_some.1 hr
    obtain ⟨hcarries, hemitted⟩ := carries_process h hu
    obtain ⟨ht, hmeets, hopen, hrest⟩ := ih hsends hcarries hr
    refine ⟨ht, hmeets.cons ⟨rfl, hfollows h⟩ hu, hopen.cons (h.deliversOpen _) hu, fun i => ?_⟩
    rw [hrest i, hemitted i]
  | @deliver sends ls i published now hls ih =>
    obtain ⟨u, hu, hr⟩ := Machine.run_cons_eq_some.1 hr
    obtain ⟨hcarries, hemitted, -⟩ := carries_deliver h hu
    obtain ⟨ht, hmeets, hopen, hrest⟩ := ih hsends hcarries hr
    refine ⟨ht, hmeets.cons ⟨rfl, hfollows h⟩ hu, hopen.cons (h.deliversOpen _) hu, fun i => ?_⟩
    rw [hrest i, hemitted i]

theorem Fresh.carries (hs : s.Fresh) (hready : ∀ k, (s.hosts k).node.Ready A φ) :
    s.Carries A φ := by
  refine ⟨hready, ?_, ?_, ?_⟩
  · intro i c hc
    simp [hs.queue i] at hc
  · intro p hp
    simp [hs.wire] at hp
  · intro i r hr
    simp [hs.received i] at hr

/-- From the start of the logs on, every host has sent what the run transmits and has received what
was addressed to it. -/
theorem transmits_enqueued (hX : X.Lawful) {idx : Fin n → PartyIndex}
    (hinj : Function.Injective s.id) (hs : s.Fresh) (hready : ∀ k, (s.hosts k).node.Ready A φ)
    {sends : List (Fin n × Outgoing (X.Msg φ))} (hsends : ∀ e ∈ sends, Addressable idx e)
    {ls : List (NetLabel X n)} (hls : Transmits φ sends ls)
    (hr : (netMachine X n).run s ls = some t) (ht : t.Drained) (k : Fin n) :
    t.inbox k = ∑ i ∈ Finset.univ.erase k, t.addressed A i k := by
  have hcarries := hs.carries hready
  obtain ⟨hend, hmeets, hopen, -⟩ := transmits_run hls hsends hcarries hr
  have hquiet : s.Quiet := ⟨.of_empty hs.queue hs.wire, hinj, hs.emitted, hs.received⟩
  have hall := (all_enqueued_iff hX hquiet hmeets hr (.of_empty ht.queue ht.wire)).2 hopen
  have hid : t.id = s.id := Machine.run_preserves (M := netMachine X n) (I := fun u => u.id = s.id)
    (fun _ _ _ hu hl => (step_id hl).trans hu) rfl hr
  calc t.inbox k = ∑ i ∈ Finset.univ.erase k, t.enqueued i k := by
        refine filterMap_eq_sum _ (fun i (r : Receipt X) => r.source = t.id i) _ _ ?_
        intro r hr _
        obtain ⟨i, hi, hsource⟩ := hend.received k r hr
        refine ⟨i, Finset.mem_erase.2 ⟨hi, Finset.mem_univ i⟩, hsource, fun j _ hj => ?_⟩
        rw [hid] at hsource hj
        exact hinj (hj.symm.trans hsource)
    _ = ∑ i ∈ Finset.univ.erase k, t.addressed A i k := by
        refine Finset.sum_congr rfl fun i hi => hall i k ?_
        exact (Finset.mem_erase.1 hi).1

/-! ### Such runs exist -/

theorem transmits_append {sends : List (Fin n × Outgoing (X.Msg φ))} {ls ls' : List (NetLabel X n)}
    (h : Transmits φ [] ls) (h' : Transmits φ sends ls') : Transmits φ sends (ls ++ ls') := by
  generalize hnil : ([] : List (Fin n × Outgoing (X.Msg φ))) = none at h
  induction h with
  | nil => exact h'
  | emit => cases hnil
  | process k h ih => exact .process k (ih hnil)
  | deliver i published now h ih => exact .deliver i published now (ih hnil)

/-- Everything in flight can be delivered. -/
theorem Carries.drain (h : s.Carries A φ) (hqueue : ∀ k, (s.hosts k).queue = []) :
    ∃ ls t, Transmits φ [] ls ∧ (netMachine X n).run s ls = some t ∧ t.Carries A φ ∧
      t.Drained := by
  induction hw : s.wire.length generalizing s with
  | zero => exact ⟨[], s, .nil, rfl, h, hqueue, List.length_eq_zero_iff.1 hw⟩
  | succ m ih =>
    have hp := List.getElem?_eq_getElem (l := s.wire) (show 0 < s.wire.length by omega)
    have hu : s.step (.deliver 0 true 0) = some (s.deliver 0 s.wire[0] true 0) := by
      show Option.map _ _ = _
      rw [hp]
      rfl
    obtain ⟨hcarries, -, hqueues, hwire⟩ := carries_deliver h hu
    obtain ⟨ls, t, hls, hr, ht⟩ := ih hcarries (fun k => (hqueues k).trans (hqueue k)) (by
      rw [hwire, List.length_eraseIdx_of_lt (by omega)]
      omega)
    exact ⟨_, t, .deliver 0 true 0 hls, Machine.run_cons_eq_some.2 ⟨_, hu, hr⟩, ht⟩

/-- Any sequence of messages can be sent and delivered. -/
theorem Carries.transmit (h : s.Carries A φ) (hs : s.Drained)
    (sends : List (Fin n × Outgoing (X.Msg φ))) :
    ∃ ls t, Transmits φ sends ls ∧ (netMachine X n).run s ls = some t ∧ t.Drained := by
  induction sends generalizing s with
  | nil => exact ⟨[], s, .nil, rfl, hs⟩
  | cons e sends ih =>
    obtain ⟨k, out⟩ := e
    -- a party whose channel is open is running its protocol, and so may send
    have hemit : (s.hosts k).node.canEmit φ = true := Node.canEmit_of_isOpen (h.ready k).2
    have hu : s.step (.act k (.emit φ out)) =
        some (s.setHost k ((s.hosts k).acted ((s.hosts k).node, [.send φ out]))) := by
      simp [step, Node.act, hemit]
    have hcarries := (carries_emit h hu).1
    set u := s.setHost k ((s.hosts k).acted ((s.hosts k).node, [.send φ out]))
    have hqueue : ∀ i, (u.hosts i).queue = if i = k then [.send φ out] else [] := by
      intro i
      show ((s.setHost k _).hosts i).queue = _
      rw [hosts_setHost]
      split_ifs with hi
      · show (s.hosts k).queue ++ _ = _
        rw [hs.queue k]
        rfl
      · exact hs.queue i
    have hqueuek : (u.hosts k).queue = [.send φ out] := by rw [hqueue, if_pos rfl]
    -- the message is published before the next one is sent
    obtain ⟨v, hv, hhosts⟩ : ∃ v, u.step (.process k true) = some v ∧
        v.hosts = (u.setHost k { u.hosts k with queue := [] }).hosts :=
      ⟨_, step_process_eq_some.2 ⟨_, _, hqueuek, rfl⟩, rfl⟩
    have hv' := (carries_process hcarries hv).1
    have hempty : ∀ i, (v.hosts i).queue = [] := by
      intro i
      rw [hhosts, hosts_setHost]
      split_ifs with hi
      · rfl
      · rw [hqueue, if_neg hi]
    obtain ⟨ls, w, hls, hr, hw, hdrained⟩ := hv'.drain hempty
    obtain ⟨ls', t, hls', hr', ht⟩ := ih hw hdrained
    refine ⟨_, t, .emit k out (.process k (transmits_append hls hls')), ?_, ht⟩
    exact Machine.run_cons_eq_some.2 ⟨u, hu, Machine.run_cons_eq_some.2
      ⟨v, hv, Machine.run_append_eq_some.2 ⟨w, hr, hr'⟩⟩⟩

end Net

/-! ### The refinement -/

/-- A message is addressed to exactly the parties the coordinator of the tests delivers it to, with
the same sender and type. -/
theorem Addressable.arrival {A : HashMap X.PeerId PartyIndex} {idx : Fin n → PartyIndex}
    (hidx : Function.Injective idx) {ids : Fin n → X.PeerId}
    (hA : ∀ k, A.lookup (ids k) = some (idx k)) {e : Fin n × Outgoing (X.Msg φ)}
    (he : Addressable idx e) (k : Fin n) :
    (if e.1 ≠ k then Emission.arrival A (ids e.1) (ids k) ⟨φ, e.2⟩ else none) =
      (NetworkCoordinator.delivery (idx e.1) (idx k) e.2).map
        fun inc => (⟨φ, inc⟩ : Arrival X) := by
  obtain ⟨i, recipient, msg⟩ := e
  cases recipient with
  | allParties =>
    have hne : idx k ≠ idx i ↔ i ≠ k := hidx.ne_iff.trans ne_comm
    simp only [NetworkCoordinator.delivery, NetworkCoordinator.Reaches, Emission.arrival,
      MessageDestination.includes, hA, hne]
    by_cases hik : i = k <;> simp [hik, MessageDestination.msgType]
  | oneParty j =>
    have hj : j ≠ idx i := he.2.1
    simp only [NetworkCoordinator.delivery, NetworkCoordinator.Reaches, Emission.arrival,
      MessageDestination.includes, hA]
    by_cases hik : i = k
    · subst hik
      simp [Ne.symm hj]
    · by_cases hkj : idx k = j <;> simp [hik, hkj, MessageDestination.msgType]

/-- Let the hosts follow one assignment that gives them different indices, with the channel of the
phase open on each. Then every sequence of messages to all or to another party can be sent and
delivered; and however it is, each party receives what the coordinator of the tests puts into its
channel, as a multiset. -/
theorem router_refines_mock (hX : X.Lawful) {A : HashMap X.PeerId PartyIndex}
    {idx : Fin n → PartyIndex} (hidx : Function.Injective idx) {s : Net X n} (hs : s.Fresh)
    (hA : ∀ k, A.lookup (s.id k) = some (idx k)) (hready : ∀ k, (s.hosts k).node.Ready A φ)
    {sends : List (Fin n × Outgoing (X.Msg φ))} (hsends : ∀ e ∈ sends, Addressable idx e) :
    (∃ ls t, Transmits φ sends ls ∧ (netMachine X n).run s ls = some t ∧ t.Drained) ∧
    ∃ c, (NetworkCoordinator.registered (X.Msg φ) idx).run
        (sends.map fun e => (idx e.1, e.2)) = some c ∧
      ∀ ls t, Transmits φ sends ls → (netMachine X n).run s ls = some t → t.Drained →
        ∀ k : Fin n, t.inbox k =
          ((c.enqueued k).map fun inc => (⟨φ, inc⟩ : Arrival X) : Multiset (Arrival X)) := by
  have hinj : Function.Injective s.id := by
    intro i j hij
    apply hidx
    have hi := hA i
    rw [hij, hA j] at hi
    exact (Option.some.inj hi).symm
  have hcarries : s.Carries A φ := hs.carries hready
  obtain ⟨c, hc, henqueued⟩ := NetworkCoordinator.run_spec hidx rfl sends
    fun e he => (hsends e he).registered
  refine ⟨hcarries.transmit hs.toDrained sends, c, hc, fun ls t hls hr ht k => ?_⟩
  have hid : t.id = s.id := Machine.run_preserves (M := netMachine X n) (I := fun u => u.id = s.id)
    (fun _ _ _ hu hl => (Net.step_id hl).trans hu) rfl hr
  have hemitted := (Net.transmits_run hls hsends hcarries hr).2.2.2
  have hempty : (NetworkCoordinator.registered (X.Msg φ) idx).enqueued k = [] := by
    unfold NetworkCoordinator.enqueued
    rw [NetworkCoordinator.registered_sent]
    rfl
  rw [Net.transmits_enqueued hX hinj hs hready hsends hls hr ht k, henqueued k, hempty,
    List.nil_append, List.map_filterMap]
  -- the messages by their senders
  have hsum := filterMap_eq_sum (Finset.univ.erase k) (fun i e => e.1 = i)
    (fun e => if e.1 ≠ k then Emission.arrival A (s.id e.1) (s.id k) ⟨φ, e.2⟩ else none) sends
    (fun e _ hne => ⟨e.1, Finset.mem_erase.2 ⟨fun hk => hne (if_neg (not_not.2 hk)),
      Finset.mem_univ _⟩, rfl, fun j _ hj => hj.symm⟩)
  have hterm : ∀ i ∈ Finset.univ.erase k, t.addressed A i k = ↑(sends.filterMap fun e =>
      if e.1 = i then
        if e.1 ≠ k then Emission.arrival A (s.id e.1) (s.id k) ⟨φ, e.2⟩ else none
      else none) := by
    intro i hi
    have hik : i ≠ k := (Finset.mem_erase.1 hi).1
    unfold Net.addressed
    rw [hemitted i, hs.emitted i, List.nil_append, List.filterMap_map, List.filterMap_filter, hid]
    congr 1
    apply List.filterMap_congr
    intro e _
    by_cases he : e.1 = i
    · simp [he, hik]
    · simp [he]
  rw [Finset.sum_congr rfl hterm, ← hsum]
  congr 1
  exact List.filterMap_congr fun e he => (hsends e he).arrival hidx hA k

/-! ### Three parties -/

namespace ThreeNodes

/-- The nodes in the aux generation that `a` has started, with the logs starting there. -/
def inAux : Net .plain 3 where
  hosts k :=
    { node :=
        { Node.new (ids k) with
          mpcOrchestrator := some
            ⟨{ MPCOrchestrator.ofAssignments (ids k) (.ofEntries [("a", 0), ("b", 1), ("c", 2)]) with
                state := .auxGeneration "a" []
                auxIncomingTx := some 0 },
              [.aux (.new (UInt16.ofNat k) 0) 3 0 .running]⟩ }
      queue := []
      emitted := []
      received := [] }
  wire := []

/-- A message of `a` to all parties and one of `b` to `a`. -/
def messages : List (Fin 3 × Outgoing (Platform.plain.Msg .aux)) :=
  [(a, ⟨.allParties, ([1] : List UInt8)⟩), (b, ⟨.oneParty 0, ([2] : List UInt8)⟩)]

end ThreeNodes

open ThreeNodes

/-- However the two messages are delivered, `c` receives only the first one. -/
theorem two_messages_routed : ∃ ls t, Transmits .aux messages ls ∧
    (netMachine .plain 3).run inAux ls = some t ∧ t.Drained ∧
      t.inbox c = {⟨.aux, ⟨0, 0, .broadcast, ([1] : List UInt8)⟩⟩} := by
  have hidx : Function.Injective fun k : Fin 3 => UInt16.ofNat k := by decide
  have hready : ∀ k, (inAux.hosts k).node.Ready DeliveryRun.assignment .aux
    | 0 => ⟨by decide, rfl⟩
    | 1 => ⟨by decide, rfl⟩
    | 2 => ⟨by decide, rfl⟩
  have hmessages : ∀ e ∈ messages, Addressable (fun k : Fin 3 => UInt16.ofNat k) e :=
    List.forall_mem_cons.2 ⟨⟨rfl, trivial⟩,
      List.forall_mem_cons.2 ⟨⟨rfl, by decide, a, rfl⟩, List.forall_mem_nil _⟩⟩
  obtain ⟨⟨ls, t, hls, hr, ht⟩, m, hm, hall⟩ := router_refines_mock Platform.plain_lawful hidx
    ⟨⟨fun _ => rfl, rfl⟩, fun _ => rfl, fun _ => rfl⟩ (by decide) hready hmessages
  refine ⟨ls, t, hls, hr, ht, ?_⟩
  have henqueued : m.enqueued 2 = [⟨0, 0, .broadcast, ([1] : List UInt8)⟩] :=
    Option.some.inj (congrArg (Option.map fun m : NetworkCoordinator (List UInt8) =>
      m.enqueued 2) hm).symm
  rw [hall ls t hls hr ht c]
  exact congrArg (fun l : List (Incoming (List UInt8)) =>
    Multiset.ofList (l.map fun inc => (⟨.aux, inc⟩ : Arrival .plain))) henqueued

end P2pMpc
