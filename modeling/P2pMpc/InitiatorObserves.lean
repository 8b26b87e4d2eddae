import P2pMpc.InstalledIndices
import P2pMpc.Network
import P2pMpc.SignatureOwner

/-!
# Whether the initiator observes a finished signing

A node goes to `SigningCompleted` in its own signing task, and only there: the signers report their
completion to nobody, and the handler of such a report would do nothing. So an initiator that is
among the signers has the signature as soon as its own task has completed, and one that is not stays
in `Signing` until its wait times out.
-/

namespace P2pMpc

open StateMachine MPCOrchestrator

variable {X : Platform} {n : ℕ}

namespace Node

variable {m m' : Node X} {l : NodeLabel X}

/-- The node has an orchestrator in the state `st` with nothing left to do. -/
def RestsIn (m : Node X) (st : ProtocolState X) : Prop :=
  ∃ inst, m.mpcOrchestrator = some inst ∧ Config.Shaped ⟨inst, none⟩ ∧
    Config.Inactive ⟨inst, none⟩ ∧ inst.orch.state = st

/-- A step that installs nothing works on the installed orchestrator. -/
theorem works_of_not_installs (h : m.step l = some m') (hno : ∀ as, ¬ m.InstallsFor l as) :
    m.Works l m'.mpcOrchestrator := by
  rcases step_cases h with ⟨now, -, rfl⟩ | ⟨source, published, now, msg, rfl, hsource, rfl⟩ |
      ⟨-, -, -, hw⟩
  · exact .keep
  · rcases m.handleAssignmentMessage_slot published now msg with ⟨-, he⟩ | ⟨hinstalls, -⟩
    · rw [he]
      exact .keep
    · obtain ⟨as, has⟩ := exists_assignmentsOf hinstalls
      exact absurd ⟨source, published, now, msg, rfl, hsource, hinstalls, has⟩ (hno as)
  · exact hw

theorem RestsIn.step {st : ProtocolState X} (hm : m.RestsIn st) (h : m.step l = some m')
    (hno : ∀ as, ¬ m.InstallsFor l as) : m'.RestsIn st := by
  obtain ⟨inst, hinst, hshaped, hinactive, rfl⟩ := hm
  have hw := works_of_not_installs h hno
  have hshaped' := hw.shaped fun inst' hinst' => by
    rwa [Option.some.inj (hinst'.symm.trans hinst)]
  generalize hslot : m'.mpcOrchestrator = slot at hw hshaped'
  cases hw with
  | keep => exact ⟨inst, hslot.trans hinst, hshaped, hinactive, rfl⟩
  | coordinate inst' p msg hinst' hl =>
    obtain rfl := Option.some.inj (hinst.symm.trans hinst')
    obtain ⟨ls, hrun, -⟩ := hshaped.run_reply rfl m.nextChannel p msg
    obtain ⟨hin, hst⟩ := hinactive.run hrun
    exact ⟨_, hslot, hshaped' _ rfl, hin, hst⟩
  | task inst' l' c hinst' hl hc =>
    obtain rfl := Option.some.inj (hinst.symm.trans hinst')
    obtain ⟨hin, hst⟩ := hinactive.step hc
    have hpend : c = ⟨c.inst, none⟩ := by
      obtain ⟨i, p⟩ := c
      cases hin.pending
      rfl
    rw [hpend] at hin
    exact ⟨_, hslot, hshaped' _ rfl, hin, hst⟩

theorem foundSignature_eq_some {signature : String} : m.foundSignature = some signature ↔
    ∃ inst, m.mpcOrchestrator = some inst ∧ inst.orch.state = .signingCompleted signature := by
  unfold foundSignature
  cases hinst : m.mpcOrchestrator with
  | none => simp
  | some inst =>
    dsimp only
    split
    · next hs => simp [hs]
    · next hs =>
      refine iff_of_false (by simp) ?_
      rintro ⟨inst', hinst', hs'⟩
      obtain rfl := Option.some.inj hinst'
      exact hs signature hs'

/-- The signing task that completes with a signature leaves it in the state, with nothing left to
do. -/
theorem restsIn_of_completes {inst : Instance X} {j : ℕ} {p : SigningParty X}
    {signers : List PartyIndex} {message : List UInt8} {ts : UInt64} {σ : X.Signature}
    (hinst : m.mpcOrchestrator = some inst) (hs : Config.Shaped ⟨inst, none⟩)
    (ht : inst.tasks[j]? = some (.signing p signers message ts (.returned (.ok σ))))
    (h : m.step (.act (.advance j)) = some m') :
    m'.RestsIn (.signingCompleted (X.debugSignature σ)) := by
  obtain ⟨_, ha, rfl⟩ := Option.map_eq_some_iff.1 h
  obtain ⟨m'', hm'', rfl⟩ := Option.map_eq_some_iff.1 ha
  obtain ⟨inst', c, hinst', hc, rfl⟩ := taskStep_eq_some.1 hm''
  obtain rfl := Option.some.inj (hinst.symm.trans hinst')
  have hs' := hs.step hc
  obtain ⟨t, t', o, ht', hadv, rfl⟩ := Config.step_advance_eq_some.1 hc
  obtain rfl := Option.some.inj (ht.symm.trans ht')
  simp only [Task.advance, Option.ite_none_right_eq_some, Option.some.injEq, Prod.mk.injEq] at hadv
  obtain ⟨-, rfl, rfl⟩ := hadv
  have hdone : (inst.tasks.set j (.signing p signers message ts .done))[j]? =
      some (.signing p signers message ts .done) :=
    List.getElem?_set_self (List.getElem?_eq_some_iff.1 ht).1
  exact ⟨_, rfl, hs', hs'.inactive_of_done hdone, rfl⟩

/-- After an accepted `initiate_signing` a node that is not among the signers has nothing left to
do. -/
theorem restsIn_of_observes (hX : X.ParsesPeers) (hm : (nodeMachine X).Reachable m)
    {message : String} {signers : List PartyIndex} {timestamp : SystemTime} {eid : List UInt8}
    (hok : (m.initiateSigning message signers timestamp).result = .ok eid) :
    ∃ i, m.ownIndex = some i ∧
      (m.initiateSigning message signers timestamp).node.ownIndex = some i ∧
      (i ∉ signers → (m.initiateSigning message signers timestamp).node.RestsIn
        (.signing m.id eid message.toUTF8.data.toList signers)) := by
  obtain ⟨-, inst, inst', i, ts, hinst, hc, hinst', -, hroster, hstate, hcase⟩ :=
    initiateSigning_ok hok
  have hm' : (nodeMachine X).Reachable (m.initiateSigning message signers timestamp).node :=
    hm.step (l := .act (.initiateSigning message signers timestamp)) rfl
  have hwell := (reachable_wellFormed hX hm).slot inst hinst
  have hwell' := (reachable_wellFormed hX hm').slot inst' hinst'
  obtain ⟨-, hassign, hlocal⟩ : inst'.orch.participants = inst.orch.participants ∧
      inst'.orch.partyAssignments = inst.orch.partyAssignments ∧
      inst'.orch.localPeerId = inst.orch.localPeerId := by simpa [roster] using hroster
  have hindex : inst.orch.partyAssignments.lookup inst.orch.localPeerId = some i := hc.2.2
  refine ⟨i, ?_, ?_, fun hi => ?_⟩
  · rw [ownIndex, hinst, ← hwell.here]
    exact hindex
  · rw [ownIndex, hinst', ← hwell'.here, hlocal, Option.bind_some, hassign]
    exact hindex
  · refine ⟨inst', hinst', hwell'.shaped,
      hwell'.shaped.inactive_of_observed rfl hstate ?_, hstate⟩
    rcases hcase with ⟨-, htasks⟩ | ⟨hmem, -⟩
    · rw [htasks]
      exact hwell.shaped.no_signing_of_ready hc.2.1
    · exact absurd hmem hi

end Node

namespace Net

variable {s t u : Net X n} {k : Fin n} {ls : List (NetLabel X n)}

/-- In the step an orchestrator is installed on the node of the host `k`. -/
def InstallsAt (k : Fin n) (s : Net X n) (l : NetLabel X n) : Prop :=
  ∃ nl as, s.nodeLabel k l = some nl ∧ (s.hosts k).node.InstallsFor nl as

/-- The step delivers an assignment message. -/
def deliversAssignment (s : Net X n) : NetLabel X n → Bool
  | .deliver i _ _ =>
      match s.wire[i]? with
      | some ⟨_, _, .assignment _⟩ => true
      | _ => false
  | _ => false

theorem not_installsAt {l : NetLabel X n} (h : s.deliversAssignment l = false) :
    ¬ s.InstallsAt k l := by
  rintro ⟨nl, as, hnl, source, published, now, msg, rfl, -⟩
  rcases nodeLabel_eq_some hnl with ⟨a, -, he⟩ | ⟨i, _, _, ⟨_, _, content⟩, rfl, hp, -, he⟩
  · cases he
  · cases he
    simp [deliversAssignment, hp] at h

/-- In the run the node `j` completes its `sign_message` task for the signing with a signature. -/
def CompletesOk (u : Net X n) (ls : List (NetLabel X n)) (j : Fin n) (message : String)
    (signers : List PartyIndex) (timestamp : SystemTime) : Prop :=
  ∃ pre post x inst party ts σ, ∃ i : ℕ, ls = pre ++ .act j (.advance i) :: post ∧
    (netMachine X n).run u pre = some x ∧ (x.hosts j).node.mpcOrchestrator = some inst ∧
    timestamp.secsSinceEpoch = some ts ∧ inst.tasks[i]? = some
      (.signing party signers message.toUTF8.data.toList ts (.returned (.ok σ)))

/-- Every signer's `sign_message` task has completed with a signature, and no message is left in
flight. -/
structure SigningDone (u : Net X n) (ls : List (NetLabel X n)) (t : Net X n) (message : String)
    (signers : List PartyIndex) (timestamp : SystemTime) : Prop where
  signed : ∀ j i, (u.hosts j).node.ownIndex = some i → i ∈ signers →
    u.CompletesOk ls j message signers timestamp
  wire : t.wire = []
  queue : ∀ j, (t.hosts j).queue = []

theorem run_restsIn {st : ProtocolState X} (hs : (s.hosts k).node.RestsIn st)
    (hkept : (netMachine X n).Meets (fun u l => ¬ u.InstallsAt k l) s ls)
    (hr : (netMachine X n).run s ls = some t) : (t.hosts k).node.RestsIn st := by
  refine Machine.run_preserves_of_meets (M := netMachine X n)
    (I := fun u : Net X n => (u.hosts k).node.RestsIn st) ?_ hs hkept hr
  intro u l w hu hno hl
  rcases step_nodeLabel hl k with ⟨-, he⟩ | ⟨nl, hnl, hstep⟩
  · rw [he]
    exact hu
  · exact hu.step hstep fun as has => hno ⟨nl, as, hnl, has⟩

end Net

/-- In every run after an accepted `initiate_signing` in which the initiating node keeps its
orchestrator: when every signer has completed its task with a signature and nothing is in flight,
the initiating node is in `SigningCompleted` exactly if its own index is among the signers. -/
theorem initiator_observes_iff (hX : X.ParsesPeers) {s u t : Net X n} {k : Fin n}
    {message : String} {signers : List PartyIndex} {timestamp : SystemTime} {eid : List UInt8}
    {ls : List (NetLabel X n)} (hs : (netMachine X n).Reachable s)
    (hok : ((s.hosts k).node.initiateSigning message signers timestamp).result = .ok eid)
    (hu : s.step (.act k (.initiateSigning message signers timestamp)) = some u)
    (hr : (netMachine X n).run u ls = some t)
    (hkept : (netMachine X n).Meets (fun u l => ¬ u.InstallsAt k l) u ls)
    (hdone : u.SigningDone ls t message signers timestamp) :
    (∃ signature, (t.hosts k).node.foundSignature = some signature) ↔
      ∃ i ∈ signers, (s.hosts k).node.ownIndex = some i := by
  have hureach : (netMachine X n).Reachable u :=
    hs.step (l := .act k (.initiateSigning message signers timestamp)) hu
  have hnode : (u.hosts k).node =
      ((s.hosts k).node.initiateSigning message signers timestamp).node := by
    obtain ⟨r, ha, rfl⟩ := Net.step_act_eq_some.1 hu
    obtain rfl := Option.some.inj ha
    simp [Host.acted, Node.ofReply]
  obtain ⟨i, hown, hown', hobserves⟩ := Node.restsIn_of_observes hX (reachable_node hs k) hok
  rw [← hnode] at hown' hobserves
  simp only [hown, Option.some.injEq, exists_eq_right', Node.foundSignature_eq_some]
  by_cases hi : i ∈ signers
  · refine iff_of_true ?_ hi
    obtain ⟨pre, post, x, inst, party, ts, σ, j, rfl, hx, hinst, -, ht⟩ := hdone.signed k i hown' hi
    obtain ⟨x', hx', hrest⟩ := Machine.run_append_eq_some.1 hr
    obtain rfl := Option.some.inj (hx.symm.trans hx')
    obtain ⟨y, hy, hyt⟩ := Machine.run_cons_eq_some.1 hrest
    obtain ⟨r, ha, rfl⟩ := Net.step_act_eq_some.1 hy
    have hwell := (reachable_wellFormed hX (reachable_node (hureach.run hx) k)).slot inst hinst
    have hstep : (x.hosts k).node.step (.act (.advance j)) = some r.1 := by
      rw [Node.step, ha]
      rfl
    have hrests := Node.restsIn_of_completes hinst hwell.shaped ht hstep
    have hy' : ((x.setHost k ((x.hosts k).acted r)).hosts k).node = r.1 := by
      simp [Host.acted]
    rw [← hy'] at hrests
    obtain ⟨inst', hinst', -, -, hst⟩ := Net.run_restsIn hrests ((hkept.right hx).2 _ hy) hyt
    exact ⟨_, inst', hinst', hst⟩
  · refine iff_of_false ?_ hi
    -- the state stays `Signing`
    obtain ⟨inst, hinst, -, -, hst⟩ := Net.run_restsIn (hobserves hi) hkept hr
    rintro ⟨signature, inst', hinst', hst'⟩
    obtain rfl := Option.some.inj (hinst.symm.trans hinst')
    rw [hst] at hst'
    cases hst'

/-! ### An initiator that only observes -/

namespace ObserverRun

open ThreeNodes

/-- All three nodes have accepted the assignment of `a`. -/
def assigned : List (NetLabel .plain 3) :=
  assign ++ [.deliver 0 true 5, .deliver 0 true 5, .deliver 0 true 5, .deliver 0 true 5]

/-- They run the aux generation and the keygen, both initiated by `a`. -/
def ready : List (NetLabel .plain 3) :=
  assigned ++
    [.act a (.initiateAuxGen ⟨0⟩), .process a true, .deliver 0 true 5, .deliver 0 true 5] ++
    [a, b, c].flatMap (fun k => [.act k (.finish 0 (.aux (.ok (1 : ℕ)))), .act k (.advance 0),
      .act k (.advance 0)]) ++
    [.act a (.initiateKeygen 2 ⟨0⟩), .process a true, .deliver 0 true 5, .deliver 0 true 5] ++
    [a, b, c].flatMap fun k => [.act k (.finish 1 (.keygen (.ok [2]))), .act k (.advance 1),
      .act k (.advance 1)]

/-- The InitiateSigning of the node `k` reaches the others, and `a` and `b` complete their tasks. -/
def signed (k : Fin 3) : List (NetLabel .plain 3) :=
  [.process k true, .deliver 0 true 5, .deliver 0 true 5] ++
    [a, b].flatMap fun k => [.act k (.finish 2 (.signing (.ok "sig"))), .act k (.advance 2)]

/-- Up to the completion of `a`. -/
def first (k : Fin 3) : List (NetLabel .plain 3) := (signed k).take 4

/-- What follows it. -/
def second : List (NetLabel .plain 3) :=
  [.act b (.finish 2 (.signing (.ok "sig"))), .act b (.advance 2)]

/-- The run in which `a` and `b` sign for `c`. -/
theorem observer_run : ∃ s u t : Net .plain 3, ∃ inst : Instance .plain, ∃ eid q e m S,
    (netMachine .plain 3).run start ready = some s ∧
      ((s.hosts c).node.initiateSigning "m" [0, 1] ⟨0⟩).result = .ok eid ∧
      s.step (.act c (.initiateSigning "m" [0, 1] ⟨0⟩)) = some u ∧
      (netMachine .plain 3).run u (signed c) = some t ∧
      (u.hosts c).node.ownIndex = some 2 ∧
      u.CompletesOk (signed c) a "m" [0, 1] ⟨0⟩ ∧
      u.CompletesOk (signed c) b "m" [0, 1] ⟨0⟩ ∧
      t.wire = [] ∧ (∀ j, (t.hosts j).queue = []) ∧
      (t.hosts c).node.mpcOrchestrator = some inst ∧ inst.orch.state = .signing q e m S :=
  ⟨_, _, _, _, _, _, _, _, _, rfl, rfl, rfl, rfl, rfl,
    ⟨first c, second, _, _, _, 0, "sig", 2, rfl, rfl, rfl, rfl, rfl⟩,
    ⟨first c ++ .act a (.advance 2) :: second.take 1, [], _, _, _, 0, "sig", 2, rfl, rfl, rfl,
      rfl, rfl⟩, rfl, fun | 0 => rfl | 1 => rfl | 2 => rfl, rfl, rfl⟩

/-- The run in which they sign for `a`. -/
theorem signer_run : ∃ s u t : Net .plain 3, ∃ eid,
    (netMachine .plain 3).run start ready = some s ∧
      ((s.hosts a).node.initiateSigning "m" [0, 1] ⟨0⟩).result = .ok eid ∧
      s.step (.act a (.initiateSigning "m" [0, 1] ⟨0⟩)) = some u ∧
      (netMachine .plain 3).run u (signed a) = some t ∧
      (s.hosts a).node.ownIndex = some 0 ∧ (u.hosts c).node.ownIndex = some 2 ∧
      u.CompletesOk (signed a) a "m" [0, 1] ⟨0⟩ ∧
      u.CompletesOk (signed a) b "m" [0, 1] ⟨0⟩ ∧
      t.wire = [] ∧ ∀ j, (t.hosts j).queue = [] :=
  ⟨_, _, _, _, rfl, rfl, rfl, rfl, rfl, rfl,
    ⟨first a, second, _, _, _, 0, "sig", 2, rfl, rfl, rfl, rfl, rfl⟩,
    ⟨first a ++ .act a (.advance 2) :: second.take 1, [], _, _, _, 0, "sig", 2, rfl, rfl, rfl,
      rfl, rfl⟩, rfl, fun | 0 => rfl | 1 => rfl | 2 => rfl⟩

/-- No assignment message is left when it starts. -/
theorem signer_run_kept : ∀ u ∈ (netMachine .plain 3).run start
    (ready ++ [.act a (.initiateSigning "m" [0, 1] ⟨0⟩)]), (netMachine .plain 3).Meets
      (fun u l => u.deliversAssignment l = false) u (signed a) := by
  decide +kernel

/-- Once `a` and `b` have completed their tasks, every signer has. -/
theorem signingDone {u t : Net .plain 3} {ls : List (NetLabel .plain 3)}
    (hown : (u.hosts c).node.ownIndex = some 2) (ha : u.CompletesOk ls a "m" [0, 1] ⟨0⟩)
    (hb : u.CompletesOk ls b "m" [0, 1] ⟨0⟩) (hwire : t.wire = [])
    (hqueue : ∀ j, (t.hosts j).queue = []) : u.SigningDone ls t "m" [0, 1] ⟨0⟩ := by
  refine ⟨?_, hwire, hqueue⟩
  rintro j i hi hmem
  match j with
  | 0 => exact ha
  | 1 => exact hb
  | 2 =>
    obtain rfl := Option.some.inj (hown.symm.trans hi)
    exact absurd hmem (by decide)

end ObserverRun

open ThreeNodes ObserverRun

/-- The nodes `a` and `b` sign for `c`, which stays in `Signing`. -/
theorem observer_keeps_waiting : ∃ s u t : Net .plain 3, ∃ inst : Instance .plain, ∃ eid q e m S,
    (netMachine .plain 3).Reachable s ∧
      ((s.hosts c).node.initiateSigning "m" [0, 1] ⟨0⟩).result = .ok eid ∧
      s.step (.act c (.initiateSigning "m" [0, 1] ⟨0⟩)) = some u ∧
      (netMachine .plain 3).run u (signed c) = some t ∧
      u.SigningDone (signed c) t "m" [0, 1] ⟨0⟩ ∧
      (t.hosts c).node.mpcOrchestrator = some inst ∧ inst.orch.state = .signing q e m S := by
  obtain ⟨s, u, t, inst, eid, q, e, m, S, hs, hok, hu, ht, hown, ha, hb, hwire, hqueue, hinst,
    hstate⟩ := observer_run
  exact ⟨s, u, t, inst, eid, q, e, m, S, ⟨start, ready, ⟨ids, ids_injective, rfl⟩, hs⟩, hok, hu,
    ht, signingDone hown ha hb hwire hqueue, hinst, hstate⟩

/-- The nodes `a` and `b` sign for `a`, which has the signature. -/
theorem signer_observes : ∃ s u t : Net .plain 3, (netMachine .plain 3).Reachable s ∧
    s.step (.act a (.initiateSigning "m" [0, 1] ⟨0⟩)) = some u ∧
    (netMachine .plain 3).run u (signed a) = some t ∧
    u.SigningDone (signed a) t "m" [0, 1] ⟨0⟩ ∧
    ∃ signature, (t.hosts a).node.foundSignature = some signature := by
  obtain ⟨s, u, t, eid, hs, hok, hu, ht, hown, hc, ha, hb, hwire, hqueue⟩ := signer_run
  have hreach : (netMachine .plain 3).Reachable s := ⟨start, ready, ⟨ids, ids_injective, rfl⟩, hs⟩
  have hdone : u.SigningDone (signed a) t "m" [0, 1] ⟨0⟩ := signingDone hc ha hb hwire hqueue
  have hstart : (netMachine .plain 3).run start
      (ready ++ [.act a (.initiateSigning "m" [0, 1] ⟨0⟩)]) = some u :=
    Machine.run_append_eq_some.2 ⟨s, hs, Machine.run_singleton.2 hu⟩
  have hkept := (signer_run_kept u hstart).mono fun u l hl => Net.not_installsAt (k := a) hl
  exact ⟨s, u, t, hreach, hu, ht, hdone,
    (initiator_observes_iff Platform.plain_lawful.parsesPeers hreach hok hu ht hkept hdone).2
      ⟨0, by decide, hown⟩⟩

end P2pMpc
