import P2pMpc.FreshExecutions
import P2pMpc.Initiator
import P2pMpc.PhasesInStep
import P2pMpc.SessionNames

/-!
# Which call an execution comes from

An Initiate message names its execution by the phase and by the clock reading of the RPC call that
makes it. A node that enters the phase keeps that id and the authenticated source of the message,
and spawns a party with the arguments of the message. No node passes an Initiate message on: over
all runs of the network, the phase a node is in and the party it runs for it go back to one call on
the host of the recorded initiator. As long as no host reads its clock twice alike, two nodes under
one initiator and one execution id therefore work on one call, with the arguments of that call.
-/

namespace P2pMpc

open StateMachine MPCOrchestrator Lists

variable {X : Platform} {n : ℕ}

/-! ### Execution ids -/

/-- The name a call begins its execution id with. -/
def Phase.callName : Phase → String
  | .aux => "aux"
  | .keygen => "keygen"
  | .signing => "signing"

namespace SystemTime

variable {t u : SystemTime}

/-- The `Debug` output of a time, from its two numbers. -/
theorem toList_debug {a b : ℕ} (ha : t.nanos / 1000000000 = (a : ℤ))
    (hb : t.nanos % 1000000000 = (b : ℤ)) : t.debug.toList =
      "SystemTime \x7b tv_sec: ".toList ++ (Nat.toDigits 10 a ++
        ',' :: (" tv_nsec: ".toList ++ (Nat.toDigits 10 b ++ " \x7d".toList))) := by
  have hdebug : t.debug = "SystemTime \x7b tv_sec: " ++ Nat.repr a ++ ", tv_nsec: " ++
      Nat.repr b ++ " \x7d" := by
    unfold debug
    rw [ha, hb]
    rfl
  have hsep : ", tv_nsec: ".toList = ',' :: " tv_nsec: ".toList := by decide +kernel
  rw [hdebug]
  simp only [String.toList_append, Nat.toList_repr, List.append_assoc, hsep, List.cons_append]

/-- From the epoch on, the `Debug` output tells any two times apart. -/
theorem debug_inj (ht : 0 ≤ t.nanos) (hu : 0 ≤ u.nanos) : t.debug = u.debug ↔ t = u := by
  constructor
  · intro h
    have hparts : ∀ v : SystemTime, 0 ≤ v.nanos → ∃ a b : ℕ,
        v.nanos / 1000000000 = (a : ℤ) ∧ v.nanos % 1000000000 = (b : ℤ) :=
      fun v hv => ⟨(v.nanos / 1000000000).toNat, (v.nanos % 1000000000).toNat, by omega, by omega⟩
    obtain ⟨a, b, ha, hb⟩ := hparts t ht
    obtain ⟨c, d, hc, hd⟩ := hparts u hu
    have hcomma : ∀ z, ',' ∉ " tv_nsec: ".toList ++ (Nat.toDigits 10 z ++ " \x7d".toList) := by
      intro z hz
      rcases List.mem_append.1 hz with hz | hz
      · exact absurd hz (by decide +kernel)
      · rcases List.mem_append.1 hz with hz | hz
        · exact absurd (Nat.isDigit_of_mem_toDigits (by decide) (by decide) hz) (by decide)
        · exact absurd hz (by decide +kernel)
    have hl := congrArg String.toList h
    rw [toList_debug ha hb, toList_debug hc hd, List.append_right_inj,
      append_cons_inj_right (hcomma b) (hcomma d), List.append_right_inj,
      List.append_left_inj] at hl
    have hac : a = c := by
      rw [← Nat.ofDigitChars_ten_toDigits (n := a), hl.1, Nat.ofDigitChars_ten_toDigits]
    have hbd : b = d := by
      rw [← Nat.ofDigitChars_ten_toDigits (n := b), hl.2, Nat.ofDigitChars_ten_toDigits]
    obtain ⟨m⟩ := t
    obtain ⟨k⟩ := u
    congr 1
    simp only at ha hb hc hd
    omega
  · rintro rfl
    rfl

end SystemTime

/-- Two calls whose clock readings are not before the epoch make one execution id exactly if they
are for one phase and have one reading. -/
theorem createExecutionId_inj {φ ψ : Phase} {t u : SystemTime} (ht : 0 ≤ t.nanos)
    (hu : 0 ≤ u.nanos) : createExecutionId φ.callName t = createExecutionId ψ.callName u ↔
      φ = ψ ∧ t = u := by
  constructor
  · intro h
    have htext : φ.callName ++ "-" ++ t.debug = ψ.callName ++ "-" ++ u.debug :=
      String.toByteArray_inj.1 (ByteArray.ext (Array.toList_inj.1 h))
    have hlist := congrArg String.toList htext
    simp only [String.toList_append] at hlist
    have hphase : φ = ψ := by
      -- the names of different phases begin with different characters
      have hfirst : ∀ (χ : Phase) xs,
          (χ.callName.toList ++ xs).head? = χ.callName.toList.head? := by
        intro χ xs
        rw [List.head?_append]
        cases χ <;> rfl
      have hhead := congrArg List.head? hlist
      rw [List.append_assoc, List.append_assoc, hfirst, hfirst] at hhead
      cases φ <;> cases ψ <;> first | rfl | exact absurd hhead (by decide +kernel)
    subst hphase
    rw [List.append_right_inj, String.toList_inj, SystemTime.debug_inj ht hu] at hlist
    exact ⟨rfl, hlist⟩
  · rintro ⟨rfl, rfl⟩
    rfl

/-! ### What a call sends -/

namespace InitiateCall

def phase : InitiateCall → Phase
  | auxGen _ => .aux
  | keygen _ _ => .keygen
  | signing _ _ _ => .signing

def timestamp : InitiateCall → SystemTime
  | auxGen timestamp => timestamp
  | keygen _ timestamp => timestamp
  | signing _ _ timestamp => timestamp

/-- The message that the call makes on a node with the orchestrator `o`. -/
def message (o : MPCOrchestrator X) : InitiateCall → CoordinationMessage X
  | auxGen timestamp => .initiateAux (createExecutionId "aux" timestamp) o.participants
      o.partyAssignments timestamp
  | keygen threshold timestamp => .initiateKeygen (createExecutionId "keygen" timestamp) threshold
      (UInt16.ofNat o.participants.length) timestamp
  | signing message signers timestamp => .initiateSigning (createExecutionId "signing" timestamp)
      message.toUTF8.data.toList signers timestamp

theorem action_injective : Function.Injective (InitiateCall.action (X := X)) := by
  intro a b h
  cases a <;> cases b <;> cases h <;> rfl

end InitiateCall

/-- What a call broadcasts is its message, and its clock reading is not before the epoch. -/
theorem Node.initiateCall_broadcast {m : Node X} {call : InitiateCall}
    {msg : CoordinationMessage X} (h : (m.initiateCall call).broadcast = some msg) :
    ∃ inst, m.mpcOrchestrator = some inst ∧ 0 ≤ call.timestamp.nanos ∧
      msg = call.message inst.orch := by
  have hepoch : ∀ {t : SystemTime}, (∃ ts, t.secsSinceEpoch = some ts) → 0 ≤ t.nanos := by
    rintro t ⟨ts, hts⟩
    unfold SystemTime.secsSinceEpoch at hts
    split_ifs at hts with hneg
    omega
  cases call with
  | auxGen timestamp =>
    simp only [initiateCall, initiateAuxGen] at h
    cases hinst : m.mpcOrchestrator with
    | none => simp [hinst] at h
    | some inst =>
      simp only [hinst] at h
      split at h
      · obtain ⟨rfl, hts⟩ := initiate_broadcast h
        exact ⟨inst, rfl, hepoch hts, rfl⟩
      · cases h
  | keygen threshold timestamp =>
    simp only [initiateCall, initiateKeygen] at h
    cases hinst : m.mpcOrchestrator with
    | none => simp [hinst] at h
    | some inst =>
      simp only [hinst] at h
      split_ifs at h
      obtain ⟨rfl, hts⟩ := initiate_broadcast h
      exact ⟨inst, rfl, hepoch hts, rfl⟩
  | signing message signers timestamp =>
    simp only [initiateCall, initiateSigning] at h
    cases hinst : m.mpcOrchestrator with
    | none => simp [hinst] at h
    | some inst =>
      simp only [hinst] at h
      split at h
      · cases h
      · split at h
        · cases h
        · split_ifs at h
          obtain ⟨rfl, hts⟩ := initiate_broadcast h
          exact ⟨inst, rfl, hepoch hts, rfl⟩

/-- A node's own message is the one of a call. -/
theorem Node.handled_act {m : Node X} {a : Action X} {p : X.PeerId} {msg : CoordinationMessage X}
    (h : m.handled (.act a) = some (p, msg)) :
    p = m.id ∧ ∃ call : InitiateCall, a = call.action ∧
      (m.initiateCall call).broadcast = some msg := by
  have hcall : ∀ call : InitiateCall,
      (m.initiateCall call).broadcast.map (m.id, ·) = some (p, msg) →
        p = m.id ∧ (m.initiateCall call).broadcast = some msg := by
    intro call hb
    obtain ⟨_, hb, he⟩ := Option.map_eq_some_iff.1 hb
    cases he
    exact ⟨rfl, hb⟩
  cases a with
  | initiateAuxGen timestamp =>
    obtain ⟨hp, hb⟩ := hcall (.auxGen timestamp) h
    exact ⟨hp, _, rfl, hb⟩
  | initiateKeygen threshold timestamp =>
    obtain ⟨hp, hb⟩ := hcall (.keygen threshold timestamp) h
    exact ⟨hp, _, rfl, hb⟩
  | initiateSigning message signers timestamp =>
    obtain ⟨hp, hb⟩ := hcall (.signing message signers timestamp) h
    exact ⟨hp, _, rfl, hb⟩
  | _ => cases h

/-! ### The phase and the party of a message -/

/-- The task runs its protocol with the arguments of the message. -/
def Task.Serves : CoordinationMessage X → Task X → Prop
  | .initiateAux _ _ _ timestamp, .aux _ n ts _ =>
      n = auxTotalParties ∧ timestamp.secsSinceEpoch = some ts
  | .initiateKeygen _ threshold totalParties timestamp, .keygen _ n t ts _ =>
      n = totalParties ∧ t = threshold ∧ timestamp.secsSinceEpoch = some ts
  | .initiateSigning _ message signers timestamp, .signing _ s m ts _ =>
      s = signers ∧ m = message ∧ timestamp.secsSinceEpoch = some ts
  | _, _ => False

theorem Task.serves_spawned {msg : CoordinationMessage X} {t : Task X} :
    t.spawned.Serves msg ↔ t.Serves msg := by
  cases t <;> cases msg <;> rfl

theorem MPCOrchestrator.Starts.serves {o : MPCOrchestrator X} {chan : ChannelId}
    {msg : CoordinationMessage X} {t : Task X} (h : o.Starts chan msg t) : t.Serves msg := by
  cases h with
  | aux _ _ _ timestamp i ts hc => exact ⟨rfl, hc.1⟩
  | keygen _ _ _ timestamp i ts _ hc => exact ⟨rfl, rfl, hc.1⟩
  | signing _ _ s timestamp i ts _ _ hc => exact ⟨rfl, rfl, hc.1⟩

/-- A message that is let in enters the state of its phase. -/
theorem handle_of_enters {o : MPCOrchestrator X} {msg : CoordinationMessage X} (h : o.Enters msg)
    (chan : ChannelId) (p : X.PeerId) :
    (o.handleCoordinationMessage chan p msg).orch.state.EnteredBy p msg := by
  cases msg with
  | initiateAux eid ps pa timestamp =>
    obtain ⟨i, ts, hc⟩ := h
    simp only [handleCoordinationMessage]
    rcases handleInitiateAux_cases o chan p eid pa timestamp with ⟨_, hno, -⟩ | ⟨_, _, -, he⟩
    · exact absurd hc (hno i ts)
    · rw [he]
      rfl
  | initiateKeygen eid t n timestamp =>
    obtain ⟨i, ts, hc⟩ := h
    simp only [handleCoordinationMessage]
    rcases handleInitiateKeygen_cases o chan p eid t n timestamp with
      ⟨_, hno, -⟩ | ⟨_, _, -, ⟨-, he⟩ | ⟨_, -, he⟩⟩
    · exact absurd hc (hno i ts)
    · rw [he]
      rfl
    · rw [he]
      rfl
  | initiateSigning eid m s timestamp =>
    obtain ⟨i, ts, hc⟩ := h
    simp only [handleCoordinationMessage]
    rcases handleInitiateSigning_cases o chan p eid m s timestamp with
      ⟨_, hno, -⟩ | ⟨_, _, -, ⟨-, he⟩ | ⟨-, -, he⟩ | ⟨-, _, _, -, -, he⟩⟩
    · exact absurd hc (hno i ts)
    · rw [he]
      rfl
    · rw [he]
      rfl
    · rw [he]
      rfl
  | auxCompleted | keygenCompleted | signingCompleted | protocolFailed => exact h.elim

namespace Node

/-- The node is in the state, and the tasks were spawned on it and have their completion before
them. -/
def Executes (st : ProtocolState X) (T : List (Task X)) (m : Node X) : Prop :=
  ∃ inst, m.mpcOrchestrator = some inst ∧ inst.orch.state = st ∧
    ∀ t ∈ T, ∃ u ∈ inst.tasks, u.uncompleted = true ∧ u.spawned = t

variable {m m' : Node X} {l : NodeLabel X} {st : ProtocolState X} {T : List (Task X)}
  {q : X.PeerId}

/-- Every execution under way was so before the step, or the step handles the message of the
recorded initiator that enters the state and that the tasks serve. -/
theorem step_executes (hm : m.Shaped) (hq : st.initiator = some q) (hl : m.step l = some m')
    (h : m'.Executes st T) : m.Executes st T ∨
      ∃ msg, m.handled l = some (q, msg) ∧ st.EnteredBy q msg ∧ ∀ t ∈ T, t.Serves msg := by
  obtain ⟨inst', hinst', rfl, hT⟩ := h
  have hslot := (step_slot hl).2.2
  rw [hinst'] at hslot
  generalize hs : some inst' = slot at hslot
  -- a task that moves keeps what it was spawned with, and has no completion before it that it had
  -- not before
  have hset : ∀ {inst : Instance X} {i : ℕ} {u u' : Task X}, inst.tasks[i]? = some u →
      u'.spawned = u.spawned → (u'.uncompleted = true → u.uncompleted = true) →
      ∀ v ∈ inst.tasks.set i u', v.uncompleted = true →
        ∃ w ∈ inst.tasks, w.uncompleted = true ∧ w.spawned = v.spawned := by
    intro inst i u u' hu hspawned huncompleted v hv hvu
    rcases List.mem_or_eq_of_mem_set hv with hv | rfl
    · exact ⟨v, hv, hvu, rfl⟩
    · exact ⟨u, List.mem_of_getElem? hu, huncompleted hvu, hspawned.symm⟩
  cases hslot with
  | keep => exact .inl ⟨inst', hs.symm, rfl, hT⟩
  | install =>
    cases hs
    cases hq
  | coordinate inst p msg hinst hl =>
    cases hs
    by_cases henters : inst.orch.Enters msg
    · right
      have hentered := handle_of_enters henters m.nextChannel p
      obtain rfl : p = q := by
        cases msg <;> simp only [ProtocolState.EnteredBy] at hentered <;>
          first
          | exact hentered.elim
          | exact Option.some.inj ((congrArg ProtocolState.initiator hentered).symm.trans hq)
      refine ⟨msg, hl, hentered, fun t ht => ?_⟩
      obtain ⟨u, hu, huncompleted, rfl⟩ := hT t ht
      rcases List.mem_append.1 hu with hu | hu
      · -- the message would have been refused while an older task had its completion before it
        obtain ⟨i, hi⟩ := List.mem_iff_getElem?.1 hu
        have hshaped := hm inst (List.mem_append_left _ (Option.mem_toList.2 hinst))
        obtain ⟨⟨e, he⟩, -, -⟩ := hshaped.of_uncompleted hi huncompleted
        obtain ⟨hidle, hkeygen, hsigning⟩ := he.not_ready
        rcases henters.ready with hr | hr | hr
        · exact absurd hr hidle
        · simp [hkeygen] at hr
        · simp [hsigning] at hr
      · exact Task.serves_spawned.2 (starts_of_spawned (Option.mem_toList.1 hu)).serves
    · left
      obtain ⟨horch, hspawned⟩ := handle_of_not_enters henters m.nextChannel p
      refine ⟨inst, hinst, congrArg MPCOrchestrator.state horch.symm, fun t ht => ?_⟩
      obtain ⟨u, hu, huncompleted⟩ := hT t ht
      simp only [hspawned, Option.toList_none, List.append_nil] at hu
      exact ⟨u, hu, huncompleted⟩
  | finish inst i r c hinst hc =>
    cases hs
    obtain ⟨u, u', hu, hf, rfl⟩ := Config.step_finish_eq_some.1 hc
    refine .inl ⟨inst, hinst, rfl, fun t ht => ?_⟩
    obtain ⟨v, hv, hvu, rfl⟩ := hT t ht
    exact hset hu (Task.finish_spawned hf) (fun _ => (Task.finish_uncompleted hf).1) v hv hvu
  | advance inst i c hinst hc =>
    cases hs
    obtain ⟨u, u', o, hu, ha, rfl⟩ := Config.step_advance_eq_some.1 hc
    have huncompleted : u'.uncompleted = true → u.uncompleted = true := by
      rcases Task.advance_cases ha with ⟨hbefore, -, -⟩ | ⟨-, hsame⟩
      · exact fun _ => hbefore
      · exact fun h => hsame ▸ h
    rcases Task.advance_state ha with hstate | hnone
    · refine .inl ⟨inst, hinst, hstate.symm, fun t ht => ?_⟩
      obtain ⟨v, hv, hvu, rfl⟩ := hT t ht
      exact hset hu (Task.advance_spawned ha).1 huncompleted v hv hvu
    · rw [hnone] at hq
      cases hq

end Node

/-! ### Over the network -/

/-- The label puts a coordination message together by hand. -/
def NetLabel.coordinates : NetLabel X n → Bool
  | .act _ (.broadcast (.coordination _)) => true
  | _ => false

namespace Net

variable {s t : Net X n} {l : NetLabel X n} {q : X.PeerId} {msg : CoordinationMessage X}

/-- In the step the host of the peer `q` takes a call that broadcasts the message. -/
def Calls (s : Net X n) (q : X.PeerId) (msg : CoordinationMessage X) (l : NetLabel X n) : Prop :=
  ∃ c call, l = .act c (InitiateCall.action call) ∧ s.id c = q ∧
    ((s.hosts c).node.initiateCall call).broadcast = some msg

/-- The coordination message of `q` waits in the channel of its host, or is on its way. -/
def Announced (s : Net X n) (q : X.PeerId) (msg : CoordinationMessage X) : Prop :=
  (∃ c, s.id c = q ∧ .broadcast (.coordination msg) ∈ (s.hosts c).queue) ∨
    ∃ p ∈ s.wire, p.source = q ∧ p.content = .coordination msg

/-- The coordination messages that an action sends are those of its call. -/
theorem calls_of_sends {c : Fin n} {a : Action X} {r : Node X × List (NetworkCommand X)}
    (hhand : NetLabel.coordinates (.act c a) = false) (h : (s.hosts c).node.act a = some r)
    (hsent : .broadcast (.coordination msg) ∈ r.2) : s.Calls (s.id c) msg (.act c a) := by
  rcases Node.act_sends h with ⟨φ, out, -, -, rfl⟩ | ⟨g, rfl, rfl⟩ | ⟨now, -, hr⟩ |
      ⟨p, msg', hhandled, hr⟩ | ⟨-, hr⟩
  · simp at hsent
  · obtain rfl : Gossip.coordination msg = g := by simpa using hsent
    cases hhand
  · simp [hr] at hsent
  · obtain rfl : msg = msg' := by simpa [hr] using hsent
    obtain ⟨-, call, rfl, hcall⟩ := Node.handled_act hhandled
    exact ⟨c, call, rfl, rfl, hcall⟩
  · simp [hr] at hsent

/-- A message on its way was so before the step, or is the one of a call. -/
theorem announced_of_step (hhand : l.coordinates = false) (h : s.step l = some t)
    (ht : t.Announced q msg) : s.Announced q msg ∨ s.Calls q msg l := by
  have hid := step_id h
  cases l with
  | act k a =>
    obtain ⟨r, hr, rfl⟩ := step_act_eq_some.1 h
    rcases ht with ⟨c, hc, hqueue⟩ | hwire
    · rw [hid] at hc
      rw [hosts_setHost] at hqueue
      split_ifs at hqueue with hck
      · subst hck
        rcases List.mem_append.1 hqueue with hqueue | hsent
        · exact .inl (.inl ⟨c, hc, hqueue⟩)
        · rw [← hc]
          exact .inr (calls_of_sends hhand hr hsent)
      · exact .inl (.inl ⟨c, hc, hqueue⟩)
    · exact .inl (.inr hwire)
  | process k published =>
    obtain ⟨c, cs, hcommands, rfl⟩ := step_process_eq_some.1 h
    left
    rcases ht with ⟨j, hj, hqueue⟩ | ⟨p, hp, hsource, hcontent⟩
    · rw [hid] at hj
      rw [hosts_publish, hosts_setHost] at hqueue
      refine .inl ⟨j, hj, ?_⟩
      split_ifs at hqueue with hjk
      · rw [hjk, hcommands]
        exact List.mem_cons_of_mem _ hqueue
      · exact hqueue
    · rcases mem_publish.1 hp with hp | ⟨hown, -, hg⟩
      · exact .inr ⟨p, hp, hsource, hcontent⟩
      · -- the command taken from the channel is the message
        refine .inl ⟨k, ?_, ?_⟩
        · rw [← hsource, hown]
          simp [id]
        · split_ifs at hg
          rw [hcontent] at hg
          rw [hcommands]
          cases c with
          | broadcast g =>
            cases hg
            exact List.mem_cons_self
          | send φ out =>
            obtain ⟨_, -, he⟩ := Option.map_eq_some_iff.1 hg
            cases he
  | deliver i published now =>
    obtain ⟨p, hp, rfl⟩ := step_deliver_eq_some.1 h
    left
    rcases ht with ⟨j, hj, hqueue⟩ | ⟨r, hr, hsource, hcontent⟩
    · rw [hid] at hj
      refine .inl ⟨j, hj, ?_⟩
      rw [deliver, hosts_publish, hosts_setHost] at hqueue
      split_ifs at hqueue with hjk
      · rw [hjk]
        exact hqueue
      · exact hqueue
    · rcases mem_publish.1 hr with hr | ⟨-, -, hg⟩
      · exact .inr ⟨r, List.mem_of_mem_eraseIdx hr, hsource, hcontent⟩
      · -- what a node publishes in answer is an assignment message
        obtain ⟨_, he⟩ := Node.onMessage_published hg
        rw [hcontent] at he
        cases he

/-- A node handles a message of `q` in the step that makes it, or after it was sent. -/
theorem announced_of_handled {k : Fin n} {nl : NodeLabel X} {p : X.PeerId}
    (hl : s.nodeLabel k l = some nl) (h : (s.hosts k).node.handled nl = some (p, msg)) :
    s.Calls p msg l ∨ s.Announced p msg := by
  rcases nodeLabel_eq_some hl with ⟨a, rfl, rfl⟩ | ⟨i, published, now, r, rfl, hr, rfl, rfl⟩
  · obtain ⟨rfl, call, rfl, hcall⟩ := Node.handled_act h
    exact .inl ⟨k, call, rfl, rfl, hcall⟩
  · obtain ⟨source, dest, content⟩ := r
    cases content with
    | coordination msg' =>
      simp only [Node.handled] at h
      split_ifs at h
      cases h
      exact .inr (.inr ⟨_, List.mem_of_getElem? hr, rfl, rfl⟩)
    | _ => cases h

theorem run_id {ls : List (NetLabel X n)} (h : (netMachine X n).run s ls = some t) :
    t.id = s.id :=
  Machine.run_preserves (I := fun u : Net X n => u.id = s.id)
    (fun _ _ _ hu hl => (step_id hl).trans hu) rfl h

/-- In every run: what is on its way goes back to a call. -/
theorem run_announced {ls : List (NetLabel X n)} (h₀ : (netMachine X n).init s)
    (hhand : ∀ l ∈ ls, l.coordinates = false) (hr : (netMachine X n).run s ls = some t)
    (ht : t.Announced q msg) : ∃ pre l post u, ls = pre ++ l :: post ∧
      (netMachine X n).run s pre = some u ∧ u.Calls q msg l := by
  obtain ⟨ids, -, rfl⟩ := h₀
  rcases Machine.run_origin_of_meets (M := netMachine X n) (K := fun _ => True)
      (P := (Announced · q msg)) (H := fun _ l => l.coordinates = false)
      (C := fun u l => u.Calls q msg l) (fun _ _ _ _ _ _ => trivial)
      (fun _ _ _ _ hhand hl ht => announced_of_step hhand hl ht) trivial
      (Machine.meets_of_forall_mem hhand _) hr ht with hstart | horigin
  · rcases hstart with ⟨c, -, hqueue⟩ | ⟨p, hp, -⟩
    · simp [Host.new] at hqueue
    · simp at hp
  · exact horigin

/-- What is under way at a host was so before the step, or begins with a message it handles. -/
theorem step_executes {k : Fin n} {st : ProtocolState X} {T : List (Task X)}
    (hs : (s.hosts k).node.Shaped) (hq : st.initiator = some q) (h : s.step l = some t)
    (ht : (t.hosts k).node.Executes st T) : (s.hosts k).node.Executes st T ∨
      ∃ nl msg, s.nodeLabel k l = some nl ∧ (s.hosts k).node.handled nl = some (q, msg) ∧
        st.EnteredBy q msg ∧ ∀ t ∈ T, t.Serves msg := by
  rcases step_nodeLabel h k with ⟨-, he⟩ | ⟨nl, hl, hnl⟩
  · rw [he] at ht
    exact .inl ht
  · refine (Node.step_executes hs hq hnl ht).imp_right ?_
    rintro ⟨msg, hhandled, hentered, hT⟩
    exact ⟨nl, msg, hl, hhandled, hentered, hT⟩

end Net

open Net

/-- In every run of a network in which no coordination message is put together by hand: the state of
a node in a phase, and the tasks that are working on it, are those of the message of one call, taken
earlier in the run on the host of the recorded initiator. -/
theorem executions_have_a_call {s t : Net X n} {ls : List (NetLabel X n)}
    (h₀ : (netMachine X n).init s) (hr : (netMachine X n).run s ls = some t)
    (hhand : ∀ l ∈ ls, l.coordinates = false) {k : Fin n} {inst : Instance X}
    (hinst : (t.hosts k).node.mpcOrchestrator = some inst) {q : X.PeerId}
    (hq : inst.orch.state.initiator = some q) : ∃ pre l post u msg, ls = pre ++ l :: post ∧
      (netMachine X n).run s pre = some u ∧ u.Calls q msg l ∧ inst.orch.state.EnteredBy q msg ∧
      ∀ t ∈ inst.tasks, t.uncompleted = true → t.Serves msg := by
  have hexecutes : (t.hosts k).node.Executes inst.orch.state
      ((inst.tasks.filter Task.uncompleted).map Task.spawned) := by
    refine ⟨inst, hinst, rfl, fun t ht => ?_⟩
    obtain ⟨u, hu, rfl⟩ := List.mem_map.1 ht
    obtain ⟨hu, huncompleted⟩ := List.mem_filter.1 hu
    exact ⟨u, hu, huncompleted, rfl⟩
  have hserves : ∀ {msg : CoordinationMessage X},
      (∀ t ∈ (inst.tasks.filter Task.uncompleted).map Task.spawned, t.Serves msg) →
        ∀ t ∈ inst.tasks, t.uncompleted = true → t.Serves msg := by
    intro msg hall t ht huncompleted
    exact Task.serves_spawned.1
      (hall _ (List.mem_map_of_mem (List.mem_filter.2 ⟨ht, huncompleted⟩)))
  have hstart : (s.hosts k).node.Shaped ∧ (s.hosts k).node.mpcOrchestrator = none := by
    obtain ⟨ids, -, rfl⟩ := h₀
    exact ⟨fun inst h => by simp [Node.instances, Host.new, Node.new] at h, rfl⟩
  rcases Machine.run_origin_of_invariant (K := fun s : Net X n => (s.hosts k).node.Shaped)
      (C := fun u l => ∃ nl msg, u.nodeLabel k l = some nl ∧
        (u.hosts k).node.handled nl = some (q, msg) ∧ inst.orch.state.EnteredBy q msg ∧
        ∀ t ∈ (inst.tasks.filter Task.uncompleted).map Task.spawned, t.Serves msg)
      (fun u l v hu hl => by
        rcases Net.step_node hl k with he | ⟨nl, hnl⟩
        · rw [he]
          exact hu
        · exact hu.step hnl)
      (fun u l v hu hl hv => Net.step_executes hu hq hl hv) hstart.1 hr hexecutes with
    ⟨_, hsome, -⟩ | ⟨pre, l, post, u, rfl, hu, nl, msg, hl, hhandled, hentered, hT⟩
  · rw [hstart.2] at hsome
    cases hsome
  · rcases announced_of_handled hl hhandled with hcalls | hannounced
    · exact ⟨pre, l, post, u, msg, rfl, hu, hcalls, hentered, hserves hT⟩
    · obtain ⟨pre₁, l₁, post₁, u₁, rfl, hu₁, hcalls⟩ := run_announced h₀
        (fun l hl => hhand l (List.mem_append_left _ hl)) hu hannounced
      exact ⟨pre₁, l₁, post₁ ++ l :: post, u₁, msg, by simp, hu₁, hcalls, hentered, hserves hT⟩

/-! ### One call for an execution -/

/-- The clock reading of a call on the host `c`. -/
def NetLabel.reading (c : Fin n) : NetLabel X n → Option SystemTime
  | .act k (.initiateAuxGen timestamp) => if k = c then some timestamp else none
  | .act k (.initiateKeygen _ timestamp) => if k = c then some timestamp else none
  | .act k (.initiateSigning _ _ timestamp) => if k = c then some timestamp else none
  | _ => none

theorem NetLabel.reading_call (c : Fin n) (call : InitiateCall) :
    NetLabel.reading c (.act c (InitiateCall.action (X := X) call)) = some call.timestamp := by
  cases call <;> exact if_pos rfl

theorem ProtocolState.EnteredBy.executionId_eq {p : X.PeerId} {o : MPCOrchestrator X}
    {call : InitiateCall} {st : ProtocolState X} (h : st.EnteredBy p (call.message o)) :
    st.executionId = some (createExecutionId call.phase.callName call.timestamp) := by
  cases call <;> rw [h] <;> rfl

/-- A message enters one state. -/
theorem ProtocolState.EnteredBy.unique {p : X.PeerId} {msg : CoordinationMessage X}
    {st st' : ProtocolState X} (h : st.EnteredBy p msg) (h' : st'.EnteredBy p msg) : st = st' := by
  cases msg <;> first | exact h.elim | exact h.trans h'.symm

theorem Task.Serves.stamp {msg : CoordinationMessage X} {t : Task X} (h : t.Serves msg) :
    msg.stamp = some t.stamp := by
  have hsecs : ∀ {timestamp : SystemTime} {ts : UInt64} (φ : Phase) (n : UInt16),
      timestamp.secsSinceEpoch = some ts →
        (timestamp.secsSinceEpoch.map fun ts => (φ, n, ts)) = some (φ, n, ts) := by
    intro timestamp ts φ n hts
    rw [hts, Option.map_some]
  cases msg <;> cases t <;> first | exact h.elim | skip
  · obtain ⟨rfl, hts⟩ := h
    exact hsecs _ _ hts
  · obtain ⟨rfl, -, hts⟩ := h
    exact hsecs _ _ hts
  · obtain ⟨rfl, -, hts⟩ := h
    exact hsecs _ _ hts

/-- What serves one message runs under one id. -/
theorem Task.Serves.executionId_eq {msg : CoordinationMessage X} {t t' : Task X}
    (h : t.Serves msg) (h' : t'.Serves msg) : t.executionId = t'.executionId :=
  Task.executionId_inj.2 (Option.some.inj (h.stamp.symm.trans h'.stamp))

/-- In every run of a network in which no coordination message is put together by hand and no host
reads its clock twice alike: two nodes that are, at whatever times, in a phase of one initiator with
one execution id are in the same state, and the tasks that work on it run their protocol under the
same id and with the arguments of the same message. -/
theorem executions_agree {s t t' : Net X n} {ls pre pre' : List (NetLabel X n)}
    (h₀ : (netMachine X n).init s) (hpre : pre <+: ls) (hpre' : pre' <+: ls)
    (ht : (netMachine X n).run s pre = some t) (ht' : (netMachine X n).run s pre' = some t')
    (hhand : ∀ l ∈ ls, l.coordinates = false)
    (hclock : ∀ c, (ls.filterMap (NetLabel.reading c)).Nodup)
    {k k' : Fin n} {inst inst' : Instance X}
    (hinst : (t.hosts k).node.mpcOrchestrator = some inst)
    (hinst' : (t'.hosts k').node.mpcOrchestrator = some inst') {q : X.PeerId} {e : List UInt8}
    (hq : inst.orch.state.initiator = some q) (hq' : inst'.orch.state.initiator = some q)
    (he : inst.orch.state.executionId = some e) (he' : inst'.orch.state.executionId = some e) :
    inst.orch.state = inst'.orch.state ∧
      ∀ u ∈ inst.tasks, u.uncompleted = true → ∀ u' ∈ inst'.tasks, u'.uncompleted = true →
        u.executionId = u'.executionId ∧ ∃ msg, u.Serves msg ∧ u'.Serves msg := by
  obtain ⟨mid, hmid⟩ := hpre
  obtain ⟨mid', hmid'⟩ := hpre'
  obtain ⟨pre₁, l₁, post₁, u₁, msg, rfl, hu₁, hcalls, hentered, hserves⟩ :=
    executions_have_a_call h₀ ht (fun l hl => hhand l (hmid ▸ List.mem_append_left _ hl)) hinst hq
  obtain ⟨pre₂, l₂, post₂, u₂, msg', rfl, hu₂, hcalls', hentered', hserves'⟩ :=
    executions_have_a_call h₀ ht' (fun l hl => hhand l (hmid' ▸ List.mem_append_left _ hl)) hinst'
      hq'
  obtain ⟨c, call, rfl, hc, hcall⟩ := hcalls
  obtain ⟨c', call', rfl, hc', hcall'⟩ := hcalls'
  obtain ⟨o, ho, hepoch, rfl⟩ := Node.initiateCall_broadcast hcall
  obtain ⟨o', ho', hepoch', rfl⟩ := Node.initiateCall_broadcast hcall'
  -- the two calls are on one host, and their ids give away their clock readings
  obtain rfl : c = c' := by
    obtain ⟨ids, hids, rfl⟩ := h₀
    rw [run_id hu₁] at hc
    rw [run_id hu₂] at hc'
    exact hids (hc.trans hc'.symm)
  rw [hentered.executionId_eq, ← he', hentered'.executionId_eq, Option.some.injEq,
    createExecutionId_inj hepoch hepoch'] at he
  have hreading := NetLabel.reading_call (X := X) c call
  rw [he.2] at hreading
  have hnodup : ((pre₁ ++ NetLabel.act c call.action :: (post₁ ++ mid)).filterMap
      (NetLabel.reading c)).Nodup := by
    simpa [← hmid] using hclock c
  have hsame : pre₁ ++ NetLabel.act c call.action :: (post₁ ++ mid) =
      pre₂ ++ NetLabel.act c call'.action :: (post₂ ++ mid') := by
    simpa using hmid.trans hmid'.symm
  obtain ⟨rfl, hlabel⟩ :=
    eq_of_nodup_filterMap hnodup hsame hreading (NetLabel.reading_call c call')
  obtain rfl : u₁ = u₂ := Option.some.inj (hu₁.symm.trans hu₂)
  injection hlabel with _ haction
  obtain rfl := InitiateCall.action_injective haction
  obtain rfl : o = o' := Option.some.inj (ho.symm.trans ho')
  refine ⟨hentered.unique hentered', fun u hu hunc u' hu' hunc' => ?_⟩
  have h := hserves u hu hunc
  have h' := hserves' u' hu' hunc'
  exact ⟨h.executionId_eq h', _, h, h'⟩

namespace OneCallRun

open ThreeNodes

/-- The node `a` initiates an aux generation, and `b` has heard of it. -/
def labels : List (NetLabel .plain 3) :=
  assign ++ [.deliver 0 true 5, .deliver 1 true 5, .act a (.initiateAuxGen ⟨7⟩), .process a true,
    .deliver 2 true 5]

theorem coordinates_labels : ∀ l ∈ labels, l.coordinates = false := by
  intro l hl
  have hall : labels.all (fun l => !l.coordinates) = true := rfl
  simpa using List.all_eq_true.1 hall l hl

/-- Only `a` reads its clock for a call. -/
theorem readings_labels (c : Fin 3) : (labels.filterMap (NetLabel.reading c)).Nodup := by
  match c with
  | 0 => exact List.nodup_singleton _
  | 1 => exact List.nodup_nil
  | 2 => exact List.nodup_nil

end OneCallRun

open ThreeNodes

/-- `b` is in the aux generation that `a` has called for. -/
theorem aux_of_b_has_a_call : ∃ pre l post u msg, OneCallRun.labels = pre ++ l :: post ∧
    (netMachine .plain 3).run start pre = some u ∧ u.Calls "a" msg l := by
  obtain ⟨t, inst, ht, hinst, hq⟩ : ∃ (t : Net .plain 3) (inst : Instance .plain),
      (netMachine .plain 3).run start OneCallRun.labels = some t ∧
        (t.hosts b).node.mpcOrchestrator = some inst ∧ inst.orch.state.initiator = some "a" :=
    ⟨_, _, rfl, rfl, rfl⟩
  obtain ⟨pre, l, post, u, msg, hls, hu, hcalls, -⟩ :=
    executions_have_a_call ⟨ids, ids_injective, rfl⟩ ht OneCallRun.coordinates_labels hinst hq
  exact ⟨pre, l, post, u, msg, hls, hu, hcalls⟩

/-- `a` and `b` are in one state. -/
theorem a_and_b_agree : ∃ (t : Net .plain 3) (inst inst' : Instance .plain),
    (netMachine .plain 3).run start OneCallRun.labels = some t ∧
      (t.hosts a).node.mpcOrchestrator = some inst ∧
      (t.hosts b).node.mpcOrchestrator = some inst' ∧ inst.orch.state = inst'.orch.state := by
  obtain ⟨t, inst, inst', ht, hinst, hinst', hq, hq', he, he'⟩ :
      ∃ (t : Net .plain 3) (inst inst' : Instance .plain),
        (netMachine .plain 3).run start OneCallRun.labels = some t ∧
        (t.hosts a).node.mpcOrchestrator = some inst ∧
        (t.hosts b).node.mpcOrchestrator = some inst' ∧
        inst.orch.state.initiator = some "a" ∧ inst'.orch.state.initiator = some "a" ∧
        inst.orch.state.executionId = some (createExecutionId "aux" ⟨7⟩) ∧
        inst'.orch.state.executionId = some (createExecutionId "aux" ⟨7⟩) :=
    ⟨_, _, _, rfl, rfl, rfl, rfl, rfl, rfl, rfl⟩
  refine ⟨t, inst, inst', ht, hinst, hinst', ?_⟩
  exact (executions_agree ⟨ids, ids_injective, rfl⟩ List.prefix_rfl List.prefix_rfl ht ht
    OneCallRun.coordinates_labels OneCallRun.readings_labels hinst hinst' hq hq' he he').1

end P2pMpc
