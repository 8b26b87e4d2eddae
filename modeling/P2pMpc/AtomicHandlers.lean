import P2pMpc.Lib.Lists
import P2pMpc.InnerLocks
import P2pMpc.Installed
import P2pMpc.PhaseMonotone

/-!
# Handlers in one piece

`handle_coordination_message` takes several locks, and the tasks may take theirs in between. A node
runs its handlers in one piece (`Node.coordinate`). That this is all there is to see of an
orchestrator at rest is `handlers_are_atomic`: a call that is interleaved with steps of tasks is as
if all of it were done at its last lock acquisition. What tasks can do before that, they do to cells
that the call has yet to read, while the state, which it has written, is theirs to see only when the
call has let go of it.
-/

namespace P2pMpc

open StateMachine MPCOrchestrator Lists

variable {X : Platform}

/-! ### The machine of the handlers in one piece -/

/-- One step of an orchestrator that nobody interrupts in a handler. -/
def Instance.step (inst : Instance X) : Label X → Option (Instance X)
  | .call chan sender msg =>
      let r := inst.orch.handleCoordinationMessage chan sender msg
      some ⟨r.orch, inst.tasks ++ r.spawned.toList⟩
  | .resume _ => none
  | .finish i r => (Config.step ⟨inst, none⟩ (.finish i r)).map Config.inst
  | .advance i => (Config.step ⟨inst, none⟩ (.advance i)).map Config.inst

/-- An orchestrator, from its construction on, with its handlers in one piece. -/
def atomicMachine (X : Platform) : Machine (Instance X) (Label X) where
  init inst := ∃ p ps m, inst = ⟨.new p ps m, []⟩
  step := Instance.step

/-- The message that a step is a call for. -/
def Label.asked : Label X → Option (X.PeerId × CoordinationMessage X)
  | .call _ sender msg => some (sender, msg)
  | _ => none

/-- The step, if it is one of a task. -/
def Label.work : Label X → Option (Label X)
  | .finish i r => some (.finish i r)
  | .advance i => some (.advance i)
  | _ => none

/-- A node handles a message as such a step. -/
theorem Node.coordinate_eq (n : Node X) (inst : Instance X) (sender : X.PeerId)
    (msg : CoordinationMessage X) :
    (n.coordinate inst sender msg).1.mpcOrchestrator =
      inst.step (.call n.nextChannel sender msg) := rfl

/-- A node runs its tasks as such steps. -/
theorem Node.taskStep_eq {n : Node X} {inst : Instance X} (hinst : n.mpcOrchestrator = some inst)
    {l : Label X} (hl : l.work = some l) :
    n.taskStep l = (inst.step l).map fun inst' => { n with mpcOrchestrator := some inst' } := by
  rw [taskStep, hinst]
  cases l with
  | call | resume => cases hl
  | finish i r => simp [Instance.step, Option.map_map, Function.comp_def]
  | advance i => simp [Instance.step, Option.map_map, Function.comp_def]

/-! ### A call that is put off to its last step -/

/-- The instance `inst` is that of the configuration without the call in progress, which is for the
message and has passed its checks. -/
inductive Delayed : Option (X.PeerId × CoordinationMessage X) → Config X → Instance X → Prop
  | rest (inst : Instance X) : Delayed none ⟨inst, none⟩ inst
  | keygen (inst : Instance X) {q : X.PeerId} {eid : List UInt8} {t n : UInt16}
      {timestamp : SystemTime} {i : PartyIndex} {ts : UInt64}
      (hchecks : inst.orch.KeygenChecks t n timestamp i ts) :
      Delayed (some (q, .initiateKeygen eid t n timestamp))
        ⟨⟨{ inst.orch with state := .keygen q eid t }, inst.tasks⟩, some (.keygen i t n ts)⟩ inst
  | signing (inst : Instance X) {q : X.PeerId} {eid m : List UInt8} {s : List PartyIndex}
      {timestamp : SystemTime} {i : PartyIndex} {ts : UInt64}
      (hchecks : inst.orch.SigningChecks timestamp i ts) (hsigner : i ∈ s) :
      Delayed (some (q, .initiateSigning eid m s timestamp))
        ⟨⟨{ inst.orch with state := .signing q eid m s }, inst.tasks⟩, some (.signing i m s ts)⟩
        inst
  | signingAux (inst : Instance X) {q : X.PeerId} {eid m : List UInt8} {s : List PartyIndex}
      {timestamp : SystemTime} {i : PartyIndex} {ts : UInt64} {a : X.AuxInfo}
      (hchecks : inst.orch.SigningChecks timestamp i ts) (hsigner : i ∈ s)
      (haux : inst.orch.auxInfo = some a) :
      Delayed (some (q, .initiateSigning eid m s timestamp))
        ⟨⟨{ inst.orch with state := .signing q eid m s }, inst.tasks⟩,
          some (.signingAux i a m s ts)⟩ inst

/-- What a task can do while a handler holds the state: it stores its result, and it could have done
so before the handler wrote the state. -/
theorem Task.advance_of_held {auxFree : Bool} {o o' : MPCOrchestrator X} {st : ProtocolState X}
    {t t' : Task X} (h : t.advance false auxFree { o with state := st } = some (o', t')) :
    (∃ a, auxFree = true ∧ o' = { o with state := st, auxInfo := some a } ∧
      t.advance true true o = some ({ o with auxInfo := some a }, t')) ∨
    ∃ share, o' = { o with state := st, keyShare := some share } ∧
      ∀ auxFree', t.advance true auxFree' o = some ({ o with keyShare := some share }, t') := by
  unfold Task.advance at h
  split at h <;> try (simp at h; done)
  · obtain ⟨hfree, h⟩ := Option.ite_none_right_eq_some.1 h
    cases h
    exact .inl ⟨_, hfree, rfl, rfl⟩
  · cases h
    exact .inr ⟨_, rfl, fun _ => rfl⟩

variable {q : Option (X.PeerId × CoordinationMessage X)} {c c' : Config X}
  {inst inst' : Instance X} {l : Label X}

/-- From `inst` on, handlers in one piece lead to an instance that goes with `c'`. Together with the
call that is still put off they are for the message of `q` and that of `l`, and the steps of tasks
are that of `l`. -/
def Keeps (q : Option (X.PeerId × CoordinationMessage X)) (inst : Instance X) (l : Label X)
    (c' : Config X) : Prop :=
  ∃ q' ms inst', (atomicMachine X).run inst ms = some inst' ∧ Delayed q' c' inst' ∧
    q.toList ++ l.asked.toList = ms.filterMap Label.asked ++ q'.toList ∧
    l.work.toList = ms.filterMap Label.work

/-- A call that ends has done all that its handler does. -/
theorem keeps_of_handle {sender : X.PeerId} {msg : CoordinationMessage X} (chan : ChannelId)
    (hl : q.toList ++ l.asked.toList = [(sender, msg)]) (hwork : l.work = none)
    (hc' : c' = Config.reply ⟨inst, none⟩
      (inst.orch.handleCoordinationMessage chan sender msg)) : Keeps q inst l c' := by
  refine ⟨none, [.call chan sender msg], _, Machine.run_singleton.2 rfl, ?_, ?_, ?_⟩
  · rw [hc']
    exact .rest _
  · rw [hl]
    rfl
  · rw [hwork]
    rfl

/-- A call that begins is put off, or done if it does not wait. -/
theorem keeps_of_call (inst : Instance X) (chan : ChannelId) (sender : X.PeerId)
    (msg : CoordinationMessage X) :
    Keeps none inst (.call chan sender msg) (Config.call ⟨inst, none⟩ chan sender msg) := by
  have hput : ∀ c', Delayed (some (sender, msg)) c' inst →
      Keeps none inst (.call chan sender msg) c' :=
    fun c' hdelayed => ⟨_, [], inst, rfl, hdelayed, rfl, rfl⟩
  cases msg with
  | initiateKeygen eid t n timestamp =>
    cases he : inst.orch.enterKeygen sender eid t n timestamp with
    | error e =>
      refine keeps_of_handle chan rfl rfl ?_
      simp [Config.call, he, handleCoordinationMessage, handleInitiateKeygen, Config.reply]
    | ok r =>
      obtain ⟨o', i, ts⟩ := r
      obtain ⟨hchecks, rfl⟩ := enterKeygen_eq_ok.1 he
      simp only [Config.call, he]
      exact hput _ (.keygen inst hchecks)
  | initiateSigning eid m s timestamp =>
    cases he : inst.orch.enterSigning sender eid m s timestamp with
    | error e =>
      refine keeps_of_handle chan rfl rfl ?_
      simp [Config.call, he, handleCoordinationMessage, handleInitiateSigning, Config.reply]
    | ok r =>
      obtain ⟨o', i, ts⟩ := r
      obtain ⟨hchecks, rfl⟩ := enterSigning_eq_ok.1 he
      by_cases hsigner : i ∈ s
      · simp only [Config.call, he, if_pos hsigner]
        exact hput _ (.signing inst hchecks hsigner)
      · refine keeps_of_handle chan rfl rfl ?_
        simp [Config.call, he, handleCoordinationMessage, handleInitiateSigning, Config.reply,
          hsigner]
  | initiateAux | auxCompleted | keygenCompleted | signingCompleted | protocolFailed =>
    exact keeps_of_handle chan rfl rfl rfl

/-- A step of a task is the same with the call put off. -/
theorem keeps_of_work (hwork : l.work = some l) (hasked : l.asked = none)
    (hstep : inst.step l = some inst') (hdelayed : Delayed q c' inst') : Keeps q inst l c' := by
  refine ⟨q, [l], inst', Machine.run_singleton.2 hstep, hdelayed, ?_, ?_⟩
  · simp [hasked]
  · simp [hwork]

/-- What a step of a task does while a handler holds the state `st`: the same as without the
handler, but for the state. It changes nothing that the handler has checked or read. -/
theorem step_of_held {st : ProtocolState X} {p : Pending X} (hwork : l.work = some l)
    (hl : Config.step ⟨⟨{ inst.orch with state := st }, inst.tasks⟩, some p⟩ l = some c') :
    ∃ o tasks, c' = ⟨⟨{ o with state := st }, tasks⟩, some p⟩ ∧ inst.step l = some ⟨o, tasks⟩ ∧
      o.state = inst.orch.state ∧ o.localPartyIndex = inst.orch.localPartyIndex ∧
      ((∃ i a m s ts, p = .signingAux i a m s ts) → o.auxInfo = inst.orch.auxInfo) := by
  cases l with
  | call | resume => cases hwork
  | finish i r =>
    obtain ⟨u, u', hu, hf, rfl⟩ := Config.step_finish_eq_some.1 hl
    refine ⟨inst.orch, inst.tasks.set i u', rfl, ?_, rfl, rfl, fun _ => rfl⟩
    have hstep : Config.step ⟨inst, none⟩ (.finish i r) =
        some ⟨⟨inst.orch, inst.tasks.set i u'⟩, none⟩ :=
      Config.step_finish_eq_some.2 ⟨u, u', hu, hf, rfl⟩
    simp [Instance.step, hstep]
  | advance i =>
    obtain ⟨u, u', o', hu, ha, rfl⟩ := Config.step_advance_eq_some.1 hl
    have hstep : ∀ o, u.advance true (Config.auxFree ⟨inst, none⟩) inst.orch = some (o, u') →
        inst.step (.advance i) = some ⟨o, inst.tasks.set i u'⟩ := by
      intro o ho
      have hconfig : Config.step ⟨inst, none⟩ (.advance i) =
          some ⟨⟨o, inst.tasks.set i u'⟩, none⟩ :=
        Config.step_advance_eq_some.2 ⟨u, u', o, hu, ho, rfl⟩
      simp [Instance.step, hconfig]
    rcases Task.advance_of_held ha with ⟨a, hfree, rfl, hbefore⟩ | ⟨share, rfl, hbefore⟩
    · -- the lock of the aux info is free, so no handler is reading it
      obtain ⟨hreadable, hnone⟩ := Bool.and_eq_true_iff.1 hfree
      have hfree' : Config.auxFree ⟨inst, none⟩ = true := Bool.and_eq_true_iff.2 ⟨hreadable, rfl⟩
      refine ⟨{ inst.orch with auxInfo := some a }, _, rfl, hstep _ ?_, rfl, rfl, ?_⟩
      · rw [hfree']
        exact hbefore
      · rintro ⟨j, b, m, s, ts, rfl⟩
        cases hnone
    · exact ⟨{ inst.orch with keyShare := some share }, _, rfl, hstep _ (hbefore _), rfl, rfl,
        fun _ => rfl⟩

/-- A step of the orchestrator, with its calls put off. -/
theorem Delayed.step (h : Delayed q c inst) (hl : c.step l = some c') : Keeps q inst l c' := by
  cases h with
  | rest =>
    cases l with
    | call chan sender msg =>
      obtain ⟨-, rfl⟩ := Config.step_call_eq_some.1 hl
      exact keeps_of_call inst chan sender msg
    | resume chan => cases hl
    | finish i r =>
      have hstep : inst.step (.finish i r) = some c'.inst := by simp [Instance.step, hl]
      obtain ⟨u, u', -, -, rfl⟩ := Config.step_finish_eq_some.1 hl
      exact keeps_of_work rfl rfl hstep (.rest _)
    | advance i =>
      have hstep : inst.step (.advance i) = some c'.inst := by simp [Instance.step, hl]
      obtain ⟨u, u', o, -, -, rfl⟩ := Config.step_advance_eq_some.1 hl
      exact keeps_of_work rfl rfl hstep (.rest _)
  | @keygen _ sender eid t n timestamp i ts hchecks =>
    cases l with
    | call chan sender msg => cases hl
    | resume chan =>
      have he : inst.orch.enterKeygen sender eid t n timestamp = .ok (_, i, ts) :=
        enterKeygen_eq_ok.2 ⟨hchecks, rfl⟩
      refine keeps_of_handle chan rfl rfl ?_
      simp only [Config.step, Option.ite_none_right_eq_some, Option.some.injEq] at hl
      simp [← hl.2, Config.resume, handleCoordinationMessage, handleInitiateKeygen, he,
        Config.reply]
    | finish | advance =>
      obtain ⟨o, tasks, rfl, hstep, hstate, hindex, -⟩ := step_of_held rfl hl
      refine keeps_of_work rfl rfl hstep (.keygen ⟨o, tasks⟩ ?_)
      rw [KeygenChecks, hstate, hindex]
      exact hchecks
  | @signing _ sender eid m s timestamp i ts hchecks hsigner =>
    cases l with
    | call chan sender msg => cases hl
    | resume chan =>
      have he : inst.orch.enterSigning sender eid m s timestamp = .ok (_, i, ts) :=
        enterSigning_eq_ok.2 ⟨hchecks, rfl⟩
      simp only [Config.step, Option.ite_none_right_eq_some, Option.some.injEq] at hl
      obtain ⟨-, rfl⟩ := hl
      rcases Option.eq_none_or_eq_some inst.orch.auxInfo with haux | ⟨a, haux⟩
      · refine keeps_of_handle chan rfl rfl ?_
        simp [Config.resume, readAuxInfo, haux, handleCoordinationMessage, handleInitiateSigning,
          he, hsigner, Config.reply]
      · refine ⟨some (sender, .initiateSigning eid m s timestamp), [], inst, rfl, ?_, rfl, rfl⟩
        have hread : readAuxInfo { inst.orch with state := .signing sender eid m s } = .ok a := by
          simp [readAuxInfo, haux]
        rw [Config.resume, hread]
        exact .signingAux inst hchecks hsigner haux
    | finish | advance =>
      obtain ⟨o, tasks, rfl, hstep, hstate, hindex, -⟩ := step_of_held rfl hl
      refine keeps_of_work rfl rfl hstep (.signing ⟨o, tasks⟩ ?_ hsigner)
      rw [SigningChecks, hstate, hindex]
      exact hchecks
  | @signingAux _ sender eid m s timestamp i ts a hchecks hsigner haux =>
    cases l with
    | call chan sender msg => cases hl
    | resume chan =>
      have he : inst.orch.enterSigning sender eid m s timestamp = .ok (_, i, ts) :=
        enterSigning_eq_ok.2 ⟨hchecks, rfl⟩
      cases hl
      refine keeps_of_handle chan rfl rfl ?_
      simp [Config.resume, readAuxInfo, haux, handleCoordinationMessage, handleInitiateSigning, he,
        hsigner, Config.reply]
    | finish | advance =>
      obtain ⟨o, tasks, rfl, hstep, hstate, hindex, hread⟩ := step_of_held rfl hl
      refine keeps_of_work rfl rfl hstep (.signingAux ⟨o, tasks⟩ ?_ hsigner ?_)
      · rw [SigningChecks, hstate, hindex]
        exact hchecks
      · exact (hread ⟨_, _, _, _, _, rfl⟩).trans haux

/-- A run of the orchestrator, with its calls put off. -/
theorem Delayed.run {ls : List (Label X)} (h : Delayed q c inst)
    (hr : (orchestratorMachine X).run c ls = some c') :
    ∃ q' ms inst', (atomicMachine X).run inst ms = some inst' ∧ Delayed q' c' inst' ∧
      q.toList ++ ls.filterMap Label.asked = ms.filterMap Label.asked ++ q'.toList ∧
      ls.filterMap Label.work = ms.filterMap Label.work := by
  induction ls generalizing c inst q with
  | nil =>
    cases hr
    exact ⟨q, [], inst, rfl, h, by simp, rfl⟩
  | cons l ls ih =>
    obtain ⟨d, hd, hr⟩ := Machine.run_cons_eq_some.1 hr
    obtain ⟨q₁, ms₁, inst₁, hrun₁, hd₁, hasked₁, hwork₁⟩ := h.step hd
    obtain ⟨q₂, ms₂, inst₂, hrun₂, hd₂, hasked₂, hwork₂⟩ := ih hd₁ hr
    refine ⟨q₂, ms₁ ++ ms₂, inst₂, Machine.run_append_eq_some.2 ⟨_, hrun₁, hrun₂⟩, hd₂, ?_, ?_⟩
    · rw [filterMap_cons_eq, List.filterMap_append, ← List.append_assoc, hasked₁,
        List.append_assoc, hasked₂, List.append_assoc]
    · rw [filterMap_cons_eq, List.filterMap_append, hwork₁, hwork₂]

/-! ### Handlers in one piece are interleavings -/

/-- Where a message passes the checks of its handler, no task stands between its two cells. -/
theorem Config.Shaped.auxReadable_of_enters (h : Config.Shaped ⟨inst, none⟩)
    {msg : CoordinationMessage X} (hmsg : inst.orch.Enters msg) :
    Config.auxReadable ⟨inst, none⟩ = true := by
  refine List.all_eq_true.2 fun u hu => ?_
  by_contra hstoring
  have hstored : u.storing = true := by simpa using hstoring
  have huncompleted : u.uncompleted = true := by
    unfold Task.storing at hstored
    split at hstored <;> first | rfl | cases hstored
  obtain ⟨j, hj⟩ := List.mem_iff_getElem?.1 hu
  obtain ⟨⟨e, he⟩, -, -⟩ := h.of_uncompleted hj huncompleted
  have hready := hmsg.ready
  dsimp only at he
  cases hstate : inst.orch.state <;> rw [hstate] at he hready <;>
    simp_all [ProtocolState.InProgress, readyForKeygen, readyForSigning]

/-- A step with the handlers in one piece is a run of the orchestrator. -/
theorem Config.Shaped.exists_run (h : Config.Shaped ⟨inst, none⟩)
    (hl : inst.step l = some inst') :
    ∃ ls, (orchestratorMachine X).run ⟨inst, none⟩ ls = some ⟨inst', none⟩ ∧
      ls.filterMap Label.asked = l.asked.toList ∧ ls.filterMap Label.work = l.work.toList := by
  cases l with
  | call chan sender msg =>
    cases hl
    by_cases hmsg : inst.orch.Enters msg
    · obtain ⟨k, hrun⟩ := run_call_uninterrupted (c := ⟨inst, none⟩) rfl
        (h.auxReadable_of_enters hmsg) chan sender msg
      refine ⟨_, hrun, ?_, ?_⟩
      · simp [Label.asked, List.filterMap_replicate]
      · simp [Label.work]
    · obtain ⟨horch, hspawned⟩ := handle_of_not_enters hmsg chan sender
      refine ⟨[.call chan sender msg], Machine.run_singleton.2 ?_, rfl, rfl⟩
      refine (Config.step_call_eq_some (c := ⟨inst, none⟩)).2 ⟨rfl, ?_⟩
      rcases Config.call_cases (c := ⟨inst, none⟩) rfl chan sender msg with ⟨-, he⟩ |
          ⟨_, _, _, _, _, _, rfl, hc, -⟩ | ⟨_, _, _, _, _, _, rfl, hc, -⟩ |
          ⟨_, _, _, _, _, _, rfl, hc, -⟩
      · simp [he, horch, hspawned]
      all_goals exact absurd ⟨_, _, hc⟩ hmsg
  | resume chan => cases hl
  | finish i r =>
    obtain ⟨c, hc, rfl⟩ := Option.map_eq_some_iff.1 hl
    refine ⟨[.finish i r], Machine.run_singleton.2 ?_, rfl, rfl⟩
    obtain ⟨u, u', -, -, rfl⟩ := Config.step_finish_eq_some.1 hc
    exact hc
  | advance i =>
    obtain ⟨c, hc, rfl⟩ := Option.map_eq_some_iff.1 hl
    refine ⟨[.advance i], Machine.run_singleton.2 ?_, rfl, rfl⟩
    obtain ⟨u, u', o, -, -, rfl⟩ := Config.step_advance_eq_some.1 hc
    exact hc

/-- A run with the handlers in one piece is one of the orchestrator. -/
theorem Config.Shaped.exists_runs {ms : List (Label X)} (h : Config.Shaped ⟨inst, none⟩)
    (hr : (atomicMachine X).run inst ms = some inst') :
    ∃ ls, (orchestratorMachine X).run ⟨inst, none⟩ ls = some ⟨inst', none⟩ ∧
      ls.filterMap Label.asked = ms.filterMap Label.asked ∧
      ls.filterMap Label.work = ms.filterMap Label.work := by
  induction ms generalizing inst with
  | nil =>
    cases hr
    exact ⟨[], rfl, rfl, rfl⟩
  | cons l ms ih =>
    obtain ⟨inst₁, hl, hr⟩ := Machine.run_cons_eq_some.1 hr
    obtain ⟨ls₁, hrun₁, hasked₁, hwork₁⟩ := h.exists_run hl
    have h₁ : Config.Shaped ⟨inst₁, none⟩ :=
      Machine.run_preserves (I := Config.Shaped) (fun _ _ _ hs hl => hs.step hl) h hrun₁
    obtain ⟨ls₂, hrun₂, hasked₂, hwork₂⟩ := ih h₁ hr
    refine ⟨ls₁ ++ ls₂, Machine.run_append_eq_some.2 ⟨_, hrun₁, hrun₂⟩, ?_, ?_⟩
    · rw [List.filterMap_append, hasked₁, hasked₂, filterMap_cons_eq]
    · rw [List.filterMap_append, hwork₁, hwork₂, filterMap_cons_eq]

/-- An orchestrator at rest has got where it is by some interleaving of calls and of steps of tasks
exactly if it would have got there with the handlers of the same messages in one piece, in the same
order, and with the same steps of tasks, in the same order. -/
theorem handlers_are_atomic (p : X.PeerId) (ps : List X.PeerId) (pa : HashMap X.PeerId PartyIndex)
    (inst : Instance X) (asked : List (X.PeerId × CoordinationMessage X)) (work : List (Label X)) :
    (∃ ls, (orchestratorMachine X).run ⟨⟨.new p ps pa, []⟩, none⟩ ls = some ⟨inst, none⟩ ∧
      ls.filterMap Label.asked = asked ∧ ls.filterMap Label.work = work) ↔
    ∃ ms, (atomicMachine X).run ⟨.new p ps pa, []⟩ ms = some inst ∧
      ms.filterMap Label.asked = asked ∧ ms.filterMap Label.work = work := by
  constructor
  · rintro ⟨ls, hr, rfl, rfl⟩
    obtain ⟨q, ms, inst', hrun, hdelayed, hasked, hwork⟩ := (Delayed.rest _).run hr
    cases hdelayed
    exact ⟨ms, hrun, by simpa using hasked.symm, hwork.symm⟩
  · rintro ⟨ms, hr, rfl, rfl⟩
    exact (reachable_shaped (.of_init ⟨p, ps, pa, rfl⟩)).exists_runs hr

/-- With its inner locks too, an orchestrator that no call is at is as if its handlers had run in
one piece. -/
theorem LockedConfig.reachable_atomic {s : LockedConfig X} (h : (innerLockMachine X).Reachable s)
    (hp : s.config.pending = none) : (atomicMachine X).Reachable s.config.inst := by
  obtain ⟨c₀, ls, ⟨p, ps, pa, rfl⟩, hr⟩ := reachable_config h
  obtain ⟨q, ms, inst', hrun, hdelayed, -⟩ := (Delayed.rest _).run hr
  refine ⟨_, ms, ⟨p, ps, pa, rfl⟩, ?_⟩
  generalize s.config = c at hp hdelayed
  cases hdelayed with
  | rest => exact hrun
  | keygen => cases hp
  | signing => cases hp
  | signingAux => cases hp

end P2pMpc
