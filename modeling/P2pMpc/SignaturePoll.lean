import P2pMpc.Lib.Progress
import P2pMpc.PhaseDiagram

/-!
# Waiting for a signature

`wait_for_signature` polls: it looks at the clock, then at the state under its read lock, and
sleeps for a tenth of a second before the next look. Any number of calls run beside the steps of
the orchestrator, each with a timeout of its own, and time passes as it likes. The clock is looked
at before the lock is asked for, so a call can find its answer after its timeout has passed.
-/

namespace P2pMpc

open StateMachine

variable {X : Platform}

/-- `Duration::from_millis(100)`, in nanoseconds. -/
def pollInterval : ℕ := 100000000

/-- Where a call of `wait_for_signature` stands: at the top of its loop, past its look at the clock,
or asleep. -/
inductive WaitPc
  | idle
  | checking
  | reading
  | sleeping (wake : ℕ)
  | returned (signature : Option String)

theorem pollInterval_pos : 0 < pollInterval := by decide

/-- A call, with its `start` and its `timeout_duration`. -/
structure Wait where
  pc : WaitPc
  start : ℕ
  timeout : ℕ

/-- The looks at the state that a call can still make: each is followed by a sleep, and none comes
after a look at the clock that finds the timeout passed. -/
def Wait.looks (now : ℕ) (w : Wait) : ℕ :=
  match w.pc with
  | .idle => 0
  | .checking => (w.timeout + pollInterval - (now - w.start)) / pollInterval
  | .reading => (w.timeout - (now - w.start)) / pollInterval + 1
  | .sleeping wake => (w.timeout + pollInterval - (max wake now - w.start)) / pollInterval
  | .returned _ => 0

theorem Wait.looks_le (w : Wait) {now later : ℕ} (h : now ≤ later) :
    w.looks later ≤ w.looks now := by
  unfold Wait.looks
  split
  · exact le_rfl
  · exact Nat.div_le_div_right (by omega)
  · exact Nat.succ_le_succ (Nat.div_le_div_right (by omega))
  · exact Nat.div_le_div_right (by omega)
  · exact le_rfl

/-- What a look at the state makes of a call. -/
def ProtocolState.polled (now : ℕ) : ProtocolState X → WaitPc
  | .signingCompleted signature => .returned (some signature)
  | .failed _ _ => .returned none
  | _ => .sleeping (now + pollInterval)

/-- An orchestrator, the clock, and the calls of `wait_for_signature`. -/
structure Polled (X : Platform) where
  config : Config X
  now : ℕ
  waits : ℕ → Wait

/-- The steps: those of the orchestrator, the clock, and those of the calls. -/
inductive PollLabel (X : Platform)
  | orchestrator (l : Label X)
  | tick (elapsed : ℕ)
  | wait (i timeout : ℕ)
  | check (i : ℕ)
  | read (i : ℕ)
  | wake (i : ℕ)

/-- The step is a look of the call `i` at the state. -/
def PollLabel.reads (i : ℕ) : PollLabel X → Bool
  | .read j => i = j
  | _ => false

/-- The looks that the step lets the call `i` make: one at once, and one for each interval up to the
timeout. -/
def PollLabel.allows (i : ℕ) : PollLabel X → ℕ
  | .wait j timeout => if i = j then timeout / pollInterval + 1 else 0
  | _ => 0

namespace Polled

/-- The state in which the call `i` stands elsewhere. -/
def setWait (s : Polled X) (i : ℕ) (w : Wait) : Polled X :=
  { s with waits := Function.update s.waits i w }

/-- The call `i` has run for longer than its timeout. -/
def timedOut (s : Polled X) (i : ℕ) : Prop := (s.waits i).timeout < s.now - (s.waits i).start

instance (s : Polled X) (i : ℕ) : Decidable (s.timedOut i) :=
  inferInstanceAs (Decidable (_ < _))

/-- One step. -/
def step (s : Polled X) : PollLabel X → Option (Polled X)
  | .orchestrator l => (s.config.step l).map fun c => { s with config := c }
  | .tick elapsed => some { s with now := s.now + elapsed }
  | .wait i timeout =>
      match (s.waits i).pc with
      | .idle => some (s.setWait i ⟨.checking, s.now, timeout⟩)
      | _ => none
  | .check i =>
      match (s.waits i).pc with
      | .checking =>
        some (s.setWait i
          { s.waits i with pc := if s.timedOut i then .returned none else .reading })
      | _ => none
  | .read i =>
      match (s.waits i).pc with
      | .reading =>
        if s.config.stateFree then
          some (s.setWait i { s.waits i with pc := s.config.inst.orch.state.polled s.now })
        else none
      | _ => none
  | .wake i =>
      match (s.waits i).pc with
      | .sleeping wake =>
        if wake ≤ s.now then some (s.setWait i { s.waits i with pc := .checking }) else none
      | _ => none

end Polled

/-- An orchestrator and its callers, from its construction on. -/
def pollMachine (X : Platform) : Machine (Polled X) (PollLabel X) where
  init s := (orchestratorMachine X).init s.config ∧ ∀ i, (s.waits i).pc = .idle
  step := Polled.step

/-! ### A decided state stays -/

/-- The states at one stage are of one rank. -/
theorem ProtocolState.rank_eq_of_stage {prepared prepared' : Bool} {st st' : ProtocolState X}
    (h : st.stage prepared = st'.stage prepared') : st.rank = st'.rank := by
  cases st <;> cases st' <;> first | rfl | cases h

/-- At a stage that none may follow, nothing writes the state. -/
theorem Config.Shaped.step_last {c c' : Config X} {l : Label X} (h : c.Shaped)
    (hl : c.step l = some c') (hlast : c.stage.next = []) :
    c'.inst.orch.state = c.inst.orch.state := by
  have hstage : c'.stage = c.stage := by
    refine (h.step_stage hl).resolve_right fun hnext => ?_
    rw [hlast] at hnext
    cases hnext
  have hrank := ProtocolState.rank_eq_of_stage hstage
  exact (step_state h hl).resolve_right fun hlt => hlt.1.ne' hrank

namespace Polled

variable {s t : Polled X} {l : PollLabel X} {i : ℕ}

/-! ### What the steps of a call are -/

theorem step_orchestrator_eq_some {l : Label X} : s.step (.orchestrator l) = some t ↔
    ∃ c, s.config.step l = some c ∧ t = { s with config := c } := by
  simp only [step, Option.map_eq_some_iff, eq_comm (a := t)]

theorem step_wait_eq_some {timeout : ℕ} : s.step (.wait i timeout) = some t ↔
    (s.waits i).pc = .idle ∧ t = s.setWait i ⟨.checking, s.now, timeout⟩ := by
  cases hpc : (s.waits i).pc <;> simp [step, hpc, eq_comm (a := t)]

theorem step_check_eq_some : s.step (.check i) = some t ↔ (s.waits i).pc = .checking ∧
    t = s.setWait i { s.waits i with pc := if s.timedOut i then .returned none else .reading } := by
  cases hpc : (s.waits i).pc <;> simp [step, hpc, eq_comm (a := t)]

theorem step_read_eq_some : s.step (.read i) = some t ↔ (s.waits i).pc = .reading ∧
    s.config.stateFree = true ∧
      t = s.setWait i { s.waits i with pc := s.config.inst.orch.state.polled s.now } := by
  cases hpc : (s.waits i).pc <;> simp [step, hpc, eq_comm (a := t)]

theorem step_wake_eq_some : s.step (.wake i) = some t ↔
    ∃ wake, (s.waits i).pc = .sleeping wake ∧ wake ≤ s.now ∧
      t = s.setWait i { s.waits i with pc := .checking } := by
  cases hpc : (s.waits i).pc <;> simp [step, hpc, eq_comm (a := t)]

@[simp] theorem setWait_self {w : Wait} : (s.setWait i w).waits i = w := Function.update_self ..

@[simp] theorem setWait_now {w : Wait} : (s.setWait i w).now = s.now := rfl

theorem setWait_of_ne {w : Wait} {j : ℕ} (h : j ≠ i) : (s.setWait i w).waits j = s.waits j :=
  Function.update_of_ne h _ _

/-! ### The answers -/

/-- An answer of the call `i` is borne out by the state or, if there is none, by the clock. -/
def Answers (s : Polled X) (i : ℕ) : Prop :=
  match (s.waits i).pc with
  | .returned (some signature) => s.config.inst.orch.state = .signingCompleted signature
  | .returned none =>
      (∃ phase reason, s.config.inst.orch.state = .failed phase reason) ∨ s.timedOut i
  | _ => True

/-- The orchestrator has one of its shapes, and all answers are borne out. -/
structure Sound (s : Polled X) : Prop where
  shaped : s.config.Shaped
  answers : ∀ i, s.Answers i

/-- A call that moves leaves the answers of the others as they are. -/
theorem Answers.setWait {w : Wait} (h : ∀ j, s.Answers j) (hw : (s.setWait i w).Answers i) (j : ℕ) :
    (s.setWait i w).Answers j := by
  by_cases hj : j = i
  · subst hj
    exact hw
  · have hold := h j
    simp only [Answers, timedOut, setWait_of_ne hj] at hold ⊢
    exact hold

/-- What a look at the state answers is what it finds there. -/
theorem answers_polled (s : Polled X) (i : ℕ) : (s.setWait i
    { s.waits i with pc := s.config.inst.orch.state.polled s.now }).Answers i := by
  simp only [Answers, setWait_self]
  cases hst : s.config.inst.orch.state <;>
    simp [ProtocolState.polled, setWait, hst]

/-- A step of the orchestrator takes no answer back. -/
theorem Answers.orchestrator {c : Config X} {l : Label X} (hs : s.config.Shaped)
    (hl : s.config.step l = some c) (h : s.Answers i) :
    Answers { s with config := c } i := by
  unfold Answers at h ⊢
  split at h
  · next signature he =>
    simp only [he]
    rw [hs.step_last hl (by simp [Config.stage, h, ProtocolState.stage, Stage.next]), h]
  · next he =>
    simp only [he]
    refine h.imp_left ?_
    rintro ⟨phase, reason, hst⟩
    exact ⟨phase, reason, by
      rw [hs.step_last hl (by simp [Config.stage, hst, ProtocolState.stage, Stage.next]), hst]⟩
  · trivial

theorem Sound.step (h : s.Sound) (hl : s.step l = some t) : t.Sound := by
  obtain ⟨hs, ha⟩ := h
  cases l with
  | orchestrator l =>
    obtain ⟨c, hc, rfl⟩ := step_orchestrator_eq_some.1 hl
    exact ⟨hs.step hc, fun i => (ha i).orchestrator hs hc⟩
  | tick elapsed =>
    cases hl
    refine ⟨hs, fun i => ?_⟩
    have hi := ha i
    unfold Answers timedOut at hi ⊢
    split at hi
    · next he => simpa only [he] using hi
    · next he =>
      simp only [he]
      exact hi.imp_right fun hlt => by omega
    · trivial
  | wait i timeout =>
    obtain ⟨-, rfl⟩ := step_wait_eq_some.1 hl
    exact ⟨hs, Answers.setWait ha (by simp [Answers])⟩
  | check i =>
    obtain ⟨-, rfl⟩ := step_check_eq_some.1 hl
    refine ⟨hs, Answers.setWait ha ?_⟩
    by_cases ht : s.timedOut i
    · simp only [Answers, setWait_self, if_pos ht]
      refine .inr ?_
      simp only [timedOut, setWait_self]
      exact ht
    · simp only [Answers, setWait_self, if_neg ht]
  | read i =>
    obtain ⟨-, -, rfl⟩ := step_read_eq_some.1 hl
    exact ⟨hs, Answers.setWait ha (s.answers_polled i)⟩
  | wake i =>
    obtain ⟨wake, -, -, rfl⟩ := step_wake_eq_some.1 hl
    exact ⟨hs, Answers.setWait ha (by simp [Answers])⟩

/-- What a step does to the state of the orchestrator. -/
theorem Sound.step_state (h : s.Sound) (hl : s.step l = some t)
    (hlast : s.config.stage.next = []) :
    t.config.inst.orch.state = s.config.inst.orch.state := by
  cases l with
  | orchestrator l =>
    obtain ⟨c, hc, rfl⟩ := step_orchestrator_eq_some.1 hl
    exact h.shaped.step_last hc hlast
  | tick elapsed =>
    cases hl
    rfl
  | wait i timeout =>
    obtain ⟨-, rfl⟩ := step_wait_eq_some.1 hl
    rfl
  | check i =>
    obtain ⟨-, rfl⟩ := step_check_eq_some.1 hl
    rfl
  | read i =>
    obtain ⟨-, -, rfl⟩ := step_read_eq_some.1 hl
    rfl
  | wake i =>
    obtain ⟨wake, -, -, rfl⟩ := step_wake_eq_some.1 hl
    rfl

theorem Sound.of_init (h : (pollMachine X).init s) : s.Sound := by
  obtain ⟨⟨p, ps, m, hc⟩, hidle⟩ := h
  refine ⟨?_, fun i => by simp [Answers, hidle i]⟩
  rw [hc]
  exact .idle

/-! ### How often a call looks -/

/-- A call that has begun did so before. -/
def Begun (s : Polled X) (i : ℕ) : Prop := (s.waits i).pc = .idle ∨ (s.waits i).start ≤ s.now

theorem Begun.setWait {j : ℕ} {w : Wait} (h : s.Begun i) (hw : i = j → w.start ≤ s.now) :
    (s.setWait j w).Begun i := by
  by_cases hij : i = j
  · subst hij
    simpa [Begun] using .inr (hw rfl)
  · simpa only [Begun, setWait_of_ne hij, setWait_now] using h

theorem Begun.step (hs : s.Begun i) (hl : s.step l = some t) : t.Begun i := by
  have hstart : ∀ {j}, (s.waits j).pc ≠ .idle → i = j → (s.waits j).start ≤ s.now := by
    rintro j hpc rfl
    exact hs.resolve_left hpc
  cases l with
  | orchestrator l =>
    obtain ⟨c, -, rfl⟩ := step_orchestrator_eq_some.1 hl
    exact hs
  | tick elapsed =>
    cases hl
    exact hs.imp_right fun hle => hle.trans (Nat.le_add_right _ _)
  | wait j timeout =>
    obtain ⟨-, rfl⟩ := step_wait_eq_some.1 hl
    exact hs.setWait fun _ => le_rfl
  | check j =>
    obtain ⟨hpc, rfl⟩ := step_check_eq_some.1 hl
    exact hs.setWait (hstart (by simp [hpc]))
  | read j =>
    obtain ⟨hpc, -, rfl⟩ := step_read_eq_some.1 hl
    exact hs.setWait (hstart (by simp [hpc]))
  | wake j =>
    obtain ⟨wake, hpc, -, rfl⟩ := step_wake_eq_some.1 hl
    exact hs.setWait (hstart (by simp [hpc]))

/-- A call that moves can make as many looks as before, but for the one it makes and those it is
allowed. -/
theorem looks_setWait {j r c : ℕ} {w : Wait}
    (h : i = j → w.looks s.now + r ≤ (s.waits j).looks s.now + c) (hr : i ≠ j → r = 0) :
    ((s.setWait j w).waits i).looks s.now + r ≤ (s.waits i).looks s.now + c := by
  by_cases hij : i = j
  · subst hij
    simpa using h rfl
  · rw [setWait_of_ne hij, hr hij]
    exact Nat.le_add_right _ _

/-- A look is paid for by the looks that the call was allowed. -/
theorem looks_amortised (X : Platform) (i : ℕ) : Amortised (pollMachine X) (fun s => s.Begun i)
    (fun s => (s.waits i).looks s.now) (PollLabel.reads i) (PollLabel.allows i) where
  keeps s l t hs hl := hs.step hl
  pays s l t hs hl := by
    cases l with
    | orchestrator l =>
      obtain ⟨c, -, rfl⟩ := step_orchestrator_eq_some.1 hl
      simp [PollLabel.reads, PollLabel.allows]
    | tick elapsed =>
      cases hl
      simp only [PollLabel.reads, PollLabel.allows, Bool.false_eq_true, if_false, Nat.add_zero]
      exact Wait.looks_le _ (Nat.le_add_right _ _)
    | wait j timeout =>
      obtain ⟨hpc, rfl⟩ := step_wait_eq_some.1 hl
      refine looks_setWait (fun hij => ?_) fun _ => rfl
      simp [PollLabel.reads, PollLabel.allows, Wait.looks, pollInterval, hij]
    | check j =>
      obtain ⟨hpc, rfl⟩ := step_check_eq_some.1 hl
      refine looks_setWait (fun hij => ?_) fun _ => rfl
      by_cases ht : s.timedOut j
      · simp [PollLabel.reads, Wait.looks, if_pos ht]
      · have hle := not_lt.1 ht
        simp only [PollLabel.reads, Wait.looks, if_neg ht, hpc]
        rw [Nat.sub_add_comm hle, Nat.add_div_right _ pollInterval_pos]
        exact Nat.le_add_right _ _
    | read j =>
      obtain ⟨hpc, -, rfl⟩ := step_read_eq_some.1 hl
      refine looks_setWait (fun hij => ?_) fun hij => by simp [PollLabel.reads, hij]
      subst hij
      have hstart := hs.resolve_left (by simp [hpc])
      have hsleep : (s.waits i).timeout + pollInterval -
          (s.now + pollInterval - (s.waits i).start) =
            (s.waits i).timeout - (s.now - (s.waits i).start) := by
        rw [Nat.sub_add_comm hstart, Nat.add_sub_add_right]
      simp only [PollLabel.reads, Wait.looks, decide_true, if_true, hpc]
      cases s.config.inst.orch.state <;> simp [ProtocolState.polled, hsleep]
    | wake j =>
      obtain ⟨wake, hpc, hwake, rfl⟩ := step_wake_eq_some.1 hl
      refine looks_setWait (fun hij => ?_) fun _ => rfl
      simp [PollLabel.reads, PollLabel.allows, Wait.looks, hpc, max_eq_right hwake]

/-- The looks that a run lets a call make. -/
theorem sum_allows {ls : List (PollLabel X)} :
    ((ls.filter fun l => !l.reads i).map (PollLabel.allows i)).sum =
      (ls.map (PollLabel.allows i)).sum := by
  induction ls with
  | nil => rfl
  | cons l ls ih =>
    cases hr : l.reads i with
    | false => simp [hr, ih]
    | true =>
      cases l with
      | read j => simp [hr, ih, PollLabel.allows]
      | orchestrator | tick | wait | check | wake => cases hr

end Polled

/-- In every run: a signature that a call answers is the one recorded in the state, from then on for
good, so all calls that answer one answer the same; a call that answers none has found the protocol
failed or its timeout passed; and a call looks at the state once and once more for each interval of
its timeout at most, whatever else happens. -/
theorem signature_waits {s₀ s : Polled X} {ls : List (PollLabel X)} (h : (pollMachine X).init s₀)
    (hr : (pollMachine X).run s₀ ls = some s) :
    (∀ i signature, (s.waits i).pc = .returned (some signature) →
      ∀ ms t, (pollMachine X).run s ms = some t →
        t.config.inst.orch.state = .signingCompleted signature ∧
        ∀ j signature', (t.waits j).pc = .returned (some signature') → signature' = signature) ∧
    (∀ i, (s.waits i).pc = .returned none →
      (∃ phase reason, s.config.inst.orch.state = .failed phase reason) ∨ s.timedOut i) ∧
    ∀ i, ls.countP (PollLabel.reads i) ≤ (ls.map (PollLabel.allows i)).sum := by
  have hsound : ∀ ms t, (pollMachine X).run s₀ ms = some t → t.Sound := fun ms t =>
    Machine.run_preserves (fun _ _ _ hs hl => hs.step hl) (.of_init h)
  refine ⟨fun i signature hi ms t ht => ?_, fun i hi => ?_, fun i => ?_⟩
  · have hstate : ∀ u : Polled X, u.Sound → ∀ j signature',
        (u.waits j).pc = .returned (some signature') →
          u.config.inst.orch.state = .signingCompleted signature' := by
      intro u hu j signature' hj
      have ha := hu.answers j
      simpa only [Polled.Answers, hj] using ha
    have hkeep : t.Sound ∧ t.config.inst.orch.state = .signingCompleted signature := by
      refine Machine.run_preserves (I := fun u : Polled X => u.Sound ∧
        u.config.inst.orch.state = .signingCompleted signature) ?_
          ⟨hsound ls s hr, hstate s (hsound ls s hr) i signature hi⟩ ht
      rintro u l v ⟨hu, hst⟩ hl
      refine ⟨hu.step hl, ?_⟩
      rw [← hst]
      exact hu.step_state hl (by simp [Config.stage, hst, ProtocolState.stage, Stage.next])
    refine ⟨hkeep.2, fun j signature' hj => ?_⟩
    have hsame := (hstate t hkeep.1 j signature' hj).symm.trans hkeep.2
    cases hsame
    rfl
  · have ha := (hsound ls s hr).answers i
    simpa only [Polled.Answers, hi] using ha
  · have hzero : (s₀.waits i).looks s₀.now = 0 := by simp [Wait.looks, h.2 i]
    have hle := (Polled.looks_amortised X i).run_count_internal_le (.inl (h.2 i)) hr
    rw [Polled.sum_allows, hzero] at hle
    omega

namespace PollRun

def assignments : HashMap String PartyIndex := .ofEntries [("a", 0), ("b", 1), ("c", 2)]

def start : Polled .plain :=
  ⟨⟨⟨.new "a" ["a", "b", "c"] assignments, []⟩, none⟩, 0, fun _ => ⟨.idle, 0, 0⟩⟩

/-- The first of three parties signs; a call waits for the signature when the signing has begun. -/
def labels : List (PollLabel .plain) :=
  [.orchestrator (.call 0 "a" (.initiateAux [] ["a", "b", "c"] assignments ⟨0⟩)),
    .orchestrator (.finish 0 (.aux (.ok (5 : ℕ)))), .orchestrator (.advance 0),
    .orchestrator (.advance 0), .orchestrator (.call 1 "a" (.initiateKeygen [] 2 3 ⟨0⟩)),
    .orchestrator (.resume 1), .orchestrator (.finish 1 (.keygen (.ok [7]))),
    .orchestrator (.advance 1), .orchestrator (.advance 1),
    .orchestrator (.call 2 "a" (.initiateSigning [] [1] [0, 1] ⟨0⟩)), .orchestrator (.resume 2),
    .orchestrator (.resume 2), .wait 0 60000000000, .check 0, .read 0,
    .orchestrator (.finish 2 (.signing (.ok "sig"))), .orchestrator (.advance 2),
    .tick 100000000, .wake 0, .check 0, .read 0]

end PollRun

/-- A call that begins while the signing goes on, sleeps once, and answers the signature. -/
theorem signature_polled : ∃ s ls, (pollMachine .plain).init s ∧
    ∃ t, (pollMachine .plain).run s ls = some t ∧ (t.waits 0).pc = .returned (some "sig") ∧
      ls.countP (PollLabel.reads 0) = 2 := by
  refine ⟨PollRun.start, PollRun.labels, ⟨⟨_, _, _, rfl⟩, fun _ => rfl⟩, _, rfl, ?_, rfl⟩
  rfl

/-- The signature it answers is in the state for good. -/
theorem signature_polled_stays : ∃ s t, ∃ ls, (pollMachine .plain).init s ∧
    (pollMachine .plain).run s ls = some t ∧
    t.config.inst.orch.state = .signingCompleted "sig" ∧
    2 ≤ (ls.map (PollLabel.allows 0)).sum := by
  obtain ⟨s, ls, h, t, hr, hpc, hcount⟩ := signature_polled
  obtain ⟨hstays, -, hlooks⟩ := signature_waits h hr
  exact ⟨s, t, ls, h, hr, (hstays 0 "sig" hpc [] t rfl).1, hcount ▸ hlooks 0⟩

end P2pMpc
