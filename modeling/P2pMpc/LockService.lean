import P2pMpc.Lib.FifoTurn
import P2pMpc.Lib.LockEffort
import P2pMpc.Lib.Progress
import P2pMpc.SigningWait

/-!
# Every message and every call gets the node's lock

A call that waits for its signature keeps the event loop off the orchestrator, but not for ever:
its wait ends with its timeout at the latest. So with each step what the event loop and the calls
have before them (`LockedNode.left`) gets less, a message adds one step to it and a call three, and
as long as something is left somebody can go on. And nobody is overtaken: the lock is let go of by
those alone that had asked for it before.
-/

namespace P2pMpc

open StateMachine FifoLock FifoLock.Line

variable {X : Platform}

/-- The steps that a call has before it. -/
def CallPc.left : CallPc → ℕ
  | .idle => 0
  | .entering _ => 3
  | .dropped => 2
  | .waiting => 1

theorem InitiateCall.left_after_le (c : InitiateCall) (r : RpcReply X) : (c.after r).left ≤ 2 := by
  unfold InitiateCall.after
  split <;> simp [CallPc.left]

/-- The step goes on with a message that has been taken, or with a call that has been made. -/
def LockLabel.internal : LockLabel X → Bool
  | .handle => true
  | .enter _ => true
  | .await _ => true
  | .leave _ _ => true
  | _ => false

/-- The steps that a step brings in. -/
def LockLabel.cost : LockLabel X → ℕ
  | .take _ _ _ _ => 1
  | .call _ _ => 3
  | _ => 0

/-- Who lets go of the lock in a step. -/
def LockLabel.frees : LockLabel X → Option Actor
  | .handle => some .loop
  | .enter i => some (.call i)
  | .leave i _ => some (.call i)
  | _ => none

namespace LockedNode

variable {s t : LockedNode X} {l : LockLabel X} {i : ℕ}

/-- The steps that the event loop and the calls have before them. -/
noncomputable def left (s : LockedNode X) : ℕ :=
  (if s.loop.isSome then 1 else 0) + ∑ᶠ i, (s.calls i).left

/-- The event loop has nothing to do under the lock, all calls have returned, and nobody has the
lock or asks for it. -/
structure AtRest (s : LockedNode X) : Prop where
  loop : s.loop = none
  calls : ∀ i, s.calls i = .idle
  line : s.line = []

/-- The line holds the requests of the event loop and of finitely many calls. -/
structure Sound (s : LockedNode X) : Prop where
  coherent : s.Coherent
  finite : (fun i => (s.calls i).left).support.Finite

/-- A call that is at another place changes what is left by the difference. -/
theorem left_of_update {pc : CallPc} (hs : s.Sound) (hloop : t.loop = s.loop)
    (hcalls : t.calls = Function.update s.calls i pc) :
    t.left + (s.calls i).left = s.left + pc.left := by
  have hsum := finsum_add_eq_of_eq_off (i := i) (f := fun j => (t.calls j).left) hs.finite
    (fun j hj => by simp [hcalls, hj])
  simp only [hcalls, Function.update_self] at hsum
  simp only [left, hloop, hcalls]
  omega

theorem finite_of_update {pc : CallPc} (hs : s.Sound)
    (hcalls : t.calls = Function.update s.calls i pc) :
    (fun j => (t.calls j).left).support.Finite := by
  refine (hs.finite.insert i).subset fun j hj => ?_
  rcases eq_or_ne j i with rfl | hji
  · exact Set.mem_insert _ _
  · refine Set.mem_insert_of_mem _ ?_
    simpa [hcalls, hji] using hj

/-- What a step does to the calls and to the work of the event loop, and what it pays. -/
theorem step_calls (h : s.step l = some t) :
    (l.internal = false ∧ t.calls = s.calls ∧
      (t.loop = s.loop ∨ s.loop = none ∧ l.cost = 1)) ∨
    (l.internal = true ∧ t.calls = s.calls ∧ s.loop.isSome = true ∧ t.loop = none) ∨
    ∃ i pc, t.loop = s.loop ∧ t.calls = Function.update s.calls i pc ∧
      pc.left + (if l.internal then 1 else 0) ≤
        (s.calls i).left + if l.internal then 0 else l.cost := by
  cases l with
  | take source published now g =>
    cases hloop : s.loop with
    | some w => simp [step, hloop] at h
    | none =>
      simp only [step, hloop] at h
      generalize s.node.takeMessage source published now g = r at h
      obtain ⟨n, w⟩ := r
      cases w <;> obtain rfl := Option.some.inj h
      · exact .inl ⟨rfl, rfl, .inl rfl⟩
      · exact .inl ⟨rfl, rfl, .inr ⟨rfl, rfl⟩⟩
  | handle =>
    cases hloop : s.loop with
    | none => simp [step, hloop] at h
    | some w =>
      simp only [step, hloop] at h
      obtain ⟨-, h⟩ := Option.ite_none_right_eq_some.1 h
      obtain rfl := Option.some.inj h
      exact .inr (.inl ⟨rfl, rfl, rfl, rfl⟩)
  | act a =>
    obtain ⟨-, h⟩ := Option.ite_none_right_eq_some.1 h
    obtain ⟨r, -, rfl⟩ := Option.map_eq_some_iff.1 h
    exact .inl ⟨rfl, rfl, .inl rfl⟩
  | call i c =>
    cases hpc : s.calls i with
    | idle =>
      simp only [step, hpc] at h
      obtain rfl := Option.some.inj h
      exact .inr (.inr ⟨i, .entering c, rfl, rfl, Nat.le_add_left _ _⟩)
    | entering | dropped | waiting => simp [step, hpc] at h
  | enter i =>
    cases hpc : s.calls i with
    | entering c =>
      simp only [step, hpc] at h
      obtain ⟨-, h⟩ := Option.ite_none_right_eq_some.1 h
      obtain rfl := Option.some.inj h
      refine .inr (.inr ⟨i, _, rfl, rfl, ?_⟩)
      rw [hpc]
      exact Nat.succ_le_succ (c.left_after_le _)
    | idle | dropped | waiting => simp [step, hpc] at h
  | await i =>
    cases hpc : s.calls i with
    | dropped =>
      simp only [step, hpc] at h
      obtain rfl := Option.some.inj h
      exact .inr (.inr ⟨i, .waiting, rfl, rfl, by simp [hpc, CallPc.left, LockLabel.internal]⟩)
    | idle | entering | waiting => simp [step, hpc] at h
  | leave i timedOut =>
    cases hpc : s.calls i with
    | waiting =>
      simp only [step, hpc] at h
      obtain ⟨-, h⟩ := Option.ite_none_right_eq_some.1 h
      obtain rfl := Option.some.inj h
      exact .inr (.inr ⟨i, .idle, rfl, rfl, by simp [hpc, CallPc.left, LockLabel.internal]⟩)
    | idle | entering | dropped => simp [step, hpc] at h

namespace Sound

theorem of_init (h : (lockMachine X).init s) : s.Sound := by
  refine ⟨.of_init h, ?_⟩
  obtain ⟨id, rfl⟩ := h
  simp [LockedNode.new, CallPc.left]

theorem step (hs : s.Sound) (h : s.step l = some t) : t.Sound := by
  refine ⟨hs.coherent.step h, ?_⟩
  rcases step_calls h with ⟨-, hcalls, -⟩ | ⟨-, hcalls, -⟩ | ⟨i, pc, -, hcalls, -⟩
  · exact hcalls ▸ hs.finite
  · exact hcalls ▸ hs.finite
  · exact finite_of_update hs hcalls

/-- Every step of the event loop or a call that goes on lowers what is left, and every other step
raises it by its cost at most. -/
theorem step_pays (hs : s.Sound) (h : s.step l = some t) :
    t.left + (if l.internal then 1 else 0) ≤ s.left + if l.internal then 0 else l.cost := by
  rcases step_calls h with ⟨hi, hcalls, hloop⟩ | ⟨hi, hcalls, hsome, hnone⟩ |
      ⟨i, pc, hloop, hcalls, hpays⟩
  · simp only [left, hcalls, hi, Bool.false_eq_true, if_false]
    rcases hloop with hloop | ⟨hloop, hcost⟩
    · rw [hloop]
      exact Nat.le_add_right _ _
    · rw [hloop, hcost]
      split
      · simp [Nat.add_comm]
      · simp
  · simp only [left, hcalls, hi, hsome, hnone, if_true, Option.isSome_none, Bool.false_eq_true,
      if_false]
    omega
  · have hleft := left_of_update hs hloop hcalls
    omega

/-- As long as something is left to do, a step is possible that brings nothing in. -/
theorem exists_internal (hs : s.Sound) (hrest : ¬ s.AtRest) :
    ∃ l, l.internal = true ∧ (s.step l).isSome = true := by
  by_cases hline : s.line = []
  · -- nobody has asked for the lock, so only a call that has dropped it is left
    have hmode : ∀ a, s.requested a = none := by
      intro a
      refine Option.eq_none_iff_forall_ne_some.2 fun m hm => ?_
      have hmem := (hs.coherent.mem_iff a m).2 hm
      rw [hline] at hmem
      cases hmem
    have hloop : s.loop = none := Option.map_eq_none_iff.1 (hmode .loop)
    by_cases hidle : ∀ i, s.calls i = .idle
    · exact absurd ⟨hloop, hidle, hline⟩ hrest
    · obtain ⟨i, hi⟩ := not_forall.1 hidle
      have hdropped : s.calls i = .dropped := by
        have hnone : (s.calls i).mode = none := hmode (.call i)
        cases hpc : s.calls i with
        | idle => exact absurd hpc hi
        | dropped => rfl
        | entering | waiting => simp [hpc, CallPc.mode] at hnone
      exact ⟨.await i, rfl, by simp [LockedNode.step, hdropped]⟩
  · obtain ⟨a, ha⟩ := Line.exists_holds hline
    obtain ⟨⟨b, m⟩, hmem, rfl⟩ := List.mem_map.1 ha.mem
    have hreq := (hs.coherent.mem_iff b m).1 hmem
    cases b with
    | loop =>
      obtain ⟨w, hw, -⟩ := Option.map_eq_some_iff.1 hreq
      exact ⟨.handle, rfl, by simp [LockedNode.step, hw, if_pos ha]⟩
    | call i =>
      have hmode : (s.calls i).mode = some m := hreq
      cases hpc : s.calls i with
      | entering c =>
        exact ⟨.enter i, rfl, by simp [LockedNode.step, hpc, if_pos ha]⟩
      | waiting =>
        exact ⟨.leave i true, rfl, by simp [LockedNode.step, hpc, if_pos ha]⟩
      | idle | dropped => simp [hpc, CallPc.mode] at hmode

end Sound

theorem amortised (X : Platform) :
    Amortised (lockMachine X) Sound left LockLabel.internal LockLabel.cost where
  keeps _ _ _ hs h := hs.step h
  pays _ _ _ hs h := hs.step_pays h

theorem left_of_init (h : (lockMachine X).init s) : s.left = 0 := by
  obtain ⟨id, rfl⟩ := h
  simp [left, LockedNode.new, CallPc.left]

/-- Who is named lets go of the lock, and nobody else does. -/
theorem step_frees (h : s.step l = some t) :
    (∃ a, l.frees = some a ∧ s.line.Holds a ∧ t.line = s.line.release a) ∨
      l.frees = none ∧ (t.line = s.line ∨ ∃ a m, s.requested a = none ∧
        t.line = s.line.request a m) := by
  cases l with
  | handle =>
    cases hloop : s.loop with
    | none => simp [step, hloop] at h
    | some w =>
      simp only [step, hloop] at h
      obtain ⟨hholds, h⟩ := Option.ite_none_right_eq_some.1 h
      obtain rfl := Option.some.inj h
      exact .inl ⟨.loop, rfl, hholds, rfl⟩
  | enter i =>
    cases hpc : s.calls i with
    | entering c =>
      simp only [step, hpc] at h
      obtain ⟨hholds, h⟩ := Option.ite_none_right_eq_some.1 h
      obtain rfl := Option.some.inj h
      exact .inl ⟨.call i, rfl, hholds, rfl⟩
    | idle | dropped | waiting => simp [step, hpc] at h
  | leave i timedOut =>
    cases hpc : s.calls i with
    | waiting =>
      simp only [step, hpc] at h
      obtain ⟨⟨hholds, -⟩, h⟩ := Option.ite_none_right_eq_some.1 h
      obtain rfl := Option.some.inj h
      exact .inl ⟨.call i, rfl, hholds, rfl⟩
    | idle | entering | dropped => simp [step, hpc] at h
  | take source published now g =>
    cases hloop : s.loop with
    | some w => simp [step, hloop] at h
    | none =>
      simp only [step, hloop] at h
      generalize s.node.takeMessage source published now g = r at h
      obtain ⟨n, w⟩ := r
      cases w <;> obtain rfl := Option.some.inj h
      · exact .inr ⟨rfl, .inl rfl⟩
      · exact .inr ⟨rfl, .inr ⟨.loop, _, by simp [requested, hloop], rfl⟩⟩
  | act a =>
    obtain ⟨-, h⟩ := Option.ite_none_right_eq_some.1 h
    obtain ⟨r, -, rfl⟩ := Option.map_eq_some_iff.1 h
    exact .inr ⟨rfl, .inl rfl⟩
  | call | await =>
    rcases step_line h with ⟨hnone, -, -⟩ | ⟨a, m, -, hreq, hline, -⟩ | ⟨a, hnone, -⟩
    · cases hnone
    · exact .inr ⟨rfl, .inr ⟨a, m, hreq, hline⟩⟩
    · cases hnone

/-- A step takes the request of the actor out of the line that it names, or adds one. -/
theorem queued (X : Platform) : Queued (lockMachine X) Coherent line LockLabel.frees where
  keeps _ _ _ hs h := hs.step h
  step s l t hs h := by
    rcases step_frees h with hfrees | ⟨hnone, hline | ⟨a, m, hreq, hline⟩⟩
    · exact .inl hfrees
    · exact .inr ⟨hnone, .inl hline⟩
    · exact .inr ⟨hnone, .inr ⟨a, m, hs.notMem hreq, hline⟩⟩

end LockedNode

/-- In every run the steps of the event loop under the lock and of the calls are at most one for
each message that was taken and three for each call that was made. From every state that is reached
such steps alone lead to one in which the message is handled and all calls have returned, and where
none is possible it is one. And whoever asks for the lock holds it once as many have let go of it
as were in front: while it still waits there were fewer. -/
theorem node_lock_serves {s₀ s : LockedNode X} {ls : List (LockLabel X)}
    (h : (lockMachine X).init s₀) (hr : (lockMachine X).run s₀ ls = some s) :
    ls.countP LockLabel.internal ≤
      ((ls.filter fun l => !l.internal).map LockLabel.cost).sum ∧
    (∃ ms t, (∀ l ∈ ms, l.internal = true) ∧ (lockMachine X).run s ms = some t ∧ t.AtRest) ∧
    ((∀ l, l.internal = true → s.step l = none) → s.AtRest) ∧
    ∀ a ms t, a ∈ s.line.map Prod.fst → (lockMachine X).run s ms = some t →
      (∀ l ∈ ms, l.frees ≠ some a) → t.line.Waits a →
        ms.countP (fun l => l.frees.isSome) < s.line.ahead a := by
  have hs₀ := LockedNode.Sound.of_init h
  have hs : s.Sound := Machine.run_preserves (fun _ _ _ hu hl => hu.step hl) hs₀ hr
  have hstep : ∀ u : LockedNode X, u.Sound → ¬ u.AtRest →
      ∃ l t, l.internal = true ∧ u.step l = some t := by
    intro u hu hrest
    obtain ⟨l, hi, hsome⟩ := hu.exists_internal hrest
    obtain ⟨t, ht⟩ := Option.isSome_iff_exists.1 hsome
    exact ⟨l, t, hi, ht⟩
  refine ⟨?_, (LockedNode.amortised X).exists_run_to_rest hstep hs, fun hnone => ?_, ?_⟩
  · have hle := (LockedNode.amortised X).run_count_internal_le hs₀ hr
    rw [LockedNode.left_of_init h] at hle
    omega
  · by_contra hrest
    obtain ⟨l, t, hi, hl⟩ := hstep s hs hrest
    rw [hnone l hi] at hl
    cases hl
  · intro a ms t ha hms hstays hwaits
    obtain ⟨-, hle⟩ := (LockedNode.queued X).count_frees_le hs.coherent hms ha hstays hwaits
    have hpos := hwaits.ahead_pos
    omega

/-- The message that comes during the wait for a signature is handled as soon as that call has
returned: nobody else gets the lock before. -/
theorem coordination_message_served : ∃ s : LockedNode .plain,
    (lockMachine .plain).run (.new "b") (WaitRun.request :: (WaitRun.work ++
      [WaitRun.coordination])) = some s ∧ s.line.Waits .loop ∧
    (∃ ms t, (∀ l ∈ ms, l.internal = true) ∧ (lockMachine .plain).run s ms = some t ∧
      t.AtRest) ∧
    ∀ ms t, (lockMachine .plain).run s ms = some t → (∀ l ∈ ms, l.frees ≠ some .loop) →
      t.line.Waits .loop → ms.countP (fun l => l.frees.isSome) < 1 := by
  have hrun : ∃ s : LockedNode .plain, (lockMachine .plain).run (.new "b") (WaitRun.request ::
      (WaitRun.work ++ [WaitRun.coordination])) = some s ∧ s.line.Waits .loop ∧
        s.line.ahead .loop = 1 := ⟨_, rfl, by decide, by decide⟩
  obtain ⟨s, hr, hwaits, hahead⟩ := hrun
  obtain ⟨-, hrest, -, hturn⟩ := node_lock_serves (X := .plain) ⟨"b", rfl⟩ hr
  refine ⟨s, hr, hwaits, hrest, fun ms t hms hstays hlast => ?_⟩
  exact hahead ▸ hturn .loop ms t hwaits.1 hms hstays hlast

end P2pMpc
