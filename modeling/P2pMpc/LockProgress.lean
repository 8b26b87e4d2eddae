import Mathlib.Data.Finset.Image
import P2pMpc.InnerLocks
import P2pMpc.Lib.FifoTurn
import P2pMpc.Lib.LockEffort
import P2pMpc.Lib.Progress

/-!
# The calls of an orchestrator return

That no locks are in a cycle does not say that anybody gets anywhere. Here it is shown that every
handler call and every task whose protocol run has returned comes to its end: what they have still
to do (`LockedConfig.remaining`) falls with each of their steps, a call adds nine steps to it, the
return of a protocol run at most six, and a `get_state` or a poll of `wait_for_signature` one; and
as long as something is left, a step is possible that needs no new call, protocol run or poll.
-/

namespace P2pMpc

open StateMachine FifoLock FifoLock.Line

variable {X : Platform}

/-- The locks that a waiting call has still to take. -/
def Pending.left : Pending X → ℕ
  | .keygen .. => 1
  | .signing .. => 2
  | .signingAux .. => 1

/-- The locks that a task has still to take. -/
def Task.left : Task X → ℕ
  | .aux _ _ _ (.returned (.ok _)) => 2
  | .aux _ _ _ (.returned (.error _)) => 1
  | .aux _ _ _ .stored => 1
  | .keygen _ _ _ _ (.returned (.ok _)) => 2
  | .keygen _ _ _ _ (.returned (.error _)) => 1
  | .keygen _ _ _ _ (.published _) => 1
  | .signing _ _ _ _ (.returned _) => 1
  | _ => 0

/-- The protocol run of the task goes on, or the task has ended. -/
def Task.Resting (t : Task X) : Prop := t.left = 0

/-- The step goes on with a call, with the rest of a task, or with a reader that is in line. -/
def InnerLabel.internal : InnerLabel X → Bool
  | .call _ _ _ => false
  | .finish _ _ => false
  | .ask (.reader _) _ => false
  | _ => true

/-- The steps that a step brings in. -/
def InnerLabel.cost : InnerLabel X → ℕ
  | .call _ _ _ => 9
  | .finish _ _ => 6
  | _ => 1

theorem Task.left_pos_iff {t : Task X} : 0 < t.left ↔ t.demand.wants ≠ none := by
  cases t with
  | aux _ _ _ pc =>
    cases pc with
    | returned r => cases r <;> simp [Task.left, Task.demand]
    | running | stored | done => simp [Task.left, Task.demand]
  | keygen _ _ _ _ pc =>
    cases pc with
    | returned r => cases r <;> simp [Task.left, Task.demand]
    | running | published | done => simp [Task.left, Task.demand]
  | signing _ _ _ _ pc => cases pc <;> simp [Task.left, Task.demand]

theorem Task.left_le (t : Task X) : t.left ≤ 2 := by
  unfold Task.left
  split <;> decide

theorem Task.left_of_running {t : Task X} (h : t.spawned = t) : t.left = 0 := by
  cases t <;> cases h <;> rfl

/-- A task that goes on has a lock less to take. -/
theorem Task.advance_left {o o' : MPCOrchestrator X} {t t' : Task X}
    (h : t.advance true true o = some (o', t')) : t'.left < t.left := by
  unfold Task.advance at h
  split at h <;> cases h <;> simp [Task.left]

theorem Pending.left_pos (p : Pending X) : 0 < p.left := by
  cases p <;> simp [Pending.left]

namespace Config

/-- What a call that has made its state write still waits for. -/
theorem call_left {c : Config X} (hp : c.pending = none) (chan : ChannelId) (sender : X.PeerId)
    (msg : CoordinationMessage X) : ∀ p ∈ (c.call chan sender msg).pending, p.left ≤ 2 := by
  rcases c.call_cases hp chan sender msg with ⟨-, he⟩ | ⟨_, _, _, _, _, _, -, -, he⟩ |
      ⟨_, _, _, _, _, _, -, -, he⟩ | ⟨_, _, _, _, _, _, -, -, he⟩ <;> rw [he]
  · simp [hp]
  · simp
  · simp [Pending.left]
  · intro p hpend
    split_ifs at hpend
    · obtain rfl := Option.some.inj hpend
      exact le_rfl
    · cases hpend

/-- A call that goes on has a lock less to take. -/
theorem resume_left {c c' : Config X} {p : Pending X} {chan : ChannelId}
    (hp : c.pending = some p) (h : c.step (.resume chan) = some c') :
    ∀ p' ∈ c'.pending, p'.left < p.left := by
  rcases resume_cases h with ⟨_, -, -, rfl⟩ | ⟨_, _, _, _, _, he, -, rfl⟩ |
      ⟨_, _, _, _, _, -, -, rfl⟩ | ⟨_, _, _, _, _, _, -, -, rfl⟩
  · simp
  · obtain rfl := Option.some.inj (hp.symm.trans he)
    simp [Pending.left]
  · simp
  · simp

end Config

namespace LockedConfig

variable {s t : LockedConfig X} {l : InnerLabel X} {i : ℕ}

/-- The locks that an actor has still to take before it has returned. -/
def left (s : LockedConfig X) : InnerActor → ℕ
  | .handler =>
      match s.entering, s.config.pending with
      | some _, _ => 3
      | none, some p => p.left
      | none, none => 0
  | .task i => s.config.inst.tasks[i]?.elim 0 Task.left
  | .reader _ => 0

/-- The handler and the tasks that have been spawned. -/
def actors (s : LockedConfig X) : Finset InnerActor :=
  insert .handler ((Finset.range s.config.inst.tasks.length).image .task)

/-- What the handler, the tasks and the requests in the lines have before them. -/
def remaining (s : LockedConfig X) : ℕ := FifoLock.remaining s.actors s.left s.demand s.lines

/-- No call is in progress, no task is between its protocol run and its end, and no lock is held or
asked for. -/
structure AtRest (s : LockedConfig X) : Prop where
  entering : s.entering = none
  pending : s.config.pending = none
  tasks : ∀ t ∈ s.config.inst.tasks, t.Resting
  lines : ∀ l, s.lines l = []

theorem mem_actors_task : .task i ∈ s.actors ↔ i < s.config.inst.tasks.length := by
  simp [actors]

theorem reader_notMem_actors : .reader i ∉ s.actors := by simp [actors]

theorem left_task {u : Task X} (hu : s.config.inst.tasks[i]? = some u) :
    s.left (.task i) = u.left := by
  simp [left, hu]

theorem left_handler {p : Pending X} (he : s.entering = none) (hp : s.config.pending = some p) :
    s.left .handler = p.left := by
  simp [left, he, hp]

/-- An actor that needs a lock has one to take. -/
theorem left_pos {a : InnerActor} (ha : a ∈ s.actors) (h : (s.demand a).wants ≠ none) :
    0 < s.left a := by
  cases a with
  | reader i => exact absurd ha reader_notMem_actors
  | handler =>
    rcases s.handler_cases with ⟨he, -⟩ | ⟨p, he, hp, -⟩ | ⟨-, -, hd⟩
    · obtain ⟨m, he⟩ := Option.ne_none_iff_exists'.1 he
      simp [left, he]
    · rw [left_handler he hp]
      exact p.left_pos
    · rw [hd] at h
      exact absurd rfl h
  | task i =>
    rcases s.task_cases i with hd | ⟨u, hu, hd⟩ <;> rw [hd] at h
    · exact absurd rfl h
    · rw [left_task hu]
      exact Task.left_pos_iff.2 h

/-- A handler gives nobody else a lock to take. -/
theorem left_of_tasks {us : List (Task X)}
    (ht : t.config.inst.tasks = s.config.inst.tasks ++ us) (hus : ∀ u ∈ us, u.spawned = u)
    {a : InnerActor} (ha : a ≠ .handler) : t.left a = s.left a := by
  cases a with
  | handler => exact absurd rfl ha
  | reader i => rfl
  | task i =>
    simp only [left, ht]
    rcases Nat.lt_or_ge i s.config.inst.tasks.length with hi | hi
    · rw [List.getElem?_append_left hi]
    · rw [List.getElem?_append_right hi, List.getElem?_eq_none hi]
      cases hu : us[i - s.config.inst.tasks.length]? with
      | none => rfl
      | some u => exact Task.left_of_running (hus u (List.mem_of_getElem? hu))

/-- A task gives nobody else a lock to take. -/
theorem left_of_set {u : Task X} (he : t.entering = s.entering)
    (hp : t.config.pending = s.config.pending)
    (ht : t.config.inst.tasks = s.config.inst.tasks.set i u) {a : InnerActor}
    (ha : a ≠ .task i) : t.left a = s.left a := by
  cases a with
  | handler => simp only [left, he, hp]
  | reader j => rfl
  | task j =>
    have hij : i ≠ j := by
      rintro rfl
      exact ha rfl
    simp only [left, ht, List.getElem?_set_ne hij]

theorem Ready.inLine {a : InnerActor} (h : s.Ready a) : InLine (s.demand a) s.lines a := by
  obtain ⟨l, hw, hl⟩ := h
  exact ⟨l, hw, hl.mem⟩

/-- A handler that goes on has a lock less to take; a task that it spawns has none yet. -/
theorem remaining_handler {us : List (Task X)} (hlines : t.lines = s.lines)
    (ht : t.config.inst.tasks = s.config.inst.tasks ++ us) (hus : ∀ u ∈ us, u.spawned = u)
    (hready : s.Ready .handler) (hlt : t.left .handler < s.left .handler) :
    t.remaining < s.remaining := by
  have hsub : s.actors ⊆ t.actors := by
    refine Finset.insert_subset_insert _ (Finset.image_subset_image ?_)
    refine Finset.range_subset_range.2 ?_
    rw [ht, List.length_append]
    exact Nat.le_add_right _ _
  have hnew : ∀ a ∈ t.actors, a ∉ s.actors → t.left a = 0 := by
    intro a _ ha
    cases a with
    | handler => exact absurd (Finset.mem_insert_self _ _) ha
    | reader i => rfl
    | task i =>
      rw [left_of_tasks ht hus (by simp), left, List.getElem?_eq_none]
      · rfl
      · exact Nat.le_of_not_lt fun hi => ha (mem_actors_task.2 hi)
  rw [remaining, remaining, hlines, remaining_of_subset hsub hnew]
  exact remaining_advance (Finset.mem_insert_self _ _) (fun b hb => demand_of_tasks ht hus hb)
    (fun b hb => left_of_tasks ht hus hb) hready.inLine hlt

/-- A task that moves on is one of the same actors. -/
theorem actors_of_set {u : Task X} (ht : t.config.inst.tasks = s.config.inst.tasks.set i u) :
    t.actors = s.actors := by
  simp [actors, ht]

namespace Sound

/-- Every step of a call, a task or a reader in line lowers what remains, and every other step
raises it by its cost at most. -/
theorem step_pays (h : s.Sound) (hl : s.step l = some t) :
    t.remaining + (if l.internal then 1 else 0) ≤
      s.remaining + if l.internal then 0 else l.cost := by
  cases l with
  | call chan sender msg =>
    obtain ⟨-, -, rfl⟩ := step_call_eq_some.1 hl
    simp only [InnerLabel.internal, InnerLabel.cost, Bool.false_eq_true, if_false, Nat.add_zero]
    split
    · refine remaining_give (k := 3) (Finset.mem_insert_self _ _) (fun b hb => ?_)
        (fun b hb => ?_) le_rfl
      · refine demand_of_tasks ?_ (List.forall_mem_nil _) hb
        exact (List.append_nil _).symm
      · refine left_of_tasks ?_ (List.forall_mem_nil _) hb
        exact (List.append_nil _).symm
    · exact Nat.le_add_right _ _
  | enter =>
    obtain ⟨chan, sender, msg, he, hready, rfl⟩ := step_enter_eq_some.1 hl
    have hp := h.entering (by simp [he])
    obtain ⟨⟨us, htasks, hus⟩, -⟩ := Config.call_tasks hp chan sender msg
    have hleft := Config.call_left hp chan sender msg
    refine remaining_handler rfl htasks hus hready ?_
    cases hp' : (s.config.call chan sender msg).pending with
    | none => simp [left, he, hp']
    | some p =>
      rw [left_handler (by rfl) hp']
      have hle := hleft p hp'
      simp only [left, he]
      omega
  | resume chan =>
    obtain ⟨p, he, hp, hready, rfl⟩ := step_resume_eq_some.1 hl
    have hstep := h.resume_eq hp hready chan
    obtain ⟨⟨us, htasks, hus⟩, -⟩ := Config.resume_tasks hp hstep
    refine remaining_handler rfl htasks hus hready ?_
    rw [left_handler he hp]
    cases hp' : (s.config.resume chan p).pending with
    | none => simpa [left, he, hp'] using p.left_pos
    | some p' =>
      rw [left_handler (by exact he) hp']
      exact Config.resume_left hp hstep p' hp'
  | finish i r =>
    obtain ⟨u, u', hu, -, rfl⟩ := step_finish_eq_some.1 hl
    have hlen := (List.getElem?_eq_some_iff.1 hu).1
    simp only [InnerLabel.internal, InnerLabel.cost, Bool.false_eq_true, if_false, Nat.add_zero]
    rw [remaining, actors_of_set (s := s) (i := i) (u := u') rfl]
    refine remaining_give (k := 2) (mem_actors_task.2 hlen) (fun b hb => ?_) (fun b hb => ?_) ?_
    · refine demand_of_set (u := u') ?_ ?_ ?_ hb <;> rfl
    · refine left_of_set (u := u') ?_ ?_ ?_ hb <;> rfl
    · rw [left_task (u := u') (List.getElem?_set_self hlen)]
      exact u'.left_le
  | advance i =>
    obtain ⟨u, u', o, hu, hready, ha, rfl⟩ := step_advance_eq_some.1 hl
    have hlen := (List.getElem?_eq_some_iff.1 hu).1
    show remaining _ < _
    rw [remaining, actors_of_set (s := s) (i := i) (u := u') rfl]
    refine remaining_advance (mem_actors_task.2 hlen) (fun b hb => ?_) (fun b hb => ?_)
      hready.inLine ?_
    · refine demand_of_set (u := u') ?_ ?_ ?_ hb <;> rfl
    · refine left_of_set (u := u') ?_ ?_ ?_ hb <;> rfl
    · rw [left_task (u := u') (List.getElem?_set_self hlen), left_task hu]
      exact Task.advance_left ha
  | ask a l =>
    obtain ⟨hask, rfl⟩ := step_ask_eq_some.1 hl
    cases a with
    | reader i => exact (remaining_ask_of_notMem reader_notMem_actors).le
    | handler =>
      have hmem : .handler ∈ s.actors := Finset.mem_insert_self _ _
      have hpos := left_pos hmem (by simp [hask.1])
      exact remaining_ask hmem hpos hask
    | task i =>
      have hmem : .task i ∈ s.actors := by
        refine mem_actors_task.2 (Nat.lt_of_not_le fun hi => ?_)
        have hw := hask.1
        simp [demand, List.getElem?_eq_none hi] at hw
      have hpos := left_pos hmem (by simp [hask.1])
      exact remaining_ask hmem hpos hask
  | release a l =>
    obtain ⟨hholds, -, hw, rfl⟩ := step_release_eq_some.1 hl
    exact remaining_release hholds.mem fun _ => hw
  | look i =>
    obtain ⟨hholds, rfl⟩ := step_look_eq_some.1 hl
    exact remaining_release hholds.mem fun ha => absurd ha reader_notMem_actors

end Sound

theorem amortised (X : Platform) :
    Amortised (innerLockMachine X) Sound remaining InnerLabel.internal InnerLabel.cost where
  keeps _ _ _ hs hl := hs.step hl
  pays _ _ _ hs hl := hs.step_pays hl

/-- A holder that waits for no lock can go on by itself. -/
theorem exists_internal {a : InnerActor} {l₀ : InnerLock} (ha : (s.lines l₀).Holds a)
    (hw : ∀ l, ¬ (s.lines l).Waits a) : ∃ l t, l.internal = true ∧ s.step l = some t := by
  have hrelease : (s.demand a).keeps = [] → l₀ ∉ (s.demand a).wants →
      ∃ l t, l.internal = true ∧ s.step l = some t := fun hk hnot =>
    ⟨.release a l₀, _, rfl, step_release_eq_some.2 ⟨ha, by simp [hk], hnot, rfl⟩⟩
  by_cases hreader : ∃ i, a = .reader i
  · obtain ⟨i, rfl⟩ := hreader
    by_cases hl : l₀ = .state
    · subst hl
      exact ⟨.look i, _, rfl, step_look_eq_some.2 ⟨ha, rfl⟩⟩
    · exact hrelease rfl fun hmem => hl (Option.some.inj hmem).symm
  obtain ⟨l, t, hactor, hl⟩ := exists_step ha hw
  cases l with
  | call chan sender msg =>
    -- the handler is in a line, so it is not called
    obtain rfl : InnerActor.handler = a := hactor
    obtain ⟨-, hout, -⟩ := step_call_eq_some.1 hl
    exact absurd ha.mem (hout l₀)
  | finish i r =>
    obtain rfl : InnerActor.task i = a := hactor
    obtain ⟨u, u', hu, hf, -⟩ := step_finish_eq_some.1 hl
    have hd := (demand_task hu).trans (Task.finish_demand hf).1
    exact hrelease (by rw [hd]) (by simp [hd])
  | ask b l =>
    obtain rfl : b = a := hactor
    refine ⟨.ask b l, t, ?_, hl⟩
    cases b with
    | reader i => exact absurd ⟨i, rfl⟩ hreader
    | handler | task => rfl
  | enter | resume | advance | release | look => exact ⟨_, t, rfl, hl⟩

/-- As long as something is left to do, a step is possible that brings nothing in. -/
theorem Sound.exists_internal (h : s.Sound) (hrest : ¬ s.AtRest) :
    ∃ l t, l.internal = true ∧ s.step l = some t := by
  by_cases hlines : ∀ l, s.lines l = []
  · -- nobody is in a line, so who needs a lock can ask for it
    have hask : ∀ a ∈ s.actors, (s.demand a).wants ≠ none →
        ∃ l t, l.internal = true ∧ s.step l = some t := by
      intro a ha hw
      obtain ⟨l, hl⟩ := Option.ne_none_iff_exists'.1 hw
      refine ⟨.ask a l, _, ?_, step_ask_eq_some.2 ⟨⟨hl, by simp [hlines], by simp [hlines]⟩, rfl⟩⟩
      cases a with
      | reader i => exact absurd ha reader_notMem_actors
      | handler | task => rfl
    by_contra hnone
    refine hrest ⟨?_, ?_, fun u hu => ?_, hlines⟩
    · by_contra he
      refine hnone (hask .handler (Finset.mem_insert_self _ _) ?_)
      obtain ⟨m, he⟩ := Option.ne_none_iff_exists'.1 he
      simp [demand, he]
    · by_contra hp
      refine hnone (hask .handler (Finset.mem_insert_self _ _) ?_)
      obtain ⟨p, hp⟩ := Option.ne_none_iff_exists'.1 hp
      rw [h.handler_demand hp]
      cases p <;> simp [Pending.demand]
    · by_contra hleft
      obtain ⟨i, hi⟩ := List.mem_iff_getElem?.1 hu
      have hmem : .task i ∈ s.actors := mem_actors_task.2 (List.getElem?_eq_some_iff.1 hi).1
      refine hnone (hask (.task i) hmem ?_)
      rw [demand_task hi]
      exact Task.left_pos_iff.1 (Nat.pos_of_ne_zero hleft)
  · obtain ⟨l, hl⟩ := not_forall.1 hlines
    obtain ⟨b, l', hholds, hwait⟩ := h.ordered.exists_running_of_ne_nil hl
    exact LockedConfig.exists_internal hholds hwait

end LockedConfig

/-- In every run the steps of the calls, of the tasks and of the readers in line are at most nine
for each call that was made, six for each protocol run that returned, and one for each reader. From
every state that is reached such steps alone lead to one in which all calls have returned, and all
tasks whose protocol run has returned are done; and where none is possible it is one. -/
theorem inner_locks_come_to_rest {s₀ s : LockedConfig X} {ls : List (InnerLabel X)}
    (h : (innerLockMachine X).init s₀) (hr : (innerLockMachine X).run s₀ ls = some s) :
    ls.countP InnerLabel.internal ≤
      ((ls.filter fun l => !l.internal).map InnerLabel.cost).sum ∧
    (∃ ms t, (∀ l ∈ ms, l.internal = true) ∧ (innerLockMachine X).run s ms = some t ∧ t.AtRest) ∧
    ((∀ l, l.internal = true → s.step l = none) → s.AtRest) := by
  have hs₀ := LockedConfig.reachable_sound (.of_init h)
  have hs := LockedConfig.reachable_sound ((Machine.Reachable.of_init h).run hr)
  refine ⟨?_, ?_, fun hnone => ?_⟩
  · have hle := (LockedConfig.amortised X).run_count_internal_le hs₀ hr
    obtain ⟨⟨p, ps, m, hc⟩, he, hlines⟩ := h
    have hzero : s₀.remaining = 0 := by
      simp [LockedConfig.remaining, FifoLock.remaining, LockedConfig.actors, LockedConfig.left,
        hc, he, hlines, effort_of_left_eq_zero]
    omega
  · exact (LockedConfig.amortised X).exists_run_to_rest
      (fun _ hu hrest => hu.exists_internal hrest) hs
  · by_contra hrest
    obtain ⟨l, t, hi, hl⟩ := hs.exists_internal hrest
    rw [hnone l hi] at hl
    cases hl

/-- The handler that waits for the aux info behind the aux task returns. -/
theorem keygen_behind_aux_comes_to_rest : ∃ s : LockedConfig .plain,
    (innerLockMachine .plain).Reachable s ∧ WaitsFor s.lines .handler (.task 0) ∧
      ∃ ms t, (∀ l ∈ ms, l.internal = true) ∧ (innerLockMachine .plain).run s ms = some t ∧
        t.AtRest := by
  obtain ⟨s, ⟨s₀, ls, h0, hr⟩, hwaits, -⟩ := keygen_behind_aux
  exact ⟨s, ⟨s₀, ls, h0, hr⟩, hwaits, (inner_locks_come_to_rest h0 hr).2.1⟩

/-! ### The order at a lock -/

/-- Who lets go of a lock in a step. -/
def InnerLabel.frees (l : InnerLock) : InnerLabel X → Option InnerActor
  | .release a l' => if l' = l then some a else none
  | .look i => if l = .state then some (.reader i) else none
  | _ => none

namespace LockedConfig

/-- A step lets go of the lock that it names, or asks for one that the actor is not in line of. -/
theorem queued (X : Platform) (l₀ : InnerLock) :
    Queued (innerLockMachine X) (fun _ => True) (fun s => s.lines l₀) (InnerLabel.frees l₀) where
  keeps _ _ _ _ _ := trivial
  step s l t _ hl := by
    cases l with
    | call chan sender msg =>
      obtain ⟨-, -, rfl⟩ := step_call_eq_some.1 hl
      refine .inr ⟨rfl, .inl ?_⟩
      show (ite _ _ _ : LockedConfig X).lines l₀ = _
      split <;> rfl
    | enter =>
      obtain ⟨_, _, _, -, -, rfl⟩ := step_enter_eq_some.1 hl
      exact .inr ⟨rfl, .inl rfl⟩
    | resume chan =>
      obtain ⟨_, -, -, -, rfl⟩ := step_resume_eq_some.1 hl
      exact .inr ⟨rfl, .inl rfl⟩
    | finish i r =>
      obtain ⟨_, _, -, -, rfl⟩ := step_finish_eq_some.1 hl
      exact .inr ⟨rfl, .inl rfl⟩
    | advance i =>
      obtain ⟨_, _, _, -, -, -, rfl⟩ := step_advance_eq_some.1 hl
      exact .inr ⟨rfl, .inl rfl⟩
    | ask a l =>
      obtain ⟨hask, rfl⟩ := step_ask_eq_some.1 hl
      refine .inr ⟨rfl, ?_⟩
      rcases eq_or_ne l₀ l with rfl | hne
      · exact .inr ⟨a, a.mode l₀, hask.2.1, Function.update_self ..⟩
      · exact .inl (Function.update_of_ne hne ..)
    | release a l =>
      obtain ⟨hholds, -, -, rfl⟩ := step_release_eq_some.1 hl
      rcases eq_or_ne l₀ l with rfl | hne
      · exact .inl ⟨a, if_pos rfl, hholds, Function.update_self ..⟩
      · exact .inr ⟨if_neg hne.symm, .inl (Function.update_of_ne hne ..)⟩
    | look i =>
      obtain ⟨hholds, rfl⟩ := step_look_eq_some.1 hl
      rcases eq_or_ne l₀ .state with rfl | hne
      · exact .inl ⟨.reader i, rfl, hholds, Function.update_self InnerLock.state _ s.lines⟩
      · exact .inr ⟨if_neg hne, .inl (Function.update_of_ne hne ..)⟩

end LockedConfig

/-- Whoever has asked for a cell of an installed orchestrator, the handler, a task or a reader of
the state, gets it by the steps alone of those that have been called or have returned, after at most
as many have let go of that cell as were in front; and in no run have that many done so while it
still waits. -/
theorem inner_locks_in_turn {s : LockedConfig X} (h : (innerLockMachine X).Reachable s)
    (l₀ : InnerLock) {a : InnerActor} (ha : a ∈ (s.lines l₀).map Prod.fst) :
    (∃ ms t, (∀ l ∈ ms, l.internal = true) ∧ (innerLockMachine X).run s ms = some t ∧
      (t.lines l₀).Holds a ∧
      ms.countP (fun l => (l.frees l₀).isSome) ≤ (s.lines l₀).ahead a) ∧
    ∀ ms t, (innerLockMachine X).run s ms = some t → (∀ l ∈ ms, l.frees l₀ ≠ some a) →
      (t.lines l₀).Waits a →
        ms.countP (fun l => (l.frees l₀).isSome) < (s.lines l₀).ahead a := by
  constructor
  · obtain ⟨ms, t, hms, hr, hrest⟩ := (LockedConfig.amortised X).exists_run_to_rest
      (fun _ hu hrest => hu.exists_internal hrest) (LockedConfig.reachable_sound h)
    have hout : a ∉ (t.lines l₀).map Prod.fst := by simp [hrest.lines]
    obtain ⟨pre, post, u, rfl, hpre, hholds, hle⟩ :=
      (LockedConfig.queued X l₀).exists_holds trivial hr ha hout
    exact ⟨pre, u, fun l hl => hms l (List.mem_append_left _ hl), hpre, hholds, hle⟩
  · intro ms t hr hstays hwaits
    obtain ⟨-, hle⟩ := (LockedConfig.queued X l₀).count_frees_le trivial hr ha hstays hwaits
    have hpos := hwaits.ahead_pos
    omega

/-- The handler that waits for the aux info gets it as soon as the aux task has let go of it. -/
theorem keygen_behind_aux_in_turn : ∃ s : LockedConfig .plain,
    (innerLockMachine .plain).Reachable s ∧ WaitsFor s.lines .handler (.task 0) ∧
      ∃ l₀ ms t, (∀ l ∈ ms, l.internal = true) ∧ (innerLockMachine .plain).run s ms = some t ∧
        (t.lines l₀).Holds .handler := by
  obtain ⟨s, hs, hwaits, -⟩ := keygen_behind_aux
  obtain ⟨l₀, hw, hb⟩ := hwaits
  obtain ⟨ms, t, hms, hr, hholds, -⟩ := (inner_locks_in_turn hs l₀ hw.1).1
  exact ⟨s, hs, ⟨l₀, hw, hb⟩, l₀, ms, t, hms, hr, hholds⟩

end P2pMpc
