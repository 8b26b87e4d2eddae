import Mathlib.Data.Finset.Insert
import P2pMpc.Lib.WaitFor
import P2pMpc.PhaseMonotone

/-!
# The locks inside an orchestrator

The protocol state, the aux info and the key share of an orchestrator each have a tokio `RwLock`.
Here the acquisition and the release of each of them is a step of its own, of the handler call in
progress, of the tasks, and of the callers of `get_state` and `wait_for_signature`. What happens
under the locks is what `Config` says, and a run of this machine is one of `orchestratorMachine` in
which the lines of the locks have been made visible (`LockedConfig.reachable_config`).

The keygen and signing handlers take the aux info under the lock of the state, and the aux task
takes the state under the lock of the aux info. The orders are opposite, but while an aux task holds
the aux info no handler is past its check of the state (`Config.Shaped.of_storing`), and so nobody
else needs the aux info.
-/

namespace P2pMpc

open StateMachine FifoLock FifoLock.Line

variable {X : Platform}

inductive InnerLock
  | state
  | auxInfo
  | keyShare
  deriving DecidableEq

instance : Fintype InnerLock where
  elems := {.state, .auxInfo, .keyShare}
  complete l := by cases l <;> decide

/-- The handler call in progress, the tasks by the order they were spawned in, and the callers of
`get_state` and `wait_for_signature`. -/
inductive InnerActor
  | handler
  | task (i : ℕ)
  | reader (i : ℕ)
  deriving DecidableEq

/-- `read()` or `write()`. -/
def InnerActor.mode : InnerActor → InnerLock → Mode
  | .handler, .state => .write
  | .handler, _ => .read
  | .task _, _ => .write
  | .reader _, _ => .read

/-! ### What the actors hold and need -/

/-- A handler call that waits for a cell keeps the guards it has taken until it returns. -/
def Pending.demand : Pending X → Demand InnerLock
  | .keygen .. => ⟨[.state], some .auxInfo⟩
  | .signing .. => ⟨[.state], some .auxInfo⟩
  | .signingAux .. => ⟨[.state, .auxInfo], some .keyShare⟩

/-- The aux task keeps the guard of the aux info until it has written the state; the keygen task
drops that of the state before it takes the key share. -/
def Task.demand : Task X → Demand InnerLock
  | .aux _ _ _ (.returned (.ok _)) => ⟨[], some .auxInfo⟩
  | .aux _ _ _ (.returned (.error _)) => ⟨[], some .state⟩
  | .aux _ _ _ .stored => ⟨[.auxInfo], some .state⟩
  | .keygen _ _ _ _ (.returned _) => ⟨[], some .state⟩
  | .keygen _ _ _ _ (.published _) => ⟨[], some .keyShare⟩
  | .signing _ _ _ _ (.returned _) => ⟨[], some .state⟩
  | _ => ⟨[], none⟩

/-- The message is for a handler that takes the lock of the state, once it has its timestamp. -/
def CoordinationMessage.locksState : CoordinationMessage X → Bool
  | .initiateAux _ _ _ timestamp => timestamp.secsSinceEpoch.isSome
  | .initiateKeygen _ _ _ timestamp => timestamp.secsSinceEpoch.isSome
  | .initiateSigning _ _ _ timestamp => timestamp.secsSinceEpoch.isSome
  | _ => false

/-- An orchestrator, the handler call that is about to check the state, and the lines of the
locks. -/
structure LockedConfig (X : Platform) where
  config : Config X
  entering : Option (ChannelId × X.PeerId × CoordinationMessage X)
  lines : InnerLock → Line InnerActor

/-- The steps: a handler is called, checks and writes the state, or goes on with the next cell; a
protocol run returns, or its task goes on with the next cell; an actor asks for the lock it needs,
or lets go of one it is done with; and a reader reads the state. -/
inductive InnerLabel (X : Platform)
  | call (chan : ChannelId) (sender : X.PeerId) (msg : CoordinationMessage X)
  | enter
  | resume (chan : ChannelId)
  | finish (task : ℕ) (r : Outcome X)
  | advance (task : ℕ)
  | ask (a : InnerActor) (l : InnerLock)
  | release (a : InnerActor) (l : InnerLock)
  | look (reader : ℕ)

/-- The actor that takes the step. -/
def InnerLabel.actor : InnerLabel X → InnerActor
  | .call _ _ _ => .handler
  | .enter => .handler
  | .resume _ => .handler
  | .finish i _ => .task i
  | .advance i => .task i
  | .ask a _ => a
  | .release a _ => a
  | .look i => .reader i

namespace LockedConfig

/-- What an actor holds and needs where it stands. A reader drops its guard at once. -/
def demand (s : LockedConfig X) : InnerActor → Demand InnerLock
  | .handler =>
      match s.entering, s.config.pending with
      | some _, _ => ⟨[], some .state⟩
      | none, some p => p.demand
      | none, none => ⟨[], none⟩
  | .task i => s.config.inst.tasks[i]?.elim ⟨[], none⟩ Task.demand
  | .reader _ => ⟨[], some .state⟩

/-- The actor holds the lock it needs. -/
def Ready (s : LockedConfig X) (a : InnerActor) : Prop :=
  ∃ l ∈ (s.demand a).wants, (s.lines l).Holds a

instance (s : LockedConfig X) (a : InnerActor) : Decidable (s.Ready a) :=
  inferInstanceAs (Decidable (∃ l ∈ (s.demand a).wants, _))

/-- The state in which an actor has left the line of a lock. -/
def released (s : LockedConfig X) (a : InnerActor) (l : InnerLock) : LockedConfig X :=
  { s with lines := Function.update s.lines l ((s.lines l).release a) }

/-- One step. -/
def step (s : LockedConfig X) : InnerLabel X → Option (LockedConfig X)
  | .call chan sender msg =>
      -- the call before has returned, and its guards are dropped
      if (s.demand .handler).wants = none ∧ ∀ l, .handler ∉ (s.lines l).map Prod.fst then
        some (if msg.locksState then { s with entering := some (chan, sender, msg) } else s)
      else none
  | .enter =>
      match s.entering with
      | none => none
      | some (chan, sender, msg) =>
        if s.Ready .handler then
          some { s with config := s.config.call chan sender msg, entering := none }
        else none
  | .resume chan =>
      match s.entering, s.config.pending with
      | none, some p =>
        if s.Ready .handler then some { s with config := s.config.resume chan p } else none
      | _, _ => none
  | .finish i r => (s.config.step (.finish i r)).map fun c => { s with config := c }
  | .advance i =>
      if s.Ready (.task i) then
        (s.config.inst.tasks[i]?.bind (Task.advance true true s.config.inst.orch)).map
          fun (o, t) => { s with config.inst := ⟨o, s.config.inst.tasks.set i t⟩ }
      else none
  | .ask a l =>
      if MayAsk (s.demand a) s.lines a l then
        some { s with lines := Function.update s.lines l ((s.lines l).request a (a.mode l)) }
      else none
  | .release a l =>
      if (s.lines l).Holds a ∧ l ∉ (s.demand a).keeps ∧ l ∉ (s.demand a).wants then
        some (s.released a l)
      else none
  | .look i =>
      if (s.lines .state).Holds (.reader i) then some (s.released (.reader i) .state) else none

end LockedConfig

/-- An orchestrator with its inner locks, from its construction on. -/
def innerLockMachine (X : Platform) : Machine (LockedConfig X) (InnerLabel X) where
  init s := (orchestratorMachine X).init s.config ∧ s.entering = none ∧ s.lines = fun _ => []
  step := LockedConfig.step

/-! ### What going on does to the demands -/

theorem Task.demand_of_running {t : Task X} (h : t.spawned = t) : t.demand = ⟨[], none⟩ := by
  cases t <;> cases h <;> rfl

theorem Task.finish_demand {r : Outcome X} {t t' : Task X} (h : t.finish r = some t') :
    t.demand = ⟨[], none⟩ ∧ t'.demand.keeps = [] := by
  unfold Task.finish at h
  split at h <;> cases h
  · next r _ _ _ => cases r <;> exact ⟨rfl, rfl⟩
  · exact ⟨rfl, rfl⟩
  · exact ⟨rfl, rfl⟩

/-- A task that goes on keeps what it kept, the lock it needed, or less. -/
theorem Task.advance_demand {o o' : MPCOrchestrator X} {t t' : Task X}
    (h : t.advance true true o = some (o', t')) :
    ∀ l ∈ t'.demand.keeps, l ∈ t.demand.keeps ∨ l ∈ t.demand.wants := by
  unfold Task.advance at h
  split at h <;> cases h <;> simp [Task.demand]

/-- A task that holds the lock it needs does not look at the locks of others. -/
theorem Task.advance_of_free {stateFree auxFree : Bool} {t : Task X} (o : MPCOrchestrator X)
    (hs : t.demand.wants = some .state → stateFree = true)
    (ha : t.demand.wants = some .auxInfo → auxFree = true) :
    t.advance stateFree auxFree o = t.advance true true o := by
  unfold Task.advance
  split <;> first | rfl | rw [hs rfl] | rw [ha rfl]

theorem Task.exists_advance {t : Task X} (h : t.demand.wants ≠ none) (o : MPCOrchestrator X) :
    ∃ o' t', t.advance true true o = some (o', t') := by
  cases t with
  | aux _ _ _ pc =>
    cases pc with
    | returned r => cases r <;> exact ⟨_, _, rfl⟩
    | stored => exact ⟨_, _, rfl⟩
    | running | done => exact absurd rfl h
  | keygen _ _ _ _ pc =>
    cases pc with
    | returned r => cases r <;> exact ⟨_, _, rfl⟩
    | published share => exact ⟨_, _, rfl⟩
    | running | done => exact absurd rfl h
  | signing _ _ _ _ pc =>
    cases pc with
    | returned r => cases r <;> exact ⟨_, _, rfl⟩
    | running | done => exact absurd rfl h

theorem Task.demand_of_storing {t : Task X} (h : t.storing = true) :
    t.demand = ⟨[.auxInfo], some .state⟩ := by
  unfold Task.storing at h
  split at h
  · rfl
  · cases h

theorem Task.storing_of_keeps {t : Task X} {l : InnerLock} (h : l ∈ t.demand.keeps) :
    t.storing = true ∧ l = .auxInfo := by
  unfold Task.demand at h
  split at h <;> simp at h
  exact ⟨rfl, h⟩

theorem Pending.state_mem_keeps (p : Pending X) : .state ∈ p.demand.keeps := by
  cases p <;> simp [Pending.demand]

/-- While a task stands between its two cells, it is the only one, and no handler is past its check
of the state. -/
theorem Config.Shaped.of_storing {c : Config X} (h : c.Shaped) {t : Task X}
    (ht : t ∈ c.inst.tasks) (hs : t.storing = true) :
    c.pending = none ∧ ∀ t' ∈ c.inst.tasks, t' = t := by
  obtain ⟨⟨⟨st, ps, pa, lp, tx₁, tx₂, tx₃, a, k⟩, tasks⟩, pend⟩ := c
  simp only [Config.Shaped] at h ht ⊢
  cases h with
  | auxStored =>
    obtain rfl := List.mem_singleton.1 ht
    exact ⟨rfl, fun t' ht' => List.mem_singleton.1 ht'⟩
  | auxActive q e p n ts pc hpc =>
    obtain rfl := List.mem_singleton.1 ht
    rcases hpc with rfl | ⟨r, rfl⟩ <;> cases hs
  | idle | keygenStuck | keygenDoomed | signingStuck | signingDoomed => cases ht
  | auxCompleted | auxFailed | keygenEntered =>
    obtain rfl := List.mem_singleton.1 ht
    cases hs
  | keygenActive | keygenFailed | keygenCompleted | signingEntered =>
    simp only [List.mem_cons, List.not_mem_nil, or_false] at ht
    rcases ht with rfl | rfl <;> cases hs
  | signingActive | signingCompleted | signingFailed =>
    simp only [List.mem_cons, List.not_mem_nil, or_false] at ht
    rcases ht with rfl | rfl | rfl <;> cases hs

/-! ### What a step is -/

namespace LockedConfig

variable {s t : LockedConfig X} {l : InnerLabel X} {i : ℕ} {chan : ChannelId}

theorem step_call_eq_some {sender : X.PeerId} {msg : CoordinationMessage X} :
    s.step (.call chan sender msg) = some t ↔
      (s.demand .handler).wants = none ∧ (∀ l, .handler ∉ (s.lines l).map Prod.fst) ∧
        t = if msg.locksState then { s with entering := some (chan, sender, msg) } else s := by
  rw [step, Option.ite_none_right_eq_some, Option.some.injEq, and_assoc, eq_comm (a := t)]

theorem step_enter_eq_some : s.step .enter = some t ↔
    ∃ chan sender msg, s.entering = some (chan, sender, msg) ∧ s.Ready .handler ∧
      t = { s with config := s.config.call chan sender msg, entering := none } := by
  cases he : s.entering with
  | none => simp [step, he]
  | some m => simp [step, he, eq_comm (a := t), Prod.ext_iff]

theorem step_resume_eq_some : s.step (.resume chan) = some t ↔
    ∃ p, s.entering = none ∧ s.config.pending = some p ∧ s.Ready .handler ∧
      t = { s with config := s.config.resume chan p } := by
  cases he : s.entering with
  | some m => simp [step, he]
  | none =>
    cases hp : s.config.pending with
    | none => simp [step, he, hp]
    | some p => simp [step, he, hp, eq_comm (a := t)]

theorem step_finish_eq_some {r : Outcome X} : s.step (.finish i r) = some t ↔
    ∃ u u', s.config.inst.tasks[i]? = some u ∧ u.finish r = some u' ∧
      t = { s with config.inst.tasks := s.config.inst.tasks.set i u' } := by
  simp only [step, Option.map_eq_some_iff, Config.step_finish_eq_some]
  constructor
  · rintro ⟨_, ⟨u, u', hu, hf, rfl⟩, rfl⟩
    exact ⟨u, u', hu, hf, rfl⟩
  · rintro ⟨u, u', hu, hf, rfl⟩
    exact ⟨_, ⟨u, u', hu, hf, rfl⟩, rfl⟩

theorem step_advance_eq_some : s.step (.advance i) = some t ↔
    ∃ u u' o, s.config.inst.tasks[i]? = some u ∧ s.Ready (.task i) ∧
      u.advance true true s.config.inst.orch = some (o, u') ∧
      t = { s with config.inst := ⟨o, s.config.inst.tasks.set i u'⟩ } := by
  simp only [step, Option.ite_none_right_eq_some, Option.map_eq_some_iff, Option.bind_eq_some_iff]
  constructor
  · rintro ⟨hready, ⟨o, u'⟩, ⟨u, hu, ha⟩, rfl⟩
    exact ⟨u, u', o, hu, hready, ha, rfl⟩
  · rintro ⟨u, u', o, hu, hready, ha, rfl⟩
    exact ⟨hready, (o, u'), ⟨u, hu, ha⟩, rfl⟩

theorem step_ask_eq_some {a : InnerActor} {l : InnerLock} : s.step (.ask a l) = some t ↔
    MayAsk (s.demand a) s.lines a l ∧
      t = { s with lines := Function.update s.lines l ((s.lines l).request a (a.mode l)) } := by
  rw [step, Option.ite_none_right_eq_some, Option.some.injEq, eq_comm (a := t)]

theorem step_release_eq_some {a : InnerActor} {l : InnerLock} :
    s.step (.release a l) = some t ↔
      (s.lines l).Holds a ∧ l ∉ (s.demand a).keeps ∧ l ∉ (s.demand a).wants ∧
        t = s.released a l := by
  rw [step, Option.ite_none_right_eq_some, Option.some.injEq, and_assoc, and_assoc,
    eq_comm (a := t)]

theorem step_look_eq_some : s.step (.look i) = some t ↔
    (s.lines .state).Holds (.reader i) ∧ t = s.released (.reader i) .state := by
  rw [step, Option.ite_none_right_eq_some, Option.some.injEq, eq_comm (a := t)]

/-! ### Whose demands change -/

/-- The handler is about to check the state, waits for another cell, or is idle. -/
theorem handler_cases (s : LockedConfig X) :
    (s.entering ≠ none ∧ s.demand .handler = ⟨[], some .state⟩) ∨
    (∃ p, s.entering = none ∧ s.config.pending = some p ∧ s.demand .handler = p.demand) ∨
    (s.entering = none ∧ s.config.pending = none ∧ s.demand .handler = ⟨[], none⟩) := by
  cases he : s.entering with
  | some m => exact .inl ⟨by simp, by simp [demand, he]⟩
  | none =>
    cases hp : s.config.pending with
    | some p => exact .inr (.inl ⟨p, rfl, rfl, by simp [demand, he, hp]⟩)
    | none => exact .inr (.inr ⟨rfl, rfl, by simp [demand, he, hp]⟩)

theorem task_cases (s : LockedConfig X) (i : ℕ) : s.demand (.task i) = ⟨[], none⟩ ∨
    ∃ u, s.config.inst.tasks[i]? = some u ∧ s.demand (.task i) = u.demand := by
  cases hu : s.config.inst.tasks[i]? with
  | none => exact .inl (by simp [demand, hu])
  | some u => exact .inr ⟨u, rfl, by simp [demand, hu]⟩

theorem demand_task {u : Task X} (hu : s.config.inst.tasks[i]? = some u) :
    s.demand (.task i) = u.demand := by
  simp [demand, hu]

theorem demand_handler {p : Pending X} (he : s.entering = none) (hp : s.config.pending = some p) :
    s.demand .handler = p.demand := by
  simp [demand, he, hp]

/-- A handler changes no demand but its own: the tasks it spawns have yet to run. -/
theorem demand_of_tasks {us : List (Task X)}
    (ht : t.config.inst.tasks = s.config.inst.tasks ++ us) (hus : ∀ u ∈ us, u.spawned = u)
    {a : InnerActor} (ha : a ≠ .handler) : t.demand a = s.demand a := by
  cases a with
  | handler => exact absurd rfl ha
  | reader i => rfl
  | task i =>
    simp only [demand, ht]
    rcases Nat.lt_or_ge i s.config.inst.tasks.length with hi | hi
    · rw [List.getElem?_append_left hi]
    · rw [List.getElem?_append_right hi, List.getElem?_eq_none hi]
      cases hu : us[i - s.config.inst.tasks.length]? with
      | none => rfl
      | some u => exact Task.demand_of_running (hus u (List.mem_of_getElem? hu))

/-- A task changes no demand but its own. -/
theorem demand_of_set {u : Task X} (he : t.entering = s.entering)
    (hp : t.config.pending = s.config.pending)
    (ht : t.config.inst.tasks = s.config.inst.tasks.set i u) {a : InnerActor}
    (ha : a ≠ .task i) : t.demand a = s.demand a := by
  cases a with
  | handler => simp only [demand, he, hp]
  | reader j => rfl
  | task j =>
    have hij : i ≠ j := by
      rintro rfl
      exact ha rfl
    simp only [demand, ht, List.getElem?_set_ne hij]

end LockedConfig

namespace Config

/-- A call leaves the tasks alone or spawns one, and keeps the lock of the state if it waits. -/
theorem call_tasks {c : Config X} (hp : c.pending = none) (chan : ChannelId) (sender : X.PeerId)
    (msg : CoordinationMessage X) :
    (∃ us, (c.call chan sender msg).inst.tasks = c.inst.tasks ++ us ∧ ∀ u ∈ us, u.spawned = u) ∧
      ∀ p ∈ (c.call chan sender msg).pending, p.demand.keeps = [.state] := by
  rcases c.call_cases hp chan sender msg with ⟨-, he⟩ | ⟨_, _, _, _, _, _, -, -, he⟩ |
      ⟨_, _, _, _, _, _, -, -, he⟩ | ⟨_, _, _, _, _, _, -, -, he⟩ <;> rw [he]
  · exact ⟨⟨[], by simp⟩, by simp [hp]⟩
  · exact ⟨⟨_, rfl, by simp [Task.spawned]⟩, by simp⟩
  · exact ⟨⟨[], by simp⟩, by simp [Pending.demand]⟩
  · refine ⟨⟨[], by simp⟩, fun p hpend => ?_⟩
    split_ifs at hpend
    · obtain rfl := Option.some.inj hpend
      rfl
    · cases hpend

/-- So does a call that goes on, and it keeps the lock that it needed if it waits again. -/
theorem resume_tasks {c c' : Config X} {p : Pending X} {chan : ChannelId}
    (hp : c.pending = some p) (h : c.step (.resume chan) = some c') :
    (∃ us, c'.inst.tasks = c.inst.tasks ++ us ∧ ∀ u ∈ us, u.spawned = u) ∧
      ∀ p' ∈ c'.pending, ∀ l ∈ p'.demand.keeps, l ∈ p.demand.keeps ∨ l ∈ p.demand.wants := by
  rcases resume_cases h with ⟨_, -, -, rfl⟩ | ⟨_, _, _, _, _, he, -, rfl⟩ |
      ⟨_, _, _, _, _, -, -, rfl⟩ | ⟨_, _, _, _, _, _, -, -, rfl⟩
  · exact ⟨⟨[], by simp⟩, by simp⟩
  · obtain rfl := Option.some.inj (hp.symm.trans he)
    exact ⟨⟨[], by simp⟩, by simp [Pending.demand]⟩
  · exact ⟨⟨_, rfl, by simp [Task.spawned]⟩, by simp⟩
  · exact ⟨⟨_, rfl, by simp [Task.spawned]⟩, by simp⟩

end Config

/-! ### The invariant -/

namespace LockedConfig

variable {s t : LockedConfig X} {l : InnerLabel X}

/-- The orchestrator is one of `orchestratorMachine`, a handler that is about to check the state
does not wait for another cell, and the lines follow the demands. -/
structure Sound (s : LockedConfig X) : Prop where
  reachable : (orchestratorMachine X).Reachable s.config
  entering : s.entering ≠ none → s.config.pending = none
  disciplined : Disciplined InnerActor.mode s.demand s.lines

namespace Sound

/-- A handler that waits for another cell is past its check of the state. -/
theorem handler_demand (h : s.Sound) {p : Pending X} (hp : s.config.pending = some p) :
    s.demand .handler = p.demand := by
  rcases s.handler_cases with ⟨he, -⟩ | ⟨q, he, -, -⟩ | ⟨he, -, -⟩
  · rw [h.entering he] at hp
    cases hp
  · exact demand_handler he hp
  · exact demand_handler he hp

/-- While a task holds the lock of the state, no handler is past its check. -/
theorem stateFree (h : s.Sound) {i : ℕ} (hi : (s.lines .state).Holds (.task i)) :
    s.config.stateFree = true := by
  cases hp : s.config.pending with
  | none => simp [Config.stateFree, hp]
  | some p =>
    have hkeeps := p.state_mem_keeps
    rw [← h.handler_demand hp] at hkeeps
    cases h.disciplined.eq_of_write rfl hi (h.disciplined.held .handler .state hkeeps)

/-- While somebody takes the aux info, no task stands between its two cells. -/
theorem auxReadable (h : s.Sound) {a : InnerActor} (ha : (s.lines .auxInfo).Holds a)
    (hk : .auxInfo ∉ (s.demand a).keeps) : s.config.auxReadable = true := by
  refine List.all_eq_true.2 fun u hu => ?_
  obtain ⟨j, hj⟩ := List.mem_iff_getElem?.1 hu
  cases hs : u.storing with
  | false => rfl
  | true =>
    have hkeeps : .auxInfo ∈ (s.demand (.task j)).keeps := by
      simp [demand_task hj, Task.demand_of_storing hs]
    obtain rfl := h.disciplined.eq_of_write rfl (h.disciplined.held (.task j) .auxInfo hkeeps) ha
    exact absurd hkeeps hk

theorem auxFree (h : s.Sound) {i : ℕ} (hi : (s.lines .auxInfo).Holds (.task i))
    (hk : .auxInfo ∉ (s.demand (.task i)).keeps) : s.config.auxFree = true := by
  rw [Config.auxFree, h.auxReadable hi hk, Bool.true_and]
  split
  · next p hp =>
    have hkeeps : .auxInfo ∈ (s.demand .handler).keeps := by
      simp [h.handler_demand hp, Pending.demand]
    cases h.disciplined.eq_of_write rfl hi (h.disciplined.held .handler .auxInfo hkeeps)
  · rfl

/-- A handler that holds the lock of the cell it needs finds it free of tasks. -/
theorem resume_eq (h : s.Sound) {p : Pending X} (hp : s.config.pending = some p)
    (hready : s.Ready .handler) (chan : ChannelId) :
    s.config.step (.resume chan) = some (s.config.resume chan p) := by
  obtain ⟨l, hw, hholds⟩ := hready
  have hd := h.handler_demand hp
  rw [hd] at hw
  cases p with
  | signingAux i a m s ts => simp [Config.step, hp]
  | keygen | signing =>
    obtain rfl := Option.some.inj hw
    have hfree := h.auxReadable hholds (by simp [hd, Pending.demand])
    simp [Config.step, hp, hfree]

/-- A task that holds the lock it needs finds the others past theirs. -/
theorem advance_eq (h : s.Sound) {i : ℕ} {u : Task X} (hu : s.config.inst.tasks[i]? = some u)
    (hready : s.Ready (.task i)) : u.advance s.config.stateFree s.config.auxFree
      s.config.inst.orch = u.advance true true s.config.inst.orch := by
  obtain ⟨l, hw, hholds⟩ := hready
  have hd := demand_task hu
  rw [hd] at hw
  refine Task.advance_of_free _ (fun hs => ?_) fun hs => ?_
  · obtain rfl := Option.some.inj (hs.symm.trans hw)
    exact h.stateFree hholds
  · obtain rfl := Option.some.inj (hs.symm.trans hw)
    refine h.auxFree hholds fun hk => ?_
    rw [hd] at hk
    rw [Task.demand_of_storing (Task.storing_of_keeps hk).1] at hs
    cases hs

/-- What happens under the locks is a step of the orchestrator. -/
theorem step_config (h : s.Sound) (hl : s.step l = some t) :
    t.config = s.config ∨ ∃ l', s.config.step l' = some t.config := by
  cases l with
  | call chan sender msg =>
    obtain ⟨-, -, rfl⟩ := step_call_eq_some.1 hl
    split <;> exact .inl rfl
  | enter =>
    obtain ⟨chan, sender, msg, he, -, rfl⟩ := step_enter_eq_some.1 hl
    have hp := h.entering (by simp [he])
    exact .inr ⟨.call chan sender msg, Config.step_call_eq_some.2 ⟨hp, rfl⟩⟩
  | resume chan =>
    obtain ⟨p, -, hp, hready, rfl⟩ := step_resume_eq_some.1 hl
    exact .inr ⟨_, h.resume_eq hp hready chan⟩
  | finish i r =>
    obtain ⟨u, u', hu, hf, rfl⟩ := step_finish_eq_some.1 hl
    exact .inr ⟨_, Config.step_finish_eq_some.2 ⟨u, u', hu, hf, rfl⟩⟩
  | advance i =>
    obtain ⟨u, u', o, hu, hready, ha, rfl⟩ := step_advance_eq_some.1 hl
    have ha' := (h.advance_eq hu hready).trans ha
    exact .inr ⟨_, Config.step_advance_eq_some.2 ⟨u, u', o, hu, ha', rfl⟩⟩
  | ask a l =>
    obtain ⟨-, rfl⟩ := step_ask_eq_some.1 hl
    exact .inl rfl
  | release a l =>
    obtain ⟨-, -, -, rfl⟩ := step_release_eq_some.1 hl
    exact .inl rfl
  | look i =>
    obtain ⟨-, rfl⟩ := step_look_eq_some.1 hl
    exact .inl rfl

/-- A step keeps the discipline of the locks. -/
theorem step_disciplined (h : s.Sound) (hl : s.step l = some t) :
    Disciplined InnerActor.mode t.demand t.lines := by
  have hd := h.disciplined
  cases l with
  | call chan sender msg =>
    obtain ⟨-, hout, rfl⟩ := step_call_eq_some.1 hl
    split
    · refine hd.update (a := .handler) (fun b hb => ?_) (fun l hw => hout l hw.1) (by simp [demand])
      refine demand_of_tasks ?_ (List.forall_mem_nil _) hb
      exact (List.append_nil _).symm
    · exact hd
  | enter =>
    obtain ⟨chan, sender, msg, he, hready, rfl⟩ := step_enter_eq_some.1 hl
    obtain ⟨⟨us, htasks, hus⟩, hpend⟩ :=
      Config.call_tasks (h.entering (by simp [he])) chan sender msg
    refine hd.advance (a := .handler) (fun b hb => demand_of_tasks htasks hus hb) hready ?_
    intro l hk
    right
    cases hp : (s.config.call chan sender msg).pending with
    | none => simp [demand, hp] at hk
    | some p =>
      rw [demand_handler (by rfl) hp, hpend p hp, List.mem_singleton] at hk
      simp [demand, he, hk]
  | resume chan =>
    obtain ⟨p, he, hp, hready, rfl⟩ := step_resume_eq_some.1 hl
    obtain ⟨⟨us, htasks, hus⟩, hpend⟩ := Config.resume_tasks hp (h.resume_eq hp hready chan)
    refine hd.advance (a := .handler) (fun b hb => demand_of_tasks htasks hus hb) hready ?_
    intro l hk
    rw [demand_handler he hp]
    cases hp' : (s.config.resume chan p).pending with
    | none => simp [demand, he, hp'] at hk
    | some p' =>
      rw [demand_handler (by exact he) hp'] at hk
      exact hpend p' hp' l hk
  | finish i r =>
    obtain ⟨u, u', hu, hf, rfl⟩ := step_finish_eq_some.1 hl
    obtain ⟨hdem, hkeeps⟩ := Task.finish_demand hf
    have hlen := (List.getElem?_eq_some_iff.1 hu).1
    refine hd.update (a := .task i) (fun b hb => ?_)
      (hd.not_waits_of_wants (by rw [demand_task hu, hdem])) ?_
    · refine demand_of_set (u := u') ?_ ?_ ?_ hb <;> rfl
    · rw [demand_task (u := u') (List.getElem?_set_self hlen), hkeeps]
      exact List.forall_mem_nil _
  | advance i =>
    obtain ⟨u, u', o, hu, hready, ha, rfl⟩ := step_advance_eq_some.1 hl
    have hlen := (List.getElem?_eq_some_iff.1 hu).1
    refine hd.advance (a := .task i) (fun b hb => ?_) hready ?_
    · refine demand_of_set (u := u') ?_ ?_ ?_ hb <;> rfl
    · rw [demand_task (u := u') (List.getElem?_set_self hlen), demand_task hu]
      exact Task.advance_demand ha
  | ask a l =>
    obtain ⟨hask, rfl⟩ := step_ask_eq_some.1 hl
    exact hd.ask hask
  | release a l =>
    obtain ⟨-, hk, -, rfl⟩ := step_release_eq_some.1 hl
    exact hd.release hk
  | look i =>
    obtain ⟨-, rfl⟩ := step_look_eq_some.1 hl
    exact hd.release (by simp [demand])

/-- Only an idle handler is called. -/
theorem step_entering (h : s.Sound) (hl : s.step l = some t) (he : t.entering ≠ none) :
    t.config.pending = none := by
  cases l with
  | call chan sender msg =>
    obtain ⟨hidle, -, rfl⟩ := step_call_eq_some.1 hl
    have hp : s.config.pending = none := by
      rcases s.handler_cases with ⟨hne, -⟩ | ⟨p, -, -, hd⟩ | ⟨-, hp, -⟩
      · exact h.entering hne
      · rw [hd] at hidle
        cases p <;> cases hidle
      · exact hp
    split <;> exact hp
  | enter =>
    obtain ⟨chan, sender, msg, -, -, rfl⟩ := step_enter_eq_some.1 hl
    exact absurd rfl he
  | resume chan =>
    obtain ⟨p, hnone, -, -, rfl⟩ := step_resume_eq_some.1 hl
    exact absurd hnone he
  | finish i r =>
    obtain ⟨u, u', -, -, rfl⟩ := step_finish_eq_some.1 hl
    exact h.entering he
  | advance i =>
    obtain ⟨u, u', o, -, -, -, rfl⟩ := step_advance_eq_some.1 hl
    exact h.entering he
  | ask a l =>
    obtain ⟨-, rfl⟩ := step_ask_eq_some.1 hl
    exact h.entering he
  | release a l =>
    obtain ⟨-, -, -, rfl⟩ := step_release_eq_some.1 hl
    exact h.entering he
  | look i =>
    obtain ⟨-, rfl⟩ := step_look_eq_some.1 hl
    exact h.entering he

theorem step (h : s.Sound) (hl : s.step l = some t) : t.Sound := by
  refine ⟨?_, h.step_entering hl, h.step_disciplined hl⟩
  rcases h.step_config hl with he | ⟨l', hc⟩
  · rw [he]
    exact h.reachable
  · exact h.reachable.step hc

end Sound

theorem reachable_sound (h : (innerLockMachine X).Reachable s) : s.Sound := by
  refine h.induct ?_ fun s l t hs hl => hs.step hl
  rintro s ⟨⟨p, ps, m, hc⟩, he, hlines⟩
  refine ⟨.of_init ⟨p, ps, m, hc⟩, fun hne => absurd he hne, ?_⟩
  rw [hlines]
  refine Disciplined.nil fun a => ?_
  cases a <;> simp [demand, he, hc]

/-! ### No deadlock -/

/-- The locks in an order in which each is needed under those above it only, but for the state
under the aux info. -/
def rank : InnerLock → ℕ
  | .keyShare => 0
  | .auxInfo => 1
  | .state => 2

/-- Whoever needs the state under the lock of the aux info is an aux task, and then nobody else
needs the aux info. -/
theorem Sound.ordered (h : s.Sound) : Ordered rank s.lines := by
  refine h.disciplined.ordered fun l l' a b ha hb hb' => ?_
  cases b with
  | reader i => simp [demand] at hb
  | handler =>
    rcases s.handler_cases with ⟨-, hd⟩ | ⟨p, -, -, hd⟩ | ⟨-, -, hd⟩ <;> rw [hd] at hb hb'
    · cases hb
    · cases p <;> cases hb' <;> cases l <;> simp [Pending.demand] at hb <;> decide
    · cases hb
  | task i =>
    rcases s.task_cases i with hd | ⟨u, hu, hd⟩ <;> rw [hd] at hb hb'
    · cases hb
    · obtain ⟨hs, rfl⟩ := Task.storing_of_keeps hb
      obtain ⟨hp, hall⟩ :=
        (reachable_shaped h.reachable).of_storing (List.mem_of_getElem? hu) hs
      cases a with
      | reader j => cases ha
      | handler =>
        rcases s.handler_cases with ⟨-, hd'⟩ | ⟨p, -, hp', -⟩ | ⟨-, -, hd'⟩
        · rw [hd'] at ha
          cases ha
        · cases hp.symm.trans hp'
        · rw [hd'] at ha
          cases ha
      | task j =>
        rcases s.task_cases j with hd' | ⟨v, hv, hd'⟩ <;> rw [hd'] at ha
        · cases ha
        · obtain rfl := hall v (List.mem_of_getElem? hv)
          rw [Task.demand_of_storing hs] at ha
          cases ha

/-- An actor that needs nothing keeps nothing. -/
theorem keeps_of_wants {a : InnerActor} (h : (s.demand a).wants = none) :
    (s.demand a).keeps = [] := by
  cases a with
  | reader i => cases h
  | handler =>
    rcases s.handler_cases with ⟨-, hd⟩ | ⟨p, -, -, hd⟩ | ⟨-, -, hd⟩ <;> rw [hd] at h ⊢
    cases p <;> cases h
  | task i =>
    rcases s.task_cases i with hd | ⟨u, -, hd⟩ <;> rw [hd] at h ⊢
    unfold Task.demand at h ⊢
    split at h <;> first | rfl | cases h

/-- An actor that holds the lock it needs can go on. -/
theorem Ready.exists_step {a : InnerActor} (h : s.Ready a) :
    ∃ l t, l.actor = a ∧ s.step l = some t := by
  obtain ⟨l₀, hw, hholds⟩ := id h
  cases a with
  | reader i =>
    obtain rfl := Option.some.inj hw
    exact ⟨.look i, _, rfl, step_look_eq_some.2 ⟨hholds, rfl⟩⟩
  | handler =>
    rcases s.handler_cases with ⟨he, -⟩ | ⟨p, he, hp, -⟩ | ⟨-, -, hd⟩
    · obtain ⟨⟨chan, sender, msg⟩, he⟩ := Option.ne_none_iff_exists'.1 he
      exact ⟨.enter, _, rfl, step_enter_eq_some.2 ⟨chan, sender, msg, he, h, rfl⟩⟩
    · exact ⟨.resume 0, _, rfl, step_resume_eq_some.2 ⟨p, he, hp, h, rfl⟩⟩
    · rw [hd] at hw
      cases hw
  | task i =>
    rcases s.task_cases i with hd | ⟨u, hu, hd⟩ <;> rw [hd] at hw
    · cases hw
    · have hwants := Option.ne_none_iff_exists'.2 ⟨_, hw⟩
      obtain ⟨o, u', ha⟩ := u.exists_advance hwants s.config.inst.orch
      exact ⟨.advance i, _, rfl, step_advance_eq_some.2 ⟨u, u', o, hu, h, ha, rfl⟩⟩

/-- A holder that waits for no lock can take a step. -/
theorem exists_step {a : InnerActor} {l₀ : InnerLock} (ha : (s.lines l₀).Holds a)
    (hw : ∀ l, ¬ (s.lines l).Waits a) : ∃ l t, l.actor = a ∧ s.step l = some t := by
  have hholds : ∀ l, a ∈ (s.lines l).map Prod.fst → (s.lines l).Holds a := fun l hl => by
    by_contra hnot
    exact hw l ⟨hl, hnot⟩
  cases hwants : (s.demand a).wants with
  | none =>
    refine ⟨.release a l₀, _, rfl, step_release_eq_some.2 ⟨ha, ?_, ?_, rfl⟩⟩
    · simp [keeps_of_wants hwants]
    · simp [hwants]
  | some l₁ =>
    by_cases hin : a ∈ (s.lines l₁).map Prod.fst
    · exact Ready.exists_step ⟨l₁, hwants, hholds l₁ hin⟩
    · by_cases hkept : ∀ l, a ∈ (s.lines l).map Prod.fst → l ∈ (s.demand a).keeps
      · exact ⟨.ask a l₁, _, rfl, step_ask_eq_some.2 ⟨⟨hwants, hin, hkept⟩, rfl⟩⟩
      · -- a guard that it no longer needs
        obtain ⟨l₂, hl₂, hnot⟩ : ∃ l, a ∈ (s.lines l).map Prod.fst ∧ l ∉ (s.demand a).keeps := by
          simpa only [not_forall, exists_prop] using hkept
        refine ⟨.release a l₂, _, rfl,
          step_release_eq_some.2 ⟨hholds l₂ hl₂, hnot, fun hw₂ => ?_, rfl⟩⟩
        obtain rfl := Option.some.inj (hwants.symm.trans hw₂)
        exact hin hl₂

/-- What happens in a run, the locks apart, happens in one of `orchestratorMachine`. -/
theorem reachable_config (h : (innerLockMachine X).Reachable s) :
    (orchestratorMachine X).Reachable s.config :=
  (reachable_sound h).reachable

end LockedConfig

/-- In every interleaving nobody waits, by way of others, for a lock that it holds itself; and
behind everybody who waits there is a holder who can take a step. -/
theorem inner_locks_deadlock_free {s : LockedConfig X} (h : (innerLockMachine X).Reachable s) :
    (∀ a, ¬ Relation.TransGen (WaitsFor s.lines) a a) ∧
      ∀ a l, (s.lines l).Waits a → ∃ b, Relation.TransGen (WaitsFor s.lines) a b ∧
        ∃ l' t, l'.actor = b ∧ s.step l' = some t := by
  have hord := (LockedConfig.reachable_sound h).ordered
  refine ⟨hord.no_cycle, fun a l ha => ?_⟩
  obtain ⟨b, hab, hb⟩ := hord.exists_running ha
  obtain ⟨c, -, l', -, hholds⟩ := Relation.TransGen.tail'_iff.1 hab
  exact ⟨b, hab, LockedConfig.exists_step hholds hb⟩

/-- A keygen handler holds the state and waits for the aux info, which the aux task holds still: it
has written the state and let go of it. -/
theorem keygen_behind_aux : ∃ s : LockedConfig .plain, (innerLockMachine .plain).Reachable s ∧
    WaitsFor s.lines .handler (.task 0) ∧ (s.lines .state).Holds .handler := by
  refine ⟨_, ⟨⟨ShareWindowRun.start, none, fun _ => []⟩,
    [.call 0 "a" (.initiateAux [] ["a", "b", "c"] ShareWindowRun.assignments ⟨0⟩),
      .ask .handler .state, .enter, .release .handler .state, .finish 0 (.aux (.ok (5 : ℕ))),
      .ask (.task 0) .auxInfo, .advance 0, .ask (.task 0) .state, .advance 0,
      .release (.task 0) .state, .call 1 "a" (.initiateKeygen [] 2 3 ⟨0⟩), .ask .handler .state,
      .enter, .ask .handler .auxInfo], ⟨⟨_, _, _, rfl⟩, rfl, rfl⟩, rfl⟩, ⟨.auxInfo, ?_⟩, ?_⟩
  · decide
  · decide

/-- The handler is not in a cycle, and somebody ahead of it can take a step. -/
theorem keygen_behind_aux_goes_on : ∃ s : LockedConfig .plain,
    (innerLockMachine .plain).Reachable s ∧ WaitsFor s.lines .handler (.task 0) ∧
      (s.lines .state).Holds .handler ∧
      ¬ Relation.TransGen (WaitsFor s.lines) .handler .handler ∧
      ∃ b, Relation.TransGen (WaitsFor s.lines) .handler b ∧
        ∃ l t, l.actor = b ∧ s.step l = some t := by
  obtain ⟨s, hs, ⟨l, hwaits, hl⟩, hholds⟩ := keygen_behind_aux
  obtain ⟨hcycle, hstep⟩ := inner_locks_deadlock_free hs
  exact ⟨s, hs, ⟨l, hwaits, hl⟩, hholds, hcycle _, hstep _ l hwaits⟩

end P2pMpc
