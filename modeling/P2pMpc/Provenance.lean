import P2pMpc.KeyShareWindow

/-!
# Where the key material comes from

The aux info and the key share pass through cells that detached tasks write and that handlers read
later, some of them from `Idle`, where nothing has been generated yet. The shapes say what is in
the cells beside which tasks; that a value there was returned by a task of the same orchestrator is
traced along the run: a value is in use after a step only if it was before, or if the step is the
return of a protocol run (`step_hasAux`, `step_hasShare`), so it goes back to such a return.
-/

namespace P2pMpc

open StateMachine MPCOrchestrator

variable {X : Platform}

/-! ### Writes -/

/-- The next lock acquisition of the task stores an aux info. -/
def Task.storesAux : Task X → Bool
  | .aux _ _ _ (.returned (.ok _)) => true
  | _ => false

/-- The next lock acquisition of the task stores a key share. -/
def Task.storesShare : Task X → Bool
  | .keygen _ _ _ _ (.published _) => true
  | _ => false

namespace Config

/-- The step with which an aux task stores its aux info. -/
def StoresAux (c : Config X) (l : Label X) : Prop :=
  ∃ i t, l = .advance i ∧ c.inst.tasks[i]? = some t ∧ t.storesAux = true

/-- The step with which a keygen task stores its key share. -/
def StoresShare (c : Config X) (l : Label X) : Prop :=
  ∃ i t, l = .advance i ∧ c.inst.tasks[i]? = some t ∧ t.storesShare = true

/-! ### Returns -/

/-- The step with which the protocol run of an aux task returns `a`. -/
def ReturnsAux (a : X.AuxInfo) (c : Config X) (l : Label X) : Prop :=
  ∃ i p n ts, l = .finish i (.aux (.ok a)) ∧ c.inst.tasks[i]? = some (.aux p n ts .running)

/-- The step with which the protocol run of a keygen task returns `share`. -/
def ReturnsShare (share : X.KeyShare) (c : Config X) (l : Label X) : Prop :=
  ∃ i p n t ts, l = .finish i (.keygen (.ok share)) ∧
    c.inst.tasks[i]? = some (.keygen p n t ts .running)

end Config

/-- The task has returned the aux info, or was given it. -/
def Task.HasAux (a : X.AuxInfo) : Task X → Prop
  | .aux _ _ _ pc => pc = .returned (.ok a)
  | .keygen p _ _ _ _ => p.auxInfo = a
  | .signing p _ _ _ _ => p.auxInfo = a

/-- The task has returned the key share, or was given it. -/
def Task.HasShare (share : X.KeyShare) : Task X → Prop
  | .aux _ _ _ _ => False
  | .keygen _ _ _ _ pc => pc = .returned (.ok share) ∨ pc = .published share
  | .signing p _ _ _ _ => p.keyShare = share

namespace Task

variable {stateFree auxFree : Bool} {o o' : MPCOrchestrator X} {r : Outcome X} {t t' : Task X}
  {a : X.AuxInfo} {share : X.KeyShare}

theorem finish_hasAux (h : t.finish r = some t') (ha : t'.HasAux a) :
    t.HasAux a ∨ (r = .aux (.ok a) ∧ ∃ p n ts, t = .aux p n ts .running) := by
  unfold Task.finish at h
  split at h <;> cases h
  · cases ha
    exact .inr ⟨rfl, _, _, _, rfl⟩
  · exact .inl ha
  · exact .inl ha

theorem finish_hasShare (h : t.finish r = some t') (hk : t'.HasShare share) :
    t.HasShare share ∨ (r = .keygen (.ok share) ∧ ∃ p n u ts, t = .keygen p n u ts .running) := by
  unfold Task.finish at h
  split at h <;> cases h
  · exact hk.elim
  · rcases hk with hk | hk
    · cases hk
      exact .inr ⟨rfl, _, _, _, _, rfl⟩
    · cases hk
  · exact .inl hk

/-- What a task stores and what it holds afterwards it held before. -/
theorem advance_hasAux (h : t.advance stateFree auxFree o = some (o', t')) :
    (o'.auxInfo = some a → o.auxInfo = some a ∨ t.HasAux a) ∧ (t'.HasAux a → t.HasAux a) := by
  unfold Task.advance at h
  split at h <;> (try split_ifs at h) <;> cases h
  · refine ⟨fun ha => .inr ?_, by rintro ⟨⟩⟩
    cases ha
    rfl
  · exact ⟨.inl, by rintro ⟨⟩⟩
  · exact ⟨.inl, by rintro ⟨⟩⟩
  all_goals exact ⟨.inl, fun ha => ha⟩

theorem advance_hasShare (h : t.advance stateFree auxFree o = some (o', t')) :
    (o'.keyShare = some share → o.keyShare = some share ∨ t.HasShare share) ∧
      (t'.HasShare share → t.HasShare share) := by
  unfold Task.advance at h
  split at h <;> (try split_ifs at h) <;> cases h
  · exact ⟨.inl, fun hk => hk⟩
  · exact ⟨.inl, fun hk => hk⟩
  · exact ⟨.inl, fun hk => hk⟩
  · refine ⟨.inl, ?_⟩
    rintro (hk | hk) <;> cases hk
    exact .inl rfl
  · refine ⟨fun hk => .inr ?_, ?_⟩
    · cases hk
      exact .inr rfl
    · rintro (hk | hk) <;> cases hk
  · refine ⟨.inl, ?_⟩
    rintro (hk | hk) <;> cases hk
  · exact ⟨.inl, fun hk => hk⟩
  · exact ⟨.inl, fun hk => hk⟩

/-- Only a storing task changes a cell, and it leaves the cell filled. -/
theorem advance_cells (h : t.advance stateFree auxFree o = some (o', t')) :
    ((t.storesAux = true ∧ ∃ a, o'.auxInfo = some a) ∨ o'.auxInfo = o.auxInfo) ∧
      ((t.storesShare = true ∧ ∃ k, o'.keyShare = some k) ∨ o'.keyShare = o.keyShare) := by
  unfold Task.advance at h
  split at h <;> (try split_ifs at h) <;> cases h <;>
    first
    | exact ⟨.inr rfl, .inr rfl⟩
    | exact ⟨.inl ⟨rfl, _, rfl⟩, .inr rfl⟩
    | exact ⟨.inr rfl, .inl ⟨rfl, _, rfl⟩⟩

end Task

namespace Config

/-- The aux info is in a cell, a pending call or a task. -/
def HasAux (a : X.AuxInfo) (c : Config X) : Prop :=
  c.inst.orch.auxInfo = some a ∨
    (∃ i m s ts, c.pending = some (.signingAux i a m s ts)) ∨ ∃ t ∈ c.inst.tasks, t.HasAux a

/-- The key share is in a cell or a task. -/
def HasShare (share : X.KeyShare) (c : Config X) : Prop :=
  c.inst.orch.keyShare = some share ∨ ∃ t ∈ c.inst.tasks, t.HasShare share

variable {c c' : Config X}

theorem exists_mem_set {P : Task X → Prop} {tasks : List (Task X)} {i : ℕ} {t' : Task X}
    (h : ∃ t ∈ tasks.set i t', P t) : (∃ t ∈ tasks, P t) ∨ P t' := by
  obtain ⟨t, ht, hP⟩ := h
  rcases List.mem_or_eq_of_mem_set ht with hmem | rfl
  · exact .inl ⟨t, hmem, hP⟩
  · exact .inr hP

theorem exists_mem_append {P : Task X → Prop} {tasks : List (Task X)} {t' : Task X}
    (h : ∃ t ∈ tasks ++ [t'], P t) : (∃ t ∈ tasks, P t) ∨ P t' := by
  simpa [or_and_right, exists_or] using h

theorem HasAux.cell_or_task {a : X.AuxInfo} (h : c.HasAux a)
    (hp : ∀ i m s ts, c.pending ≠ some (.signingAux i a m s ts)) :
    c.inst.orch.auxInfo = some a ∨ ∃ t ∈ c.inst.tasks, t.HasAux a :=
  h.imp_right fun h => h.resolve_left fun ⟨i, m, s, ts, he⟩ => hp i m s ts he

/-- An aux info in use was in use before the step, or the step is its return. -/
theorem step_hasAux (a : X.AuxInfo) (c : Config X) (l : Label X) (c' : Config X)
    (hl : c.step l = some c') (h : c'.HasAux a) : c.HasAux a ∨ c.ReturnsAux a l := by
  cases l with
  | call chan sender msg =>
    left
    obtain ⟨hp, rfl⟩ := step_call_eq_some.1 hl
    rcases c.call_cases hp chan sender msg with ⟨-, he⟩ | ⟨_, _, _, _, _, _, -, -, he⟩ |
        ⟨_, _, _, _, _, _, -, -, he⟩ | ⟨_, _, _, _, i, _, -, -, he⟩ <;> rw [he] at h
    · exact h
    · refine (h.cell_or_task (by rintro _ _ _ _ ⟨⟩)).imp_right fun h => .inr ?_
      exact (exists_mem_append h).resolve_right (by rintro ⟨⟩)
    · exact (h.cell_or_task (by rintro _ _ _ _ ⟨⟩)).imp_right .inr
    · -- the call of a signer stays pending, but has not read the cell yet
      refine (h.cell_or_task ?_).imp_right .inr
      intro _ _ _ _ hpending
      dsimp only at hpending
      split_ifs at hpending
      cases hpending
  | resume chan =>
    left
    rcases resume_cases hl with ⟨_, -, -, rfl⟩ | ⟨_, a', _, _, _, -, ha, rfl⟩ |
        ⟨_, _, _, _, a', -, ha, rfl⟩ | ⟨_, a', _, _, _, share, hp, -, rfl⟩
    · exact (h.cell_or_task (by rintro _ _ _ _ ⟨⟩)).imp_right .inr
    · rcases h with h | ⟨_, _, _, _, h⟩ | h
      · exact .inl h
      · -- the pending call has read the cell
        cases h
        exact .inl ha
      · exact .inr (.inr h)
    · rcases h.cell_or_task (by rintro _ _ _ _ ⟨⟩) with h | h
      · exact .inl h
      · rcases exists_mem_append h with h | rfl
        · exact .inr (.inr h)
        · exact .inl ha
    · rcases h.cell_or_task (by rintro _ _ _ _ ⟨⟩) with h | h
      · exact .inl h
      · rcases exists_mem_append h with h | rfl
        · exact .inr (.inr h)
        · exact .inr (.inl ⟨_, _, _, _, hp⟩)
  | finish i r =>
    obtain ⟨t, t', ht, hf, rfl⟩ := step_finish_eq_some.1 hl
    rcases h with h | h | h
    · exact .inl (.inl h)
    · exact .inl (.inr (.inl h))
    · rcases exists_mem_set h with h | h
      · exact .inl (.inr (.inr h))
      · rcases Task.finish_hasAux hf h with h | ⟨rfl, p, n, ts, rfl⟩
        · exact .inl (.inr (.inr ⟨t, List.mem_of_getElem? ht, h⟩))
        · exact .inr ⟨i, p, n, ts, rfl, ht⟩
  | advance i =>
    left
    obtain ⟨t, t', o, ht, ha, rfl⟩ := step_advance_eq_some.1 hl
    have hmem := List.mem_of_getElem? ht
    rcases h with h | h | h
    · exact ((Task.advance_hasAux ha).1 h).imp_right fun h => .inr ⟨t, hmem, h⟩
    · exact .inr (.inl h)
    · rcases exists_mem_set h with h | h
      · exact .inr (.inr h)
      · exact .inr (.inr ⟨t, hmem, (Task.advance_hasAux ha).2 h⟩)

/-- A key share in use was in use before the step, or the step is its return. -/
theorem step_hasShare (share : X.KeyShare) (c : Config X) (l : Label X) (c' : Config X)
    (hl : c.step l = some c') (h : c'.HasShare share) :
    c.HasShare share ∨ c.ReturnsShare share l := by
  cases l with
  | call chan sender msg =>
    left
    obtain ⟨hp, rfl⟩ := step_call_eq_some.1 hl
    rcases c.call_cases hp chan sender msg with ⟨-, he⟩ | ⟨_, _, _, _, _, _, -, -, he⟩ |
        ⟨_, _, _, _, _, _, -, -, he⟩ | ⟨_, _, _, _, i, _, -, -, he⟩ <;> rw [he] at h
    · exact h
    · exact h.imp_right fun h => (exists_mem_append h).resolve_right (by rintro ⟨⟩)
    · exact h
    · exact h
  | resume chan =>
    left
    rcases resume_cases hl with ⟨_, -, -, rfl⟩ | ⟨_, _, _, _, _, -, -, rfl⟩ |
        ⟨_, _, _, _, _, -, -, rfl⟩ | ⟨_, _, _, _, _, k, -, hk, rfl⟩
    · exact h
    · exact h
    · exact h.imp_right fun h => (exists_mem_append h).resolve_right (by rintro (⟨⟨⟩⟩ | ⟨⟨⟩⟩))
    · rcases h with h | h
      · exact .inl h
      · rcases exists_mem_append h with h | rfl
        · exact .inr h
        · exact .inl hk
  | finish i r =>
    obtain ⟨t, t', ht, hf, rfl⟩ := step_finish_eq_some.1 hl
    rcases h with h | h
    · exact .inl (.inl h)
    · rcases exists_mem_set h with h | h
      · exact .inl (.inr h)
      · rcases Task.finish_hasShare hf h with h | ⟨rfl, p, n, u, ts, rfl⟩
        · exact .inl (.inr ⟨t, List.mem_of_getElem? ht, h⟩)
        · exact .inr ⟨i, p, n, u, ts, rfl, ht⟩
  | advance i =>
    left
    obtain ⟨t, t', o, ht, ha, rfl⟩ := step_advance_eq_some.1 hl
    have hmem := List.mem_of_getElem? ht
    rcases h with h | h
    · exact ((Task.advance_hasShare ha).1 h).imp_right fun h => ⟨t, hmem, h⟩
    · rcases exists_mem_set h with h | h
      · exact .inr h
      · exact .inr ⟨t, hmem, (Task.advance_hasShare ha).2 h⟩

/-! ### Each cell is written once -/

/-- Only a storing step changes a cell. -/
theorem step_cells {l : Label X} (hl : c.step l = some c') :
    (c.StoresAux l ∨ c'.inst.orch.auxInfo = c.inst.orch.auxInfo) ∧
      (c.StoresShare l ∨ c'.inst.orch.keyShare = c.inst.orch.keyShare) := by
  cases l with
  | call chan sender msg =>
    obtain ⟨hp, rfl⟩ := step_call_eq_some.1 hl
    rcases c.call_cases hp chan sender msg with ⟨-, he⟩ | ⟨_, _, _, _, _, _, -, -, he⟩ |
        ⟨_, _, _, _, _, _, -, -, he⟩ | ⟨_, _, _, _, _, _, -, -, he⟩ <;> rw [he] <;>
      exact ⟨.inr rfl, .inr rfl⟩
  | resume chan =>
    rcases resume_cases hl with ⟨_, -, -, rfl⟩ | ⟨_, _, _, _, _, -, -, rfl⟩ |
        ⟨_, _, _, _, _, -, -, rfl⟩ | ⟨_, _, _, _, _, _, -, -, rfl⟩ <;> exact ⟨.inr rfl, .inr rfl⟩
  | finish i r =>
    obtain ⟨_, _, -, -, rfl⟩ := step_finish_eq_some.1 hl
    exact ⟨.inr rfl, .inr rfl⟩
  | advance i =>
    obtain ⟨t, t', o, ht, ha, rfl⟩ := step_advance_eq_some.1 hl
    obtain ⟨haux, hshare⟩ := Task.advance_cells ha
    exact ⟨haux.imp_left fun hs => ⟨i, t, rfl, ht, hs.1⟩,
      hshare.imp_left fun hs => ⟨i, t, rfl, ht, hs.1⟩⟩

theorem auxInfo_of_stores {l : Label X} (hs : c.StoresAux l) (hl : c.step l = some c') :
    c'.inst.orch.auxInfo ≠ none := by
  obtain ⟨i, t, rfl, ht, hst⟩ := hs
  obtain ⟨t₁, t', o, ht₁, ha, rfl⟩ := step_advance_eq_some.1 hl
  obtain rfl := Option.some.inj (ht.symm.trans ht₁)
  unfold Task.advance at ha
  split at ha <;> (try split_ifs at ha) <;> cases ha <;>
    first | exact Option.some_ne_none _ | cases hst

theorem keyShare_of_stores {l : Label X} (hs : c.StoresShare l) (hl : c.step l = some c') :
    c'.inst.orch.keyShare ≠ none := by
  obtain ⟨i, t, rfl, ht, hst⟩ := hs
  obtain ⟨t₁, t', o, ht₁, ha, rfl⟩ := step_advance_eq_some.1 hl
  obtain rfl := Option.some.inj (ht.symm.trans ht₁)
  unfold Task.advance at ha
  split at ha <;> (try split_ifs at ha) <;> cases ha <;>
    first | exact Option.some_ne_none _ | cases hst

/-- A task that has yet to store finds its cell empty. -/
theorem Shaped.stores_empty (h : c.Shaped) {t : Task X} (ht : t ∈ c.inst.tasks) :
    (t.storesAux = true → c.inst.orch.auxInfo = none) ∧
      (t.storesShare = true → c.inst.orch.keyShare = none) := by
  obtain ⟨⟨⟨st, ps, pa, lp, tx₁, tx₂, tx₃, a, k⟩, tasks⟩, pend⟩ := c
  simp only [Config.Shaped] at h ht ⊢
  cases h with
  | idle | keygenStuck | keygenDoomed | signingStuck | signingDoomed => cases ht
  | auxActive | auxStored | auxCompleted | auxFailed | keygenEntered =>
    obtain rfl := List.mem_singleton.1 ht
    simp [Task.storesAux, Task.storesShare]
  | keygenActive _ _ _ _ _ _ _ _ _ _ pc hpc =>
    rcases hpc with rfl | ⟨r, rfl⟩ <;> rcases List.mem_pair.1 ht with rfl | rfl <;>
      simp [Task.storesAux, Task.storesShare]
  | keygenFailed =>
    rcases List.mem_pair.1 ht with rfl | rfl <;> simp [Task.storesAux, Task.storesShare]
  | keygenCompleted _ _ _ _ _ _ _ _ _ _ hw =>
    cases hw <;> rcases List.mem_pair.1 ht with rfl | rfl <;>
      simp [Task.storesAux, Task.storesShare]
  | signingEntered _ _ _ _ _ _ _ _ _ _ _ _ _ _ _ hw =>
    cases hw <;> rcases List.mem_pair.1 ht with rfl | rfl <;>
      simp [Task.storesAux, Task.storesShare]
  | signingActive | signingCompleted | signingFailed =>
    simp only [List.mem_cons, List.not_mem_nil, or_false] at ht
    rcases ht with rfl | rfl | rfl <;> simp [Task.storesAux, Task.storesShare]

/-- A keygen task was given what is in the cell of the aux info. -/
theorem Shaped.keygen_given (h : c.Shaped) {p : KeygenParty X} {n u : UInt16} {ts : UInt64}
    {pc : KeygenPc X} (ht : .keygen p n u ts pc ∈ c.inst.tasks) :
    c.inst.orch.auxInfo = some p.auxInfo := by
  obtain ⟨⟨⟨st, ps, pa, lp, tx₁, tx₂, tx₃, a, k⟩, tasks⟩, pend⟩ := c
  simp only [Config.Shaped] at h ht ⊢
  cases h <;> simp only [List.mem_cons, List.not_mem_nil, reduceCtorEq, Task.keygen.injEq,
    or_false, false_or] at ht <;> obtain ⟨rfl, -⟩ := ht
  all_goals first | rfl | (next ha => exact congrArg some ha)

/-- A signing task was given what is in the two cells, which is the aux info that the keygen task
was given. -/
theorem Shaped.signing_given (h : c.Shaped) {p : SigningParty X} {s : List PartyIndex}
    {m : List UInt8} {ts : UInt64} {pc : SigningPc X} (ht : .signing p s m ts pc ∈ c.inst.tasks) :
    c.inst.orch.auxInfo = some p.auxInfo ∧ c.inst.orch.keyShare = some p.keyShare ∧
      ∃ kp n u ts' pc', .keygen kp n u ts' pc' ∈ c.inst.tasks ∧ p.auxInfo = kp.auxInfo := by
  obtain ⟨⟨⟨st, ps, pa, lp, tx₁, tx₂, tx₃, a, k⟩, tasks⟩, pend⟩ := c
  simp only [Config.Shaped] at h ht ⊢
  cases h <;> simp only [List.mem_cons, List.not_mem_nil, reduceCtorEq, Task.signing.injEq,
    or_false, false_or] at ht <;> obtain ⟨rfl, -⟩ := ht <;> next ha =>
      exact ⟨rfl, rfl, _, _, _, _, _, .tail _ (.head _), ha⟩

/-- A filled cell keeps its value. -/
theorem Shaped.step_keeps (h : c.Shaped) {l : Label X} (hl : c.step l = some c') :
    (∀ a, c.inst.orch.auxInfo = some a → c'.inst.orch.auxInfo = some a) ∧
      ∀ share, c.inst.orch.keyShare = some share → c'.inst.orch.keyShare = some share := by
  obtain ⟨haux, hshare⟩ := step_cells hl
  constructor
  · intro a ha
    rcases haux with ⟨i, t, -, ht, hst⟩ | he
    · have hnone := (h.stores_empty (List.mem_of_getElem? ht)).1 hst
      cases ha.symm.trans hnone
    · rw [he]
      exact ha
  · intro share hk
    rcases hshare with ⟨i, t, -, ht, hst⟩ | he
    · have hnone := (h.stores_empty (List.mem_of_getElem? ht)).2 hst
      cases hk.symm.trans hnone
    · rw [he]
      exact hk

/-! ### Runs -/

/-- What is in the cells stays there, and a cell that has been stored to is not stored to again. -/
theorem Shaped.run_keeps (h : c.Shaped) {ls : List (Label X)}
    (hr : (orchestratorMachine X).run c ls = some c') :
    (∀ a, c.inst.orch.auxInfo = some a → c'.inst.orch.auxInfo = some a) ∧
      ∀ share, c.inst.orch.keyShare = some share → c'.inst.orch.keyShare = some share := by
  have hinv := Machine.run_preserves (I := fun d => d.Shaped ∧
    (∀ a, c.inst.orch.auxInfo = some a → d.inst.orch.auxInfo = some a) ∧
      ∀ share, c.inst.orch.keyShare = some share → d.inst.orch.keyShare = some share)
    (fun d l d' hd hl => ?_) ⟨h, fun _ ha => ha, fun _ hk => hk⟩ hr
  · exact hinv.2
  · obtain ⟨hd, haux, hshare⟩ := hd
    obtain ⟨haux', hshare'⟩ := hd.step_keeps hl
    exact ⟨hd.step hl, fun a ha => haux' a (haux a ha), fun k hk => hshare' k (hshare k hk)⟩

theorem Shaped.storesAux_once (h : c.Shaped) {l l' : Label X} {d : Config X} {ls : List (Label X)}
    (hs : c.StoresAux l) (hl : c.step l = some c')
    (hr : (orchestratorMachine X).run c' ls = some d) : ¬ d.StoresAux l' := by
  apply Machine.run_once (M := orchestratorMachine X) (K := Config.Shaped)
    (P := fun d => d.inst.orch.auxInfo ≠ none) (W := StoresAux) _ _ _ _ h hs hl hr
  · exact fun _ _ _ hc hl => hc.step hl
  · intro s l t hc hne hl
    obtain ⟨a, ha⟩ := Option.ne_none_iff_exists'.1 hne
    simp [(hc.step_keeps hl).1 a ha]
  · rintro s l hc ⟨i, t, -, ht, hst⟩ hne
    exact hne ((hc.stores_empty (List.mem_of_getElem? ht)).1 hst)
  · exact fun s l t hw hl => auxInfo_of_stores hw hl

theorem Shaped.storesShare_once (h : c.Shaped) {l l' : Label X} {d : Config X}
    {ls : List (Label X)} (hs : c.StoresShare l) (hl : c.step l = some c')
    (hr : (orchestratorMachine X).run c' ls = some d) : ¬ d.StoresShare l' := by
  apply Machine.run_once (M := orchestratorMachine X) (K := Config.Shaped)
    (P := fun d => d.inst.orch.keyShare ≠ none) (W := StoresShare) _ _ _ _ h hs hl hr
  · exact fun _ _ _ hc hl => hc.step hl
  · intro s l t hc hne hl
    obtain ⟨k, hk⟩ := Option.ne_none_iff_exists'.1 hne
    simp [(hc.step_keeps hl).2 k hk]
  · rintro s l hc ⟨i, t, -, ht, hst⟩ hne
    exact hne ((hc.stores_empty (List.mem_of_getElem? ht)).2 hst)
  · exact fun s l t hw hl => keyShare_of_stores hw hl

/-- The step at which the run of `ls` from `s` takes a step of the kind `C`. -/
def Passes (s : Config X) (ls : List (Label X)) (C : Config X → Label X → Prop) : Prop :=
  ∃ pre l post u, ls = pre ++ l :: post ∧ (orchestratorMachine X).run s pre = some u ∧ C u l

/-- An aux info in use was returned by the aux task of the run. -/
theorem run_hasAux {s : Config X} {ls : List (Label X)} (hs : (orchestratorMachine X).init s)
    (hr : (orchestratorMachine X).run s ls = some c) {a : X.AuxInfo} (h : c.HasAux a) :
    s.Passes ls (ReturnsAux a) := by
  refine (Machine.run_origin (step_hasAux a) hr h).resolve_left ?_
  obtain ⟨p, ps, m, rfl⟩ := hs
  simp [HasAux, MPCOrchestrator.new]

/-- A key share in use was returned by the keygen task of the run. -/
theorem run_hasShare {s : Config X} {ls : List (Label X)} (hs : (orchestratorMachine X).init s)
    (hr : (orchestratorMachine X).run s ls = some c) {share : X.KeyShare}
    (h : c.HasShare share) : s.Passes ls (ReturnsShare share) := by
  refine (Machine.run_origin (step_hasShare share) hr h).resolve_left ?_
  obtain ⟨p, ps, m, rfl⟩ := hs
  simp [HasShare, MPCOrchestrator.new]

/-- Where aux generation has completed there is an aux info, and where signing has completed there
are an aux info and a key share. -/
theorem Shaped.completed_cells (h : c.Shaped) :
    (c.inst.orch.state = .auxCompleted → c.inst.orch.auxInfo ≠ none) ∧
      ∀ sig, c.inst.orch.state = .signingCompleted sig →
        c.inst.orch.auxInfo ≠ none ∧ c.inst.orch.keyShare ≠ none := by
  constructor
  · intro hst
    simp only [Config.Shaped, hst] at h
    obtain ⟨_, _, _, a, -, -, ha, -⟩ := h.of_auxCompleted
    simp [ha]
  · intro sig hst
    simp only [Config.Shaped, hst] at h
    generalize c.inst.tasks = tasks, c.pending = pend, c.inst.orch.auxInfo = a,
      c.inst.orch.keyShare = k at h
    cases h with
    | signingCompleted => exact ⟨Option.some_ne_none _, Option.some_ne_none _⟩

end Config

/-- The provenance of key material in a run of an orchestrator: what a cell holds it keeps, and it
is stored to once; a keygen task was given an aux info that the aux task of the run returned; a
signing task was given a key share that the keygen task of the run returned and the aux info that
the keygen task was given; and the completed states have what they promise. -/
theorem key_material_provenance {s c : Config X} {ls : List (Label X)}
    (hs : (orchestratorMachine X).init s) (hr : (orchestratorMachine X).run s ls = some c) :
    (∀ ms d, (orchestratorMachine X).run c ms = some d →
      (∀ a, c.inst.orch.auxInfo = some a → d.inst.orch.auxInfo = some a) ∧
        ∀ share, c.inst.orch.keyShare = some share → d.inst.orch.keyShare = some share) ∧
    (∀ l c' ms d l', c.step l = some c' → (orchestratorMachine X).run c' ms = some d →
      (c.StoresAux l → ¬ d.StoresAux l') ∧ (c.StoresShare l → ¬ d.StoresShare l')) ∧
    (∀ l c', c.step l = some c' →
      (c.StoresAux l ∨ c'.inst.orch.auxInfo = c.inst.orch.auxInfo) ∧
        (c.StoresShare l ∨ c'.inst.orch.keyShare = c.inst.orch.keyShare)) ∧
    (∀ p n u ts pc, .keygen p n u ts pc ∈ c.inst.tasks →
      s.Passes ls (Config.ReturnsAux p.auxInfo)) ∧
    (∀ p sg m ts pc, .signing p sg m ts pc ∈ c.inst.tasks →
      s.Passes ls (Config.ReturnsShare p.keyShare) ∧
        ∃ kp n u ts' pc', .keygen kp n u ts' pc' ∈ c.inst.tasks ∧ p.auxInfo = kp.auxInfo) ∧
    (c.inst.orch.state = .auxCompleted → c.inst.orch.auxInfo ≠ none) ∧
    ∀ sig, c.inst.orch.state = .signingCompleted sig →
      c.inst.orch.auxInfo ≠ none ∧ c.inst.orch.keyShare ≠ none := by
  have hsh : c.Shaped := reachable_shaped ⟨s, ls, hs, hr⟩
  refine ⟨fun ms d hd => hsh.run_keeps hd, ?_, fun l c' hl => Config.step_cells hl, ?_, ?_,
    hsh.completed_cells⟩
  · intro l c' ms d l' hl hd
    exact ⟨fun h => hsh.storesAux_once h hl hd, fun h => hsh.storesShare_once h hl hd⟩
  · intro p n u ts pc ht
    exact Config.run_hasAux hs hr (.inl (hsh.keygen_given ht))
  · intro p sg m ts pc ht
    obtain ⟨-, hk, hkp⟩ := hsh.signing_given ht
    exact ⟨Config.run_hasShare hs hr (.inl hk), hkp⟩

/-- The keygen task of the first of three parties was given the aux info `5` that its aux task
returned. -/
theorem announced_provenance : ShareWindowRun.start.Passes ShareWindowRun.labels
    (Config.ReturnsAux (5 : ℕ)) := by
  have hrun : (orchestratorMachine .plain).run ShareWindowRun.start ShareWindowRun.labels =
    some ShareWindowRun.announced := rfl
  exact (key_material_provenance ⟨_, _, _, rfl⟩ hrun).2.2.2.1 (.new 0 1 (5 : ℕ)) 3 2 0
    (.published [2]) (.tail _ (.head _))

end P2pMpc
