import P2pMpc.Interleaving

/-!
# The shape of a reachable orchestrator

`PhaseShape` lists every combination of protocol state, spawned tasks, pending handler call and
cell contents an orchestrator instance can reach. Each task occurs at most once and in the order
aux, keygen, signing; the cells hold what those tasks returned; and the two Initiate handlers that
accept `Idle` leave the shapes named `stuck`, in which no task runs and which no later message
leaves. `Reachable.shaped` is the invariant; the facts about runs that need to know which tasks are
alive in which state are read off it.
-/

namespace P2pMpc

open StateMachine MPCOrchestrator

variable {X : Platform}

/-- The protocol run of an aux task has not yet had an effect on the cells. -/
def AuxPc.Active (pc : AuxPc X) : Prop := pc = .running ∨ ∃ r, pc = .returned r

/-- The protocol run of a keygen task has not yet had an effect on the cells. -/
def KeygenPc.Active (pc : KeygenPc X) : Prop := pc = .running ∨ ∃ r, pc = .returned r

/-- The protocol run of a signing task has not yet had an effect on the cells. -/
def SigningPc.Active (pc : SigningPc X) : Prop := pc = .running ∨ ∃ r, pc = .returned r

/-- A successful keygen task before or after its second write, with the key-share cell. -/
inductive ShareWritten (share : X.KeyShare) : KeygenPc X → Option X.KeyShare → Prop
  | before : ShareWritten share (.published share) none
  | after : ShareWritten share .done (some share)

/-- A signing call of a signer that has found the aux info `a`, or has yet to look. -/
inductive SignerWait (a : X.AuxInfo) : Option (Pending X) → Prop
  | observer : SignerWait a none
  | aux (i m s ts) : SignerWait a (some (.signing i m s ts))
  | share (i m s ts) : SignerWait a (some (.signingAux i a m s ts))

/-- The reachable combinations of state, tasks, pending call, aux info and key share. -/
inductive PhaseShape : ProtocolState X → List (Task X) → Option (Pending X) →
    Option X.AuxInfo → Option X.KeyShare → Prop
  | idle : PhaseShape .idle [] none none none
  | auxActive (q e p n ts) (pc : AuxPc X) (hpc : pc.Active) :
      PhaseShape (.auxGeneration q e) [.aux p n ts pc] none none none
  | auxStored (q e p n ts a) :
      PhaseShape (.auxGeneration q e) [.aux p n ts .stored] none (some a) none
  | auxCompleted (p n ts a) :
      PhaseShape .auxCompleted [.aux p n ts .done] none (some a) none
  | auxFailed (f r p n ts) :
      PhaseShape (.failed f r) [.aux p n ts .done] none none none
  | keygenStuck (q e t) : PhaseShape (.keygen q e t) [] none none none
  | keygenDoomed (q e t i t' n ts) :
      PhaseShape (.keygen q e t) [] (some (.keygen i t' n ts)) none none
  | keygenEntered (q e t p m ts₁ i t' n ts₂ a) :
      PhaseShape (.keygen q e t) [.aux p m ts₁ .done] (some (.keygen i t' n ts₂)) (some a) none
  | keygenActive (q e t p m ts₁) (kp : KeygenParty X) (n t' ts₂) (pc : KeygenPc X)
      (hpc : pc.Active) :
      PhaseShape (.keygen q e t) [.aux p m ts₁ .done, .keygen kp n t' ts₂ pc] none
        (some kp.auxInfo) none
  | keygenFailed (f r p m ts₁) (kp : KeygenParty X) (n t ts₂) :
      PhaseShape (.failed f r) [.aux p m ts₁ .done, .keygen kp n t ts₂ .done] none
        (some kp.auxInfo) none
  | keygenCompleted (p m ts₁) (kp : KeygenParty X) (n t ts₂ share pc ks)
      (hw : ShareWritten share pc ks) :
      PhaseShape (.keygenCompleted (publicKeyHex share))
        [.aux p m ts₁ .done, .keygen kp n t ts₂ pc] none (some kp.auxInfo) ks
  | signingStuck (q e m s) : PhaseShape (.signing q e m s) [] none none none
  | signingDoomed (q e m s i m' s' ts) :
      PhaseShape (.signing q e m s) [] (some (.signing i m' s' ts)) none none
  | signingEntered (q e m s p n₁ ts₁) (kp : KeygenParty X) (n t ts₂ share pc ks pend)
      (hw : ShareWritten share pc ks) (hs : SignerWait kp.auxInfo pend) :
      PhaseShape (.signing q e m s) [.aux p n₁ ts₁ .done, .keygen kp n t ts₂ pc] pend
        (some kp.auxInfo) ks
  | signingActive (q e m s p n₁ ts₁) (kp : KeygenParty X) (n t ts₂) (sp : SigningParty X)
      (s' m' ts₃) (pc : SigningPc X) (hpc : pc.Active) (ha : sp.auxInfo = kp.auxInfo) :
      PhaseShape (.signing q e m s)
        [.aux p n₁ ts₁ .done, .keygen kp n t ts₂ .done, .signing sp s' m' ts₃ pc] none
        (some sp.auxInfo) (some sp.keyShare)
  | signingCompleted (sig p n₁ ts₁) (kp : KeygenParty X) (n t ts₂) (sp : SigningParty X)
      (s' m' ts₃) (ha : sp.auxInfo = kp.auxInfo) :
      PhaseShape (.signingCompleted sig)
        [.aux p n₁ ts₁ .done, .keygen kp n t ts₂ .done, .signing sp s' m' ts₃ .done] none
        (some sp.auxInfo) (some sp.keyShare)
  | signingFailed (f r p n₁ ts₁) (kp : KeygenParty X) (n t ts₂) (sp : SigningParty X)
      (s' m' ts₃) (ha : sp.auxInfo = kp.auxInfo) :
      PhaseShape (.failed f r)
        [.aux p n₁ ts₁ .done, .keygen kp n t ts₂ .done, .signing sp s' m' ts₃ .done] none
        (some sp.auxInfo) (some sp.keyShare)

/-- A configuration of one of the shapes. -/
def Config.Shaped (c : Config X) : Prop :=
  PhaseShape c.inst.orch.state c.inst.tasks c.pending c.inst.orch.auxInfo c.inst.orch.keyShare

namespace PhaseShape

variable {st : ProtocolState X} {tasks : List (Task X)} {pend : Option (Pending X)}
  {a : Option X.AuxInfo} {k : Option X.KeyShare}

theorem of_idle (h : PhaseShape .idle tasks pend a k) :
    tasks = [] ∧ pend = none ∧ a = none ∧ k = none := by
  cases h
  exact ⟨rfl, rfl, rfl, rfl⟩

theorem of_auxCompleted (h : PhaseShape .auxCompleted tasks pend a k) :
    ∃ p n ts a', tasks = [.aux p n ts .done] ∧ pend = none ∧ a = some a' ∧ k = none := by
  cases h with
  | auxCompleted p n ts a' => exact ⟨p, n, ts, a', rfl, rfl, rfl, rfl⟩

theorem of_keygenCompleted {pk : String} (h : PhaseShape (.keygenCompleted pk) tasks pend a k) :
    ∃ p m ts₁ kp n t ts₂ share pc, ShareWritten share pc k ∧ pk = publicKeyHex share ∧
      tasks = [.aux p m ts₁ .done, .keygen kp n t ts₂ pc] ∧ pend = none ∧
      a = some kp.auxInfo := by
  cases h with
  | keygenCompleted p m ts₁ kp n t ts₂ share pc _ hw =>
    exact ⟨p, m, ts₁, kp, n, t, ts₂, share, pc, hw, rfl, rfl, rfl, rfl⟩

end PhaseShape

/-! ### One lemma for each kind of step -/

namespace Config.Shaped

theorem call {c : Config X} (h : c.Shaped) (hp : c.pending = none) (chan : ChannelId)
    (sender : X.PeerId) (msg : CoordinationMessage X) : (c.call chan sender msg).Shaped := by
  rcases c.call_cases hp chan sender msg with ⟨-, he⟩ | ⟨eid, _, _, _, i, ts, -, hc, he⟩ |
      ⟨eid, t, n, _, i, ts, -, hc, he⟩ | ⟨eid, m, s, _, i, ts, -, hc, he⟩ <;> rw [he]
  · exact h
  · rw [Config.Shaped, hc.2.1] at h
    obtain ⟨h1, -, h3, h4⟩ := h.of_idle
    simp only [Config.Shaped, h1, h3, h4, List.nil_append]
    exact .auxActive _ _ _ _ _ _ (.inl rfl)
  · have hr := hc.2.1
    simp only [Config.Shaped] at h ⊢
    generalize c.inst.orch.state = st at h hr
    cases st <;> simp only [readyForKeygen, Bool.false_eq_true] at hr
    · obtain ⟨h1, -, h3, h4⟩ := h.of_idle
      rw [h1, h3, h4]
      exact .keygenDoomed _ _ _ _ _ _ _
    · obtain ⟨p, m, ts₁, a', h1, -, h3, h4⟩ := h.of_auxCompleted
      rw [h1, h3, h4]
      exact .keygenEntered _ _ _ _ _ _ _ _ _ _ _
  · have hr := hc.2.1
    simp only [Config.Shaped] at h ⊢
    generalize c.inst.orch.state = st at h hr
    cases st <;> simp only [readyForSigning, Bool.false_eq_true] at hr
    · obtain ⟨h1, -, h3, h4⟩ := h.of_idle
      rw [h1, h3, h4]
      split
      · exact .signingDoomed _ _ _ _ _ _ _ _
      · exact .signingStuck _ _ _ _
    · obtain ⟨p, n₁, ts₁, kp, n, t, ts₂, share, pc, hw, -, h1, -, h3⟩ := h.of_keygenCompleted
      rw [h1, h3]
      split
      · exact .signingEntered _ _ _ _ _ _ _ _ _ _ _ _ _ _ _ hw (.aux _ _ _ _)
      · exact .signingEntered _ _ _ _ _ _ _ _ _ _ _ _ _ _ _ hw .observer

theorem resume {c c' : Config X} {chan : ChannelId} (h : c.Shaped)
    (hs : c.step (.resume chan) = some c') : c'.Shaped := by
  obtain ⟨⟨⟨st, ps, pa, lp, tx₁, tx₂, tx₃, a, k⟩, tasks⟩, pend⟩ := c
  simp only [Config.Shaped] at h
  cases h with
  | keygenDoomed q e t i t' n ts =>
    cases hs
    exact .keygenStuck _ _ _
  | keygenEntered q e t p m ts₁ i t' n ts₂ a =>
    cases hs
    exact .keygenActive _ _ _ _ _ _ (.new i chan a) _ _ _ _ (.inl rfl)
  | signingDoomed q e m s i m' s' ts =>
    cases hs
    exact .signingStuck _ _ _ _
  | signingEntered q e m s p n₁ ts₁ kp n t ts₂ share pc ks _ hw hwait =>
    cases hwait with
    | observer => cases hs
    | aux i m' s' ts =>
      cases hs
      exact .signingEntered _ _ _ _ _ _ _ _ _ _ _ _ _ _ _ hw (.share _ _ _ _)
    | share i m' s' ts =>
      cases hw with
      | before =>
        cases hs
        exact .signingEntered _ _ _ _ _ _ _ _ _ _ _ _ _ _ _ .before .observer
      | after =>
        cases hs
        exact .signingActive _ _ _ _ _ _ _ kp _ _ _ (.new i chan share kp.auxInfo) _ _ _ _
          (.inl rfl) rfl
  | _ => cases hs

theorem finish {c c' : Config X} {i : ℕ} {r : Outcome X} (h : c.Shaped)
    (hs : c.step (.finish i r) = some c') : c'.Shaped := by
  obtain ⟨⟨⟨st, ps, pa, lp, tx₁, tx₂, tx₃, a, k⟩, tasks⟩, pend⟩ := c
  simp only [Config.step, Option.map_eq_some_iff, Option.bind_eq_some_iff] at hs
  obtain ⟨t', ⟨t, ht, hf⟩, rfl⟩ := hs
  simp only [Config.Shaped] at h ⊢
  -- only a running task returns, and it is the last one of its list
  cases h with
  | auxActive q e p n ts pc hpc =>
    rcases i with _ | i
    · cases ht
      rcases hpc with rfl | ⟨r', rfl⟩ <;> cases r <;> cases hf
      exact .auxActive _ _ _ _ _ _ (.inr ⟨_, rfl⟩)
    · cases ht
  | keygenActive q e t p m ts₁ kp n t' ts₂ pc hpc =>
    rcases i with _ | _ | i
    · cases ht; cases r <;> cases hf
    · cases ht
      rcases hpc with rfl | ⟨r', rfl⟩ <;> cases r <;> cases hf
      exact .keygenActive _ _ _ _ _ _ _ _ _ _ _ (.inr ⟨_, rfl⟩)
    · cases ht
  | signingActive q e m s p n₁ ts₁ kp n t ts₂ sp s' m' ts₃ pc hpc ha =>
    rcases i with _ | _ | _ | i
    · cases ht; cases r <;> cases hf
    · cases ht; cases r <;> cases hf
    · cases ht
      rcases hpc with rfl | ⟨r', rfl⟩ <;> cases r <;> cases hf
      exact .signingActive _ _ _ _ _ _ _ _ _ _ _ _ _ _ _ _ (.inr ⟨_, rfl⟩) ha
    · cases ht
  | keygenCompleted _ _ _ _ _ _ _ _ _ _ hw =>
    rcases i with _ | _ | i <;> cases ht <;> cases hw <;> cases r <;> cases hf
  | signingEntered _ _ _ _ _ _ _ _ _ _ _ _ _ _ _ hw _ =>
    rcases i with _ | _ | i <;> cases ht <;> cases hw <;> cases r <;> cases hf
  | idle | keygenStuck | keygenDoomed | signingStuck | signingDoomed => cases ht
  | auxStored | auxCompleted | auxFailed | keygenEntered =>
    rcases i with _ | i <;> cases ht
    cases r <;> cases hf
  | keygenFailed => rcases i with _ | _ | i <;> cases ht <;> cases r <;> cases hf
  | signingCompleted | signingFailed =>
    rcases i with _ | _ | _ | i <;> cases ht <;> cases r <;> cases hf

theorem advance {c c' : Config X} {i : ℕ} (h : c.Shaped)
    (hs : c.step (.advance i) = some c') : c'.Shaped := by
  obtain ⟨⟨⟨st, ps, pa, lp, tx₁, tx₂, tx₃, a, k⟩, tasks⟩, pend⟩ := c
  simp only [Config.step, Option.map_eq_some_iff, Option.bind_eq_some_iff] at hs
  obtain ⟨⟨o', t'⟩, ⟨t, ht, hf⟩, rfl⟩ := hs
  simp only [Config.Shaped] at h ⊢
  cases h with
  | auxActive q e p n ts pc hpc =>
    rcases i with _ | i
    · cases ht
      rcases hpc with rfl | ⟨r | r, rfl⟩ <;> cases hf
      · exact .auxFailed _ _ _ _ _
      · exact .auxStored _ _ _ _ _ _
    · cases ht
  | auxStored q e p n ts a =>
    rcases i with _ | i
    · cases ht; cases hf
      exact .auxCompleted _ _ _ _
    · cases ht
  | keygenActive q e t p m ts₁ kp n t' ts₂ pc hpc =>
    rcases i with _ | _ | i
    · cases ht; cases hf
    · cases ht
      rcases hpc with rfl | ⟨r | r, rfl⟩ <;> cases hf
      · exact .keygenFailed _ _ _ _ _ _ _ _ _
      · exact .keygenCompleted _ _ _ _ _ _ _ _ _ _ .before
    · cases ht
  | keygenCompleted p m ts₁ kp n t ts₂ share pc _ hw =>
    rcases i with _ | _ | i
    · cases ht; cases hf
    · cases ht
      cases hw <;> cases hf
      exact .keygenCompleted _ _ _ _ _ _ _ _ _ _ .after
    · cases ht
  | signingEntered q e m s p n₁ ts₁ kp n t ts₂ share pc _ _ hw hwait =>
    rcases i with _ | _ | i
    · cases ht; cases hf
    · cases ht
      cases hw <;> cases hf
      exact .signingEntered _ _ _ _ _ _ _ _ _ _ _ _ _ _ _ .after hwait
    · cases ht
  | signingActive q e m s p n₁ ts₁ kp n t ts₂ sp s' m' ts₃ pc hpc ha =>
    rcases i with _ | _ | _ | i
    · cases ht; cases hf
    · cases ht; cases hf
    · cases ht
      rcases hpc with rfl | ⟨r | r, rfl⟩ <;> cases hf
      · exact .signingFailed _ _ _ _ _ _ _ _ _ _ _ _ _ ha
      · exact .signingCompleted _ _ _ _ _ _ _ _ _ _ _ _ ha
    · cases ht
  | idle | keygenStuck | keygenDoomed | signingStuck | signingDoomed => cases ht
  | auxCompleted | auxFailed | keygenEntered => rcases i with _ | i <;> cases ht; cases hf
  | keygenFailed => rcases i with _ | _ | i <;> cases ht <;> cases hf
  | signingCompleted | signingFailed =>
    rcases i with _ | _ | _ | i <;> cases ht <;> cases hf

/-- Every step keeps the shape. -/
theorem step {c c' : Config X} {l : Label X} (h : c.Shaped) (hs : c.step l = some c') :
    c'.Shaped := by
  cases l with
  | call chan sender msg =>
    obtain ⟨hp, rfl⟩ := Config.step_call_eq_some.1 hs
    exact h.call hp chan sender msg
  | resume chan => exact h.resume hs
  | finish i r => exact h.finish hs
  | advance i => exact h.advance hs

end Config.Shaped

/-- Every reachable configuration has one of the shapes. -/
theorem reachable_shaped {c : Config X} (h : (orchestratorMachine X).Reachable c) :
    c.Shaped := by
  refine h.induct ?_ fun s l t hs hl => hs.step hl
  rintro _ ⟨p, ps, m, rfl⟩
  exact .idle

end P2pMpc
