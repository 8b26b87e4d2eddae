import P2pMpc.PhaseShape

/-!
# The number of parties in the three phases

The aux handler passes a hardcoded 3 to `aux_info_gen`, the keygen handler passes on the
`total_parties` of the message, and neither looks at the size of the assignment. `CountsAgree` is
the law that all of them are that size, with the bounds on the threshold and on the party indices;
`MessageCounts` is what a message has to satisfy for its handling to keep the law, and
`party_counts_agree_iff` says that a run obeys the law exactly when every message it handles does.
-/

namespace P2pMpc

open StateMachine MPCOrchestrator

variable {X : Platform}

/-- `party_assignments.len()`. -/
def MPCOrchestrator.partyCount (o : MPCOrchestrator X) : ℕ := o.partyAssignments.entries.length

/-- The protocol run a task starts has `N` parties, a threshold in `1..=N`, and a party index
below `N`. -/
def Task.CountsAgree (N : ℕ) : Task X → Prop
  | .aux p n ts _ => (p.generateAuxInfo n ts).n.toNat = N ∧ (p.generateAuxInfo n ts).i.toNat < N
  | .keygen p n t ts _ =>
      (p.generateKeyShare n t ts).n.toNat = N ∧ 1 ≤ (p.generateKeyShare n t ts).t.toNat ∧
        (p.generateKeyShare n t ts).t.toNat ≤ N ∧ (p.generateKeyShare n t ts).i.toNat < N
  | .signing p _ _ _ _ => p.id.toNat < N

theorem Task.countsAgree_spawned (t : Task X) (N : ℕ) :
    t.spawned.CountsAgree N ↔ t.CountsAgree N := by
  cases t <;> rfl

/-- The index assigned to the local peer is below the number of parties. -/
def MPCOrchestrator.IndexBelow (o : MPCOrchestrator X) : Prop :=
  ∀ i, o.localPartyIndex = some i → i.toNat < o.partyCount

/-- What a message that is accepted must satisfy: an aux generation can only be right for three
parties and with an index among theirs, a keygen only with the size of the assignment. -/
def MPCOrchestrator.MessageCounts (o : MPCOrchestrator X) : CoordinationMessage X → Prop
  | .initiateAux _ _ pa timestamp =>
      ∀ i ts, o.AuxChecks pa timestamp i ts → o.partyCount = 3 ∧ i.toNat < 3
  | .initiateKeygen _ t n timestamp =>
      (∃ i ts, o.KeygenChecks t n timestamp i ts) → o.auxInfo ≠ none → n.toNat = o.partyCount
  | _ => True

namespace Config

/-- The law: every protocol run started so far agrees with the assignment. -/
def CountsAgree (c : Config X) : Prop :=
  c.inst.orch.IndexBelow ∧ ∀ t ∈ c.inst.tasks, t.CountsAgree c.inst.orch.partyCount

/-- The message a step handles satisfies its condition. -/
def StepCounts (c : Config X) : Label X → Prop
  | .call _ _ msg => c.inst.orch.MessageCounts msg
  | _ => True

/-- What a waiting call has checked. -/
def PendingChecked (c : Config X) : Pending X → Prop
  | .keygen i t n _ => c.inst.orch.localPartyIndex = some i ∧ t ≠ 0 ∧ t ≤ n
  | .signing i _ _ _ => c.inst.orch.localPartyIndex = some i
  | .signingAux i _ _ _ _ => c.inst.orch.localPartyIndex = some i

/-- A reachable shape whose waiting call has made its checks. -/
def Checked (c : Config X) : Prop := c.Shaped ∧ ∀ p, c.pending = some p → c.PendingChecked p

/-- The law together with what a waiting keygen call owes it. -/
def CountsKept (c : Config X) : Prop :=
  c.CountsAgree ∧ ∀ i t n ts, c.pending = some (.keygen i t n ts) → c.inst.orch.auxInfo ≠ none →
    n.toNat = c.inst.orch.partyCount

end Config

/-! ### The roster fixes the bounds -/

namespace MPCOrchestrator

variable {o o' : MPCOrchestrator X}

theorem partyCount_of_roster (h : o'.roster = o.roster) : o'.partyCount = o.partyCount := by
  have h2 : o'.partyAssignments = o.partyAssignments := congrArg (·.2.1) h
  rw [partyCount, partyCount, h2]

theorem localPartyIndex_of_roster (h : o'.roster = o.roster) :
    o'.localPartyIndex = o.localPartyIndex := by
  have h2 : o'.partyAssignments = o.partyAssignments := congrArg (·.2.1) h
  have h3 : o'.localPeerId = o.localPeerId := congrArg (·.2.2) h
  rw [localPartyIndex, localPartyIndex, h2, h3]

theorem indexBelow_of_roster (h : o'.roster = o.roster) : o'.IndexBelow ↔ o.IndexBelow := by
  rw [IndexBelow, IndexBelow, partyCount_of_roster h, localPartyIndex_of_roster h]

theorem messageCounts_of_not_enters {msg : CoordinationMessage X} (h : ¬ o.Enters msg) :
    o.MessageCounts msg := by
  cases msg with
  | initiateAux => exact fun i ts hc => absurd ⟨i, ts, hc⟩ h
  | initiateKeygen => exact fun hc => absurd hc h
  | _ => trivial

end MPCOrchestrator

namespace Config

variable {c c' : Config X}

theorem countsAgree_iff : c.CountsAgree ↔ c.inst.orch.IndexBelow ∧
    ∀ t ∈ c.inst.tasks.map Task.spawned, t.CountsAgree c.inst.orch.partyCount := by
  simp [CountsAgree, Task.countsAgree_spawned]

/-- The law depends on the roster and on the tasks as they were spawned. -/
theorem countsAgree_congr (hr : c'.inst.orch.roster = c.inst.orch.roster)
    (ht : c'.inst.tasks.map Task.spawned = c.inst.tasks.map Task.spawned) :
    c'.CountsAgree ↔ c.CountsAgree := by
  rw [countsAgree_iff, countsAgree_iff, ht, indexBelow_of_roster hr, partyCount_of_roster hr]

/-- A new task adds its own counts to the law. -/
theorem countsAgree_spawn {t : Task X} (hr : c'.inst.orch.roster = c.inst.orch.roster)
    (ht : c'.inst.tasks = c.inst.tasks ++ [t]) :
    c'.CountsAgree ↔ c.CountsAgree ∧ t.CountsAgree c.inst.orch.partyCount := by
  simp [CountsAgree, ht, indexBelow_of_roster hr, partyCount_of_roster hr, or_imp, forall_and,
    and_assoc]

/-! ### Steps -/

/-- While a keygen call waits, no task can write. -/
theorem Shaped.no_advance (h : c.Shaped) {i : PartyIndex} {t n : UInt16} {ts : UInt64}
    (hp : c.pending = some (.keygen i t n ts)) (k : ℕ) : c.step (.advance k) = none := by
  obtain ⟨⟨⟨st, ps, pa, lp, tx₁, tx₂, tx₃, a, ks⟩, tasks⟩, pend⟩ := c
  simp only [Config.Shaped] at h hp
  cases h with
  | keygenDoomed => rfl
  | keygenEntered => rcases k with _ | k <;> rfl
  | signingEntered _ _ _ _ _ _ _ _ _ _ _ _ _ _ _ _ hw =>
    cases hw <;> cases hp
  | _ => cases hp

theorem Checked.step {l : Label X} (h : c.Checked) (hs : c.step l = some c') : c'.Checked := by
  refine ⟨h.1.step hs, ?_⟩
  have hr := localPartyIndex_of_roster (step_roster hs)
  cases l with
  | call chan sender msg =>
    obtain ⟨hp, rfl⟩ := step_call_eq_some.1 hs
    rcases c.call_cases hp chan sender msg with ⟨-, he⟩ | ⟨_, _, _, _, _, _, -, -, he⟩ |
        ⟨_, _, _, _, _, _, -, hc, he⟩ | ⟨_, _, s, _, i, _, -, hc, he⟩ <;> rw [he] at hr ⊢
    · exact h.2
    · rintro p ⟨⟩
    · rintro p ⟨⟩
      exact ⟨hr.trans hc.2.2.2.2, hc.2.2.1, hc.2.2.2.1⟩
    · intro p hpend
      dsimp only at hpend
      split_ifs at hpend
      cases hpend
      exact hr.trans hc.2.2
  | resume chan =>
    rcases resume_cases hs with ⟨_, -, -, rfl⟩ | ⟨_, _, _, _, _, hp, -, rfl⟩ |
        ⟨_, _, _, _, _, -, -, rfl⟩ | ⟨_, _, _, _, _, _, -, -, rfl⟩
    · rintro p ⟨⟩
    · rintro p ⟨⟩
      exact h.2 _ hp
    · rintro p ⟨⟩
    · rintro p ⟨⟩
  | finish i r =>
    obtain ⟨_, _, -, -, rfl⟩ := step_finish_eq_some.1 hs
    exact h.2
  | advance i =>
    obtain ⟨_, _, o, -, -, rfl⟩ := step_advance_eq_some.1 hs
    intro p hp
    have hc := h.2 p hp
    cases p <;> simp_all [PendingChecked]

theorem countsKept_of_not_keygen (hp : ∀ i t n ts, c.pending ≠ some (.keygen i t n ts)) :
    c.CountsKept ↔ c.CountsAgree :=
  and_iff_left fun i t n ts h => absurd h (hp i t n ts)

theorem countsKept_of_keygen {i : PartyIndex} {t n : UInt16} {ts : UInt64}
    (hp : c.pending = some (.keygen i t n ts)) :
    c.CountsKept ↔ c.CountsAgree ∧ (c.inst.orch.auxInfo ≠ none →
      n.toNat = c.inst.orch.partyCount) := by
  refine and_congr_right fun _ => ⟨fun h => h i t n ts hp, fun h i' t' n' ts' hp' => ?_⟩
  rw [hp] at hp'
  cases hp'
  exact h

theorem countsKept_call {chan : ChannelId} {sender : X.PeerId} {msg : CoordinationMessage X}
    (hs : c.step (.call chan sender msg) = some c') :
    c'.CountsKept ↔ c.CountsKept ∧ c.inst.orch.MessageCounts msg := by
  have hr := step_roster hs
  obtain ⟨hp, hc'⟩ := step_call_eq_some.1 hs
  rw [countsKept_of_not_keygen (c := c) (by simp [hp])]
  rcases c.call_cases hp chan sender msg with ⟨hn, he⟩ |
      ⟨eid, ps, pa, timestamp, i, ts, rfl, hc, he⟩ | ⟨_, t, n, timestamp, i, ts, rfl, hc, he⟩ |
      ⟨_, _, s, _, i, _, rfl, hc, he⟩ <;> rw [he] at hc'
  · rw [hc', countsKept_of_not_keygen (by simp [hp])]
    simp [messageCounts_of_not_enters hn]
  · -- the index in the message's map is the only one that passes the checks
    have hmsg : c.inst.orch.MessageCounts (.initiateAux eid ps pa timestamp) ↔
        c.inst.orch.partyCount = 3 ∧ i.toNat < 3 := by
      refine ⟨fun h => h i ts hc, fun h j ts' hj => ?_⟩
      rwa [← Option.some.inj (hc.2.2.symm.trans hj.2.2)]
    have htasks : c'.inst.tasks =
        c.inst.tasks ++ [.aux (.new i chan) auxTotalParties ts .running] := by
      rw [hc']
    rw [countsKept_of_not_keygen (by simp [hc']), countsAgree_spawn hr htasks, hmsg]
    refine and_congr_right fun _ => ?_
    change 3 = c.inst.orch.partyCount ∧ i.toNat < c.inst.orch.partyCount ↔ _
    constructor <;> rintro ⟨h1, h2⟩ <;> omega
  · have hp' : c'.pending = some (.keygen i t n ts) := by rw [hc']
    have htasks : c'.inst.tasks = c.inst.tasks := by rw [hc']
    have haux : c'.inst.orch.auxInfo = c.inst.orch.auxInfo := by rw [hc']
    rw [countsKept_of_keygen hp', countsAgree_congr hr (by rw [htasks]), haux,
      partyCount_of_roster hr]
    exact and_congr_right fun _ => ⟨fun h _ => h, fun h => h ⟨i, ts, hc⟩⟩
  · have htasks : c'.inst.tasks = c.inst.tasks := by rw [hc']
    rw [countsKept_of_not_keygen, countsAgree_congr hr (by rw [htasks])]
    · exact (and_iff_left trivial).symm
    · intro i t n ts h
      rw [hc'] at h
      dsimp only at h
      split_ifs at h
      cases h

theorem countsKept_resume {chan : ChannelId} (h : c.Checked)
    (hs : c.step (.resume chan) = some c') : c'.CountsKept ↔ c.CountsKept := by
  have hr := step_roster hs
  rcases resume_cases hs with ⟨p, hp, hend, hc'⟩ | ⟨_, _, _, _, _, hp, -, hc'⟩ |
      ⟨i, t, n, ts, a, hp, ha, hc'⟩ | ⟨i, _, _, _, _, _, hp, -, hc'⟩
  · rw [countsKept_of_not_keygen (by simp [hc']), countsAgree_congr hr (by rw [hc'])]
    refine (and_iff_left fun i t n ts hk hsome => ?_).symm
    rcases hend with hnone | ⟨_, _, _, _, _, rfl⟩
    · exact absurd hnone hsome
    · rw [hp] at hk
      cases hk
  · rw [countsKept_of_not_keygen (by simp [hc']), countsKept_of_not_keygen (by simp [hp]),
      countsAgree_congr hr (by rw [hc'])]
  · obtain ⟨hi, ht0, htn⟩ := h.2 _ hp
    have ht1 : 1 ≤ t.toNat := Nat.pos_of_ne_zero fun h0 => ht0 (UInt16.toNat_inj.1 h0)
    have htn' : t.toNat ≤ n.toNat := UInt16.le_iff_toNat_le.1 htn
    have htasks : c'.inst.tasks = c.inst.tasks ++ [.keygen (.new i chan a) n t ts .running] := by
      rw [hc']
    rw [countsKept_of_not_keygen (by simp [hc']), countsAgree_spawn hr htasks,
      countsKept_of_keygen hp]
    refine and_congr_right fun hagree => ?_
    have hbelow := hagree.1 i hi
    change n.toNat = c.inst.orch.partyCount ∧ 1 ≤ t.toNat ∧ t.toNat ≤ c.inst.orch.partyCount ∧
      i.toNat < c.inst.orch.partyCount ↔ _
    simp only [ha, ne_eq, reduceCtorEq, not_false_eq_true, forall_const]
    constructor
    · exact fun hx => hx.1
    · intro hn
      exact ⟨hn, ht1, hn ▸ htn', hbelow⟩
  · rw [countsKept_of_not_keygen (by simp [hc']), countsAgree_spawn hr (by rw [hc']),
      countsKept_of_not_keygen (by simp [hp])]
    exact and_iff_left_of_imp fun hagree => hagree.1 i (h.2 _ hp)

/-- A step ends in the law exactly if it starts in it and handles a message that satisfies its
condition. -/
theorem countsKept_step {l : Label X} (h : c.Checked) (hs : c.step l = some c') :
    c'.CountsKept ↔ c.CountsKept ∧ c.StepCounts l := by
  have hr := step_roster hs
  cases l with
  | call chan sender msg =>
    exact countsKept_call hs
  | resume chan => exact (countsKept_resume h hs).trans (and_iff_left trivial).symm
  | finish i r =>
    obtain ⟨t, t', ht, hf, rfl⟩ := step_finish_eq_some.1 hs
    have hkeep := countsAgree_congr hr (map_spawned_set ht (Task.finish_spawned hf))
    simp only [CountsKept, hkeep, StepCounts, and_true]
  | advance i =>
    have hnot : ∀ j t n ts, c.pending ≠ some (.keygen j t n ts) := fun j t n ts hp => by
      rw [h.1.no_advance hp i] at hs
      cases hs
    obtain ⟨t, t', o, ht, ha, rfl⟩ := step_advance_eq_some.1 hs
    have hkeep := countsAgree_congr hr (map_spawned_set ht (Task.advance_spawned ha).1)
    rw [countsKept_of_not_keygen (c := c) hnot, countsKept_of_not_keygen (by exact hnot), hkeep]
    exact (and_iff_left trivial).symm

end Config

/-- A run that starts with the construction of an orchestrator obeys the law if its local index is
below the number of parties and every message it handles satisfies its condition; and if no call is
left waiting at its end, then only if they do. -/
theorem party_counts_agree_iff {s c : Config X} {ls : List (Label X)}
    (h0 : (orchestratorMachine X).init s) (hr : (orchestratorMachine X).run s ls = some c) :
    (s.inst.orch.IndexBelow ∧ (orchestratorMachine X).Meets Config.StepCounts s ls →
      c.CountsAgree) ∧
    (c.pending = none → c.CountsAgree →
      s.inst.orch.IndexBelow ∧ (orchestratorMachine X).Meets Config.StepCounts s ls) := by
  have hkept : s.CountsKept ↔ s.inst.orch.IndexBelow := by
    obtain ⟨p, ps, m, rfl⟩ := h0
    simp [Config.CountsKept, Config.CountsAgree]
  have hchecked : s.Checked := by
    refine ⟨reachable_shaped (.of_init h0), ?_⟩
    obtain ⟨p, ps, m, rfl⟩ := h0
    rintro _ ⟨⟩
  have hrun := Machine.run_iff_meets (M := orchestratorMachine X)
    (fun _ _ _ h hs => Config.Checked.step h hs)
    (fun _ _ _ h hs => Config.countsKept_step h hs) hchecked hr
  rw [hkept] at hrun
  constructor
  · exact fun h => (hrun.2 h).1
  · intro hp hc
    exact hrun.1 ⟨hc, by simp [hp]⟩

/-! ### The law with three parties and with two -/

namespace PartyCountRun

/-- A newly constructed orchestrator of the peer `a`. -/
def start (peers : List String) (assignment : HashMap String PartyIndex) : Config .plain :=
  ⟨⟨.new "a" peers assignment, []⟩, none⟩

/-- An aux generation under the orchestrator's own assignment. -/
def initiate (peers : List String) (assignment : HashMap String PartyIndex) : Label .plain :=
  .call 0 "a" (.initiateAux [] peers assignment ⟨0⟩)

def three : HashMap String PartyIndex := .ofEntries [("a", 0), ("b", 1), ("c", 2)]

def two : HashMap String PartyIndex := .ofEntries [("a", 0), ("b", 1)]

end PartyCountRun

open PartyCountRun

/-- With three parties the law holds. -/
theorem three_party_counts_agree : ∃ c, (orchestratorMachine .plain).run
      (start ["a", "b", "c"] three) [initiate ["a", "b", "c"] three] = some c ∧
    c.inst.tasks.length = 1 ∧ c.CountsAgree := by
  refine ⟨_, rfl, rfl, ?_⟩
  have h0 : (orchestratorMachine .plain).init (start ["a", "b", "c"] three) := ⟨_, _, _, rfl⟩
  have hr : (orchestratorMachine .plain).run (start ["a", "b", "c"] three)
      [initiate ["a", "b", "c"] three] = some _ := rfl
  refine (party_counts_agree_iff h0 hr).1 ⟨?_, ?_, fun _ _ => trivial⟩
  · rintro i hi
    cases hi
    decide
  · rintro i ts ⟨-, -, hi⟩
    cases hi
    decide

/-- With two parties an aux generation under the assignment itself runs with three. -/
theorem two_party_aux_runs_with_three : ∃ c, (orchestratorMachine .plain).run
      (start ["a", "b"] two) [initiate ["a", "b"] two] = some c ∧
    c.inst.orch.partyCount = 2 ∧ ¬ c.CountsAgree := by
  refine ⟨_, rfl, rfl, fun h => ?_⟩
  have hx := h.2 (.aux (.new 0 0) 3 0 .running) (by exact List.mem_singleton_self _)
  exact absurd hx.1 (by decide)

end P2pMpc
