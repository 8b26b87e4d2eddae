import P2pMpc.Executions

/-!
# Messages of one execution in another

What the event loop checks before it forwards a protocol message says nothing about the execution
the message comes from. The phase of a message is right, since each phase has a topic of its own.
The execution is right as long as nothing of another execution of the phase is left over: no
party starts on a node to which such a message is on its way, and no party emits while another node
has a party of another execution of its phase. The program has nothing that would see to that.
-/

namespace P2pMpc

open StateMachine Lists

variable {X : Platform} {n : ℕ}

/-- The host that acts. -/
def NetLabel.actor : NetLabel X n → Option (Fin n)
  | .act k _ => some k
  | _ => none

namespace Traced

variable {s t : Traced X n} {l : TracedLabel X n} {k : Fin n} {z : Execution}

/-- The step starts no party on a node to which a message of another execution of its phase is on
its way, and has no party emit while another node has a party of another execution of its phase. -/
def Clean (s : Traced X n) (l : TracedLabel X n) : Prop :=
  (∀ t ∈ s.step l, ∀ k φ, ∀ x ∈ (t.net.hosts k).node.execution φ,
    x ∈ (s.net.hosts k).node.execution φ ∨ ∀ z ∈ s.pending k, z.1 = φ → z = x) ∧
  ∀ z ∈ s.emitter l, ∀ k, l.1.actor ≠ some k →
    ∀ x ∈ (s.net.hosts k).node.execution z.1, x = z

/-- Whatever is on its way to a running party is of its execution. -/
def Pure (s : Traced X n) : Prop :=
  ∀ k, ∀ z ∈ s.pending k, ∀ x ∈ (s.net.hosts k).node.execution z.1, x = z

theorem mem_pending : z ∈ s.pending k ↔
    (∃ p, (p, some z) ∈ s.net.wire.zip s.flying ∧ p.dest = k) ∨
      ∃ j, j ≠ k ∧ some z ∈ s.queued j := by
  simp only [pending, List.mem_append, List.mem_filterMap, List.mem_filter, decide_eq_true_eq,
    List.mem_flatMap, List.mem_finRange, true_and, id_eq, exists_eq_right]
  constructor
  · rintro (⟨⟨p, y⟩, ⟨hmem, hdest⟩, rfl⟩ | hqueued)
    · exact .inl ⟨p, hmem, hdest⟩
    · exact .inr hqueued
  · rintro (⟨p, hmem, hdest⟩ | hqueued)
    · exact .inl ⟨(p, some z), ⟨hmem, hdest⟩, rfl⟩
    · exact .inr hqueued

/-- What is on its way to a host after a step was so before, or is emitted by another host. -/
theorem pending_step (hs : s.Tagged) (h : s.step l = some t) (hz : z ∈ t.pending k) :
    z ∈ s.pending k ∨ z ∈ s.emitter l ∧ l.1.actor ≠ some k := by
  obtain ⟨l, j⟩ := l
  rw [mem_pending] at hz ⊢
  cases l with
  | act i a =>
    obtain ⟨r, -, -, hqueued, hwire, hflying, -⟩ := act_spec h
    rw [hwire, hflying] at hz
    rcases hz with hfly | ⟨m, hmk, hmem⟩
    · exact .inl (.inl hfly)
    · rw [hqueued] at hmem
      split_ifs at hmem with hmi
      · subst hmi
        rcases List.mem_append.1 hmem with hold | hnew
        · exact .inl (.inr ⟨m, hmk, hold⟩)
        · refine .inr ⟨(List.eq_of_mem_replicate hnew).symm, ?_⟩
          rintro ⟨⟩
          exact hmk rfl
      · exact .inl (.inr ⟨m, hmk, hmem⟩)
  | process i published =>
    obtain ⟨c, cs, y, ys, bs, -, hy, -, hqueued, hwire, hflying, -, hbs⟩ := process_spec hs h
    left
    rcases hz with ⟨p, hmem, hdest⟩ | ⟨m, hmk, hmem⟩
    · rw [hwire, hflying] at hmem
      rcases mem_zip_fill hs.flying_length hmem with hold | ⟨hnew, htag⟩
      · exact .inl ⟨p, hold, hdest⟩
      · -- a new packet to `k` was queued at another host, with the same tag
        have hik : i ≠ k := fun he => (hbs p hnew).1 (hdest.trans he.symm)
        refine .inr ⟨i, hik, ?_⟩
        rw [hy]
        exact List.mem_cons.2 (.inl htag)
    · rw [hqueued] at hmem
      split_ifs at hmem with hmi
      · subst hmi
        refine .inr ⟨m, hmk, ?_⟩
        rw [hy]
        exact List.mem_cons_of_mem _ hmem
      · exact .inr ⟨m, hmk, hmem⟩
  | deliver i published now =>
    obtain ⟨p, bs, -, -, -, hqueued, hwire, hflying, -, -⟩ := deliver_spec h
    left
    rw [hwire, hflying, hqueued] at hz
    rcases hz with ⟨q, hmem, hdest⟩ | hqueue
    · rcases mem_zip_fill (hs.flying_eraseIdx i) hmem with hold | ⟨-, htag⟩
      · exact .inl ⟨q, mem_zip_eraseIdx hold, hdest⟩
      · -- what the handling of a packet publishes has no execution
        cases htag
    · exact .inr hqueue

/-- An emission changes no party. -/
theorem execution_of_emitter (h : s.step l = some t) (hz : z ∈ s.emitter l) (k : Fin n) :
    (t.net.hosts k).node = (s.net.hosts k).node := by
  obtain ⟨l, j⟩ := l
  unfold emitter at hz
  split at hz
  · next i φ out j' he =>
    cases he
    obtain ⟨r, hr, hhost⟩ := Net.step_act_eq_some.1 (step_eq_some.1 h).2.1
    obtain ⟨-, hr⟩ := Option.ite_none_right_eq_some.1 hr
    obtain rfl := Option.some.inj hr
    rw [hhost, Net.hosts_setHost]
    split_ifs with hk
    · rw [hk]
      rfl
    · rfl
  · cases hz

/-- A clean step leaves nothing of another execution on its way to a party. -/
theorem Pure.step (hp : s.Pure) (hs : s.Tagged) (hc : s.Clean l) (h : s.step l = some t) :
    t.Pure := by
  intro k z hz x hx
  rcases pending_step hs h hz with hold | ⟨hemit, hactor⟩
  · -- the party was there before the step, or nothing else was on its way to it
    rcases hc.1 t h k z.1 x hx with hbefore | hfresh
    · exact hp k z hold x hbefore
    · exact (hfresh z hold rfl).symm
  · rw [execution_of_emitter h hemit] at hx
    exact hc.2 z hemit k hactor x hx

/-! ### What enters the channel of a party -/

/-- What a delivery has enter a channel is a protocol message for a party that is running. -/
theorem arrivals_spec (hs : s.Tagged) {i : ℕ} {published : Bool} {now : UInt64} {e : Entry X}
    (he : e ∈ s.arrivals i published now k) : ∃ sent received,
      e.emitter = some (e.forwarded.phase, sent) ∧
      e.receiver = some (e.forwarded.phase, received) ∧
      (e.forwarded.phase, sent) ∈ s.pending k ∧
      (e.forwarded.phase, received) ∈ (s.net.hosts k).node.execution e.forwarded.phase := by
  unfold arrivals at he
  split at he
  · cases he
  · next p hp =>
    by_cases hk : k = p.dest
    case neg => simp [hk] at he
    rw [if_pos hk] at he
    obtain ⟨f, hf, rfl⟩ := List.mem_map.1 he
    obtain ⟨m, hcontent, hopen⟩ := Node.forwarded_spec (Option.mem_toList.1 hf)
    obtain ⟨received, hreceived⟩ := (hs.shaped k).execution_of_isOpen hopen
    have hlt : i < s.flying.length := by
      rw [hs.flying_length]
      exact (List.getElem?_eq_some_iff.1 hp).1
    have hmem := mem_zip_of_getElem? hp (List.getElem?_eq_getElem hlt)
    have hphase := hs.packets _ hmem
    rw [hcontent] at hphase
    obtain ⟨⟨φ, sent⟩, htag, rfl⟩ := Option.map_eq_some_iff.1 hphase.symm
    have htag : s.flying[i] = some (f.phase, sent) := htag
    refine ⟨sent, received, ?_, hreceived, mem_pending.2 (.inl ⟨p, ?_, hk.symm⟩), hreceived⟩
    · show s.flying[i]?.join = _
      rw [List.getElem?_eq_getElem hlt, htag]
      rfl
    · rw [← htag]
      exact hmem

/-- The log of a host shows what its event loop has forwarded, and each value comes from a party of
the phase and goes to one. -/
def Logged (s : Traced X n) : Prop := ∀ k,
  (s.entered k).map Entry.forwarded = (s.net.hosts k).received.filterMap Receipt.forwarded ∧
    ∀ e ∈ s.entered k, ∃ sent received, e.emitter = some (e.forwarded.phase, sent) ∧
      e.receiver = some (e.forwarded.phase, received)

/-- What a step adds to the log of a host, it has its event loop forward. -/
theorem entered_step (hs : s.Tagged) (h : s.step l = some t) (k : Fin n) :
    ∃ es rs, t.entered k = s.entered k ++ es ∧
      (t.net.hosts k).received = (s.net.hosts k).received ++ rs ∧
      es.map Entry.forwarded = rs.filterMap Receipt.forwarded ∧
      ∀ e ∈ es, ∃ i published now, e ∈ s.arrivals i published now k := by
  obtain ⟨l, j⟩ := l
  cases l with
  | act i a =>
    obtain ⟨r, -, -, -, -, -, hentered⟩ := act_spec h
    obtain ⟨r', -, hhost⟩ := Net.step_act_eq_some.1 (step_eq_some.1 h).2.1
    refine ⟨[], [], by rw [hentered, List.append_nil], ?_, rfl, by simp⟩
    rw [hhost, Net.hosts_setHost, List.append_nil]
    split_ifs with hk
    · rw [hk]
      rfl
    · rfl
  | process i published =>
    obtain ⟨c, cs, y, ys, bs, -, -, -, -, -, -, hentered, -⟩ := process_spec hs h
    obtain ⟨_, _, _, -, hhosts, -⟩ := Net.process_spec (step_eq_some.1 h).2.1
    refine ⟨[], [], by rw [hentered, List.append_nil], ?_, rfl, by simp⟩
    rw [hhosts, Function.update_apply, List.append_nil]
    split_ifs with hk
    · rw [hk]
    · rfl
  | deliver i published now =>
    obtain ⟨p, bs, hp, hhosts, -, -, -, -, hentered, -⟩ := deliver_spec h
    by_cases hk : k = p.dest
    · refine ⟨_, _, hentered k, by rw [hhosts, hk, Function.update_self]; rfl, ?_,
        fun e he => ⟨i, published, now, he⟩⟩
      rw [hk]
      simp only [arrivals, hp, if_pos, List.map_map, List.filterMap_cons, List.filterMap_nil]
      cases (Host.effect (s.net.hosts p.dest) p.source published now p.content).forwarded <;> rfl
    · have hnone : s.arrivals i published now k = [] := by
        simp only [arrivals, hp, if_neg hk]
      refine ⟨[], [], by rw [hentered, hnone], ?_, rfl, by simp⟩
      rw [hhosts, Function.update_of_ne hk, List.append_nil]

theorem Logged.step (hlog : s.Logged) (hs : s.Tagged) (h : s.step l = some t) : t.Logged := by
  intro k
  obtain ⟨es, rs, hes, hrs, hsame, hfrom⟩ := entered_step hs h k
  refine ⟨?_, fun e he => ?_⟩
  · rw [hes, hrs, List.map_append, List.filterMap_append, hsame, (hlog k).1]
  · rw [hes] at he
    rcases List.mem_append.1 he with hold | hnew
    · exact (hlog k).2 e hold
    · obtain ⟨i, published, now, harr⟩ := hfrom e hnew
      obtain ⟨sent, received, hemitter, hreceiver, -⟩ := arrivals_spec hs harr
      exact ⟨sent, received, hemitter, hreceiver⟩

/-- Each value in the log of a host comes from a party of the execution of the party it went to. -/
def Isolated (s : Traced X n) : Prop := ∀ k, ∀ e ∈ s.entered k, e.emitter = e.receiver

theorem Isolated.step (hi : s.Isolated) (hp : s.Pure) (hs : s.Tagged) (h : s.step l = some t) :
    t.Isolated := by
  intro k e he
  obtain ⟨es, rs, hes, -, -, hfrom⟩ := entered_step hs h k
  rw [hes] at he
  rcases List.mem_append.1 he with hold | hnew
  · exact hi k e hold
  · obtain ⟨i, published, now, harr⟩ := hfrom e hnew
    obtain ⟨sent, received, hemitter, hreceiver, hpending, hruns⟩ := arrivals_spec hs harr
    rw [hemitter, hreceiver, hp k _ hpending _ hruns]

end Traced

/-- In every run in which no protocol message is put together by hand: each value that enters the
channel of a party was emitted by a party of the same phase. If moreover every step is clean, it
was emitted by a party of the same execution. -/
theorem executions_isolated {s t : Traced X n} {ls : List (TracedLabel X n)}
    (hs : (tracedMachine X n).init s) (hhand : ∀ l ∈ ls, l.1.byHand = false)
    (hr : (tracedMachine X n).run s ls = some t) (k : Fin n) :
    (t.entered k).map Entry.forwarded = (t.net.hosts k).received.filterMap Receipt.forwarded ∧
    ∀ e ∈ t.entered k,
      (∃ sent received, e.emitter = some (e.forwarded.phase, sent) ∧
        e.receiver = some (e.forwarded.phase, received)) ∧
      ((tracedMachine X n).Meets Traced.Clean s ls → e.emitter = e.receiver) := by
  have hempty : ∀ k, s.entered k = [] := fun k => (hs.2.1 k).2
  have hlogged : t.Tagged ∧ t.Logged := by
    apply Machine.run_preserves_of_forall (I := fun s : Traced X n => s.Tagged ∧ s.Logged)
      (G := fun l : TracedLabel X n => l.1.byHand = false) _ ⟨.of_init hs, fun k => ?_⟩ hhand hr
    · rintro s l t ⟨htagged, hlog⟩ hl h
      exact ⟨htagged.step h hl, hlog.step htagged h⟩
    · obtain ⟨ids, -, hnet⟩ := hs.1
      rw [hempty, hnet]
      exact ⟨rfl, by simp⟩
  refine ⟨(hlogged.2 k).1, fun e he => ⟨(hlogged.2 k).2 e he, fun hclean => ?_⟩⟩
  have hpure : s.Pure := by
    intro k z hz x hx
    obtain ⟨ids, -, hnet⟩ := hs.1
    rw [hnet] at hx
    cases hx
  have hisolated : t.Tagged ∧ t.Pure ∧ t.Isolated := by
    apply Machine.run_preserves_of_meets
      (I := fun s : Traced X n => s.Tagged ∧ s.Pure ∧ s.Isolated) _
      ⟨.of_init hs, hpure, fun k e he => ?_⟩
      ((Machine.meets_of_forall_mem hhand s).and hclean) hr
    · rintro s l t ⟨htagged, hp, hi⟩ ⟨hl, hc⟩ h
      exact ⟨htagged.step h hl, hp.step htagged hc h, hi.step hp htagged h⟩
    · rw [hempty] at he
      cases he
  exact hisolated.2.2 k e he

/-! ### A leftover message -/

instance : Fintype Phase := ⟨{.aux, .keygen, .signing}, by rintro ⟨⟩ <;> decide⟩

instance Traced.Clean.decidable (s : Traced X n) (l : TracedLabel X n) : Decidable (s.Clean l) :=
  inferInstanceAs (Decidable ((∀ t ∈ s.step l, ∀ k φ, ∀ x ∈ (t.net.hosts k).node.execution φ,
    x ∈ (s.net.hosts k).node.execution φ ∨ ∀ z ∈ s.pending k, z.1 = φ → z = x) ∧
    ∀ z ∈ s.emitter l, ∀ k, l.1.actor ≠ some k →
      ∀ x ∈ (s.net.hosts k).node.execution z.1, x = z))

namespace LeftoverRun

open ThreeNodes

def start : Traced .plain 3 := ⟨ThreeNodes.start, fun _ => [], [], fun _ => []⟩

theorem start_init : (tracedMachine .plain 3).init start :=
  ⟨⟨ids, ids_injective, rfl⟩, fun _ => ⟨rfl, rfl⟩, rfl⟩

/-- The node `b` starts an aux generation, in which the party of `c` sends a message. -/
def first : List (NetLabel .plain 3) :=
  assign ++ [.act b (.initiateAuxGen ⟨0⟩), .process b true, .deliver 5 true 5,
    .act c (.emit .aux ⟨.allParties, [7]⟩), .process c true]

/-- The message arrives. -/
def labels : List (TracedLabel .plain 3) :=
  (first ++ [NetLabel.deliver 6 true 5]).map fun l => (l, 0)

/-- Before it arrives, `a` assigns once more, `b` accepts, and starts another aux generation. -/
def lateLabels : List (TracedLabel .plain 3) :=
  (first ++ [NetLabel.act a (.assignPeerIndices 6), .process a true, .deliver 7 true 6,
    .act b (.initiateAuxGen ⟨1000000000⟩), .deliver 6 true 6]).map fun l => (l, 0)

end LeftoverRun

/-- A message of one aux generation enters the channel of a party of the next. -/
theorem leftover_enters : (tracedMachine .plain 3).init LeftoverRun.start ∧
    (∀ l ∈ LeftoverRun.lateLabels, l.1.byHand = false) ∧
    ∃ (t : Traced .plain 3) (e : Entry .plain),
      (tracedMachine .plain 3).run LeftoverRun.start LeftoverRun.lateLabels = some t ∧
      t.entered ThreeNodes.b = [e] ∧
      e.emitter = some (.aux, MPCOrchestrator.createExecutionId "aux" ⟨0⟩) ∧
      e.receiver = some (.aux, MPCOrchestrator.createExecutionId "aux" ⟨1000000000⟩) ∧
      MPCOrchestrator.createExecutionId "aux" ⟨0⟩ ≠
        MPCOrchestrator.createExecutionId "aux" ⟨1000000000⟩ :=
  ⟨LeftoverRun.start_init, by decide, _, _, rfl, rfl, rfl, rfl, by decide +kernel⟩

/-- Without the second assignment it enters the channel of a party of its own execution. -/
theorem message_in_time_isolated : ∃ (t : Traced .plain 3) (e : Entry .plain),
    (tracedMachine .plain 3).run LeftoverRun.start LeftoverRun.labels = some t ∧
      t.entered ThreeNodes.b = [e] ∧ e.emitter = e.receiver ∧
      (t.entered ThreeNodes.b).map Entry.forwarded =
        (t.net.hosts ThreeNodes.b).received.filterMap Receipt.forwarded := by
  have hclean : (tracedMachine .plain 3).Meets Traced.Clean LeftoverRun.start LeftoverRun.labels :=
    by decide +kernel
  have hhand : ∀ l ∈ LeftoverRun.labels, l.1.byHand = false := by decide
  refine ⟨_, _, rfl, rfl, ?_, ?_⟩
  · have hisolated := executions_isolated LeftoverRun.start_init hhand rfl ThreeNodes.b
    exact (hisolated.2 _ List.mem_cons_self).2 hclean
  · exact (executions_isolated LeftoverRun.start_init hhand rfl ThreeNodes.b).1

end P2pMpc
