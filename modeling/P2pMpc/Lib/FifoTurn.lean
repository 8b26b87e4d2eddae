import P2pMpc.Lib.FifoLock
import P2pMpc.Lib.Machine

/-!
# Nobody is overtaken at a FIFO lock

A request comes behind all that are in the line (`ahead_request`), and who holds the lock is in
front of everybody who waits for it (`ahead_release_lt`). So the actors that let go of the lock
while another waits for it were all there before it came: `Queued.count_frees_le` counts them for
the runs of any machine whose steps ask for a lock or let go of it.
-/

namespace FifoLock

open StateMachine

variable {A : Type*} [DecidableEq A]

namespace Line

/-- The number of requests in front of that of an actor. -/
def ahead (line : Line A) (a : A) : ℕ := (line.takeWhile fun r => r.1 ≠ a).length

variable {line pre post : Line A} {a b : A} {m : Mode}

/-- The line before and after the first request of an actor. -/
theorem exists_eq_of_mem (h : a ∈ line.map Prod.fst) :
    ∃ pre m post, line = pre ++ (a, m) :: post ∧ a ∉ pre.map Prod.fst := by
  induction line with
  | nil => cases h
  | cons r line ih =>
    obtain ⟨b, m⟩ := r
    by_cases hb : a = b
    · subst hb
      exact ⟨[], m, line, rfl, List.not_mem_nil⟩
    · have hrest : a ∈ line.map Prod.fst := (List.mem_cons.1 h).resolve_left hb
      obtain ⟨pre, m', post, rfl, hnot⟩ := ih hrest
      refine ⟨(b, m) :: pre, m', post, rfl, ?_⟩
      simp only [List.map_cons, List.mem_cons, not_or]
      exact ⟨hb, hnot⟩

theorem ahead_eq (h : a ∉ pre.map Prod.fst) : ahead (pre ++ (a, m) :: post) a = pre.length := by
  have hne : ∀ r ∈ pre, decide (r.1 ≠ a) = true := by
    intro r hr
    refine decide_eq_true ?_
    rintro rfl
    exact h (List.mem_map_of_mem hr)
  rw [ahead, List.takeWhile_append_of_pos hne]
  simp

theorem ahead_request (h : a ∈ line.map Prod.fst) (b : A) (m : Mode) :
    (line.request b m).ahead a = line.ahead a := by
  obtain ⟨pre, m', post, rfl, hnot⟩ := exists_eq_of_mem h
  rw [ahead_eq hnot, request, List.append_assoc, List.cons_append, ahead_eq hnot]

theorem ahead_release (hb : a ≠ b) (hnot : a ∉ pre.map Prod.fst) :
    (release (pre ++ (a, m) :: post) b).ahead a = (release pre b).length := by
  have hrel : release (pre ++ (a, m) :: post) b = release pre b ++ (a, m) :: release post b := by
    simp [release, hb]
  rw [hrel]
  refine ahead_eq fun hmem => hnot ?_
  obtain ⟨r, hr, he⟩ := List.mem_map.1 hmem
  exact he ▸ List.mem_map_of_mem (mem_release.1 hr).1

omit [DecidableEq A] in
/-- Who holds the lock is in front of those who wait for it. -/
theorem Holds.mem_of_waits (hb : (pre ++ (a, m) :: post).Holds b)
    (ha : (pre ++ (a, m) :: post).Waits a) : b ∈ pre.map Prod.fst := by
  have hne : a ≠ b := by
    rintro rfl
    exact ha.2 hb
  rcases holds_iff.1 hb with ⟨rest, hline⟩ | ⟨pre', post', hline, hread⟩
  · cases pre with
    | nil =>
      cases hline
      exact absurd rfl hne
    | cons r pre =>
      cases hline
      exact List.mem_cons_self
  · rcases List.append_eq_append_iff.1 hline with ⟨mid, rfl, hrest⟩ | ⟨mid, rfl, hrest⟩
    · -- the waiting actor would be one of the readers in front
      cases mid with
      | nil =>
        cases hrest
        exact absurd rfl hne
      | cons r mid =>
        cases hrest
        obtain rfl : m = .read := hread (a, m) (by simp)
        have hpre : ∀ r ∈ pre, r.2 = .read := fun r hr => hread r (List.mem_append_left _ hr)
        exact absurd (holds_iff.2 (.inr ⟨pre, _, rfl, hpre⟩)) ha.2
    · cases mid with
      | nil =>
        cases hrest
        exact absurd rfl hne
      | cons r mid =>
        cases hrest
        simp

theorem ahead_release_lt (ha : line.Waits a) (hb : line.Holds b) :
    (line.release b).ahead a < line.ahead a := by
  obtain ⟨pre, m, post, rfl, hnot⟩ := exists_eq_of_mem ha.1
  have hne : a ≠ b := by
    rintro rfl
    exact ha.2 hb
  obtain ⟨r, hr, hrb⟩ := List.mem_map.1 (hb.mem_of_waits ha)
  rw [ahead_release hne hnot, ahead_eq hnot]
  exact List.length_filter_lt_length_iff_exists.2 ⟨r, hr, by simp [hrb]⟩

/-- Somebody is in front of an actor that waits. -/
theorem Waits.ahead_pos (ha : line.Waits a) : 0 < line.ahead a := by
  have hne : line ≠ [] := by
    rintro rfl
    exact absurd ha.1 List.not_mem_nil
  obtain ⟨b, hb⟩ := exists_holds hne
  exact Nat.zero_lt_of_lt (ahead_release_lt ha hb)

end Line

/-- A machine with a lock: under an invariant `K`, a step has an actor let go of the lock that it
holds, adds the request of an actor that is not in the line, or leaves the line alone. -/
structure Queued {σ ℓ : Type*} (M : Machine σ ℓ) (K : σ → Prop) (line : σ → Line A)
    (frees : ℓ → Option A) : Prop where
  keeps : ∀ s l t, K s → M.step s l = some t → K t
  step : ∀ s l t, K s → M.step s l = some t →
    (∃ a, frees l = some a ∧ (line s).Holds a ∧ line t = (line s).release a) ∨
    frees l = none ∧ (line t = line s ∨
      ∃ a m, a ∉ (line s).map Prod.fst ∧ line t = (line s).request a m)

namespace Queued

variable {σ ℓ : Type*} {M : Machine σ ℓ} {K : σ → Prop} {line : σ → Line A}
  {frees : ℓ → Option A} {s t : σ} {l : ℓ} {ls : List ℓ} {a : A}

/-- Who is in the line and does not let go stays in it. -/
theorem mem_step (h : Queued M K line frees) (hs : K s) (hl : M.step s l = some t)
    (ha : a ∈ (line s).map Prod.fst) (hfrees : frees l ≠ some a) :
    a ∈ (line t).map Prod.fst := by
  rcases h.step s l t hs hl with ⟨b, hb, -, hline⟩ | ⟨-, hline | ⟨b, m, -, hline⟩⟩ <;> rw [hline]
  · obtain ⟨r, hr, rfl⟩ := List.mem_map.1 ha
    refine List.mem_map_of_mem (Line.mem_release.2 ⟨hr, ?_⟩)
    rintro rfl
    exact hfrees hb
  · exact ha
  · exact Line.mem_map_request.2 (.inl ha)

/-- Who waits after a step and was in the line before it has waited before it. -/
theorem waits_of_step (h : Queued M K line frees) (hs : K s) (hl : M.step s l = some t)
    (ha : a ∈ (line s).map Prod.fst) (ht : (line t).Waits a) : (line s).Waits a := by
  rcases h.step s l t hs hl with ⟨b, -, -, hline⟩ | ⟨-, hline | ⟨b, m, hb, hline⟩⟩ <;>
    rw [hline] at ht
  · exact ht.of_release
  · exact ht
  · refine ht.of_request.resolve_right ?_
    rintro rfl
    exact hb ha

/-- A step that lets go of the lock takes a request away from in front of everybody who waits. -/
theorem ahead_step (h : Queued M K line frees) (hs : K s) (hl : M.step s l = some t)
    (ha : (line s).Waits a) :
    (line t).ahead a + (if (frees l).isSome then 1 else 0) ≤ (line s).ahead a := by
  rcases h.step s l t hs hl with ⟨b, hb, hholds, hline⟩ | ⟨hnone, hline | ⟨b, m, -, hline⟩⟩ <;>
    rw [hline]
  · have hlt := Line.ahead_release_lt ha hholds
    simp only [hb, Option.isSome_some, if_true]
    omega
  · simp [hnone]
  · simp [hnone, Line.ahead_request ha.1]

/-- While an actor waits, the lock is let go of by those that were in front of it at the start. -/
theorem count_frees_le (h : Queued M K line frees) (hs : K s) (hr : M.run s ls = some t)
    (ha : a ∈ (line s).map Prod.fst) (hstays : ∀ l ∈ ls, frees l ≠ some a)
    (ht : (line t).Waits a) :
    (line s).Waits a ∧
      (line t).ahead a + ls.countP (fun l => (frees l).isSome) ≤ (line s).ahead a := by
  induction ls generalizing s with
  | nil =>
    cases hr
    exact ⟨ht, le_rfl⟩
  | cons l ls ih =>
    obtain ⟨u, hu, hut⟩ := Machine.run_cons_eq_some.1 hr
    have hmem := h.mem_step hs hu ha (hstays l List.mem_cons_self)
    obtain ⟨hwaits, hle⟩ :=
      ih (h.keeps s l u hs hu) hut hmem fun l' hl' => hstays l' (List.mem_cons_of_mem _ hl')
    have hwait := h.waits_of_step hs hu ha hwaits
    have hstep := h.ahead_step hs hu hwait
    refine ⟨hwait, ?_⟩
    rw [List.countP_cons]
    omega

/-- Who is in the line and no longer in it at the end of a run has held the lock, after at most as
many have let go of it as were in front. -/
theorem exists_holds (h : Queued M K line frees) (hs : K s) (hr : M.run s ls = some t)
    (ha : a ∈ (line s).map Prod.fst) (hout : a ∉ (line t).map Prod.fst) :
    ∃ pre post u, ls = pre ++ post ∧ M.run s pre = some u ∧ (line u).Holds a ∧
      pre.countP (fun l => (frees l).isSome) ≤ (line s).ahead a := by
  induction ls generalizing s with
  | nil =>
    cases hr
    exact absurd ha hout
  | cons l ls ih =>
    by_cases hholds : (line s).Holds a
    · exact ⟨[], l :: ls, s, rfl, rfl, hholds, Nat.zero_le _⟩
    · obtain ⟨u, hu, hut⟩ := Machine.run_cons_eq_some.1 hr
      have hstays : frees l ≠ some a := by
        intro hl
        rcases h.step s l u hs hu with ⟨b, hb, hbholds, -⟩ | ⟨hnone, -⟩
        · obtain rfl := Option.some.inj (hb.symm.trans hl)
          exact hholds hbholds
        · rw [hnone] at hl
          cases hl
      have hstep := h.ahead_step hs hu ⟨ha, hholds⟩
      obtain ⟨pre, post, v, rfl, hv, hvholds, hle⟩ :=
        ih (h.keeps s l u hs hu) hut (h.mem_step hs hu ha hstays)
      refine ⟨l :: pre, post, v, rfl, Machine.run_cons_eq_some.2 ⟨u, hu, hv⟩, hvholds, ?_⟩
      rw [List.countP_cons]
      omega

end Queued

end FifoLock
