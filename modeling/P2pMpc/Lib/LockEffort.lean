import Mathlib.Algebra.BigOperators.Finprod
import Mathlib.Algebra.BigOperators.Group.Finset.Basic
import Mathlib.Algebra.Order.BigOperators.Group.Finset
import P2pMpc.Lib.WaitFor

/-!
# How much actors that take locks have still to do

For each lock that an actor has still to take it asks, goes on, and lets go. `remaining` counts
these steps: three for each lock to come, of which two are left of the one the actor is in the line
of (`effort`), and one for each request in a line. It falls as an actor asks (`remaining_ask`), goes
on (`remaining_advance`) or lets go (`remaining_release`). The requests of actors outside the set
that is counted raise it by one each (`remaining_ask_of_notMem`).
-/

namespace FifoLock

open Line

variable {A L : Type*}

/-- Behind every request there is a holder that waits for nothing. -/
theorem Ordered.exists_running_of_ne_nil {rank : L → ℕ} {lines : L → Line A} {l : L}
    (h : Ordered rank lines) (hne : lines l ≠ []) :
    ∃ b l', (lines l').Holds b ∧ ∀ l'', ¬ (lines l'').Waits b := by
  obtain ⟨a, ha⟩ := exists_holds hne
  by_cases hwait : ∃ l', (lines l').Waits a
  · obtain ⟨l', hl'⟩ := hwait
    obtain ⟨b, hab, hb⟩ := h.exists_running hl'
    obtain ⟨c, -, l₁, -, hholds⟩ := Relation.TransGen.tail'_iff.1 hab
    exact ⟨b, l₁, hholds, hb⟩
  · exact ⟨a, l, ha, fun l' hl' => hwait ⟨l', hl'⟩⟩

/-- A sum changes by what it changes at one place. -/
theorem sum_add_eq_of_eq_off {I : Type*} [DecidableEq I] {s : Finset I} {i : I} {f g : I → ℕ}
    (hi : i ∈ s) (h : ∀ j ∈ s, j ≠ i → f j = g j) :
    ∑ j ∈ s, f j + g i = ∑ j ∈ s, g j + f i := by
  have hrest : ∑ j ∈ s.erase i, f j = ∑ j ∈ s.erase i, g j :=
    Finset.sum_congr rfl fun j hj => h j (Finset.mem_of_mem_erase hj) (Finset.ne_of_mem_erase hj)
  rw [← Finset.add_sum_erase _ f hi, ← Finset.add_sum_erase _ g hi, hrest]
  omega

/-- And so does one with finitely many summands. -/
theorem finsum_add_eq_of_eq_off {I : Type*} [DecidableEq I] {i : I} {f g : I → ℕ}
    (hg : g.support.Finite) (h : ∀ j, j ≠ i → f j = g j) :
    ∑ᶠ j, f j + g i = ∑ᶠ j, g j + f i := by
  have hsub : g.support ⊆ ↑(insert i hg.toFinset) := fun j hj => by simp [Function.mem_support.1 hj]
  have hsub' : f.support ⊆ ↑(insert i hg.toFinset) := by
    intro j hj
    rcases eq_or_ne j i with rfl | hji
    · simp
    · rw [Function.mem_support, h j hji] at hj
      exact hsub hj
  rw [finsum_eq_sum_of_support_subset _ hsub, finsum_eq_sum_of_support_subset _ hsub']
  exact sum_add_eq_of_eq_off (Finset.mem_insert_self _ _) fun j _ hj => h j hj

theorem sum_length_update [Fintype L] [DecidableEq L] (lines : L → Line A) (l : L)
    (line : Line A) : ∑ l', (Function.update lines l line l').length + (lines l).length =
      ∑ l', (lines l').length + line.length := by
  have hsum := sum_add_eq_of_eq_off (s := Finset.univ)
    (f := fun l' => (Function.update lines l line l').length) (g := fun l' => (lines l').length)
    (Finset.mem_univ l) (fun b _ hb => by rw [Function.update_of_ne hb])
  simpa using hsum

/-- The actor is in the line of the lock it needs. -/
def InLine (d : Demand L) (lines : L → Line A) (a : A) : Prop :=
  ∃ l ∈ d.wants, a ∈ (lines l).map Prod.fst

instance [DecidableEq A] (d : Demand L) (lines : L → Line A) (a : A) :
    Decidable (InLine d lines a) :=
  inferInstanceAs (Decidable (∃ l ∈ d.wants, _))

variable [DecidableEq A]

/-- The steps of an actor that has still to take `left` locks, but for those that its requests in
the lines stand for. -/
def effort (left : ℕ) (d : Demand L) (lines : L → Line A) (a : A) : ℕ :=
  3 * left - if InLine d lines a then 2 else 0

/-- The steps that a set of actors has before it, and one for each request. -/
def remaining [Fintype L] (actors : Finset A) (left : A → ℕ) (demand : A → Demand L)
    (lines : L → Line A) : ℕ :=
  ∑ a ∈ actors, effort (left a) (demand a) lines a + ∑ l, (lines l).length

variable {actors actors' : Finset A} {left left' : A → ℕ} {demand demand' : A → Demand L}
  {lines lines' : L → Line A} {a : A} {l : L} {m : Mode}

theorem effort_le (left : ℕ) (d : Demand L) (lines : L → Line A) (a : A) :
    effort left d lines a ≤ 3 * left :=
  Nat.sub_le _ _

theorem effort_of_left_eq_zero {d : Demand L} : effort 0 d lines a = 0 := Nat.zero_sub _

/-- An actor whose membership of the lines is the same has the same to do. -/
theorem effort_congr {k : ℕ} {d : Demand L}
    (h : ∀ l ∈ d.wants, a ∈ (lines' l).map Prod.fst ↔ a ∈ (lines l).map Prod.fst) :
    effort k d lines' a = effort k d lines a := by
  have hiff : InLine d lines' a ↔ InLine d lines a :=
    exists_congr fun l => and_congr_right fun hl => h l hl
  simp only [effort, hiff]

/-- A request of `a` puts nobody else in a line. -/
theorem effort_request_of_ne [DecidableEq L] {b : A} {k : ℕ} {d : Demand L} (hb : b ≠ a) :
    effort k d (Function.update lines l ((lines l).request a m)) b = effort k d lines b := by
  refine effort_congr fun l' _ => ?_
  rcases eq_or_ne l' l with rfl | hl
  · simp [mem_map_request, hb]
  · rw [Function.update_of_ne hl]

variable [Fintype L]

/-- Actors without a lock to take need not be counted. -/
theorem remaining_of_subset (hsub : actors ⊆ actors')
    (h : ∀ a ∈ actors', a ∉ actors → left a = 0) :
    remaining actors' left demand lines = remaining actors left demand lines := by
  rw [remaining, remaining, ← Finset.sum_subset hsub]
  intro a ha hnot
  rw [h a ha hnot, effort_of_left_eq_zero]

/-- An actor goes on with the lock it needs. -/
theorem remaining_advance (ha : a ∈ actors) (hd : ∀ b, b ≠ a → demand' b = demand b)
    (hl : ∀ b, b ≠ a → left' b = left b) (hin : InLine (demand a) lines a)
    (hlt : left' a < left a) :
    remaining actors left' demand' lines < remaining actors left demand lines := by
  have hsum := sum_add_eq_of_eq_off (f := fun b => effort (left' b) (demand' b) lines b)
    (g := fun b => effort (left b) (demand b) lines b) ha
    (fun b _ hb => by simp only [hd b hb, hl b hb])
  have hold : effort (left a) (demand a) lines a = 3 * left a - 2 := by simp [effort, hin]
  have hnew := effort_le (left' a) (demand' a) lines a
  simp only [remaining]
  omega

/-- An actor is given locks to take. -/
theorem remaining_give {k : ℕ} (ha : a ∈ actors) (hd : ∀ b, b ≠ a → demand' b = demand b)
    (hl : ∀ b, b ≠ a → left' b = left b) (hk : left' a ≤ k) :
    remaining actors left' demand' lines ≤ remaining actors left demand lines + 3 * k := by
  have hsum := sum_add_eq_of_eq_off (f := fun b => effort (left' b) (demand' b) lines b)
    (g := fun b => effort (left b) (demand b) lines b) ha
    (fun b _ hb => by simp only [hd b hb, hl b hb])
  have hnew := effort_le (left' a) (demand' a) lines a
  simp only [remaining]
  omega

variable [DecidableEq L]

/-- An actor that is counted asks for the lock it needs. -/
theorem remaining_ask (ha : a ∈ actors) (hleft : 0 < left a) (h : MayAsk (demand a) lines a l) :
    remaining actors left demand (Function.update lines l ((lines l).request a m)) <
      remaining actors left demand lines := by
  obtain ⟨hw, hnot, -⟩ := h
  have hsum := sum_add_eq_of_eq_off
    (f := fun b => effort (left b) (demand b) (Function.update lines l ((lines l).request a m)) b)
    (g := fun b => effort (left b) (demand b) lines b) ha
    (fun b _ hb => effort_request_of_ne hb)
  have hlen := sum_length_update lines l ((lines l).request a m)
  have hout : ¬ InLine (demand a) lines a := by
    rintro ⟨l', hw', hin⟩
    obtain rfl := Option.some.inj (hw.symm.trans hw')
    exact hnot hin
  have hin : InLine (demand a) (Function.update lines l ((lines l).request a m)) a :=
    ⟨l, hw, by simp [mem_map_request]⟩
  have hold : effort (left a) (demand a) lines a = 3 * left a := by simp [effort, hout]
  have hnew : effort (left a) (demand a) (Function.update lines l ((lines l).request a m)) a =
      3 * left a - 2 := by simp [effort, hin]
  have hone : ((lines l).request a m).length = (lines l).length + 1 := by simp [Line.request]
  simp only [remaining]
  omega

/-- An actor that is not counted asks for a lock. -/
theorem remaining_ask_of_notMem (ha : a ∉ actors) :
    remaining actors left demand (Function.update lines l ((lines l).request a m)) =
      remaining actors left demand lines + 1 := by
  have hsum : ∑ b ∈ actors, effort (left b) (demand b)
      (Function.update lines l ((lines l).request a m)) b =
        ∑ b ∈ actors, effort (left b) (demand b) lines b :=
    Finset.sum_congr rfl fun b hb => effort_request_of_ne fun he => ha (he ▸ hb)
  have hlen := sum_length_update lines l ((lines l).request a m)
  have hone : ((lines l).request a m).length = (lines l).length + 1 := by simp [Line.request]
  simp only [remaining, hsum]
  omega

/-- An actor lets go of a lock that it does not need. -/
theorem remaining_release (hin : a ∈ (lines l).map Prod.fst)
    (hw : a ∈ actors → l ∉ (demand a).wants) :
    remaining actors left demand (Function.update lines l ((lines l).release a)) <
      remaining actors left demand lines := by
  have hsum : ∑ b ∈ actors, effort (left b) (demand b)
      (Function.update lines l ((lines l).release a)) b =
        ∑ b ∈ actors, effort (left b) (demand b) lines b := by
    refine Finset.sum_congr rfl fun b hb => effort_congr fun l' hl' => ?_
    rcases eq_or_ne l' l with rfl | hne
    · have hba : b ≠ a := by
        rintro rfl
        exact hw hb hl'
      simp only [Function.update_self, List.mem_map]
      constructor
      · rintro ⟨x, hx, rfl⟩
        exact ⟨x, (mem_release.1 hx).1, rfl⟩
      · rintro ⟨x, hx, rfl⟩
        exact ⟨x, mem_release.2 ⟨hx, hba⟩, rfl⟩
    · rw [Function.update_of_ne hne]
  have hlen := sum_length_update lines l ((lines l).release a)
  have hshort : ((lines l).release a).length < (lines l).length := by
    obtain ⟨x, hx, rfl⟩ := List.mem_map.1 hin
    exact List.length_filter_lt_length_iff_exists.2 ⟨x, hx, by simp⟩
  simp only [remaining, hsum]
  omega

end FifoLock
