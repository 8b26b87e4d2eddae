import Mathlib.Data.Fintype.Defs
import Mathlib.Data.List.Dedup
import Mathlib.Logic.Function.Basic
import Mathlib.Logic.Relation
import P2pMpc.Lib.FifoLock

/-!
# Actors that take several locks

Wherever an actor stands in its program it has a `Demand`: the locks it keeps while it goes on, and
the lock it needs for going on. `Disciplined` relates the lines of the locks to the demands. An
actor asks only for the lock it needs, and only when it has let go of all it does not keep
(`MayAsk`, `Disciplined.ask`); it lets go of a lock it does not keep (`Disciplined.release`); and
it moves on, to another demand, when it waits for nothing and holds what it then keeps
(`Disciplined.update`).

Where each holder that waits does so for a lock of a lower rank than the one it holds, nobody waits
for itself (`Ordered.no_cycle`), and behind everybody who waits there is somebody who does not
(`Ordered.exists_running`). The rank has to fall only at the locks that somebody needs
(`Disciplined.ordered`), so actors may take two locks in opposite orders as long as nobody needs the
first lock of the one that breaks the order.
-/

namespace FifoLock

open Line

variable {A L : Type*}

/-- The locks that an actor keeps where it stands, and the one it needs for going on. -/
structure Demand (L : Type*) where
  keeps : List L
  wants : Option L

/-- The actor `a` waits for a lock that `b` holds. -/
def WaitsFor (lines : L → Line A) (a b : A) : Prop := ∃ l, (lines l).Waits a ∧ (lines l).Holds b

/-! ### Ranks of locks -/

/-- A holder that waits, while somebody waits for it, waits for a lock of a lower rank. -/
def Ordered (rank : L → ℕ) (lines : L → Line A) : Prop :=
  ∀ l l' a b, (lines l).Waits a → (lines l).Holds b → (lines l').Waits b → rank l' < rank l

namespace Ordered

variable {rank : L → ℕ} {lines : L → Line A} {a b : A} {l : L}

/-- The rank falls along a chain of actors that wait for one another. -/
theorem rank_lt (h : Ordered rank lines) (hab : Relation.TransGen (WaitsFor lines) a b) :
    ∃ l, (lines l).Waits a ∧ ∀ l', (lines l').Waits b → rank l' < rank l := by
  induction hab with
  | single hab =>
    obtain ⟨l, ha, hb⟩ := hab
    exact ⟨l, ha, fun l' hb' => h l l' _ _ ha hb hb'⟩
  | tail _ hbc ih =>
    obtain ⟨l, ha, hlt⟩ := ih
    obtain ⟨l₁, hb, hc⟩ := hbc
    exact ⟨l, ha, fun l' hc' => (h l₁ l' _ _ hb hc hc').trans (hlt l₁ hb)⟩

theorem no_cycle (h : Ordered rank lines) (a : A) : ¬ Relation.TransGen (WaitsFor lines) a a := by
  intro haa
  obtain ⟨l, ha, hlt⟩ := h.rank_lt haa
  exact (hlt l ha).false

/-- Behind an actor that waits there is a holder that waits for nothing. -/
theorem exists_running (h : Ordered rank lines) (ha : (lines l).Waits a) :
    ∃ b, Relation.TransGen (WaitsFor lines) a b ∧ ∀ l', ¬ (lines l').Waits b := by
  induction hn : rank l using Nat.strong_induction_on generalizing l a with
  | _ n ih =>
    subst hn
    obtain ⟨b, hb⟩ := exists_holds (List.ne_nil_of_mem (List.mem_map.1 ha.1).choose_spec.1)
    have hab : WaitsFor lines a b := ⟨l, ha, hb⟩
    by_cases hwait : ∃ l', (lines l').Waits b
    · obtain ⟨l', hb'⟩ := hwait
      obtain ⟨c, hbc, hc⟩ := ih (rank l') (h l l' a b ha hb hb') hb' rfl
      exact ⟨c, .head hab hbc, hc⟩
    · exact ⟨b, .single hab, fun l' hb' => hwait ⟨l', hb'⟩⟩

end Ordered

/-! ### Lines that follow the demands -/

/-- The actor needs the lock, is not in its line, and is in the lines of locks it keeps only. -/
def MayAsk (d : Demand L) (lines : L → Line A) (a : A) (l : L) : Prop :=
  d.wants = some l ∧ a ∉ (lines l).map Prod.fst ∧ ∀ l', a ∈ (lines l').map Prod.fst → l' ∈ d.keeps

instance [DecidableEq A] [DecidableEq L] [Fintype L] (d : Demand L) (lines : L → Line A) (a : A)
    (l : L) : Decidable (MayAsk d lines a l) :=
  inferInstanceAs (Decidable (_ ∧ _ ∧ _))

/-- The lines hold each actor's locks under its mode, and who waits does so for the lock it needs,
in no other line but those of the locks it keeps. -/
structure Disciplined (mode : A → L → Mode) (demand : A → Demand L) (lines : L → Line A) :
    Prop where
  distinct : ∀ l, (lines l).Distinct
  mode_eq : ∀ l r, r ∈ lines l → r.2 = mode r.1 l
  held : ∀ a, ∀ l ∈ (demand a).keeps, (lines l).Holds a
  waiting : ∀ a l, (lines l).Waits a → (demand a).wants = some l ∧
    ∀ l', a ∈ (lines l').map Prod.fst → l' ∈ (demand a).keeps ∨ l' = l

namespace Disciplined

variable {mode : A → L → Mode} {demand demand' : A → Demand L} {lines : L → Line A} {a b : A}
  {l l' : L}

theorem nil (hk : ∀ a, (demand a).keeps = []) : Disciplined mode demand fun _ => [] where
  distinct _ := List.nodup_nil
  mode_eq _ _ h := absurd h List.not_mem_nil
  held a l h := by
    rw [hk a] at h
    exact absurd h List.not_mem_nil
  waiting _ _ h := absurd h.1 List.not_mem_nil

/-- An actor that needs no lock waits for none. -/
theorem not_waits_of_wants (h : Disciplined mode demand lines) (hw : (demand a).wants = none)
    (l : L) : ¬ (lines l).Waits a := by
  intro ha
  rw [(h.waiting a l ha).1] at hw
  cases hw

/-- An actor that holds the lock it needs waits for none. -/
theorem not_waits_of_holds (h : Disciplined mode demand lines) (hw : (demand a).wants = some l)
    (ha : (lines l).Holds a) (l' : L) : ¬ (lines l').Waits a := by
  intro ha'
  obtain rfl := Option.some.inj (hw.symm.trans (h.waiting a l' ha').1)
  exact ha'.2 ha

/-- The holder of a lock that it takes for writing is alone. -/
theorem eq_of_write (h : Disciplined mode demand lines) (hm : mode a l = .write)
    (ha : (lines l).Holds a) (hb : (lines l).Holds b) : b = a := by
  obtain ⟨r, hr, rfl⟩ := List.mem_map.1 ha
  have hmode := h.mode_eq l r (List.IsPrefix.subset (granted_initial _) hr)
  rw [hm] at hmode
  obtain ⟨a, m⟩ := r
  obtain rfl : m = .write := hmode
  exact Holds.eq_of_write hr hb

/-- An actor that waits holds the locks it keeps only. -/
theorem keeps_of_waits (h : Disciplined mode demand lines) (ha : (lines l).Holds a)
    (ha' : (lines l').Waits a) : l ∈ (demand a).keeps := by
  rcases (h.waiting a l' ha').2 l ha.mem with hk | rfl
  · exact hk
  · exact absurd ha ha'.2

theorem ordered (h : Disciplined mode demand lines) {rank : L → ℕ}
    (hr : ∀ l l' a b, (demand a).wants = some l → l ∈ (demand b).keeps →
      (demand b).wants = some l' → rank l' < rank l) : Ordered rank lines := by
  intro l l' a b ha hb hb'
  exact hr l l' a b (h.waiting a l ha).1 (h.keeps_of_waits hb hb') (h.waiting b l' hb').1

/-- An actor moves on. -/
theorem update (h : Disciplined mode demand lines) (hd : ∀ b, b ≠ a → demand' b = demand b)
    (hwait : ∀ l, ¬ (lines l).Waits a) (hk : ∀ l ∈ (demand' a).keeps, (lines l).Holds a) :
    Disciplined mode demand' lines where
  distinct := h.distinct
  mode_eq := h.mode_eq
  held b l hb := by
    by_cases hba : b = a
    · subst hba
      exact hk l hb
    · rw [hd b hba] at hb
      exact h.held b l hb
  waiting b l hb := by
    have hba : b ≠ a := by
      rintro rfl
      exact hwait l hb
    rw [hd b hba]
    exact h.waiting b l hb

/-- An actor goes on with the lock it needs, and keeps what it kept, that lock, or less. -/
theorem advance (h : Disciplined mode demand lines) (hd : ∀ b, b ≠ a → demand' b = demand b)
    (ha : ∃ l ∈ (demand a).wants, (lines l).Holds a)
    (hk : ∀ l ∈ (demand' a).keeps, l ∈ (demand a).keeps ∨ l ∈ (demand a).wants) :
    Disciplined mode demand' lines := by
  obtain ⟨l, hw, hl⟩ := ha
  refine h.update hd (h.not_waits_of_holds hw hl) fun l' hl' => ?_
  rcases hk l' hl' with hkept | hw'
  · exact h.held a l' hkept
  · obtain rfl := Option.some.inj (hw.symm.trans hw')
    exact hl

variable [DecidableEq L]

/-- An actor asks for the lock it needs. -/
theorem ask (h : Disciplined mode demand lines) (ha : MayAsk (demand a) lines a l) :
    Disciplined mode demand (Function.update lines l ((lines l).request a (mode a l))) := by
  obtain ⟨hwants, hnot, hkeeps⟩ := ha
  -- in a line, or waiting, is who was so before, and the actor that asks
  have hmem := (Function.forall_update_iff lines (a := l) (b := (lines l).request a (mode a l))
    fun l' line => ∀ b ∈ line.map Prod.fst, b ∈ (lines l').map Prod.fst ∨ b = a ∧ l' = l).2
      ⟨fun b hb => (mem_map_request.1 hb).imp_right fun he => ⟨he, rfl⟩, fun _ _ _ => .inl⟩
  have hwait := (Function.forall_update_iff lines (a := l) (b := (lines l).request a (mode a l))
    fun l' line => ∀ b, line.Waits b → (lines l').Waits b ∨ b = a ∧ l' = l).2
      ⟨fun b hb => hb.of_request.imp_right fun he => ⟨he, rfl⟩, fun _ _ _ => .inl⟩
  refine ⟨?_, ?_, fun b l' hb => ?_, fun b l' hb => ?_⟩
  · exact (Function.forall_update_iff lines fun _ line => line.Distinct).2
      ⟨(h.distinct l).request hnot _, fun l' _ => h.distinct l'⟩
  · refine (Function.forall_update_iff lines fun l' line => ∀ r ∈ line, r.2 = mode r.1 l').2
      ⟨fun r hr => ?_, fun l' _ => h.mode_eq l'⟩
    rcases mem_request.1 hr with hr | rfl
    · exact h.mode_eq l r hr
    · rfl
  · exact (Function.forall_update_iff lines fun l' line => l' ∈ (demand b).keeps →
      line.Holds b).2 ⟨fun hk => (h.held b l hk).request a _, fun l' _ => h.held b l'⟩ l' hb
  · rcases hwait l' b hb with hold | ⟨rfl, rfl⟩
    · obtain ⟨hw, hin⟩ := h.waiting b l' hold
      refine ⟨hw, fun l₁ hl₁ => ?_⟩
      rcases hmem l₁ b hl₁ with hl₁ | ⟨rfl, rfl⟩
      · exact hin l₁ hl₁
      · exact .inr (Option.some.inj (hwants.symm.trans hw))
    · refine ⟨hwants, fun l₁ hl₁ => ?_⟩
      rcases hmem l₁ b hl₁ with hl₁ | ⟨-, rfl⟩
      · exact .inl (hkeeps l₁ hl₁)
      · exact .inr rfl

/-- An actor lets go of a lock it does not keep. -/
theorem release [DecidableEq A] (h : Disciplined mode demand lines) (ha : l ∉ (demand a).keeps) :
    Disciplined mode demand (Function.update lines l ((lines l).release a)) := by
  have hsub := (Function.forall_update_iff lines (a := l) (b := (lines l).release a)
    fun l' line => ∀ r ∈ line, r ∈ lines l').2 ⟨fun r hr => (mem_release.1 hr).1, fun _ _ _ => id⟩
  have hwait := (Function.forall_update_iff lines (a := l) (b := (lines l).release a)
    fun l' line => ∀ b, line.Waits b → (lines l').Waits b).2
      ⟨fun b hb => hb.of_release, fun _ _ _ => id⟩
  refine ⟨?_, fun l' r hr => h.mode_eq l' r (hsub l' r hr), fun b l' hb => ?_, fun b l' hb => ?_⟩
  · exact (Function.forall_update_iff lines fun _ line => line.Distinct).2
      ⟨(h.distinct l).release a, fun l' _ => h.distinct l'⟩
  · refine (Function.forall_update_iff lines fun l' line => l' ∈ (demand b).keeps →
      line.Holds b).2 ⟨fun hk => (h.held b l hk).release ?_, fun l' _ => h.held b l'⟩ l' hb
    rintro rfl
    exact ha hk
  · obtain ⟨hw, hin⟩ := h.waiting b l' (hwait l' b hb)
    refine ⟨hw, fun l₁ hl₁ => hin l₁ ?_⟩
    obtain ⟨x, hx, rfl⟩ := List.mem_map.1 hl₁
    exact List.mem_map_of_mem (hsub l₁ x hx)

end Disciplined

end FifoLock
