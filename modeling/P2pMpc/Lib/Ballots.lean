import Mathlib.Data.Finset.Card
import Mathlib.Data.List.Infix

/-!
# Counting ballots

A set `E` of voters is expected to vote. A log of messages is tallied by the number of distinct
voters its messages name, and the tally is compared with the size of `E`; what it should decide is
whether every expected voter has cast a proper ballot. `CountLaw` is the agreement of the two.

The count can be wrong as soon as a message names somebody who has not cast a proper ballot. A log
is `Clean` if none of its messages does, and `count_law_iff_clean` says that the law holds at every
point of a log, whatever proper ballots follow there, exactly if the log is clean.
-/

namespace Ballots

variable {μ ι : Type*} [DecidableEq ι]

section Defs

variable (voter : μ → Option ι) (proper : μ → Bool)

/-- The voters the messages name. -/
def named (l : List μ) : Finset ι := (l.filterMap voter).toFinset

/-- The voters of the proper ballots. -/
def properly (l : List μ) : Finset ι := named voter (l.filter proper)

/-- Every message names a voter who has cast a proper ballot by then. -/
def Clean (l : List μ) : Prop :=
  ∀ pre m post, l = pre ++ m :: post →
    ∀ i, voter m = some i → i ∈ properly voter proper (pre ++ [m])

/-- As many voters are named as are expected exactly if all of those have voted properly. -/
def CountLaw (E : Finset ι) (l : List μ) : Prop :=
  (named voter l).card = E.card ↔ E ⊆ properly voter proper l

end Defs

variable {voter : μ → Option ι} {proper : μ → Bool} {E : Finset ι} {l pre tail : List μ}

@[simp] theorem mem_named {i : ι} : i ∈ named voter l ↔ ∃ m ∈ l, voter m = some i := by
  simp [named]

@[simp] theorem mem_properly {i : ι} :
    i ∈ properly voter proper l ↔ ∃ m ∈ l, proper m = true ∧ voter m = some i := by
  simp [properly, and_assoc]

theorem properly_subset_named : properly voter proper l ⊆ named voter l := by
  intro i hi
  obtain ⟨m, hm, -, hv⟩ := mem_properly.1 hi
  exact mem_named.2 ⟨m, hm, hv⟩

theorem named_append : named voter (pre ++ tail) = named voter pre ∪ named voter tail := by
  ext i
  simp [or_and_right, exists_or]

theorem properly_append : properly voter proper (pre ++ tail) =
    properly voter proper pre ∪ properly voter proper tail := by
  ext i
  simp [or_and_right, exists_or]

theorem properly_mono (h : pre <+: l) : properly voter proper pre ⊆ properly voter proper l := by
  obtain ⟨tail, rfl⟩ := h
  rw [properly_append]
  exact Finset.subset_union_left

theorem named_of_all_proper (h : ∀ m ∈ tail, proper m = true) :
    named voter tail = properly voter proper tail := by
  rw [properly, List.filter_eq_self.2 h]

/-! ### Clean logs -/

theorem Clean.initial (h : Clean voter proper l) (hp : pre <+: l) : Clean voter proper pre := by
  obtain ⟨tail, rfl⟩ := hp
  intro p m post he i hi
  exact h p m (post ++ tail) (by rw [he]; simp) i hi

/-- In a clean log everybody named has cast a proper ballot. -/
theorem Clean.named_subset (h : Clean voter proper l) :
    named voter l ⊆ properly voter proper l := by
  intro i hi
  obtain ⟨m, hm, hv⟩ := mem_named.1 hi
  obtain ⟨p, post, rfl⟩ := List.append_of_mem hm
  exact properly_mono ⟨post, by simp⟩ (h p m post rfl i hv)

theorem clean_of_forall_prefix
    (h : ∀ pre, pre <+: l → named voter pre ⊆ properly voter proper pre) :
    Clean voter proper l := by
  intro p m post he i hi
  exact h (p ++ [m]) ⟨post, by rw [he]; simp⟩ (mem_named.2 ⟨m, by simp, hi⟩)

/-- Proper ballots after a clean log keep everybody named a proper voter. -/
theorem Clean.named_append_subset (h : Clean voter proper pre)
    (ht : ∀ m ∈ tail, proper m = true) :
    named voter (pre ++ tail) ⊆ properly voter proper (pre ++ tail) := by
  rw [named_append, properly_append, named_of_all_proper ht]
  exact Finset.union_subset_union h.named_subset le_rfl

section Expected

variable (hproper : ∀ m, proper m = true → ∃ i ∈ E, voter m = some i)
  (hE : ∀ i ∈ E, ∃ m, proper m = true ∧ voter m = some i)

include hE in
/-- Proper ballots of any set of expected voters. -/
theorem exists_ballots {S : Finset ι} (hS : S ⊆ E) :
    ∃ tail : List μ, (∀ m ∈ tail, proper m = true) ∧ named voter tail = S := by
  choose f hf using hE
  refine ⟨S.attach.toList.map fun i => f i.1 (hS i.2), ?_, ?_⟩
  · simp only [List.mem_map]
    rintro m ⟨i, -, rfl⟩
    exact (hf _ _).1
  · ext i
    simp only [mem_named, List.mem_map, Finset.mem_toList, Finset.mem_attach, true_and]
    constructor
    · rintro ⟨_, ⟨j, rfl⟩, hj⟩
      rw [(hf _ _).2] at hj
      exact Option.some.inj hj ▸ j.2
    · intro hi
      exact ⟨_, ⟨⟨i, hi⟩, rfl⟩, (hf _ _).2⟩

include hE in
/-- A name without a proper ballot makes the count wrong after some proper ballots. -/
theorem exists_not_countLaw (h : ¬ named voter pre ⊆ properly voter proper pre) :
    ∃ tail : List μ, (∀ m ∈ tail, proper m = true) ∧ ¬ CountLaw voter proper E (pre ++ tail) := by
  by_cases hout : named voter pre ⊆ E
  · -- an expected voter is named without a proper ballot: let all the others vote
    obtain ⟨x, hx, hxp⟩ := Finset.not_subset.1 h
    obtain ⟨tail, ht, hS⟩ := exists_ballots hE (Finset.erase_subset x E)
    refine ⟨tail, ht, fun hlaw => ?_⟩
    have hnamed : named voter (pre ++ tail) = E := by
      rw [named_append, hS]
      refine (Finset.union_subset hout (Finset.erase_subset x E)).antisymm fun i hi => ?_
      by_cases hix : i = x
      · exact Finset.mem_union_left _ (hix ▸ hx)
      · exact Finset.mem_union_right _ (Finset.mem_erase.2 ⟨hix, hi⟩)
    have hin := hlaw.1 (by rw [hnamed]) (hout hx)
    rw [properly_append, ← named_of_all_proper ht, hS] at hin
    simp [hxp] at hin
  · -- somebody unexpected is named: let everybody vote
    obtain ⟨y, hy, hyE⟩ := Finset.not_subset.1 hout
    obtain ⟨tail, ht, hS⟩ := exists_ballots hE subset_rfl
    refine ⟨tail, ht, fun hlaw => ?_⟩
    have hsub : E ⊆ properly voter proper (pre ++ tail) := by
      rw [properly_append, ← named_of_all_proper ht, hS]
      exact Finset.subset_union_right
    have hlt : E.card < (named voter (pre ++ tail)).card := by
      refine Finset.card_lt_card ⟨?_, fun hle => hyE (hle ?_)⟩
      · rw [named_append, hS]
        exact Finset.subset_union_right
      · rw [named_append]
        exact Finset.mem_union_left _ hy
    exact absurd (hlaw.2 hsub) hlt.ne'

include hproper

theorem properly_subset : properly voter proper l ⊆ E := by
  intro i hi
  obtain ⟨m, -, hm, hv⟩ := mem_properly.1 hi
  obtain ⟨j, hj, hv'⟩ := hproper m hm
  rwa [Option.some.inj (hv.symm.trans hv')]

/-- Where everybody named is a proper voter, the count is right. -/
theorem countLaw_of_named_subset (h : named voter l ⊆ properly voter proper l) :
    CountLaw voter proper E l := by
  have heq : named voter l = properly voter proper l := h.antisymm properly_subset_named
  have hsub := properly_subset hproper (l := l)
  constructor
  · intro hcard
    rw [← Finset.eq_of_subset_of_card_le hsub (by rw [← heq, hcard])]
  · intro hE'
    rw [heq, hsub.antisymm hE']

include hE

/-- The count is right at every point of a log, whatever proper ballots follow there, exactly if
the log is clean. -/
theorem count_law_iff_clean : (∀ pre, pre <+: l → ∀ tail, (∀ m ∈ tail, proper m = true) →
    CountLaw voter proper E (pre ++ tail)) ↔ Clean voter proper l := by
  constructor
  · intro h
    refine clean_of_forall_prefix fun pre hp => ?_
    by_contra hn
    obtain ⟨tail, ht, hlaw⟩ := exists_not_countLaw hE hn
    exact hlaw (h pre hp tail ht)
  · intro h pre hp tail ht
    exact countLaw_of_named_subset hproper ((h.initial hp).named_append_subset ht)

end Expected

end Ballots
