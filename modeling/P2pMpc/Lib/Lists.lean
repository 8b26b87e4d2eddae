import Mathlib.Algebra.BigOperators.Group.Finset.Basic
import Mathlib.Algebra.Order.Group.Multiset
import Mathlib.Algebra.Order.Ring.Nat
import Mathlib.Data.List.Forall2
import Mathlib.Data.List.Nodup
import Mathlib.Data.Set.Function
import Mathlib.Order.Interval.Set.Defs

/-!
# Lists that are filtered, related, tagged, divided, numbered, and updated

Six kinds of facts about lists: what `filterMap` makes of one element among the others, for
accounts of what a list contributes; that lists related element by element stay related under access
and removal by index, for comparing two runs; that a list of tags kept beside a list still fits
after an element is removed and others are added; that the last separator of a list divides it in
one way; that the positions in a list without repetitions number its elements; and what replacing
one element does to a sum over the list and to what some element satisfies.
-/

namespace Lists

variable {α β : Type*}

/-! ### What an element contributes -/

theorem filterMap_cons_eq (f : α → Option β) (a : α) (as : List α) :
    (a :: as).filterMap f = (f a).toList ++ as.filterMap f := by
  cases h : f a <;> simp [h]

/-- Where no contribution occurs twice, each comes from one place. -/
theorem eq_of_nodup_filterMap {f : α → Option β} {a a' : α} {b : β} {xs ys xs' ys' : List α}
    (h : ((xs ++ a :: ys).filterMap f).Nodup) (he : xs ++ a :: ys = xs' ++ a' :: ys')
    (ha : f a = some b) (ha' : f a' = some b) : xs = xs' ∧ a = a' := by
  have htwice : ∀ {us : List α} {c c' : α} {vs ws : List α}, f c = some b → f c' = some b →
      ¬ ((us ++ c :: (vs ++ c' :: ws)).filterMap f).Nodup := by
    intro us c c' vs ws hc hc' hnodup
    rw [List.filterMap_append, List.filterMap_cons_some hc] at hnodup
    have hnot := (List.nodup_cons.1 (List.nodup_append.1 hnodup).2.1).1
    apply hnot
    exact List.mem_filterMap.2 ⟨c', List.mem_append_right _ List.mem_cons_self, hc'⟩
  rcases List.append_eq_append_iff.1 he with ⟨zs, rfl, hzs⟩ | ⟨zs, rfl, hzs⟩
  · cases zs with
    | nil => exact ⟨by simp, (List.cons.inj hzs).1⟩
    | cons z zs =>
      obtain ⟨rfl, rfl⟩ := List.cons.inj hzs
      exact absurd h (htwice ha ha')
  · cases zs with
    | nil => exact ⟨by simp, (List.cons.inj hzs).1.symm⟩
    | cons z zs =>
      obtain ⟨rfl, rfl⟩ := List.cons.inj hzs
      rw [he] at h
      exact absurd h (htwice ha' ha)

/-- The one occurrence of an element contributes once. -/
theorem filterMap_ite_eq [DecidableEq α] {as : List α} (h : as.Nodup) {a : α} (ha : a ∈ as)
    (b : Option β) : as.filterMap (fun x => if x = a then b else none) = b.toList := by
  induction as with
  | nil => cases ha
  | cons x as ih =>
    obtain ⟨hx, has⟩ := List.nodup_cons.1 h
    rw [filterMap_cons_eq]
    by_cases hxa : x = a
    · subst hxa
      have hnone : as.filterMap (fun y => if y = x then b else none) = [] := by
        apply List.filterMap_eq_nil_iff.2
        intro y hy
        apply if_neg
        rintro rfl
        exact hx hy
      rw [hnone, if_pos rfl, List.append_nil]
    · have ha' := (List.mem_cons.1 ha).resolve_left (Ne.symm hxa)
      rw [if_neg hxa, ih has ha']
      rfl

/-- What passes a test and what fails it make up the whole. -/
theorem filter_add_filter_not (p : α → Bool) (o : Option α) :
    ((o.filter p).toList + (o.filter fun a => !p a).toList : Multiset α) = o.toList := by
  cases o with
  | none => rfl
  | some a => cases h : p a <;> simp [Option.filter, h]

/-- Where each element that contributes is of exactly one kind, the contributions of the kinds add
up to those of the list. -/
theorem filterMap_eq_sum {ι : Type*} (S : Finset ι) (P : ι → α → Prop) [∀ i a, Decidable (P i a)]
    (f : α → Option β) (as : List α)
    (h : ∀ a ∈ as, f a ≠ none → ∃ i ∈ S, P i a ∧ ∀ j ∈ S, P j a → j = i) :
    (as.filterMap f : Multiset β) =
      ∑ i ∈ S, (as.filterMap fun a => if P i a then f a else none : Multiset β) := by
  induction as with
  | nil => simp
  | cons a as ih =>
    have hone : ((f a).toList : Multiset β) =
        ∑ i ∈ S, ((if P i a then f a else none).toList : Multiset β) := by
      cases hfa : f a with
      | none => simp
      | some b =>
        obtain ⟨i, hi, hP, hunique⟩ := h a List.mem_cons_self (by simp [hfa])
        rw [Finset.sum_eq_single_of_mem i hi, if_pos hP]
        intro j hj hji
        rw [if_neg fun hPj => hji (hunique j hj hPj)]
        rfl
    have hrest := ih fun a' ha' => h a' (List.mem_cons_of_mem _ ha')
    simp only [filterMap_cons_eq, ← Multiset.coe_add, Finset.sum_add_distrib]
    rw [← hone, ← hrest]

/-! ### Related lists -/

variable {R : α → β → Prop} {as : List α} {bs : List β}

theorem forall₂_getElem? (h : List.Forall₂ R as bs) (i : ℕ) :
    Option.Rel R as[i]? bs[i]? := by
  induction h generalizing i with
  | nil => exact .none
  | cons hab _ ih =>
    cases i with
    | zero => exact .some hab
    | succ i => exact ih i

theorem forall₂_eraseIdx (h : List.Forall₂ R as bs) (i : ℕ) :
    List.Forall₂ R (as.eraseIdx i) (bs.eraseIdx i) := by
  rw [List.eraseIdx_eq_take_drop_succ, List.eraseIdx_eq_take_drop_succ]
  exact List.rel_append (List.forall₂_take i h) (List.forall₂_drop (i + 1) h)

/-! ### Tags -/

/-- The tags of a list that has grown to the length `len` by elements with the tag `b`. -/
def fill (bs : List β) (len : ℕ) (b : β) : List β := bs ++ List.replicate (len - bs.length) b

theorem length_fill (h : bs.length ≤ as.length) (b : β) :
    (fill bs as.length b).length = as.length := by
  rw [fill, List.length_append, List.length_replicate]
  omega

/-- An element that keeps its tag, or a new one with the new tag. -/
theorem mem_zip_fill {cs : List α} (h : bs.length = as.length) {b : β} {e : α × β}
    (he : e ∈ (as ++ cs).zip (fill bs (as ++ cs).length b)) :
    e ∈ as.zip bs ∨ e.1 ∈ cs ∧ e.2 = b := by
  rw [fill, List.zip_append h.symm] at he
  rcases List.mem_append.1 he with he | he
  · exact .inl he
  · exact .inr ⟨List.of_mem_zip he |>.1, List.eq_of_mem_replicate (List.of_mem_zip he).2⟩

theorem mem_zip_eraseIdx {i : ℕ} {e : α × β} (he : e ∈ (as.eraseIdx i).zip (bs.eraseIdx i)) :
    e ∈ as.zip bs := by
  obtain ⟨j, hj⟩ := List.mem_iff_getElem?.1 he
  rw [List.getElem?_zip_eq_some, List.getElem?_eraseIdx, List.getElem?_eraseIdx] at hj
  apply List.mem_iff_getElem?.2
  by_cases hji : j < i
  · rw [if_pos hji, if_pos hji] at hj
    exact ⟨j, List.getElem?_zip_eq_some.2 hj⟩
  · rw [if_neg hji, if_neg hji] at hj
    exact ⟨j + 1, List.getElem?_zip_eq_some.2 hj⟩

theorem mem_zip_of_getElem? {i : ℕ} {a : α} {b : β} (ha : as[i]? = some a) (hb : bs[i]? = some b) :
    (a, b) ∈ as.zip bs :=
  List.mem_iff_getElem?.2 ⟨i, List.getElem?_zip_eq_some.2 ⟨ha, hb⟩⟩

/-! ### Separators -/

/-- Where the separator does not occur behind it, two lists are equal exactly if their parts are. -/
theorem append_cons_inj_right {a : α} {xs ys xs' ys' : List α} (h : a ∉ ys) (h' : a ∉ ys') :
    xs ++ a :: ys = xs' ++ a :: ys' ↔ xs = xs' ∧ ys = ys' := by
  constructor
  · intro he
    rcases List.append_eq_append_iff.1 he with ⟨zs, rfl, hzs⟩ | ⟨zs, rfl, hzs⟩
    · cases zs with
      | nil => exact ⟨by simp, (List.cons.inj hzs).2⟩
      | cons z zs => exact absurd (by simp [(List.cons.inj hzs).2]) h
    · cases zs with
      | nil => exact ⟨by simp, (List.cons.inj hzs).2.symm⟩
      | cons z zs => exact absurd (by simp [(List.cons.inj hzs).2]) h'
  · rintro ⟨rfl, rfl⟩
    rfl

/-! ### Positions -/

/-- In a list without repetitions an element has one position. -/
theorem getElem?_eq_some_iff_idxOf [DecidableEq α] {as : List α} (h : as.Nodup) {a : α} {i : ℕ} :
    as[i]? = some a ↔ a ∈ as ∧ as.idxOf a = i := by
  constructor
  · intro ha
    obtain ⟨hi, rfl⟩ := List.getElem?_eq_some_iff.1 ha
    exact ⟨List.getElem_mem hi, List.get_idxOf h ⟨i, hi⟩⟩
  · rintro ⟨ha, rfl⟩
    exact List.getElem?_idxOf ha

/-- The positions number the elements from 0 on, without gaps. -/
theorem bijOn_idxOf [DecidableEq α] {as : List α} (h : as.Nodup) :
    Set.BijOn (fun a => as.idxOf a) {a | a ∈ as} (Set.Iio as.length) := by
  refine ⟨?_, ?_, ?_⟩
  · intro a ha
    exact List.idxOf_lt_length_of_mem ha
  · intro a ha b hb he
    exact (List.idxOf_inj ha).1 he
  · intro i hi
    exact ⟨as.get ⟨i, hi⟩, List.get_mem as _, List.get_idxOf h ⟨i, hi⟩⟩

/-! ### Replacing one element -/

theorem exists_mem_set {as : List α} {i : ℕ} {a b : α} {P : α → Prop} (hi : as[i]? = some a)
    (h : ∃ d ∈ as, P d) (hab : P a → P b) : ∃ d ∈ as.set i b, P d := by
  obtain ⟨d, hd, hP⟩ := h
  obtain ⟨j, hj⟩ := List.mem_iff_getElem?.1 hd
  by_cases hij : i = j
  · subst hij
    obtain rfl := Option.some.inj (hi.symm.trans hj)
    exact ⟨b, List.mem_set (List.getElem?_eq_some_iff.1 hi).1 b, hab hP⟩
  · have hj' : (as.set i b)[j]? = some d := by rw [List.getElem?_set_ne hij, hj]
    exact ⟨d, List.mem_of_getElem? hj', hP⟩

/-- The sum changes by the difference of the two elements. -/
theorem sum_map_set {as : List α} {i : ℕ} {a : α} (hi : as[i]? = some a) (b : α) (f : α → ℕ) :
    ((as.set i b).map f).sum + f a = (as.map f).sum + f b := by
  induction as generalizing i with
  | nil => simp at hi
  | cons first as ih =>
    cases i with
    | zero =>
      obtain rfl := Option.some.inj hi
      simp only [List.set_cons_zero, List.map_cons, List.sum_cons]
      omega
    | succ i =>
      have hrest := ih (i := i) (by simpa using hi)
      simp only [List.set_cons_succ, List.map_cons, List.sum_cons]
      omega

end Lists
