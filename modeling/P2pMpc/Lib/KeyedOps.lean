import Mathlib.Data.List.Perm.Basic
import Mathlib.Logic.Function.Basic

/-!
# Operations on the cells of a store

Every operation reads and writes one cell, the one of its key, and some of the operations leave
their key in a register. A history is a list of operations, each with the value it has found. For
the cells only the order of the operations on one key matters (`explains_iff`), so those of one key
can be brought to the end of a history, and the register then names this key (`exists_history`).
-/

namespace KeyedOps

variable {K V O : Type*}

section Register

variable (key : O → K) (names : O → Bool)

/-- What the operations leave in the register. -/
def register (r : Option K) (h : List (O × V)) : Option K :=
  h.foldl (fun r e => if names e.1 then some (key e.1) else r) r

variable {key names} {r : Option K} {k : K} {h : List (O × V)}

/-- A register that no operation names its key in stays as it is. -/
theorem register_of_forall (hnames : ∀ e ∈ h, names e.1 = false) : register key names r h = r := by
  induction h with
  | nil => rfl
  | cons e h ih =>
    rw [register, List.foldl_cons, if_neg (by simp [hnames e List.mem_cons_self])]
    exact ih fun e' he' => hnames e' (List.mem_cons_of_mem _ he')

/-- Operations on one key, some of which name it, leave it in the register. -/
theorem register_of_key (hkey : ∀ e ∈ h, key e.1 = k) (hnames : ∃ e ∈ h, names e.1 = true) :
    register key names r h = some k := by
  induction h generalizing r with
  | nil =>
    obtain ⟨e, he, -⟩ := hnames
    cases he
  | cons e h ih =>
    have htail : ∀ e' ∈ h, key e'.1 = k := fun e' he' => hkey e' (List.mem_cons_of_mem _ he')
    by_cases hmore : ∃ e' ∈ h, names e'.1 = true
    · exact ih htail hmore
    · have hnone : ∀ e' ∈ h, names e'.1 = false := by simpa using hmore
      obtain ⟨e', he', hname⟩ := hnames
      rcases List.mem_cons.1 he' with rfl | he'
      · show register key names (if names e'.1 then some (key e'.1) else r) h = some k
        rw [register_of_forall hnone, if_pos hname, hkey e' List.mem_cons_self]
      · exact absurd hname (by simp [hnone e' he'])

end Register

variable [DecidableEq K]

section Cells

variable (key : O → K) (act : O → V → V)

/-- The operations, one after the other, find the values that the history says, and lead from the
cells `f` to the cells `g`. -/
def Explains : (K → V) → List (O × V) → (K → V) → Prop
  | f, [], g => f = g
  | f, e :: h, g =>
      f (key e.1) = e.2 ∧ Explains (Function.update f (key e.1) (act e.1 e.2)) h g

/-- The same for the operations on one cell. -/
def ExplainsCell : V → List (O × V) → V → Prop
  | v, [], w => v = w
  | v, e :: h, w => v = e.2 ∧ ExplainsCell (act e.1 e.2) h w

/-- The operations on the key `k`. -/
def onKey (k : K) (h : List (O × V)) : List (O × V) := h.filter fun e => key e.1 = k

variable {key act} {f g : K → V} {h h' : List (O × V)}

/-- A history explains the cells exactly if, for each of them, the part of the history on its key
does. -/
theorem explains_iff :
    Explains key act f h g ↔ ∀ k, ExplainsCell act (f k) (onKey key k h) (g k) := by
  induction h generalizing f with
  | nil => exact funext_iff
  | cons e h ih =>
    rw [Explains, ih]
    constructor
    · rintro ⟨hfound, hrest⟩ k
      have hk := hrest k
      by_cases hkey : key e.1 = k
      · subst hkey
        rw [Function.update_self] at hk
        rw [onKey, List.filter_cons_of_pos (by simp)]
        exact ⟨hfound, hk⟩
      · rw [Function.update_of_ne (Ne.symm hkey)] at hk
        rw [onKey, List.filter_cons_of_neg (by simpa using hkey)]
        exact hk
    · intro hall
      have hkey := hall (key e.1)
      rw [onKey, List.filter_cons_of_pos (by simp)] at hkey
      refine ⟨hkey.1, fun k => ?_⟩
      by_cases hk : key e.1 = k
      · subst hk
        rw [Function.update_self]
        exact hkey.2
      · have hrest := hall k
        rw [onKey, List.filter_cons_of_neg (by simpa using hk)] at hrest
        rw [Function.update_of_ne (Ne.symm hk)]
        exact hrest

/-- Two histories with the same operations on every key, in the same order, explain the same. -/
theorem Explains.of_onKey_eq (hexplains : Explains key act f h g)
    (hsame : ∀ k, onKey key k h' = onKey key k h) : Explains key act f h' g := by
  rw [explains_iff] at hexplains ⊢
  intro k
  rw [hsame k]
  exact hexplains k

/-- One operation more. -/
theorem Explains.concat (hexplains : Explains key act f h g) (o : O) :
    Explains key act f (h ++ [(o, g (key o))]) (Function.update g (key o) (act o (g (key o)))) := by
  induction h generalizing f with
  | nil =>
    obtain rfl : f = g := hexplains
    exact ⟨rfl, rfl⟩
  | cons e h ih => exact ⟨hexplains.1, ih hexplains.2⟩

end Cells

section Orders

variable {key : O → K} {names : O → Bool} {r : Option K} {k : K} {h : List (O × V)}

/-- The history with the operations on the key `k` at its end. -/
def bring (key : O → K) (k : K) (h : List (O × V)) : List (O × V) :=
  (h.filter fun e => key e.1 ≠ k) ++ onKey key k h

theorem onKey_bring (k k' : K) (h : List (O × V)) :
    onKey key k' (bring key k h) = onKey key k' h := by
  rw [bring, onKey, List.filter_append, onKey, List.filter_filter, List.filter_filter]
  by_cases hk : k' = k
  · subst hk
    simp [onKey]
  · have hright : ∀ e : O × V, (decide (key e.1 = k') && decide (key e.1 = k)) = false := by
      intro e
      by_cases he : key e.1 = k'
      · simp [he, hk]
      · simp [he]
    simp only [hright, List.filter_false, List.append_nil, onKey]
    refine List.filter_congr fun e _ => ?_
    by_cases he : key e.1 = k'
    · simp [he, hk]
    · simp [he]

theorem bring_perm (k : K) (h : List (O × V)) : (bring key k h).Perm h := by
  refine List.perm_append_comm.trans ?_
  simpa [onKey] using List.filter_append_perm (fun e : O × V => decide (key e.1 = k)) h

/-- What any operation of a history has named can be what the register is left with, by a history
of the same operations in another order, and the same order on every key. -/
theorem exists_history {act : O → V → V} {f g : K → V} (hexplains : Explains key act f h g)
    (hk : ∃ e ∈ h, names e.1 = true ∧ key e.1 = k) :
    ∃ h', h'.Perm h ∧ (∀ k', onKey key k' h' = onKey key k' h) ∧ Explains key act f h' g ∧
      register key names r h' = some k := by
  refine ⟨bring key k h, bring_perm k h, fun k' => onKey_bring k k' h,
    hexplains.of_onKey_eq fun k' => onKey_bring k k' h, ?_⟩
  obtain ⟨e, he, hname, hkey⟩ := hk
  rw [bring, register, List.foldl_append]
  apply register_of_key
  · intro e' he'
    simpa using (List.mem_filter.1 he').2
  · exact ⟨e, List.mem_filter.2 ⟨he, by simpa using hkey⟩, hname⟩

end Orders

end KeyedOps
