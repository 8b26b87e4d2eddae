import Mathlib.Data.List.Nodup
import Mathlib.Data.List.TakeWhile

/-!
# Reader-writer locks that grant in the order of arrival

The requests for a lock, granted or not, stand in one line in the order they came. Granted are a
writer at the head of the line, or the readers at its head; so a reader that comes after a waiting
writer waits as well. A request leaves the line when its holder releases the lock. Every actor has
at most one request in the line. A writer holds the lock alone (`Holds.eq_of_write`), and nobody
loses it to a new request or as another actor leaves the line (`Holds.request`, `Holds.release`).

A reader `a` obstructs `b` if `b` came after it and is a writer or has a writer between them: then
`b` waits as long as `a` is in the line (`Obstructs.waits`), and nothing else keeps `b` waiting
while `a` holds the lock (`obstructs_of_waits`). Only a new request of `b` can make `a` obstruct it
(`obstructs_request`, `Obstructs.of_release`).
-/

namespace FifoLock

inductive Mode
  | read
  | write
  deriving DecidableEq, Repr

variable {A : Type*}

/-- The requests in the order they came. -/
abbrev Line (A : Type*) := List (A × Mode)

namespace Line

/-- The requests that are granted. -/
def granted : Line A → Line A
  | [] => []
  | (a, .write) :: _ => [(a, .write)]
  | (a, .read) :: rest => (a, .read) :: rest.takeWhile fun r => r.2 = .read

/-- The line after a request. -/
def request (line : Line A) (a : A) (m : Mode) : Line A := line ++ [(a, m)]

/-- The line after the release of an actor. -/
def release [DecidableEq A] (line : Line A) (a : A) : Line A := line.filter fun r => r.1 ≠ a

/-- The actor holds the lock. -/
def Holds (line : Line A) (a : A) : Prop := a ∈ line.granted.map Prod.fst

/-- The actor waits for the lock. -/
def Waits (line : Line A) (a : A) : Prop := a ∈ line.map Prod.fst ∧ ¬ line.Holds a

instance [DecidableEq A] (line : Line A) (a : A) : Decidable (line.Holds a) :=
  inferInstanceAs (Decidable (a ∈ line.granted.map Prod.fst))

instance [DecidableEq A] (line : Line A) (a : A) : Decidable (line.Waits a) :=
  inferInstanceAs (Decidable (_ ∧ _))

/-- No actor has two requests in the line. -/
def Distinct (line : Line A) : Prop := (line.map Prod.fst).Nodup

/-- The actor `b` came after the reader `a`, as a writer or with a writer between them. -/
def Obstructs (line : Line A) (a b : A) : Prop :=
  ∃ pre mid post m, line = pre ++ (a, .read) :: (mid ++ (b, m) :: post) ∧
    (m = .write ∨ ∃ r ∈ mid, r.2 = .write)

/-- The reader `a` would obstruct a new request. -/
def WouldObstruct (line : Line A) (a : A) (m : Mode) : Prop :=
  ∃ pre post, line = pre ++ (a, .read) :: post ∧ (m = .write ∨ ∃ r ∈ post, r.2 = .write)

variable {line : Line A} {a b c : A} {m : Mode}

theorem granted_initial (line : Line A) : line.granted <+: line := by
  unfold granted
  split
  · exact List.prefix_rfl
  · exact ⟨_, rfl⟩
  · exact (List.prefix_cons_inj _).2 (List.takeWhile_prefix _)

/-- The granted requests are one writer, or the readers before the first writer. -/
theorem granted_cases (line : Line A) : (∃ a rest, line = (a, .write) :: rest ∧
    line.granted = [(a, .write)]) ∨ ((∀ r ∈ line.granted, r.2 = .read) ∧
      ∃ rest, line = line.granted ++ rest ∧ ∀ r ∈ rest.head?, r.2 = .write) := by
  unfold granted
  split
  · exact .inr ⟨by simp, [], rfl, by simp⟩
  · exact .inl ⟨_, _, rfl, rfl⟩
  · next a rest =>
    refine .inr ⟨fun r hr => ?_, rest.dropWhile fun r => r.2 = .read, ?_, fun r hr => ?_⟩
    · rcases List.mem_cons.1 hr with rfl | hr
      · rfl
      · have hread := List.mem_takeWhile_imp hr
        exact of_decide_eq_true hread
    · rw [List.cons_append, List.takeWhile_append_dropWhile]
    · have hnot := List.head?_dropWhile_not (fun r : A × Mode => r.2 = .read) rest
      rw [hr] at hnot
      cases hm : r.2 with
      | read => simp [hm] at hnot
      | write => rfl

/-! ### Requests and releases -/

theorem Distinct.request (h : line.Distinct) (ha : a ∉ line.map Prod.fst) (m : Mode) :
    (line.request a m).Distinct := by
  unfold Distinct Line.request
  rw [List.map_append, List.nodup_append]
  refine ⟨h, List.nodup_singleton _, ?_⟩
  rintro x hx y hy rfl
  obtain rfl := List.mem_singleton.1 hy
  exact ha hx

theorem Distinct.release [DecidableEq A] (h : line.Distinct) (a : A) : (line.release a).Distinct :=
  h.sublist (List.filter_sublist.map _)

/-- No actor is ahead of itself. -/
theorem Distinct.ne (h : line.Distinct) {pre mid post : Line A} {x y : A × Mode}
    (hl : line = pre ++ x :: (mid ++ y :: post)) : x.1 ≠ y.1 := by
  intro he
  rw [Distinct, hl, List.map_append, List.map_cons] at h
  have hx := (List.nodup_cons.1 (List.nodup_append.1 h).2.1).1
  apply hx
  rw [he, List.map_append, List.map_cons]
  exact List.mem_append_right _ List.mem_cons_self

theorem mem_request {x : A × Mode} : x ∈ line.request a m ↔ x ∈ line ∨ x = (a, m) := by
  simp [Line.request]

theorem mem_map_request : b ∈ (line.request a m).map Prod.fst ↔ b ∈ line.map Prod.fst ∨ b = a := by
  simp [Line.request]

theorem mem_release [DecidableEq A] {x : A × Mode} : x ∈ line.release a ↔ x ∈ line ∧ x.1 ≠ a := by
  simp [Line.release]

/-! ### Holding the lock -/

theorem Holds.mem (h : line.Holds a) : a ∈ line.map Prod.fst :=
  (line.granted_initial.map Prod.fst).subset h

/-- Somebody holds a lock that is asked for. -/
theorem exists_holds (h : line ≠ []) : ∃ a, line.Holds a := by
  obtain ⟨⟨a, m⟩, rest, rfl⟩ := List.exists_cons_of_ne_nil h
  refine ⟨a, ?_⟩
  cases m <;> simp [Holds, granted]

/-- A writer holds the lock alone. -/
theorem Holds.eq_of_write (ha : (a, .write) ∈ line.granted) (hb : line.Holds b) : b = a := by
  rcases line.granted_cases with ⟨x, rest, -, hg⟩ | ⟨hread, -⟩
  · rw [Holds, hg] at hb
    rw [hg] at ha
    cases List.mem_singleton.1 ha
    exact List.mem_singleton.1 hb
  · cases hread _ ha

/-- A holder is the writer at the head of the line, or a reader with readers before it only. -/
theorem holds_iff : line.Holds a ↔ (∃ rest, line = (a, .write) :: rest) ∨
    ∃ pre post, line = pre ++ (a, .read) :: post ∧ ∀ r ∈ pre, r.2 = .read := by
  constructor
  · intro h
    obtain ⟨⟨a, m⟩, hg, rfl⟩ := List.mem_map.1 h
    rcases line.granted_cases with ⟨x, rest, hx, hgx⟩ | ⟨hread, rest, hrest, -⟩
    · rw [hgx] at hg
      cases List.mem_singleton.1 hg
      exact .inl ⟨rest, hx⟩
    · obtain rfl : m = .read := hread _ hg
      obtain ⟨g₁, g₂, hsplit⟩ := List.append_of_mem hg
      refine .inr ⟨g₁, g₂ ++ rest, ?_, fun r hr => hread r ?_⟩
      · rw [hrest, hsplit]
        simp
      · rw [hsplit]
        exact List.mem_append_left _ hr
  · rintro (⟨rest, rfl⟩ | ⟨pre, post, rfl, hread⟩)
    · simp [Holds, granted]
    · cases pre with
      | nil => simp [Holds, granted]
      | cons x pre =>
        obtain ⟨x, m⟩ := x
        obtain rfl : m = .read := hread _ List.mem_cons_self
        have hpre : ∀ r ∈ pre, decide (r.2 = .read) = true := fun r hr =>
          decide_eq_true (hread r (List.mem_cons_of_mem _ hr))
        simp [Holds, granted, List.takeWhile_append_of_pos hpre]

/-- Nobody loses the lock to a new request. -/
theorem Holds.request (h : line.Holds a) (b : A) (m : Mode) : (line.request b m).Holds a := by
  rw [holds_iff] at h ⊢
  rcases h with ⟨rest, rfl⟩ | ⟨pre, post, rfl, hread⟩
  · exact .inl ⟨rest ++ [(b, m)], rfl⟩
  · exact .inr ⟨pre, post ++ [(b, m)], by simp [Line.request], hread⟩

/-- Nobody loses the lock as another actor leaves the line. -/
theorem Holds.release [DecidableEq A] (h : line.Holds a) (hc : a ≠ c) :
    (line.release c).Holds a := by
  rw [holds_iff] at h ⊢
  rcases h with ⟨rest, rfl⟩ | ⟨pre, post, rfl, hread⟩
  · exact .inl ⟨Line.release rest c, by simp [Line.release, hc]⟩
  · refine .inr ⟨Line.release pre c, Line.release post c, by simp [Line.release, hc], ?_⟩
    exact fun r hr => hread r (mem_release.1 hr).1

theorem Waits.of_request (h : (line.request b m).Waits a) : line.Waits a ∨ a = b :=
  (mem_map_request.1 h.1).imp_left fun ha => ⟨ha, fun hh => h.2 (hh.request b m)⟩

theorem Waits.of_release [DecidableEq A] (h : (line.release c).Waits a) : line.Waits a := by
  obtain ⟨x, hx, rfl⟩ := List.mem_map.1 h.1
  obtain ⟨hx, hc⟩ := mem_release.1 hx
  exact ⟨List.mem_map_of_mem hx, fun hh => h.2 (hh.release hc)⟩

/-! ### Who keeps whom waiting -/

/-- An actor that waits while a reader holds the lock is obstructed by it. -/
theorem obstructs_of_waits (ha : (a, .read) ∈ line.granted) (hb : line.Waits b) :
    line.Obstructs a b := by
  rcases line.granted_cases with ⟨x, rest, -, hg⟩ | ⟨-, rest, hline, hhead⟩
  · rw [hg] at ha
    cases List.mem_singleton.1 ha
  · obtain ⟨hmem, hnot⟩ := hb
    rw [hline, List.map_append] at hmem
    obtain ⟨⟨b', m⟩, hr, rfl⟩ := List.mem_map.1 ((List.mem_append.1 hmem).resolve_left hnot)
    obtain ⟨g₁, g₂, hg⟩ := List.append_of_mem ha
    obtain ⟨r₁, r₂, rfl⟩ := List.append_of_mem hr
    refine ⟨g₁, g₂ ++ r₁, r₂, m, ?_, ?_⟩
    · rw [hline, hg]
      simp
    · cases r₁ with
      | nil => exact .inl (hhead _ rfl)
      | cons w r₁ => exact .inr ⟨w, by simp, hhead w rfl⟩

/-- An obstructed actor waits. -/
theorem Obstructs.waits (hd : line.Distinct) (h : line.Obstructs a b) : line.Waits b := by
  obtain ⟨pre, mid, post, m, hline, hwrite⟩ := h
  refine ⟨by rw [hline]; simp, fun hb => ?_⟩
  obtain ⟨⟨b', m'⟩, hg, rfl⟩ := List.mem_map.1 hb
  rcases line.granted_cases with ⟨x, rest, hx, hgx⟩ | ⟨hread, rest, hrest, -⟩
  · rw [hgx] at hg
    cases List.mem_singleton.1 hg
    -- the lock is held by one writer, the first in the line, and `b` is behind `a`
    cases pre with
    | nil =>
      rw [hline] at hx
      cases hx
    | cons y pre =>
      obtain ⟨rfl, -⟩ := List.cons.inj (hline.symm.trans hx)
      have hfirst : line = [] ++ (b', .write) :: ((pre ++ (a, .read) :: mid) ++ (b', m) :: post) :=
        hline.trans (by simp)
      have hne := hd.ne hfirst
      exact hne rfl
  · -- readers hold the lock, and between `a` and `b` or at `b` there is a writer
    have hb' : b' ∉ rest.map Prod.fst := by
      intro hmem
      rw [Distinct, hrest, List.map_append, List.nodup_append] at hd
      exact hd.2.2 b' hb b' hmem rfl
    have hsplit : line.granted ++ rest = (pre ++ (a, .read) :: mid) ++ (b', m) :: post := by
      rw [← hrest, hline]
      simp
    rcases List.append_eq_append_iff.1 hsplit with ⟨as, -, hrest'⟩ | ⟨as, hgranted, hbs⟩
    · apply hb'
      rw [hrest']
      simp
    · cases as with
      | nil =>
        apply hb'
        rw [show rest = (b', m) :: post from hbs.symm]
        simp
      | cons x as =>
        obtain ⟨rfl, -⟩ := List.cons.inj hbs
        rcases hwrite with rfl | ⟨r, hr, hw⟩
        · have hm := hread (b', .write) (by rw [hgranted]; simp)
          cases hm
        · have hm := hread r (by rw [hgranted]; simp [hr])
          rw [hw] at hm
          cases hm

theorem obstructs_request : (line.request c m).Obstructs a b ↔
    line.Obstructs a b ∨ c = b ∧ line.WouldObstruct a m := by
  constructor
  · rintro ⟨pre, mid, post, m', hline, hwrite⟩
    -- the new request is at the end, so it is that of `b` or behind it
    rcases List.eq_nil_or_concat post with rfl | ⟨post', x, rfl⟩
    · have hsplit : line ++ [(c, m)] = (pre ++ (a, .read) :: mid) ++ [(b, m')] := by
        rw [show line ++ [(c, m)] = line.request c m from rfl, hline]
        simp
      obtain ⟨hl, hlast⟩ := List.append_inj' hsplit rfl
      cases hlast
      exact .inr ⟨rfl, pre, mid, hl, hwrite⟩
    · have hsplit : line ++ [(c, m)] = (pre ++ (a, .read) :: (mid ++ (b, m') :: post')) ++ [x] := by
        rw [show line ++ [(c, m)] = line.request c m from rfl, hline]
        simp
      obtain ⟨hl, -⟩ := List.append_inj' hsplit rfl
      exact .inl ⟨pre, mid, post', m', hl, hwrite⟩
  · rintro (⟨pre, mid, post, m', rfl, hwrite⟩ | ⟨rfl, pre, post, rfl, hwrite⟩)
    · exact ⟨pre, mid, post ++ [(c, m)], m', by simp [Line.request], hwrite⟩
    · exact ⟨pre, post, [], m, by simp [Line.request], hwrite⟩

theorem Obstructs.of_release [DecidableEq A] (h : (line.release c).Obstructs a b) :
    line.Obstructs a b := by
  obtain ⟨pre, mid, post, m, hline, hwrite⟩ := h
  obtain ⟨l₁, l₂, rfl, -, h₂⟩ := List.filter_eq_append_iff.1 hline
  obtain ⟨l₃, l₄, rfl, -, -, h₄⟩ := List.filter_eq_cons_iff.1 h₂
  obtain ⟨l₅, l₆, rfl, h₅, h₆⟩ := List.filter_eq_append_iff.1 h₄
  obtain ⟨l₇, l₈, rfl, -, -, -⟩ := List.filter_eq_cons_iff.1 h₆
  refine ⟨l₁ ++ l₃, l₅ ++ l₇, l₈, m, by simp, hwrite.imp_right ?_⟩
  rintro ⟨r, hr, hw⟩
  rw [← h₅] at hr
  exact ⟨r, List.mem_append_left _ (List.mem_of_mem_filter hr), hw⟩

/-- The release of another holder does not end an obstruction. -/
theorem Obstructs.release [DecidableEq A] (hd : line.Distinct) (h : line.Obstructs a b)
    (hc : line.Holds c) (hca : c ≠ a) (hcb : c ≠ b) : (line.release c).Obstructs a b := by
  obtain ⟨pre, mid, post, m, hline, hwrite⟩ := h
  refine ⟨Line.release pre c, Line.release mid c, Line.release post c, m, ?_,
    hwrite.imp_right ?_⟩
  · rw [hline]
    simp [Line.release, Ne.symm hca, Ne.symm hcb]
  · rintro ⟨r, hr, hw⟩
    refine ⟨r, List.mem_filter.2 ⟨hr, decide_eq_true ?_⟩, hw⟩
    rintro rfl
    -- a writer behind the reader holds nothing
    obtain ⟨m₁, m₂, rfl⟩ := List.append_of_mem hr
    obtain ⟨c, mc⟩ := r
    have hbehind : line.Obstructs a c := by
      refine ⟨pre, m₁, m₂ ++ (b, m) :: post, mc, ?_, .inl hw⟩
      rw [hline]
      simp
    exact (hbehind.waits hd).2 hc

end Line

end FifoLock
