import P2pMpc.Lib.Ballots
import P2pMpc.Session

/-!
# When a session counts as accepted

`all_accepted` compares the number of peers in the acceptance map with the number of assigned
nodes. The map is keyed by the `peer_id` an Acceptance declares; whether that peer is assigned, is
the coordinator, or was given the index it reports is not looked at. The acceptances of a session
are ballots in the sense of `Ballots`, so the count is right exactly for clean logs: every
Acceptance handled names an assigned peer other than the coordinator that has by then accepted
with its own index.
-/

namespace P2pMpc

variable {X : Platform}

/-- An Acceptance on its way to the coordinator. -/
structure Acceptance where
  peerId : String
  assignedIndex : ℕ
  sessionId : String
  deriving DecidableEq

def Acceptance.msg (a : Acceptance) : AssignmentMessage :=
  .acceptance a.peerId a.assignedIndex a.sessionId

/-- The peer an Acceptance names, if it is for the session `sid`. -/
def Acceptance.voter (sid : String) (a : Acceptance) : Option String :=
  if a.sessionId = sid then some a.peerId else none

/-- The Acceptance of an assigned peer other than the coordinator, with its own index. -/
def Acceptance.proper (coordinatorId : String) (assignments : HashMap String ℕ) (sid : String)
    (a : Acceptance) : Bool :=
  a.sessionId = sid ∧ a.peerId ≠ coordinatorId ∧
    assignments.lookup a.peerId = some a.assignedIndex

/-- The peers a session waits for. -/
def expectedPeers (coordinatorId : String) (assignments : HashMap String ℕ) : Finset String :=
  assignments.keys.toFinset.erase coordinatorId

/-- A sequence of Acceptances handled one after the other; they publish nothing and read no
clock. -/
def Node.handleAcceptances (n : Node X) (as : List Acceptance) : Node X :=
  as.foldl (fun n a => (n.handleAssignmentMessage false 0 a.msg).1) n

/-! ### What acceptances do to a session -/

namespace SessionInfo

variable {s : SessionInfo} {as : List Acceptance}

/-- The session after the Acceptances of a list. -/
def acceptAll (s : SessionInfo) (as : List Acceptance) : SessionInfo :=
  as.foldl (fun s a => s.accept a.peerId) s

/-- Acceptances change nothing but the acceptance map. -/
theorem acceptAll_eq (s : SessionInfo) (as : List Acceptance) :
    ∃ m, s.acceptAll as = { s with acceptances := m } := by
  induction as generalizing s with
  | nil => exact ⟨_, rfl⟩
  | cons a as ih => exact ih (s.accept a.peerId)

theorem mem_acceptAll {p : String} :
    p ∈ (s.acceptAll as).acceptances ↔ p ∈ s.acceptances ∨ ∃ a ∈ as, a.peerId = p := by
  induction as generalizing s with
  | nil => simp [acceptAll]
  | cons a as ih =>
    have h := ih (s := s.accept a.peerId)
    simp only [acceptAll, List.foldl_cons] at h ⊢
    rw [h, mem_accept]
    simp only [List.mem_cons, exists_eq_or_imp]
    tauto

theorem all_acceptAll (h : ∀ e ∈ s.acceptances.entries, e.2 = true) :
    ∀ e ∈ (s.acceptAll as).acceptances.entries, e.2 = true := by
  induction as generalizing s with
  | nil => exact h
  | cons a as ih => exact ih (all_accept h a.peerId)

theorem keys_accept (s : SessionInfo) (p : String) :
    (s.accept p).acceptances.keys.toFinset = s.acceptances.keys.toFinset ∪ {p} := by
  ext q
  have hq : q ∈ (s.accept p).acceptances ↔ q = p ∨ q ∈ s.acceptances := mem_accept
  simp only [AList.mem_keys] at hq
  simp [hq]

theorem allAccepted_iff (h : ∀ e ∈ s.acceptances.entries, e.2 = true) :
    s.allAccepted = true ↔ s.acceptances.keys.toFinset.card = usizeSub s.totalNodes 1 := by
  have hlen : s.acceptances.entries.length = s.acceptances.keys.toFinset.card := by
    rw [List.toFinset_card_of_nodup s.acceptances.keys_nodup, AList.keys, List.keys,
      List.length_map]
  simp [allAccepted, hlen, List.all_eq_true.2 h]

theorem acceptanceCount_eq (h : ∀ e ∈ s.acceptances.entries, e.2 = true) :
    s.acceptanceCount = s.acceptances.keys.toFinset.card := by
  rw [List.toFinset_card_of_nodup s.acceptances.keys_nodup, AList.keys, List.keys,
    List.length_map, acceptanceCount, List.countP_eq_length]
  exact h

end SessionInfo

/-- The session a node holds after a sequence of Acceptances. -/
theorem Node.lookup_handleAcceptances (n : Node X) (as : List Acceptance) (sid : String) :
    (n.handleAcceptances as).sessions.lookup sid =
      (n.sessions.lookup sid).map fun s => s.acceptAll (as.filter fun a => a.sessionId = sid) := by
  induction as generalizing n with
  | nil => simp [handleAcceptances, SessionInfo.acceptAll]
  | cons a as ih =>
    have hstep := n.lookup_sessions_acceptance false 0 a.peerId a.assignedIndex a.sessionId sid
    have h := ih (n.handleAssignmentMessage false 0 a.msg).1
    rw [Acceptance.msg, hstep] at h
    simp only [handleAcceptances, List.foldl_cons, Acceptance.msg] at h ⊢
    rw [h, Option.map_map]
    congr 1
    funext s
    by_cases hs : a.sessionId = sid <;> simp [hs, SessionInfo.acceptAll]

/-- What `all_accepted` is meant to say of the session `sid` after a sequence of Acceptances: it
holds exactly if every assigned peer other than the coordinator has accepted with its own index; no
more acceptances are counted than there are such peers; and it has not become false again. -/
def Node.AcceptanceLaw (n : Node X) (sid : String) (as : List Acceptance) : Prop :=
  ∀ s, (n.handleAcceptances as).sessions.lookup sid = some s →
    (s.allAccepted = true ↔
      ∀ p i, s.assignments.lookup p = some i → p ≠ s.coordinatorId → ⟨p, i, sid⟩ ∈ as) ∧
    s.acceptanceCount ≤ usizeSub s.totalNodes 1 ∧
    ∀ pre s', pre <+: as → (n.handleAcceptances pre).sessions.lookup sid = some s' →
      s'.allAccepted = true → s.allAccepted = true

/-! ### Acceptances as ballots -/

section Ballots

open Ballots

variable {coord sid : String} {assignments : HashMap String ℕ} {as : List Acceptance}

theorem mem_expectedPeers {p : String} :
    p ∈ expectedPeers coord assignments ↔ p ≠ coord ∧ ∃ i, assignments.lookup p = some i := by
  rw [expectedPeers, Finset.mem_erase, List.mem_toFinset, ← AList.mem_keys, ← AList.lookup_isSome,
    Option.isSome_iff_exists]

theorem card_expectedPeers (hc : coord ∈ assignments) :
    (expectedPeers coord assignments).card = usizeSub assignments.entries.length 1 := by
  have hmem : coord ∈ assignments.keys.toFinset := List.mem_toFinset.2 (AList.mem_keys.1 hc)
  have hlen : assignments.keys.toFinset.card = assignments.entries.length := by
    rw [List.toFinset_card_of_nodup assignments.keys_nodup, AList.keys, List.keys, List.length_map]
  have hpos : 1 ≤ assignments.entries.length := by
    rw [← hlen]
    exact Finset.card_pos.2 ⟨coord, hmem⟩
  rw [expectedPeers, Finset.card_erase_of_mem hmem, hlen, usizeSub, if_pos hpos]

theorem proper_voter (a : Acceptance) (h : a.proper coord assignments sid = true) :
    ∃ p ∈ expectedPeers coord assignments, a.voter sid = some p := by
  simp only [Acceptance.proper, decide_eq_true_eq] at h
  exact ⟨a.peerId, mem_expectedPeers.2 ⟨h.2.1, _, h.2.2⟩, by simp [Acceptance.voter, h.1]⟩

theorem exists_proper (p : String) (h : p ∈ expectedPeers coord assignments) :
    ∃ a : Acceptance, a.proper coord assignments sid = true ∧ a.voter sid = some p := by
  obtain ⟨hne, i, hi⟩ := mem_expectedPeers.1 h
  exact ⟨⟨p, i, sid⟩, by simp [Acceptance.proper, hne, hi], by simp [Acceptance.voter]⟩

/-- Everybody expected has cast a proper ballot if the Acceptance of each is in the log. -/
theorem expected_subset_properly :
    expectedPeers coord assignments ⊆
        properly (Acceptance.voter sid) (Acceptance.proper coord assignments sid) as ↔
      ∀ p i, assignments.lookup p = some i → p ≠ coord → ⟨p, i, sid⟩ ∈ as := by
  constructor
  · intro h p i hi hne
    obtain ⟨a, ha, hproper, hv⟩ := mem_properly.1 (h (mem_expectedPeers.2 ⟨hne, i, hi⟩))
    simp only [Acceptance.proper, decide_eq_true_eq] at hproper
    obtain rfl : a.peerId = p := by simpa [Acceptance.voter, hproper.1] using hv
    obtain rfl : i = a.assignedIndex := Option.some.inj (hi.symm.trans hproper.2.2)
    rw [← hproper.1]
    exact ha
  · intro h p hp
    obtain ⟨hne, i, hi⟩ := mem_expectedPeers.1 hp
    exact mem_properly.2 ⟨_, h p i hi hne, by simp [Acceptance.proper, hne, hi],
      by simp [Acceptance.voter]⟩

/-- A session stored by its coordinator, after a sequence of Acceptances: its map holds the peers
they name. -/
theorem Node.session_after {n : Node X} {now : UInt64}
    (hs : n.sessions.lookup sid = some (.new now sid coord assignments)) (as : List Acceptance)
    {s : SessionInfo} (h : (n.handleAcceptances as).sessions.lookup sid = some s) :
    s.coordinatorId = coord ∧ s.assignments = assignments ∧
      s.totalNodes = assignments.entries.length ∧
      (s.allAccepted = true ↔
        (named (Acceptance.voter sid) as).card = usizeSub assignments.entries.length 1) ∧
      s.acceptanceCount = (named (Acceptance.voter sid) as).card := by
  rw [lookup_handleAcceptances, hs, Option.map_some, Option.some.injEq] at h
  have hkeys : s.acceptances.keys.toFinset = named (Acceptance.voter sid) as := by
    ext p
    rw [List.mem_toFinset, ← AList.mem_keys, ← h, SessionInfo.mem_acceptAll, mem_named]
    simp [SessionInfo.new, Acceptance.voter, and_assoc]
  have hall : ∀ e ∈ s.acceptances.entries, e.2 = true := by
    rw [← h]
    exact SessionInfo.all_acceptAll (by simp [SessionInfo.new])
  obtain ⟨m, hm⟩ := SessionInfo.acceptAll_eq (.new now sid coord assignments)
    (as.filter fun a => a.sessionId = sid)
  have htotal : s.totalNodes = assignments.entries.length := by rw [← h, hm]; rfl
  refine ⟨by rw [← h, hm]; rfl, by rw [← h, hm]; rfl, htotal, ?_, ?_⟩
  · rw [SessionInfo.allAccepted_iff hall, hkeys, htotal]
  · rw [SessionInfo.acceptanceCount_eq hall, hkeys]

/-- For a session stored by its coordinator, the law holds at every point of a sequence of
Acceptances, whatever proper ones follow there, exactly if every Acceptance of the sequence names a
peer that is assigned, is not the coordinator, and has by then accepted with its own index. -/
theorem acceptance_law_iff_clean {n : Node X} {now : UInt64}
    (hs : n.sessions.lookup sid = some (.new now sid coord assignments))
    (hc : coord ∈ assignments) (as : List Acceptance) :
    (∀ pre, pre <+: as → ∀ tail, (∀ a ∈ tail, a.proper coord assignments sid = true) →
      n.AcceptanceLaw sid (pre ++ tail)) ↔
    Clean (Acceptance.voter sid) (Acceptance.proper coord assignments sid) as := by
  have hcard := card_expectedPeers hc
  -- the first part of the law is the law of the count
  have hlaw : ∀ as s, (n.handleAcceptances as).sessions.lookup sid = some s →
      ((s.allAccepted = true ↔
        ∀ p i, s.assignments.lookup p = some i → p ≠ s.coordinatorId → ⟨p, i, sid⟩ ∈ as) ↔
      CountLaw (Acceptance.voter sid) (Acceptance.proper coord assignments sid)
        (expectedPeers coord assignments) as) := by
    intro as s h
    obtain ⟨h1, h2, -, h4, -⟩ := Node.session_after hs as h
    rw [h4, h1, h2, CountLaw, expected_subset_properly, hcard]
  have hstored : ∀ as, ∃ s, (n.handleAcceptances as).sessions.lookup sid = some s := by
    intro as
    rw [Node.lookup_handleAcceptances, hs]
    exact ⟨_, rfl⟩
  constructor
  · intro h
    refine (count_law_iff_clean proper_voter exists_proper).1 fun pre hp tail ht => ?_
    obtain ⟨s, hst⟩ := hstored (pre ++ tail)
    exact (hlaw _ s hst).1 (h pre hp tail ht s hst).1
  · intro h pre hp tail ht s hst
    obtain ⟨h1, h2, h3, h4, h5⟩ := Node.session_after hs (pre ++ tail) hst
    have hsub := (h.initial hp).named_append_subset ht
    have hcount := countLaw_of_named_subset proper_voter hsub
    refine ⟨(hlaw _ s hst).2 hcount, ?_, ?_⟩
    · rw [h5, h3, ← hcard]
      exact Finset.card_le_card (hsub.trans (properly_subset proper_voter))
    · intro p s' hpre hs' hacc
      obtain ⟨-, -, -, h4', -⟩ := Node.session_after hs p hs'
      -- everybody expected has voted in the prefix, hence in the whole
      have hall : named (Acceptance.voter sid) p ⊆ named (Acceptance.voter sid) (pre ++ tail) := by
        obtain ⟨t, ht'⟩ := hpre
        rw [← ht', named_append]
        exact Finset.subset_union_left
      rw [h4'] at hacc
      rw [h4]
      refine le_antisymm ?_ (hacc ▸ Finset.card_le_card hall)
      rw [← hcard]
      exact Finset.card_le_card (hsub.trans (properly_subset proper_voter))

end Ballots

/-! ### A coordinator of three nodes -/

namespace AcceptanceRun

/-- The coordinator `a` of a session with `b` and `c`. -/
def coordinator : Node .plain :=
  (Node.assignPeerIndices { Node.new "a" with peerList := ["b", "c"] } 0).1

def assignments : HashMap String ℕ := .ofEntries [("a", 0), ("b", 1), ("c", 2)]

theorem stored : coordinator.sessions.lookup "a-0" = some (.new 0 "a-0" "a" assignments) := rfl

end AcceptanceRun

open AcceptanceRun

/-- The honest acceptances, one of them repeated, obey the law. -/
theorem honest_acceptances_obey : coordinator.AcceptanceLaw "a-0"
    [⟨"c", 2, "a-0"⟩, ⟨"b", 1, "a-0"⟩, ⟨"c", 2, "a-0"⟩] := by
  have hproper : ∀ a ∈ ([⟨"c", 2, "a-0"⟩, ⟨"b", 1, "a-0"⟩, ⟨"c", 2, "a-0"⟩] : List Acceptance),
      a.proper "a" AcceptanceRun.assignments "a-0" = true := by decide
  have hclean : Ballots.Clean (Acceptance.voter "a-0")
      (Acceptance.proper "a" AcceptanceRun.assignments "a-0")
      [⟨"c", 2, "a-0"⟩, ⟨"b", 1, "a-0"⟩, ⟨"c", 2, "a-0"⟩] := by
    intro pre m post h i hi
    have hm := hproper m (h ▸ List.mem_append_right _ List.mem_cons_self)
    exact Ballots.mem_properly.2 ⟨m, List.mem_append_right _ List.mem_cons_self, hm, hi⟩
  have h := (acceptance_law_iff_clean stored (by decide) _).2 hclean _ (List.prefix_refl _) []
    (by simp)
  rwa [List.append_nil] at h

/-- The acceptance of an unassigned peer completes the session without `c`. -/
theorem stranger_completes_session :
    ∃ s, (coordinator.handleAcceptances [⟨"x", 7, "a-0"⟩, ⟨"b", 1, "a-0"⟩]).sessions.lookup "a-0" =
        some s ∧ s.allAccepted = true ∧
      ¬ coordinator.AcceptanceLaw "a-0" [⟨"x", 7, "a-0"⟩, ⟨"b", 1, "a-0"⟩] := by
  refine ⟨_, rfl, by decide, fun h => ?_⟩
  have hx := ((h _ rfl).1.1 (by decide)) "c" 2 (by decide) (by decide)
  simp at hx

end P2pMpc
