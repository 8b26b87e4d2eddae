import P2pMpc.Lib.Lists
import P2pMpc.Node

/-!
# The assignment of a coordinator

`assign_peer_indices` gives itself the index 0 and the peers on its list the indices from 1 on, by
inserting them into a map in turn. No index is lost or given twice because the event loop keeps the
list free of repetitions and of the node itself, whatever swarm events it meets.
-/

namespace P2pMpc

open StateMachine

variable {X : Platform}

/-- The map filled with the elements of a list and their positions gives an element its position. -/
theorem HashMap.lookup_ofEntries_zipIdx {K : Type} [DecidableEq K] {ks : List K} (h : ks.Nodup)
    {k : K} {i : ℕ} : (HashMap.ofEntries ks.zipIdx).lookup k = some i ↔ ks[i]? = some k := by
  have hkeys : (ks.zipIdx.map Prod.fst).Nodup := by
    rw [List.zipIdx_map_fst]
    exact h
  rw [← Option.mem_def, AList.mem_lookup_iff, HashMap.entries_ofEntries hkeys, List.mem_reverse,
    List.mem_map]
  constructor
  · rintro ⟨⟨k', i'⟩, hmem, he⟩
    cases he
    exact List.mk_mem_zipIdx_iff_getElem?.1 hmem
  · intro hi
    exact ⟨(k, i), List.mk_mem_zipIdx_iff_getElem?.2 hi, rfl⟩

namespace Node

variable {n : Node X}

/-- The nodes that `assign_peer_indices` gives an index. -/
def assignees (n : Node X) : List X.PeerId := n.id :: n.peerList

/-- The assignments are a bijection from the node and its peers onto the numbers below their count,
with the node itself at 0. -/
def NumbersPeers (n : Node X) (assignments : HashMap String ℕ) : Prop :=
  ∃ index : X.PeerId → ℕ,
    Set.BijOn index {p | p ∈ n.assignees} (Set.Iio (n.peerList.length + 1)) ∧ index n.id = 0 ∧
      ∀ s i, assignments.lookup s = some i ↔
        ∃ p ∈ n.assignees, X.peerToString p = s ∧ index p = i

theorem createAssignments_eq (n : Node X) :
    n.createAssignments = .ofEntries (n.assignees.map X.peerToString).zipIdx := rfl

theorem PeersDistinct.numbersPeers (hinj : Function.Injective X.peerToString)
    (hn : n.PeersDistinct) : n.NumbersPeers n.createAssignments := by
  have hkeys : (n.assignees.map X.peerToString).Nodup := List.Nodup.map hinj hn
  refine ⟨fun p => n.assignees.idxOf p, Lists.bijOn_idxOf hn, List.idxOf_cons_eq _ rfl, ?_⟩
  intro s i
  rw [createAssignments_eq, HashMap.lookup_ofEntries_zipIdx hkeys, List.getElem?_map,
    Option.map_eq_some_iff]
  constructor
  · rintro ⟨p, hp, rfl⟩
    obtain ⟨hmem, rfl⟩ := (Lists.getElem?_eq_some_iff_idxOf hn).1 hp
    exact ⟨p, hmem, rfl, rfl⟩
  · rintro ⟨p, hmem, rfl, rfl⟩
    exact ⟨p, (Lists.getElem?_eq_some_iff_idxOf hn).2 ⟨hmem, rfl⟩, rfl⟩

/-- The map has one entry for each of the nodes. -/
theorem PeersDistinct.length_createAssignments (hinj : Function.Injective X.peerToString)
    (hn : n.PeersDistinct) : n.createAssignments.entries.length = n.peerList.length + 1 := by
  have hkeys : ((n.assignees.map X.peerToString).zipIdx.map Prod.fst).Nodup := by
    rw [List.zipIdx_map_fst]
    exact hn.map hinj
  rw [createAssignments_eq, HashMap.entries_ofEntries hkeys]
  simp [assignees]

end Node

/-- Whenever `assign_peer_indices` runs, the session it stores and the Request it broadcasts have a
bijection from the node and its peers onto `0, …, n - 1` as their assignments, and the session
counts `n` nodes. -/
theorem assign_peer_indices_bijective (hinj : Function.Injective X.peerToString) {n : Node X}
    (h : (nodeMachine X).Reachable n) (now : UInt64) :
    ∃ sid session, (n.assignPeerIndices now).1.sessions.lookup sid = some session ∧
      (n.assignPeerIndices now).1.currentSessionId = some sid ∧
      (n.assignPeerIndices now).2 = .request (X.peerToString n.id) session.assignments sid ∧
      session.totalNodes = n.peerList.length + 1 ∧ n.NumbersPeers session.assignments := by
  have hn := reachable_peersDistinct h
  exact ⟨_, _, AList.lookup_insert _, rfl, rfl, hn.length_createAssignments hinj,
    hn.numbersPeers hinj⟩

/-- A node identifies itself, two peers, one of them twice, and loses that one. -/
def LostPeerRun.labels : List (NodeLabel .plain) :=
  [.act (.identify "a"), .act (.identify "b"), .act (.identify "c"), .act (.identify "b"),
    .act (.connectionClosed "b")]

/-- The remaining peer is given the index 1. -/
theorem lost_peer_bijective : ∃ n : Node .plain,
    (nodeMachine .plain).run (.new "a") LostPeerRun.labels = some n ∧
      ∃ sid session, (n.assignPeerIndices 5).1.sessions.lookup sid = some session ∧
        session.totalNodes = 2 ∧ n.NumbersPeers session.assignments := by
  refine ⟨_, rfl, ?_⟩
  obtain ⟨sid, session, hs, -, -, htotal, hnum⟩ := assign_peer_indices_bijective
    (X := .plain) (fun _ _ h => h) ⟨.new "a", LostPeerRun.labels, ⟨"a", rfl⟩, rfl⟩ 5
  exact ⟨sid, session, hs, htotal, hnum⟩

end P2pMpc
