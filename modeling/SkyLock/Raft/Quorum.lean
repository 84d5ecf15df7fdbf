/-
# What `updateCommitIndex` picks

The two nested loops of `updateCommitIndex` sort the replicated indices (`exchangeSort_perm`,
`exchangeSort_sorted`), and element `n / 2` of the sorted list is reached by at least `n - n / 2`
of the `n` nodes (`quorumIndex_reached`).  For an even `n` that is HALF of them, not a majority
(`commit_by_half`; `commit_majority_iff` says exactly when it is one).  It still meets every set of
`n / 2 + 1` nodes, which is what an election needs (`quorums_intersect`).
-/
import SkyLock.Raft.Node

namespace SkyLock.Raft.State

/-! ## 1. The loops sort -/

theorem exchange_perm : ∀ (x : Nat) (ys : List Nat),
    ((exchange x ys).1 :: (exchange x ys).2).Perm (x :: ys)
  | x, [] => .refl _
  | x, y :: ys => by
    by_cases h : x > y
    · have ih := exchange_perm y ys
      simp only [exchange, if_pos h]
      exact ((List.Perm.swap x _ _).trans (ih.cons x))
    · have ih := exchange_perm x ys
      simp only [exchange, if_neg h]
      exact (List.Perm.swap y _ _).trans ((ih.cons y).trans (List.Perm.swap x y ys))

/-- What stays at the position is a least element. -/
theorem exchange_le : ∀ (x : Nat) (ys : List Nat),
    (exchange x ys).1 ≤ x ∧ ∀ z ∈ (exchange x ys).2, (exchange x ys).1 ≤ z
  | x, [] => ⟨le_rfl, by simp [exchange]⟩
  | x, y :: ys => by
    by_cases h : x > y
    · obtain ⟨hy, hys⟩ := exchange_le y ys
      simp only [exchange, if_pos h, List.mem_cons, forall_eq_or_imp]
      exact ⟨by omega, by omega, hys⟩
    · obtain ⟨hx, hys⟩ := exchange_le x ys
      simp only [exchange, if_neg h, List.mem_cons, forall_eq_or_imp]
      exact ⟨hx, by omega, hys⟩

theorem exchangeSort_perm : ∀ (n : Nat) (xs : List Nat), (exchangeSort n xs).Perm xs
  | 0, xs => .refl _
  | _ + 1, [] => .refl _
  | n + 1, x :: xs => by
    simp only [exchangeSort]
    exact ((exchangeSort_perm n _).cons _).trans (exchange_perm x xs)

theorem length_exchange (x : Nat) (ys : List Nat) : (exchange x ys).2.length = ys.length := by
  have h := (exchange_perm x ys).length_eq
  simpa using h

theorem exchangeSort_sorted : ∀ (n : Nat) (xs : List Nat), xs.length ≤ n →
    (exchangeSort n xs).Pairwise (· ≤ ·)
  | 0, xs, h => by
    obtain rfl := List.length_eq_zero_iff.mp (Nat.le_zero.mp h)
    exact .nil
  | _ + 1, [], _ => .nil
  | n + 1, x :: xs, h => by
    simp only [exchangeSort]
    have hlen : (exchange x xs).2.length ≤ n := by
      rw [length_exchange]
      simpa using h
    refine .cons (fun z hz => ?_) (exchangeSort_sorted n _ hlen)
    exact (exchange_le x xs).2 z ((exchangeSort_perm n _).mem_iff.mp hz)

/-! ## 2. How many reach it -/

/-- **An order statistic.**  In a sorted list the elements from position `i` on reach `v` exactly
if the one at `i` does. -/
theorem le_countP_iff_of_sorted {xs : List Nat} (h : xs.Pairwise (· ≤ ·)) {i w : Nat}
    (hw : xs[i]? = some w) (v : Nat) : xs.length - i ≤ xs.countP (v ≤ ·) ↔ v ≤ w := by
  obtain ⟨hi, rfl⟩ := List.getElem?_eq_some_iff.mp hw
  have hget : ∀ j k, (hj : j < xs.length) → (hk : k < xs.length) → j ≤ k → xs[j] ≤ xs[k] :=
    fun j k hj hk hjk => h.rel_get_of_le (a := ⟨j, hj⟩) (b := ⟨k, hk⟩) hjk
  constructor
  · -- otherwise everything up to `i` falls short of `v`
    intro hcount
    by_contra hlt
    have hnone : (xs.take (i + 1)).countP (v ≤ ·) = 0 := by
      refine List.countP_eq_zero.mpr fun z hz => ?_
      obtain ⟨j, hj, rfl⟩ := List.mem_take_iff_getElem.mp hz
      have := hget j i (by omega) hi (by omega)
      rw [decide_eq_true_eq]
      omega
    have hrest := (xs.drop (i + 1)).countP_le_length (p := (v ≤ ·))
    rw [← List.take_append_drop (i + 1) xs, List.countP_append, hnone,
      List.take_append_drop] at hcount
    rw [List.length_drop] at hrest
    omega
  · intro hv
    have hall : (xs.drop i).countP (v ≤ ·) = (xs.drop i).length := by
      refine List.countP_eq_length.mpr fun z hz => ?_
      obtain ⟨j, hj, rfl⟩ := List.mem_drop_iff_getElem.mp hz
      exact decide_eq_true (hv.trans (hget i (i + j) hi (by omega) (by omega)))
    have hsub := (List.drop_sublist i xs).countP_le (p := (v ≤ ·))
    rwa [hall, List.length_drop] at hsub

/-- The nodes that are known to have the log up to `N`. -/
def replicated (s : State) (id : Str) (N : Nat) : Finset Str :=
  (if N ≤ Log.lastIndex s.log then {id} else ∅) ∪
    s.matchIndex.keys.filter fun q => N ≤ (s.matchIndex.find q).getD 0

/-- The list that the loops of `updateCommitIndex` leave. -/
def ranked (s : State) : List Nat :=
  exchangeSort (values s.matchIndex).length.succ (Log.lastIndex s.log :: values s.matchIndex)

variable {s : State} {id : Str} {N : Nat}

theorem length_values (m : GoMap Str Nat) : (values m).length = m.keys.card := by
  rw [values, GoMap.sortedKeys_eq_sort, List.length_map, Finset.length_sort]

theorem countP_values (m : GoMap Str Nat) (v : Nat) :
    (values m).countP (v ≤ ·) = (m.keys.filter fun q => v ≤ (m.find q).getD 0).card := by
  rw [values, GoMap.sortedKeys_eq_sort, List.countP_map, List.countP_eq_length_filter]
  have hnd : ((m.keys.sort (· ≤ ·)).filter ((v ≤ ·) ∘ fun k => (m.find k).getD 0)).Nodup :=
    (Finset.sort_nodup _ _).filter _
  rw [← List.toFinset_card_of_nodup hnd]
  congr 1
  ext q
  simp

theorem ranked_sorted (s : State) : s.ranked.Pairwise (· ≤ ·) :=
  exchangeSort_sorted _ _ (by simp)

theorem length_ranked (s : State) : s.ranked.length = s.matchIndex.keys.card + 1 := by
  rw [ranked, (exchangeSort_perm _ _).length_eq, List.length_cons, length_values]

theorem ranked_half (s : State) :
    s.ranked[(s.matchIndex.keys.card + 1) / 2]? = some s.quorumIndex := by
  have hlt : (s.matchIndex.keys.card + 1) / 2 < s.ranked.length := by
    rw [length_ranked]
    omega
  rw [List.getElem?_eq_getElem hlt, quorumIndex]
  simp only [List.length_cons, length_values, ranked] at hlt ⊢
  rw [List.getElem?_eq_getElem hlt, Option.getD_some]

/-- The list counts every node once. -/
theorem card_replicated (hid : id ∉ s.matchIndex) (N : Nat) :
    (s.replicated id N).card = s.ranked.countP (N ≤ ·) := by
  have hdisj : Disjoint (if N ≤ Log.lastIndex s.log then ({id} : Finset Str) else ∅)
      (s.matchIndex.keys.filter fun q => N ≤ (s.matchIndex.find q).getD 0) := by
    split
    · rw [Finset.disjoint_singleton_left, Finset.mem_filter]
      exact fun hmem => hid (Finmap.mem_keys.mp hmem.1)
    · exact Finset.disjoint_empty_left _
  rw [replicated, Finset.card_union_of_disjoint hdisj, ranked, (exchangeSort_perm _ _).countP_eq,
    List.countP_cons, countP_values, Nat.add_comm]
  by_cases hown : N ≤ Log.lastIndex s.log
  · simp [hown]
  · simp [hown]

/-- As many nodes as there are positions from `i` on reach `N` exactly if the `i`-th does. -/
theorem le_card_replicated_iff (hid : id ∉ s.matchIndex) {i w : Nat} (hw : s.ranked[i]? = some w)
    (N : Nat) : s.matchIndex.keys.card + 1 - i ≤ (s.replicated id N).card ↔ N ≤ w := by
  rw [card_replicated hid, ← length_ranked]
  exact le_countP_iff_of_sorted s.ranked_sorted hw N

/-- **At least `n - n / 2` of the `n` nodes reach the index that is picked.** -/
theorem quorumIndex_reached (s : State) {id : Str} (hid : id ∉ s.matchIndex) :
    (s.matchIndex.keys.card + 1) - (s.matchIndex.keys.card + 1) / 2 ≤
      (s.replicated id s.quorumIndex).card :=
  (le_card_replicated_iff hid s.ranked_half s.quorumIndex).mpr le_rfl

/-- The index that `updateCommitIndex` picks is one of those it has collected. -/
theorem quorumIndex_le (s : State) {b : Nat} (hlog : Log.lastIndex s.log ≤ b)
    (hmatch : ∀ q m, s.matchIndex.find q = some m → m ≤ b) : s.quorumIndex ≤ b := by
  unfold quorumIndex
  dsimp only
  generalize hl : Log.lastIndex s.log :: values s.matchIndex = l
  have hall : ∀ v ∈ l, v ≤ b := by
    subst hl
    intro v hv
    rcases List.mem_cons.mp hv with rfl | hv
    · exact hlog
    · obtain ⟨q, -, rfl⟩ := List.mem_map.mp hv
      cases hq : s.matchIndex.find q with
      | none => exact Nat.zero_le b
      | some m => exact hmatch q m hq
  cases hget : (exchangeSort l.length l)[l.length / 2]? with
  | none => exact Nat.zero_le b
  | some v => exact hall v ((exchangeSort_perm _ _).mem_iff.mp (List.mem_of_getElem? hget))

end SkyLock.Raft.State

namespace SkyLock.Raft

/-! ## 3. Majorities -/

variable {s : State} {id : Str} {peers : List Str}

/-- A cluster of different nodes, and `matchIndex` as `BecomeLeader` sets it up: one value for each
peer. -/
structure OnePerPeer (s : State) (id : Str) (peers : List Str) : Prop where
  distinct : (id :: peers).Nodup
  keys : s.matchIndex.keys = peers.toFinset

namespace OnePerPeer

theorem not_mem (h : OnePerPeer s id peers) : id ∉ s.matchIndex := by
  rw [← Finmap.mem_keys, h.keys, List.mem_toFinset]
  exact (List.nodup_cons.mp h.distinct).1

theorem card_keys (h : OnePerPeer s id peers) : s.matchIndex.keys.card = peers.length := by
  rw [h.keys]
  exact List.toFinset_card_of_nodup (List.nodup_cons.mp h.distinct).2

theorem card_nodes (h : OnePerPeer s id peers) :
    (id :: peers).toFinset.card = peers.length + 1 := by
  rw [List.toFinset_card_of_nodup h.distinct, List.length_cons]

theorem replicated_subset (h : OnePerPeer s id peers) (N : Nat) :
    s.replicated id N ⊆ (id :: peers).toFinset := by
  intro q hq
  rw [List.toFinset_cons, ← h.keys]
  rcases Finset.mem_union.mp hq with hq | hq
  · split at hq
    · exact Finset.mem_insert.mpr (.inl (Finset.mem_singleton.mp hq))
    · exact absurd hq (Finset.notMem_empty q)
  · exact Finset.mem_insert_of_mem (Finset.mem_filter.mp hq).1

end OnePerPeer

theorem commitIndex_of_raise (hraise : s.commitIndex < s.updateCommitIndex.commitIndex) :
    s.updateCommitIndex.commitIndex = s.quorumIndex := by
  unfold State.updateCommitIndex at hraise ⊢
  split
  · rfl
  · rename_i hkeep
    rw [if_neg hkeep] at hraise
    exact absurd hraise (lt_irrefl _)

/-- **When a commit has a strict majority behind it.**  Whenever `updateCommitIndex` raises the
commit index, more than half of the nodes are known to have the log up to there if and only if the
number of nodes is odd or the two middle ones of the ranked indices are the same.  With an even
number of nodes the code picks the UPPER of the two. -/
theorem commit_majority_iff (h : OnePerPeer s id peers)
    (hraise : s.commitIndex < s.updateCommitIndex.commitIndex) :
    peers.length + 1 < 2 * (s.replicated id s.updateCommitIndex.commitIndex).card ↔
      Even peers.length ∨
        s.ranked[(peers.length + 1) / 2 - 1]? = s.ranked[(peers.length + 1) / 2]? := by
  rw [commitIndex_of_raise hraise]
  have hreached := s.quorumIndex_reached h.not_mem
  have hhalf := s.ranked_half
  have hlen := s.length_ranked
  rw [h.card_keys] at hreached hhalf hlen
  rw [hhalf]
  rcases Nat.even_or_odd' peers.length with ⟨m, hm | hm⟩
  · exact iff_of_true (by omega) (.inl ⟨m, by omega⟩)
  · -- an even number of nodes: the element below the middle decides
    have hodd : ¬ Even peers.length := Nat.not_even_iff_odd.mpr ⟨m, hm⟩
    have hi : m < s.ranked.length := by omega
    have hget : s.ranked[(peers.length + 1) / 2 - 1]? = some s.ranked[m] := by
      rw [← List.getElem?_eq_getElem hi]
      congr 1
      omega
    have hiff := State.le_card_replicated_iff h.not_mem (List.getElem?_eq_getElem hi) s.quorumIndex
    rw [h.card_keys] at hiff
    have hle : s.ranked[m] ≤ s.quorumIndex := by
      obtain ⟨hj, hj'⟩ := List.getElem?_eq_some_iff.mp hhalf
      rw [← hj']
      exact s.ranked_sorted.rel_get_of_le (a := ⟨m, hi⟩) (b := ⟨_, hj⟩)
        (show m ≤ (peers.length + 1) / 2 by omega)
    rw [hget, Option.some.injEq]
    constructor
    · intro hmore
      exact .inr (Nat.le_antisymm hle (hiff.mp (by omega)))
    · rintro (heven | heq)
      · exact absurd heven hodd
      · have := hiff.mpr heq.ge
        omega

/-- A leader of term 1 with one entry, and what it knows of the others. -/
def leaderKnowing (matchIndex : GoMap Str Nat) : State :=
  { newState with
    currentTerm := 1
    state := .leader
    log := [⟨1, 1, .command, "x".toList⟩]
    matchIndex }

/-- In a cluster of three, one peer that has the entry makes a majority. -/
def leaderOfThree : State :=
  leaderKnowing ((Finmap.singleton "n2".toList 1).insert "n3".toList 0)

theorem commit_majority_three :
    leaderOfThree.commitIndex = 0 ∧ leaderOfThree.updateCommitIndex.commitIndex = 1 ∧
      3 < 2 * (leaderOfThree.replicated "n1".toList 1).card := by
  have hpeers : OnePerPeer leaderOfThree "n1".toList ["n2".toList, "n3".toList] :=
    ⟨by decide, by decide +kernel⟩
  have hcommit : leaderOfThree.updateCommitIndex.commitIndex = 1 := by decide +kernel
  have hraise : leaderOfThree.commitIndex < leaderOfThree.updateCommitIndex.commitIndex := by
    rw [hcommit]
    exact Nat.zero_lt_one
  have hmore := (commit_majority_iff hpeers hraise).mpr (.inl (by decide))
  rw [hcommit] at hmore
  exact ⟨rfl, hcommit, hmore⟩

/-- In a cluster of four it makes one half. -/
def leaderOfFour : State :=
  leaderKnowing (((Finmap.singleton "n2".toList 1).insert "n3".toList 0).insert "n4".toList 0)

theorem onePerPeer_leaderOfFour :
    OnePerPeer leaderOfFour "n1".toList ["n2".toList, "n3".toList, "n4".toList] :=
  ⟨by decide, by decide +kernel⟩

/-- **A commit without a majority.**  Of four nodes the leader and one peer have the entry; the
ranked indices are 0, 0, 1, 1, and element 2 is committed. -/
theorem commit_by_half :
    OnePerPeer leaderOfFour "n1".toList ["n2".toList, "n3".toList, "n4".toList] ∧
      leaderOfFour.commitIndex = 0 ∧ leaderOfFour.updateCommitIndex.commitIndex = 1 ∧
      leaderOfFour.replicated "n1".toList 1 = {"n1".toList, "n2".toList} ∧
      ¬ 4 < 2 * (leaderOfFour.replicated "n1".toList 1).card :=
  ⟨onePerPeer_leaderOfFour, rfl, by decide +kernel, by decide +kernel, by decide +kernel⟩

/-! ## 4. Quorums -/

/-- **Quorums meet.**  The nodes that reach the index `updateCommitIndex` picks have a member in
common with every set of nodes that could elect a leader, and so have any two such sets. -/
theorem quorums_intersect (h : OnePerPeer s id peers) :
    (∀ Q ⊆ (id :: peers).toFinset, Node.votesNeeded peers ≤ Q.card →
        (s.replicated id s.quorumIndex ∩ Q).Nonempty) ∧
      ∀ Q ⊆ (id :: peers).toFinset, ∀ Q' ⊆ (id :: peers).toFinset,
        Node.votesNeeded peers ≤ Q.card → Node.votesNeeded peers ≤ Q'.card →
          (Q ∩ Q').Nonempty := by
  have hnodes := h.card_nodes
  unfold Node.votesNeeded
  constructor
  · intro Q hQ hcard
    have hreached := s.quorumIndex_reached h.not_mem
    rw [h.card_keys] at hreached
    exact Finset.inter_nonempty_of_card_lt_card_add_card (h.replicated_subset _) hQ (by omega)
  · intro Q hQ Q' hQ' hcard hcard'
    exact Finset.inter_nonempty_of_card_lt_card_add_card hQ hQ' (by omega)

/-- In the cluster of four the leader and `n2` reach the index that is picked, and every three nodes
that could elect a leader have one of them. -/
theorem quorums_intersect_four :
    leaderOfFour.replicated "n1".toList leaderOfFour.quorumIndex = {"n1".toList, "n2".toList} ∧
      (leaderOfFour.replicated "n1".toList leaderOfFour.quorumIndex ∩
        {"n2".toList, "n3".toList, "n4".toList}).Nonempty :=
  ⟨by decide +kernel,
    (quorums_intersect onePerPeer_leaderOfFour).1 _ (by decide +kernel) (by decide +kernel)⟩

end SkyLock.Raft
