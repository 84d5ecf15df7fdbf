/-
# Two laws of the store

The first is an inverse law: `Delete` takes back what `Create` has done.

The second computes `DeleteEphemerals`.  Its loop edits one parent's list and removes one key at a
time, in an order that the map iteration and an unstable sort leave open.  All of it together is a
FILTER: the listed paths go, and a surviving node loses the base names of its listed children
(`survivor`).  A filter sees only which paths are listed, not in what order, so the result is the
same for every order, and the removals for two sessions can be exchanged.

What the loop needs of the store is that no name is twice in a list, since it takes out one
occurrence only.
-/
import SkyLock.Store.Ops

namespace SkyLock.Store

open Slash

variable {s : Store} {k p : Str} {n : Node} {order order' : List Str}

/-! ## 1. `Delete` undoes `Create` -/

/-- **`Delete` undoes `Create`.** -/
theorem delete_undoes_create (hs : Lts.Reach step newStore s) {p d : Str} {eph : Bool} {sid : Str}
    {sq : Bool} {q : Str} (hok : (s.create p d eph sid sq).2 = .ok q) :
    ∃ t, (s.create p d eph sid sq).1.delete q (-1) = .ok t ∧ t.nodes = s.nodes :=
  ⟨_, delete_created (tree_of_reach hs) hok, bump_nodes s sq⟩

theorem delete_undoes_create_sequential :
    (newStore.create "/a-".toList "x".toList true "s1".toList true).2 =
        .ok "/a-0000000001".toList ∧
      ∃ t, (newStore.create "/a-".toList "x".toList true "s1".toList true).1.delete
          "/a-0000000001".toList (-1) = .ok t ∧ t.nodes = newStore.nodes := by
  have hok : (newStore.create "/a-".toList "x".toList true "s1".toList true).2 =
      .ok "/a-0000000001".toList := rfl
  exact ⟨hok, delete_undoes_create (.refl newStore) hok⟩

/-! ## 2. The removal loop is a filter -/

/-- What is left of a node when the listed paths are gone: its children without theirs. -/
def survivor (order : List Str) (k : Str) (n : Node) : Node :=
  { n with children := n.children.filter fun c =>
      ¬ ∃ p ∈ order, parentPath p = k ∧ baseName p = c }

/-- What the loop needs of a store. -/
structure Listable (s : Store) : Prop where
  rooted : s.nodes.find [] = none
  nodup : ∀ {k n}, s.nodes.find k = some n → n.children.Nodup

theorem Tree.listable (h : Tree s) : Listable s := by
  refine ⟨?_, h.nodup⟩
  cases hn : s.nodes.find [] with
  | none => rfl
  | some n =>
    obtain ⟨-, es, -, hes⟩ := h.keys hn
    exact absurd hes.symm (render_ne_nil es)

theorem survivor_nil (k : Str) (n : Node) : survivor [] k n = n := by
  simp [survivor]

theorem survivor_cons (p : Str) (order : List Str) (k : Str) (n : Node) :
    survivor order k (survivor [p] k n) = survivor (p :: order) k n := by
  simp only [survivor, List.filter_filter]
  congr 1
  refine List.filter_congr fun c _ => ?_
  simp [and_comm, not_or]

/-- A node that is not the parent stays as it is. -/
theorem map_survivor_of_ne {p k : Str} {n? : Option Node}
    (hk : ∀ n, n? = some n → parentPath p ≠ k) : n?.map (survivor [p] k) = n? := by
  cases n? with
  | none => rfl
  | some n => simp [survivor, hk n rfl]

/-- The base name of a path leaves the list of the parent. -/
theorem Listable.find_dropChild (h : Listable s) (p k : Str) :
    (dropChild s.nodes (parentPath p) (baseName p)).find k =
      (s.nodes.find k).map (survivor [p] k) := by
  unfold dropChild
  split
  · rename_i hroot
    refine (map_survivor_of_ne ?_).symm
    rintro n hn rfl
    rw [hroot, h.rooted] at hn
    cases hn
  · cases hpar : s.nodes.find (parentPath p) with
    | none =>
      refine (map_survivor_of_ne ?_).symm
      rintro n hn rfl
      cases hpar.symm.trans hn
    | some par =>
      dsimp only
      rw [GoMap.find_insert]
      split
      · rename_i hk
        subst hk
        rw [hpar, Option.map_some, (h.nodup hpar).erase_eq_filter]
        congr 2
        refine List.filter_congr fun c _ => ?_
        simp [bne, beq_eq_decide, eq_comm]
      · rename_i hk
        exact (map_survivor_of_ne fun _ _ => Ne.symm hk).symm

/-- One round of the loop: the path goes, and its base name leaves the parent's list. -/
theorem Listable.find_unlink (h : Listable s) (p k : Str) :
    (s.unlink p).nodes.find k =
      if k = p then none else (s.nodes.find k).map (survivor [p] k) := by
  rw [unlink, GoMap.find_erase, h.find_dropChild]

theorem Listable.unlink (h : Listable s) (p : Str) : Listable (s.unlink p) := by
  constructor
  · rw [h.find_unlink, h.rooted]
    split <;> rfl
  · intro k n hn
    rw [h.find_unlink] at hn
    split at hn
    · exact absurd hn nofun
    · obtain ⟨m, hm, rfl⟩ := Option.map_eq_some_iff.mp hn
      exact (h.nodup hm).filter _

/-- **The loop is a filter.** -/
theorem find_deleteEphemerals (order : List Str) (h : Listable s) (k : Str) :
    (s.deleteEphemerals order).nodes.find k =
      if k ∈ order then none else (s.nodes.find k).map (survivor order k) := by
  induction order generalizing s with
  | nil =>
    have hid : survivor [] k = id := funext (survivor_nil k)
    rw [if_neg List.not_mem_nil, hid, Option.map_id]
    rfl
  | cons p order ih =>
    have hrest : (s.deleteEphemerals (p :: order)) = (s.unlink p).deleteEphemerals order := rfl
    rw [hrest, ih (h.unlink p), h.find_unlink]
    by_cases hp : k = p
    · simp [hp]
    · have hcomp : survivor order k ∘ survivor [p] k = survivor (p :: order) k :=
        funext (survivor_cons p order k)
      simp only [hp, if_false, Option.map_map, hcomp, List.mem_cons, false_or]

/-- **Only which paths are listed matters**, not the order. -/
theorem deleteEphemerals_congr (h : Listable s) (hmem : ∀ k, k ∈ order ↔ k ∈ order') :
    s.deleteEphemerals order = s.deleteEphemerals order' := by
  have hsurvivor : survivor order = survivor order' := by
    funext k n
    simp only [survivor, hmem]
  have hnodes : (s.deleteEphemerals order).nodes = (s.deleteEphemerals order').nodes := by
    refine Finmap.ext_lookup fun k => ?_
    change GoMap.find _ k = GoMap.find _ k
    rw [find_deleteEphemerals order h, find_deleteEphemerals order' h, hsurvivor]
    simp only [hmem]
  have hseq : (s.deleteEphemerals order).seqCounter = (s.deleteEphemerals order').seqCounter := by
    rw [deleteEphemerals, deleteEphemerals, foldl_unlink_seqCounter, foldl_unlink_seqCounter]
  exact congrArg₂ Store.mk hnodes hseq

theorem deleteEphemerals_append (s : Store) (order order' : List Str) :
    s.deleteEphemerals (order ++ order') =
      (s.deleteEphemerals order).deleteEphemerals order' := List.foldl_append

/-! ## 3. `DeleteEphemerals` -/

/-- `DeleteEphemerals` with what it returns: the paths, in the order in which it listed them. -/
def deleteEphemeralsResult (s : Store) (deleted : List Str) : Store × List Str :=
  (s.deleteEphemerals deleted, deleted)

theorem exists_isListing (s : Store) (sid : Str) : ∃ order, IsListing s sid order := by
  have htotal : Std.Total fun a b : Str => byteLen b ≤ byteLen a := ⟨fun a b => le_total _ _⟩
  have htrans : IsTrans Str fun a b => byteLen b ≤ byteLen a := ⟨fun _ _ _ h h' => h'.trans h⟩
  have hperm := List.perm_insertionSort (fun a b : Str => byteLen b ≤ byteLen a)
    (s.nodes.keysWhere (ownedBy sid)).toList
  refine ⟨_, hperm.nodup_iff.mpr (Finset.nodup_toList _), ?_, List.pairwise_insertionSort _ _⟩
  rw [List.toFinset_eq_of_perm _ _ hperm, Finset.toList_toFinset]

theorem IsListing.perm {sid : Str} (hl : IsListing s sid order) :
    order.Perm (s.nodes.keysWhere (ownedBy sid)).toList := by
  refine (List.perm_ext_iff_of_nodup hl.1 (Finset.nodup_toList _)).mpr fun k => ?_
  rw [Finset.mem_toList, ← hl.2.1, List.mem_toFinset]

/-- The nodes of another session are listed after the removals as before them. -/
theorem IsListing.mem_iff_of_ne {sid sid' : Str} (h : Listable s) (hne : sid ≠ sid')
    (hl : IsListing s sid order) (hl' : IsListing (s.deleteEphemerals order) sid' order') :
    k ∈ order' ↔ ∃ n, s.nodes.find k = some n ∧ n.ephemeral = true ∧ n.sessionID = sid' := by
  rw [hl'.mem_iff, find_deleteEphemerals order h]
  constructor
  · rintro ⟨n, hn, heph, hsid⟩
    split at hn
    · exact absurd hn nofun
    · obtain ⟨m, hm, rfl⟩ := Option.map_eq_some_iff.mp hn
      exact ⟨m, hm, heph, hsid⟩
  · rintro ⟨n, hn, heph, hsid⟩
    have hk : k ∉ order := by
      intro hk
      obtain ⟨m, hm, -, hsid'⟩ := hl.mem_iff.mp hk
      obtain rfl := Option.some.inj (hn.symm.trans hm)
      exact hne (hsid'.symm.trans hsid)
    rw [if_neg hk, hn]
    exact ⟨_, rfl, heph, hsid⟩

/-- **`DeleteEphemerals` is exact and does not depend on the order.**  In every reachable store, and
for every order in which it may list the nodes of the session: it returns their paths; it removes
them and nothing else; and a node that stays changes only in its children, which lose the base
names of those removed.  All orders give the same store, and two sessions can be removed in either
order. -/
theorem deleteEphemerals_exact (hs : Lts.Reach step newStore s) (sid : Str) :
    (∃ order, IsListing s sid order) ∧
    (∀ order, IsListing s sid order →
      (s.deleteEphemeralsResult order).2.Perm (s.nodes.keysWhere (ownedBy sid)).toList ∧
      ∀ k, (s.deleteEphemeralsResult order).1.nodes.find k =
        ((s.nodes.find k).filter fun n => !ownedBy sid n).map (survivor order k)) ∧
    (∀ order order', IsListing s sid order → IsListing s sid order' →
      s.deleteEphemerals order = s.deleteEphemerals order') ∧
    ∀ sid' a b a' b', sid ≠ sid' → IsListing s sid a → IsListing (s.deleteEphemerals a) sid' b →
      IsListing s sid' b' → IsListing (s.deleteEphemerals b') sid a' →
        (s.deleteEphemerals a).deleteEphemerals b =
          (s.deleteEphemerals b').deleteEphemerals a' := by
  have h := (tree_of_reach hs).listable
  refine ⟨exists_isListing s sid, fun order hl => ⟨hl.perm, fun k => ?_⟩, ?_, ?_⟩
  · refine (find_deleteEphemerals order h k).trans ?_
    cases hn : s.nodes.find k with
    | none => split <;> rfl
    | some n =>
      have hk : k ∈ order ↔ ownedBy sid n = true := by
        rw [hl.mem_iff, hn]
        simp [ownedBy]
      by_cases hown : ownedBy sid n = true
      · simp [hk, hown]
      · simp [hk, hown]
  · intro order order' hl hl'
    exact deleteEphemerals_congr h fun k => by rw [hl.mem_iff, hl'.mem_iff]
  · intro sid' a b a' b' hne ha hb hb' ha'
    rw [← deleteEphemerals_append, ← deleteEphemerals_append]
    refine deleteEphemerals_congr h fun k => ?_
    rw [List.mem_append, List.mem_append, ha.mem_iff, hb'.mem_iff, ha.mem_iff_of_ne h hne hb,
      hb'.mem_iff_of_ne h hne.symm ha', or_comm]

/-- Two nodes of one session, listed in either order. -/
theorem deleteEphemerals_exact_two :
    ∃ s, Lts.Reach step newStore s ∧ IsListing s "s1".toList ["/a".toList, "/b".toList] ∧
      IsListing s "s1".toList ["/b".toList, "/a".toList] ∧
      s.deleteEphemerals ["/a".toList, "/b".toList] =
        s.deleteEphemerals ["/b".toList, "/a".toList] := by
  obtain ⟨s, hs, hl, hl'⟩ : ∃ s, Lts.Reach step newStore s ∧
      IsListing s "s1".toList ["/a".toList, "/b".toList] ∧
      IsListing s "s1".toList ["/b".toList, "/a".toList] :=
    Lts.exists_reach [.create "/a".toList [] true "s1".toList false,
      .create "/b".toList [] true "s1".toList false,
      .create "/c".toList [] true "s2".toList false] (by decide +kernel)
  exact ⟨s, hs, hl, hl', (deleteEphemerals_exact hs "s1".toList).2.2.1 _ _ hl hl'⟩

end SkyLock.Store
