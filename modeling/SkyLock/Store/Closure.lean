/-
# Store tree closure

What `Tree` gives in the vocabulary of the source: every key of a reachable store is its own
normal form and its node's path, its `parentPath` is present and not ephemeral, so no ephemeral
node has a descendant, `Delete` never meets a missing parent, and a path that `Create` returned
keeps resolving to the node it made for as long as no call deletes that node.
-/
import SkyLock.Store.Ops

namespace SkyLock.Store

open Slash

variable {s s' t : Store} {k q d : Str} {es : List Str}

/-! ## 1. Descendants -/

/-- `d` lies strictly below `k` (for `k` other than the root): it continues `k` after a slash. -/
def Descendant (k d : Str) : Prop := k ++ ['/'] <+: d

/-- A path that continues a rendered one after a slash has more elements. -/
theorem elems_of_descendant {fs : List Str} (hes : Elems es) (hne : es ≠ []) (hfs : Elems fs)
    (h : Descendant (render es) (render fs)) : ∃ gs, gs ≠ [] ∧ fs = es ++ gs := by
  obtain ⟨u, hu⟩ := h
  have hfs0 : fs ≠ [] := by
    rintro rfl
    have hlen := congrArg List.length hu
    simp only [render, List.length_append, List.length_cons, List.length_nil,
      List.intercalate, List.intersperse, List.flatten_nil] at hlen
    omega
  have hsplit : ([] :: es) ++ u.splitOn '/' = [] :: fs := by
    rw [← splitOn_render hne hes, ← splitOn_render hfs0 hfs, ← hu, List.append_assoc]
    exact (List.splitOnP_append_cons (render es) u (by simp)).symm
  exact ⟨u.splitOn '/', List.splitOnP_ne_nil _ u, (List.cons.inj hsplit).2.symm⟩

/-- Every proper ancestor of a node is present and not ephemeral. -/
theorem Tree.ancestor (h : Tree s) : ∀ (gs : List Str) {n : Node}, gs ≠ [] → Elems (es ++ gs) →
    s.nodes.find (render (es ++ gs)) = some n →
      ∃ p, s.nodes.find (render es) = some p ∧ p.ephemeral = false := by
  intro gs
  induction gs using List.reverseRecOn with
  | nil => intro n hne; exact absurd rfl hne
  | append_singleton gs g ih =>
    intro n _ hel hn
    rw [← List.append_assoc] at hel hn
    obtain ⟨hel', hg⟩ := hel.of_concat
    obtain ⟨p, hp, hpe⟩ := h.parent hel' hg hn
    rcases eq_or_ne gs [] with rfl | hgs
    · rw [List.append_nil] at hp
      exact ⟨p, hp, hpe⟩
    · exact ih hgs hel' hp

/-- **An ephemeral node has no descendant.** -/
theorem Tree.no_descendant (h : Tree s) {n : Node} (hn : s.nodes.find k = some n)
    (heph : n.ephemeral = true) (hd : d ∈ s.nodes) : ¬ Descendant k d := by
  intro hdesc
  obtain ⟨m, hm⟩ := GoMap.mem_iff_find.mp hd
  obtain ⟨-, es, hes, rfl⟩ := h.keys hn
  obtain ⟨-, fs, hfs, rfl⟩ := h.keys hm
  rcases eq_or_ne es [] with rfl | hne
  · obtain ⟨r, hr, hre⟩ := h.root
    have hr' : s.nodes.find (render []) = some r := hr
    rw [hn] at hr'
    cases hr'
    rw [heph] at hre
    cases hre
  · obtain ⟨gs, hgs, rfl⟩ := elems_of_descendant hes hne hfs hdesc
    obtain ⟨p, hp, hpe⟩ := h.ancestor gs hgs hfs hm
    rw [hn] at hp
    cases hp
    rw [heph] at hpe
    cases hpe

/-! ## 2. A node lives until it is deleted -/

/-- The call deletes the node at `q`: a successful `Delete` of that path, or the clean-up of the
session that owns it. -/
def Deletes (s : Store) (q : Str) : StoreOp → Prop
  | .create _ _ _ _ _ => False
  | .set _ _ _ => False
  | .delete p v => normalizePath p = q ∧ ∃ s', s.delete p v = .ok s'
  | .deleteEphemerals sid _ => ∃ n, s.nodes.find q = some n ∧ n.ephemeral = true ∧ n.sessionID = sid

/-- One call that does not delete the node at `q` leaves it there. -/
theorem Tree.step_same (h : Tree s) {op : StoreOp} {n : Node} (hn : s.nodes.find q = some n)
    (hop : ¬ Deletes s q op) (hs : Store.step s op = some s') :
    ∃ n', s'.nodes.find q = some n' ∧ n.Same n' := by
  cases op with
  | create p d eph sid sq =>
    cases hs
    rcases create_cases h p d eph sid sq with ⟨_, -, hnodes⟩ | ⟨_, _, _, _, -, hl, -⟩
    · exact ⟨n, by rw [hnodes]; exact hn, .refl n⟩
    · obtain ⟨cs, hn', -⟩ := hl.old hn
      exact ⟨_, hn', rfl⟩
  | set p d v =>
    cases hs
    rcases set_cases s p d v with ⟨_, -, heq⟩ | ⟨_, -, -, -, hr⟩
    · exact ⟨n, by rw [heq]; exact hn, .refl n⟩
    · obtain ⟨d', v', hn'⟩ := hr.old hn
      exact ⟨_, hn', rfl⟩
  | delete p v =>
    simp only [Store.step] at hs
    rcases delete_cases h p v with ⟨_, he⟩ | ⟨ds, e, m, par, hp, -, -, hok, hu⟩
    · rw [he] at hs
      cases hs
      exact ⟨n, hn, .refl n⟩
    · rw [hok] at hs
      cases hs
      have hne : q ≠ render (ds ++ [e]) := fun hq => hop ⟨hp.trans hq.symm, _, hok⟩
      obtain ⟨cs, hn', -⟩ := hu.old hne hn
      exact ⟨_, hn', rfl⟩
  | deleteEphemerals sid order =>
    simp only [Store.step] at hs
    split at hs
    · rename_i hl
      cases hs
      have hq : q ∉ order := fun hq => hop (hl.mem_iff.mp hq)
      refine (foldl_unlink (P := fun t => ∃ n', t.nodes.find q = some n' ∧ n.Same n') order s h
        ⟨n, hn, .refl n⟩ hl.1 hl.ephemeral ?_).2
      rintro t t' ds e m par - ⟨n', hn', hsame⟩ - - hmem hu
      have hne : q ≠ render (ds ++ [e]) := by
        rintro rfl
        exact hq hmem
      obtain ⟨cs, hn'', -⟩ := hu.old hne hn'
      exact ⟨_, hn'', hsame.trans rfl⟩
    · cases hs

theorem find_unlink_none {p q : Str} (h : s.nodes.find q = none) :
    (s.unlink p).nodes.find q = none := by
  simp only [unlink, GoMap.find_erase]
  split
  · rfl
  · unfold dropChild
    split
    · exact h
    · split
      · exact h
      · rename_i par hpar
        rw [GoMap.find_insert]
        split
        · rename_i hq
          rw [hq, hpar] at h
          exact absurd h (by simp)
        · exact h

theorem find_foldl_unlink {q : Str} : ∀ (order : List Str) (s : Store),
    q ∈ order ∨ s.nodes.find q = none → (order.foldl unlink s).nodes.find q = none
  | [], s, h => by
    rcases h with h | h
    · exact absurd h List.not_mem_nil
    · exact h
  | p :: order, s, h => by
    refine find_foldl_unlink order (s.unlink p) ?_
    by_cases hq : q = p
    · exact Or.inr (by simp only [unlink, GoMap.find_erase, if_pos hq])
    · rcases h with h | h
      · exact Or.inl ((List.mem_cons.mp h).resolve_left hq)
      · exact Or.inr (find_unlink_none h)

/-- What an operation deletes is gone. -/
theorem gone_of_deletes {op : StoreOp} (hs : Store.step s op = some s') {q : Str}
    (hd : Deletes s q op) : s'.nodes.find q = none := by
  cases op with
  | create p d eph sid sq => exact hd.elim
  | set p d v => exact hd.elim
  | delete p v =>
    obtain ⟨rfl, s₁, hok⟩ := hd
    simp only [Store.step, hok, Option.some.injEq] at hs
    rw [← hs, delete_eq_unlink hok]
    simp only [unlink, GoMap.find_erase, if_true]
  | deleteEphemerals sid order =>
    simp only [Store.step, Option.ite_none_right_eq_some, Option.some.injEq] at hs
    obtain ⟨hl, rfl⟩ := hs
    exact find_foldl_unlink order s (Or.inl (hl.mem_iff.mpr hd))

/-- **From a successful `Create` on, `Get` of the returned path finds the node that was made**, in
every state of every run in which no call deletes it. -/
theorem Tree.get_created (h : Tree s) {p data : Str} {eph : Bool} {sid : Str} {sq : Bool}
    (hc : s.create p data eph sid sq = (s', .ok q))
    (hrun : Lts.Run Store.step (fun u op => ¬ Deletes u q op) s' t) :
    ∃ n, t.get q = .ok n ∧ (freshNode (s.bump sq) q data eph sid sq).Same n := by
  rcases create_cases h p data eph sid sq with ⟨_, he, -⟩ | ⟨ds, e, par, par', hq, hl, -⟩
  · rw [hc] at he
    cases he
  · rw [hc] at hq hl
    cases hq
    have hnorm : normalizePath (render (ds ++ [e])) = render (ds ++ [e]) :=
      normalizePath_render (hl.elems.concat hl.elem)
    obtain ⟨-, n, hn, hsame⟩ := hrun.invariant
      (P := fun u => Tree u ∧ ∃ n, u.nodes.find (render (ds ++ [e])) = some n ∧
        (freshNode (s.bump sq) (render (ds ++ [e])) data eph sid sq).Same n)
      ⟨h.link hl, _, hl.lookup_leaf, .refl _⟩
      (by
        rintro u op u' ⟨hu, n, hn, hsame⟩ hop hstep
        obtain ⟨n', hn', hsame'⟩ := hu.step_same hn hop hstep
        exact ⟨hu.step hstep, n', hn', hsame.trans hsame'⟩)
    exact ⟨n, by rw [get, hnorm, hn], hsame⟩

/-! ## 3. Closure, in the source's terms -/

theorem Tree.normalized (h : Tree s) {n : Node} (hn : s.nodes.find k = some n) :
    normalizePath k = k ∧ n.path = k := by
  obtain ⟨hpath, es, hes, rfl⟩ := h.keys hn
  exact ⟨normalizePath_render hes, hpath⟩

theorem Tree.parent_present (h : Tree s) {n : Node} (hn : s.nodes.find k = some n)
    (hk : k ≠ Store.root) : ∃ p, s.nodes.find (parentPath k) = some p ∧ p.ephemeral = false := by
  obtain ⟨-, es, hes, rfl⟩ := h.keys hn
  rcases List.eq_nil_or_concat' es with rfl | ⟨ds, e, rfl⟩
  · exact absurd rfl hk
  · obtain ⟨hds, he⟩ := hes.of_concat
    rw [parentPath_concat hds he]
    exact h.parent hds he hn

theorem Tree.delete_ne_nilDereference (h : Tree s) (p : Str) (v : Int) :
    s.delete p v ≠ .error .nilDereference := by
  intro hnil
  rcases delete_cases h p v with ⟨_, he⟩ | ⟨_, _, _, _, -, -, -, hok, -⟩
  · rw [he] at hnil
    cases hnil
  · rw [hok] at hnil
    cases hnil

/-- **Store tree closure.** -/
theorem store_tree_closure (hr : Lts.Reach step newStore s) :
    Store.root ∈ s.nodes ∧
      (∀ k n, s.nodes.find k = some n → normalizePath k = k ∧ n.path = k) ∧
      (∀ k n, s.nodes.find k = some n → k ≠ Store.root →
        ∃ p, s.nodes.find (parentPath k) = some p ∧ p.ephemeral = false) ∧
      (∀ k n d, s.nodes.find k = some n → n.ephemeral = true → d ∈ s.nodes → ¬ Descendant k d) ∧
      (∀ p v, s.delete p v ≠ .error .nilDereference) ∧
      (∀ p data eph sid sq s' q t, s.create p data eph sid sq = (s', .ok q) →
        Lts.Run step (fun u op => ¬ Deletes u q op) s' t →
          ∃ n, t.get q = .ok n ∧ (freshNode (s.bump sq) q data eph sid sq).Same n) := by
  have h := tree_of_reach hr
  obtain ⟨r, hroot, -⟩ := h.root
  refine ⟨GoMap.mem_of_find hroot, fun k n hn => h.normalized hn,
    fun k n hn hk => h.parent_present hn hk, fun k n d hn he hd => h.no_descendant hn he hd,
    fun p v => h.delete_ne_nilDereference p v, ?_⟩
  intro p data eph sid sq s' q t hc hrun
  exact h.get_created hc hrun

/-- A store with an ephemeral sequential node below a plain one, reached by three calls. -/
theorem store_tree_closure_run :
    ∃ s, Lts.Reach step newStore s ∧ s.nodes.find "/a/n0000000001".toList ≠ none ∧
      Store.root ∈ s.nodes ∧ ∀ p v, s.delete p v ≠ .error .nilDereference := by
  have hrun : ∃ s, Lts.exec step newStore
      [.create "a".toList [] false [] false,
        .create "/a/n".toList "x".toList true "s1".toList true,
        .set "/a/".toList "y".toList 1] = some s ∧
      s.nodes.find "/a/n0000000001".toList ≠ none := by
    refine ⟨_, rfl, ?_⟩
    decide +kernel
  obtain ⟨s, hs, hne⟩ := hrun
  have hr := Lts.Run.of_exec hs
  have h := store_tree_closure hr
  exact ⟨s, hr, hne, h.1, h.2.2.2.2.1⟩

end SkyLock.Store
