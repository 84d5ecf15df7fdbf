/-
# What each store operation does to the tree

One inversion lemma per operation, stated on element lists.  `create_below` and `create_root`
compute `Create` outright, for a path below some directory and for the root path; `create_cases`,
`set_cases`, `delete_cases` and `foldl_unlink` then say which move of `Tree.lean` a call makes.
Everything later about the store goes through these and does not unfold the operations again.
-/
import SkyLock.Store.Tree

namespace SkyLock.Store

open Slash

variable {s s' : Store} {ds es : List Str} {e : Str}

/-! ## 1. `Create` -/

/-- The name a node gets under its parent. -/
def leafName (s : Store) (e : Str) (sq : Bool) : Str :=
  if sq then e ++ formatSequence (s.bump sq).seqCounter else e

@[simp] theorem bump_false (s : Store) : s.bump false = s := rfl

theorem isElem_leafName (s : Store) (he : IsElem e) (sq : Bool) : IsElem (leafName s e sq) := by
  unfold leafName
  split
  · exact isElem_append_formatSequence he.2.1 _
  · exact he

theorem actualPath_concat (s : Store) (ds : List Str) (e : Str) (sq : Bool) :
    actualPath (s.bump sq) (render (ds ++ [e])) sq = render (ds ++ [leafName s e sq]) := by
  cases sq with
  | false => simp [actualPath, leafName]
  | true => simp [actualPath, leafName, render_concat_append]

/-- `Create` of a path below some directory, computed. -/
theorem create_below {p : Str} (hds : Elems ds) (he : IsElem e)
    (hp : normalizePath p = render (ds ++ [e])) (d : Str) (eph : Bool) (sid : Str) (sq : Bool) :
    s.create p d eph sid sq =
      match s.nodes.find (render ds) with
      | none => (s, .error .nodeNotFound)
      | some par =>
        if par.ephemeral then (s, .error .ephemeralParent)
        else
          let q := render (ds ++ [leafName s e sq])
          let node := freshNode (s.bump sq) q d eph sid sq
          if q ∈ s.nodes then (s.bump sq, .error .nodeExists)
          else
            ({ s.bump sq with
                nodes := (s.nodes.insert q node).insert (render ds)
                  { par with children := par.children ++ [leafName s e sq] } }, .ok q) := by
  have hpar : parentPath (render (ds ++ [e])) = render ds := parentPath_concat hds he
  have hle := isElem_leafName s he sq
  have hne : render ds ≠ render (ds ++ [leafName s e sq]) := (render_concat_ne hds hle).symm
  simp only [create, hp, hpar, checkParent, if_neg (render_ne_nil ds), actualPath_concat,
    bump_nodes, baseName_concat hle]
  cases hlk : s.nodes.find (render ds) with
  | none => rfl
  | some par =>
    by_cases hpe : par.ephemeral = true
    · simp [hpe]
    · simp only [if_neg hpe]
      split
      · rfl
      · simp only [addChild, if_neg (render_ne_nil ds), GoMap.find_insert, if_neg hne, hlk]

/-- `Create` of the root path, computed: without the sequential flag the root is already there;
with it the new node lands below the root and NO list is updated. -/
theorem create_root {p : Str} (h : Tree s) (hp : normalizePath p = root) (d : Str) (eph : Bool)
    (sid : Str) (sq : Bool) :
    s.create p d eph sid sq =
      if sq then
        let q := render [formatSequence (s.bump true).seqCounter]
        let node := freshNode (s.bump true) q d eph sid true
        if q ∈ s.nodes then (s.bump true, .error .nodeExists)
        else ({ s.bump true with nodes := s.nodes.insert q node }, .ok q)
      else (s, .error .nodeExists) := by
  have hq : root ++ formatSequence (s.bump true).seqCounter =
      render [formatSequence (s.bump true).seqCounter] := by
    rw [render_singleton]; rfl
  obtain ⟨r, hr, -⟩ := h.root
  have hmem : root ∈ s.nodes := GoMap.mem_of_find hr
  simp only [create, hp, parentPath_root, checkParent, if_true, addChild, bump_nodes]
  cases sq with
  | false => simp [actualPath, hmem]
  | true => simp [actualPath, hq]

/-- A sequential `Create` of a path that normalises to the root. -/
def RootSequential (p : Str) (sq : Bool) : Prop := normalizePath p = root ∧ sq = true

/-- **`Create` fails without touching the tree, or links one fresh leaf.**  The leaf is left out
of its parent's list exactly for a sequential `Create` of the root path. -/
theorem create_cases (h : Tree s) (p d : Str) (eph : Bool) (sid : Str) (sq : Bool) :
    (∃ err, (s.create p d eph sid sq).2 = .error err ∧
        (s.create p d eph sid sq).1.nodes = s.nodes) ∨
      ∃ ds e par par', (s.create p d eph sid sq).2 = .ok (render (ds ++ [e])) ∧
        Linked s (s.create p d eph sid sq).1 ds e
          (freshNode (s.bump sq) (render (ds ++ [e])) d eph sid sq) par par' ∧
        (RootSequential p sq ∧ ds = [] ∧ par' = par ∨
          ¬ RootSequential p sq ∧ par' = { par with children := par.children ++ [e] }) := by
  obtain ⟨es, hes, hp⟩ := normalizePath_elems p
  rcases List.eq_nil_or_concat' es with rfl | ⟨ds, e, rfl⟩
  · rw [create_root h hp]
    cases sq with
    | false => exact Or.inl ⟨_, rfl, rfl⟩
    | true =>
      simp only [if_true]
      split
      · exact Or.inl ⟨_, rfl, bump_nodes s true⟩
      · rename_i hq
        obtain ⟨r, hr, hre⟩ := h.root
        have hel : IsElem (formatSequence (s.bump true).seqCounter) :=
          isElem_append_formatSequence (e := []) List.not_mem_nil _
        refine Or.inr ⟨[], _, r, r, rfl,
          ⟨elems_nil, hel, ?_, ?_, hr, hre, rfl, rfl, Or.inr ⟨rfl, rfl⟩⟩,
          Or.inl ⟨⟨hp, rfl⟩, rfl, rfl⟩⟩
        · intro k
          simp only [GoMap.find_insert, List.nil_append]
          split
          · rename_i hk
            have hne : render [formatSequence (s.bump true).seqCounter] ≠ render [] :=
              render_concat_ne_root elems_nil hel
            rw [hk, if_neg hne]
          · split
            · rename_i hk
              exact hk ▸ hr
            · rfl
        · exact GoMap.find_eq_none.mpr hq
  · obtain ⟨hds, he⟩ := hes.of_concat
    have hle := isElem_leafName s he sq
    have hnr : ¬ RootSequential p sq := fun hr => render_concat_ne_root hds he (hp ▸ hr.1)
    rw [create_below hds he hp]
    cases hlk : s.nodes.find (render ds) with
    | none => exact Or.inl ⟨_, rfl, rfl⟩
    | some par =>
      simp only
      split
      · exact Or.inl ⟨_, rfl, rfl⟩
      · rename_i hpe
        split
        · exact Or.inl ⟨_, rfl, bump_nodes s sq⟩
        · rename_i hq
          refine Or.inr ⟨ds, leafName s e sq, par, _, rfl, ⟨hds, hle, ?_, ?_, hlk,
            Bool.eq_false_iff.mpr hpe, rfl, rfl, Or.inl rfl⟩, Or.inr ⟨hnr, rfl⟩⟩
          · intro k
            simp only [GoMap.find_insert]
          · exact GoMap.find_eq_none.mpr hq

/-- A node is created only where there was none. -/
theorem create_ok_fresh {p d : Str} {eph : Bool} {sid : Str} {sq : Bool} {q : Str}
    (hok : (s.create p d eph sid sq).2 = .ok q) : q ∉ s.nodes := by
  unfold create at hok
  dsimp only at hok
  split at hok
  · cases hok
  · split at hok
    · cases hok
    · rename_i hnew
      obtain rfl := Except.ok.inj hok
      rwa [bump_nodes] at hnew

/-- A created node gets the path that was asked for, with the counter if it is sequential. -/
theorem create_ok_path {p d : Str} {eph : Bool} {sid : Str} {sq : Bool} {q : Str}
    (hok : (s.create p d eph sid sq).2 = .ok q) :
    q = actualPath (s.bump sq) (normalizePath p) sq := by
  unfold create at hok
  dsimp only at hok
  split at hok
  · cases hok
  · split at hok
    · cases hok
    · exact (Except.ok.inj hok).symm

/-- The node that `Create` has stored. -/
theorem find_created (h : Tree s) {p d : Str} {eph : Bool} {sid : Str} {sq : Bool} {q : Str}
    (hok : (s.create p d eph sid sq).2 = .ok q) :
    (s.create p d eph sid sq).1.nodes.find q = some (freshNode (s.bump sq) q d eph sid sq) := by
  rcases create_cases h p d eph sid sq with ⟨err, herr, -⟩ | ⟨ds, e, par, par', hq, hl, -⟩
  · exact absurd (herr.symm.trans hok) nofun
  · obtain rfl := Except.ok.inj (hq.symm.trans hok)
    exact hl.lookup_leaf

/-- The directory of a created node, away from the root, is that of the requested path. -/
theorem create_ok_parent (h : Tree s) {p d : Str} {eph : Bool} {sid : Str} {sq : Bool}
    (hds : Elems ds) (hne : ds ≠ []) (he : IsElem e)
    (hok : (s.create p d eph sid sq).2 = .ok (render (ds ++ [e]))) :
    ∃ e₀, IsElem e₀ ∧ normalizePath p = render (ds ++ [e₀]) := by
  have hinj : ∀ {ds' e'}, Elems ds' → IsElem e' →
      render (ds' ++ [e']) = render (ds ++ [e]) → ds' = ds := by
    intro ds' e' hds' he' heq
    exact (List.append_inj' (render_injective (hds'.concat he') (hds.concat he) heq) rfl).1
  obtain ⟨es, hes, hp⟩ := normalizePath_elems p
  rcases List.eq_nil_or_concat' es with rfl | ⟨ds', e', rfl⟩
  · rw [create_root h hp] at hok
    split at hok
    · dsimp only at hok
      split at hok
      · cases hok
      · have hel : IsElem (formatSequence (s.bump true).seqCounter) :=
          isElem_append_formatSequence (e := []) List.not_mem_nil _
        exact absurd (hinj elems_nil hel (Except.ok.inj hok)).symm hne
    · cases hok
  · obtain ⟨hds', he'⟩ := hes.of_concat
    rw [create_below hds' he' hp] at hok
    split at hok
    · cases hok
    · dsimp only at hok
      split at hok
      · cases hok
      · split at hok
        · cases hok
        · obtain rfl := hinj hds' (isElem_leafName s he' sq) (Except.ok.inj hok)
          exact ⟨e', he', hp⟩

/-! ## 2. `Set` -/

theorem set_cases (s : Store) (p d : Str) (v : Int) :
    (∃ err, (s.set p d v).2 = .error err ∧ (s.set p d v).1 = s) ∨
      ∃ n, versionMatches v n = true ∧
        (s.set p d v).2 = .ok (n.updated d) ∧ (s.set p d v).1.seqCounter = s.seqCounter ∧
        Retouched s (s.set p d v).1 (normalizePath p) n (n.updated d) := by
  cases hlk : s.nodes.find (normalizePath p) with
  | none => exact Or.inl ⟨.nodeNotFound, by simp [set, hlk], by simp [set, hlk]⟩
  | some n =>
    by_cases hv : versionMatches v n = true
    · have hset : s.set p d v =
          ({ s with nodes := s.nodes.insert (normalizePath p) (n.updated d) },
            .ok (n.updated d)) := by
        simp [set, hlk, hv]
      rw [hset]
      exact Or.inr ⟨n, hv, rfl, rfl, fun k => GoMap.find_insert _ _ _ _, hlk, rfl⟩
    · exact Or.inl ⟨.versionMismatch, by simp [set, hlk, hv], by simp [set, hlk, hv]⟩

/-! ## 3. `Delete` -/

/-- Taking out a leaf is the unlinking move. -/
theorem unlinked_unlink (h : Tree s) (hds : Elems ds) (he : IsElem e) {n : Node}
    (hn : s.nodes.find (render (ds ++ [e])) = some n) (hleaf : n.children = []) :
    ∃ par, par.ephemeral = false ∧ Unlinked s (s.unlink (render (ds ++ [e]))) ds e n par := by
  obtain ⟨par, hpar, hpe⟩ := h.parent hds he hn
  refine ⟨par, hpe, hds, he, ?_, hn, hleaf, hpar⟩
  intro k
  simp only [unlink, parentPath_concat hds he, baseName_concat he, dropChild,
    if_neg (render_ne_nil ds), hpar, GoMap.find_erase, GoMap.find_insert]

/-- **`Delete` fails with an error, or unlinks one leaf**; it never dereferences a nil parent. -/
theorem delete_cases (h : Tree s) (p : Str) (v : Int) :
    (∃ err, s.delete p v = .error (.err err)) ∨
      ∃ ds e n par, normalizePath p = render (ds ++ [e]) ∧ versionMatches v n = true ∧
        par.ephemeral = false ∧ s.delete p v = .ok (s.unlink (render (ds ++ [e]))) ∧
        Unlinked s (s.unlink (render (ds ++ [e]))) ds e n par := by
  obtain ⟨es, hes, hp⟩ := normalizePath_elems p
  simp only [delete, hp]
  rcases List.eq_nil_or_concat' es with rfl | ⟨ds, e, rfl⟩
  · exact Or.inl ⟨_, rfl⟩
  · obtain ⟨hds, he⟩ := hes.of_concat
    rw [if_neg (render_concat_ne_root hds he)]
    cases hlk : s.nodes.find (render (ds ++ [e])) with
    | none => exact Or.inl ⟨_, rfl⟩
    | some n =>
      simp only
      split
      · rename_i hv
        split
        · exact Or.inl ⟨_, rfl⟩
        · rename_i hch
          obtain ⟨par, hpe, hu⟩ := unlinked_unlink h hds he hlk (not_not.mp hch)
          have hin : ¬ (parentPath (render (ds ++ [e])) ≠ [] ∧
              parentPath (render (ds ++ [e])) ∉ s.nodes) := by
            rw [parentPath_concat hds he]
            exact fun hnil => hnil.2 (GoMap.mem_of_find hu.parent)
          rw [if_neg hin]
          exact Or.inr ⟨ds, e, n, par, rfl, hv, hpe, rfl, hu⟩
      · exact Or.inl ⟨_, rfl⟩

/-! ## 4. `DeleteEphemerals` -/

/-- **The removal loop is a sequence of unlinkings**, whatever the order: a property that
survives the unlinking of each listed leaf survives the loop. -/
theorem foldl_unlink {P : Store → Prop} : ∀ (order : List Str) (s : Store), Tree s → P s →
    order.Nodup → (∀ k ∈ order, ∃ n, s.nodes.find k = some n ∧ n.ephemeral = true) →
    (∀ {s s' ds e n par}, Tree s → P s → n.ephemeral = true → par.ephemeral = false →
      render (ds ++ [e]) ∈ order → Unlinked s s' ds e n par → P s') →
        Tree (order.foldl unlink s) ∧ P (order.foldl unlink s)
  | [], _, h, hP, _, _, _ => ⟨h, hP⟩
  | k :: order, s, h, hP, hnd, hall, hstep => by
    obtain ⟨n, hn, heph⟩ := hall k List.mem_cons_self
    obtain ⟨-, es, hes, rfl⟩ := h.keys hn
    rcases List.eq_nil_or_concat' es with rfl | ⟨ds, e, rfl⟩
    · -- the root is not ephemeral
      obtain ⟨r, hr, hre⟩ := h.root
      have hr' : s.nodes.find (render []) = some r := hr
      rw [hn] at hr'
      cases hr'
      rw [heph] at hre
      cases hre
    · obtain ⟨hds, he⟩ := hes.of_concat
      have hleaf := h.children_of_ephemeral hes hn heph
      obtain ⟨par, hpe, hu⟩ := unlinked_unlink h hds he hn hleaf
      rw [List.foldl_cons]
      refine foldl_unlink order _ (h.unlink hu) (hstep h hP heph hpe List.mem_cons_self hu)
        (List.nodup_cons.mp hnd).2 ?_
        fun h hP hn hp hmem hu => hstep h hP hn hp (List.mem_cons_of_mem _ hmem) hu
      intro k' hk'
      obtain ⟨m, hm, hme⟩ := hall k' (List.mem_cons_of_mem _ hk')
      have hne : k' ≠ render (ds ++ [e]) := by
        rintro rfl
        exact (List.nodup_cons.mp hnd).1 hk'
      obtain ⟨cs, hm', -⟩ := hu.old hne hm
      exact ⟨_, hm', hme⟩

theorem IsListing.mem_iff {sid : Str} {order : List Str} (hl : IsListing s sid order) {k : Str} :
    k ∈ order ↔ ∃ n, s.nodes.find k = some n ∧ n.ephemeral = true ∧ n.sessionID = sid := by
  rw [← List.mem_toFinset, hl.2.1, GoMap.mem_keysWhere]
  simp [ownedBy]

/-- The nodes a listing names are all there and ephemeral. -/
theorem IsListing.ephemeral {sid : Str} {order : List Str} (hl : IsListing s sid order) :
    ∀ k ∈ order, ∃ n, s.nodes.find k = some n ∧ n.ephemeral = true := by
  intro k hk
  obtain ⟨n, hn, he, -⟩ := hl.mem_iff.mp hk
  exact ⟨n, hn, he⟩

/-! ## 5. Every step keeps the tree -/

theorem Tree.of_nodes_eq (h : Tree s) (hn : s'.nodes = s.nodes) : Tree s' := by
  cases s
  cases s'
  subst hn
  exact ⟨h.root, h.keys, h.parent, h.listed, h.sound, h.nodup⟩

theorem Tree.create (h : Tree s) (p d : Str) (eph : Bool) (sid : Str) (sq : Bool) :
    Tree (s.create p d eph sid sq).1 := by
  rcases create_cases h p d eph sid sq with ⟨_, -, hn⟩ | ⟨_, _, _, _, -, hl, -⟩
  · exact h.of_nodes_eq hn
  · exact h.link hl

theorem Tree.delete (h : Tree s) {p : Str} {v : Int} (hd : s.delete p v = .ok s') : Tree s' := by
  rcases delete_cases h p v with ⟨_, he⟩ | ⟨_, _, _, _, -, -, -, hok, hu⟩
  · rw [he] at hd
    cases hd
  · rw [hok] at hd
    cases hd
    exact h.unlink hu

theorem Tree.deleteEphemerals (h : Tree s) {sid : Str} {order : List Str}
    (hl : IsListing s sid order) : Tree (s.deleteEphemerals order) :=
  (foldl_unlink (P := fun _ => True) order s h trivial hl.1 hl.ephemeral
    fun _ _ _ _ _ _ => trivial).1

theorem Tree.step (h : Tree s) {op : StoreOp} (hs : step s op = some s') : Tree s' := by
  cases op with
  | create p d eph sid sq =>
    cases hs
    exact h.create p d eph sid sq
  | set p d v =>
    cases hs
    rcases set_cases s p d v with ⟨_, -, hn⟩ | ⟨_, -, -, -, hr⟩
    · rw [hn]
      exact h
    · exact h.retouch hr
  | delete p v =>
    simp only [Store.step] at hs
    split at hs
    · rename_i s₁ hd
      cases hs
      exact h.delete hd
    · cases hs
      exact h
  | deleteEphemerals sid order =>
    simp only [Store.step] at hs
    split at hs
    · rename_i hl
      cases hs
      exact h.deleteEphemerals hl
    · cases hs

/-- **Every reachable store is a tree.** -/
theorem tree_of_reach (hr : Lts.Reach step newStore s) : Tree s :=
  hr.invariant tree_newStore fun _ _ _ h _ hs => h.step hs

/-! ## 6. Where a node comes from, and the counter -/

/-- The same node, up to the fields that operations change: data, version and children. -/
def Node.Same (n n' : Node) : Prop :=
  n' = { n with data := n'.data, version := n'.version, children := n'.children }

theorem Node.Same.refl (n : Node) : n.Same n := rfl

theorem Node.Same.trans {n n' n'' : Node} (h : n.Same n') (h' : n'.Same n'') : n.Same n'' := by
  unfold Node.Same at h h' ⊢
  rw [h', h]

theorem Node.Same.ephemeral {n n' : Node} (h : n.Same n') : n'.ephemeral = n.ephemeral := by rw [h]

theorem Node.Same.sessionID {n n' : Node} (h : n.Same n') : n'.sessionID = n.sessionID := by rw [h]

/-- A node of the store after a call was there before it, or is the one the call has made.  Only
`Set` changes a node's data. -/
theorem Tree.step_origin (h : Tree s) {op : StoreOp} (hs : Store.step s op = some s') {k : Str}
    {n' : Node} (hn' : s'.nodes.find k = some n') :
    (∃ n, s.nodes.find k = some n ∧ n.Same n' ∧
        (n'.data = n.data ∨ ∃ p d v, op = .set p d v ∧ normalizePath p = k)) ∨
      ∃ p d eph sid sq, op = .create p d eph sid sq ∧ (s.create p d eph sid sq).2 = .ok k ∧
        n' = freshNode (s.bump sq) k d eph sid sq := by
  cases op with
  | create p d eph sid sq =>
    cases hs
    rcases create_cases h p d eph sid sq with ⟨_, -, hnodes⟩ | ⟨_, _, _, _, hok, hl, -⟩
    · rw [hnodes] at hn'
      exact Or.inl ⟨n', hn', .refl n', Or.inl rfl⟩
    · rcases hl.cases hn' with ⟨rfl, rfl⟩ | ⟨n, hn, heq, -⟩
      · exact Or.inr ⟨p, d, eph, sid, sq, rfl, hok, rfl⟩
      · exact Or.inl ⟨n, hn, by rw [heq]; rfl, Or.inl (by rw [heq])⟩
  | set p d v =>
    cases hs
    rcases set_cases s p d v with ⟨_, -, heq⟩ | ⟨n, -, -, -, hr⟩
    · rw [heq] at hn'
      exact Or.inl ⟨n', hn', .refl n', Or.inl rfl⟩
    · obtain ⟨m, hm, heq⟩ := hr.cases hn'
      refine Or.inl ⟨m, hm, by rw [heq]; rfl, ?_⟩
      by_cases hk : normalizePath p = k
      · exact Or.inr ⟨p, d, v, rfl, hk⟩
      · rw [hr.lookup, if_neg (Ne.symm hk), hm] at hn'
        cases hn'
        exact Or.inl rfl
  | delete p v =>
    simp only [Store.step] at hs
    rcases delete_cases h p v with ⟨_, he⟩ | ⟨_, _, _, _, -, -, -, hok, hu⟩
    · rw [he] at hs
      cases hs
      exact Or.inl ⟨n', hn', .refl n', Or.inl rfl⟩
    · rw [hok] at hs
      cases hs
      obtain ⟨-, n, hn, heq, -⟩ := hu.cases hn'
      exact Or.inl ⟨n, hn, by rw [heq]; rfl, Or.inl (by rw [heq])⟩
  | deleteEphemerals sid order =>
    simp only [Store.step] at hs
    split at hs
    · rename_i hl
      cases hs
      -- going back through the loop: each removal only takes nodes and names away
      obtain ⟨n, hn, hsame, hdata⟩ := (foldl_unlink
        (P := fun t => ∀ n', t.nodes.find k = some n' →
          ∃ n, s.nodes.find k = some n ∧ n.Same n' ∧ n'.data = n.data)
        order s h (fun n' hn' => ⟨n', hn', .refl n', rfl⟩) hl.1 hl.ephemeral
        (by
          intro t t' ds e m par _ ih _ _ _ hu m' hm'
          obtain ⟨-, m, hm, heq, -⟩ := hu.cases hm'
          obtain ⟨n, hn, hsame, hdata⟩ := ih m hm
          exact ⟨n, hn, hsame.trans (by rw [heq]; rfl), by rw [heq]; exact hdata⟩)).2 n' hn'
      exact Or.inl ⟨n, hn, hsame, Or.inl hdata⟩
    · cases hs

theorem create_seqCounter (s : Store) (p d : Str) (eph : Bool) (sid : Str) (sq : Bool) :
    (s.create p d eph sid sq).1.seqCounter = s.seqCounter ∨
      (s.create p d eph sid sq).1.seqCounter = (s.bump sq).seqCounter := by
  unfold create
  dsimp only
  split
  · exact Or.inl rfl
  · split
    · exact Or.inr rfl
    · exact Or.inr rfl

/-- A successful `Create` has moved the counter as `bump` says. -/
theorem create_seqCounter_ok {p d : Str} {eph : Bool} {sid : Str} {sq : Bool} {q : Str}
    (hok : (s.create p d eph sid sq).2 = .ok q) :
    (s.create p d eph sid sq).1.seqCounter = (s.bump sq).seqCounter := by
  unfold create at hok ⊢
  dsimp only at hok ⊢
  split at hok
  · cases hok
  · split at hok
    · cases hok
    · rename_i hp hq
      rw [if_neg hq]

theorem foldl_unlink_seqCounter : ∀ (order : List Str) (s : Store),
    (order.foldl unlink s).seqCounter = s.seqCounter
  | [], _ => rfl
  | k :: order, s => foldl_unlink_seqCounter order (s.unlink k)

theorem delete_eq_unlink {p : Str} {v : Int} (hd : s.delete p v = .ok s') :
    s' = s.unlink (normalizePath p) := by
  unfold delete at hd
  dsimp only at hd
  split at hd
  · cases hd
  · split at hd
    · cases hd
    · split at hd
      · split at hd
        · cases hd
        · split at hd
          · cases hd
          · exact (Except.ok.inj hd).symm
      · cases hd

/-- Only a sequential `Create` moves the counter. -/
theorem step_seqCounter_of_ne {op : StoreOp} (hs : Store.step s op = some s')
    (hop : ∀ p d eph sid, op ≠ .create p d eph sid true) : s'.seqCounter = s.seqCounter := by
  cases op with
  | create p d eph sid sq =>
    cases sq with
    | true => exact absurd rfl (hop p d eph sid)
    | false =>
      cases hs
      exact (create_seqCounter s p d eph sid false).elim id id
  | set p d v =>
    cases hs
    rcases set_cases s p d v with ⟨_, -, heq⟩ | ⟨_, -, -, hseq, -⟩
    · rw [heq]
    · exact hseq
  | delete p v =>
    simp only [Store.step] at hs
    split at hs
    · rename_i hd
      cases hs
      rw [delete_eq_unlink hd]
      rfl
    · cases hs
      rfl
  | deleteEphemerals sid order =>
    simp only [Store.step] at hs
    split at hs
    · cases hs
      exact foldl_unlink_seqCounter order s
    · cases hs

theorem step_seqCounter {op : StoreOp} (hs : Store.step s op = some s') :
    s'.seqCounter = s.seqCounter ∨ s'.seqCounter = (s.seqCounter + 1) % 2 ^ 64 := by
  by_cases hop : ∃ p d eph sid, op = .create p d eph sid true
  · obtain ⟨p, d, eph, sid, rfl⟩ := hop
    cases hs
    exact create_seqCounter s p d eph sid true
  · exact Or.inl (step_seqCounter_of_ne hs fun p d eph sid heq => hop ⟨p, d, eph, sid, heq⟩)

/-! ## 7. Creating and deleting -/

/-- A leaf other than the root can be deleted, under any version that matches. -/
theorem delete_of_matches (h : Tree s) {p : Str} {v : Int} {n : Node}
    (hn : s.nodes.find (normalizePath p) = some n) (hroot : normalizePath p ≠ root)
    (hv : versionMatches v n = true) (hleaf : n.children = []) :
    s.delete p v = .ok (s.unlink (normalizePath p)) := by
  obtain ⟨es, hes, hp⟩ := normalizePath_elems p
  rw [hp] at hn hroot ⊢
  rcases List.eq_nil_or_concat' es with rfl | ⟨ds, e, rfl⟩
  · exact absurd rfl hroot
  · obtain ⟨hds, he⟩ := hes.of_concat
    obtain ⟨par, -, hu⟩ := unlinked_unlink h hds he hn hleaf
    have hin : render ds ∈ s.nodes := GoMap.mem_of_find hu.parent
    simp [delete, hp, hroot, hn, hleaf, hv, parentPath_concat hds he, hin]

/-- A negative version matches anything. -/
theorem versionMatches_of_neg {v : Int} (hv : v < 0) (n : Node) : versionMatches v n = true := by
  simp [versionMatches, not_le.mpr hv]

theorem delete_leaf (h : Tree s) (hds : Elems ds) (he : IsElem e) {n : Node}
    (hn : s.nodes.find (render (ds ++ [e])) = some n) (hleaf : n.children = []) :
    s.delete (render (ds ++ [e])) (-1) = .ok (s.unlink (render (ds ++ [e]))) := by
  have hnorm := normalizePath_render (hds.concat he)
  have hdel := delete_of_matches h (p := render (ds ++ [e])) (v := -1) (by rw [hnorm]; exact hn)
    (by rw [hnorm]; exact render_concat_ne_root hds he) (versionMatches_of_neg (by decide) n) hleaf
  rwa [hnorm] at hdel

/-- Unlinking the leaf that was just linked restores the map. -/
theorem Tree.unlink_linked (h : Tree s) {s'' : Store} {node par par' : Node}
    (hl : Linked s s' ds e node par par') (hu : Unlinked s' s'' ds e node par') :
    s''.nodes = s.nodes := by
  have hnot : e ∉ par.children := fun hc => by
    obtain ⟨-, n, hn⟩ := h.sound hl.elems hl.parent hc
    exact absurd (hl.fresh.symm.trans hn) nofun
  have hpar : { par' with children := par'.children.erase e } = par := by
    obtain ⟨cs, rfl, rfl | rfl⟩ := hl.parent_eq
    · rw [List.erase_of_not_mem hnot]
    · rw [List.erase_append_right _ hnot, List.erase_cons_head, List.append_nil]
  refine Finmap.ext_lookup fun k => ?_
  change s''.nodes.find k = s.nodes.find k
  rw [hu.lookup, hl.lookup, hpar]
  split
  · rename_i hk
    rw [hk]
    exact hl.fresh.symm
  · split
    · rename_i hk
      rw [hk]
      exact hl.parent.symm
    · rfl

/-- **A node that is created and deleted again leaves no trace**, except in the counter. -/
theorem delete_created (h : Tree s) {p d : Str} {eph : Bool} {sid : Str} {sq : Bool} {q : Str}
    (hok : (s.create p d eph sid sq).2 = .ok q) :
    (s.create p d eph sid sq).1.delete q (-1) = .ok (s.bump sq) := by
  rcases create_cases h p d eph sid sq with ⟨err, herr, -⟩ | ⟨ds, e, par, par', hq, hl, -⟩
  · exact absurd (herr.symm.trans hok) nofun
  · obtain rfl := Except.ok.inj (hq.symm.trans hok)
    have ht := h.create p d eph sid sq
    rw [delete_leaf ht hl.elems hl.elem hl.lookup_leaf hl.leaf]
    obtain ⟨par'', -, hu⟩ := unlinked_unlink ht hl.elems hl.elem hl.lookup_leaf hl.leaf
    obtain rfl : par'' = par' := Option.some.inj (hu.parent.symm.trans hl.lookup_parent)
    have hnodes := (h.unlink_linked hl hu).trans (bump_nodes s sq).symm
    exact congrArg Except.ok (congrArg₂ Store.mk hnodes (create_seqCounter_ok hok))

end SkyLock.Store
