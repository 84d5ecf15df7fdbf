/-
# The store is a tree

The keys of the store are exactly the paths that `normalizePath` leaves alone, so a key is a
list of path elements (`Slash.render`) and the parent of `es ++ [e]` is `es`.  In these terms the
invariant `Tree` says that every node's parent is present and not ephemeral, and that the cached
`Children` lists are sound, duplicate-free and, AWAY FROM THE ROOT, complete.

Completeness is what the guard of `Delete` relies on: it looks at the cached list and not for
descendants.  The root is left out because `Create("/", ..)` with the sequential flag makes a
node below the root without listing it there (`Children.lean` is about that); the root cannot be
deleted, so closure survives the gap.

Each mutation is one of three moves on the map: `link` a fresh leaf, `unlink` a leaf, or replace a
node by one with the same path, flags and children (`retouch`).  `Tree` is shown to survive the
three moves, and the operations are reduced to moves by their inversion lemmas.
-/
import SkyLock.Store.Basic

namespace SkyLock.Store

open Slash

variable {s s' : Store} {k p q d c : Str} {n par : Node} {ds es : List Str} {e : Str}

/-! ## 1. Keys as element lists -/

/-- A list of path elements. -/
def Elems (es : List Str) : Prop := ∀ e ∈ es, IsElem e

theorem Elems.concat (hes : Elems es) (he : IsElem e) : Elems (es ++ [e]) := by
  intro x hx
  rcases List.mem_append.mp hx with hx | hx
  · exact hes x hx
  · exact List.mem_singleton.mp hx ▸ he

theorem Elems.of_concat (h : Elems (es ++ [e])) : Elems es ∧ IsElem e :=
  ⟨fun x hx => h x (List.mem_append_left _ hx), h e (List.mem_append_right _ (by simp))⟩

theorem elems_nil : Elems [] := fun _ h => absurd h List.not_mem_nil

theorem render_concat_ne (hes : Elems es) (he : IsElem e) : render (es ++ [e]) ≠ render es := by
  intro h
  have := congrArg List.length (render_injective (hes.concat he) hes h)
  simp at this

theorem render_concat_ne_root (hes : Elems es) (he : IsElem e) : render (es ++ [e]) ≠ root := by
  intro h
  have := render_injective (hes.concat he) elems_nil h
  simp at this

/-- `normalizePath` always gives a list of path elements. -/
theorem normalizePath_elems (p : Str) : ∃ es, Elems es ∧ normalizePath p = render es := by
  unfold normalizePath
  split
  · exact ⟨[], elems_nil, rfl⟩
  · refine clean_rooted ?_
    split
    · rename_i hp
      obtain ⟨t, rfl⟩ := Text.hasPrefix_iff.mp hp
      rfl
    · rfl

theorem normalizePath_render (hes : Elems es) : normalizePath (render es) = render es := by
  have hpre : Text.hasPrefix (render es) root = true := Text.hasPrefix_iff.mpr ⟨_, rfl⟩
  rw [normalizePath, if_neg (render_ne_nil es), if_pos hpre]
  exact clean_render hes

theorem parentPath_root : parentPath root = [] := rfl

theorem parentPath_concat (hes : Elems es) (he : IsElem e) :
    parentPath (render (es ++ [e])) = render es := by
  rw [parentPath, if_neg (render_concat_ne_root hes he), dir_render_concat hes he]
  exact if_neg (by simp [render])

theorem baseName_concat (he : IsElem e) : baseName (render (es ++ [e])) = e :=
  base_render_concat he

/-- A path element stays one when a sequence number is appended to it. -/
theorem isElem_append_formatSequence (he : '/' ∉ e) (seq : Nat) :
    IsElem (e ++ formatSequence seq) := by
  have hlen := ten_le_length_formatSequence seq
  have hslash : '/' ∉ e ++ formatSequence seq := by
    intro h
    rcases List.mem_append.mp h with h | h
    · exact he h
    · obtain ⟨d, hd, hc⟩ := formatSequence_digits seq _ h
      have hv := Text.digitValue_digitChar hd
      rw [← hc] at hv
      have h0 : Text.digitValue '/' = 0 := by decide
      have hd0 : d = 0 := by omega
      rw [hd0] at hc
      exact absurd hc (by decide)
  refine ⟨?_, hslash, ?_, ?_⟩ <;>
  · intro h
    have := congrArg List.length h
    simp only [List.length_append, List.length_nil, List.length_cons] at this
    omega

/-! ## 2. The invariant -/

structure Tree (s : Store) : Prop where
  root : ∃ n, s.nodes.find root = some n ∧ n.ephemeral = false
  keys : ∀ {k n}, s.nodes.find k = some n → n.path = k ∧ ∃ es, Elems es ∧ k = render es
  parent : ∀ {es e n}, Elems es → IsElem e → s.nodes.find (render (es ++ [e])) = some n →
    ∃ p, s.nodes.find (render es) = some p ∧ p.ephemeral = false
  listed : ∀ {es e n p}, Elems es → IsElem e → es ≠ [] →
    s.nodes.find (render (es ++ [e])) = some n → s.nodes.find (render es) = some p →
      e ∈ p.children
  sound : ∀ {es p c}, Elems es → s.nodes.find (render es) = some p → c ∈ p.children →
    IsElem c ∧ ∃ n, s.nodes.find (render (es ++ [c])) = some n
  nodup : ∀ {k p}, s.nodes.find k = some p → p.children.Nodup

theorem tree_newStore : Tree newStore := by
  have hlk : ∀ k n, newStore.nodes.find k = some n → k = Store.root ∧ n.children = [] ∧
      n.path = Store.root ∧ n.ephemeral = false := by
    intro k n h
    rw [newStore, GoMap.find_singleton] at h
    split at h
    · rename_i hk
      cases h
      exact ⟨hk, rfl, rfl, rfl⟩
    · cases h
  constructor
  · exact ⟨_, by rw [newStore, GoMap.find_singleton, if_pos rfl], rfl⟩
  · intro k n h
    obtain ⟨rfl, -, hpath, -⟩ := hlk k n h
    exact ⟨hpath, [], elems_nil, rfl⟩
  · intro es e n hes he h
    exact absurd (hlk _ _ h).1 (render_concat_ne_root hes he)
  · intro es e n p hes he _ h
    exact absurd (hlk _ _ h).1 (render_concat_ne_root hes he)
  · intro es p c _ h hc
    rw [(hlk _ _ h).2.1] at hc
    exact absurd hc List.not_mem_nil
  · intro k p h
    rw [(hlk _ _ h).2.1]
    exact List.nodup_nil

/-- **An ephemeral node has an empty list of children.** -/
theorem Tree.children_of_ephemeral (h : Tree s) (hes : Elems es)
    (hn : s.nodes.find (render es) = some n) (heph : n.ephemeral = true) : n.children = [] := by
  by_contra hne
  obtain ⟨c, hc⟩ := List.exists_mem_of_ne_nil _ hne
  obtain ⟨hce, m, hm⟩ := h.sound hes hn hc
  obtain ⟨p, hp, hpe⟩ := h.parent hes hce hm
  rw [hn] at hp
  cases hp
  rw [heph] at hpe
  cases hpe

/-! ## 3. Linking a fresh leaf -/

/-- `s'` is `s` with a fresh leaf `node` below `ds`, whose entry there goes from `par` to `par'`:
the same node with the leaf listed, or (at the root only) the very same node. -/
structure Linked (s s' : Store) (ds : List Str) (e : Str) (node par par' : Node) : Prop where
  elems : Elems ds
  elem : IsElem e
  lookup : ∀ k, s'.nodes.find k = if k = render ds then some par'
    else if k = render (ds ++ [e]) then some node else s.nodes.find k
  fresh : s.nodes.find (render (ds ++ [e])) = none
  parent : s.nodes.find (render ds) = some par
  durable : par.ephemeral = false
  path : node.path = render (ds ++ [e])
  leaf : node.children = []
  listing : par' = { par with children := par.children ++ [e] } ∨ ds = [] ∧ par' = par

namespace Linked

variable {node par' : Node}

/-- The parent's entry changes at most in its list. -/
theorem parent_eq (hl : Linked s s' ds e node par par') :
    ∃ cs, par' = { par with children := cs } ∧ (cs = par.children ∨ cs = par.children ++ [e]) := by
  rcases hl.listing with h | ⟨-, h⟩
  · exact ⟨_, h, Or.inr rfl⟩
  · exact ⟨par.children, h, Or.inl rfl⟩

/-- What was there stays, up to its list, which only grows. -/
theorem old (hl : Linked s s' ds e node par par') {k : Str} {m : Node}
    (hm : s.nodes.find k = some m) : ∃ cs, s'.nodes.find k = some { m with children := cs } ∧
      ∀ c ∈ m.children, c ∈ cs := by
  rw [hl.lookup]
  split
  · rename_i hk
    rw [hk, hl.parent] at hm
    cases hm
    obtain ⟨cs, hpar, hcs⟩ := hl.parent_eq
    refine ⟨cs, by rw [hpar], ?_⟩
    rcases hcs with rfl | rfl
    · exact fun _ hc => hc
    · exact fun c hc => List.mem_append_left _ hc
  · split
    · rename_i hk
      rw [hk, hl.fresh] at hm
      cases hm
    · exact ⟨m.children, hm, fun _ hc => hc⟩

/-- A node of the new map is the new leaf, or was there before with the same list, or is the
parent with the leaf's name added. -/
theorem cases (hl : Linked s s' ds e node par par') {k : Str} {m' : Node}
    (hm' : s'.nodes.find k = some m') :
    (k = render (ds ++ [e]) ∧ m' = node) ∨
      ∃ m, s.nodes.find k = some m ∧ m' = { m with children := m'.children } ∧
        (m'.children = m.children ∨
          k = render ds ∧ m = par ∧ m'.children = par.children ++ [e]) := by
  rw [hl.lookup] at hm'
  split at hm'
  · rename_i hk
    cases hm'
    obtain ⟨cs, hpar, hcs⟩ := hl.parent_eq
    refine Or.inr ⟨par, hk ▸ hl.parent, by rw [hpar], ?_⟩
    rcases hcs with h | h
    · exact Or.inl (by rw [hpar, h])
    · exact Or.inr ⟨hk, rfl, by rw [hpar, h]⟩
  · split at hm'
    · rename_i hk
      cases hm'
      exact Or.inl ⟨hk, rfl⟩
    · exact Or.inr ⟨m', hm', rfl, Or.inl rfl⟩

theorem durable' (hl : Linked s s' ds e node par par') : par'.ephemeral = false := by
  obtain ⟨cs, hpar, -⟩ := hl.parent_eq
  rw [hpar]
  exact hl.durable

theorem lookup_parent (hl : Linked s s' ds e node par par') :
    s'.nodes.find (render ds) = some par' := by rw [hl.lookup, if_pos rfl]

theorem lookup_leaf (hl : Linked s s' ds e node par par') :
    s'.nodes.find (render (ds ++ [e])) = some node := by
  rw [hl.lookup, if_neg (render_concat_ne hl.elems hl.elem), if_pos rfl]

/-- Below which list, and under which name, a key is the new leaf. -/
theorem eq_of_leaf (hl : Linked s s' ds e node par par') {es : List Str} {x : Str}
    (hes : Elems es) (hx : IsElem x) (hk : render (es ++ [x]) = render (ds ++ [e])) :
    es = ds ∧ x = e := by
  have h := render_injective (hes.concat hx) (hl.elems.concat hl.elem) hk
  obtain ⟨h1, h2⟩ := List.append_inj' h rfl
  exact ⟨h1, by simpa using h2⟩

end Linked

theorem Tree.link {node par' : Node} (h : Tree s) (hl : Linked s s' ds e node par par') :
    Tree s' := by
  have hnotin : e ∉ par.children := by
    intro hmem
    obtain ⟨-, m, hm⟩ := h.sound hl.elems hl.parent hmem
    rw [hl.fresh] at hm
    cases hm
  constructor
  · obtain ⟨r, hr, hre⟩ := h.root
    obtain ⟨cs, hr', -⟩ := hl.old hr
    exact ⟨_, hr', hre⟩
  · intro k m' hm'
    rcases hl.cases hm' with ⟨rfl, rfl⟩ | ⟨m, hm, heq, -⟩
    · exact ⟨hl.path, _, hl.elems.concat hl.elem, rfl⟩
    · have hkeys := h.keys hm
      rw [heq]
      exact hkeys
  · intro es x m' hes hx hm'
    rcases hl.cases hm' with ⟨hk, -⟩ | ⟨m, hm, -⟩
    · obtain ⟨rfl, -⟩ := hl.eq_of_leaf hes hx hk
      exact ⟨par', hl.lookup_parent, hl.durable'⟩
    · obtain ⟨p, hp, hpe⟩ := h.parent hes hx hm
      obtain ⟨cs, hp', -⟩ := hl.old hp
      exact ⟨_, hp', hpe⟩
  · intro es x m' p' hes hx hne hm' hp'
    rcases hl.cases hm' with ⟨hk, -⟩ | ⟨m, hm, -⟩
    · obtain ⟨rfl, rfl⟩ := hl.eq_of_leaf hes hx hk
      rw [hl.lookup_parent] at hp'
      cases hp'
      rcases hl.listing with hpar | ⟨h0, -⟩
      · rw [hpar]
        exact List.mem_append_right _ (List.mem_singleton.mpr rfl)
      · exact absurd h0 hne
    · obtain ⟨p, hp, -⟩ := h.parent hes hx hm
      obtain ⟨cs, hp'', hsub⟩ := hl.old hp
      rw [hp'] at hp''
      cases hp''
      exact hsub x (h.listed hes hx hne hm hp)
  · intro es p' c hes hp' hc
    rcases hl.cases hp' with ⟨-, rfl⟩ | ⟨p, hp, -, hch | ⟨hk, rfl, hch⟩⟩
    · rw [hl.leaf] at hc
      exact absurd hc List.not_mem_nil
    · obtain ⟨hce, m, hm⟩ := h.sound hes hp (hch ▸ hc)
      obtain ⟨cs, hm', -⟩ := hl.old hm
      exact ⟨hce, _, hm'⟩
    · obtain rfl := render_injective hes hl.elems hk
      rw [hch] at hc
      rcases List.mem_append.mp hc with hc | hc
      · obtain ⟨hce, m, hm⟩ := h.sound hes hp hc
        obtain ⟨cs, hm', -⟩ := hl.old hm
        exact ⟨hce, _, hm'⟩
      · obtain rfl := List.mem_singleton.mp hc
        exact ⟨hl.elem, node, hl.lookup_leaf⟩
  · intro k p' hp'
    rcases hl.cases hp' with ⟨-, rfl⟩ | ⟨p, hp, -, hch | ⟨-, rfl, hch⟩⟩
    · rw [hl.leaf]
      exact List.nodup_nil
    · rw [hch]
      exact h.nodup hp
    · rw [hch]
      exact List.Nodup.append (h.nodup hp) (List.nodup_singleton e)
        (List.disjoint_singleton.mpr hnotin)

/-! ## 4. Unlinking a leaf -/

/-- `s'` is `s` without the leaf below `ds`, which is also dropped from the list there. -/
structure Unlinked (s s' : Store) (ds : List Str) (e : Str) (n par : Node) : Prop where
  elems : Elems ds
  elem : IsElem e
  lookup : ∀ k, s'.nodes.find k = if k = render (ds ++ [e]) then none
    else if k = render ds then some { par with children := par.children.erase e }
    else s.nodes.find k
  node : s.nodes.find (render (ds ++ [e])) = some n
  leaf : n.children = []
  parent : s.nodes.find (render ds) = some par

namespace Unlinked

/-- Every other node is still there, up to its list. -/
theorem old (hu : Unlinked s s' ds e n par) {k : Str} {m : Node} (hk : k ≠ render (ds ++ [e]))
    (hm : s.nodes.find k = some m) : ∃ cs, s'.nodes.find k = some { m with children := cs } ∧
      (cs = m.children ∨ k = render ds ∧ cs = m.children.erase e) := by
  rw [hu.lookup, if_neg hk]
  split
  · rename_i hkd
    rw [hkd, hu.parent] at hm
    cases hm
    exact ⟨_, rfl, Or.inr ⟨hkd, rfl⟩⟩
  · exact ⟨m.children, hm, Or.inl rfl⟩

/-- A node of the new map was there before, and its list lost at most the leaf's name. -/
theorem cases (hu : Unlinked s s' ds e n par) {k : Str} {m' : Node}
    (hm' : s'.nodes.find k = some m') : k ≠ render (ds ++ [e]) ∧
      ∃ m, s.nodes.find k = some m ∧ m' = { m with children := m'.children } ∧
        (m'.children = m.children ∧ k ≠ render ds ∨
          k = render ds ∧ m = par ∧ m'.children = par.children.erase e) := by
  rw [hu.lookup] at hm'
  split at hm'
  · cases hm'
  · rename_i hk
    refine ⟨hk, ?_⟩
    split at hm'
    · rename_i hkd
      cases hm'
      exact ⟨par, hkd ▸ hu.parent, rfl, Or.inr ⟨hkd, rfl, rfl⟩⟩
    · rename_i hkd
      exact ⟨m', hm', rfl, Or.inl ⟨rfl, hkd⟩⟩

end Unlinked

/-- The leaf has no node below it, away from the root, because its list is empty. -/
theorem Tree.no_child_of_leaf (h : Tree s) (hes : Elems es) (hne : es ≠ [])
    (hn : s.nodes.find (render es) = some n) (hleaf : n.children = []) {x : Str}
    (hx : IsElem x) : s.nodes.find (render (es ++ [x])) = none := by
  cases hm : s.nodes.find (render (es ++ [x])) with
  | none => rfl
  | some m =>
    have := h.listed hes hx hne hm hn
    rw [hleaf] at this
    exact absurd this List.not_mem_nil

theorem Tree.unlink (h : Tree s) (hu : Unlinked s s' ds e n par) : Tree s' := by
  have hde := hu.elems.concat hu.elem
  have hleaf : ∀ {x}, IsElem x → s.nodes.find (render (ds ++ [e] ++ [x])) = none :=
    fun hx => h.no_child_of_leaf hde (by simp) hu.node hu.leaf hx
  -- the parent of a surviving node survives: the removed node had nothing below it
  have hpar_ne : ∀ {es x m'}, Elems es → IsElem x → s.nodes.find (render (es ++ [x])) = some m' →
      render es ≠ render (ds ++ [e]) := by
    intro es x m' hes hx hm heq
    obtain rfl := render_injective hes hde heq
    rw [hleaf hx] at hm
    cases hm
  constructor
  · obtain ⟨r, hr, hre⟩ := h.root
    obtain ⟨cs, hr', -⟩ := hu.old (render_concat_ne_root hu.elems hu.elem).symm hr
    exact ⟨_, hr', hre⟩
  · intro k m' hm'
    obtain ⟨-, m, hm, heq, -⟩ := hu.cases hm'
    have hkeys := h.keys hm
    rw [heq]
    exact hkeys
  · intro es x m' hes hx hm'
    obtain ⟨-, m, hm, -⟩ := hu.cases hm'
    obtain ⟨p, hp, hpe⟩ := h.parent hes hx hm
    obtain ⟨cs, hp', -⟩ := hu.old (hpar_ne hes hx hm) hp
    exact ⟨_, hp', hpe⟩
  · intro es x m' p' hes hx hne hm' hp'
    obtain ⟨hk, m, hm, -⟩ := hu.cases hm'
    obtain ⟨-, p, hp, -, ⟨hch, -⟩ | ⟨hkd, rfl, hch⟩⟩ := hu.cases hp'
    · rw [hch]
      exact h.listed hes hx hne hm hp
    · obtain rfl := render_injective hes hu.elems hkd
      have hxe : x ≠ e := fun hxe => hk (by rw [hxe])
      rw [hch]
      exact (List.mem_erase_of_ne hxe).mpr (h.listed hes hx hne hm hp)
  · intro es p' c hes hp' hc
    obtain ⟨-, p, hp, -, ⟨hch, hkd⟩ | ⟨hkd, rfl, hch⟩⟩ := hu.cases hp'
    · rw [hch] at hc
      obtain ⟨hce, m, hm⟩ := h.sound hes hp hc
      have hne : render (es ++ [c]) ≠ render (ds ++ [e]) := by
        intro heq
        obtain ⟨rfl, -⟩ := List.append_inj' (render_injective (hes.concat hce) hde heq) rfl
        exact hkd rfl
      obtain ⟨cs, hm', -⟩ := hu.old hne hm
      exact ⟨hce, _, hm'⟩
    · obtain rfl := render_injective hes hu.elems hkd
      rw [hch] at hc
      obtain ⟨hcne, hcmem⟩ := (h.nodup hp).mem_erase_iff.mp hc
      obtain ⟨hce, m, hm⟩ := h.sound hes hp hcmem
      have hne : render (es ++ [c]) ≠ render (es ++ [e]) := by
        intro heq
        obtain ⟨-, h2⟩ := List.append_inj' (render_injective (hes.concat hce) hde heq) rfl
        exact hcne (by simpa using h2)
      obtain ⟨cs, hm', -⟩ := hu.old hne hm
      exact ⟨hce, _, hm'⟩
  · intro k p' hp'
    obtain ⟨-, p, hp, -, ⟨hch, -⟩ | ⟨-, rfl, hch⟩⟩ := hu.cases hp'
    · rw [hch]
      exact h.nodup hp
    · rw [hch]
      exact (h.nodup hp).erase e

/-! ## 5. Replacing a node's data -/

/-- `s'` is `s` with the data and the version of one node replaced. -/
structure Retouched (s s' : Store) (k : Str) (n n' : Node) : Prop where
  lookup : ∀ k', s'.nodes.find k' = if k' = k then some n' else s.nodes.find k'
  node : s.nodes.find k = some n
  same : n' = { n with data := n'.data, version := n'.version }

theorem Retouched.old {n' : Node} (hr : Retouched s s' k n n') {k' : Str} {m : Node}
    (hm : s.nodes.find k' = some m) :
    ∃ d v, s'.nodes.find k' = some { m with data := d, version := v } := by
  rw [hr.lookup]
  split
  · rename_i hk
    rw [hk, hr.node] at hm
    cases hm
    exact ⟨_, _, congrArg some hr.same⟩
  · exact ⟨m.data, m.version, hm⟩

theorem Retouched.cases {n' : Node} (hr : Retouched s s' k n n') {k' : Str} {m' : Node}
    (hm' : s'.nodes.find k' = some m') :
    ∃ m, s.nodes.find k' = some m ∧ m' = { m with data := m'.data, version := m'.version } := by
  rw [hr.lookup] at hm'
  split at hm'
  · rename_i hk
    cases hm'
    exact ⟨n, hk ▸ hr.node, hr.same⟩
  · exact ⟨m', hm', rfl⟩

theorem Tree.retouch {n' : Node} (h : Tree s) (hr : Retouched s s' k n n') : Tree s' := by
  constructor
  · obtain ⟨r, hr0, hre⟩ := h.root
    obtain ⟨d, v, hr'⟩ := hr.old hr0
    exact ⟨_, hr', hre⟩
  · intro k m' hm'
    obtain ⟨m, hm, heq⟩ := hr.cases hm'
    have hkeys := h.keys hm
    rw [heq]
    exact hkeys
  · intro es x m' hes hx hm'
    obtain ⟨m, hm, -⟩ := hr.cases hm'
    obtain ⟨p, hp, hpe⟩ := h.parent hes hx hm
    obtain ⟨d, v, hp'⟩ := hr.old hp
    exact ⟨_, hp', hpe⟩
  · intro es x m' p' hes hx hne hm' hp'
    obtain ⟨m, hm, -⟩ := hr.cases hm'
    obtain ⟨p, hp, heq⟩ := hr.cases hp'
    have hmem := h.listed hes hx hne hm hp
    rw [heq]
    exact hmem
  · intro es p' c hes hp' hc
    obtain ⟨p, hp, heq⟩ := hr.cases hp'
    rw [heq] at hc
    obtain ⟨hce, m, hm⟩ := h.sound hes hp hc
    obtain ⟨d, v, hm'⟩ := hr.old hm
    exact ⟨hce, _, hm'⟩
  · intro k p' hp'
    obtain ⟨p, hp, heq⟩ := hr.cases hp'
    have hnd := h.nodup hp
    rw [heq]
    exact hnd

end SkyLock.Store
