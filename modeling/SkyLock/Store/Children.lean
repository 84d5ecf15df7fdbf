/-
# The cached lists of children

For a node other than the root, `Tree` makes the cached list exact: no duplicates, and exactly the
base names of the nodes whose `parentPath` it is.  For the root one direction can fail.  `Create`
takes the parent of the path as requested; the root has none, so a SEQUENTIAL `Create("/", ..)`
makes the node `/0000000001` and lists it nowhere.

`children_exact_iff` draws the line exactly: along any sequence of calls the lists are exact in
every state if and only if no call creates such a node.
-/
import SkyLock.Store.Closure

namespace SkyLock.Store

open Slash

variable {s s' : Store} {es : List Str} {e : Str}

/-! ## 1. Exactness -/

/-- The base names of the nodes whose parent path is `p`. -/
def childNames (s : Store) (p : Str) : Finset Str :=
  (s.nodes.keys.filter fun k => k ≠ root ∧ parentPath k = p).image baseName

/-- Every cached list is duplicate-free and holds exactly the names of the node's children, so
that `GetChildren` returns the sorted list of those names. -/
def ChildrenExact (s : Store) : Prop :=
  (∀ p n, s.nodes.find p = some n → n.children.Nodup ∧
    ∀ c, c ∈ n.children ↔ ∃ k ∈ s.nodes, k ≠ root ∧ parentPath k = p ∧ baseName k = c) ∧
  ∀ p, normalizePath p ∈ s.nodes →
    s.getChildren p = .ok ((childNames s (normalizePath p)).sort (· ≤ ·))

/-- The root's list is complete. -/
def RootListed (s : Store) : Prop :=
  ∀ e m r, IsElem e → s.nodes.find (render [e]) = some m → s.nodes.find root = some r →
    e ∈ r.children

/-- In a tree whose root is listed, a name is cached exactly when such a node exists. -/
theorem Tree.mem_children_iff (h : Tree s) (hroot : RootListed s) {p c : Str} {n : Node}
    (hn : s.nodes.find p = some n) :
    c ∈ n.children ↔ ∃ k ∈ s.nodes, k ≠ Store.root ∧ parentPath k = p ∧ baseName k = c := by
  obtain ⟨-, es, hes, rfl⟩ := h.keys hn
  constructor
  · intro hc
    obtain ⟨hce, m, hm⟩ := h.sound hes hn hc
    exact ⟨render (es ++ [c]), GoMap.mem_of_find hm, render_concat_ne_root hes hce,
      parentPath_concat hes hce, baseName_concat hce⟩
  · rintro ⟨k, hk, hkr, hpar, rfl⟩
    obtain ⟨m, hm⟩ := GoMap.mem_iff_find.mp hk
    obtain ⟨-, fs, hfs, rfl⟩ := h.keys hm
    rcases List.eq_nil_or_concat' fs with rfl | ⟨ds, e, rfl⟩
    · exact absurd rfl hkr
    · obtain ⟨hds, he⟩ := hfs.of_concat
      rw [parentPath_concat hds he] at hpar
      obtain rfl := render_injective hds hes hpar
      rw [baseName_concat he]
      rcases eq_or_ne ds [] with rfl | hne
      · exact hroot e m n he hm hn
      · exact h.listed hds he hne hm hn

theorem Tree.childrenExact (h : Tree s) (hroot : RootListed s) : ChildrenExact s := by
  have hmem : ∀ p n, s.nodes.find p = some n → ∀ c, c ∈ n.children ↔ c ∈ childNames s p := by
    intro p n hn c
    rw [h.mem_children_iff hroot hn]
    simp only [childNames, Finset.mem_image, Finset.mem_filter, Finmap.mem_keys]
    constructor
    · rintro ⟨k, hk, hne, hp, hb⟩
      exact ⟨k, ⟨hk, hne, hp⟩, hb⟩
    · rintro ⟨k, ⟨hk, hne, hp⟩, hb⟩
      exact ⟨k, hk, hne, hp, hb⟩
  constructor
  · intro p n hn
    exact ⟨h.nodup hn, fun c => h.mem_children_iff hroot hn⟩
  · intro p hp
    obtain ⟨n, hn⟩ := GoMap.mem_iff_find.mp hp
    rw [getChildren, hn]
    exact congrArg Except.ok (GoMap.insertionSort_eq_sort (h.nodup hn) (hmem _ n hn))

/-! ## 2. The one call that breaks it -/

/-- A sequential `Create` of a path that normalises to the root, with the resulting name free: the
call that makes a node and lists it nowhere. -/
def CreatesUnlisted (s : Store) : StoreOp → Prop
  | .create p _ _ _ sq =>
    RootSequential p sq ∧ actualPath (s.bump true) root true ∉ s.nodes
  | _ => False

theorem actualPath_root (s : Store) :
    actualPath (s.bump true) root true = render [formatSequence (s.bump true).seqCounter] := by
  rw [render_singleton]
  rfl

/-- Linking keeps the root's list complete unless it is the unlisted kind. -/
theorem RootListed.link {ds : List Str} {node par par' : Node} (hroot : RootListed s)
    (hl : Linked s s' ds e node par par')
    (hpar : par' = { par with children := par.children ++ [e] }) : RootListed s' := by
  intro x m' r' hx hm' hr'
  rcases hl.cases hm' with ⟨hk, -⟩ | ⟨m, hm, -⟩
  · obtain ⟨h1, rfl⟩ := hl.eq_of_leaf elems_nil hx (show render ([] ++ [x]) = _ from hk)
    have hr2 := hl.lookup_parent
    rw [← h1] at hr2
    have heq : some par' = some r' := hr2.symm.trans hr'
    cases heq
    rw [hpar]
    exact List.mem_append_right _ (List.mem_singleton.mpr rfl)
  · rcases hl.cases hr' with ⟨hk, -⟩ | ⟨r, hr, -, hch | ⟨-, rfl, hch⟩⟩
    · exact absurd hk.symm (render_concat_ne_root hl.elems hl.elem)
    · exact hch ▸ hroot x m r hx hm hr
    · rw [hch]
      exact List.mem_append_left _ (hroot x m r hx hm hr)

theorem RootListed.unlink {ds : List Str} {n par : Node} (hroot : RootListed s)
    (hu : Unlinked s s' ds e n par) : RootListed s' := by
  intro x m' r' hx hm' hr'
  obtain ⟨hk, m, hm, -⟩ := hu.cases hm'
  obtain ⟨-, r, hr, -, ⟨hch, -⟩ | ⟨hkd, rfl, hch⟩⟩ := hu.cases hr'
  · exact hch ▸ hroot x m r hx hm hr
  · obtain rfl := render_injective elems_nil hu.elems hkd
    have hxe : x ≠ e := by
      rintro rfl
      exact hk rfl
    rw [hch]
    exact (List.mem_erase_of_ne hxe).mpr (hroot x m r hx hm hr)

theorem RootListed.retouch {k : Str} {n n' : Node} (hroot : RootListed s)
    (hr : Retouched s s' k n n') : RootListed s' := by
  intro x m' r' hx hm' hr'
  obtain ⟨m, hm, -⟩ := hr.cases hm'
  obtain ⟨r, hr0, heq⟩ := hr.cases hr'
  have hmem := hroot x m r hx hm hr0
  rw [heq]
  exact hmem

theorem RootListed.of_nodes_eq (hroot : RootListed s) (hn : s'.nodes = s.nodes) :
    RootListed s' := by
  intro x m r hx hm hr
  rw [hn] at hm hr
  exact hroot x m r hx hm hr

/-- A successful call of the unlisted kind is one whose name is free. -/
theorem createsUnlisted_of_linked (h : Tree s) {p d : Str} {eph : Bool} {sid q : Str} {sq : Bool}
    (hrs : RootSequential p sq) (hok : (s.create p d eph sid sq).2 = .ok q) :
    CreatesUnlisted s (.create p d eph sid sq) := by
  refine ⟨hrs, ?_⟩
  intro hmem
  rw [actualPath_root] at hmem
  rw [create_root h hrs.1, hrs.2] at hok
  simp only [if_true, if_pos hmem] at hok
  cases hok

/-- **Every other call keeps the root's list complete.** -/
theorem RootListed.step (h : Tree s) (hroot : RootListed s) {op : StoreOp}
    (hop : ¬ CreatesUnlisted s op) (hs : Store.step s op = some s') : RootListed s' := by
  cases op with
  | create p d eph sid sq =>
    cases hs
    rcases create_cases h p d eph sid sq with ⟨_, -, hn⟩ | ⟨_, _, _, _, hok, hl, hkind⟩
    · exact hroot.of_nodes_eq hn
    · rcases hkind with ⟨hrs, -⟩ | ⟨-, hpar⟩
      · exact absurd (createsUnlisted_of_linked h hrs hok) hop
      · exact hroot.link hl hpar
  | set p d v =>
    cases hs
    rcases set_cases s p d v with ⟨_, -, heq⟩ | ⟨_, -, -, -, hr⟩
    · rw [heq]
      exact hroot
    · exact hroot.retouch hr
  | delete p v =>
    simp only [Store.step] at hs
    rcases delete_cases h p v with ⟨_, he⟩ | ⟨_, _, _, _, -, -, -, hok, hu⟩
    · rw [he] at hs
      cases hs
      exact hroot
    · rw [hok] at hs
      cases hs
      exact hroot.unlink hu
  | deleteEphemerals sid order =>
    simp only [Store.step] at hs
    split at hs
    · rename_i hl
      cases hs
      exact (foldl_unlink (P := RootListed) order s h hroot hl.1 hl.ephemeral
        fun _ hroot _ _ _ hu => hroot.unlink hu).2
    · cases hs

/-- Right after a call of the unlisted kind the root's list is not exact. -/
theorem not_childrenExact_of_createsUnlisted (h : Tree s) {op : StoreOp}
    (hop : CreatesUnlisted s op) (hs : Store.step s op = some s') : ¬ ChildrenExact s' := by
  cases op with
  | create p d eph sid sq =>
    obtain ⟨hrs, hfree⟩ := hop
    rw [actualPath_root] at hfree
    obtain ⟨r, hr, -⟩ := h.root
    have hel : IsElem (formatSequence (s.bump true).seqCounter) :=
      isElem_append_formatSequence (e := []) List.not_mem_nil _
    have hne : Store.root ≠ render [formatSequence (s.bump true).seqCounter] :=
      (render_concat_ne_root elems_nil hel).symm
    have hs' : s'.nodes = s.nodes.insert (render [formatSequence (s.bump true).seqCounter])
        (freshNode (s.bump true) (render [formatSequence (s.bump true).seqCounter]) d eph sid
          true) := by
      simp only [Store.step, create_root h hrs.1, hrs.2, if_true, if_neg hfree,
        Option.some.injEq] at hs
      rw [← hs]
    have hr' : s'.nodes.find Store.root = some r := by
      rw [hs', GoMap.find_insert, if_neg hne]
      exact hr
    have hnew : render [formatSequence (s.bump true).seqCounter] ∈ s'.nodes := by
      rw [hs']
      exact Finmap.mem_insert.mpr (Or.inl rfl)
    intro hexact
    -- exactness would put the new name into the old list, whose names all existed before
    have hpar : parentPath (render ([] ++ [formatSequence (s.bump true).seqCounter])) = render [] :=
      parentPath_concat elems_nil hel
    have hbase : baseName (render ([] ++ [formatSequence (s.bump true).seqCounter])) =
        formatSequence (s.bump true).seqCounter := baseName_concat hel
    have hin : formatSequence (s.bump true).seqCounter ∈ r.children :=
      ((hexact.1 _ r hr').2 _).mpr ⟨_, hnew, hne.symm, hpar, hbase⟩
    obtain ⟨-, m, hm⟩ := h.sound elems_nil hr hin
    exact hfree (GoMap.mem_of_find hm)
  | set p d v => exact hop.elim
  | delete p v => exact hop.elim
  | deleteEphemerals sid order => exact hop.elim

/-! ## 3. The exact condition -/

theorem rootListed_newStore : RootListed newStore := by
  intro e m r he hm _
  have hne : render [e] ≠ root := render_concat_ne_root elems_nil he
  rw [newStore, GoMap.find_singleton, if_neg hne] at hm
  cases hm

/-- **The cached lists are exact in every state of a run if and only if no call of the run is a
sequential `Create` of the root path that makes a node.** -/
theorem children_exact_iff (ops : List StoreOp) :
    (∀ pre s, pre <+: ops → Lts.exec step newStore pre = some s → ChildrenExact s) ↔
      ∀ pre op s, pre ++ [op] <+: ops → Lts.exec step newStore pre = some s →
        ¬ CreatesUnlisted s op := by
  constructor
  · intro hexact pre op s hpre hs hop
    have htree := tree_of_reach (Lts.Run.of_exec hs)
    cases hstep : step s op with
    | none =>
      cases op with
      | create => simp [step] at hstep
      | _ => exact hop.elim
    | some s' =>
      have hs' : Lts.exec step newStore (pre ++ [op]) = some s' := by
        rw [Lts.exec_concat, hs]
        exact hstep
      exact not_childrenExact_of_createsUnlisted htree hop hstep (hexact _ s' hpre hs')
  · intro hops
    -- induction on the prefix: the tree and the root's list survive each further call
    have key : ∀ pre : List StoreOp, ∀ s, pre <+: ops → Lts.exec step newStore pre = some s →
        Tree s ∧ RootListed s := by
      intro pre
      induction pre using List.reverseRecOn with
      | nil =>
        intro s _ hs
        cases hs
        exact ⟨tree_newStore, rootListed_newStore⟩
      | append_singleton pre op ih =>
        intro s hpre hs
        rw [Lts.exec_concat, Option.bind_eq_some_iff] at hs
        obtain ⟨t, ht, hstep⟩ := hs
        have hpre' : pre <+: ops := (List.prefix_append pre [op]).trans hpre
        obtain ⟨htree, hroot⟩ := ih t hpre' ht
        exact ⟨htree.step hstep, hroot.step htree (hops pre op t hpre ht) hstep⟩
    intro pre s hpre hs
    obtain ⟨htree, hroot⟩ := key pre s hpre hs
    exact htree.childrenExact hroot

/-- One sequential `Create` of `/` is enough: `/0000000001` exists and the root lists nothing. -/
theorem children_not_exact_root_sequential :
    ¬ ∀ s, Lts.Reach step newStore s → ChildrenExact s := by
  intro hall
  have hrun : Lts.exec step newStore [.create "/".toList [] false [] true] =
      some (newStore.create "/".toList [] false [] true).1 := rfl
  have hop : CreatesUnlisted newStore (.create "/".toList [] false [] true) :=
    ⟨⟨by decide, rfl⟩, by decide +kernel⟩
  exact not_childrenExact_of_createsUnlisted tree_newStore hop rfl
    (hall _ (Lts.Run.of_exec hrun))

end SkyLock.Store
