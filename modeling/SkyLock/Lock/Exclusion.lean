/-
# Mutual exclusion and fairness of one lock manager

Here the runs are DISCIPLINED: lock names are single clean path segments, and nothing but
`TryLock` makes or rewrites nodes below `/locks/<name>`.  Then what stands in a lock's directory
is exactly the queue (`Tidy.only`), so the granted call's node is not only the least of the
queue nodes (`Queue.lean`) but the first child, and `GetLockHolder` reads its owner.

Fairness is about the order in which checks succeed.  That is the order of the grants: once the
node with ticket `q` is first in line, no smaller ticket of the same directory is left, and none
will be drawn again.
-/
import SkyLock.Lock.Queue

namespace SkyLock.Lock

open Store Sys Slash

variable {s s' : Sys} {a : Action} {st : Store} {l l' : Lock}

/-! ## 1. Disciplined runs -/

/-- Is the path below some `/locks/<name>`? -/
def belowLock (p : Str) : Bool :=
  match (normalizePath p).splitOn '/' with
  | _ :: top :: _ :: _ :: _ => top = "locks".toList
  | _ => false

/-- What clients may do: lock under clean names, and leave the queues to `TryLock`. -/
def Tame : Action → Prop
  | .tryLock _ name _ _ _ => IsElem name
  | .node (.create p _ _ _ _) => belowLock p = false
  | .node (.set p _ _) => belowLock p = false
  | _ => True

instance : DecidablePred Tame := by
  intro a
  unfold Tame
  split <;> infer_instance

/-- The condition on the steps of a run: tame, and with the counter below `10 ^ 10` after it. -/
def Disciplined (s : Sys) (a : Action) : Prop := Tame a ∧ Bounded s a

instance (s : Sys) (a : Action) : Decidable (Disciplined s a) :=
  inferInstanceAs (Decidable (Tame a ∧ ∀ t ∈ step s a, t.store.seqCounter < 10 ^ 10))

theorem belowLock_of_elems {p x e : Str} (hx : IsElem x) (he : IsElem e)
    (hp : normalizePath p = render (lockDir x ++ [e])) : belowLock p = true := by
  have hsplit : (render (lockDir x ++ [e])).splitOn '/' = [] :: (lockDir x ++ [e]) :=
    splitOn_render (by simp [lockDir]) ((elems_lockDir hx).concat he)
  rw [belowLock, hp, hsplit]
  simp [lockDir]

/-- The store that a lock manager starts from: `/locks` is there, empty and not ephemeral. -/
def LocksReady (st : Store) : Prop :=
  ∃ n, st.nodes.find (render ["locks".toList]) = some n ∧ n.children = [] ∧ n.ephemeral = false

/-! ## 2. The directory of a lock holds its queue and nothing else -/

structure Tidy (s : Sys) : Prop where
  names : ∀ {i c}, s.calls.find i = some c → IsElem c.name
  clean : ∀ {i l}, s.lockOf i = some l → IsElem l.name
  only : ∀ {x e n}, IsElem x → IsElem e → s.store.nodes.find (render (lockDir x ++ [e])) = some n →
    ∃ i l, s.lockOf i = some l ∧ l.path = render (lockDir x ++ [e]) ∧ n.sequential = true ∧
      n.sequence = ticket l ∧ n.data = l.owner

theorem lockDir_ne_nil (x : Str) : lockDir x ≠ [] := List.cons_ne_nil _ _

/-- A queue node of a clean name stands in that name's directory. -/
theorem inQueue_lockDir {ds : List Str} (hq : InQueue l ds) (hn : IsElem l.name) :
    ds = lockDir l.name := by
  refine render_injective hq.elems (elems_lockDir hn) ?_
  rw [← hq.dir, directory, normalizePath_lockPath hn]

/-- Nothing a quiet step does puts a node below a lock's directory, or rewrites one there. -/
theorem quiet_below (h : Tree s.store) (ht : Tidy s) (htame : Tame a) {op : StoreOp}
    (hi : Issues s a op) (hs : Store.step s.store op = some st) {x e : Str} {n' : Node}
    (hx : IsElem x) (he : IsElem e) (hn' : st.nodes.find (render (lockDir x ++ [e])) = some n') :
    ∃ n, s.store.nodes.find (render (lockDir x ++ [e])) = some n ∧ n.Same n' ∧
      n'.data = n.data := by
  rcases h.step_origin hs hn' with ⟨n, hn, hsame, hdata | ⟨p, d, v, rfl, hp⟩⟩ | hnew
  · exact ⟨n, hn, hsame, hdata⟩
  · -- a `Set` comes from outside, and tame ones stay away
    cases hi with
    | node _ =>
      have hbelow := belowLock_of_elems hx he hp
      rw [show belowLock p = false from htame] at hbelow
      cases hbelow
  · obtain ⟨p, d, eph, sid, sq, rfl, hok, -⟩ := hnew
    obtain ⟨e₀, he₀, hp⟩ := create_ok_parent h (elems_lockDir hx) (lockDir_ne_nil x) he hok
    cases hi with
    | node _ =>
      have hbelow := belowLock_of_elems hx he₀ hp
      rw [show belowLock p = false from htame] at hbelow
      cases hbelow
    | mkdir _ id c hc =>
      -- a lock's directory has two elements, not three
      have hname := ht.names hc
      rw [normalizePath_lockPath hname] at hp
      have hlen := congrArg List.length
        (render_injective (elems_lockDir hname) ((elems_lockDir hx).concat he₀) hp)
      simp [lockDir] at hlen
    | failed _ c err herr =>
      rw [Call.createQueueNode, hok] at herr
      cases herr

theorem Tidy.step (h : Queue s) (ht : Tidy s) (htame : Tame a) (hs : step s a = some s') :
    Tidy s' := by
  have hnames : ∀ {i c}, s'.calls.find i = some c → IsElem c.name := by
    intro i c' hc'
    rcases call_of_step hs hc' with ⟨c, hc, hsame⟩ | rfl
    · have hname := ht.names hc
      rw [hsame]
      exact hname
    · exact htame
  have hclean : ∀ {i l}, s'.lockOf i = some l → IsElem l.name := by
    intro i l hl
    rcases lock_of_step hs hl with hl | ⟨c, path, hc, -, rfl⟩
    · exact ht.clean hl
    · exact ht.names hc
  refine ⟨hnames, hclean, ?_⟩
  cases effect_of_step hs with
  | quiet hv hst =>
    intro x e n' hx he hn'
    obtain ⟨n, hn, hsame, hdata⟩ : ∃ n, s.store.nodes.find (render (lockDir x ++ [e])) = some n ∧
        n.Same n' ∧ n'.data = n.data := by
      rcases hst with hst | ⟨op, hi, hst⟩
      · rw [hst] at hn'
        exact ⟨n', hn', .refl n', rfl⟩
      · exact quiet_below h.tree ht htame hi hst hx he hn'
    obtain ⟨i, l, hl, hpath, hsq, hseq, hown⟩ := ht.only hx he hn
    refine ⟨i, l, by rw [hv.lockOf]; exact hl, hpath, ?_, ?_, hdata.trans hown⟩
    · rw [hsame]
      exact hsq
    · rw [hsame]
      exact hseq
  | enqueue id c path hc hpc hok hst hlo hgr _ =>
    obtain ⟨ds, hq, hticket⟩ := createQueueNode_ok hok
    intro x e n' hx he hn'
    have hstep : Store.step s.store (.create (queuePath c.name) c.owner true c.sessionID true) =
        some s'.store := by rw [hst]; rfl
    rcases h.tree.step_origin hstep hn' with ⟨n, hn, hsame, hdata | ⟨p, d, v, hop, -⟩⟩ | hnew
    · obtain ⟨i, l, hl, hpath, hsq, hseq, hown⟩ := ht.only hx he hn
      refine ⟨i, l, lockOf_of_step hs hl, hpath, ?_, ?_, hdata.trans hown⟩
      · rw [hsame]
        exact hsq
      · rw [hsame]
        exact hseq
    · cases hop
    · obtain ⟨p, d, eph, sid, sq, hop, hok', rfl⟩ := hnew
      cases hop
      have hpath : path = render (lockDir x ++ [e]) := Except.ok.inj (hok.symm.trans hok')
      refine ⟨id, c.lockAt path, by rw [hlo, if_pos rfl], hpath, rfl, ?_, rfl⟩
      rw [hticket]
      rfl
  | grant id l hl _ hck hst hlo hgr _ =>
    intro x e n hx he hn
    rw [hst] at hn
    obtain ⟨i, l, hl, hrest⟩ := ht.only hx he hn
    exact ⟨i, l, by rw [hlo]; exact hl, hrest⟩

/-- In such a store no lock has a directory, and so there is nothing in it. -/
theorem nothing_in_lockDir (h : Tree st) (hl : LocksReady st) {x e : Str} (hx : IsElem x)
    (he : IsElem e) : st.nodes.find (render (lockDir x ++ [e])) = none := by
  cases hn : st.nodes.find (render (lockDir x ++ [e])) with
  | none => rfl
  | some n =>
    obtain ⟨r, hr, hleaf, -⟩ := hl
    have hlocks : Elems ["locks".toList] := by
      intro y hy
      rw [List.mem_singleton.mp hy]
      decide
    obtain ⟨p, hp, -⟩ := h.parent (elems_lockDir hx) he hn
    have hnone := h.no_child_of_leaf hlocks (List.cons_ne_nil _ _) hr hleaf hx
    rw [show lockDir x = ["locks".toList] ++ [x] from rfl, hnone] at hp
    cases hp

theorem Tidy.of_fresh (hf : Fresh s) (h : Tree s.store) (hl : LocksReady s.store) : Tidy s := by
  refine ⟨?_, ?_, ?_⟩
  · intro i c hc
    rw [hf.calls, GoMap.find_empty] at hc
    cases hc
  · intro i l hl
    rw [hf.lockOf] at hl
    cases hl
  · intro x e n hx he hn
    rw [nothing_in_lockDir h hl hx he] at hn
    cases hn

/-- **What is found at a call's path is the node the call created**, with the call's data. -/
theorem Tidy.own (h : Queue s) (ht : Tidy s) {i : Nat} (hl : s.lockOf i = some l)
    {n : Node} (hn : s.store.nodes.find l.path = some n) :
    Own s.store l ∧ n.sequence = ticket l ∧ n.data = l.owner := by
  obtain ⟨ds, hq⟩ := h.shape hl
  have hds := inQueue_lockDir hq (ht.clean hl)
  have hpath := hq.path
  rw [hds] at hpath
  have hn' := hn
  rw [hpath] at hn'
  obtain ⟨j, l', hl', hpath', hsq, hseq, hdata⟩ :=
    ht.only (ht.clean hl) (isElem_queueName _) hn'
  -- the ticket is in the path, and no two calls share one
  have hticket : ticket l' = ticket l := ticket_eq hpath'
  obtain rfl := h.distinct hl hl' hticket.symm
  obtain rfl : l = l' := Option.some.inj (hl.symm.trans hl')
  exact ⟨⟨n, hn, hsq, hseq⟩, hseq, hdata⟩

/-! ## 3. Mutual exclusion -/

/-- The call's check has succeeded: `TryLock` has returned the lock, or is about to. -/
def Sys.Acquired (s : Sys) (i : Nat) (l : Lock) : Prop :=
  s.lockOf i = some l ∧ s.granted i = true

theorem insertionSort_eq_cons {xs : List Str} {x : Str} (hx : x ∈ xs) (hmin : ∀ y ∈ xs, x ≤ y) :
    ∃ rest, xs.insertionSort (· ≤ ·) = x :: rest := by
  have hperm := List.perm_insertionSort (· ≤ ·) xs
  cases hs : xs.insertionSort (· ≤ ·) with
  | nil =>
    rw [hs] at hperm
    exact absurd (hperm.mem_iff.mpr hx) List.not_mem_nil
  | cons y rest =>
    have hhead : (xs.insertionSort (· ≤ ·)).head? = some y := by rw [hs]; rfl
    have hy := head?_insertionSort hhead
    have hle : x ≤ y := hmin y hy.1
    have hge : y ≤ x := hy.2 x hx
    exact ⟨rest, by rw [le_antisymm hle hge]⟩

/-- **The holder's node is the least child.** -/
theorem Tidy.least_child (h : Queue s) (ht : Tidy s) {i : Nat} (ha : s.Acquired i l)
    (hmem : l.path ∈ s.store.nodes) :
    l.path = render (lockDir l.name ++ [queueName (ticket l)]) ∧
      ∃ par, s.store.nodes.find (render (lockDir l.name)) = some par ∧
        queueName (ticket l) ∈ par.children ∧ ∀ c ∈ par.children, queueName (ticket l) ≤ c := by
  obtain ⟨hl, hg⟩ := ha
  have hn := ht.clean hl
  obtain ⟨ds, hq⟩ := h.shape hl
  obtain rfl := inQueue_lockDir hq hn
  obtain ⟨n, hnode⟩ := GoMap.mem_iff_find.mp hmem
  obtain ⟨hown, -⟩ := ht.own h hl hnode
  have hnode' := hnode
  rw [hq.path] at hnode'
  obtain ⟨par, hpar, -⟩ := h.tree.parent hq.elems (isElem_queueName _) hnode'
  have hlisted := hown.listed h.tree hq (lockDir_ne_nil _) hpar
  -- every child is some call's own node, so its ticket is not smaller
  have hmin : ∀ c ∈ par.children, queueName (ticket l) ≤ c := by
    intro c hc
    obtain ⟨hce, m, hm⟩ := h.tree.sound hq.elems hpar hc
    obtain ⟨j, l', hl', hpath', hsq, hseq, -⟩ := ht.only hn hce hm
    rw [← hpath'] at hm
    have hown' : Own s.store l' := ⟨m, hm, hsq, hseq⟩
    obtain ⟨ds', hq'⟩ := h.shape hl'
    have hpath'' := hq'.path
    rw [hpath'] at hpath''
    obtain ⟨hds', hce'⟩ := List.append_inj' (render_injective (hq.elems.concat hce)
      (hq'.elems.concat (isElem_queueName _)) hpath'') rfl
    obtain rfl : c = queueName (ticket l') := by simpa using hce'
    rcases eq_or_ne i j with rfl | hij
    · obtain rfl : l = l' := Option.some.inj (hl.symm.trans hl')
      exact le_rfl
    · have hdir : directory l' = directory l := by rw [hq'.dir, hq.dir, hds']
      have hlt := h.order hg hl hown hl' hdir hij hown'
      exact (queueName_lt hlt ((h.issued hl').trans_lt h.bound)).le
  exact ⟨hq.path, par, hpar, hlisted, hmin⟩

theorem Tidy.first_child (h : Queue s) (ht : Tidy s) {i : Nat} (ha : s.Acquired i l)
    (hmem : l.path ∈ s.store.nodes) :
    ∃ rest, s.store.getChildren (lockPath l.name) = .ok (queueName (ticket l) :: rest) := by
  obtain ⟨-, par, hpar, hlisted, hmin⟩ := ht.least_child h ha hmem
  obtain ⟨rest, hrest⟩ := insertionSort_eq_cons hlisted hmin
  refine ⟨rest, ?_⟩
  rw [getChildren, normalizePath_lockPath (ht.clean ha.1), hpar]
  exact congrArg Except.ok hrest

theorem Tidy.getLockHolder (h : Queue s) (ht : Tidy s) {i : Nat} (ha : s.Acquired i l)
    (hmem : l.path ∈ s.store.nodes) : getLockHolder s.store l.name = .ok l.owner := by
  obtain ⟨hpath, par, hpar, hlisted, hmin⟩ := ht.least_child h ha hmem
  have hname := ht.clean ha.1
  rcases getLockHolder_cases h.tree (elems_lockDir hname) (normalizePath_lockPath hname) hpar with
    ⟨hnone, -⟩ | ⟨first, n, hfirst, hleast, hn, hholder⟩
  · rw [hnone] at hlisted
    exact absurd hlisted List.not_mem_nil
  · obtain rfl := le_antisymm (hleast _ hlisted) (hmin _ hfirst)
    rw [← hpath] at hn
    rw [hholder, (ht.own h ha.1 hn).2.2]

/-- Along a disciplined run from a fresh system the queue invariant and tidiness hold. -/
theorem queue_tidy_of_run {s₀ : Sys} (hf : Fresh s₀) (hst : Lts.Reach Store.step newStore s₀.store)
    (hready : LocksReady s₀.store) (hb : s₀.store.seqCounter < 10 ^ 10)
    (hrun : Lts.Run step Disciplined s₀ s) : Queue s ∧ Tidy s := by
  have ht₀ := tree_of_reach hst
  refine hrun.invariant (P := fun s => Queue s ∧ Tidy s)
    ⟨.of_fresh hf ht₀ hb, .of_fresh hf ht₀ hready⟩ ?_
  rintro s a t ⟨hq, ht⟩ ⟨htame, hbound⟩ hs
  exact ⟨hq.step hbound hs, ht.step hq htame hs⟩

/-- The lock manager over a given store, with either delete callback installed. -/
def manager (st : Store) (handler : DeleteHandler) : Sys :=
  setWatchCallbacks (newManager st) handler

theorem fresh_manager (st : Store) (handler : DeleteHandler) : Fresh (manager st handler) :=
  ⟨rfl, rfl⟩

/-- **Mutual exclusion.**  In every state of every disciplined run at most one acquisition of a
name still has its queue node in the store; that node is the first child of `/locks/<name>`, and
`GetLockHolder` returns its owner. -/
theorem lock_mutual_exclusion {handler : DeleteHandler}
    (hst : Lts.Reach Store.step newStore st) (hready : LocksReady st)
    (hb : st.seqCounter < 10 ^ 10) (hrun : Lts.Run step Disciplined (manager st handler) s)
    (name : Str) :
    (∀ i j l l', s.Acquired i l → s.Acquired j l' → l.name = name → l'.name = name →
      l.path ∈ s.store.nodes → l'.path ∈ s.store.nodes → i = j) ∧
    ∀ i l, s.Acquired i l → l.name = name → l.path ∈ s.store.nodes →
      (∃ rest, s.store.getChildren (lockPath name) = .ok (baseName l.path :: rest)) ∧
        getLockHolder s.store name = .ok l.owner := by
  obtain ⟨hq, ht⟩ := queue_tidy_of_run (fresh_manager st handler) hst hready hb hrun
  constructor
  · intro i j l l' ha ha' hn hn' hm hm'
    obtain ⟨n, hnode⟩ := GoMap.mem_iff_find.mp hm
    obtain ⟨n', hnode'⟩ := GoMap.mem_iff_find.mp hm'
    have hdir : directory l' = directory l := by rw [directory, directory, hn, hn']
    exact hq.exclusive ha.2 ha'.2 ha.1 ha'.1 hdir (ht.own hq ha.1 hnode).1
      (ht.own hq ha'.1 hnode').1
  · rintro i l ha rfl hm
    obtain ⟨hpath, -⟩ := ht.least_child hq ha hm
    have hbase : baseName l.path = queueName (ticket l) := by
      rw [hpath]
      exact baseName_concat (isElem_queueName _)
    exact ⟨by rw [hbase]; exact ht.first_child hq ha hm, ht.getLockHolder hq ha hm⟩

/-- A store with an empty `/locks` and nothing else. -/
def locksStore : Store := (newStore.create "/locks".toList [] false [] false).1

theorem reach_locksStore : Lts.Reach Store.step newStore locksStore :=
  .single (.create "/locks".toList [] false [] false) trivial rfl

theorem locksReady_locksStore : LocksReady locksStore :=
  ⟨freshNode newStore "/locks".toList [] false [] false, by decide +kernel, rfl, rfl⟩

/-- Alice locks `x`; Bob queues behind her and ends up waiting. -/
def contention : List Action :=
  [.tryLock 0 "x".toList "alice".toList "s1".toList 5, .advance 0, .advance 0, .advance 0,
    .tryLock 1 "x".toList "bob".toList "s2".toList 5, .advance 1, .advance 1, .advance 0,
    .advance 1, .advance 1, .advance 0]

/-- Alice's lock, as `TryLock` returns it. -/
def aliceLock : Lock :=
  ⟨"x".toList, "alice".toList, "s1".toList, "/locks/x/lock-0000000001".toList, 1⟩

theorem lock_mutual_exclusion_contention :
    ∃ s, Lts.Run step Disciplined (manager locksStore .watchManager) s ∧
      s.Acquired 0 aliceLock ∧ aliceLock.path ∈ s.store.nodes ∧ s.lockOf 1 ≠ none ∧
      getLockHolder s.store "x".toList = .ok "alice".toList := by
  obtain ⟨s, hrun, hl, hg, hmem, hbob⟩ : ∃ s,
      Lts.Run step Disciplined (manager locksStore .watchManager) s ∧
      s.lockOf 0 = some aliceLock ∧ s.granted 0 = true ∧ aliceLock.path ∈ s.store.nodes ∧
      s.lockOf 1 ≠ none :=
    Lts.exists_run contention (by decide +kernel)
  have hb : locksStore.seqCounter < 10 ^ 10 := by decide +kernel
  exact ⟨s, hrun, ⟨hl, hg⟩, hmem, hbob,
    ((lock_mutual_exclusion reach_locksStore locksReady_locksStore hb hrun "x".toList).2
      0 aliceLock ⟨hl, hg⟩ rfl hmem).2⟩

end SkyLock.Lock
