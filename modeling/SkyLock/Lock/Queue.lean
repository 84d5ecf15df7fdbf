/-
# The queue of a lock

The invariant behind mutual exclusion, with NO assumption on lock names and none on what other
clients do with the store.  Every sequential creation takes a fresh value of the store's counter,
so a queue node is identified for good by that value, its TICKET.  The invariant says that a
granted call whose own node is still in the store has the smallest ticket of all calls whose own
node is in the same directory: it was the first child when its check succeeded, whoever came later
drew a larger ticket, and a node that is gone never comes back as that call's own.

Names sort as tickets do only while the counter stays below `10 ^ 10`, the width to which
`formatSequence` pads, so the induction carries that bound.
-/
import SkyLock.Lock.Effect

namespace SkyLock.Lock

open Store Sys Slash

variable {s s' : Sys} {a : Action} {st : Store} {l l' : Lock} {ds : List Str}

/-! ## 1. Names and tickets -/

/-- The base name of the queue node with the given sequence number. -/
def queueName (q : Nat) : Str := "lock-".toList ++ formatSequence q

/-- The number a queue node was created with, read off the end of its path. -/
def ticket (l : Lock) : Nat := Text.value (l.path.reverse.takeWhile (· ≠ '-')).reverse

/-- The directory a lock queues in. -/
def directory (l : Lock) : Str := normalizePath (lockPath l.name)

theorem isElem_queueName (q : Nat) : IsElem (queueName q) :=
  isElem_append_formatSequence (by decide) q

theorem queueName_lt {q q' : Nat} (h : q < q') (hb : q' < 10 ^ 10) :
    queueName q < queueName q' := Text.append_lt_append (formatSequence_lt h hb)

theorem le_of_queueName_le {q q' : Nat} (h : queueName q ≤ queueName q') (hb : q < 10 ^ 10) :
    q ≤ q' := by
  by_contra hlt
  exact absurd (queueName_lt (Nat.lt_of_not_le hlt) hb) (not_lt.mpr h)

theorem ticket_eq {q : Nat} (hl : l.path = render (ds ++ [queueName q])) : ticket l = q := by
  have hdash : '-' ∉ formatSequence q := by
    intro h
    obtain ⟨d, hd, hc⟩ := formatSequence_digits q _ h
    interval_cases d <;> exact absurd hc (by decide)
  have hpath : ∃ u, l.path = u ++ '-' :: formatSequence q := by
    obtain ⟨u, hu, -⟩ := render_concat_cut ds (queueName q)
    have hcut : u ++ '/' :: queueName q = u ++ ("/lock".toList ++ '-' :: formatSequence q) := rfl
    exact ⟨u ++ "/lock".toList, (hl.trans (hu.trans hcut)).trans (List.append_assoc ..).symm⟩
  obtain ⟨u, hu⟩ := hpath
  have hall : ∀ c ∈ (formatSequence q).reverse, decide (c ≠ '-') = true := by
    intro c hc
    simpa using fun h : c = '-' => hdash (h ▸ List.mem_reverse.mp hc)
  rw [ticket, hu, List.reverse_append, List.reverse_cons, List.append_assoc,
    List.takeWhile_append_of_pos hall]
  simp [value_formatSequence]

theorem lockPath_eq (name : Str) :
    lockPath name = '/' :: 'l' :: 'o' :: 'c' :: 'k' :: 's' :: '/' :: name := rfl

theorem lockPath_head (name : Str) : (lockPath name).head? = some '/' := rfl

theorem normalizePath_rooted {p : Str} (h : p.head? = some '/') : normalizePath p = clean p := by
  cases p with
  | nil => cases h
  | cons c p =>
    obtain rfl : c = '/' := by simpa using h
    rw [normalizePath, if_neg (List.cons_ne_nil _ _)]
    rfl

/-- The elements of the directory of a clean name. -/
def lockDir (name : Str) : List Str := ["locks".toList, name]

theorem lockPath_eq_render (name : Str) : lockPath name = render (lockDir name) := by
  have hdir : lockDir name = ["locks".toList] ++ [name] := rfl
  rw [hdir, render_concat (List.cons_ne_nil _ _), render_singleton]
  rfl

theorem elems_lockDir {name : Str} (h : IsElem name) : Elems (lockDir name) := by
  intro e he
  rcases List.mem_cons.mp he with rfl | he
  · decide
  · exact List.mem_singleton.mp he ▸ h

theorem normalizePath_lockPath {name : Str} (h : IsElem name) :
    normalizePath (lockPath name) = render (lockDir name) := by
  rw [lockPath_eq_render]
  exact normalizePath_render (elems_lockDir h)

theorem normalizePath_queuePath {name : Str} (hds : Elems ds)
    (hd : normalizePath (lockPath name) = render ds) :
    normalizePath (queuePath name) = render (ds ++ ["lock-".toList]) := by
  rw [normalizePath_rooted (lockPath_head name)] at hd
  have hq : (queuePath name).head? = some '/' := rfl
  rw [normalizePath_rooted hq]
  exact clean_append_elem (lockPath_head name) (by decide) hds hd

/-- A lock as `TryLock` builds it: its path is a queue node in its name's directory. -/
structure InQueue (l : Lock) (ds : List Str) : Prop where
  elems : Elems ds
  dir : directory l = render ds
  path : l.path = render (ds ++ [queueName (ticket l)])

/-- The creation of a queue node, when it succeeds. -/
theorem createQueueNode_ok {c : Call} {path : Str}
    (hok : (c.createQueueNode st).2 = .ok path) :
    ∃ ds, InQueue (c.lockAt path) ds ∧ ticket (c.lockAt path) = (st.bump true).seqCounter := by
  obtain ⟨ds, hds, hd⟩ := normalizePath_elems (lockPath c.name)
  have hpath : path = render (ds ++ [queueName (st.bump true).seqCounter]) := by
    rw [create_ok_path hok, normalizePath_queuePath hds hd, actualPath_concat]
    rfl
  have ht := ticket_eq (l := c.lockAt path) hpath
  exact ⟨ds, ⟨hds, hd, by rw [ht]; exact hpath⟩, ht⟩

/-- Every call's node is where its name says, whatever the counter does. -/
def Shaped (s : Sys) : Prop := ∀ i l, s.lockOf i = some l → ∃ ds, InQueue l ds

theorem Shaped.step (h : Shaped s) (hs : step s a = some s') : Shaped s' := by
  intro i l hl
  rcases lock_of_step hs hl with hl | ⟨c, path, -, hok, rfl⟩
  · exact h i l hl
  · obtain ⟨ds, hq, -⟩ := createQueueNode_ok hok
    exact ⟨ds, hq⟩

/-! ## 2. A successful check -/

/-- The first element of a sorted copy is a least element. -/
theorem head?_insertionSort {xs : List Str} {x : Str}
    (h : (xs.insertionSort (· ≤ ·)).head? = some x) : x ∈ xs ∧ ∀ y ∈ xs, x ≤ y := by
  obtain ⟨t, ht⟩ : ∃ t, xs.insertionSort (· ≤ ·) = x :: t := by
    cases hs : xs.insertionSort (· ≤ ·) with
    | nil => rw [hs] at h; cases h
    | cons y t => rw [hs] at h; cases h; exact ⟨t, rfl⟩
  have hsort := List.pairwise_insertionSort (· ≤ ·) xs
  have hmem : ∀ y, y ∈ xs ↔ y ∈ x :: t := by
    intro y
    rw [← ht]
    exact (List.perm_insertionSort (· ≤ ·) xs).mem_iff.symm
  rw [ht] at hsort
  refine ⟨(hmem x).mpr List.mem_cons_self, fun y hy => ?_⟩
  rcases List.mem_cons.mp ((hmem y).mp hy) with rfl | hy
  · exact le_rfl
  · exact (List.pairwise_cons.mp hsort).1 y hy

/-- **A successful check finds the call's node in first place.**  It also shows that the lock's
path was written in clean form: otherwise `TrimPrefix` leaves a text with a slash in it, which
is no child's name. -/
theorem check_ok {ourName : Str} (h : Tree st) (hds : Elems ds) (hn : IsElem ourName)
    (hd : normalizePath (lockPath l.name) = render ds) (hp : l.path = render (ds ++ [ourName]))
    (hck : checkLockAcquired st (lockPath l.name) l.path = .ok true) :
    lockPath l.name = render ds ∧ ds ≠ [] ∧
      ∃ par, st.nodes.find (render ds) = some par ∧ ourName ∈ par.children ∧
        ∀ c ∈ par.children, ourName ≤ c := by
  unfold checkLockAcquired getChildren at hck
  rw [hd] at hck
  cases hpar : st.nodes.find (render ds) with
  | none => rw [hpar] at hck; cases hck
  | some par =>
    rw [hpar] at hck
    dsimp only at hck
    split at hck
    · cases hck
    · have hhead := of_decide_eq_true (Except.ok.inj hck)
      obtain ⟨hmem1, hmin1⟩ := head?_insertionSort hhead
      have hperm : ∀ c, c ∈ par.children.insertionSort (· ≤ ·) ↔ c ∈ par.children := fun c =>
        (List.perm_insertionSort (· ≤ ·) par.children).mem_iff
      have hmem := (hperm _).mp hmem1
      have helem := (h.sound hds hpar hmem).1
      rcases Text.trimPrefix_cases l.path (lockPath l.name ++ ['/']) with htp | htrim
      · generalize Text.trimPrefix l.path (lockPath l.name ++ ['/']) = t at hmem helem hmin1 htp
        have hcut : render (ds ++ [ourName]) = lockPath l.name ++ '/' :: t := by
          rw [← hp, htp, List.append_assoc]
          rfl
        obtain ⟨rfl, hu⟩ := eq_of_render_concat_eq hn helem.2.1 hcut
        have hclean : lockPath l.name = render ds := by
          rcases hu with hu | ⟨-, hnil⟩
          · exact hu
          · cases hnil
        refine ⟨hclean, ?_, par, rfl, hmem, fun c hc => hmin1 c ((hperm c).mpr hc)⟩
        rintro rfl
        exact absurd (congrArg List.length hclean) (Nat.ne_of_gt (by simp [lockPath_eq]))
      · -- a path is no path element
        rw [htrim, hp] at helem
        exact absurd List.mem_cons_self helem.2.1

/-- What `GetLockHolder` returns where the directory exists: nothing if it is empty, and else the
data of the child that sorts first. -/
theorem getLockHolder_cases (h : Tree st) {name : Str} {par : Node} (hds : Elems ds)
    (hd : normalizePath (lockPath name) = render ds)
    (hpar : st.nodes.find (render ds) = some par) :
    par.children = [] ∧ getLockHolder st name = .ok [] ∨
      ∃ first n, first ∈ par.children ∧ (∀ c ∈ par.children, first ≤ c) ∧
        st.nodes.find (render (ds ++ [first])) = some n ∧
        getLockHolder st name = .ok n.data := by
  have hchildren : st.getChildren (lockPath name) =
      .ok (par.children.insertionSort (· ≤ ·)) := by
    rw [getChildren, hd, hpar]
  -- sorting the sorted list again changes nothing
  have hsort : (par.children.insertionSort (· ≤ ·)).insertionSort (· ≤ ·) =
      par.children.insertionSort (· ≤ ·) :=
    (List.pairwise_insertionSort (· ≤ ·) par.children).insertionSort_eq
  cases hsorted : par.children.insertionSort (· ≤ ·) with
  | nil =>
    left
    have hperm := List.perm_insertionSort (· ≤ ·) par.children
    rw [hsorted] at hperm
    refine ⟨hperm.nil_eq.symm, ?_⟩
    rw [getLockHolder, hchildren, hsorted]
    rfl
  | cons first rest =>
    right
    have hfirst : first ∈ par.children ∧ ∀ c ∈ par.children, first ≤ c :=
      head?_insertionSort (by rw [hsorted]; rfl)
    obtain ⟨he, n, hn⟩ := h.sound hds hpar hfirst.1
    refine ⟨first, n, hfirst.1, hfirst.2, hn, ?_⟩
    have hpath : normalizePath (lockPath name ++ '/' :: first) = render (ds ++ [first]) := by
      have hhead : (lockPath name ++ '/' :: first).head? = some '/' := rfl
      rw [normalizePath_rooted hhead]
      rw [normalizePath_rooted (lockPath_head name)] at hd
      exact clean_append_elem (lockPath_head name) he hds hd
    rw [hsorted] at hsort hchildren
    rw [getLockHolder, hchildren]
    simp only [hsort, Store.get, hpath, hn]

/-! ## 3. The invariant -/

/-- The node at the lock's path is the one its call created. -/
def Own (st : Store) (l : Lock) : Prop :=
  ∃ n, st.nodes.find l.path = some n ∧ n.sequential = true ∧ n.sequence = ticket l

structure Queue (s : Sys) : Prop where
  tree : Tree s.store
  bound : s.store.seqCounter < 10 ^ 10
  shape : ∀ {i l}, s.lockOf i = some l → ∃ ds, InQueue l ds
  issued : ∀ {i l}, s.lockOf i = some l → ticket l ≤ s.store.seqCounter
  distinct : ∀ {i j l l'}, s.lockOf i = some l → s.lockOf j = some l' → ticket l = ticket l' → i = j
  order : ∀ {i j l l'}, s.granted i = true → s.lockOf i = some l → Own s.store l →
    s.lockOf j = some l' → directory l' = directory l → i ≠ j → Own s.store l' →
      ticket l < ticket l'

/-- The counter stays below the width that `formatSequence` pads to. -/
def Bounded (s : Sys) (a : Action) : Prop := ∀ t ∈ step s a, t.store.seqCounter < 10 ^ 10

/-- A node that is some call's own was so before: new sequential nodes carry new numbers. -/
theorem Own.of_step (h : Tree st) {op : StoreOp} {st' : Store} (hs : Store.step st op = some st')
    (hb : st.seqCounter < 10 ^ 10) (hl : ticket l ≤ st.seqCounter) (ho : Own st' l) : Own st l := by
  obtain ⟨n', hn', hsq, hseq⟩ := ho
  rcases h.step_origin hs hn' with ⟨n, hn, hsame, -⟩ | ⟨p, d, eph, sid, sq, -, -, rfl⟩
  · rw [hsame] at hsq hseq
    exact ⟨n, hn, hsq, hseq⟩
  · have hsq' : sq = true := hsq
    have hseq' : (st.bump sq).seqCounter = ticket l := hseq
    rw [hsq', bump, if_pos rfl] at hseq'
    dsimp only at hseq'
    omega

/-- A directory's own nodes are among its listed children. -/
theorem Own.listed (h : Tree st) (hq : InQueue l ds) (hne : ds ≠ []) (ho : Own st l) {par : Node}
    (hpar : st.nodes.find (render ds) = some par) : queueName (ticket l) ∈ par.children := by
  obtain ⟨n, hn, -⟩ := ho
  rw [hq.path] at hn
  exact h.listed hq.elems (isElem_queueName _) hne hn hpar

theorem seqCounter_mono {op : StoreOp} {st' : Store} (hb : st.seqCounter < 10 ^ 10)
    (hs : Store.step st op = some st') : st.seqCounter ≤ st'.seqCounter := by
  rcases step_seqCounter hs with h | h
  · exact h.ge
  · omega

/-- **What a quiet step keeps.** -/
theorem Queue.quiet (h : Queue s) (hv : SameView s s') (hb : s'.store.seqCounter < 10 ^ 10)
    (hst : s'.store = s.store ∨ ∃ op, Store.step s.store op = some s'.store) : Queue s' := by
  have hmono : s.store.seqCounter ≤ s'.store.seqCounter := by
    rcases hst with hst | ⟨op, hst⟩
    · rw [hst]
    · exact seqCounter_mono h.bound hst
  have hown : ∀ {i l}, s.lockOf i = some l → Own s'.store l → Own s.store l := by
    intro i l hl ho
    rcases hst with hst | ⟨op, hst⟩
    · rw [← hst]
      exact ho
    · exact ho.of_step h.tree hst h.bound (h.issued hl)
  constructor
  · rcases hst with hst | ⟨op, hst⟩
    · rw [hst]
      exact h.tree
    · exact h.tree.step hst
  · exact hb
  · intro i l hl
    rw [hv.lockOf] at hl
    exact h.shape hl
  · intro i l hl
    rw [hv.lockOf] at hl
    exact (h.issued hl).trans hmono
  · intro i j l l' hl hl'
    rw [hv.lockOf] at hl hl'
    exact h.distinct hl hl'
  · intro i j l l' hg hl ho hl' hd hij ho'
    rw [hv.lockOf] at hl hl'
    rw [hv.granted] at hg
    exact h.order hg hl (hown hl ho) hl' hd hij (hown hl' ho')

/-- A new queue node takes the next number. -/
theorem Queue.seqCounter_of_ok (h : Queue s) {c : Call} {path : Str}
    (hok : (c.createQueueNode s.store).2 = .ok path) :
    (c.createQueueNode s.store).1.seqCounter = (s.store.bump true).seqCounter ∧
      (s.store.bump true).seqCounter = s.store.seqCounter + 1 := by
  refine ⟨create_seqCounter_ok hok, ?_⟩
  have := h.bound
  simp only [bump, if_true]
  omega

/-- **A new queue node comes last.** -/
theorem Queue.enqueue (h : Queue s) {id : Nat} {c : Call} {path : Str}
    (hc : s.calls.find id = some c) (hpc : c.pc = .enqueue)
    (hok : (c.createQueueNode s.store).2 = .ok path)
    (hst : s'.store = (c.createQueueNode s.store).1)
    (hlo : ∀ i, s'.lockOf i = if i = id then some (c.lockAt path) else s.lockOf i)
    (hgr : ∀ i, s'.granted i = s.granted i) (hb : s'.store.seqCounter < 10 ^ 10) : Queue s' := by
  obtain ⟨ds, hq, ht⟩ := createQueueNode_ok hok
  have hstep : Store.step s.store (.create (queuePath c.name) c.owner true c.sessionID true) =
      some s'.store := by rw [hst]; rfl
  obtain ⟨hcount, hnew⟩ := h.seqCounter_of_ok hok
  rw [← hst] at hcount
  have hcases : ∀ {i l}, s'.lockOf i = some l →
      i = id ∧ l = c.lockAt path ∨ i ≠ id ∧ s.lockOf i = some l := by
    intro i l hl
    rw [hlo] at hl
    split at hl
    · rename_i hi
      exact Or.inl ⟨hi, (Option.some.inj hl).symm⟩
    · rename_i hi
      exact Or.inr ⟨hi, hl⟩
  have hown : ∀ {i l}, s.lockOf i = some l → Own s'.store l → Own s.store l :=
    fun hl ho => ho.of_step h.tree hstep h.bound (h.issued hl)
  have hgid : s.granted id = false := by rw [granted_of_find hc, hpc]; rfl
  constructor
  · exact h.tree.step hstep
  · exact hb
  · intro i l hl
    rcases hcases hl with ⟨-, rfl⟩ | ⟨-, hl⟩
    · exact ⟨ds, hq⟩
    · exact h.shape hl
  · intro i l hl
    rcases hcases hl with ⟨-, rfl⟩ | ⟨-, hl⟩
    · rw [ht, hcount]
    · have := h.issued hl
      omega
  · intro i j l l' hl hl' heq
    rcases hcases hl with ⟨hi, rfl⟩ | ⟨-, hl⟩
    · rcases hcases hl' with ⟨hj, rfl⟩ | ⟨-, hl'⟩
      · rw [hi, hj]
      · have := h.issued hl'
        omega
    · rcases hcases hl' with ⟨-, rfl⟩ | ⟨-, hl'⟩
      · have := h.issued hl
        omega
      · exact h.distinct hl hl' heq
  · intro i j l l' hg hl ho hl' hd hij ho'
    rw [hgr] at hg
    rcases hcases hl with ⟨rfl, -⟩ | ⟨-, hl⟩
    · rw [hgid] at hg
      cases hg
    · rcases hcases hl' with ⟨-, rfl⟩ | ⟨-, hl'⟩
      · have := h.issued hl
        omega
      · exact h.order hg hl (hown hl ho) hl' hd hij (hown hl' ho')

/-- A call whose check succeeds has the least ticket in its directory. -/
theorem Queue.least (h : Queue s) {i j : Nat} (hl : s.lockOf i = some l)
    (hck : checkLockAcquired s.store (lockPath l.name) l.path = .ok true)
    (hl' : s.lockOf j = some l') (hd : directory l' = directory l) (hij : i ≠ j)
    (ho' : Own s.store l') : ticket l < ticket l' := by
  obtain ⟨ds, hq⟩ := h.shape hl
  obtain ⟨ds', hq'⟩ := h.shape hl'
  obtain rfl : ds' = ds := render_injective hq'.elems hq.elems (by rw [← hq'.dir, hd, hq.dir])
  obtain ⟨-, hne, par, hpar, -, hmin⟩ :=
    check_ok h.tree hq.elems (isElem_queueName _) hq.dir hq.path hck
  have hle := le_of_queueName_le (hmin _ (ho'.listed h.tree hq' hne hpar))
    ((h.issued hl).trans_lt h.bound)
  exact lt_of_le_of_ne hle fun heq => hij (h.distinct hl hl' heq)

/-- **A grant goes to the least ticket**, and so nobody else can have been granted and still be
there: that call would be the smaller one. -/
theorem Queue.grant (h : Queue s) {id : Nat} (hl : s.lockOf id = some l)
    (hck : checkLockAcquired s.store (lockPath l.name) l.path = .ok true)
    (hst : s'.store = s.store) (hlo : ∀ i, s'.lockOf i = s.lockOf i)
    (hgr : ∀ i, s'.granted i = if i = id then true else s.granted i) : Queue s' := by
  constructor
  · rw [hst]
    exact h.tree
  · rw [hst]
    exact h.bound
  · intro i l hl
    rw [hlo] at hl
    exact h.shape hl
  · intro i l hl
    rw [hlo] at hl
    rw [hst]
    exact h.issued hl
  · intro i j l l' hl hl'
    rw [hlo] at hl hl'
    exact h.distinct hl hl'
  · intro i j l₁ l₂ hg hl₁ ho₁ hl₂ hd hij ho₂
    rw [hlo] at hl₁ hl₂
    rw [hst] at ho₁ ho₂
    rw [hgr] at hg
    split at hg
    · rename_i hi
      subst hi
      obtain rfl : l = l₁ := Option.some.inj (hl.symm.trans hl₁)
      exact h.least hl hck hl₂ hd hij ho₂
    · exact h.order hg hl₁ ho₁ hl₂ hd hij ho₂

theorem Queue.step (h : Queue s) (hb : Bounded s a) (hs : step s a = some s') : Queue s' := by
  have hb' := hb s' hs
  cases effect_of_step hs with
  | quiet hv hst =>
    refine h.quiet hv hb' ?_
    rcases hst with hst | ⟨op, -, hst⟩
    · exact Or.inl hst
    · exact Or.inr ⟨op, hst⟩
  | enqueue id c path hc hpc hok hst hlo hgr _ => exact h.enqueue hc hpc hok hst hlo hgr hb'
  | grant id l hl _ hck hst hlo hgr _ => exact h.grant hl hck hst hlo hgr

/-- The system before its first call. -/
structure Fresh (s : Sys) : Prop where
  calls : s.calls = ∅
  grants : s.grants = []

theorem Fresh.lockOf (h : Fresh s) (i : Nat) : s.lockOf i = none := by
  simp [Sys.lockOf, h.calls]

theorem Fresh.granted (h : Fresh s) (i : Nat) : s.granted i = false := by
  simp [Sys.granted, h.calls]

theorem Queue.of_fresh (hf : Fresh s) (ht : Tree s.store) (hb : s.store.seqCounter < 10 ^ 10) :
    Queue s := by
  refine ⟨ht, hb, ?_, ?_, ?_, ?_⟩
  · intro i l hl
    rw [hf.lockOf] at hl
    cases hl
  · intro i l hl
    rw [hf.lockOf] at hl
    cases hl
  · intro i j l l' hl
    rw [hf.lockOf] at hl
    cases hl
  · intro i j l l' hg
    rw [hf.granted] at hg
    cases hg

/-- **At most one granted call of a directory still has its own node.** -/
theorem Queue.exclusive (h : Queue s) {i j : Nat} (hgi : s.granted i = true)
    (hgj : s.granted j = true) (hl : s.lockOf i = some l) (hl' : s.lockOf j = some l')
    (hd : directory l' = directory l) (ho : Own s.store l) (ho' : Own s.store l') : i = j := by
  by_contra hij
  have h1 := h.order hgi hl ho hl' hd hij ho'
  have h2 := h.order hgj hl' ho' hl hd.symm (Ne.symm hij) ho
  omega

end SkyLock.Lock
