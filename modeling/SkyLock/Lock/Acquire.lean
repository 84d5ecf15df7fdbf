/-
# Acquiring a lock that nobody wants

One call of `TryLock` with nothing else going on.  It makes the lock's directory if there is none,
ignoring the result, then its queue node, and then looks whether that node comes first.

So it needs `/locks`, which is made by nobody: not by `NewStore`, not by the lock manager and not by
main.  From a new store a lock with a clean name can never be acquired (`nothing_is_locked`).  What
else it needs is that the directory, if it is there, is not ephemeral and has no child whose name
sorts before that of the new queue node; such a child need not be a queue node.
`tryLock_alone_iff` is the exact condition.
-/
import SkyLock.Lock.WakeUp
import SkyLock.Lock.Release

namespace SkyLock.Lock

open Store Sys Slash

variable {s s' : Sys} {a : Action} {st : Store} {name owner sid path : Str} {timeout : Int}
  {i : Nat}

/-! ## 1. A call on its own

The lemmas follow the program counter backwards: what decides, at each point, whether the call will
return a lock. -/

/-- The call `i` has returned a lock, and the queue node of that lock is in the store. -/
def ReturnedLock (i : Nat) (s : Sys) : Prop :=
  ∃ c l, s.calls.find i = some c ∧ c.pc = .queued l (.done none) ∧ l.path ∈ s.store.nodes

/-- The call `i` will return such a lock if it runs without interference. -/
def WillReturnLock (i : Nat) (s : Sys) : Prop :=
  Lts.ReachesBy step (.advance i) (ReturnedLock i) s

theorem step_delete_isSome (st : Store) (p : Str) (v : Int) :
    ∃ st', Store.step st (.delete p v) = some st' := by
  simp only [Store.step]
  split <;> exact ⟨_, rfl⟩

section Alone

variable {t : Sys} {c : Call} {l : Lock}

theorem returnedLock_setCall : ReturnedLock i (t.setCall i c) ↔
    ∃ l, c.pc = .queued l (.done none) ∧ l.path ∈ t.store.nodes := by
  unfold ReturnedLock
  simp only [setCall, GoMap.find_insert, if_true, Option.some.injEq]
  constructor
  · rintro ⟨c', l, rfl, hpc, hmem⟩
    exact ⟨l, hpc, hmem⟩
  · rintro ⟨l, hpc, hmem⟩
    exact ⟨c, l, rfl, hpc, hmem⟩

theorem step_advance : step (t.setCall i c) (.advance i) = (t.setCall i c).advance i c := by
  simp only [step, setCall, GoMap.find_insert, if_true]

theorem willReturn_of_advance (h : (t.setCall i c).advance i c = some s')
    (hpc : ∀ l, c.pc ≠ .queued l (.done none)) :
    WillReturnLock i (t.setCall i c) ↔ WillReturnLock i s' := by
  refine Lts.reachesBy_of_step (step_advance.trans h) fun hret => ?_
  obtain ⟨l, hl, -⟩ := returnedLock_setCall.mp hret
  exact hpc l hl

theorem willReturn_of_stuck (h : (t.setCall i c).advance i c = none) :
    WillReturnLock i (t.setCall i c) ↔
      ∃ l, c.pc = .queued l (.done none) ∧ l.path ∈ t.store.nodes :=
  (Lts.reachesBy_of_stuck (step_advance.trans h)).trans returnedLock_setCall

theorem willReturn_failed {e : LockErr} (hpc : c.pc = .failed e) :
    ¬ WillReturnLock i (t.setCall i c) := by
  rw [willReturn_of_stuck (by simp only [Sys.advance, hpc])]
  simp [hpc]

theorem willReturn_done {err : Option LockErr} (hpc : c.pc = .queued l (.done err)) :
    WillReturnLock i (t.setCall i c) ↔ err = none ∧ l.path ∈ t.store.nodes := by
  rw [willReturn_of_stuck (by simp only [Sys.advance, hpc, advanceQueued])]
  simp [hpc, and_assoc]

theorem willReturn_record (hpc : c.pc = .queued l (.record false)) :
    WillReturnLock i (t.setCall i c) ↔ l.path ∈ t.store.nodes := by
  have hadv : (t.setCall i c).advance i c = some (({ t with
      locks := t.locks.insert l.path l }.setCall i c).goto i c (.queued l (.done none))) := by
    simp only [Sys.advance, hpc, advanceQueued]
    rfl
  rw [willReturn_of_advance hadv (by simp [hpc]), goto, willReturn_done rfl]
  exact and_iff_right rfl

theorem willReturn_abort {e : LockErr} (hpc : c.pc = .queued l (.abort e false)) :
    ¬ WillReturnLock i (t.setCall i c) := by
  obtain ⟨st, hst⟩ := step_delete_isSome (t.setCall i c).store l.path (-1)
  have hadv : (t.setCall i c).advance i c =
      some (((t.setCall i c).ran (.delete l.path (-1)) st).goto
        i c (.queued l (.done (some e)))) := by
    simp only [Sys.advance, hpc, advanceQueued]
    rw [runOp_eq_some.mpr ⟨st, hst, rfl⟩]
    rfl
  rw [willReturn_of_advance hadv (by simp [hpc]), goto, willReturn_done rfl]
  simp

/-- Nobody signals a call that is alone. -/
theorem willReturn_register (hpc : c.pc = .queued l .register) (hsignal : c.signal = false) :
    ¬ WillReturnLock i (t.setCall i c) := by
  have hadv : (t.setCall i c).advance i c =
      some (((t.setCall i c).setWaiters l.name (t.waitersOf l.name ++ [i])).goto i c
        (.queued l .waiting)) := by
    simp only [Sys.advance, hpc, advanceQueued]
    rfl
  rw [willReturn_of_advance hadv (by simp [hpc]), goto,
    willReturn_of_stuck (by simp [Sys.advance, advanceQueued, hsignal])]
  simp

theorem willReturn_check (hpc : c.pc = .queued l .check) (hsignal : c.signal = false) :
    WillReturnLock i (t.setCall i c) ↔
      checkLockAcquired t.store (lockPath l.name) l.path = .ok true ∧ l.path ∈ t.store.nodes := by
  have hadv : (t.setCall i c).advance i c = some ((t.setCall i c).afterCheck i c l false
      (if c.timeout < 0 then .abort .timeout false else .register)) := by
    simp only [Sys.advance, hpc, advanceQueued]
  rw [willReturn_of_advance hadv (by simp [hpc]), afterCheck]
  have hstore : (t.setCall i c).store = t.store := rfl
  rw [hstore]
  split
  · rename_i e he
    rw [goto, he]
    exact iff_of_false (willReturn_abort rfl) (by simp)
  · rename_i hok
    rw [goto, willReturn_record rfl, hok]
    exact (and_iff_right rfl).symm
  · rename_i hok
    rw [hok]
    refine iff_of_false ?_ (by simp)
    by_cases htimeout : c.timeout < 0
    · rw [if_pos htimeout]
      exact willReturn_abort rfl
    · rw [if_neg htimeout]
      exact willReturn_register rfl hsignal

/-- What the call needs of the store when it creates its queue node: that this succeeds and that the
new node passes the check. -/
def Call.Gets (c : Call) (st : Store) : Prop :=
  ∃ path, (c.createQueueNode st).2 = .ok path ∧ path ∈ (c.createQueueNode st).1.nodes ∧
    checkLockAcquired (c.createQueueNode st).1 (lockPath c.name) path = .ok true

/-- Where the call goes from there. -/
def Call.afterEnqueue (c : Call) (st : Store) : Pc :=
  match (c.createQueueNode st).2 with
  | .error e => .failed (.store e)
  | .ok path => .queued (c.lockAt path) .check

theorem willReturn_enqueue (hpc : c.pc = .enqueue) (hsignal : c.signal = false) :
    WillReturnLock i (t.setCall i c) ↔ c.Gets t.store := by
  have hadv : (t.setCall i c).advance i c = some (((t.setCall i c).ran
      (.create (queuePath c.name) c.owner true c.sessionID true)
      (c.createQueueNode t.store).1).goto i c (c.afterEnqueue t.store)) := by
    simp only [Sys.advance, hpc]
    rw [runOp_eq_some.mpr ⟨(c.createQueueNode t.store).1, rfl, rfl⟩, Option.map_some]
    refine congrArg some ?_
    unfold Call.afterEnqueue Call.createQueueNode
    dsimp only [setCall]
    cases (t.store.create (queuePath c.name) c.owner true c.sessionID true).2 <;> rfl
  rw [willReturn_of_advance hadv (by simp [hpc]), goto]
  unfold Call.Gets Call.afterEnqueue
  split
  · rename_i e he
    rw [he]
    exact iff_of_false (willReturn_failed rfl) (by simp)
  · rename_i path hok
    have hcheck : checkLockAcquired (c.createQueueNode t.store).1 (lockPath c.name) path =
          .ok true ∧ path ∈ (c.createQueueNode t.store).1.nodes ↔
        ∃ path, (c.createQueueNode t.store).2 = .ok path ∧
          path ∈ (c.createQueueNode t.store).1.nodes ∧
          checkLockAcquired (c.createQueueNode t.store).1 (lockPath c.name) path = .ok true := by
      rw [hok]
      simp only [Except.ok.injEq, exists_eq_left', and_comm]
    exact Iff.trans (willReturn_check rfl hsignal) hcheck

/-- The store in which `TryLock` creates its queue node. -/
def ensured (st : Store) (name : Str) : Store :=
  if st.existsPath (lockPath name) then st else (st.create (lockPath name) [] false [] false).1

theorem willReturn_mkdir (hpc : c.pc = .mkdir) (hsignal : c.signal = false) :
    WillReturnLock i (t.setCall i c) ↔
      c.Gets (t.store.create (lockPath c.name) [] false [] false).1 := by
  have hadv : (t.setCall i c).advance i c = some (((t.setCall i c).ran
      (.create (lockPath c.name) [] false [] false)
      (t.store.create (lockPath c.name) [] false [] false).1).goto i c .enqueue) := by
    simp only [Sys.advance, hpc]
    rw [runOp_eq_some.mpr ⟨(t.store.create (lockPath c.name) [] false [] false).1, rfl, rfl⟩,
      Option.map_some]
  exact (willReturn_of_advance hadv (by simp [hpc])).trans (willReturn_enqueue rfl hsignal)

theorem willReturn_ensure (hpc : c.pc = .ensure) (hsignal : c.signal = false) :
    WillReturnLock i (t.setCall i c) ↔ c.Gets (ensured t.store c.name) := by
  have hadv : (t.setCall i c).advance i c = some ((t.setCall i c).goto i c
      (if t.store.existsPath (lockPath c.name) then .enqueue else .mkdir)) := by
    simp only [Sys.advance, hpc]
    rfl
  rw [willReturn_of_advance hadv (by simp [hpc]), goto, ensured]
  split
  · exact willReturn_enqueue rfl hsignal
  · exact willReturn_mkdir rfl hsignal

end Alone

/-! ## 2. What the store must be like -/

/-- `/locks` is there and not ephemeral; the lock's directory, if it is there, is not ephemeral
either, and all its children sort after the next queue node. -/
def Free (st : Store) (name : Str) : Prop :=
  (∃ n, st.nodes.find (render ["locks".toList]) = some n ∧ n.ephemeral = false) ∧
    ∀ n, st.nodes.find (render (lockDir name)) = some n →
      n.ephemeral = false ∧ ∀ e ∈ n.children, queueName (st.bump true).seqCounter < e

theorem elems_locks : Elems ["locks".toList] := by
  intro e he
  rw [List.mem_singleton.mp he]
  decide

section Free

variable {c : Call}

/-- The creation of a queue node. -/
theorem createQueueNode_eq (st : Store) (hname : IsElem c.name) :
    c.createQueueNode st =
      match st.nodes.find (render (lockDir c.name)) with
      | none => (st, .error .nodeNotFound)
      | some par =>
        if par.ephemeral then (st, .error .ephemeralParent)
        else
          let q := queueName (st.bump true).seqCounter
          let path := render (lockDir c.name ++ [q])
          let node := freshNode (st.bump true) path c.owner true c.sessionID true
          if path ∈ st.nodes then (st.bump true, .error .nodeExists)
          else
            ({ st.bump true with
                nodes := (st.nodes.insert path node).insert (render (lockDir c.name))
                  { par with children := par.children ++ [q] } }, .ok path) :=
  create_below (elems_lockDir hname) (by decide)
    (normalizePath_queuePath (elems_lockDir hname) (normalizePath_lockPath hname)) _ _ _ _

theorem not_gets_of_error {e : StoreErr} (herr : (c.createQueueNode st).2 = .error e) :
    ¬ c.Gets st :=
  fun ⟨_, hok, _⟩ => absurd (herr.symm.trans hok) nofun

theorem gets_iff_check {path : Str} (hok : (c.createQueueNode st).2 = .ok path)
    (hmem : path ∈ (c.createQueueNode st).1.nodes) :
    c.Gets st ↔
      checkLockAcquired (c.createQueueNode st).1 (lockPath c.name) path = .ok true := by
  refine ⟨fun ⟨path', hok', _, hck⟩ => ?_, fun hck => ⟨path, hok, hmem, hck⟩⟩
  obtain rfl := Except.ok.inj (hok.symm.trans hok')
  exact hck

/-- With the directory there, the new node comes first or the call waits in vain. -/
theorem gets_iff_of_dir (h : Tree st) (hname : IsElem c.name) {par : Node}
    (hpar : st.nodes.find (render (lockDir c.name)) = some par) :
    c.Gets st ↔
      par.ephemeral = false ∧ ∀ e ∈ par.children, queueName (st.bump true).seqCounter < e := by
  have hdir := elems_lockDir hname
  have helem := isElem_queueName (st.bump true).seqCounter
  have hcreate := createQueueNode_eq st hname
  rw [hpar] at hcreate
  dsimp only at hcreate
  by_cases heph : par.ephemeral = true
  · rw [if_pos heph] at hcreate
    refine iff_of_false (not_gets_of_error (congrArg Prod.snd hcreate)) fun hfree => ?_
    exact absurd (heph.symm.trans hfree.1) nofun
  rw [if_neg heph] at hcreate
  have hkeep : par.ephemeral = false := Bool.eq_false_iff.mpr heph
  by_cases hin : render (lockDir c.name ++ [queueName (st.bump true).seqCounter]) ∈ st.nodes
  · rw [if_pos hin] at hcreate
    obtain ⟨n, hn⟩ := GoMap.mem_iff_find.mp hin
    refine iff_of_false (not_gets_of_error (congrArg Prod.snd hcreate)) fun hfree => ?_
    exact lt_irrefl _ (hfree.2 _ (h.listed hdir helem (lockDir_ne_nil _) hn hpar))
  rw [if_neg hin] at hcreate
  -- the node is created, as the last child
  generalize hpath : render (lockDir c.name ++ [queueName (st.bump true).seqCounter]) = path
    at hcreate hin
  have hok : (c.createQueueNode st).2 = .ok path := by rw [hcreate]
  have htree : Tree (c.createQueueNode st).1 := h.create _ _ _ _ _
  obtain ⟨ds, hq, -⟩ := createQueueNode_ok hok
  obtain rfl := inQueue_lockDir hq hname
  have hbase : baseName (c.lockAt path).path = queueName (st.bump true).seqCounter := by
    rw [Call.lockAt, ← hpath]
    exact baseName_concat helem
  have hdirAfter : (c.createQueueNode st).1.nodes.find (render (lockDir c.name)) =
      some { par with children := par.children ++ [queueName (st.bump true).seqCounter] } := by
    rw [hcreate, GoMap.find_insert, if_pos rfl]
  have hmem : path ∈ (c.createQueueNode st).1.nodes := by
    rw [hcreate]
    exact Finmap.mem_insert.mpr (.inr (Finmap.mem_insert.mpr (.inl rfl)))
  have hcheck := (check_eq_true_iff htree hq).trans (firstChild_iff hq)
  refine (gets_iff_check hok hmem).trans (hcheck.trans ?_)
  rw [hbase]
  constructor
  · rintro ⟨par', hpar', -, hmin⟩
    obtain rfl := Option.some.inj (hdirAfter.symm.trans hpar')
    refine ⟨hkeep, fun e he => lt_of_le_of_ne (hmin e (List.mem_append_left _ he)) ?_⟩
    rintro rfl
    obtain ⟨-, n, hn⟩ := h.sound hdir hpar he
    rw [hpath] at hn
    exact hin (GoMap.mem_of_find hn)
  · rintro ⟨-, hafter⟩
    refine ⟨_, hdirAfter, List.mem_append_right _ (List.mem_singleton.mpr rfl), fun e he => ?_⟩
    rcases List.mem_append.mp he with he | he
    · exact (hafter e he).le
    · exact (List.mem_singleton.mp he).ge

/-- The directory is created wherever `/locks` allows it. -/
theorem find_created_dir (hname : IsElem name) (hnew : render (lockDir name) ∉ st.nodes)
    {par : Node} (hpar : st.nodes.find (render ["locks".toList]) = some par)
    (hkeep : par.ephemeral = false) :
    (st.create (lockPath name) [] false [] false).1.nodes.find (render (lockDir name)) =
      some (freshNode st (render (lockDir name)) [] false [] false) := by
  have hne : render (lockDir name) ≠ render ["locks".toList] := render_concat_ne elems_locks hname
  have hleaf : render (["locks".toList] ++ [leafName st name false]) = render (lockDir name) := rfl
  rw [create_below elems_locks hname (normalizePath_lockPath hname), hpar]
  dsimp only
  rw [if_neg (by simp [hkeep]), hleaf, if_neg hnew, GoMap.find_insert, if_neg hne,
    GoMap.find_insert, if_pos rfl]
  rfl

/-- Without the directory, everything depends on `/locks`. -/
theorem gets_ensured_iff (h : Tree st) (hname : IsElem c.name) :
    c.Gets (ensured st c.name) ↔ Free st c.name := by
  have hnorm := normalizePath_lockPath hname
  unfold ensured existsPath
  rw [hnorm]
  by_cases hd : render (lockDir c.name) ∈ st.nodes
  · obtain ⟨par, hpar⟩ := GoMap.mem_iff_find.mp hd
    rw [if_pos (decide_eq_true hd), gets_iff_of_dir h hname hpar]
    constructor
    · intro hfree
      refine ⟨h.parent elems_locks hname hpar, fun n hn => ?_⟩
      obtain rfl := Option.some.inj (hpar.symm.trans hn)
      exact hfree
    · exact fun hfree => hfree.2 par hpar
  · have hnone : st.nodes.find (render (lockDir c.name)) = none := GoMap.find_eq_none.mpr hd
    rw [if_neg (by simpa using hd)]
    by_cases hlocks : ∃ par, st.nodes.find (render ["locks".toList]) = some par ∧
        par.ephemeral = false
    · obtain ⟨par, hpar, hkeep⟩ := hlocks
      have hdir := find_created_dir hname hd hpar hkeep
      rw [gets_iff_of_dir (h.create _ _ _ _ _) hname hdir]
      refine iff_of_true ⟨rfl, fun e he => absurd he List.not_mem_nil⟩ ⟨⟨par, hpar, hkeep⟩, ?_⟩
      intro n hn
      exact absurd (hnone.symm.trans hn) nofun
    · -- the directory is refused, and then the queue node is too
      refine iff_of_false ?_ fun hfree => hlocks hfree.1
      have hrefused : (st.create (lockPath c.name) [] false [] false).1 = st := by
        rw [create_below elems_locks hname hnorm]
        cases hpar : st.nodes.find (render ["locks".toList]) with
        | none => rfl
        | some par =>
          have heph : par.ephemeral = true := by
            by_contra hkeep
            exact hlocks ⟨par, hpar, Bool.eq_false_iff.mpr hkeep⟩
          dsimp only
          rw [if_pos heph]
      rw [hrefused]
      rintro ⟨path, hok, -⟩
      rw [createQueueNode_eq st hname, hnone] at hok
      exact absurd hok nofun

end Free

/-! ## 3. The exact condition -/

/-- `TryLock`, called in the state `s` and run without interference, returns a lock whose queue node
is in the store. -/
def TryLockReturns (s : Sys) (i : Nat) (name owner sessionID : Str) (timeout : Int) : Prop :=
  ∃ t, step s (.tryLock i name owner sessionID timeout) = some t ∧ WillReturnLock i t

theorem tryLockReturns_iff (h : Tree s.store) (hname : IsElem name) (hi : i ∉ s.calls) :
    TryLockReturns s i name owner sid timeout ↔ Free s.store name := by
  have hstep : step s (.tryLock i name owner sid timeout) =
      some (s.setCall i ⟨name, owner, sid, timeout, .ensure, false⟩) := if_neg hi
  unfold TryLockReturns
  rw [hstep]
  simp only [Option.some.injEq, exists_eq_left']
  rw [willReturn_ensure rfl rfl]
  exact gets_ensured_iff h hname

/-- **When an uncontended lock is granted.**  In every reachable state, for every clean lock name
and every owner, session and timeout: `TryLock`, run without interference, returns a lock whose
queue node is in the store if and only if `/locks` is there and not ephemeral, and the lock's
directory, if it is there, is not ephemeral and has only children that sort after the new queue
node. -/
theorem uncontended_lock_granted_iff {handler : DeleteHandler}
    (hs : Lts.Reach step (manager newStore handler) s) (hname : IsElem name) (hi : i ∉ s.calls) :
    TryLockReturns s i name owner sid timeout ↔ Free s.store name :=
  tryLockReturns_iff (recorded_of_reach hs).tree hname hi

/-- The empty name is not clean: its directory is `/locks` itself, and so a `TryLock` of it makes
`/locks`.  After that `x` can be locked. -/
theorem uncontended_lock_granted_after_emptyName :
    ∃ s, Lts.Reach step (manager newStore .watchManager) s ∧
      TryLockReturns s 1 "x".toList "bob".toList "s2".toList 5 := by
  obtain ⟨s, hs, hlocks, hdir, hnew⟩ : ∃ s, Lts.Reach step (manager newStore .watchManager) s ∧
      (s.store.nodes.find (render ["locks".toList])).map Node.ephemeral = some false ∧
      s.store.nodes.find (render (lockDir "x".toList)) = none ∧ 1 ∉ s.calls :=
    Lts.exists_reach (.tryLock 0 [] "alice".toList "s1".toList (-1) ::
      List.replicate 5 (.advance 0)) (by decide +kernel)
  obtain ⟨n, hn, hkeep⟩ := Option.map_eq_some_iff.mp hlocks
  refine ⟨s, hs, (uncontended_lock_granted_iff hs (by decide) hnew).mpr ⟨⟨n, hn, hkeep⟩, ?_⟩⟩
  intro n' hn'
  exact absurd (hdir.symm.trans hn') nofun

/-- **The first lock is refused.**  Nobody has locked anything; `TryLock` of `x` ends with
`ErrNodeNotFound`. -/
theorem first_lock_refused :
    IsElem "x".toList ∧
      (manager newStore .watchManager).store.nodes.find (render (lockDir "x".toList)) = none ∧
      ¬ TryLockReturns (manager newStore .watchManager) 0 "x".toList "alice".toList "s1".toList 5 ∧
      ∃ t, Lts.exec step (manager newStore .watchManager)
          (.tryLock 0 "x".toList "alice".toList "s1".toList 5 :: List.replicate 3 (.advance 0)) =
            some t ∧
        (t.calls.find 0).map Call.pc = some (.failed (.store .nodeNotFound)) := by
  refine ⟨by decide, by decide +kernel, ?_, ?_⟩
  · rw [tryLockReturns_iff tree_newStore (by decide) (by decide +kernel)]
    rintro ⟨⟨n, hn, -⟩, -⟩
    have hnone : newStore.nodes.find (render ["locks".toList]) = none := by decide +kernel
    exact absurd (hnone.symm.trans hn) nofun
  · have h : (Lts.exec step (manager newStore .watchManager)
        (.tryLock 0 "x".toList "alice".toList "s1".toList 5 :: List.replicate 3 (.advance 0))).any
          (fun t => (t.calls.find 0).map Call.pc = some (.failed (.store .nodeNotFound))) =
        true := by
      decide +kernel
    obtain ⟨t, ht, hpc⟩ := (Option.any_eq_true _ _).mp h
    exact ⟨t, ht, of_decide_eq_true hpc⟩

/-! ## 4. A new store stays as it is -/

/-- What clients of the lock manager and sessions that end do, with clean lock names. -/
def LockOp : Action → Prop
  | .tryLock _ name _ _ _ => IsElem name
  | .node (.deleteEphemerals _ _) => True
  | .node _ => False
  | _ => True

/-- Nothing has happened. -/
structure Untouched (s : Sys) : Prop where
  store : s.store = newStore
  names : ∀ {i c}, s.calls.find i = some c → IsElem c.name
  lockOf : ∀ i, s.lockOf i = none

theorem find_newStore {p : Str} (hp : p ≠ root) : newStore.nodes.find p = none := by
  rw [newStore, GoMap.find_singleton, if_neg hp]

theorem createQueueNode_newStore {c : Call} (hname : IsElem c.name) :
    c.createQueueNode newStore = (newStore, .error .nodeNotFound) := by
  have hdir : newStore.nodes.find (render (lockDir c.name)) = none :=
    find_newStore (render_concat_ne_root elems_locks hname)
  rw [createQueueNode_eq newStore hname, hdir]

theorem delete_newStore {p : Str} {v : Int} (hst : Store.step newStore (.delete p v) = some st) :
    st = newStore := by
  rcases delete_cases tree_newStore p v with ⟨e, he⟩ | ⟨ds, e, n, par, -, -, -, -, hu⟩
  · rw [Store.step, he] at hst
    exact (Option.some.inj hst).symm
  · have hnone := find_newStore (render_concat_ne_root hu.elems hu.elem)
    cases hnone.symm.trans hu.node

theorem deleteEphemerals_newStore {order : List Str}
    (hst : Store.step newStore (.deleteEphemerals sid order) = some st) : st = newStore := by
  simp only [Store.step, Option.ite_none_right_eq_some, Option.some.injEq] at hst
  obtain ⟨hl, rfl⟩ := hst
  have hnil : order = [] := by
    refine List.eq_nil_iff_forall_not_mem.mpr fun k hk => ?_
    obtain ⟨n, hn, heph, -⟩ := hl.mem_iff.mp hk
    obtain ⟨r, hr, hkeep⟩ := tree_newStore.root
    by_cases hroot : k = root
    · subst hroot
      obtain rfl := Option.some.inj (hr.symm.trans hn)
      cases heph.symm.trans hkeep
    · cases (find_newStore hroot).symm.trans hn
  rw [hnil]
  rfl

/-- None of the operations changes a new store. -/
theorem Untouched.op (h : Untouched s) (ha : LockOp a) {op : StoreOp} (hop : s.op? a = some op)
    (hst : Store.step newStore op = some st) : st = newStore := by
  cases makes_of_op hop with
  | mkdir i c hc =>
    have hname := h.names hc
    have hlocks : newStore.nodes.find (render ["locks".toList]) = none := by decide +kernel
    rw [Store.step, create_below elems_locks hname (normalizePath_lockPath hname), hlocks] at hst
    exact (Option.some.inj hst).symm
  | enqueue i c hc hpc =>
    have hcreate : Store.step newStore (.create (queuePath c.name) c.owner true c.sessionID true) =
        some (c.createQueueNode newStore).1 := rfl
    rw [hcreate, createQueueNode_newStore (h.names hc)] at hst
    exact (Option.some.inj hst).symm
  | delete path => exact delete_newStore hst
  | node =>
    cases op with
    | deleteEphemerals sid order => exact deleteEphemerals_newStore hst
    | create | set | delete => exact ha.elim

theorem Untouched.step (h : Untouched s) (ha : LockOp a) (hs : step s a = some s') :
    Untouched s' := by
  have hnames : ∀ {i c}, s'.calls.find i = some c → IsElem c.name := by
    intro i c' hc'
    rcases call_of_step hs hc' with ⟨c, hc, hsame⟩ | rfl
    · have hname := h.names hc
      rw [hsame]
      exact hname
    · exact ha
  have hstore : s'.store = newStore := by
    have hleaves := store_of_step hs
    rw [h.store] at hleaves
    cases hop : s.op? a with
    | none =>
      rw [hop] at hleaves
      exact hleaves
    | some op =>
      rw [hop] at hleaves
      exact h.op ha hop hleaves
  refine ⟨hstore, hnames, fun i => ?_⟩
  cases effect_of_step hs with
  | quiet hv => exact (hv.lockOf i).trans (h.lockOf i)
  | grant id l hl =>
    rw [h.lockOf] at hl
    exact absurd hl nofun
  | enqueue id c path hc hpc hok =>
    rw [h.store, createQueueNode_newStore (h.names hc)] at hok
    exact absurd hok nofun

/-- **Nothing is ever locked in a new store.**  With clean names, whatever clients of the lock
manager do and whatever sessions end, the store stays empty and no call gets as far as a queue
node. -/
theorem nothing_is_locked {handler : DeleteHandler}
    (hrun : Lts.Run step (fun _ a => LockOp a) (manager newStore handler) s) :
    s.store = newStore ∧ ∀ i, s.lockOf i = none := by
  have hfresh := fresh_manager newStore handler
  have h₀ : Untouched (manager newStore handler) := by
    refine ⟨rfl, fun hc => ?_, hfresh.lockOf⟩
    rw [hfresh.calls, GoMap.find_empty] at hc
    exact absurd hc nofun
  have h : Untouched s := hrun.invariant h₀ fun _ _ _ h ha hs => h.step ha hs
  exact ⟨h.store, h.lockOf⟩

end SkyLock.Lock
