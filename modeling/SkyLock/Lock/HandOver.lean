/-
# Handing a lock over

What `NewManager`'s own delete callback is for, in the system as the lock manager sets it up and
before main replaces the callback.  Several calls wait for a lock.  The holder unlocks it, the
store's callback puts a token into the channel of the FIRST REGISTERED waiter, and that call finds
its node in first place.  If the waiters are registered in the order of their nodes, the whole line
gets the lock one after the other (`line_drains`).

The order of registration is not a matter of course.  A call joins the line when it creates its node
and registers two critical sections later, so two calls can register in the other order; then the
token goes to a call that is not first, which waits again, and the one that is first waits for good
(`overtaken_waiter_stays`).
-/
import SkyLock.Lib.Schedule
import SkyLock.Lock.Acquire
import SkyLock.Lock.Release
import SkyLock.Lock.WakeUp

namespace SkyLock.Lock

open Store Sys Slash

/-! ## 1. The line -/

/-- One hand-over: `Unlock`, the callback, and the four critical sections of the next call. -/
def passOn (l : Lock) (next : Nat) : List Action :=
  [.unlock l, .unlockDelete l.path] ++
    (.callback l.path :: List.replicate 4 (.advance next))

/-- The lock goes down the line. -/
def drain : Lock → List (Nat × Lock) → List Action
  | _, [] => []
  | l, x :: line => passOn l x.1 ++ drain x.2 line

/-- The directory of a lock holds the nodes of the line and nothing else, in the order of their
names. -/
structure Standing (name : Str) (line : List Lock) (st : Store) : Prop where
  locks : ∀ l ∈ line, l.name = name ∧ InQueue l (lockDir name)
  order : line.Pairwise fun l l' => queueName (ticket l) < queueName (ticket l')
  leaf : ∀ l ∈ line, ∃ n, st.nodes.find l.path = some n ∧ n.children = []
  children : ∃ par, st.nodes.find (render (lockDir name)) = some par ∧
    ∀ c, c ∈ par.children ↔ ∃ l ∈ line, c = queueName (ticket l)

/-- `holder` has the lock, and the calls of the line wait for it, registered in the order of their
nodes. -/
structure Line (name : Str) (holder : Lock) (line : List (Nat × Lock)) (s : Sys) : Prop where
  clean : IsElem name
  handler : s.onNodeDelete = .lockManager
  tree : Tree s.store
  standing : Standing name (holder :: line.map Prod.snd) s.store
  waiters : s.waitersOf name = line.map Prod.fst
  distinct : (line.map Prod.fst).Nodup
  waiting : ∀ x ∈ line, ∃ c, s.calls.find x.1 = some c ∧ c.pc = .queued x.2 .waiting ∧
    c.signal = false

section Store

variable {name : Str} {l : Lock} {line : List Lock} {st : Store}

theorem InQueue.baseName (hq : InQueue l (lockDir name)) :
    baseName l.path = queueName (ticket l) := by
  rw [hq.path]
  exact baseName_concat (isElem_queueName _)

theorem InQueue.normalized (hq : InQueue l (lockDir name)) : normalizePath l.path = l.path := by
  have hnorm := normalizePath_render (hq.elems.concat (isElem_queueName (ticket l)))
  rwa [← hq.path] at hnorm

/-- Whoever stands first passes its check. -/
theorem Standing.check (h : Standing name (l :: line) st) :
    checkLockAcquired st (lockPath l.name) l.path = .ok true := by
  obtain ⟨hname, hq⟩ := h.locks l List.mem_cons_self
  obtain ⟨par, hpar, hchildren⟩ := h.children
  rw [← hname] at hq hpar
  refine FirstChild.check hq ((firstChild_iff hq).mpr ⟨par, hpar, ?_, fun c hc => ?_⟩)
  · rw [hq.baseName]
    exact (hchildren _).mpr ⟨l, List.mem_cons_self, rfl⟩
  · rw [hq.baseName]
    obtain ⟨l', hl', rfl⟩ := (hchildren c).mp hc
    rcases List.mem_cons.mp hl' with heq | hmem
    · rw [heq]
    · exact ((List.pairwise_cons.mp h.order).1 l' hmem).le

/-- What it means for the tree that the first leaves. -/
theorem Standing.unlinked (htree : Tree st) (h : Standing name (l :: line) st) :
    ∃ n par, par.ephemeral = false ∧
      Unlinked st (st.unlink l.path) (lockDir name) (queueName (ticket l)) n par := by
  obtain ⟨-, hq⟩ := h.locks l List.mem_cons_self
  obtain ⟨n, hn, hleaf⟩ := h.leaf l List.mem_cons_self
  rw [hq.path] at hn ⊢
  obtain ⟨par, hkeep, hu⟩ := unlinked_unlink htree hq.elems (isElem_queueName _) hn hleaf
  exact ⟨n, par, hkeep, hu⟩

/-- The first leaves; the others stay where they are. -/
theorem Standing.unlink (htree : Tree st) (h : Standing name (l :: line) st) :
    Standing name line (st.unlink l.path) := by
  obtain ⟨-, hq⟩ := h.locks l List.mem_cons_self
  obtain ⟨par, hpar, hchildren⟩ := h.children
  obtain ⟨n, par', -, hu⟩ := h.unlinked htree
  obtain rfl : par = par' := Option.some.inj (hpar.symm.trans hu.parent)
  have hfirst := (List.pairwise_cons.mp h.order).1
  refine ⟨fun l' hl' => h.locks l' (List.mem_cons_of_mem l hl'), (List.pairwise_cons.mp h.order).2,
    fun l' hl' => ?_,
    { par with children := par.children.erase (queueName (ticket l)) }, ?_, fun c => ?_⟩
  · obtain ⟨-, hq'⟩ := h.locks l' (List.mem_cons_of_mem l hl')
    obtain ⟨n', hn', hleaf'⟩ := h.leaf l' (List.mem_cons_of_mem l hl')
    have hne : l'.path ≠ render (lockDir name ++ [queueName (ticket l)]) := by
      intro heq
      have hbase := hq'.baseName
      rw [heq, baseName_concat (isElem_queueName _)] at hbase
      exact absurd hbase (hfirst l' hl').ne
    obtain ⟨cs, hcs, hsame⟩ := hu.old hne hn'
    refine ⟨_, hcs, ?_⟩
    rcases hsame with heq | ⟨-, heq⟩
    · exact heq.trans hleaf'
    · rw [heq, hleaf']
      rfl
  · rw [hu.lookup, if_neg (render_concat_ne hq.elems (isElem_queueName _)).symm, if_pos rfl]
  · rw [(htree.nodup hpar).mem_erase_iff, hchildren]
    constructor
    · rintro ⟨hne, l', hl', rfl⟩
      rcases List.mem_cons.mp hl' with heq | hmem
      · exact absurd (heq ▸ rfl) hne
      · exact ⟨l', hmem, rfl⟩
    · rintro ⟨l', hl', rfl⟩
      exact ⟨(hfirst l' hl').ne', l', List.mem_cons_of_mem l hl', rfl⟩

/-- The name that the callback reads out of the path of a queue node. -/
theorem deletedLockName_path (hname : IsElem name) (hq : InQueue l (lockDir name)) :
    deletedLockName l.path = some name := by
  have hprefix : Text.hasPrefix l.path "/locks/".toList = true := by
    rw [hq.path, render_concat (lockDir_ne_nil _), ← lockPath_eq_render, lockPath_eq]
    rfl
  rw [deletedLockName, if_pos hprefix, hq.path,
    splitOn_render (List.append_ne_nil_of_left_ne_nil (lockDir_ne_nil _) _)
      ((elems_lockDir hname).concat (isElem_queueName _))]
  rfl

end Store

/-! ## 2. One hand-over -/

section HandOver

variable {name : Str} {l l' : Lock} {i : Nat} {line : List (Nat × Lock)} {s s' : Sys} {c : Call}

/-- `Unlock` of a node that stands first. -/
theorem unlock_standing {rest : List Lock} (htree : Tree s.store)
    (h : Standing name (l :: rest) s.store) :
    unlock s l = some ({ s with
      locks := s.locks.erase l.path
      store := s.store.unlink l.path
      callbacks := s.callbacks ++ [l.path] }, none) := by
  obtain ⟨-, hq⟩ := h.locks l List.mem_cons_self
  obtain ⟨n, hn, hleaf⟩ := h.leaf l List.mem_cons_self
  have hne : l.path ≠ [] := by
    rw [hq.path]
    exact render_ne_nil _
  have hdel : s.store.delete l.path (-1) = .ok (s.store.unlink l.path) := by
    rw [hq.path] at hn ⊢
    exact delete_leaf htree hq.elems (isElem_queueName _) hn hleaf
  rw [unlock, if_neg hne]
  dsimp only
  rw [hdel]
  dsimp only
  rw [hq.normalized]

theorem exec_unlock {rest : List Lock} (htree : Tree s.store)
    (h : Standing name (l :: rest) s.store) :
    ∃ u, Lts.exec step s [.unlock l, .unlockDelete l.path] = some { s with
      locks := s.locks.erase l.path
      store := s.store.unlink l.path
      callbacks := s.callbacks ++ [l.path]
      unlocking := u } := by
  obtain ⟨-, hq⟩ := h.locks l List.mem_cons_self
  have hne : l.path ≠ [] := by
    rw [hq.path]
    exact render_ne_nil _
  exact unlock_steps hne (unlock_standing htree h)

/-- The callback puts a token into the channel of the first registered waiter. -/
theorem step_callback (hhandler : s.onNodeDelete = .lockManager) (hmem : l.path ∈ s.callbacks)
    (hname : deletedLockName l.path = some name) {ws : List Nat} (hws : s.waitersOf name = i :: ws)
    (hc : s.calls.find i = some c) :
    step s (.callback l.path) = some (({ s with callbacks := s.callbacks.erase l.path }).setCall i
      { c with signal := true }) := by
  have hws' : ({ s with callbacks := s.callbacks.erase l.path }).waitersOf name = i :: ws := hws
  refine (if_pos hmem).trans ?_
  dsimp only
  split
  · rw [onNodeDeleted, hname]
    dsimp only
    rw [notify, hws']
    dsimp only
    rw [hc]
  · rename_i hother
    cases hhandler.symm.trans hother

/-- **The woken call takes the lock**: it receives the token, passes its check, records the lock and
leaves the list of waiters. -/
theorem exec_woken (hpc : c.pc = .queued l .waiting) (hsignal : c.signal = true)
    (hcheck : checkLockAcquired s.store (lockPath l.name) l.path = .ok true) :
    ∃ s', Lts.exec step (s.setCall i c) (List.replicate 4 (.advance i)) = some s' ∧
      s'.store = s.store ∧ s'.onNodeDelete = s.onNodeDelete ∧
      s'.waiters = s.waiters.insert l.name ((s.waitersOf l.name).erase i) ∧
      s'.grants.map Grant.call = s.grants.map Grant.call ++ [i] ∧
      ∀ j, s'.calls.find j = if j = i then
        some { c with pc := .queued l (.done none), signal := false } else s.calls.find j := by
  let c₁ : Call := { c with pc := .queued l .recheck, signal := false }
  let t₁ := (s.setCall i c).setCall i c₁
  have hwake : step (s.setCall i c) (.advance i) = some t₁ := by
    rw [step_advance, advance, hpc]
    exact if_pos hsignal
  let c₂ : Call := { c₁ with pc := .queued l (.record true) }
  let t₂ := (t₁.grant i l).setCall i c₂
  have hgrant : step t₁ (.advance i) = some t₂ := by
    refine step_advance.trans ?_
    change some (t₁.afterCheck i c₁ l true .waiting) = _
    rw [afterCheck, show t₁.store = s.store from rfl, hcheck]
    rfl
  let c₃ : Call := { c₂ with pc := .queued l (.leave none) }
  let t₃ := ({ t₂ with locks := t₂.locks.insert l.path l }).setCall i c₃
  have hrecord : step t₂ (.advance i) = some t₃ := step_advance
  let c₄ : Call := { c₃ with pc := .queued l (.done none) }
  let t₄ := (t₃.setWaiters l.name ((t₃.waitersOf l.name).erase i)).setCall i c₄
  have hleave : step t₃ (.advance i) = some t₄ := step_advance
  refine ⟨t₄, ?_, rfl, rfl, rfl, ?_, fun j => ?_⟩
  · rw [List.replicate_succ, List.replicate_succ, List.replicate_succ, List.replicate_succ,
      Lts.exec_cons_of_step hwake, Lts.exec_cons_of_step hgrant, Lts.exec_cons_of_step hrecord,
      Lts.exec_cons_of_step hleave]
    rfl
  · change (s.grants ++ [_]).map Grant.call = _
    rw [List.map_append]
    rfl
  · by_cases hj : j = i
    · simp [t₄, hj, setCall, setWaiters, GoMap.find_insert, c₄, c₃, c₂, c₁]
    · simp [t₄, t₃, t₂, t₁, hj, setCall, setWaiters, grant, GoMap.find_insert]

/-- **One hand-over.** -/
theorem exec_passOn (h : Line name l ((i, l') :: line) s) :
    ∃ s', Lts.exec step s (passOn l i) = some s' ∧ Line name l' line s' ∧
      s'.grants.map Grant.call = s.grants.map Grant.call ++ [i] ∧
      (∃ c, s'.calls.find i = some c ∧ c.pc = .queued l' (.done none)) ∧
      ∀ j, j ≠ i → s'.calls.find j = s.calls.find j := by
  obtain ⟨c, hc, hpc, hsignal⟩ := h.waiting (i, l') List.mem_cons_self
  obtain ⟨-, hq⟩ := h.standing.locks l List.mem_cons_self
  obtain ⟨u, hunlock⟩ := exec_unlock h.tree h.standing
  let s₁ : Sys := { s with
    locks := s.locks.erase l.path
    store := s.store.unlink l.path
    callbacks := s.callbacks ++ [l.path]
    unlocking := u }
  let s₂ : Sys := { s₁ with callbacks := s₁.callbacks.erase l.path }
  have hcallback : step s₁ (.callback l.path) = some (s₂.setCall i { c with signal := true }) :=
    step_callback h.handler (List.mem_append_right _ (List.mem_singleton.mpr rfl))
      (deletedLockName_path h.clean hq) h.waiters hc
  have hstanding : Standing name (l' :: line.map Prod.snd) s₂.store := h.standing.unlink h.tree
  obtain ⟨hname', -⟩ := hstanding.locks l' List.mem_cons_self
  obtain ⟨s', hexec, hstore, hhandler, hwaiters, hgrants, hcalls⟩ :=
    exec_woken (i := i) (c := { c with signal := true }) hpc rfl hstanding.check
  have hdistinct := List.nodup_cons.mp h.distinct
  refine ⟨s', ?_, ⟨h.clean, hhandler.trans h.handler, ?_, ?_, ?_, hdistinct.2, fun x hx => ?_⟩,
    hgrants, ⟨_, (hcalls i).trans (if_pos rfl), rfl⟩, fun j hj => (hcalls j).trans (if_neg hj)⟩
  · rw [passOn, Lts.exec_append, hunlock, Option.bind_some, Lts.exec_cons_of_step hcallback]
    exact hexec
  · rw [hstore]
    obtain ⟨n, par, -, hu⟩ := h.standing.unlinked h.tree
    exact h.tree.unlink hu
  · rw [hstore]
    exact hstanding
  · rw [waitersOf, hwaiters, hname', GoMap.find_insert, if_pos rfl, Option.getD_some]
    rw [show s₂.waitersOf name = i :: line.map Prod.fst from h.waiters]
    exact List.erase_cons_head ..
  · obtain ⟨d, hd, hrest⟩ := h.waiting x (List.mem_cons_of_mem _ hx)
    have hne : x.1 ≠ i := fun heq => hdistinct.1 (List.mem_map.mpr ⟨x, hx, heq⟩)
    exact ⟨d, ((hcalls x.1).trans (if_neg hne)).trans hd, hrest⟩

/-- **The line drains.**  Any number of calls wait for a lock, registered in the order of their
nodes.  If each holder unlocks it in turn and the callback of the lock manager runs, then every
call of the line gets the lock, in the order of the line, and no other call is touched. -/
theorem line_drains (h : Line name l line s) :
    ∃ s', Lts.exec step s (drain l line) = some s' ∧
      s'.grants.map Grant.call = s.grants.map Grant.call ++ line.map Prod.fst ∧
      (∀ x ∈ line, ∃ c, s'.calls.find x.1 = some c ∧ c.pc = .queued x.2 (.done none)) ∧
      ∀ j, j ∉ line.map Prod.fst → s'.calls.find j = s.calls.find j := by
  induction line generalizing l s with
  | nil =>
    exact ⟨s, rfl, (List.append_nil _).symm, fun x hx => absurd hx List.not_mem_nil, fun _ _ => rfl⟩
  | cons x line ih =>
    obtain ⟨i, l'⟩ := x
    obtain ⟨s₁, hexec, hline, hgrants, ⟨c, hc, hpc⟩, hother⟩ := exec_passOn h
    obtain ⟨s', hexec', hgrants', hall, hframe⟩ := ih hline
    have hi : i ∉ line.map Prod.fst := (List.nodup_cons.mp h.distinct).1
    refine ⟨s', ?_, ?_, fun x hx => ?_, fun j hj => ?_⟩
    · rw [drain, Lts.exec_append, hexec]
      exact hexec'
    · rw [hgrants', hgrants, List.append_assoc]
      rfl
    · rcases List.mem_cons.mp hx with rfl | hmem
      · exact ⟨c, (hframe i hi).trans hc, hpc⟩
      · exact hall x hmem
    · rw [List.map_cons, List.mem_cons, not_or] at hj
      rw [hframe j hj.2, hother j hj.1]

end HandOver

/-! ## 3. Three clients -/

/-- Carol's lock while she queues behind Bob. -/
def carolLock : Lock :=
  ⟨"x".toList, "carol".toList, "s3".toList, "/locks/x/lock-0000000003".toList, 3⟩

/-- Alice holds `x`, and Bob and Carol wait for it. -/
def threeClients : List Action :=
  contention ++ [.tryLock 2 "x".toList "carol".toList "s3".toList 5] ++
    List.replicate 4 (.advance 2)

/-- Bob queues before Carol and registers after her; then Alice unlocks. -/
def overtaking : List Action :=
  contention.take 9 ++
    [.advance 0, .tryLock 2 "x".toList "carol".toList "s3".toList 5, .advance 2, .advance 2,
      .advance 2, .advance 2, .advance 1, .unlock aliceLock, .unlockDelete aliceLock.path,
      .callback aliceLock.path, .advance 2, .advance 2]

theorem line_drains_three :
    ∃ s s', Lts.Reach step (manager locksStore .lockManager) s ∧
      Line "x".toList aliceLock [(1, bobLock), (2, carolLock)] s ∧
      Lts.exec step s (drain aliceLock [(1, bobLock), (2, carolLock)]) = some s' ∧
      s'.grants.map Grant.call = s.grants.map Grant.call ++ [1, 2] := by
  let line := [aliceLock, bobLock, carolLock]
  obtain ⟨s, hrun, hhandler, hwaiters, hone, htwo, hleaves, hchildren⟩ : ∃ s,
      Lts.Reach step (manager locksStore .lockManager) s ∧ s.onNodeDelete = .lockManager ∧
      s.waitersOf "x".toList = [1, 2] ∧
      s.calls.find 1 = some ⟨"x".toList, "bob".toList, "s2".toList, 5,
        .queued bobLock .waiting, false⟩ ∧
      s.calls.find 2 = some ⟨"x".toList, "carol".toList, "s3".toList, 5,
        .queued carolLock .waiting, false⟩ ∧
      (∀ l ∈ line, (s.store.nodes.find l.path).map Node.children = some []) ∧
      (s.store.nodes.find (render (lockDir "x".toList))).map Node.children =
        some (line.map fun l => queueName (ticket l)) :=
    Lts.exists_reach threeClients (by decide +kernel)
  have htree : Tree s.store :=
    hrun.invariant (P := fun t => Tree t.store) (tree_of_reach reach_locksStore)
      fun _ _ _ h _ hstep => tree_of_leaves h (store_of_step hstep)
  have hx : IsElem "x".toList := by decide
  have hstanding : Standing "x".toList line s.store := by
    obtain ⟨par, hpar, hpc⟩ := Option.map_eq_some_iff.mp hchildren
    refine ⟨fun l hl => ?_, by decide +kernel, fun l hl => Option.map_eq_some_iff.mp (hleaves l hl),
      par, hpar, fun c => ?_⟩
    · obtain ⟨hname, hdir, hpath⟩ : l.name = "x".toList ∧
          directory l = render (lockDir "x".toList) ∧
          l.path = render (lockDir "x".toList ++ [queueName (ticket l)]) := by
        revert l
        decide +kernel
      exact ⟨hname, elems_lockDir hx, hdir, hpath⟩
    · rw [hpc, List.mem_map]
      exact exists_congr fun l => and_congr_right fun _ => eq_comm
  have hline : Line "x".toList aliceLock [(1, bobLock), (2, carolLock)] s := by
    refine ⟨hx, hhandler, htree, hstanding, hwaiters, by decide, fun y hy => ?_⟩
    rcases List.mem_pair.mp hy with rfl | rfl
    · exact ⟨_, hone, rfl, rfl⟩
    · exact ⟨_, htwo, rfl, rfl⟩
  obtain ⟨s', hexec, hgrants, -⟩ := line_drains hline
  exact ⟨s, s', hrun, hline, hexec, hgrants⟩

/-- **A waiter that registers late is passed over.**  Carol joins the line behind Bob and registers
before him.  Alice's unlock wakes Carol, who finds Bob in front of her and waits again; Bob, now
first, has no token. -/
theorem overtaken_waiter_stays :
    ¬ ∀ s, Lts.Reach step (manager locksStore .lockManager) s → ¬ LostWakeUp s := by
  intro hall
  obtain ⟨s, hrun, hcb, hun, hset, hbob, hch⟩ : ∃ s,
      Lts.Reach step (manager locksStore .lockManager) s ∧ s.callbacks = [] ∧ s.unlocking = [] ∧
      (s.calls.keysWhere fun c => ! c.pc.settled) = ∅ ∧
      s.calls.find 1 = some ⟨"x".toList, "bob".toList, "s2".toList, 5,
        .queued bobLock .waiting, false⟩ ∧
      s.store.getChildren (lockPath "x".toList) =
        .ok ["lock-0000000002".toList, "lock-0000000003".toList] :=
    Lts.exists_reach overtaking (by decide +kernel)
  exact hall s hrun ⟨quiescent_of_keysWhere hcb hun hset, 1, bobLock, by decide,
    ⟨_, hbob, rfl, rfl⟩, _, hch⟩

end SkyLock.Lock
