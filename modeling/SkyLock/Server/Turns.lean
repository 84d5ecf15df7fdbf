/-
# Clients that take turns

What the lock service does for clients that do not get in each other's way.  A client asks for a
lock (`acquireLock`), works, and hands it back with the id from the answer (`releaseLock`); then the
next one asks.  Every request is answered 200 or 204, between the two the service says who holds the
lock, and after the second that nobody does (`turns_succeed`).

A client may also die with the lock.  Its session runs out, the clean-up takes the queue node away,
and the next one asks (`dead_holder_recovered`).

The state between two turns is `Unclaimed`: `/locks` is there, and the directory of the lock has no
child.  The state inside a turn is `Held`: the directory has one child, the holder's.  The module
follows one request each way between the two.
-/
import SkyLock.Lock.HandOver
import SkyLock.Lock.Info
import SkyLock.Server.Locks
import SkyLock.Server.Nodes

namespace SkyLock.Lock

open Store Sys Slash

/-! ## 1. The lock between two turns and inside one -/

/-- There is a directory for the locks, and it is not ephemeral. -/
def LocksKept (st : Store) : Prop :=
  ∃ n, st.nodes.find (render ["locks".toList]) = some n ∧ n.ephemeral = false

/-- Nobody holds the lock or waits for it. -/
structure Unclaimed (name : Str) (st : Store) : Prop where
  tree : Tree st
  locks : LocksKept st
  dir : ∀ par, st.nodes.find (render (lockDir name)) = some par →
    par.ephemeral = false ∧ par.children = []

/-- The lock is held, and nobody waits for it. -/
structure Held (name : Str) (l : Lock) (st : Store) : Prop where
  tree : Tree st
  locks : LocksKept st
  standing : Standing name [l] st
  holder : ∃ n, st.nodes.find l.path = some n ∧ n.data = l.owner ∧ n.ephemeral = true ∧
    n.sessionID = l.sessionID

section Store

variable {name : Str} {l : Lock} {st : Store} {c : Call} {order : List Str}

/-- With its directory made, the lock is still unclaimed. -/
theorem Unclaimed.ensured (h : Unclaimed name st) (hname : IsElem name) :
    Unclaimed name (ensured st name) ∧ ∃ par, (ensured st name).nodes.find (render (lockDir name)) =
      some par := by
  have hnorm := normalizePath_lockPath hname
  unfold Lock.ensured existsPath
  rw [hnorm]
  by_cases hd : render (lockDir name) ∈ st.nodes
  · rw [if_pos (decide_eq_true hd)]
    exact ⟨h, GoMap.mem_iff_find.mp hd⟩
  rw [if_neg (by simpa using hd)]
  obtain ⟨locks, hlocks, hkeep⟩ := h.locks
  have hfind := find_created_dir hname hd hlocks hkeep
  refine ⟨⟨h.tree.create _ _ _ _ _, ?_, fun par hpar => ?_⟩, _, hfind⟩
  · have hleaf : render (["locks".toList] ++ [leafName st name false]) = render (lockDir name) :=
      rfl
    rw [create_below elems_locks hname hnorm, hlocks]
    dsimp only
    rw [if_neg (by simp [hkeep]), hleaf, if_neg hd]
    refine ⟨_, (GoMap.find_insert ..).trans (if_pos rfl), hkeep⟩
  · obtain rfl := Option.some.inj (hfind.symm.trans hpar)
    exact ⟨rfl, rfl⟩

/-- **The queue node of a call that finds the lock unclaimed**: it stands there alone. -/
theorem Unclaimed.enqueue (h : Unclaimed c.name st) (hname : IsElem c.name) {par : Node}
    (hpar : st.nodes.find (render (lockDir c.name)) = some par) :
    ∃ path, (c.createQueueNode st).2 = .ok path ∧
      Held c.name (c.lockAt path) (c.createQueueNode st).1 := by
  obtain ⟨hkeep, hempty⟩ := h.dir par hpar
  have hdir := elems_lockDir hname
  have helem := isElem_queueName (st.bump true).seqCounter
  generalize hpath : render (lockDir c.name ++ [queueName (st.bump true).seqCounter]) = path
  have hfresh : path ∉ st.nodes := by
    intro hin
    obtain ⟨n, hn⟩ := GoMap.mem_iff_find.mp hin
    rw [← hpath] at hn
    have hlisted := h.tree.listed hdir helem (lockDir_ne_nil _) hn hpar
    rw [hempty] at hlisted
    cases hlisted
  have hcreate := createQueueNode_eq st hname
  rw [hpar] at hcreate
  dsimp only at hcreate
  rw [if_neg (by simp [hkeep]), hpath, if_neg hfresh, hempty] at hcreate
  have hok : (c.createQueueNode st).2 = .ok path := by rw [hcreate]
  obtain ⟨ds, hq, hticket⟩ := createQueueNode_ok hok
  obtain rfl := inQueue_lockDir hq hname
  have hself : path ≠ render (lockDir c.name) := by
    rw [← hpath]
    exact render_concat_ne hdir helem
  have hafter : ∀ p, (c.createQueueNode st).1.nodes.find p =
      if p = render (lockDir c.name) then
        some { par with children := [queueName (st.bump true).seqCounter] }
      else if p = path then
        some (freshNode (st.bump true) path c.owner true c.sessionID true)
      else st.nodes.find p := by
    intro p
    rw [hcreate, GoMap.find_insert, GoMap.find_insert]
    rfl
  have hdirAfter := (hafter (render (lockDir c.name))).trans (if_pos rfl)
  have hnode := (hafter path).trans ((if_neg hself).trans (if_pos rfl))
  refine ⟨path, hok, h.tree.create _ _ _ _ _, ?_,
    ⟨?_, List.pairwise_singleton .., ?_, _, hdirAfter, ?_⟩, _, hnode, rfl, rfl, rfl⟩
  · obtain ⟨locks, hlocks, hlocksKept⟩ := h.locks
    have hne : render ["locks".toList] ≠ render (lockDir c.name) :=
      (render_concat_ne elems_locks hname).symm
    have hne' : render ["locks".toList] ≠ path := by
      rw [← hpath]
      intro heq
      have hlist := render_injective elems_locks (hdir.concat helem) heq
      simp [lockDir] at hlist
    exact ⟨locks, (hafter _).trans ((if_neg hne).trans ((if_neg hne').trans hlocks)), hlocksKept⟩
  · rw [List.forall_mem_singleton]
    exact ⟨rfl, hq⟩
  · rw [List.forall_mem_singleton]
    exact ⟨_, hnode, rfl⟩
  · intro e
    rw [hticket.symm]
    simp

/-- The holder hands the lock back. -/
theorem Held.unlink (h : Held name l st) (hname : IsElem name) :
    Unclaimed name (st.unlink l.path) := by
  obtain ⟨n, par, hkeep, hu⟩ := h.standing.unlinked h.tree
  refine ⟨h.tree.unlink hu, ?_, fun par' hpar' => ?_⟩
  · obtain ⟨locks, hlocks, hlocksKept⟩ := h.locks
    have hne : render ["locks".toList] ≠ render (lockDir name ++ [queueName (ticket l)]) := by
      intro heq
      have hlist := render_injective elems_locks (hu.elems.concat hu.elem) heq
      simp [lockDir] at hlist
    have hne' : render ["locks".toList] ≠ render (lockDir name) :=
      (render_concat_ne elems_locks hname).symm
    exact ⟨locks, (hu.lookup _).trans ((if_neg hne).trans ((if_neg hne').trans hlocks)), hlocksKept⟩
  · obtain ⟨par₀, hpar₀, hchildren⟩ := (h.standing.unlink h.tree).children
    obtain rfl := Option.some.inj (hpar₀.symm.trans hpar')
    have hself : render (lockDir name) ≠ render (lockDir name ++ [queueName (ticket l)]) :=
      (render_concat_ne hu.elems hu.elem).symm
    rw [hu.lookup, if_neg hself, if_pos rfl] at hpar₀
    refine ⟨?_, List.eq_nil_iff_forall_not_mem.mpr fun e he => ?_⟩
    · rw [← Option.some.inj hpar₀]
      exact hkeep
    · obtain ⟨l', hl', -⟩ := (hchildren e).mp he
      cases hl'

/-- What is not ephemeral survives a clean-up. -/
theorem find_kept (htree : Tree st) {sid k : Str} {n : Node} (hl : IsListing st sid order)
    (hn : st.nodes.find k = some n) (hkeep : n.ephemeral = false) :
    (st.deleteEphemerals order).nodes.find k = some (survivor order k n) := by
  have hout : k ∉ order := by
    intro hk
    obtain ⟨n', hn', heph, -⟩ := hl.mem_iff.mp hk
    obtain rfl := Option.some.inj (hn.symm.trans hn')
    exact absurd heph (by simp [hkeep])
  rw [find_deleteEphemerals order htree.listable, if_neg hout, hn, Option.map_some]

/-- **The holder's session is cleaned up.** -/
theorem Held.expired (h : Held name l st) (hl : IsListing st l.sessionID order) :
    Unclaimed name (st.deleteEphemerals order) ∧
      ∃ par, (st.deleteEphemerals order).nodes.find (render (lockDir name)) = some par := by
  obtain ⟨-, hq⟩ := h.standing.locks l List.mem_cons_self
  obtain ⟨par, hpar, hchildren⟩ := h.standing.children
  obtain ⟨locks, hlocks, hlocksKept⟩ := h.locks
  obtain ⟨n, hn, -, heph, hsid⟩ := h.holder
  have hkeep : par.ephemeral = false := by
    rw [hq.path] at hn
    obtain ⟨par', hpar', hkeep⟩ := h.tree.parent hq.elems (isElem_queueName _) hn
    obtain rfl := Option.some.inj (hpar.symm.trans hpar')
    exact hkeep
  have hgone : (st.deleteEphemerals order).nodes.find l.path = none := by
    rw [find_deleteEphemerals order h.tree.listable, if_pos (hl.mem_iff.mpr ⟨n, hn, heph, hsid⟩)]
  have htree := h.tree.deleteEphemerals hl
  have hafter := find_kept h.tree hl hpar hkeep
  refine ⟨⟨htree, ⟨_, find_kept h.tree hl hlocks hlocksKept, hlocksKept⟩, fun par' hpar' => ?_⟩,
    _, hafter⟩
  obtain rfl := Option.some.inj (hafter.symm.trans hpar')
  refine ⟨hkeep, List.eq_nil_iff_forall_not_mem.mpr fun e he => ?_⟩
  -- a child that is left would have a node, and the only child was the holder's
  obtain ⟨-, n', hn'⟩ := htree.sound hq.elems hafter he
  obtain ⟨l', hl', rfl⟩ := (hchildren e).mp (List.mem_filter.mp he).1
  obtain rfl := List.mem_singleton.mp hl'
  rw [← hq.path, hgone] at hn'
  cases hn'

/-- The directory of a lock that is held has one child. -/
theorem Held.length_children (h : Held name l st) {par : Node}
    (hpar : st.nodes.find (render (lockDir name)) = some par) : par.children.length = 1 := by
  obtain ⟨par', hpar', hchildren⟩ := h.standing.children
  obtain rfl := Option.some.inj (hpar.symm.trans hpar')
  have hset : par.children.toFinset = {queueName (ticket l)} := by
    ext e
    rw [List.mem_toFinset, hchildren, Finset.mem_singleton]
    simp
  rw [← List.toFinset_card_of_nodup (h.tree.nodup hpar), hset, Finset.card_singleton]

end Store

/-! ## 2. One request each way -/

section Requests

variable {name owner sid : Str} {timeout : Int} {i : Nat} {s u : Sys} {c : Call} {l : Lock}

/-- **From the queue node to the lock**: three critical sections. -/
theorem exec_enqueued (hpc : c.pc = .enqueue) (h : Unclaimed c.name u.store) (hname : IsElem c.name)
    {par : Node} (hpar : u.store.nodes.find (render (lockDir c.name)) = some par) :
    ∃ l t, Lts.exec step (u.setCall i c) (List.replicate 3 (.advance i)) = some t ∧
      Held c.name l t.store ∧ l.name = c.name ∧ l.owner = c.owner ∧ l.sessionID = c.sessionID ∧
      ∀ j, t.calls.find j = if j = i then some { c with pc := .queued l (.done none) }
        else u.calls.find j := by
  obtain ⟨path, hok, hheld⟩ := h.enqueue hname hpar
  let l := c.lockAt path
  let c₁ : Call := { c with pc := .queued l .check }
  let t₁ := ((u.setCall i c).ran (.create (queuePath c.name) c.owner true c.sessionID true)
    (c.createQueueNode u.store).1).setCall i c₁
  have henqueue : step (u.setCall i c) (.advance i) = some t₁ := by
    rw [step_advance]
    simp only [Sys.advance, hpc]
    rw [runOp_eq_some.mpr ⟨(c.createQueueNode u.store).1, rfl, rfl⟩, Option.map_some]
    rw [show (u.setCall i c).store = u.store from rfl]
    unfold Call.createQueueNode at hok
    rw [hok]
    rfl
  let c₂ : Call := { c₁ with pc := .queued l (.record false) }
  let t₂ := (t₁.grant i l).setCall i c₂
  have hcheck : step t₁ (.advance i) = some t₂ := by
    refine step_advance.trans ?_
    change some (t₁.afterCheck i c₁ l false _) = _
    rw [afterCheck, show t₁.store = (c.createQueueNode u.store).1 from rfl,
      hheld.standing.check]
    rfl
  let c₃ : Call := { c₂ with pc := .queued l (.done none) }
  let t₃ := ({ t₂ with locks := t₂.locks.insert l.path l }).setCall i c₃
  have hrecord : step t₂ (.advance i) = some t₃ := step_advance
  refine ⟨l, t₃, ?_, hheld, rfl, rfl, rfl, fun j => ?_⟩
  · rw [List.replicate_succ, List.replicate_succ, List.replicate_succ,
      Lts.exec_cons_of_step henqueue, Lts.exec_cons_of_step hcheck, Lts.exec_cons_of_step hrecord]
    rfl
  · by_cases hj : j = i
    · simp [t₃, hj, setCall, GoMap.find_insert, c₃, c₂, c₁]
    · simp [t₃, t₂, t₁, hj, setCall, grant, ran, GoMap.find_insert]

/-- **To the queue node**: one critical section, or two if the directory has to be made. -/
theorem exec_ensure (s : Sys) (i : Nat) (hpc : c.pc = .ensure) :
    ∃ (k : Nat) (u : Sys), Lts.exec step (s.setCall i c) (List.replicate k (.advance i)) =
        some (u.setCall i { c with pc := .enqueue }) ∧
      u.store = ensured s.store c.name ∧ ∀ j, j ≠ i → u.calls.find j = s.calls.find j := by
  let look := if s.store.existsPath (lockPath c.name) then Pc.enqueue else Pc.mkdir
  have hlook : step (s.setCall i c) (.advance i) =
      some ((s.setCall i c).setCall i { c with pc := look }) := by
    rw [step_advance, Sys.advance, hpc]
    rfl
  have hother : ∀ c' : Call, ∀ j, j ≠ i → (s.setCall i c').calls.find j = s.calls.find j :=
    fun c' j hj => (GoMap.find_insert ..).trans (if_neg hj)
  by_cases hexists : s.store.existsPath (lockPath c.name) = true
  · refine ⟨1, s.setCall i c, ?_, (if_pos hexists).symm, hother c⟩
    rw [List.replicate_one, Lts.exec_cons_of_step hlook, show look = .enqueue from if_pos hexists]
    rfl
  · let c₁ : Call := { c with pc := .mkdir }
    let made := (s.store.create (lockPath c.name) [] false [] false).1
    let u := ((s.setCall i c).setCall i c₁).ran (.create (lockPath c.name) [] false [] false) made
    have hmkdir : step ((s.setCall i c).setCall i c₁) (.advance i) =
        some (u.setCall i { c with pc := .enqueue }) := by
      rw [step_advance, Sys.advance, runOp_eq_some.mpr ⟨made, rfl, rfl⟩]
      rfl
    refine ⟨2, u, ?_, (if_neg hexists).symm, fun j hj => ?_⟩
    · rw [List.replicate_succ, List.replicate_one, Lts.exec_cons_of_step hlook,
        show look = .mkdir from if_neg hexists, Lts.exec_cons_of_step hmkdir]
      rfl
    · exact ((GoMap.find_insert ..).trans (if_neg hj)).trans (hother c j hj)

/-- **A call of `TryLock` that finds the lock unclaimed gets it.** -/
theorem exec_tryLock (h : Unclaimed name s.store) (hname : IsElem name) (hi : i ∉ s.calls)
    (owner sid : Str) (timeout : Int) :
    ∃ k l t, Lts.exec step s (.tryLock i name owner sid timeout ::
        List.replicate k (.advance i)) = some t ∧
      Held name l t.store ∧ l.name = name ∧ l.owner = owner ∧ l.sessionID = sid ∧
      ∀ j, t.calls.find j =
        if j = i then some ⟨name, owner, sid, timeout, .queued l (.done none), false⟩
        else s.calls.find j := by
  let c : Call := ⟨name, owner, sid, timeout, .ensure, false⟩
  have hstart : step s (.tryLock i name owner sid timeout) = some (s.setCall i c) := if_neg hi
  obtain ⟨k, u, hensure, hstore, hother⟩ := exec_ensure (c := c) s i rfl
  obtain ⟨hfree, par, hpar⟩ := h.ensured hname
  rw [← hstore] at hfree hpar
  obtain ⟨l, t, hexec, hheld, hlname, howner, hsid, hcalls⟩ :=
    exec_enqueued (i := i) (c := { c with pc := .enqueue }) rfl hfree hname hpar
  refine ⟨k + 3, l, t, ?_, hheld, hlname, howner, hsid, fun j => ?_⟩
  · rw [Lts.exec_cons_of_step hstart, List.replicate_add, Lts.exec_append, hensure]
    exact hexec
  · rw [hcalls]
    by_cases hj : j = i
    · rw [if_pos hj, if_pos hj]
    · rw [if_neg hj, if_neg hj, hother j hj]

/-- **`Unlock` by the id of a lock that is held** leaves it unclaimed, and touches no call. -/
theorem exec_release (h : Held name l s.store) (hname : IsElem name) :
    unlock s (requested name l.path) = some ({ s with
      locks := s.locks.erase l.path
      store := s.store.unlink l.path
      callbacks := s.callbacks ++ [l.path] }, none) ∧
    ∃ t, Lts.exec step s [.unlock (requested name l.path), .unlockDelete l.path] = some t ∧
      t.store = s.store.unlink l.path ∧ t.calls = s.calls ∧ Unclaimed name t.store := by
  obtain ⟨-, hq⟩ := h.standing.locks l List.mem_cons_self
  -- `Unlock` reads nothing of the lock but its path
  have hsame : unlock s (requested name l.path) = unlock s l := rfl
  have hunlock := hsame.trans (unlock_standing h.tree h.standing)
  have hne : (requested name l.path).path ≠ [] := by
    rw [requested, hq.path]
    exact render_ne_nil _
  obtain ⟨w, hexec⟩ := unlock_steps hne hunlock
  exact ⟨hunlock, _, hexec, rfl, rfl, h.unlink hname⟩

end Requests

end SkyLock.Lock

namespace SkyLock.Server

open Store Slash
open Lock (Held Unclaimed LocksKept lockDir LockErr)

/-! ## 3. The requests at the server -/

/-- `releaseLock`'s answer to what `Unlock` returns. -/
def releaseReply : Option LockErr → Reply Unit
  | none => .ok 204 ()
  | some .notHeld => .error 404 "lock not held"
  | some e => .error 500 e.error

/-- `releaseLock`'s answer. -/
def releaseLock (s : Lock.Sys) (lockName lockID : Str) : Reply Unit :=
  match Lock.unlock s (Lock.requested lockName lockID) with
  | some (_, err) => releaseReply err
  | none => .panicked

section Requests

variable {s : Sys} {name : Str} {l : Lock} {st : Store}

/-- The action of the server does to the lock system what the other one does, and nothing else. -/
def RunsAs (a : Action) (la : Lock.Action) : Prop :=
  ∀ s : Sys, step s a = (Lock.step s.lock la).map fun l => { s with lock := l }

theorem exec_runsAs {as : List Action} {las : List Lock.Action} (h : List.Forall₂ RunsAs as las)
    (s : Sys) :
    Lts.exec step s as = (Lts.exec Lock.step s.lock las).map fun l => { s with lock := l } := by
  induction h generalizing s with
  | nil => rfl
  | cons ha _ ih =>
    rw [Lts.exec, Lts.exec, ha s]
    cases Lock.step s.lock _ with
    | none => rfl
    | some l => exact ih { s with lock := l }

theorem runsAs_acquireLock (call : Nat) (name owner : Str) {sid : Str} (hsid : sid ≠ [])
    (timeoutMs : Int) : RunsAs (.acquireLock call name owner sid timeoutMs)
      (.tryLock call name owner sid (lockTimeout timeoutMs)) := by
  intro s
  simp only [step, Sys.runLock, lockAction, if_neg hsid]

theorem runsAs_releaseLock (name lockID : Str) :
    RunsAs (.releaseLock name lockID) (.unlock (Lock.requested name lockID)) := fun _ => rfl

theorem runsAs_inner {la : Lock.Action} (h : isInner la = true) : RunsAs (.inner la) la := by
  intro s
  simp only [step, Sys.runLock, lockAction, if_pos h]

theorem runsAs_advances (call k : Nat) :
    List.Forall₂ RunsAs (List.replicate k (.inner (.advance call)))
      (List.replicate k (.advance call)) := by
  induction k with
  | zero => exact .nil
  | succ k ih => exact .cons (runsAs_inner rfl) ih

theorem getLockInfo_held (h : Held name l st) (hname : IsElem name) :
    getLockInfo st name = .ok 200 ⟨name, l.owner ≠ [], l.owner, 1⟩ := by
  obtain ⟨par, hpar, hchildren⟩ := h.standing.children
  have hdir := Lock.normalizePath_lockPath hname
  have hlength : Lock.getQueueLength st name = 1 :=
    (Lock.getQueueLength_eq (hdir ▸ hpar)).trans (h.length_children hpar)
  have hholder : Lock.getLockHolder st name = .ok l.owner := by
    rcases Lock.getLockHolder_cases h.tree (Lock.elems_lockDir hname) hdir hpar with
      ⟨hnone, -⟩ | ⟨first, n, hfirst, -, hn, hholder⟩
    · have hone := h.length_children hpar
      rw [hnone] at hone
      cases hone
    · obtain ⟨l', hl', rfl⟩ := (hchildren first).mp hfirst
      obtain rfl := List.mem_singleton.mp hl'
      obtain ⟨n', hn', hdata, -⟩ := h.holder
      obtain ⟨-, hq⟩ := h.standing.locks l' List.mem_cons_self
      rw [hq.path] at hn'
      obtain rfl := Option.some.inj (hn.symm.trans hn')
      rw [hholder, hdata]
  rw [getLockInfo, hholder, hlength]

theorem getLockInfo_unclaimed (h : Unclaimed name st) (hname : IsElem name) {par : Node}
    (hpar : st.nodes.find (render (lockDir name)) = some par) :
    getLockInfo st name = .ok 200 ⟨name, false, [], 0⟩ := by
  have hdir := Lock.normalizePath_lockPath hname
  have hnone := (h.dir par hpar).2
  have hlength : Lock.getQueueLength st name = 0 :=
    (Lock.getQueueLength_eq (hdir ▸ hpar)).trans (congrArg List.length hnone)
  have hholder : Lock.getLockHolder st name = .ok [] := by
    rcases Lock.getLockHolder_cases h.tree (Lock.elems_lockDir hname) hdir hpar with
      ⟨-, hholder⟩ | ⟨first, n, hfirst, -⟩
    · exact hholder
    · rw [hnone] at hfirst
      cases hfirst
  rw [getLockInfo, hholder, hlength]
  rfl

end Requests

/-! ## 4. Turns -/

/-- A client: the number of its request, and what it sends. -/
structure Client where
  call : Nat
  owner : Str
  sessionID : Str
  timeoutMs : Int

/-- **One turn.**  The client asks for the lock and is answered 200 with an id; the service says
that the client holds the lock.  The client sends the id back and is answered 204; the service says
that nobody holds the lock. -/
def Turn (name : Str) (s : Sys) (u : Client) (s' : Sys) : Prop :=
  ∃ (k : Nat) (lockID : Str) (t : Sys),
    Lts.exec step s (.acquireLock u.call name u.owner u.sessionID u.timeoutMs ::
      List.replicate k (.inner (.advance u.call))) = some t ∧
    (t.lock.calls.find u.call).bind (fun c => acquireReply c.pc) =
      some (.ok 200 ⟨lockID, name, true, u.owner⟩) ∧
    getLockInfo t.lock.store name = .ok 200 ⟨name, u.owner ≠ [], u.owner, 1⟩ ∧
    releaseLock t.lock name lockID = .ok 204 () ∧
    Lts.exec step t [.releaseLock name lockID, .inner (.unlockDelete lockID)] = some s' ∧
    getLockInfo s'.lock.store name = .ok 200 ⟨name, false, [], 0⟩

/-- The clients take their turns one after the other. -/
inductive Turns (name : Str) : Sys → List Client → Sys → Prop
  | nil (s : Sys) : Turns name s [] s
  | cons {s t s' : Sys} {u : Client} {us : List Client} (first : Turn name s u t)
    (rest : Turns name t us s') : Turns name s (u :: us) s'

section Turns

variable {name : Str} {s : Sys}

theorem turn_of_unclaimed (hname : IsElem name) (h : Unclaimed name s.lock.store) {u : Client}
    (hcall : u.call ∉ s.lock.calls) (hsid : u.sessionID ≠ []) :
    ∃ s', Turn name s u s' ∧ Unclaimed name s'.lock.store ∧
      ∀ j, j ≠ u.call → s'.lock.calls.find j = s.lock.calls.find j := by
  obtain ⟨k, l, t, hacquire, hheld, hlname, howner, -, hcalls⟩ :=
    Lock.exec_tryLock h hname hcall u.owner u.sessionID (lockTimeout u.timeoutMs)
  obtain ⟨hunlock, t', hrelease, hstore, hcalls', hfree⟩ := Lock.exec_release hheld hname
  obtain ⟨par, hpar, -⟩ := (hheld.standing.unlink hheld.tree).children
  rw [← hstore] at hpar
  refine ⟨{ s with lock := t' }, ⟨k, l.path, { s with lock := t }, ?_, ?_, ?_, ?_, ?_, ?_⟩, hfree,
    fun j hj => ?_⟩
  · rw [exec_runsAs (.cons (runsAs_acquireLock u.call name u.owner hsid u.timeoutMs)
      (runsAs_advances u.call k)), hacquire]
    rfl
  · rw [hcalls, if_pos rfl]
    dsimp only [Option.bind_some]
    rw [acquireReply, hlname, howner]
  · rw [getLockInfo_held hheld hname, howner]
  · rw [releaseLock, hunlock]
    rfl
  · rw [exec_runsAs (.cons (runsAs_releaseLock name l.path) (.cons (runsAs_inner rfl) .nil)),
      hrelease]
    rfl
  · exact getLockInfo_unclaimed hfree hname hpar
  · dsimp only
    rw [hcalls', hcalls, if_neg hj]

theorem turns_of_unclaimed (hname : IsElem name) (users : List Client)
    (hdistinct : (users.map Client.call).Nodup) (h : Unclaimed name s.lock.store)
    (hnew : ∀ u ∈ users, u.call ∉ s.lock.calls ∧ u.sessionID ≠ []) :
    ∃ s', Turns name s users s' ∧ Unclaimed name s'.lock.store := by
  induction users generalizing s with
  | nil => exact ⟨s, .nil s, h⟩
  | cons u us ih =>
    obtain ⟨hcall, hsid⟩ := hnew u List.mem_cons_self
    obtain ⟨t, hturn, hfree, hother⟩ := turn_of_unclaimed hname h hcall hsid
    obtain ⟨hfirst, hrest⟩ := List.nodup_cons.mp hdistinct
    have hnew' : ∀ v ∈ us, v.call ∉ t.lock.calls ∧ v.sessionID ≠ [] := by
      intro v hv
      have hne : v.call ≠ u.call := fun heq => hfirst (heq ▸ List.mem_map_of_mem hv)
      obtain ⟨hvcall, hvsid⟩ := hnew v (List.mem_cons_of_mem u hv)
      refine ⟨?_, hvsid⟩
      rw [← GoMap.find_eq_none, hother v.call hne, GoMap.find_eq_none]
      exact hvcall
    obtain ⟨s', hturns, hfree'⟩ := ih hrest hfree hnew'
    exact ⟨s', .cons hturn hturns, hfree'⟩

/-- **Clients that take turns are all served.**  Let a running server be in any state in which
`/locks` has been made, and the directory of the lock, if it is there, is empty; neither of them is
ephemeral.  Then any number of clients, with any session ids that are not empty, can take turns with
the lock, and after them it is free again. -/
theorem turns_succeed {defaultTTL maxTTL now : Int}
    (hs : Lts.Reach step (newServer defaultTTL maxTTL now) s) (hname : IsElem name)
    (hlocks : LocksKept s.lock.store)
    (hfree : ∀ par, s.lock.store.nodes.find (render (lockDir name)) = some par →
      par.ephemeral = false ∧ par.children = [])
    (users : List Client) (hdistinct : (users.map Client.call).Nodup)
    (hnew : ∀ u ∈ users, u.call ∉ s.lock.calls ∧ u.sessionID ≠ []) :
    ∃ s', Turns name s users s' ∧ Unclaimed name s'.lock.store :=
  turns_of_unclaimed hname users hdistinct ⟨tree_of_server hs, hlocks, hfree⟩ hnew

/-- Two clients, after `/locks` has been made by a request. -/
theorem turns_succeed_two :
    ∃ s s', Lts.Reach step (newServer 10 60 0) s ∧
      Turns "x".toList s [⟨0, "alice".toList, "s1".toList, 0⟩, ⟨1, "bob".toList, "s2".toList, 0⟩]
        s' := by
  obtain ⟨s, hs, hlocks, hdir, hzero, hone⟩ : ∃ s, Lts.Reach step (newServer 10 60 0) s ∧
      (s.lock.store.nodes.find (render ["locks".toList])).map Node.ephemeral = some false ∧
      s.lock.store.nodes.find (render (lockDir "x".toList)) = none ∧
      0 ∉ s.lock.calls ∧ 1 ∉ s.lock.calls :=
    Lts.exists_reach [.createNode "locks".toList [] false false []] (by decide +kernel)
  have hfree : ∀ par, s.lock.store.nodes.find (render (lockDir "x".toList)) = some par →
      par.ephemeral = false ∧ par.children = [] := by
    intro par hpar
    rw [hdir] at hpar
    cases hpar
  obtain ⟨s', hturns, -⟩ := turns_succeed hs (by decide) (Option.map_eq_some_iff.mp hlocks) hfree
    [⟨0, "alice".toList, "s1".toList, 0⟩, ⟨1, "bob".toList, "s2".toList, 0⟩] (by decide)
    (by simp [hzero, hone])
  exact ⟨s, s', hs, hturns⟩

end Turns

/-! ## 5. A holder that dies -/

/-- **The end of a session.**  Time passes, the expiry check finds the session among those that have
run out, and its clean-up runs. -/
def Expires (sid : Str) (time : Int) (s s' : Sys) : Prop :=
  ∃ order listing, Lts.exec step s [.tick time, .checkExpirations order, .onExpire sid listing] =
    some s'

section Expiry

variable {name sid : Str} {l : Lock} {time : Int} {s s' : Sys}

theorem step_onExpire {listing : List Str} :
    step s (.onExpire sid listing) = some s' ↔
      sid ∈ s.expiring ∧ IsListing s.lock.store sid listing ∧
        { s with
          expiring := s.expiring.erase sid
          lock := { s.lock with
            store := s.lock.store.deleteEphemerals listing
            callbacks := s.lock.callbacks ++ listing } } = s' := by
  simp only [step, Sys.runLock, lockAction, Lock.step, Lock.Sys.runOp, Store.step,
    Lock.deletedPaths, Option.ite_none_right_eq_some, Option.map_map, Option.map_eq_some_iff,
    Function.comp]
  constructor
  · rintro ⟨hsid, _, ⟨hlisting, hst⟩, rfl⟩
    obtain rfl := Option.some.inj hst
    exact ⟨hsid, hlisting, rfl⟩
  · rintro ⟨hsid, hlisting, rfl⟩
    exact ⟨hsid, _, ⟨hlisting, rfl⟩, rfl⟩

/-- What is left after the end of a session. -/
theorem Expires.store (h : Expires sid time s s') :
    ∃ listing, IsListing s.lock.store sid listing ∧
      s'.lock.store = s.lock.store.deleteEphemerals listing ∧ s'.lock.calls = s.lock.calls := by
  obtain ⟨order, listing, hexec⟩ := h
  obtain ⟨t, htick, hexec⟩ := Option.bind_eq_some_iff.mp hexec
  obtain rfl := Option.some.inj (Option.ite_none_right_eq_some.mp htick).2
  obtain ⟨t, hcheck, hexec⟩ := Option.bind_eq_some_iff.mp hexec
  obtain rfl := Option.some.inj (Option.ite_none_right_eq_some.mp hcheck).2
  obtain ⟨t, hexpire, hexec⟩ := Option.bind_eq_some_iff.mp hexec
  obtain ⟨-, hlisting, rfl⟩ := step_onExpire.mp hexpire
  obtain rfl := Option.some.inj hexec
  exact ⟨listing, hlisting, rfl, rfl⟩

/-- A session that has run out can end. -/
theorem exists_expires {session : Session} (htime : s.now ≤ time)
    (hsession : s.sessions.sessions.find sid = some session)
    (hdead : session.isExpired time = true) : ∃ s', Expires sid time s s' := by
  let due := s.sessions.sessions.keysWhere fun session => session.isExpired time
  have hexpiry : s.sessions.IsExpiry time due.toList :=
    ⟨due.nodup_toList, due.toList_toFinset⟩
  have hdue : sid ∈ due.toList :=
    Finset.mem_toList.mpr (GoMap.mem_keysWhere.mpr ⟨session, hsession, hdead⟩)
  obtain ⟨listing, hlisting⟩ := exists_isListing s.lock.store sid
  let t : Sys := { s with
    now := time
    sessions := s.sessions.checkExpirations due.toList
    expiring := s.expiring ++ due.toList }
  have htick : step s (.tick time) = some { s with now := time } := if_pos htime
  have hcheck : step { s with now := time } (.checkExpirations due.toList) = some t :=
    if_pos hexpiry
  have hexpire := (step_onExpire (s := t)).mpr
    ⟨List.mem_append_right s.expiring hdue, hlisting, rfl⟩
  exact ⟨_, due.toList, listing, (Lts.exec_cons_of_step htick _).trans
    ((Lts.exec_cons_of_step hcheck _).trans (Lts.exec_cons_of_step hexpire []))⟩

/-- **A holder that dies does not keep the lock.**  If the holder's session has run out, and its
node is the only child of the lock's directory, the session can end, and however it ends, the lock
is free then, and any number of clients, with any session ids that are not empty, can take turns
with it. -/
theorem dead_holder_recovered {session : Session} (hname : IsElem name)
    (hheld : Held name l s.lock.store) (htime : s.now ≤ time)
    (hsession : s.sessions.sessions.find l.sessionID = some session)
    (hdead : session.isExpired time = true) :
    (∃ s', Expires l.sessionID time s s') ∧
    ∀ s', Expires l.sessionID time s s' →
      getLockInfo s'.lock.store name = .ok 200 ⟨name, false, [], 0⟩ ∧
      ∀ users : List Client, (users.map Client.call).Nodup →
        (∀ u ∈ users, u.call ∉ s.lock.calls ∧ u.sessionID ≠ []) → ∃ t, Turns name s' users t := by
  refine ⟨exists_expires htime hsession hdead, fun s' hs' => ?_⟩
  obtain ⟨listing, hlisting, hstore, hcalls⟩ := hs'.store
  obtain ⟨hfree, par, hpar⟩ := hheld.expired hlisting
  rw [← hstore] at hfree hpar
  refine ⟨getLockInfo_unclaimed hfree hname hpar, fun users hdistinct hnew => ?_⟩
  rw [← hcalls] at hnew
  obtain ⟨t, hturns, -⟩ := turns_of_unclaimed hname users hdistinct hfree hnew
  exact ⟨t, hturns⟩

/-- A client with ten seconds to live gets the lock, and is not heard of for twenty. -/
theorem dead_holder_recovered_alice :
    ∃ s l s', Held "x".toList l s.lock.store ∧ l.owner = "alice".toList ∧
      Expires l.sessionID (20 * 10 ^ 9) s s' ∧
      getLockInfo s'.lock.store "x".toList = .ok 200 ⟨"x".toList, false, [], 0⟩ := by
  obtain ⟨s₀, hs₀, hlocks, hdir, hcall, hnow, hdead⟩ : ∃ s,
      Lts.Reach step (newServer (10 * 10 ^ 9) (60 * 10 ^ 9) 0) s ∧
      (s.lock.store.nodes.find (render ["locks".toList])).map Node.ephemeral = some false ∧
      s.lock.store.nodes.find (render (lockDir "x".toList)) = none ∧ 0 ∉ s.lock.calls ∧
      s.now = 0 ∧ (s.sessions.sessions.find "s1".toList).map
        (fun session => session.isExpired (20 * 10 ^ 9)) = some true :=
    Lts.exists_reach [.createNode "locks".toList [] false false [],
      .createSession "s1".toList "alice".toList 10] (by decide +kernel)
  have hfree : Unclaimed "x".toList s₀.lock.store := by
    refine ⟨tree_of_server hs₀, Option.map_eq_some_iff.mp hlocks, fun par hpar => ?_⟩
    rw [hdir] at hpar
    cases hpar
  obtain ⟨k, l, t, -, hheld, -, howner, hsid, -⟩ :=
    Lock.exec_tryLock hfree (by decide) hcall "alice".toList "s1".toList 0
  obtain ⟨session, hsession, hexpired⟩ := Option.map_eq_some_iff.mp hdead
  rw [← hsid] at hsession
  obtain ⟨⟨s', hs'⟩, hall⟩ := dead_holder_recovered (s := { s₀ with lock := t }) (by decide) hheld
    (by rw [hnow]; decide) hsession hexpired
  exact ⟨_, l, s', hheld, howner, hs', (hall s' hs').1⟩

end Expiry

end SkyLock.Server
