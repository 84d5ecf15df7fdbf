/-
# What one step of the lock system does

`event_of_step` and `advance_cases` say once what a step can do: which action it is, which critical
section it enters, what that changes besides the call itself.  Everything later is derived from
these two.

Nearly every step of the system is QUIET for the questions of mutual exclusion and fairness: it
moves a call, a table or the store, but no call gets a queue node and no check succeeds.  The two
others are the creation of a queue node (`enqueue`) and a successful check (`grant`).
`effect_of_step` says so, with everything the later inductions need to know about the store
operation a quiet step may make.
-/
import SkyLock.Lock.Basic

namespace SkyLock.Lock

open Store Sys

variable {s s' : Sys} {a : Action} {id : Nat} {c : Call}

/-! ## 1. Critical sections -/

/-- The lock of a call whose queue node the store has put at `path`. -/
def Call.lockAt (c : Call) (path : Str) : Lock :=
  ⟨c.name, c.owner, c.sessionID, path, parseSequence path (lockPath c.name)⟩

/-- The `Create` by which a call gets its queue node. -/
def Call.createQueueNode (c : Call) (st : Store) : Store × Except StoreErr Str :=
  st.create (queuePath c.name) c.owner true c.sessionID true

/-- The system after the store operation `op`, which has left the store `st`. -/
def Sys.ran (s : Sys) (op : StoreOp) (st : Store) : Sys :=
  { s with store := st, callbacks := s.callbacks ++ deletedPaths s.store op }

theorem runOp_eq_some {op : StoreOp} :
    s.runOp op = some s' ↔ ∃ st, Store.step s.store op = some st ∧ s' = s.ran op st := by
  rw [runOp, Option.map_eq_some_iff]
  exact exists_congr fun st => and_congr_right fun _ => eq_comm

/-- **What a critical section does.**  The call `c` is at the program counter it names, moves to
another one, and changes the rest of the system to `t`. -/
inductive CriticalSection (s : Sys) (id : Nat) (c : Call) : Sys → Pc → Prop
  | look (pc : c.pc = .ensure) :
    CriticalSection s id c s (if s.store.existsPath (lockPath c.name) then .enqueue else .mkdir)
  | mkdir (st : Store) (pc : c.pc = .mkdir)
    (hst : Store.step s.store (.create (lockPath c.name) [] false [] false) = some st) :
    CriticalSection s id c (s.ran (.create (lockPath c.name) [] false [] false) st) .enqueue
  | refused (st : Store) (e : StoreErr) (pc : c.pc = .enqueue)
    (err : (c.createQueueNode s.store).2 = .error e)
    (hst : Store.step s.store (.create (queuePath c.name) c.owner true c.sessionID true) =
      some st) :
    CriticalSection s id c (s.ran (.create (queuePath c.name) c.owner true c.sessionID true) st)
      (.failed (.store e))
  | enqueue (st : Store) (path : Str) (pc : c.pc = .enqueue)
    (created : (c.createQueueNode s.store).2 = .ok path)
    (hst : Store.step s.store (.create (queuePath c.name) c.owner true c.sessionID true) =
      some st) :
    CriticalSection s id c (s.ran (.create (queuePath c.name) c.owner true c.sessionID true) st)
      (.queued (c.lockAt path) .check)
  | checkFails (l : Lock) (ph : Phase) (waited : Bool) (e : StoreErr) (pc : c.pc = .queued l ph)
    (hph : ph = .check ∧ waited = false ∨ ph = .recheck ∧ waited = true)
    (err : checkLockAcquired s.store (lockPath l.name) l.path = .error e) :
    CriticalSection s id c s (.queued l (.abort (.store e) waited))
  | grant (l : Lock) (ph : Phase) (waited : Bool) (pc : c.pc = .queued l ph)
    (hph : ph = .check ∧ waited = false ∨ ph = .recheck ∧ waited = true)
    (ok : checkLockAcquired s.store (lockPath l.name) l.path = .ok true) :
    CriticalSection s id c (s.grant id l) (.queued l (.record waited))
  | behind (l : Lock) (ph next : Phase) (pc : c.pc = .queued l ph)
    (hph : ph = .check ∧ next = (if c.timeout < 0 then .abort .timeout false else .register) ∨
      ph = .recheck ∧ next = .waiting)
    (ok : checkLockAcquired s.store (lockPath l.name) l.path = .ok false) :
    CriticalSection s id c s (.queued l next)
  | register (l : Lock) (pc : c.pc = .queued l .register) :
    CriticalSection s id c (s.setWaiters l.name (s.waitersOf l.name ++ [id])) (.queued l .waiting)
  | wake (l : Lock) (pc : c.pc = .queued l .waiting) (signal : c.signal = true) :
    CriticalSection s id c s (.queued l .recheck)
  | record (l : Lock) (waited : Bool) (pc : c.pc = .queued l (.record waited)) :
    CriticalSection s id c { s with locks := s.locks.insert l.path l }
      (.queued l (exit waited none))
  | delete (l : Lock) (err : LockErr) (waited : Bool) (st : Store)
    (pc : c.pc = .queued l (.abort err waited))
    (hst : Store.step s.store (.delete l.path (-1)) = some st) :
    CriticalSection s id c (s.ran (.delete l.path (-1)) st) (.queued l (exit waited (some err)))
  | leave (l : Lock) (err : Option LockErr) (pc : c.pc = .queued l (.leave err)) :
    CriticalSection s id c (s.setWaiters l.name ((s.waitersOf l.name).erase id))
      (.queued l (.done err))

/-- A check, the first or a later one. -/
theorem afterCheck_cases (s : Sys) (id : Nat) {l : Lock} {ph next : Phase} {w : Bool}
    (pc : c.pc = .queued l ph) (hph : ph = .check ∧ w = false ∨ ph = .recheck ∧ w = true)
    (hnext : ph = .check ∧ next = (if c.timeout < 0 then .abort .timeout false else .register) ∨
      ph = .recheck ∧ next = .waiting) :
    ∃ t pc, CriticalSection s id c t pc ∧ s.afterCheck id c l w next = t.goto id c pc := by
  unfold afterCheck
  split
  · rename_i e he
    exact ⟨_, _, .checkFails l ph w e pc hph he, rfl⟩
  · rename_i hok
    exact ⟨_, _, .grant l ph w pc hph hok, rfl⟩
  · rename_i hok
    exact ⟨_, _, .behind l ph next pc hnext hok, rfl⟩

/-- A call advances by one critical section, which replaces the call itself. -/
theorem advance_cases (h : s.advance id c = some s') :
    ∃ t pc signal, CriticalSection s id c t pc ∧ s' = t.setCall id { c with pc, signal } := by
  unfold Sys.advance at h
  split at h
  · rename_i pc
    cases h
    exact ⟨_, _, _, .look pc, rfl⟩
  · rename_i pc
    simp only [Option.map_eq_some_iff, runOp_eq_some] at h
    obtain ⟨_, ⟨st, hst, rfl⟩, rfl⟩ := h
    exact ⟨_, _, _, .mkdir st pc hst, rfl⟩
  · rename_i pc
    simp only [Option.map_eq_some_iff, runOp_eq_some] at h
    obtain ⟨_, ⟨st, hst, rfl⟩, rfl⟩ := h
    split
    · rename_i e he
      exact ⟨_, _, _, .refused st e pc he hst, rfl⟩
    · rename_i path hok
      exact ⟨_, _, _, .enqueue st path pc hok hst, rfl⟩
  · cases h
  · rename_i l ph pc
    cases ph with
    | check =>
      cases h
      obtain ⟨t, pc', hsec, heq⟩ := afterCheck_cases s id pc (.inl ⟨rfl, rfl⟩) (.inl ⟨rfl, rfl⟩)
      exact ⟨t, pc', _, hsec, heq⟩
    | recheck =>
      cases h
      obtain ⟨t, pc', hsec, heq⟩ := afterCheck_cases s id pc (.inr ⟨rfl, rfl⟩) (.inr ⟨rfl, rfl⟩)
      exact ⟨t, pc', _, hsec, heq⟩
    | register =>
      cases h
      exact ⟨_, _, _, .register l pc, rfl⟩
    | waiting =>
      simp only [advanceQueued, Option.ite_none_right_eq_some, Option.some.injEq] at h
      obtain ⟨hsignal, rfl⟩ := h
      exact ⟨_, _, _, .wake l pc hsignal, rfl⟩
    | record w =>
      cases h
      exact ⟨_, _, _, .record l w pc, rfl⟩
    | abort err w =>
      simp only [advanceQueued, Option.map_eq_some_iff, runOp_eq_some] at h
      obtain ⟨_, ⟨st, hst, rfl⟩, rfl⟩ := h
      exact ⟨_, _, _, .delete l err w st pc hst, rfl⟩
    | leave err =>
      cases h
      exact ⟨_, _, _, .leave l err pc, rfl⟩
    | done err => cases h

/-- A critical section leaves the table of the calls to the call itself. -/
theorem CriticalSection.calls {t : Sys} {pc : Pc} (h : CriticalSection s id c t pc) :
    t.calls = s.calls := by
  cases h <;> rfl

/-- **What a step can be.** -/
inductive Event (s : Sys) : Action → Sys → Prop
  | tryLock (id : Nat) (name owner sessionID : Str) (timeout : Int) (new : id ∉ s.calls) :
    Event s (.tryLock id name owner sessionID timeout)
      (s.setCall id ⟨name, owner, sessionID, timeout, .ensure, false⟩)
  | advance (id : Nat) (c : Call) (hc : s.calls.find id = some c) {s' : Sys}
    (after : s.advance id c = some s') : Event s (.advance id) s'
  | timer (id : Nat) (c : Call) (l : Lock) (hc : s.calls.find id = some c)
    (pc : c.pc = .queued l .waiting) (limit : c.timeout > 0) :
    Event s (.timer id) (s.goto id c (.queued l (.abort .timeout true)))
  | unlockNothing (lock : Lock) (path : lock.path = []) : Event s (.unlock lock) s
  | unlock (lock : Lock) (path : lock.path ≠ []) :
    Event s (.unlock lock)
      { s with locks := s.locks.erase lock.path, unlocking := s.unlocking ++ [lock.path] }
  | unlockDelete (path : Str) (pending : path ∈ s.unlocking) (st : Store)
    (hst : Store.step s.store (.delete path (-1)) = some st) :
    Event s (.unlockDelete path)
      ({ s with unlocking := s.unlocking.erase path }.ran (.delete path (-1)) st)
  | node (op : StoreOp) (st : Store) (hst : Store.step s.store op = some st) :
    Event s (.node op) (s.ran op st)
  | callback (path : Str) (pending : path ∈ s.callbacks) :
    Event s (.callback path) { s with callbacks := s.callbacks.erase path }
  | notify (path : Str) (pending : path ∈ s.callbacks) (w : Nat) (c : Call)
    (hc : s.calls.find w = some c) :
    Event s (.callback path)
      ({ s with callbacks := s.callbacks.erase path }.setCall w { c with signal := true })

theorem notify_cases (s : Sys) (name : Str) :
    s.notify name = s ∨
      ∃ w c, s.calls.find w = some c ∧ s.notify name = s.setCall w { c with signal := true } := by
  unfold notify
  split
  · split
    · rename_i c hc
      exact .inr ⟨_, c, hc, rfl⟩
    · exact .inl rfl
  · exact .inl rfl

theorem event_of_step (h : step s a = some s') : Event s a s' := by
  cases a with
  | tryLock id name owner sessionID timeout =>
    simp only [step, Option.ite_none_left_eq_some, Option.some.injEq] at h
    obtain ⟨new, rfl⟩ := h
    exact .tryLock id name owner sessionID timeout new
  | advance id =>
    simp only [step] at h
    split at h
    · rename_i c hc
      exact .advance id c hc h
    · cases h
  | timer id =>
    simp only [step] at h
    split at h
    · rename_i c hc
      split at h
      · rename_i l pc
        simp only [Option.ite_none_right_eq_some, Option.some.injEq] at h
        obtain ⟨limit, rfl⟩ := h
        exact .timer id c l hc pc limit
      · cases h
    · cases h
  | unlock lock =>
    simp only [step] at h
    split at h
    · rename_i path
      cases h
      exact .unlockNothing lock path
    · rename_i path
      cases h
      exact .unlock lock path
  | unlockDelete path =>
    simp only [step, Option.ite_none_right_eq_some, runOp_eq_some] at h
    obtain ⟨pending, st, hst, rfl⟩ := h
    exact .unlockDelete path pending st hst
  | node op =>
    simp only [step, runOp_eq_some] at h
    obtain ⟨st, hst, rfl⟩ := h
    exact .node op st hst
  | callback path =>
    simp only [step, Option.ite_none_right_eq_some] at h
    obtain ⟨pending, h⟩ := h
    split at h
    · cases h
      unfold onNodeDeleted
      split
      · rename_i name _
        rcases notify_cases { s with callbacks := s.callbacks.erase path } name with
          heq | ⟨w, c, hc, heq⟩
        · rw [heq]
          exact .callback path pending
        · rw [heq]
          exact .notify path pending w c hc
      · exact .callback path pending
    · cases h
      exact .callback path pending

/-! ## 2. The view of a state -/

/-- The lock of a call that has a queue node. -/
def Pc.lock? : Pc → Option Lock
  | queued l _ => some l
  | _ => none

def Pc.granted : Pc → Bool
  | queued _ ph => ph.granted
  | _ => false

/-- The lock of the call `id`, once its queue node has been created. -/
def Sys.lockOf (s : Sys) (id : Nat) : Option Lock := (s.calls.find id).bind fun c => c.pc.lock?

/-- Has the call `id` had a successful check? -/
def Sys.granted (s : Sys) (id : Nat) : Bool := (s.calls.find id).any fun c => c.pc.granted

theorem lockOf_setCall (s : Sys) (id : Nat) (c : Call) (i : Nat) :
    (s.setCall id c).lockOf i = if i = id then c.pc.lock? else s.lockOf i := by
  simp only [Sys.lockOf, setCall, GoMap.find_insert]
  split <;> rfl

theorem granted_setCall (s : Sys) (id : Nat) (c : Call) (i : Nat) :
    (s.setCall id c).granted i = if i = id then c.pc.granted else s.granted i := by
  simp only [Sys.granted, setCall, GoMap.find_insert]
  split <;> rfl

theorem lockOf_of_find (hc : s.calls.find id = some c) : s.lockOf id = c.pc.lock? := by
  simp [Sys.lockOf, hc]

theorem granted_of_find (hc : s.calls.find id = some c) : s.granted id = c.pc.granted := by
  simp [Sys.granted, hc]

/-- Two states that agree on who has which queue node and on who has been granted. -/
structure SameView (s s' : Sys) : Prop where
  lockOf : ∀ i, s'.lockOf i = s.lockOf i
  granted : ∀ i, s'.granted i = s.granted i
  grants : s'.grants = s.grants

theorem SameView.of_eq (hc : s'.calls = s.calls) (hg : s'.grants = s.grants) : SameView s s' := by
  refine ⟨fun i => ?_, fun i => ?_, hg⟩
  · rw [Sys.lockOf, Sys.lockOf, hc]
  · rw [Sys.granted, Sys.granted, hc]

/-- Replacing a call by one with the same queue node and the same standing. -/
theorem SameView.setCall {c' : Call} {t : Sys} (hc : s.calls.find id = some c)
    (ht : t.calls = s.calls) (hg : t.grants = s.grants) (hl : c'.pc.lock? = c.pc.lock?)
    (hgr : c'.pc.granted = c.pc.granted) : SameView s (t.setCall id c') := by
  have hst : SameView s t := SameView.of_eq ht hg
  refine ⟨fun i => ?_, fun i => ?_, hg⟩
  · rw [lockOf_setCall, hst.lockOf]
    split
    · rename_i hi
      rw [hi, lockOf_of_find hc, hl]
    · rfl
  · rw [granted_setCall, hst.granted]
    split
    · rename_i hi
      rw [hi, granted_of_find hc, hgr]
    · rfl

/-! ## 3. The three effects -/

/-- The store operations of quiet steps: somebody else's, a deletion, the creation of a lock's
directory, and a creation of a queue node that fails. -/
inductive Issues (s : Sys) : Action → StoreOp → Prop
  | node (op : StoreOp) : Issues s (.node op) op
  | delete (a : Action) (p : Str) (v : Int) : Issues s a (.delete p v)
  | mkdir (a : Action) (id : Nat) (c : Call) (call : s.calls.find id = some c) :
      Issues s a (.create (lockPath c.name) [] false [] false)
  | failed (a : Action) (c : Call) (e : StoreErr) (err : (c.createQueueNode s.store).2 = .error e) :
      Issues s a (.create (queuePath c.name) c.owner true c.sessionID true)

inductive Effect (s : Sys) (a : Action) (s' : Sys) : Prop
  | quiet (view : SameView s s')
      (store : s'.store = s.store ∨ ∃ op, Issues s a op ∧ Store.step s.store op = some s'.store)
  | enqueue (id : Nat) (c : Call) (path : Str) (call : s.calls.find id = some c)
      (pc : c.pc = .enqueue) (created : (c.createQueueNode s.store).2 = .ok path)
      (store : s'.store = (c.createQueueNode s.store).1)
      (lockOf : ∀ i, s'.lockOf i = if i = id then some (c.lockAt path) else s.lockOf i)
      (granted : ∀ i, s'.granted i = s.granted i) (grants : s'.grants = s.grants)
  | grant (id : Nat) (l : Lock) (lock : s.lockOf id = some l) (fresh : s.granted id = false)
      (check : checkLockAcquired s.store (lockPath l.name) l.path = .ok true)
      (store : s'.store = s.store) (lockOf : ∀ i, s'.lockOf i = s.lockOf i)
      (granted : ∀ i, s'.granted i = if i = id then true else s.granted i)
      (grants : s'.grants = (s.grant id l).grants)

theorem granted_exit_none (w : Bool) : (exit w none).granted = true := by cases w <;> rfl

theorem granted_exit_some (w : Bool) (e : LockErr) : (exit w (some e)).granted = false := by
  cases w <;> rfl

/-- A critical section is quiet, creates the call's queue node, or is a successful check. -/
theorem CriticalSection.effect {t : Sys} {pc : Pc} {signal : Bool}
    (hc : s.calls.find id = some c) (h : CriticalSection s id c t pc) :
    Effect s a (t.setCall id { c with pc, signal }) := by
  -- a section that changes neither the lock nor the standing of its call
  have quiet : ∀ {t : Sys} {pc : Pc}, t.calls = s.calls → t.grants = s.grants →
      pc.lock? = c.pc.lock? → pc.granted = c.pc.granted →
      (t.store = s.store ∨ ∃ op, Issues s a op ∧ Store.step s.store op = some t.store) →
      Effect s a (t.setCall id { c with pc, signal }) :=
    fun ht hg hl hgr hst => .quiet (SameView.setCall hc ht hg hl hgr) hst
  cases h with
  | look pc =>
    refine quiet rfl rfl ?_ ?_ (.inl rfl)
    · rw [pc]
      split <;> rfl
    · rw [pc]
      split <;> rfl
  | mkdir st pc hst =>
    exact quiet rfl rfl (by rw [pc]; rfl) (by rw [pc]; rfl) (.inr ⟨_, .mkdir a id c hc, hst⟩)
  | refused st e pc err hst =>
    exact quiet rfl rfl (by rw [pc]; rfl) (by rw [pc]; rfl) (.inr ⟨_, .failed a c e err, hst⟩)
  | enqueue st path pc created hst =>
    refine .enqueue id c path hc pc created (Option.some.inj hst).symm (fun i => ?_) (fun i => ?_)
      rfl
    · rw [lockOf_setCall]
      rfl
    · rw [granted_setCall]
      split
      · rename_i hi
        rw [hi, granted_of_find hc, pc]
        rfl
      · rfl
  | checkFails l ph w e pc hph =>
    refine quiet rfl rfl (by rw [pc]; rfl) ?_ (.inl rfl)
    rcases hph with ⟨rfl, -⟩ | ⟨rfl, -⟩
    · rw [pc]
      rfl
    · rw [pc]
      rfl
  | grant l ph w pc hph ok =>
    have hl : s.lockOf id = some l := by
      rw [lockOf_of_find hc, pc]
      rfl
    have hg : s.granted id = false := by
      rw [granted_of_find hc, pc]
      rcases hph with ⟨rfl, -⟩ | ⟨rfl, -⟩
      · rfl
      · rfl
    refine .grant id l hl hg ok rfl (fun i => ?_) (fun i => ?_) rfl
    · rw [lockOf_setCall]
      split
      · rename_i hi
        rw [hi, hl]
        rfl
      · rfl
    · rw [granted_setCall]
      rfl
  | behind l ph next pc hph =>
    refine quiet rfl rfl (by rw [pc]; rfl) ?_ (.inl rfl)
    rcases hph with ⟨rfl, rfl⟩ | ⟨rfl, rfl⟩
    · rw [pc]
      split <;> rfl
    · rw [pc]
      rfl
  | register l pc | wake l pc => exact quiet rfl rfl (by rw [pc]; rfl) (by rw [pc]; rfl) (.inl rfl)
  | record l w pc =>
    refine quiet rfl rfl (by rw [pc]; rfl) ?_ (.inl rfl)
    rw [pc]
    exact granted_exit_none w
  | delete l err w st pc hst =>
    refine quiet rfl rfl (by rw [pc]; rfl) ?_ (.inr ⟨_, .delete _ _ _, hst⟩)
    rw [pc]
    exact granted_exit_some w err
  | leave l err pc =>
    refine quiet rfl rfl (by rw [pc]; rfl) ?_ (.inl rfl)
    rw [pc]
    cases err <;> rfl

/-- **Every step is quiet, creates one queue node, or is one successful check.** -/
theorem effect_of_step (h : step s a = some s') : Effect s a s' := by
  cases event_of_step h with
  | tryLock id name owner sessionID timeout new =>
    have hnone : s.calls.find id = none := GoMap.find_eq_none.mpr new
    refine .quiet ⟨fun i => ?_, fun i => ?_, rfl⟩ (.inl rfl)
    · rw [lockOf_setCall]
      split
      · rename_i hi
        rw [hi, Sys.lockOf, hnone]
        rfl
      · rfl
    · rw [granted_setCall]
      split
      · rename_i hi
        rw [hi, Sys.granted, hnone]
        rfl
      · rfl
  | advance id c hc after =>
    obtain ⟨t, pc, signal, hsec, rfl⟩ := advance_cases after
    exact hsec.effect hc
  | timer id c l hc pc =>
    exact .quiet (SameView.setCall hc rfl rfl (by rw [pc]; rfl) (by rw [pc]; rfl)) (.inl rfl)
  | unlockNothing | unlock | callback => exact .quiet (SameView.of_eq rfl rfl) (.inl rfl)
  | unlockDelete path _ st hst =>
    exact .quiet (SameView.of_eq rfl rfl) (.inr ⟨_, .delete _ _ _, hst⟩)
  | node op st hst => exact .quiet (SameView.of_eq rfl rfl) (.inr ⟨op, .node op, hst⟩)
  | notify path _ w c hc => exact .quiet (SameView.setCall hc rfl rfl rfl rfl) (.inl rfl)

/-- A call keeps its lock for good. -/
theorem lockOf_of_step (h : step s a = some s') {i : Nat} {l : Lock} (hl : s.lockOf i = some l) :
    s'.lockOf i = some l := by
  cases effect_of_step h with
  | quiet hv => exact (hv.lockOf i).trans hl
  | grant _ _ _ _ _ _ hlo => exact (hlo i).trans hl
  | enqueue id c _ hc hpc _ _ hlo =>
    have hi : i ≠ id := by
      rintro rfl
      rw [lockOf_of_find hc, hpc] at hl
      exact absurd hl nofun
    rw [hlo, if_neg hi]
    exact hl

/-- A lock was there before, or is that of a queue node that the step has created. -/
theorem lock_of_step (h : step s a = some s') {i : Nat} {l : Lock} (hl : s'.lockOf i = some l) :
    s.lockOf i = some l ∨ ∃ c path, s.calls.find i = some c ∧
      (c.createQueueNode s.store).2 = .ok path ∧ l = c.lockAt path := by
  cases effect_of_step h with
  | quiet hv => exact .inl ((hv.lockOf i).symm.trans hl)
  | grant _ _ _ _ _ _ hlo => exact .inl ((hlo i).symm.trans hl)
  | enqueue id c path hc _ hok _ hlo =>
    rw [hlo] at hl
    by_cases hi : i = id
    · rw [if_pos hi] at hl
      exact .inr ⟨c, path, hi ▸ hc, hok, (Option.some.inj hl).symm⟩
    · rw [if_neg hi] at hl
      exact .inl hl

/-! ## 4. The call that moves -/

/-- The same request: everything a call keeps from its start. -/
def Call.Same (c c' : Call) : Prop :=
  c' = { c with pc := c'.pc, signal := c'.signal }

theorem Call.same_goto (c : Call) (pc : Pc) (signal : Bool) : c.Same { c with pc, signal } := rfl

theorem find_of_setCall {t : Sys} {c₁ c' : Call} {i : Nat} (ht : t.calls = s.calls)
    (hc' : (t.setCall id c₁).calls.find i = some c') :
    i = id ∧ c' = c₁ ∨ s.calls.find i = some c' := by
  simp only [Sys.setCall, ht, GoMap.find_insert] at hc'
  split at hc'
  · rename_i hi
    exact .inl ⟨hi, (Option.some.inj hc').symm⟩
  · exact .inr hc'

/-- **What a step does to a call**: it begins, enters its next critical section or gives up
waiting, or it stays where it is and is at most notified. -/
inductive CallStep (s : Sys) (a : Action) (s' : Sys) (i : Nat) (c' : Call) : Prop
  | stay (c : Call) (hc : s.calls.find i = some c) (same : c.Same c') (pc : c'.pc = c.pc)
  | start (call : a = .tryLock i c'.name c'.owner c'.sessionID c'.timeout) (pc : c'.pc = .ensure)
  | advance (c : Call) (hc : s.calls.find i = some c) (same : c.Same c')
    (after : s.advance i c = some s')
  | giveUp (c : Call) (lock : Lock) (hc : s.calls.find i = some c) (same : c.Same c')
    (pc : c'.pc = .queued lock (.abort .timeout true))

theorem CallStep.of_find {i : Nat} {c' : Call} (hc' : s.calls.find i = some c') :
    CallStep s a s' i c' := .stay c' hc' rfl rfl

theorem callStep_of_step (h : step s a = some s') {i : Nat} {c' : Call}
    (hc' : s'.calls.find i = some c') : CallStep s a s' i c' := by
  cases event_of_step h with
  | tryLock id name owner sessionID timeout =>
    rcases find_of_setCall rfl hc' with ⟨rfl, rfl⟩ | hc'
    · exact .start rfl rfl
    · exact .of_find hc'
  | advance id c hc after =>
    obtain ⟨t, pc, signal, hsec, rfl⟩ := advance_cases after
    rcases find_of_setCall hsec.calls hc' with ⟨rfl, rfl⟩ | hc'
    · exact .advance c hc (Call.same_goto _ _ _) after
    · exact .of_find hc'
  | timer id c l hc =>
    rcases find_of_setCall rfl hc' with ⟨rfl, rfl⟩ | hc'
    · exact .giveUp c l hc (Call.same_goto _ _ _) rfl
    · exact .of_find hc'
  | unlockNothing | unlock | unlockDelete | node | callback => exact .of_find hc'
  | notify path _ w c hc =>
    rcases find_of_setCall rfl hc' with ⟨rfl, rfl⟩ | hc'
    · exact .stay c hc (Call.same_goto _ _ _) rfl
    · exact .of_find hc'

/-- A call after a step was there before it, with the same request, or has just been made. -/
theorem call_of_step (h : step s a = some s') {i : Nat} {c' : Call}
    (hc' : s'.calls.find i = some c') :
    (∃ c, s.calls.find i = some c ∧ c.Same c') ∨
      a = .tryLock i c'.name c'.owner c'.sessionID c'.timeout := by
  cases callStep_of_step h hc' with
  | stay c hc same => exact .inl ⟨c, hc, same⟩
  | start call => exact .inr call
  | advance c hc same => exact .inl ⟨c, hc, same⟩
  | giveUp c lock hc same => exact .inl ⟨c, hc, same⟩

/-! ## 5. The store operation of a step -/

/-- The store operation by which a call advances, if it makes one. -/
def Call.op? (c : Call) : Option StoreOp :=
  match c.pc with
  | .mkdir => some (.create (lockPath c.name) [] false [] false)
  | .enqueue => some (.create (queuePath c.name) c.owner true c.sessionID true)
  | .queued l (.abort _ _) => some (.delete l.path (-1))
  | _ => none

/-- The store operation that an action makes, if it makes one. -/
def Sys.op? (s : Sys) : Action → Option StoreOp
  | .advance id => (s.calls.find id).bind Call.op?
  | .unlockDelete path => if path ∈ s.unlocking then some (.delete path (-1)) else none
  | .node op => some op
  | _ => none

/-- **What the store is asked to do, and by whom.** -/
inductive Makes (s : Sys) : Action → StoreOp → Prop
  | mkdir (i : Nat) (c : Call) (call : s.calls.find i = some c) :
    Makes s (.advance i) (.create (lockPath c.name) [] false [] false)
  | enqueue (i : Nat) (c : Call) (call : s.calls.find i = some c) (pc : c.pc = .enqueue) :
    Makes s (.advance i) (.create (queuePath c.name) c.owner true c.sessionID true)
  | delete {a : Action} (path : Str) : Makes s a (.delete path (-1))
  | node (op : StoreOp) : Makes s (.node op) op

theorem makes_of_op {op : StoreOp} (h : s.op? a = some op) : Makes s a op := by
  cases a with
  | advance i =>
    obtain ⟨c, hc, h⟩ := Option.bind_eq_some_iff.mp h
    unfold Call.op? at h
    split at h
    · obtain rfl := Option.some.inj h
      exact .mkdir i c hc
    · rename_i hpc
      obtain rfl := Option.some.inj h
      exact .enqueue i c hc hpc
    · obtain rfl := Option.some.inj h
      exact .delete _
    · cases h
  | unlockDelete path =>
    simp only [Sys.op?, Option.ite_none_right_eq_some, Option.some.injEq] at h
    obtain ⟨-, rfl⟩ := h
    exact .delete path
  | node op' =>
    obtain rfl := Option.some.inj h
    exact .node op'
  | tryLock | timer | unlock | callback => cases h

/-- `st'` is what the optional operation leaves of `st`. -/
def Leaves (st st' : Store) : Option StoreOp → Prop
  | none => st' = st
  | some op => Store.step st op = some st'

theorem tree_of_leaves {st st' : Store} {op? : Option StoreOp} (h : Tree st)
    (hl : Leaves st st' op?) : Tree st' := by
  cases op? with
  | none =>
    rw [show st' = st from hl]
    exact h
  | some op => exact h.step hl

theorem CriticalSection.store {t : Sys} {pc : Pc} (h : CriticalSection s id c t pc) :
    Leaves s.store t.store c.op? := by
  unfold Call.op?
  cases h with
  | checkFails l ph w e pc hph | grant l ph w pc hph =>
    rcases hph with ⟨rfl, -⟩ | ⟨rfl, -⟩
    · rw [pc]
      rfl
    · rw [pc]
      rfl
  | behind l ph next pc hph =>
    rcases hph with ⟨rfl, -⟩ | ⟨rfl, -⟩
    · rw [pc]
      rfl
    · rw [pc]
      rfl
  | mkdir st pc hst | refused st _ pc _ hst | enqueue st _ pc _ hst | delete _ _ _ st pc hst =>
    rw [pc]
    exact hst
  | look pc | register _ pc | wake _ pc | record _ _ pc | leave _ _ pc =>
    rw [pc]
    rfl

/-- **A step changes the store by the operation it makes, and by nothing else.** -/
theorem store_of_step (h : step s a = some s') : Leaves s.store s'.store (s.op? a) := by
  cases event_of_step h with
  | advance id c hc after =>
    obtain ⟨t, pc, signal, hsec, rfl⟩ := advance_cases after
    simp only [Sys.op?, hc]
    exact hsec.store
  | unlockDelete path pending st hst =>
    simp only [Sys.op?, if_pos pending]
    exact hst
  | node op st hst => exact hst
  | tryLock | timer | unlockNothing | unlock | callback | notify => exact rfl

end SkyLock.Lock
