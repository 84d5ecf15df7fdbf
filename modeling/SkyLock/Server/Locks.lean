/-
# Lock requests as main wires them

main replaces the delete callback that the lock manager has registered with the store, so nobody
puts a token into a waiter's channel.  Two things follow for every request to `acquireLock`, in any
run of the server.

The first check decides.  A call that has found somebody before it never gets the lock, even if the
lock is free long before its time is up; its answer is `ErrLockTimeout`'s, status 408
(`waiting_is_futile`).

Every call comes back.  The handler turns a missing timeout into thirty seconds, so `TryLock` never
waits without a timer; until a call has returned, its next critical section or its timer can run,
and after at most eight such steps it has returned (`lock_calls_return`).
-/
import SkyLock.Lib.Service
import SkyLock.Server.Cluster
import SkyLock.Server.Handlers

namespace SkyLock.Server

open Lock (Call CriticalSection LockErr Pc Phase)

/-! ## 1. Calls that nobody notifies -/

section Calls

variable {s s' t : Lock.Sys} {a : Lock.Action} {i : Nat} {c c' : Call} {pc : Pc} {l : Lock}

/-- How many critical sections, or timers, a call has before it at most. -/
def rank : Pc → Nat
  | .ensure => 8
  | .mkdir => 7
  | .enqueue => 6
  | .queued _ .check => 5
  | .queued _ .register => 4
  | .queued _ .waiting => 3
  | .queued _ .recheck => 3
  | .queued _ (.record _) => 2
  | .queued _ (.abort _ _) => 2
  | .queued _ (.leave _) => 1
  | .queued _ (.done _) => 0
  | .failed _ => 0

/-- The program counters of a call that has a timer and no signal. -/
def Unnotified (timeout : Int) : Pc → Prop
  | .queued _ .register => 0 < timeout
  | .queued _ .waiting => 0 < timeout
  | .queued _ .recheck => False
  | .queued _ (.record waited) => waited = false
  | .queued _ (.leave err) => err ≠ none
  | _ => True

structure Plain (c : Call) : Prop where
  signal : c.signal = false
  timeout : c.timeout ≠ 0
  pc : Unnotified c.timeout c.pc

/-- main's wiring, and every call as it leaves it. -/
structure Wired (s : Lock.Sys) : Prop where
  handler : s.onNodeDelete = .watchManager
  plain : ∀ i c, s.calls.find i = some c → Plain c

theorem find_goto (s : Lock.Sys) (i : Nat) (c : Call) (pc : Pc) :
    (s.goto i c pc).calls.find i = some { c with pc } := by
  rw [Lock.Sys.goto, Lock.Sys.setCall, GoMap.find_insert, if_pos rfl]

/-- Only receiving the signal changes it. -/
theorem signal_of_advance (hsignal : c.signal = false) (h : s.advance i c = some s') :
    (s'.calls.find i).map Call.signal = some false := by
  unfold Lock.Sys.advance at h
  split at h
  · obtain rfl := Option.some.inj h
    rw [find_goto]
    exact congrArg some hsignal
  · obtain ⟨t, -, rfl⟩ := Option.map_eq_some_iff.mp h
    rw [find_goto]
    exact congrArg some hsignal
  · obtain ⟨t, -, rfl⟩ := Option.map_eq_some_iff.mp h
    split
    · rw [find_goto]
      exact congrArg some hsignal
    · rw [find_goto]
      exact congrArg some hsignal
  · cases h
  · rename_i l ph pc
    cases ph with
    | check | recheck =>
      obtain rfl := Option.some.inj h
      unfold Lock.Sys.afterCheck
      split
      · rw [find_goto]
        exact congrArg some hsignal
      · rw [find_goto]
        exact congrArg some hsignal
      · rw [find_goto]
        exact congrArg some hsignal
    | waiting =>
      obtain ⟨hset, -⟩ := Option.ite_none_right_eq_some.mp h
      rw [hsignal] at hset
      cases hset
    | register | record | leave =>
      obtain rfl := Option.some.inj h
      rw [find_goto]
      exact congrArg some hsignal
    | abort =>
      obtain ⟨t, -, rfl⟩ := Option.map_eq_some_iff.mp h
      rw [find_goto]
      exact congrArg some hsignal
    | done => cases h

/-- **One critical section** of a plain call: it gets closer to its end. -/
theorem Plain.critical (hc : Plain c) (h : CriticalSection s i c t pc) :
    Unnotified c.timeout pc ∧ rank pc < rank c.pc := by
  have hpc := hc.pc
  have htimeout := hc.timeout
  cases h with
  | look pc =>
    rw [pc]
    split
    · exact ⟨trivial, by decide⟩
    · exact ⟨trivial, by decide⟩
  | mkdir st pc | refused st e pc | enqueue st path pc =>
    rw [pc]
    exact ⟨trivial, by simp [rank]⟩
  | checkFails l ph waited e pc hph =>
    rw [pc] at hpc ⊢
    rcases hph with ⟨rfl, rfl⟩ | ⟨rfl, -⟩
    · exact ⟨trivial, by simp [rank]⟩
    · exact hpc.elim
  | grant l ph waited pc hph =>
    rw [pc] at hpc ⊢
    rcases hph with ⟨rfl, rfl⟩ | ⟨rfl, -⟩
    · exact ⟨rfl, by simp [rank]⟩
    · exact hpc.elim
  | behind l ph next pc hph =>
    rw [pc] at hpc ⊢
    rcases hph with ⟨rfl, rfl⟩ | ⟨rfl, -⟩
    · split
      · exact ⟨trivial, by simp [rank]⟩
      · exact ⟨show 0 < c.timeout by omega, by simp [rank]⟩
    · exact hpc.elim
  | register l pc =>
    rw [pc] at hpc ⊢
    exact ⟨hpc, by simp [rank]⟩
  | wake l pc signal =>
    rw [hc.signal] at signal
    cases signal
  | record l waited pc =>
    rw [pc] at hpc ⊢
    obtain rfl : waited = false := hpc
    exact ⟨trivial, by simp [rank, Lock.Sys.exit]⟩
  | delete l err waited st pc =>
    rw [pc]
    cases waited with
    | false => exact ⟨trivial, by simp [rank, Lock.Sys.exit]⟩
    | true => exact ⟨nofun, by simp [rank, Lock.Sys.exit]⟩
  | leave l err pc =>
    rw [pc]
    exact ⟨trivial, by simp [rank]⟩

/-- A plain call that advances stays plain and gets closer to its end. -/
theorem Plain.advance (hc : Plain c) (h : s.advance i c = some s') :
    ∃ t pc, CriticalSection s i c t pc ∧ s' = t.setCall i { c with pc } ∧
      Plain { c with pc } ∧ rank pc < rank c.pc := by
  obtain ⟨t, pc, signal, hsec, rfl⟩ := Lock.advance_cases h
  have hsignal := signal_of_advance hc.signal h
  rw [Lock.Sys.setCall, GoMap.find_insert, if_pos rfl] at hsignal
  obtain rfl : signal = c.signal := (Option.some.inj hsignal).trans hc.signal.symm
  obtain ⟨hpc, hlt⟩ := hc.critical hsec
  exact ⟨t, pc, hsec, rfl, ⟨hc.signal, hc.timeout, hpc⟩, hlt⟩

/-- **What a step does to a call that nobody notifies.** -/
inductive Next (s : Lock.Sys) (a : Lock.Action) (s' : Lock.Sys) (i : Nat) (c : Call) : Prop
  | stay (find : s'.calls.find i = some c) (hadvance : a ≠ .advance i) (htimer : a ≠ .timer i)
  | advance (t : Lock.Sys) (pc : Pc) (hsec : CriticalSection s i c t pc)
    (find : s'.calls.find i = some { c with pc })
  | timer (l : Lock) (before : c.pc = .queued l .waiting)
    (find : s'.calls.find i = some { c with pc := .queued l (.abort .timeout true) })

theorem find_setCall_ne (s : Lock.Sys) {i j : Nat} (c : Call) (h : i ≠ j) :
    (s.setCall j c).calls.find i = s.calls.find i := by
  rw [Lock.Sys.setCall, GoMap.find_insert, if_neg h]

theorem Wired.callback (hw : Wired s) {path : Str}
    (h : Lock.step s (.callback path) = some s') :
    s'.calls = s.calls ∧ s'.onNodeDelete = .watchManager := by
  obtain ⟨-, h⟩ := Option.ite_none_right_eq_some.mp h
  dsimp only at h
  rw [hw.handler] at h
  obtain rfl := Option.some.inj h
  exact ⟨rfl, rfl⟩

theorem Wired.next (hw : Wired s) (h : Lock.step s a = some s') (hc : s.calls.find i = some c) :
    Next s a s' i c := by
  by_cases hcall : ∃ path, a = .callback path
  · obtain ⟨path, rfl⟩ := hcall
    exact .stay ((hw.callback h).1 ▸ hc) (by simp) (by simp)
  cases Lock.event_of_step h with
  | callback path => exact absurd ⟨path, rfl⟩ hcall
  | notify path => exact absurd ⟨path, rfl⟩ hcall
  | tryLock id name owner sessionID timeout new =>
    have hne : i ≠ id := fun heq => new (heq ▸ GoMap.mem_of_find hc)
    exact .stay ((find_setCall_ne s _ hne).trans hc) (by simp) (by simp)
  | advance id d hd after =>
    obtain ⟨t, pc, hsec, rfl, -⟩ := (hw.plain id d hd).advance after
    by_cases hid : i = id
    · subst hid
      obtain rfl := Option.some.inj (hc.symm.trans hd)
      refine .advance t pc hsec ?_
      rw [Lock.Sys.setCall, GoMap.find_insert, if_pos rfl]
    · refine .stay ?_ (fun heq => hid (Lock.Action.advance.inj heq).symm) (by simp)
      rw [find_setCall_ne t _ hid, hsec.calls]
      exact hc
  | timer id d l hd pc =>
    by_cases hid : i = id
    · subst hid
      obtain rfl := Option.some.inj (hc.symm.trans hd)
      exact .timer l pc (find_goto _ _ _ _)
    · refine .stay ?_ (by simp) fun heq => hid (Lock.Action.timer.inj heq).symm
      exact (find_setCall_ne s _ hid).trans hc
  | unlockNothing | unlock | unlockDelete | node => exact .stay hc (by simp) (by simp)

theorem handler_of_section (h : CriticalSection s i c t pc) :
    t.onNodeDelete = s.onNodeDelete := by
  cases h <;> rfl

theorem Wired.handler_step (hw : Wired s) (h : Lock.step s a = some s') :
    s'.onNodeDelete = .watchManager := by
  by_cases hcall : ∃ path, a = .callback path
  · obtain ⟨path, rfl⟩ := hcall
    exact (hw.callback h).2
  cases Lock.event_of_step h with
  | callback path => exact absurd ⟨path, rfl⟩ hcall
  | notify path => exact absurd ⟨path, rfl⟩ hcall
  | advance id d hd after =>
    obtain ⟨t, pc, hsec, rfl, -⟩ := (hw.plain id d hd).advance after
    exact (handler_of_section hsec).trans hw.handler
  | tryLock | timer | unlockNothing | unlock | unlockDelete | node => exact hw.handler

/-- The call that `Next` leaves. -/
theorem Next.plain (hnext : Next s a s' i c) (hc : Plain c) (hc' : s'.calls.find i = some c') :
    Plain c' ∧ rank c'.pc + (if a = .advance i ∨ a = .timer i then 1 else 0) ≤ rank c.pc := by
  cases hnext with
  | stay find hadvance htimer =>
    obtain rfl := Option.some.inj (find.symm.trans hc')
    rw [if_neg (not_or.mpr ⟨hadvance, htimer⟩)]
    exact ⟨hc, le_rfl⟩
  | advance t pc hsec find =>
    obtain rfl := Option.some.inj (find.symm.trans hc')
    obtain ⟨hpc, hlt⟩ := hc.critical hsec
    refine ⟨⟨hc.signal, hc.timeout, hpc⟩, ?_⟩
    dsimp only
    split <;> omega
  | timer l before find =>
    obtain rfl := Option.some.inj (find.symm.trans hc')
    refine ⟨⟨hc.signal, hc.timeout, trivial⟩, ?_⟩
    rw [before]
    split <;> simp [rank]

theorem Wired.step (hw : Wired s)
    (htimed : ∀ {i name owner sessionID timeout}, a = .tryLock i name owner sessionID timeout →
      timeout ≠ 0) (h : Lock.step s a = some s') : Wired s' := by
  refine ⟨hw.handler_step h, fun i c' hc' => ?_⟩
  rcases Lock.call_of_step h hc' with ⟨c, hc, -⟩ | rfl
  · exact ((hw.next h hc).plain (hw.plain i c hc) hc').1
  · obtain ⟨-, h⟩ := Option.ite_none_left_eq_some.mp h
    obtain rfl := Option.some.inj h
    rw [Lock.Sys.setCall, GoMap.find_insert, if_pos rfl, Option.some.injEq] at hc'
    rw [← hc']
    exact ⟨rfl, htimed rfl, trivial⟩

/-- **Something of a plain call can always run**, until it has returned. -/
theorem Wired.enabled (hw : Wired s) (hc : s.calls.find i = some c) (hrank : rank c.pc ≠ 0) :
    (Lock.step s (.advance i)).isSome = true ∨ (Lock.step s (.timer i)).isSome = true := by
  have hpc := (hw.plain i c hc).pc
  have hop : ∀ p v, (s.runOp (.delete p v)).isSome = true := by
    intro p v
    rw [Lock.Sys.runOp, Option.isSome_map, Store.step]
    split <;> rfl
  simp only [Lock.step, hc, Lock.Sys.advance]
  cases hpc' : c.pc with
  | ensure => exact .inl rfl
  | mkdir => exact .inl rfl
  | enqueue => exact .inl rfl
  | failed => exact absurd (by rw [hpc']; rfl) hrank
  | queued l ph =>
    rw [hpc'] at hpc hrank
    cases ph with
    | check | register | record | leave => exact .inl rfl
    | waiting =>
      have hlimit : 0 < c.timeout := hpc
      right
      dsimp only
      rw [if_pos hlimit]
      rfl
    | recheck => exact hpc.elim
    | abort err waited =>
      left
      simp only [Lock.Sys.advanceQueued, Option.isSome_map]
      exact hop _ _
    | done => exact absurd rfl hrank

/-- The program counters of a call that has found somebody before it and is on its way out. -/
def Futile (l : Lock) : Pc → Prop
  | .queued l' .register => l' = l
  | .queued l' .waiting => l' = l
  | .queued l' (.abort err _) => l' = l ∧ err = .timeout
  | .queued l' (.leave err) => l' = l ∧ err = some .timeout
  | .queued l' (.done err) => l' = l ∧ err = some .timeout
  | _ => False

theorem Next.futile (hnext : Next s a s' i c) (hc : Plain c) (hf : Futile l c.pc) :
    ∃ c', s'.calls.find i = some c' ∧ Futile l c'.pc := by
  cases hnext with
  | stay find => exact ⟨c, find, hf⟩
  | timer l' before find =>
    rw [before] at hf
    exact ⟨_, find, hf, rfl⟩
  | advance t pc hsec find =>
    refine ⟨_, find, ?_⟩
    cases hsec with
    | look pc | mkdir st pc | refused st e pc | enqueue st path pc | record l' waited pc =>
      rw [pc] at hf
      exact hf.elim
    | checkFails l' ph waited e pc hph | grant l' ph waited pc hph | behind l' ph next pc hph =>
      rw [pc] at hf
      rcases hph with ⟨rfl, -⟩ | ⟨rfl, -⟩ <;> exact hf.elim
    | register l' pc =>
      rw [pc] at hf
      exact hf
    | wake l' pc signal =>
      rw [hc.signal] at signal
      cases signal
    | delete l' err waited st pc =>
      rw [pc] at hf
      obtain ⟨rfl, rfl⟩ := hf
      cases waited with
      | false => exact ⟨rfl, rfl⟩
      | true => exact ⟨rfl, rfl⟩
    | leave l' err pc =>
      rw [pc] at hf
      obtain ⟨rfl, rfl⟩ := hf
      exact ⟨rfl, rfl⟩

end Calls

/-! ## 2. The server -/

section Server

variable {s s' : Sys} {a : Action} {i : Nat} {c : Call} {defaultTTL maxTTL now : Int}

theorem lockTimeout_ne_zero (timeoutMs : Int) : lockTimeout timeoutMs ≠ 0 := by
  unfold lockTimeout
  dsimp only
  split
  · decide
  · assumption

/-- The handler never starts a call without a timeout. -/
theorem timed_of_lockAction {la : Lock.Action} (h : lockAction a = some la) {j : Nat}
    {name owner sessionID : Str} {timeout : Int}
    (hla : la = .tryLock j name owner sessionID timeout) : timeout ≠ 0 := by
  subst hla
  cases a with
  | acquireLock call name' owner' sessionID' timeoutMs =>
    simp only [lockAction, Option.ite_none_left_eq_some, Option.some.injEq,
      Lock.Action.tryLock.injEq] at h
    obtain ⟨-, -, -, -, -, rfl⟩ := h
    exact lockTimeout_ne_zero timeoutMs
  | createNode target data ephemeral sequential sessionID' =>
    simp only [lockAction, Option.ite_none_left_eq_some, Option.some.injEq] at h
    cases h.2
  | inner la =>
    simp only [lockAction, Option.ite_none_right_eq_some, Option.some.injEq] at h
    obtain ⟨hinner, rfl⟩ := h
    cases hinner
  | tick | createSession | heartbeat | closeSession | checkExpirations | onExpire
  | registerEphemeral | setNode | deleteNode | releaseLock => cases h

theorem wired_step (hw : Wired s.lock) (h : step s a = some s') : Wired s'.lock := by
  rcases lockStep_of_step h with ⟨heq, -⟩ | ⟨la, hla, hstep⟩
  · rw [heq]
    exact hw
  · exact hw.step (timed_of_lockAction hla) hstep

theorem wired_of_reach (hs : Lts.Reach step (newServer defaultTTL maxTTL now) s) : Wired s.lock :=
  hs.invariant (P := fun s => Wired s.lock) ⟨rfl, fun _ _ hc => by cases hc⟩
    fun _ _ _ hw _ h => wired_step hw h

/-- The body of `acquireLock`'s answer, without the time. -/
structure AcquireInfo where
  lockID : Str
  name : Str
  acquired : Bool
  owner : Str
  deriving DecidableEq

/-- `acquireLock`'s answer for an error of `TryLock`. -/
def acquireError : LockErr → Reply AcquireInfo
  | .timeout => .error 408 "lock acquisition timed out"
  | e => .error 500 e.error

/-- `acquireLock`'s answer, once `TryLock` has returned. -/
def acquireReply : Pc → Option (Reply AcquireInfo)
  | .queued l (.done none) => some (.ok 200 ⟨l.path, l.name, true, l.owner⟩)
  | .queued _ (.done (some e)) => some (acquireError e)
  | .failed e => some (acquireError e)
  | _ => none

theorem reply_of_futile {l : Lock} {pc : Pc} (hf : Futile l pc) :
    pc.granted = false ∧ ∀ reply, acquireReply pc = some reply →
      reply = .error 408 "lock acquisition timed out" := by
  unfold Futile at hf
  split at hf
  · exact ⟨rfl, nofun⟩
  · exact ⟨rfl, nofun⟩
  · exact ⟨rfl, nofun⟩
  · obtain ⟨-, rfl⟩ := hf
    exact ⟨rfl, nofun⟩
  · obtain ⟨-, rfl⟩ := hf
    exact ⟨rfl, fun _ h => (Option.some.inj h).symm⟩
  · exact hf.elim

/-- **Waiting is futile.**  A call that has found somebody before it, and goes on to wait or, with a
negative timeout, to give up at once, never gets the lock, whatever happens to those before it: when
it is answered, it is with status 408. -/
theorem waiting_is_futile {l : Lock} (hs : Lts.Reach step (newServer defaultTTL maxTTL now) s)
    (hc : s.lock.calls.find i = some c)
    (hwaits : c.pc = .queued l .register ∨ c.pc = .queued l .waiting ∨
      c.pc = .queued l (.abort .timeout false))
    (hrun : Lts.Reach step s s') :
    ∃ c', s'.lock.calls.find i = some c' ∧ c'.pc.granted = false ∧
      ∀ reply, acquireReply c'.pc = some reply →
        reply = .error 408 "lock acquisition timed out" := by
  have hstart : Futile l c.pc := by
    rcases hwaits with hpc | hpc | hpc
    · rw [hpc]
      rfl
    · rw [hpc]
      rfl
    · rw [hpc]
      exact ⟨rfl, rfl⟩
  obtain ⟨-, c', hc', hf⟩ := hrun.invariant
    (P := fun s => Wired s.lock ∧ ∃ c', s.lock.calls.find i = some c' ∧ Futile l c'.pc)
    ⟨wired_of_reach hs, c, hc, hstart⟩ (by
      rintro t a t' ⟨hw, d, hd, hf⟩ - h
      refine ⟨wired_step hw h, ?_⟩
      rcases lockStep_of_step h with ⟨heq, -⟩ | ⟨la, -, hstep⟩
      · rw [heq]
        exact ⟨d, hd, hf⟩
      · exact (hw.next hstep hd).futile (hw.plain i d hd) hf)
  exact ⟨c', hc', reply_of_futile hf⟩

/-- Two clients ask for the lock `x`, and the second finds the first before it. -/
def contention : List Action :=
  [.createNode "locks".toList [] false false [],
    .acquireLock 0 "x".toList "alice".toList "s1".toList 1000,
    .acquireLock 1 "x".toList "bob".toList "s2".toList 1000] ++
    List.replicate 5 (.inner (.advance 0)) ++ List.replicate 4 (.inner (.advance 1))

/-- The first client gives the lock back, and the store's delete callback runs. -/
def handBack : List Action :=
  [.releaseLock "x".toList (lockX "alice".toList "s1".toList 1).path,
    .inner (.unlockDelete (lockX "alice".toList "s1".toList 1).path),
    .inner (.callback (lockX "alice".toList "s1".toList 1).path)]

theorem waiting_is_futile_after_release :
    ∃ s s' c', Lts.Reach step (newServer (10 * 10 ^ 9) (60 * 10 ^ 9) 0) s ∧
      Lts.Reach step s s' ∧ Lock.getQueueLength s'.lock.store "x".toList = 1 ∧
      s'.lock.calls.find 1 = some c' ∧ c'.pc.granted = false := by
  obtain ⟨s, s', hs, hs', hc, hqueue⟩ : ∃ s s',
      Lts.Reach step (newServer (10 * 10 ^ 9) (60 * 10 ^ 9) 0) s ∧ Lts.Reach step s s' ∧
      s.lock.calls.find 1 = some ⟨"x".toList, "bob".toList, "s2".toList, 10 ^ 9,
        .queued (lockX "bob".toList "s2".toList 2) .waiting, false⟩ ∧
      Lock.getQueueLength s'.lock.store "x".toList = 1 :=
    Lts.exists_two_runs contention handBack (by decide +kernel)
  obtain ⟨c', hc', hgranted, -⟩ := waiting_is_futile hs hc (.inr (.inl rfl)) hs'
  exact ⟨s, s', c', hs, hs', hqueue, hc', hgranted⟩

/-- A step of the call `i`: its next critical section, or its timer. -/
def ofCall (i : Nat) (a : Action) : Bool := a = .inner (.advance i) ∨ a = .inner (.timer i)

theorem ofCall_iff (i : Nat) (a : Action) :
    ofCall i a = true ↔ lockAction a = some (.advance i) ∨ lockAction a = some (.timer i) := by
  rw [ofCall, decide_eq_true_iff]
  constructor
  · rintro (rfl | rfl)
    · exact .inl rfl
    · exact .inr rfl
  · intro h
    cases a with
    | inner la =>
      simp only [lockAction, Option.ite_none_right_eq_some, Option.some.injEq] at h
      rcases h with ⟨-, rfl⟩ | ⟨-, rfl⟩
      · exact .inl rfl
      · exact .inr rfl
    | createNode | acquireLock =>
      simp only [lockAction, Option.ite_none_left_eq_some, Option.some.injEq] at h
      rcases h with ⟨-, h⟩ | ⟨-, h⟩ <;> cases h
    | tick | createSession | heartbeat | closeSession | checkExpirations | onExpire
    | registerEphemeral | setNode | deleteNode | releaseLock => rcases h with h | h <;> cases h

/-- What the call `i` has before it; a call that has not been made yet has everything. -/
def restOf (i : Nat) (s : Sys) : Nat := ((s.lock.calls.find i).map fun c => rank c.pc).getD 8

theorem restOf_of_find (hc : s.lock.calls.find i = some c) : restOf i s = rank c.pc := by
  rw [restOf, hc]
  rfl

theorem rank_le (pc : Pc) : rank pc ≤ 8 := by
  unfold rank
  split <;> decide

theorem restOf_le (i : Nat) (s : Sys) : restOf i s ≤ 8 := by
  cases hc : s.lock.calls.find i with
  | none => rw [restOf, hc, Option.map_none, Option.getD_none]
  | some c =>
    rw [restOf_of_find hc]
    exact rank_le c.pc

/-- A call that has not been made takes no step. -/
theorem not_ofCall_of_none (hc : s.lock.calls.find i = none) (h : step s a = some s') :
    ofCall i a = false := by
  rw [← Bool.not_eq_true, ofCall_iff]
  rcases lockStep_of_step h with ⟨-, hnone⟩ | ⟨la, hla, hstep⟩
  · simp [hnone]
  · rw [hla, Option.some.injEq, Option.some.injEq]
    rintro (rfl | rfl) <;>
    · rw [Lock.step, hc] at hstep
      cases hstep

/-- **One step** of the server, as far as the call `i` is concerned. -/
theorem restOf_step (hw : Wired s.lock) (h : step s a = some s') :
    restOf i s' + (if ofCall i a then 1 else 0) ≤ restOf i s := by
  cases hc : s.lock.calls.find i with
  | none =>
    have hle := restOf_le i s'
    rw [not_ofCall_of_none hc h, restOf, restOf, hc] at *
    exact hle
  | some c =>
    rw [restOf_of_find hc]
    rcases lockStep_of_step h with ⟨heq, hnone⟩ | ⟨la, hla, hstep⟩
    · have hc' : s'.lock.calls.find i = some c := heq ▸ hc
      have hno : ¬ ofCall i a = true := by
        rw [ofCall_iff, hnone]
        simp
      rw [restOf_of_find hc', if_neg hno]
      exact le_rfl
    · have hnext := hw.next hstep hc
      have hown : ofCall i a = true ↔ la = .advance i ∨ la = .timer i := by
        rw [ofCall_iff, hla, Option.some.injEq, Option.some.injEq]
      obtain ⟨c', hc'⟩ : ∃ c', s'.lock.calls.find i = some c' := by
        cases hnext with
        | stay find => exact ⟨_, find⟩
        | advance _ _ _ find => exact ⟨_, find⟩
        | timer _ _ find => exact ⟨_, find⟩
      rw [restOf_of_find hc']
      simp only [hown]
      exact (hnext.plain (hw.plain i c hc) hc').2

theorem step_inner {la : Lock.Action} (hla : isInner la = true) (s : Sys) :
    (step s (.inner la)).isSome = (Lock.step s.lock la).isSome := by
  rw [step, if_pos hla, Sys.runLock, lockAction, if_pos hla, Option.isSome_map]

/-- **Every lock request comes back.**  As long as a call has not returned, a step of it can be
taken; and in no run does a call take more than eight. -/
theorem lock_calls_return (hs : Lts.Reach step (newServer defaultTTL maxTTL now) s) (i : Nat) :
    (∀ c, s.lock.calls.find i = some c → rank c.pc ≠ 0 →
      ∃ a, ofCall i a = true ∧ (step s a).isSome = true) ∧
    ∀ actions s', Lts.exec step s actions = some s' → actions.countP (ofCall i) ≤ 8 := by
  have hw := wired_of_reach hs
  refine ⟨fun c hc hrank => ?_, fun actions s' hexec => ?_⟩
  · rcases hw.enabled hc hrank with henabled | henabled
    · exact ⟨.inner (.advance i), by simp [ofCall], (step_inner rfl s).trans henabled⟩
    · exact ⟨.inner (.timer i), by simp [ofCall], (step_inner rfl s).trans henabled⟩
  · have hkeep : ∀ s a s', Wired s.lock → step s a = some s' → Wired s'.lock :=
      fun _ _ _ hw h => wired_step hw h
    have hcount := Lts.countP_le_of_measure (restOf i) hkeep
      (fun _ _ _ hw h => restOf_step hw h) hw hexec
    exact (Nat.le_add_left _ _).trans (hcount.trans (restOf_le i s))

theorem lock_calls_return_contention :
    ∃ s, Lts.Reach step (newServer (10 * 10 ^ 9) (60 * 10 ^ 9) 0) s ∧
      ∃ a, ofCall 1 a = true ∧ (step s a).isSome = true := by
  obtain ⟨s, hs, hc⟩ : ∃ s, Lts.Reach step (newServer (10 * 10 ^ 9) (60 * 10 ^ 9) 0) s ∧
      s.lock.calls.find 1 = some ⟨"x".toList, "bob".toList, "s2".toList, 10 ^ 9,
        .queued (lockX "bob".toList "s2".toList 2) .waiting, false⟩ :=
    Lts.exists_reach contention (by decide +kernel)
  exact ⟨s, hs, (lock_calls_return hs 1).1 _ hc (by decide)⟩

end Server

end SkyLock.Server
