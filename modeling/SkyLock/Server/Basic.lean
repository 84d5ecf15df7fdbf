/-
# One server: API, sessions, store and locks

The handlers of `internal/api/server.go` over the components as `cmd/skylock/main.go` wires them:
the session manager's `onExpire` deletes the session's ephemeral nodes, and the store's delete
callback is the watch manager's.  There is no transaction across the components.  `createNode`
takes the store's mutex and then, separately, the session manager's; an expiry callback runs in
its own goroutine.  So each critical section is one action, and what is under way between two of
them is part of the state (`registering`, `expiring`, and the calls inside `Lock.Sys`).

`Close` runs `onExpire` itself, before it returns; here the callback is queued like those of
`checkExpirations`, which allows every order the code allows and more.

Left out: request decoding and the JSON of the answers.  A request that a handler refuses before it
reaches a component changes nothing.
-/
import SkyLock.Lock.Effect
import SkyLock.Session.Manager

namespace SkyLock.Server

open Store

/-! ## 1. State -/

/-- The components, the clock, the ids of the sessions whose `onExpire` is pending, and the
`createNode` requests that still have to register their node. -/
structure Sys where
  lock : Lock.Sys
  sessions : Session.Manager
  now : Int
  expiring : List Str
  registering : List (Str × Str)

/-- main's wiring, at the time it starts to serve. -/
def newServer (defaultTTL maxTTL now : Int) : Sys where
  lock := Lock.setWatchCallbacks (Lock.newManager newStore) .watchManager
  sessions := Session.newManager defaultTTL maxTTL
  now
  expiring := []
  registering := []

/-! ## 2. Requests -/

/-- Multiplication of a `time.Duration`, an `int64`, by a unit of so many nanoseconds. -/
def duration (n unit : Int) : Int := Int.bmod (n * unit) (2 ^ 64)

/-- The node path of a request: `"/" + strings.TrimPrefix(param, "/")`. -/
def nodePath (target : Str) : Str := '/' :: Text.trimPrefix target ['/']

/-- `acquireLock`'s timeout: milliseconds, thirty seconds if none is given. -/
def lockTimeout (timeoutMs : Int) : Int :=
  let timeout := duration timeoutMs (10 ^ 6)
  if timeout = 0 then 30 * 10 ^ 9 else timeout

inductive Action
  /-- Time passes. -/
  | tick (now : Int)
  | createSession (id clientID : Str) (ttlSeconds : Int)
  | heartbeat (sessionID : Str)
  | closeSession (sessionID : Str)
  | checkExpirations (order : List Str)
  /-- A pending `onExpire` callback runs; `order` is how `DeleteEphemerals` lists the nodes. -/
  | onExpire (sessionID : Str) (order : List Str)
  | createNode (target data : Str) (ephemeral sequential : Bool) (sessionID : Str)
  /-- The second half of a `createNode`. -/
  | registerEphemeral (sessionID key : Str)
  | setNode (target data : Str) (version : Int)
  | deleteNode (target : Str) (version : Int)
  | acquireLock (call : Nat) (name owner sessionID : Str) (timeoutMs : Int)
  | releaseLock (name lockID : Str)
  /-- A step of something that is under way inside the lock manager. -/
  | inner (a : Lock.Action)
  deriving DecidableEq

/-- The actions of the lock system that are not requests. -/
def isInner : Lock.Action → Bool
  | .advance _ | .timer _ | .unlockDelete _ | .callback _ => true
  | .tryLock _ _ _ _ _ | .unlock _ | .node _ => false

/-- The action of the lock system that an action of the server is, if it is one. -/
def lockAction : Action → Option Lock.Action
  | .onExpire sessionID order => some (.node (.deleteEphemerals sessionID order))
  | .createNode target data ephemeral sequential sessionID =>
    if ephemeral ∧ sessionID = [] then none
    else some (.node (.create (nodePath target) data ephemeral sessionID sequential))
  | .setNode target data version => some (.node (.set (nodePath target) data version))
  | .deleteNode target version => some (.node (.delete (nodePath target) version))
  | .acquireLock call name owner sessionID timeoutMs =>
    if sessionID = [] then none
    else some (.tryLock call name owner sessionID (lockTimeout timeoutMs))
  | .releaseLock name lockID => some (.unlock ⟨name, [], [], lockID, 0⟩)
  | .inner a => if isInner a then some a else none
  | _ => none

/-! ## 3. The system -/

namespace Sys

/-- Runs the lock system's part of an action; without one the lock system stays as it is. -/
def runLock (s : Sys) (a : Action) : Option Sys :=
  match lockAction a with
  | some la => (Lock.step s.lock la).map fun l => { s with lock := l }
  | none => some s

/-- The path that a `createNode` has made and still has to register with its session. -/
def toRegister (s : Sys) : Action → List (Str × Str)
  | .createNode target data ephemeral sequential sessionID =>
    if ephemeral ∧ sessionID ≠ [] then
      match (s.lock.store.create (nodePath target) data ephemeral sessionID sequential).2 with
      | .ok path => [(sessionID, path)]
      | .error _ => []
    else []
  | _ => []

end Sys

def step (s : Sys) (a : Action) : Option Sys :=
  match a with
  | .tick now => if s.now ≤ now then some { s with now } else none
  | .createSession id clientID ttlSeconds =>
    if clientID = [] then some s
    else if id ∈ s.sessions.sessions then none
    else
      some { s with
        sessions := (s.sessions.create id clientID (duration ttlSeconds (10 ^ 9)) s.now).1 }
  | .heartbeat sessionID => some { s with sessions := (s.sessions.heartbeat sessionID s.now).1 }
  | .closeSession sessionID =>
    match s.sessions.close sessionID with
    | (sessions, some _) => some { s with sessions, expiring := s.expiring ++ [sessionID] }
    | (_, none) => some s
  | .checkExpirations order =>
    if s.sessions.IsExpiry s.now order then
      some { s with sessions := s.sessions.checkExpirations order, expiring := s.expiring ++ order }
    else none
  | .onExpire sessionID _ =>
    if sessionID ∈ s.expiring then
      { s with expiring := s.expiring.erase sessionID }.runLock a
    else none
  | .createNode _ _ _ _ _ =>
    { s with registering := s.registering ++ s.toRegister a }.runLock a
  | .registerEphemeral sessionID key =>
    if (sessionID, key) ∈ s.registering then
      some { s with
        sessions := (s.sessions.registerEphemeral sessionID key).1
        registering := s.registering.erase (sessionID, key) }
    else none
  | .inner la => if isInner la then s.runLock a else none
  | _ => s.runLock a

section

variable {s s' : Sys} {a : Action}

theorem lockStep_of_runLock {t : Sys} (h : t.runLock a = some s') (ht : t.lock = s.lock) :
    s'.lock = s.lock ∧ lockAction a = none ∨
      ∃ la, lockAction a = some la ∧ Lock.step s.lock la = some s'.lock := by
  unfold Sys.runLock at h
  cases hla : lockAction a with
  | none =>
    rw [hla] at h
    rw [← Option.some.inj h]
    exact .inl ⟨ht, rfl⟩
  | some la =>
    rw [hla] at h
    obtain ⟨l, hl, rfl⟩ := Option.map_eq_some_iff.mp h
    rw [ht] at hl
    exact .inr ⟨la, rfl, hl⟩

/-- A step of the server is the step of the lock system that its action is, if it is one. -/
theorem lockStep_of_step (h : step s a = some s') :
    s'.lock = s.lock ∧ lockAction a = none ∨
      ∃ la, lockAction a = some la ∧ Lock.step s.lock la = some s'.lock := by
  cases a with
  | tick | checkExpirations | registerEphemeral =>
    obtain ⟨-, rfl⟩ := (Option.ite_none_right_eq_some.trans (and_congr_right' Option.some_inj)).mp h
    exact .inl ⟨rfl, rfl⟩
  | createSession id clientID ttlSeconds =>
    simp only [step] at h
    split at h
    · exact .inl ⟨(congrArg Sys.lock (Option.some.inj h)).symm, rfl⟩
    · obtain ⟨-, h⟩ := Option.ite_none_left_eq_some.mp h
      exact .inl ⟨(congrArg Sys.lock (Option.some.inj h)).symm, rfl⟩
  | heartbeat => exact .inl ⟨(congrArg Sys.lock (Option.some.inj h)).symm, rfl⟩
  | closeSession sessionID =>
    simp only [step] at h
    split at h <;> exact .inl ⟨(congrArg Sys.lock (Option.some.inj h)).symm, rfl⟩
  | onExpire | inner =>
    obtain ⟨-, h⟩ := Option.ite_none_right_eq_some.mp h
    exact lockStep_of_runLock h rfl
  | createNode | setNode | deleteNode | acquireLock | releaseLock =>
    simp only [step] at h
    exact lockStep_of_runLock h rfl

end

end SkyLock.Server
