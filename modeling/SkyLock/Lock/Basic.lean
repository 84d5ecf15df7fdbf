/-
# The lock manager

`internal/lock/manager.go`: a lock is a directory `/locks/<name>` whose children form a queue.
`TryLock` puts an ephemeral sequential node into it and holds the lock while that node is the
first child in sorted order.

One call of `TryLock` is NOT atomic: it takes the store's mutex once for each store operation and
the manager's mutex around the two tables, and anything may happen in between.  So a call is a
program counter (`Pc`, `Phase`) and `step` advances one call by one critical section.  Other
clients, `Unlock`, the API's node operations, session expiry and the delete callbacks that the
store starts in their own goroutines are further actions of the same system; a run of `step` is
an arbitrary interleaving of all of them.

Two things are recorded that the code does not store: `Sys.unlocking`, the `Unlock` calls that
have left the table and not yet deleted their node, and `Sys.grants`, the successful checks in the
order they happened.

Left out: the `Acquired` time, which nothing reads, and logging.  A waiter's channel has capacity
one, so its content is one bit (`Call.signal`).
-/
import SkyLock.Store.Ops

namespace SkyLock

open Store

/-! ## 1. Locks and the functions of the manager -/

/-- The `Lock` that `TryLock` returns and `Unlock` takes. -/
structure Lock where
  name : Str
  owner : Str
  sessionID : Str
  path : Str
  sequence : Nat
  deriving DecidableEq

namespace Lock

inductive LockErr
  | notHeld
  | timeout
  | store (e : StoreErr)
  deriving DecidableEq

/-- The texts of the errors, as `Error()` returns them. -/
def LockErr.error : LockErr → String
  | notHeld => "lock not held"
  | timeout => "lock acquisition timed out"
  | store e => e.error

def lockPath (name : Str) : Str := "/locks/".toList ++ name

/-- What `TryLock` asks the store to create, before the store appends the sequence number. -/
def queuePath (name : Str) : Str := lockPath name ++ "/lock-".toList

/-- The sequence number that `TryLock` reads back out of the node's path, in `uint64`. -/
def parseSequence (nodePath lockPath : Str) : Nat :=
  match (Text.trimPrefix nodePath (lockPath ++ ['/'])).splitOn '-' with
  | [_, digits] => digits.foldl (fun seq c => (seq * 10 + (c.toNat + 2 ^ 64 - 48)) % 2 ^ 64) 0
  | _ => 0

/-- `checkLockAcquired`: are we the first child?  The children are sorted twice, here and in
`GetChildren`. -/
def checkLockAcquired (s : Store) (lockPath ourPath : Str) : Except StoreErr Bool :=
  match s.getChildren lockPath with
  | .error e => .error e
  | .ok children =>
    if children.length = 0 then .ok false
    else
      let ourName := Text.trimPrefix ourPath (lockPath ++ ['/'])
      .ok ((children.insertionSort (· ≤ ·)).head? = some ourName)

/-- `GetLockHolder`: the data of the first child, or the empty text if there is none. -/
def getLockHolder (s : Store) (name : Str) : Except StoreErr Str :=
  match s.getChildren (lockPath name) with
  | .error e => .error e
  | .ok children =>
    match children.insertionSort (· ≤ ·) with
    | [] => .ok []
    | first :: _ =>
      match s.get (lockPath name ++ '/' :: first) with
      | .error e => .error e
      | .ok node => .ok node.data

/-- `IsLocked`: has the directory a child? -/
def isLocked (s : Store) (name : Str) : Bool :=
  match s.getChildren (lockPath name) with
  | .error _ => false
  | .ok children => children.length > 0

/-- `GetQueueLength`, which counts ALL children. -/
def getQueueLength (s : Store) (name : Str) : Nat :=
  match s.getChildren (lockPath name) with
  | .error _ => 0
  | .ok children => children.length

/-- The lock name that `onNodeDeleted` reads out of a deleted path, if it is below `/locks/`. -/
def deletedLockName (path : Str) : Option Str :=
  if Text.hasPrefix path "/locks/".toList then (path.splitOn '/')[2]? else none

/-! ## 2. Calls in progress -/

/-- Where a call of `TryLock` is once its queue node has been created.  `waited` says whether it
went through `waitForLock`, whose deferred function still has to run on the way out; the optional
error of `leave` and `done` is `none` for a call that returns its lock. -/
inductive Phase
  | check
  | register
  | waiting
  | recheck
  | record (waited : Bool)
  | abort (err : LockErr) (waited : Bool)
  | leave (err : Option LockErr)
  | done (err : Option LockErr)
  deriving DecidableEq

/-- The calls whose check has succeeded: they return their lock, or have returned it. -/
def Phase.granted : Phase → Bool
  | record _ | leave none | done none => true
  | _ => false

/-- Where a call of `TryLock` is. -/
inductive Pc
  | ensure
  | mkdir
  | enqueue
  | failed (err : LockErr)
  | queued (lock : Lock) (phase : Phase)
  deriving DecidableEq

structure Call where
  name : Str
  owner : Str
  sessionID : Str
  timeout : Int
  pc : Pc
  signal : Bool
  deriving DecidableEq

/-- The callback in the store's `onNodeDelete`: the lock manager's own, or the one by which main
replaces it, which only calls the watch manager's `TriggerDelete`. -/
inductive DeleteHandler
  | lockManager
  | watchManager
  deriving DecidableEq

/-- A successful check: whose, and the `Sequence` of the queue node it found in first place. -/
structure Grant where
  call : Nat
  lock : Lock
  sequence : Nat
  deriving DecidableEq

/-- The store, the manager's two tables, and everything in progress. -/
structure Sys where
  store : Store
  locks : GoMap Str Lock
  waiters : GoMap Str (List Nat)
  onNodeDelete : DeleteHandler
  calls : GoMap Nat Call
  unlocking : List Str
  callbacks : List Str
  grants : List Grant

/-- `NewManager`, which registers the manager's own callback. -/
def newManager (store : Store) : Sys where
  store
  locks := ∅
  waiters := ∅
  onNodeDelete := .lockManager
  calls := ∅
  unlocking := []
  callbacks := []
  grants := []

/-- The store's `SetWatchCallbacks`, as far as deletions go: it REPLACES the callback. -/
def setWatchCallbacks (s : Sys) (onDelete : DeleteHandler) : Sys :=
  { s with onNodeDelete := onDelete }

/-! ## 3. The system -/

inductive Action
  /-- A client calls `TryLock`. -/
  | tryLock (id : Nat) (name owner sessionID : Str) (timeout : Int)
  /-- A call executes its next critical section, or receives from its channel. -/
  | advance (id : Nat)
  /-- The timer of a waiting call fires. -/
  | timer (id : Nat)
  /-- `Unlock` up to the removal from the table. -/
  | unlock (lock : Lock)
  /-- The rest of an `Unlock`. -/
  | unlockDelete (path : Str)
  /-- A store operation from elsewhere: the API's node handlers, and session expiry. -/
  | node (op : StoreOp)
  /-- A pending delete callback runs. -/
  | callback (path : Str)
  deriving DecidableEq

/-- The paths for which a store operation starts the delete callback. -/
def deletedPaths (s : Store) : StoreOp → List Str
  | .delete p v =>
    match s.delete p v with
    | .ok _ => [normalizePath p]
    | .error _ => []
  | .deleteEphemerals _ order => order
  | _ => []

namespace Sys

/-- Applies a store operation and queues the callbacks it starts. -/
def runOp (s : Sys) (op : StoreOp) : Option Sys :=
  (Store.step s.store op).map fun st =>
    { s with store := st, callbacks := s.callbacks ++ deletedPaths s.store op }

def setCall (s : Sys) (id : Nat) (c : Call) : Sys := { s with calls := s.calls.insert id c }

/-- Moves a call to another program counter. -/
def goto (s : Sys) (id : Nat) (c : Call) (pc : Pc) : Sys := s.setCall id { c with pc }

/-- The waiters registered under a name; a missing entry reads as the empty list. -/
def waitersOf (s : Sys) (name : Str) : List Nat := (s.waiters.find name).getD []

def setWaiters (s : Sys) (name : Str) (ws : List Nat) : Sys :=
  { s with waiters := s.waiters.insert name ws }

/-- Records a successful check, with the sequence number stored in the queue node. -/
def grant (s : Sys) (id : Nat) (lock : Lock) : Sys :=
  { s with grants := s.grants ++
      [⟨id, lock, ((s.store.nodes.find lock.path).map Node.sequence).getD 0⟩] }

/-- `waiters[0] <- struct{}{}` with a default: the first waiter's channel holds a token. -/
def notify (s : Sys) (name : Str) : Sys :=
  match s.waitersOf name with
  | w :: _ =>
    match s.calls.find w with
    | some c => s.setCall w { c with signal := true }
    | none => s
  | [] => s

def onNodeDeleted (s : Sys) (path : Str) : Sys :=
  match deletedLockName path with
  | some name => s.notify name
  | none => s

/-- A check and where it leads: an error aborts, success is recorded, and otherwise `next`. -/
def afterCheck (s : Sys) (id : Nat) (c : Call) (lock : Lock) (waited : Bool) (next : Phase) : Sys :=
  match checkLockAcquired s.store (lockPath lock.name) lock.path with
  | .error e => s.goto id c (.queued lock (.abort (.store e) waited))
  | .ok true => (s.grant id lock).goto id c (.queued lock (.record waited))
  | .ok false => s.goto id c (.queued lock next)

/-- The way out of `TryLock`: through the deferred function of `waitForLock`, or at once. -/
def exit (waited : Bool) (err : Option LockErr) : Phase :=
  if waited then .leave err else .done err

/-- The next critical section of a call whose queue node exists. -/
def advanceQueued (s : Sys) (id : Nat) (c : Call) (lock : Lock) : Phase → Option Sys
  | .check =>
    some (s.afterCheck id c lock false
      (if c.timeout < 0 then .abort .timeout false else .register))
  | .register =>
    some ((s.setWaiters lock.name (s.waitersOf lock.name ++ [id])).goto id c
      (.queued lock .waiting))
  | .waiting =>
    if c.signal then some (s.goto id { c with signal := false } (.queued lock .recheck)) else none
  | .recheck => some (s.afterCheck id c lock true .waiting)
  | .record waited =>
    some ({ s with locks := s.locks.insert lock.path lock }.goto id c
      (.queued lock (exit waited none)))
  | .abort err waited =>
    (s.runOp (.delete lock.path (-1))).map fun s =>
      s.goto id c (.queued lock (exit waited (some err)))
  | .leave err =>
    some ((s.setWaiters lock.name ((s.waitersOf lock.name).erase id)).goto id c
      (.queued lock (.done err)))
  | .done _ => none

/-- The next critical section of a call. -/
def advance (s : Sys) (id : Nat) (c : Call) : Option Sys :=
  match c.pc with
  | .ensure =>
    some (s.goto id c (if s.store.existsPath (lockPath c.name) then .enqueue else .mkdir))
  | .mkdir =>
    (s.runOp (.create (lockPath c.name) [] false [] false)).map fun s => s.goto id c .enqueue
  | .enqueue =>
    (s.runOp (.create (queuePath c.name) c.owner true c.sessionID true)).map fun s' =>
      match (s.store.create (queuePath c.name) c.owner true c.sessionID true).2 with
      | .error e => s'.goto id c (.failed (.store e))
      | .ok nodePath =>
        s'.goto id c (.queued ⟨c.name, c.owner, c.sessionID, nodePath,
          parseSequence nodePath (lockPath c.name)⟩ .check)
  | .failed _ => none
  | .queued lock phase => s.advanceQueued id c lock phase

end Sys

open Sys

def step (s : Sys) : Action → Option Sys
  | .tryLock id name owner sessionID timeout =>
    if id ∈ s.calls then none
    else some (s.setCall id ⟨name, owner, sessionID, timeout, .ensure, false⟩)
  | .advance id =>
    match s.calls.find id with
    | some c => s.advance id c
    | none => none
  | .timer id =>
    match s.calls.find id with
    | some c =>
      match c.pc with
      | .queued lock .waiting =>
        if c.timeout > 0 then some (s.goto id c (.queued lock (.abort .timeout true))) else none
      | _ => none
    | none => none
  | .unlock lock =>
    if lock.path = [] then some s  -- `ErrLockNotHeld`
    else some { s with locks := s.locks.erase lock.path, unlocking := s.unlocking ++ [lock.path] }
  | .unlockDelete path =>
    if path ∈ s.unlocking then
      { s with unlocking := s.unlocking.erase path }.runOp (.delete path (-1))
    else none
  | .node op => s.runOp op
  | .callback path =>
    if path ∈ s.callbacks then
      let s := { s with callbacks := s.callbacks.erase path }
      match s.onNodeDelete with
      | .lockManager => some (s.onNodeDeleted path)
      | .watchManager => some s
    else none

end Lock

end SkyLock
