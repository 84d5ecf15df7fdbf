/-
# The node requests of the API

`getNode`, `createNode`, `setNode` and `getChildren` of `internal/api/server.go`, with their
answers; `deleteNode` is in `Handlers.lean`.  Each of them makes one call of the store, which other
requests, lock calls and expiring sessions change in between, and each picks its status by comparing
the error it gets with the ones it knows.

`node_requests_exact` says which status every request gets, whatever has been going on in the
server, in terms of the NAMESPACE that the store is (`Store/Namespace.lean`); and that a request
answered with an error has changed no entry.  Two refusals have no case of their own in the handlers
and come out as internal errors: a node below an ephemeral one, and the deletion of the root.
-/
import SkyLock.Server.Ephemerals
import SkyLock.Server.Handlers
import SkyLock.Store.Namespace

namespace SkyLock.Server

open Store

/-! ## 1. The handlers -/

/-- The body of `getNode`'s answer, without the two times. -/
structure NodeInfo where
  path : Str
  data : Str
  version : Nat
  ephemeral : Bool
  children : List Str
  deriving DecidableEq

def getNode (s : Store) (target : Str) : Reply NodeInfo :=
  match s.get (nodePath target) with
  | .ok node => .ok 200 ⟨node.path, node.data, node.version, node.ephemeral, node.children⟩
  | .error .nodeNotFound => .error 404 "node not found"
  | .error e => .error 500 e.error

/-- `createNode`'s answer to what the store says. -/
def createReply : Except StoreErr Str → Reply Str
  | .ok actualPath => .ok 201 actualPath
  | .error .nodeExists => .error 409 "node already exists"
  | .error .nodeNotFound => .error 404 "parent node not found"
  | .error e => .error 500 e.error

def createNode (s : Store) (target data : Str) (ephemeral sequential : Bool) (sessionID : Str) :
    Store × Reply Str :=
  if ephemeral ∧ sessionID = [] then (s, .error 400 "session_id required for ephemeral nodes")
  else
    let r := s.create (nodePath target) data ephemeral sessionID sequential
    (r.1, createReply r.2)

/-- The body of `setNode`'s answer. -/
structure VersionInfo where
  path : Str
  version : Nat
  deriving DecidableEq

/-- `setNode`'s answer to what the store says. -/
def setReply : Except StoreErr Node → Reply VersionInfo
  | .ok node => .ok 200 ⟨node.path, node.version⟩
  | .error .nodeNotFound => .error 404 "node not found"
  | .error .versionMismatch => .error 409 "version mismatch"
  | .error e => .error 500 e.error

/-- The version is -1 where the request gives none. -/
def setNode (s : Store) (target data : Str) (version : Int) : Store × Reply VersionInfo :=
  let r := s.set (nodePath target) data version
  (r.1, setReply r.2)

/-- The body of `getChildren`'s answer; the path is the one that was asked for. -/
structure ChildrenInfo where
  path : Str
  children : List Str
  deriving DecidableEq

def getChildren (s : Store) (target : Str) : Reply ChildrenInfo :=
  match s.getChildren (nodePath target) with
  | .ok children => .ok 200 ⟨nodePath target, children⟩
  | .error .nodeNotFound => .error 404 "node not found"
  | .error e => .error 500 e.error

/-- The request is one action of the server. -/
theorem step_createNode (s : Sys) (target data : Str) (eph sq : Bool) (sid : Str) :
    (step s (.createNode target data eph sq sid)).map (fun s' => s'.lock.store) =
      some (createNode s.lock.store target data eph sq sid).1 := by
  rw [step, Sys.runLock, lockAction, createNode]
  by_cases hsid : eph = true ∧ sid = []
  · rw [if_pos hsid, if_pos hsid]
    rfl
  · rw [if_neg hsid, if_neg hsid]
    rfl

theorem step_setNode (s : Sys) (target data : Str) (version : Int) :
    (step s (.setNode target data version)).map (fun s' => s'.lock.store) =
      some (setNode s.lock.store target data version).1 := rfl

/-! ## 2. What the namespace says -/

def Reply.status {α : Type} : Reply α → Option Nat
  | .ok status _ => some status
  | .error status _ => some status
  | .panicked => none

/-- Status of a read, and of `getChildren`. -/
def readStatus (ns : Namespace) (a : List Str) : Nat := if (ns.entry a).isSome then 200 else 404

/-- Status of a creation, and the entries after it. -/
def createOutcome (ns : Namespace) (a : List Str) (data : Str) (ephemeral sequential : Bool)
    (sessionID : Str) : Nat × (List Str → Option Entry) :=
  if ephemeral ∧ sessionID = [] then (400, ns.entry)
  else
    match ns.entry a.dropLast with
    | none => (404, ns.entry)
    | some parent =>
      if parent.ephemeral then (500, ns.entry)
      else
        let b := (ns.count sequential).seat a sequential
        if (ns.entry b).isSome then (409, ns.entry)
        else
          (201, Function.update ns.entry b
            (some ⟨data, 1, ephemeral, sessionID, sequential, (ns.count sequential).counter⟩))

/-- Status of a write, and the entries after it. -/
def setOutcome (ns : Namespace) (a : List Str) (data : Str) (version : Int) :
    Nat × (List Str → Option Entry) :=
  match ns.entry a with
  | none => (404, ns.entry)
  | some x =>
    if x.allows version then (200, Function.update ns.entry a (some (x.write data)))
    else (409, ns.entry)

open Classical in
/-- Status of a deletion, and the entries after it. -/
noncomputable def deleteOutcome (ns : Namespace) (a : List Str) (version : Int) :
    Nat × (List Str → Option Entry) :=
  if a = [] then (500, ns.entry)
  else
    match ns.entry a with
    | none => (404, ns.entry)
    | some x =>
      if x.allows version then
        if ns.HasChild a then (400, ns.entry) else (204, Function.update ns.entry a none)
      else (409, ns.entry)

/-! ## 3. The handlers against the namespace -/

theorem count_entry (ns : Namespace) (sq : Bool) : (ns.count sq).entry = ns.entry := by
  cases sq <;> rfl

theorem outcome_create (ns : Namespace) (a : List Str) (data : Str) {eph : Bool} (sq : Bool)
    {sid : Str} (hsid : ¬ (eph = true ∧ sid = [])) :
    (createReply ((ns.create a data eph sid sq).2.map Slash.render)).status =
        some (createOutcome ns a data eph sq sid).1 ∧
      (ns.create a data eph sid sq).1.entry = (createOutcome ns a data eph sq sid).2 := by
  rw [createOutcome, if_neg hsid]
  cases hpar : ns.entry a.dropLast with
  | none =>
    rw [Namespace.create, hpar]
    exact ⟨rfl, rfl⟩
  | some parent =>
    by_cases heph : parent.ephemeral = true
    · rw [Namespace.create, hpar]
      dsimp only
      rw [if_pos heph, if_pos heph]
      exact ⟨rfl, rfl⟩
    · rw [Namespace.create_of_parent hpar (Bool.eq_false_iff.mpr heph), count_entry]
      simp only [if_neg heph]
      by_cases hsome : (ns.entry ((ns.count sq).seat a sq)).isSome = true
      · simp only [if_pos hsome]
        exact ⟨rfl, count_entry ns sq⟩
      · simp only [if_neg hsome]
        exact ⟨rfl, by rw [← count_entry ns sq]; rfl⟩

/-- The status that `deleteNode` picks for a result. -/
def deleteCode : Except StoreErr Unit → Nat
  | .ok _ => 204
  | .error .nodeNotFound => 404
  | .error .versionMismatch => 409
  | .error .notEmpty => 400
  | .error _ => 500

theorem deleteOutcome_eq (ns : Namespace) (a : List Str) (v : Int) :
    deleteOutcome ns a v = (deleteCode (ns.delete a v).2, (ns.delete a v).1.entry) := by
  unfold deleteOutcome Namespace.delete
  by_cases ha : a = []
  · simp only [if_pos ha]
    rfl
  · simp only [if_neg ha]
    cases ns.entry a with
    | none => rfl
    | some x =>
      by_cases hv : x.allows v
      · by_cases hc : ns.HasChild a
        · simp only [if_pos hv, if_pos hc]
          rfl
        · simp only [if_pos hv, if_neg hc]
          rfl
      · simp only [if_neg hv]
        rfl

section Handlers

variable {st : Store} (target : Str)

/-- A read that only depends on whether the node is there. -/
theorem status_of_get {α : Type} {reply : Reply α} {p : Str}
    (hsome : ∀ n, st.nodes.find (normalizePath p) = some n → reply.status = some 200)
    (hnone : st.nodes.find (normalizePath p) = none → reply.status = some 404) :
    reply.status = some (readStatus st.view (address p)) := by
  obtain ⟨hes, hp⟩ := address_spec p
  rw [hp] at hsome hnone
  rw [readStatus, view_entry st hes]
  cases hn : st.nodes.find (Slash.render (address p)) with
  | none => exact hnone hn
  | some n => exact hsome n hn

theorem status_getNode :
    (getNode st target).status = some (readStatus st.view (address (nodePath target))) :=
  status_of_get (fun n hn => by simp [getNode, Store.get, hn, Reply.status])
    fun hn => by simp [getNode, Store.get, hn, Reply.status]

theorem status_getChildren :
    (getChildren st target).status = some (readStatus st.view (address (nodePath target))) :=
  status_of_get (fun n hn => by simp [getChildren, Store.getChildren, hn, Reply.status])
    fun hn => by simp [getChildren, Store.getChildren, hn, Reply.status]

variable (h : Tree st)

include h

theorem outcome_createNode (data : Str) (eph sq : Bool) (sid : Str) :
    ((createNode st target data eph sq sid).2.status,
        (createNode st target data eph sq sid).1.view.entry) =
      (some (createOutcome st.view (address (nodePath target)) data eph sq sid).1,
        (createOutcome st.view (address (nodePath target)) data eph sq sid).2) := by
  by_cases hsid : eph = true ∧ sid = []
  · rw [createNode, if_pos hsid, createOutcome, if_pos hsid]
    rfl
  · obtain ⟨hview, hresult⟩ := Prod.mk.inj (create_view h (nodePath target) data eph sid sq)
    obtain ⟨hstatus, hentry⟩ :=
      outcome_create st.view (address (nodePath target)) data sq hsid
    rw [createNode, if_neg hsid]
    dsimp only
    rw [hview, hresult, hstatus, hentry]

theorem outcome_setNode (data : Str) (v : Int) :
    ((setNode st target data v).2.status, (setNode st target data v).1.view.entry) =
      (some (setOutcome st.view (address (nodePath target)) data v).1,
        (setOutcome st.view (address (nodePath target)) data v).2) := by
  obtain ⟨hview, hresult⟩ := Prod.mk.inj (set_view h (nodePath target) data v)
  rw [setNode]
  dsimp only
  rw [hview, setOutcome]
  generalize (st.set (nodePath target) data v).2 = result at hresult
  rw [Namespace.set] at hresult ⊢
  cases hx : st.view.entry (address (nodePath target)) with
  | none =>
    rw [hx] at hresult
    cases result with
    | ok n => cases hresult
    | error e =>
      obtain rfl := Except.error.inj hresult
      rfl
  | some x =>
    rw [hx] at hresult
    by_cases hv : x.allows v
    · simp only [if_pos hv] at hresult ⊢
      cases result with
      | ok n => rfl
      | error e => cases hresult
    · simp only [if_neg hv] at hresult ⊢
      cases result with
      | ok n => cases hresult
      | error e =>
        obtain rfl := Except.error.inj hresult
        rfl

theorem outcome_deleteNode (versionStr : Str) :
    ((deleteNode st target versionStr).2.status, (deleteNode st target versionStr).1.view.entry) =
      (some (deleteOutcome st.view (address (nodePath target)) (parseVersion versionStr)).1,
        (deleteOutcome st.view (address (nodePath target)) (parseVersion versionStr)).2) := by
  rw [deleteOutcome_eq]
  rcases delete_view h (nodePath target) (parseVersion versionStr) with
    ⟨err, hdel, hview⟩ | ⟨t, hdel, hview⟩
  · rw [deleteNode, hdel, hview]
    cases err <;> rfl
  · rw [deleteNode, hdel, hview]
    rfl

end Handlers

/-! ## 4. In a running server -/

/-- The store of a server is always a tree. -/
theorem tree_of_server {s : Sys} {defaultTTL maxTTL now : Int}
    (hs : Lts.Reach step (newServer defaultTTL maxTTL now) s) : Tree s.lock.store :=
  hs.invariant (P := fun s => Tree s.lock.store) tree_newStore fun _ _ _ h _ hstep =>
    Lock.tree_of_leaves h (step_keeps hstep).1

/-- **Which status a node request gets, and what it changes.**  In every state of a running server
each of the five requests is answered as the namespace says, and the entries after it are those the
namespace says; only a 200, 201 or 204 comes with a change. -/
theorem node_requests_exact {s : Sys} {defaultTTL maxTTL now : Int}
    (hs : Lts.Reach step (newServer defaultTTL maxTTL now) s) (target : Str) :
    let st := s.lock.store
    let a := address (nodePath target)
    (getNode st target).status = some (readStatus st.view a) ∧
    (getChildren st target).status = some (readStatus st.view a) ∧
    (∀ data eph sq sid,
      ((createNode st target data eph sq sid).2.status,
          (createNode st target data eph sq sid).1.view.entry) =
        (some (createOutcome st.view a data eph sq sid).1,
          (createOutcome st.view a data eph sq sid).2)) ∧
    (∀ data v,
      ((setNode st target data v).2.status, (setNode st target data v).1.view.entry) =
        (some (setOutcome st.view a data v).1, (setOutcome st.view a data v).2)) ∧
    ∀ versionStr,
      ((deleteNode st target versionStr).2.status,
          (deleteNode st target versionStr).1.view.entry) =
        (some (deleteOutcome st.view a (parseVersion versionStr)).1,
          (deleteOutcome st.view a (parseVersion versionStr)).2) := by
  have h := tree_of_server hs
  exact ⟨status_getNode target, status_getChildren target, outcome_createNode target h,
    outcome_setNode target h, outcome_deleteNode target h⟩

theorem node_requests_exact_after_create :
    ∃ s, Lts.Reach step (newServer (10 * 10 ^ 9) (60 * 10 ^ 9) 0) s ∧
      "/a".toList ∈ s.lock.store.nodes ∧
      (getNode s.lock.store "a".toList).status =
        some (readStatus s.lock.store.view (address (nodePath "a".toList))) := by
  obtain ⟨s, hs, hmem⟩ : ∃ s, Lts.Reach step (newServer (10 * 10 ^ 9) (60 * 10 ^ 9) 0) s ∧
      "/a".toList ∈ s.lock.store.nodes :=
    Lts.exists_reach [.createNode "a".toList [] false false []] (by decide +kernel)
  exact ⟨s, hs, hmem, (node_requests_exact hs "a".toList).1⟩

end SkyLock.Server
