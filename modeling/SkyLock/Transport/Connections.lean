/-
# The connections of the transport

`getConnection` looks a peer up under the read lock, and if it is not there, looks again and dials
under the write lock (`internal/transport/grpc.go`).  Between the two locks other calls dial the
same peer, and `Stop` empties the map.  A call is therefore a machine of two critical sections, and
the system interleaves any number of calls and `Stop`s.

A connection is a position in `heap`, which keeps every connection that was ever dialled.  Whether
`grpc.Dial` succeeds is up to the environment.
-/
import SkyLock.Lib.Map
import SkyLock.Lib.Path
import SkyLock.Lib.Run

namespace SkyLock.Transport

/-! ## 1. The system -/

/-- A `grpc.ClientConn`. -/
structure ClientConn where
  target : Str
  closed : Bool
  deriving DecidableEq

/-- A call of `getConnection`. -/
inductive Call
  /-- It is going to take the read lock. -/
  | lookup (target : Str)
  /-- It has found nothing and is going to take the write lock. -/
  | dial (target : Str)
  /-- It has returned a connection, or none because `grpc.Dial` failed. -/
  | done (target : Str) (conn : Option Nat)
  deriving DecidableEq

structure GRPCTransport where
  connections : GoMap Str Nat
  heap : List ClientConn
  calls : GoMap Nat Call

def newGRPCTransport : GRPCTransport := ⟨∅, [], ∅⟩

inductive Action
  | getConnection (i : Nat) (target : Str)
  /-- The call goes through its next critical section.  `ok` is what `grpc.Dial` says, if it is
  called. -/
  | advance (i : Nat) (ok : Bool)
  | stop
  deriving DecidableEq

namespace GRPCTransport

def setCall (t : GRPCTransport) (i : Nat) (c : Call) : GRPCTransport :=
  { t with calls := t.calls.insert i c }

/-- `grpc.Dial` succeeds, and the connection is stored. -/
def store (t : GRPCTransport) (target : Str) : GRPCTransport :=
  { t with
    connections := t.connections.insert target t.heap.length
    heap := t.heap ++ [⟨target, false⟩] }

/-- The two critical sections of `getConnection`. -/
def advance (t : GRPCTransport) (i : Nat) (ok : Bool) : Call → Option GRPCTransport
  | .lookup target =>
    match t.connections.find target with
    | some conn => some (t.setCall i (.done target (some conn)))
    | none => some (t.setCall i (.dial target))
  | .dial target =>
    match t.connections.find target with
    | some conn => some (t.setCall i (.done target (some conn)))
    | none =>
      if ok then
        some ((t.store target).setCall i (.done target (some t.heap.length)))
      else
        some (t.setCall i (.done target none))
  | .done _ _ => none

/-- `Stop` closes what is in the map and makes a new one. -/
def stop (t : GRPCTransport) : GRPCTransport :=
  { t with
    connections := ∅
    heap := t.heap.mapIdx fun conn c =>
      if t.connections.keysWhere (· = conn) = ∅ then c else { c with closed := true } }

end GRPCTransport

open GRPCTransport

def step (t : GRPCTransport) : Action → Option GRPCTransport
  | .getConnection i target =>
    if i ∈ t.calls then none else some (t.setCall i (.lookup target))
  | .advance i ok => (t.calls.find i).bind fun c => t.advance i ok c
  | .stop => some t.stop

/-! ## 2. What a step does -/

section Step

variable {t t' : GRPCTransport} {a : Action} {target : Str} {conn i : Nat}

/-- **What can happen**: a call goes on and takes a connection from the map, or none; a call dials;
everything is closed. -/
inductive Move (t : GRPCTransport) : Action → GRPCTransport → Prop
  | call {a : Action} {i : Nat} {c : Call} (ha : a ≠ .stop)
    (found : ∀ target conn, c = .done target (some conn) → t.connections.find target = some conn) :
    Move t a (t.setCall i c)
  | dial {i : Nat} {target : Str} (absent : t.connections.find target = none) :
    Move t (.advance i true) ((t.store target).setCall i (.done target (some t.heap.length)))
  | stop : Move t .stop t.stop

theorem move_of_step (h : step t a = some t') : Move t a t' := by
  cases a with
  | getConnection i target =>
    obtain ⟨-, h⟩ := Option.ite_none_left_eq_some.mp h
    obtain rfl := Option.some.inj h
    exact .call (by simp) (by simp)
  | stop =>
    obtain rfl := Option.some.inj h
    exact .stop
  | advance i ok =>
    obtain ⟨c, -, h⟩ := Option.bind_eq_some_iff.mp h
    cases c with
    | lookup target =>
      rw [advance] at h
      cases hfind : t.connections.find target with
      | some conn =>
        rw [hfind] at h
        obtain rfl := Option.some.inj h
        refine .call (by simp) fun target' conn' heq => ?_
        cases heq
        exact hfind
      | none =>
        rw [hfind] at h
        obtain rfl := Option.some.inj h
        exact .call (by simp) (by simp)
    | dial target =>
      rw [advance] at h
      cases hfind : t.connections.find target with
      | some conn =>
        rw [hfind] at h
        obtain rfl := Option.some.inj h
        refine .call (by simp) fun target' conn' heq => ?_
        cases heq
        exact hfind
      | none =>
        rw [hfind] at h
        cases ok with
        | true =>
          obtain rfl := Option.some.inj h
          exact .dial hfind
        | false =>
          obtain rfl := Option.some.inj h
          exact .call (by simp) (by simp)
    | done => cases h

end Step

/-! ## 3. The map and the connections -/

/-- **The invariant.**  The open connections are those in the map, each under its own target, and a
call that has returned a connection has got one to its target. -/
structure Pooled (t : GRPCTransport) : Prop where
  pooled : ∀ target conn,
    t.connections.find target = some conn ↔ t.heap[conn]? = some ⟨target, false⟩
  returned : ∀ i target conn, t.calls.find i = some (.done target (some conn)) →
    ∃ closed, t.heap[conn]? = some ⟨target, closed⟩

section Pooled

variable {t t' : GRPCTransport} {a : Action} {target : Str} {conn i : Nat} {c : ClientConn}

theorem getElem?_store (t : GRPCTransport) (target : Str) (conn : Nat) :
    (t.store target).heap[conn]? =
      if conn = t.heap.length then some ⟨target, false⟩ else t.heap[conn]? := by
  rw [store, List.getElem?_append]
  grind

/-- What `Stop` leaves of a connection. -/
theorem Pooled.getElem?_stop (h : Pooled t) (conn : Nat) :
    t.stop.heap[conn]? = t.heap[conn]?.map fun c => { c with closed := true } := by
  rw [stop, List.getElem?_mapIdx]
  refine Option.map_congr fun c hc => ?_
  split
  · rename_i hnone
    -- a connection that is not in the map is closed already
    cases hclosed : c.closed with
    | true => rw [← hclosed]
    | false =>
      have hfind : t.connections.find c.target = some conn :=
        (h.pooled _ _).mpr (by rw [← hclosed, hc])
      have hmem : c.target ∈ t.connections.keysWhere (· = conn) :=
        GoMap.mem_keysWhere.mpr ⟨conn, hfind, by simp⟩
      rw [hnone] at hmem
      exact absurd hmem (Finset.notMem_empty _)
  · rfl

theorem pooled_newGRPCTransport : Pooled newGRPCTransport where
  pooled target conn := by simp [newGRPCTransport]
  returned i target conn hcall := by simp [newGRPCTransport] at hcall

theorem Pooled.step (h : Pooled t) (hs : step t a = some t') : Pooled t' := by
  cases move_of_step hs with
  | @call _ i c _ hfound =>
    refine ⟨h.pooled, fun j target conn hcall => ?_⟩
    rw [setCall, GoMap.find_insert] at hcall
    split at hcall
    · have hfind := hfound target conn (Option.some.inj hcall)
      exact ⟨false, (h.pooled target conn).mp hfind⟩
    · exact h.returned j target conn hcall
  | @dial i target₀ habsent =>
    refine ⟨fun target conn => ?_, fun j target conn hcall => ?_⟩
    · change GoMap.find (t.connections.insert target₀ t.heap.length) target = some conn ↔
        (t.store target₀).heap[conn]? = some ⟨target, false⟩
      rw [GoMap.find_insert, getElem?_store]
      by_cases htarget : target = target₀
      · rw [if_pos htarget, htarget]
        by_cases hconn : conn = t.heap.length
        · simp [hconn]
        · -- the old connections to this target are closed
          have hold : t.heap[conn]? ≠ some ⟨target₀, false⟩ := by
            rw [Ne, ← h.pooled target₀ conn, habsent]
            simp
          simp [hconn, hold, Ne.symm hconn]
      · rw [if_neg htarget, h.pooled]
        by_cases hconn : conn = t.heap.length
        · simp [hconn, Ne.symm htarget]
        · rw [if_neg hconn]
    · change ∃ closed, (t.store target₀).heap[conn]? = some ⟨target, closed⟩
      rw [getElem?_store]
      rw [setCall, GoMap.find_insert] at hcall
      split at hcall
      · obtain ⟨rfl, hconn⟩ : target₀ = target ∧ t.heap.length = conn := by simpa using hcall
        exact ⟨false, by rw [if_pos hconn.symm]⟩
      · obtain ⟨closed, hclosed⟩ := h.returned j target conn hcall
        have hne : conn ≠ t.heap.length := (List.getElem?_eq_some_iff.mp hclosed).1.ne
        exact ⟨closed, by rw [if_neg hne, hclosed]⟩
  | stop =>
    refine ⟨fun target conn => ?_, fun j target conn hcall => ?_⟩
    · rw [h.getElem?_stop]
      refine iff_of_false (by simp [GRPCTransport.stop]) fun hopen => ?_
      obtain ⟨c, -, hc⟩ := Option.map_eq_some_iff.mp hopen
      simpa using congrArg ClientConn.closed hc
    · obtain ⟨closed, hclosed⟩ := h.returned j target conn hcall
      exact ⟨true, by rw [h.getElem?_stop, hclosed, Option.map_some]⟩

theorem pooled_of_run {ok : GRPCTransport → Action → Prop}
    (hs : Lts.Run step ok newGRPCTransport t) : Pooled t :=
  hs.invariant pooled_newGRPCTransport fun _ _ _ h _ hstep => h.step hstep

/-- Only `Stop` closes a connection. -/
theorem open_of_step (ha : a ≠ .stop) (hs : step t a = some t')
    (hopen : t.heap[conn]? = some ⟨target, false⟩) :
    t'.heap[conn]? = some ⟨target, false⟩ := by
  cases move_of_step hs with
  | call => exact hopen
  | @dial i target₀ =>
    have hne : conn ≠ t.heap.length := (List.getElem?_eq_some_iff.mp hopen).1.ne
    exact (getElem?_store t target₀ conn).trans ((if_neg hne).trans hopen)
  | stop => exact absurd rfl ha

theorem open_of_run (hs : Lts.Run step (fun _ a => a ≠ .stop) t t')
    (hopen : t.heap[conn]? = some ⟨target, false⟩) :
    t'.heap[conn]? = some ⟨target, false⟩ :=
  hs.invariant (P := fun t => t.heap[conn]? = some ⟨target, false⟩) hopen
    fun _ _ _ h ha hstep => open_of_step ha hstep h

end Pooled

/-! ## 4. Sharing -/

/-- **Connections are shared and none is lost.**  In every state that calls of `getConnection` and
`Stop` reach, however they interleave:
* a connection is open exactly if the map holds it, so that there is never more than one open
  connection to a peer;
* a call that has returned a connection has got one to the peer it asked for, and two calls for one
  peer whose connections are open share them;
* `Stop` closes every connection there is, and it alone closes any: what a call dials after the last
  `Stop` stays open. -/
theorem connections_shared {t : GRPCTransport} (hs : Lts.Reach step newGRPCTransport t) :
    (∀ target conn,
      t.heap[conn]? = some ⟨target, false⟩ ↔ t.connections.find target = some conn) ∧
    (∀ i target conn, t.calls.find i = some (.done target (some conn)) →
      ∃ closed, t.heap[conn]? = some ⟨target, closed⟩ ∧
        (closed = false → ∀ j conn', t.calls.find j = some (.done target (some conn')) →
          t.heap[conn']? = some ⟨target, false⟩ → conn' = conn)) ∧
    (∀ c ∈ t.stop.heap, c.closed = true) ∧
    ∀ t', Lts.Run step (fun _ a => a ≠ .stop) t t' → ∀ (target : Str) (conn : Nat),
      t.heap[conn]? = some ⟨target, false⟩ → t'.heap[conn]? = some ⟨target, false⟩ := by
  have h := pooled_of_run hs
  refine ⟨fun target conn => (h.pooled target conn).symm, fun i target conn hcall => ?_,
    fun c hc => ?_, fun t' hrun target conn hopen => open_of_run hrun hopen⟩
  · obtain ⟨closed, hclosed⟩ := h.returned i target conn hcall
    refine ⟨closed, hclosed, ?_⟩
    rintro rfl j conn' - hopen
    have hfind := (h.pooled target conn).mpr hclosed
    exact Option.some.inj (((h.pooled target conn').mpr hopen).symm.trans hfind)
  · obtain ⟨conn, hconn⟩ := List.mem_iff_getElem?.mp hc
    rw [h.getElem?_stop] at hconn
    obtain ⟨c', -, rfl⟩ := Option.map_eq_some_iff.mp hconn
    rfl

/-- Two calls find nothing, and both go on to dial the peer. -/
def race : List Action :=
  [.getConnection 0 "b".toList, .getConnection 1 "b".toList, .advance 0 true, .advance 1 true,
    .advance 0 true, .advance 1 true]

theorem connections_shared_race :
    ∃ t, Lts.Reach step newGRPCTransport t ∧
      t.calls.find 0 = some (.done "b".toList (some 0)) ∧
      t.calls.find 1 = some (.done "b".toList (some 0)) ∧
      t.connections.find "b".toList = some 0 ∧ ∀ c ∈ t.stop.heap, c.closed = true := by
  obtain ⟨t, hs, hzero, hone, hopen⟩ : ∃ t, Lts.Reach step newGRPCTransport t ∧
      t.calls.find 0 = some (.done "b".toList (some 0)) ∧
      t.calls.find 1 = some (.done "b".toList (some 0)) ∧
      t.heap[0]? = some ⟨"b".toList, false⟩ :=
    Lts.exists_reach race (by decide +kernel)
  obtain ⟨hpooled, -, hstop, -⟩ := connections_shared hs
  exact ⟨t, hs, hzero, hone, (hpooled _ _).mp hopen, hstop⟩

end SkyLock.Transport
