/-
# Several servers

A cluster as main starts it: on every server a Raft node, a store, a session manager and a lock
manager.  The Raft nodes talk to one another and the API handlers work on the local components,
but nothing joins the two.  No handler calls `Propose`, nothing calls `SetApplyFunc`, and so no
lock operation ever passes through the replicated log.

What a lock excludes is therefore the other acquisitions made through the SAME server
(`local_mutual_exclusion`), up to the 10 ^ 10 sequence numbers that sort as they count.  Two
servers grant one name at the same time, and one server does so beyond that number
(`exclusion_is_local`).
-/
import SkyLock.Lock.Exclusion
import SkyLock.Raft.Election
import SkyLock.Server.Basic

namespace SkyLock.Server

open Store Slash

/-! ## 1. The cluster -/

/-- The Raft nodes with their network, and what runs beside them on each server. -/
structure Cluster where
  raft : Raft.Cluster
  servers : Str → Sys

inductive ClusterAction
  | raft (a : Raft.Action)
  | serve (id : Str) (a : Action)
  deriving DecidableEq

namespace Cluster

def put (c : Cluster) (id : Str) (s : Sys) : Cluster :=
  { c with servers := Function.update c.servers id s }

def step (ids : List Str) (c : Cluster) : ClusterAction → Option Cluster
  | .raft a => (Raft.Cluster.step ids c.raft a).map fun raft => { c with raft }
  | .serve id a => if id ∈ ids then (Server.step (c.servers id) a).map (c.put id) else none

/-- Every server as main starts it, each with a configuration of its own. -/
def Starting (c : Cluster) : Prop :=
  c.raft = Raft.newCluster ∧
    ∀ p, ∃ defaultTTL maxTTL now, c.servers p = newServer defaultTTL maxTTL now

/-- The lock system of one server. -/
def lockAt (c : Cluster) (p : Str) : Lock.Sys := (c.servers p).lock

/-- A call at the server `p` has been granted its lock, and the lock has neither been released nor
expired: the node that the call put into the queue is still there. -/
def Holds (c : Cluster) (p : Str) (i : Nat) (l : Lock) : Prop :=
  (c.lockAt p).Acquired i l ∧ Lock.Own (c.lockAt p).store l

/-- The counter of the server `p` is below `10 ^ 10` after the step. -/
def Bounded (ids : List Str) (p : Str) (c : Cluster) (a : ClusterAction) : Prop :=
  ∀ c' ∈ step ids c a, (c'.lockAt p).store.seqCounter < 10 ^ 10

instance (ids : List Str) (p : Str) (c : Cluster) (a : ClusterAction) :
    Decidable (Bounded ids p c a) :=
  inferInstanceAs (Decidable (∀ c' ∈ step ids c a, (c'.lockAt p).store.seqCounter < 10 ^ 10))

end Cluster

/-! ## 2. What a run is at one server -/

namespace Cluster

variable {ids : List Str} {c c' : Cluster} {p : Str} {a : ClusterAction}

theorem lockAt_put_self (c : Cluster) (p : Str) (s : Sys) : (c.put p s).lockAt p = s.lock :=
  congrArg Sys.lock (Function.update_self ..)

theorem lockAt_put_ne (c : Cluster) {p id : Str} (s : Sys) (h : p ≠ id) :
    (c.put id s).lockAt p = c.lockAt p := congrArg Sys.lock (Function.update_of_ne h ..)

theorem lockAt_of_step (h : step ids c a = some c') (p : Str) :
    c'.lockAt p = c.lockAt p ∨ ∃ la, Lock.step (c.lockAt p) la = some (c'.lockAt p) := by
  cases a with
  | raft a =>
    obtain ⟨r, -, rfl⟩ := Option.map_eq_some_iff.mp h
    exact .inl rfl
  | serve id a =>
    obtain ⟨-, h⟩ := Option.ite_none_right_eq_some.mp h
    obtain ⟨t, ht, rfl⟩ := Option.map_eq_some_iff.mp h
    rcases eq_or_ne p id with rfl | hne
    · rw [lockAt_put_self]
      rcases lockStep_of_step ht with ⟨heq, -⟩ | ⟨la, -, hla⟩
      · exact .inl heq
      · exact .inr ⟨la, hla⟩
    · exact .inl (c.lockAt_put_ne t hne)

/-- **At one server, a run of the cluster is a run of its lock system.** -/
theorem lock_run (h : Lts.Run (step ids) (Bounded ids p) c c') :
    Lts.Run Lock.step Lock.Bounded (c.lockAt p) (c'.lockAt p) := by
  refine h.project (fun c => c.lockAt p) fun c a c' hok hs => ?_
  rcases lockAt_of_step hs p with heq | ⟨la, hla⟩
  · exact .inl heq
  · refine .inr ⟨la, fun t ht => ?_, hla⟩
    rw [Option.some.inj (ht.symm.trans hla)]
    exact hok c' hs

theorem queue_of_run (hstart : Starting c) (h : Lts.Run (step ids) (Bounded ids p) c c') :
    Lock.Queue (c'.lockAt p) := by
  obtain ⟨-, hservers⟩ := hstart
  obtain ⟨defaultTTL, maxTTL, now, hp⟩ := hservers p
  refine (lock_run h).invariant ?_ fun _ _ _ hq hb hs => hq.step hb hs
  rw [lockAt, hp]
  exact .of_fresh ⟨rfl, rfl⟩ tree_newStore (Nat.pos_of_ne_zero (by decide))

/-- **Mutual exclusion is local.**  At every server, as long as its counter is below `10 ^ 10`,
at most one acquisition of a name is granted and neither released nor expired. -/
theorem local_mutual_exclusion {i j : Nat} {l l' : Lock} (hstart : Starting c)
    (h : Lts.Run (step ids) (Bounded ids p) c c') (hi : c'.Holds p i l) (hj : c'.Holds p j l')
    (hname : l.name = l'.name) : i = j := by
  have hdir : Lock.directory l' = Lock.directory l := by rw [Lock.directory, Lock.directory, hname]
  exact (queue_of_run hstart h).exclusive hi.1.2 hj.1.2 hi.1.1 hj.1.1 hdir hi.2 hj.2

end Cluster

/-! ## 3. Where exclusion ends -/

/-- Mutual exclusion across the cluster: in every state that main's wiring leads to, two
acquisitions of a name that are both held are one and the same. -/
def Exclusive (ids : List Str) (c₀ : Cluster) : Prop :=
  ∀ c, Lts.Reach (Cluster.step ids) c₀ c → ∀ p q i j l l', c.Holds p i l → c.Holds q j l' →
    l.name = l'.name → p = q ∧ i = j

instance (st : Store) (l : Lock) : Decidable (Lock.Own st l) :=
  decidable_of_iff ((st.nodes.find l.path).any fun n =>
    n.sequential = true ∧ n.sequence = Lock.ticket l) (by
      simp only [Lock.Own, Option.any_eq_true, decide_eq_true_eq])

instance (c : Cluster) (p : Str) (i : Nat) (l : Lock) : Decidable (c.Holds p i l) :=
  inferInstanceAs (Decidable ((_ ∧ _) ∧ _))

/-- Every server as main starts it with the default configuration. -/
def newCluster : Cluster := ⟨Raft.newCluster, fun _ => newServer (30 * 10 ^ 9) (300 * 10 ^ 9) 0⟩

theorem starting_newCluster : newCluster.Starting := ⟨rfl, fun _ => ⟨_, _, _, rfl⟩⟩

/-- `/locks` is created at a server. -/
def createLocks (p : Str) : ClusterAction :=
  .serve p (.createNode "locks".toList [] false false [])

/-- A client opens a session and acquires the lock `x`, in as many critical sections as are
given. -/
def acquireX (p : Str) (call : Nat) (owner sessionID : Str) (sections : Nat) : List ClusterAction :=
  [.serve p (.createSession sessionID owner 30),
    .serve p (.acquireLock call "x".toList owner sessionID 1000)] ++
      List.replicate sections (.serve p (.inner (.advance call)))

/-- The lock `x` with the given queue node. -/
def lockX (owner sessionID : Str) (seq : Nat) : Lock :=
  ⟨"x".toList, owner, sessionID, Lock.queuePath "x".toList ++ formatSequence seq, seq⟩

theorem name_lockX {owner owner' sessionID sessionID' : Str} {seq seq' : Nat} :
    (lockX owner sessionID seq).name = (lockX owner' sessionID' seq').name := rfl

theorem local_mutual_exclusion_contention :
    ∃ c, Lts.Run (Cluster.step Raft.trio) (Cluster.Bounded Raft.trio Raft.n1) newCluster c ∧
      c.Holds Raft.n1 0 (lockX "alice".toList "s1".toList 1) ∧
      Lock.Own (c.lockAt Raft.n1).store (lockX "bob".toList "s2".toList 2) ∧
      ∀ j l, c.Holds Raft.n1 j l → l.name = "x".toList → j = 0 := by
  obtain ⟨c, hrun, hheld, hqueued⟩ : ∃ c,
      Lts.Run (Cluster.step Raft.trio) (Cluster.Bounded Raft.trio Raft.n1) newCluster c ∧
      c.Holds Raft.n1 0 (lockX "alice".toList "s1".toList 1) ∧
      Lock.Own (c.lockAt Raft.n1).store (lockX "bob".toList "s2".toList 2) :=
    Lts.exists_run (Raft.trio.map createLocks ++
      acquireX Raft.n1 0 "alice".toList "s1".toList 5 ++
      acquireX Raft.n1 1 "bob".toList "s2".toList 4) (by decide +kernel)
  exact ⟨c, hrun, hheld, hqueued, fun j l hj hname =>
    Cluster.local_mutual_exclusion starting_newCluster hrun hj hheld hname⟩

/-- **Two servers grant the same lock.** -/
theorem granted_at_two_servers :
    ∃ c, Lts.Reach (Cluster.step Raft.trio) newCluster c ∧
      c.Holds Raft.n1 0 (lockX "alice".toList "s1".toList 1) ∧
      c.Holds Raft.n2 0 (lockX "bob".toList "s2".toList 1) :=
  Lts.exists_reach (Raft.trio.map createLocks ++
    acquireX Raft.n1 0 "alice".toList "s1".toList 5 ++
    acquireX Raft.n2 0 "bob".toList "s2".toList 5) (by decide +kernel)

/-- The server with its counter at another value. -/
def Sys.atCounter (s : Sys) (k : Nat) : Sys :=
  { s with lock := { s.lock with store := { s.lock.store with seqCounter := k } } }

theorem nodePath_render (es : List Str) : nodePath (render es) = render es := by
  simp [nodePath, render, Text.trimPrefix, Text.hasPrefix]

/-- Clients create a sequential node and delete it again: only the counter has moved. -/
theorem reach_bump {s : Sys} {target q : Str} (htree : Tree s.lock.store)
    (hcb : s.lock.callbacks = []) (hwatch : s.lock.onNodeDelete = .watchManager)
    (hok : (s.lock.store.create (nodePath target) [] false [] true).2 = .ok q) :
    Lts.Reach step s (s.atCounter ((s.lock.store.seqCounter + 1) % 2 ^ 64)) := by
  obtain ⟨es, hes, rfl⟩ : ∃ es, Elems es ∧ q = render es := by
    rcases create_cases htree (nodePath target) [] false [] true with
      ⟨err, herr, -⟩ | ⟨ds, e, _, _, hq, hl, -⟩
    · exact absurd (herr.symm.trans hok) nofun
    · exact ⟨ds ++ [e], hl.elems.concat hl.elem, Except.ok.inj (hok.symm.trans hq)⟩
  have hdel := delete_created htree hok
  let created : Sys := { s with
    lock := { s.lock with store := (s.lock.store.create (nodePath target) [] false [] true).1 } }
  let deleted : Sys := { s with
    lock := { s.lock with store := s.lock.store.bump true, callbacks := [render es] } }
  have hcreate : step s (.createNode target [] false true []) = some created := by
    simp [step, Sys.runLock, lockAction, Sys.toRegister, Lock.step, Lock.Sys.runOp, Store.step,
      Lock.deletedPaths, created]
  have hdelete : step created (.deleteNode (render es) (-1)) = some deleted := by
    simp [step, Sys.runLock, lockAction, nodePath_render, Lock.step, Lock.Sys.runOp, Store.step,
      Lock.deletedPaths, hdel, hcb, normalizePath_render hes, created, deleted]
  have hcallback : step deleted (.inner (.callback (render es))) =
      some (s.atCounter ((s.lock.store.seqCounter + 1) % 2 ^ 64)) := by
    simp [step, Sys.runLock, lockAction, isInner, Lock.step, hwatch, Sys.atCounter, Store.bump,
      deleted]
    exact hcb
  exact ((Lts.Run.single _ trivial hcreate).trans (.single _ trivial hdelete)).trans
    (.single _ trivial hcallback)

/-- A server with an empty `/locks` and nothing else. -/
def locksServer : Sys :=
  { newServer (30 * 10 ^ 9) (300 * 10 ^ 9) 0 with
    lock := Lock.manager Lock.locksStore .watchManager }

theorem mem_locksStore {k : Str} (h : k ∈ Lock.locksStore.nodes) :
    k = root ∨ k = "/locks".toList := by
  obtain ⟨n, r, hnodes⟩ : ∃ n r, Lock.locksStore.nodes =
      (newStore.nodes.insert "/locks".toList n).insert root r := ⟨_, _, rfl⟩
  rw [hnodes] at h
  rcases Finmap.mem_insert.mp h with rfl | h
  · exact .inl rfl
  · rcases Finmap.mem_insert.mp h with rfl | h
    · exact .inr rfl
    · exact .inl ((Finmap.mem_singleton _ _ _).mp h)

theorem create_atCounter (k : Nat) :
    ∃ q, ((locksServer.atCounter k).lock.store.create (nodePath "q".toList) [] false [] true).2 =
      .ok q := by
  have htree : Tree (locksServer.atCounter k).lock.store :=
    (tree_of_reach Lock.reach_locksStore).of_nodes_eq rfl
  obtain ⟨r, hr, hre⟩ := htree.root
  have hfresh : render ([] ++ [leafName (locksServer.atCounter k).lock.store "q".toList true]) ∉
      (locksServer.atCounter k).lock.store.nodes := by
    intro hmem
    rcases mem_locksStore hmem with h | h
    · exact render_concat_ne_root elems_nil (isElem_leafName _ (by decide) true) h
    · -- the names begin with different letters
      exact absurd (List.cons.inj (List.cons.inj h).2).1 (by decide)
  have hq : IsElem "q".toList := by decide
  have hpath : normalizePath (nodePath "q".toList) = render ([] ++ ["q".toList]) := by decide
  have hr' : (locksServer.atCounter k).lock.store.nodes.find (render []) = some r := hr
  refine ⟨render ([] ++ [leafName (locksServer.atCounter k).lock.store "q".toList true]), ?_⟩
  rw [create_below elems_nil hq hpath]
  simp only [hr', hre, Bool.false_eq_true, if_false, if_neg hfresh]

theorem reach_atCounter : ∀ k < 2 ^ 64, Lts.Reach step locksServer (locksServer.atCounter k) := by
  intro k
  induction k with
  | zero => exact fun _ => .refl _
  | succ k ih =>
    intro hk
    obtain ⟨q, hq⟩ := create_atCounter k
    have hbump := reach_bump ((tree_of_reach Lock.reach_locksStore).of_nodes_eq rfl) rfl rfl hq
    have hmod : (k + 1) % 2 ^ 64 = k + 1 := Nat.mod_eq_of_lt hk
    have hnext : (locksServer.atCounter k).atCounter ((k + 1) % 2 ^ 64) =
        locksServer.atCounter (k + 1) := by rw [hmod]; rfl
    exact (ih (Nat.lt_of_succ_lt hk)).trans (hnext ▸ hbump)

namespace Cluster

theorem reach_put {ids : List Str} {id : Str} (hid : id ∈ ids) {c : Cluster} {s : Sys}
    (h : Lts.Reach Server.step (c.servers id) s) :
    Lts.Reach (step ids) c (c.put id s) := by
  generalize hs₀ : c.servers id = s₀ at h
  induction h with
  | refl =>
    have hput : c.put id s₀ = c := by rw [put, ← hs₀, Function.update_eq_self]
    rw [hput]
    exact .refl c
  | @tail t u a _ _ hstep ih =>
    refine .tail (.serve id a) ih trivial ?_
    have hat : (c.put id t).servers id = t := Function.update_self ..
    have hput : (c.put id t).put id u = c.put id u := by simp [put]
    rw [step, if_pos hid, hat, hstep, Option.map_some, hput]

end Cluster

/-- **One server grants the same lock twice** at the counter's eleventh digit: the name of the
later queue node sorts first. -/
theorem granted_twice_at_ten_digits :
    ∃ c, Lts.Reach (Cluster.step [Raft.n1]) newCluster c ∧
      c.Holds Raft.n1 0 (lockX "alice".toList "s1".toList (10 ^ 10 - 1)) ∧
      c.Holds Raft.n1 1 (lockX "bob".toList "s2".toList (10 ^ 10)) := by
  have hlocks : Lts.Reach step (newCluster.servers Raft.n1) locksServer :=
    .single (.createNode "locks".toList [] false false []) trivial rfl
  have hcount : Lts.Reach (Cluster.step [Raft.n1]) newCluster
      (newCluster.put Raft.n1 (locksServer.atCounter (10 ^ 10 - 2))) :=
    Cluster.reach_put (List.mem_singleton.mpr rfl)
      (hlocks.trans (reach_atCounter (10 ^ 10 - 2) (by decide)))
  obtain ⟨c, hrun, hfacts⟩ : ∃ c, Lts.Reach (Cluster.step [Raft.n1])
        (newCluster.put Raft.n1 (locksServer.atCounter (10 ^ 10 - 2))) c ∧
      c.Holds Raft.n1 0 (lockX "alice".toList "s1".toList (10 ^ 10 - 1)) ∧
      c.Holds Raft.n1 1 (lockX "bob".toList "s2".toList (10 ^ 10)) :=
    Lts.exists_reach (acquireX Raft.n1 0 "alice".toList "s1".toList 5 ++
      acquireX Raft.n1 1 "bob".toList "s2".toList 4) (by decide +kernel)
  exact ⟨c, hcount.trans hrun, hfacts⟩

/-- **Exclusion does not reach across servers**, nor, at one server, beyond ten digits. -/
theorem exclusion_is_local :
    ¬ Exclusive Raft.trio newCluster ∧ ¬ Exclusive [Raft.n1] newCluster := by
  constructor
  · intro hexcl
    obtain ⟨c, hc, halice, hbob⟩ := granted_at_two_servers
    exact absurd (hexcl c hc _ _ _ _ _ _ halice hbob name_lockX).1 (by decide)
  · intro hexcl
    obtain ⟨c, hc, halice, hbob⟩ := granted_twice_at_ten_digits
    exact absurd (hexcl c hc _ _ _ _ _ _ halice hbob name_lockX).2 (by decide)

end SkyLock.Server
