/-
# Releasing a lock

`Unlock` takes a `Lock` that `releaseLock` has filled with the name and the path of the request,
nothing else.  It strikes the path out of the table and hands it to the store's `Delete`.  It does
not ask whether the table has an entry under that path, nor for which name: ANY leaf of the tree
can be released, a waiting client's queue node and a plain data node as well.

`unlock` is the whole call, run without interference; `unlock_steps` ties it to the two steps that
the system takes for it.  `unlock_releases_iff` says when the call does what it should.
-/
import SkyLock.Store.Closure
import SkyLock.Lock.Exclusion

namespace SkyLock.Lock

open Store Sys Slash

variable {s s' : Sys} {a : Action} {st : Store} {l lock : Lock} {p : Str} {err : Option LockErr}

/-! ## 1. The call -/

/-- `Unlock`: what it leaves and the error it returns.  `none` stands for a panic in `Delete`. -/
def unlock (s : Sys) (lock : Lock) : Option (Sys × Option LockErr) :=
  if lock.path = [] then some (s, some .notHeld)
  else
    let s := { s with locks := s.locks.erase lock.path }
    match s.store.delete lock.path (-1) with
    | .ok st =>
      some ({ s with store := st, callbacks := s.callbacks ++ [normalizePath lock.path] }, none)
    | .error (.err e) => some (s, some (.store e))
    | .error .nilDereference => none

/-- The lock that `releaseLock` builds from a request. -/
def requested (name lockID : Str) : Lock := ⟨name, [], [], lockID, 0⟩

/-- The call is the two steps of the system, one right after the other. -/
theorem unlock_steps (hp : lock.path ≠ []) (h : unlock s lock = some (s', err)) :
    ∃ u, Lts.exec step s [.unlock lock, .unlockDelete lock.path] =
      some { s' with unlocking := u } := by
  have hpending : lock.path ∈ s.unlocking ++ [lock.path] :=
    List.mem_append_right _ (List.mem_singleton.mpr rfl)
  refine ⟨(s.unlocking ++ [lock.path]).erase lock.path, ?_⟩
  simp only [Lts.exec, step, if_neg hp, Option.bind_some, if_pos hpending, runOp, Store.step,
    deletedPaths]
  rw [unlock, if_neg hp] at h
  dsimp only at h
  split at h
  · rename_i st hdel
    cases h
    simp only [hdel, Option.map_some, Option.bind_some]
  · rename_i e hdel
    cases h
    simp only [hdel, Option.map_some, Option.bind_some, List.append_nil]
  · cases h

/-- What `Delete` needs of a path, if no version is asked for: it names a leaf, not the root. -/
def Deletable (st : Store) (p : Str) : Prop :=
  normalizePath p ≠ root ∧ ∃ n, st.nodes.find (normalizePath p) = some n ∧ n.children = []

theorem delete_deletable (h : Tree st) (hp : Deletable st p) :
    st.delete p (-1) = .ok (st.unlink (normalizePath p)) := by
  obtain ⟨hroot, n, hn, hleaf⟩ := hp
  obtain ⟨par, hpar, -⟩ := h.parent_present hn hroot
  have hin : parentPath (normalizePath p) ∈ st.nodes := GoMap.mem_of_find hpar
  simp [delete, hroot, hn, versionMatches, hleaf, hin]

theorem delete_of_not_deletable (h : Tree st) (hp : ¬ Deletable st p) :
    ∃ e, st.delete p (-1) = .error (.err e) := by
  rcases delete_cases h p (-1) with herr | ⟨ds, e, n, par, hnorm, -, -, -, hu⟩
  · exact herr
  · refine absurd ⟨?_, n, hnorm ▸ hu.node, hu.leaf⟩ hp
    rw [hnorm]
    exact render_concat_ne_root hu.elems hu.elem

/-- **What `Unlock` does with a path**: it strikes it out of the table, and deletes what can be
deleted. -/
theorem unlock_cases (h : Tree s.store) (hp : lock.path ≠ []) :
    ∃ s' err, unlock s lock = some (s', err) ∧ s'.locks = s.locks.erase lock.path ∧
      (Deletable s.store lock.path ∧ err = none ∧
          s'.store = s.store.unlink (normalizePath lock.path) ∨
        ¬ Deletable s.store lock.path ∧ err ≠ none ∧ s'.store = s.store) := by
  rw [unlock, if_neg hp]
  dsimp only
  by_cases hdel : Deletable s.store lock.path
  · rw [delete_deletable h hdel]
    exact ⟨_, _, rfl, rfl, .inl ⟨hdel, rfl, rfl⟩⟩
  · obtain ⟨e, he⟩ := delete_of_not_deletable h hdel
    rw [he]
    exact ⟨_, _, rfl, rfl, .inr ⟨hdel, nofun, rfl⟩⟩

/-! ## 2. The table -/

/-- Every entry of the table is under the path of its lock, and is some call's. -/
structure Recorded (s : Sys) : Prop where
  tree : Tree s.store
  shaped : Shaped s
  table : ∀ {p l}, s.locks.find p = some l → l.path = p ∧ ∃ i, s.lockOf i = some l

theorem CriticalSection.locks {i : Nat} {c : Call} {t : Sys} {pc : Pc}
    (h : CriticalSection s i c t pc) (hl : t.locks.find p = some l) :
    s.locks.find p = some l ∨ l.path = p ∧ c.pc.lock? = some l := by
  cases h with
  | record l' w hpc =>
    rw [GoMap.find_insert] at hl
    split at hl
    · rename_i hp
      obtain rfl := Option.some.inj hl
      exact .inr ⟨hp.symm, by rw [hpc]; rfl⟩
    · exact .inl hl
  | look | mkdir | refused | enqueue | checkFails | grant | behind | register | wake | delete
  | leave => exact .inl hl

theorem locks_of_step (h : step s a = some s') (hl : s'.locks.find p = some l) :
    s.locks.find p = some l ∨ l.path = p ∧ ∃ i, s.lockOf i = some l := by
  cases event_of_step h with
  | advance i c hc after =>
    obtain ⟨t, pc, signal, hsec, rfl⟩ := advance_cases after
    rcases hsec.locks hl with hold | ⟨hp, hlock⟩
    · exact .inl hold
    · exact .inr ⟨hp, i, (lockOf_of_find hc).trans hlock⟩
  | unlock lock =>
    rw [GoMap.find_erase] at hl
    split at hl
    · exact absurd hl nofun
    · exact .inl hl
  | tryLock | timer | unlockNothing | unlockDelete | node | callback | notify => exact .inl hl

theorem Recorded.step (h : Recorded s) (hs : step s a = some s') : Recorded s' := by
  refine ⟨tree_of_leaves h.tree (store_of_step hs), h.shaped.step hs, fun hl => ?_⟩
  rcases locks_of_step hs hl with hold | ⟨hp, i, hlock⟩
  · obtain ⟨hp, i, hlock⟩ := h.table hold
    exact ⟨hp, i, lockOf_of_step hs hlock⟩
  · exact ⟨hp, i, lockOf_of_step hs hlock⟩

theorem recorded_of_reach {handler : DeleteHandler}
    (hs : Lts.Reach step (manager newStore handler) s) : Recorded s := by
  refine hs.invariant ⟨tree_newStore, fun i l hl => ?_, fun hl => ?_⟩ fun _ _ _ h _ hs => h.step hs
  · rw [(fresh_manager newStore handler).lockOf] at hl
    exact absurd hl nofun
  · rw [manager, setWatchCallbacks, newManager, GoMap.find_empty] at hl
    exact absurd hl nofun

/-- The paths in the table are written in clean form, and none is the root. -/
theorem Recorded.deletable_iff (h : Recorded s) (hl : s.locks.find p = some l) :
    normalizePath p = p ∧
      (Deletable s.store p ↔ ∃ n, s.store.nodes.find p = some n ∧ n.children = []) := by
  obtain ⟨rfl, i, hlock⟩ := h.table hl
  obtain ⟨ds, hq⟩ := h.shaped i l hlock
  have helem := isElem_queueName (ticket l)
  have hnorm : normalizePath l.path = l.path := by
    rw [hq.path]
    exact normalizePath_render (hq.elems.concat helem)
  have hroot : normalizePath l.path ≠ root := by
    rw [hnorm, hq.path]
    exact render_concat_ne_root hq.elems helem
  rw [Deletable, hnorm] at *
  exact ⟨rfl, and_iff_right hroot⟩

/-! ## 3. Releasing what is held -/

/-- The table has an acquisition of the lock's name under the lock's path. -/
def Sys.Holds (s : Sys) (lock : Lock) : Prop :=
  ∃ l, s.locks.find lock.path = some l ∧ l.name = lock.name

/-- An error, and nothing has changed. -/
def Refuses (s s' : Sys) (err : Option LockErr) : Prop :=
  err ≠ none ∧ s'.store = s.store ∧ s'.locks = s.locks

/-- No error; the node and the table entry are gone, and nothing else is. -/
def Releases (s s' : Sys) (lock : Lock) (err : Option LockErr) : Prop :=
  err = none ∧ s'.store = s.store.unlink lock.path ∧ s'.locks = s.locks.erase lock.path

/-- **When `Unlock` releases only what is held.**  In every reachable state and for every lock
value: a lock that is not held is refused if and only if its path is empty, or is in no table entry
and names no leaf of the store.  A lock that is held is released if and only if its node is still
there, as a leaf. -/
theorem unlock_releases_iff {handler : DeleteHandler}
    (hs : Lts.Reach step (manager newStore handler) s) (lock : Lock) :
    ∃ s' err, unlock s lock = some (s', err) ∧
      (¬ s.Holds lock → (Refuses s s' err ↔
        lock.path = [] ∨ lock.path ∉ s.locks ∧ ¬ Deletable s.store lock.path)) ∧
      (s.Holds lock → (Releases s s' lock err ↔
        ∃ n, s.store.nodes.find lock.path = some n ∧ n.children = [])) := by
  have h := recorded_of_reach hs
  by_cases hp : lock.path = []
  · refine ⟨s, some .notHeld, if_pos hp, fun _ => ?_, fun ⟨l, hl, _⟩ => ?_⟩
    · exact iff_of_true ⟨nofun, rfl, rfl⟩ (.inl hp)
    · -- an empty path is not in clean form
      have hnorm := (h.deletable_iff hl).1
      rw [hp] at hnorm
      exact absurd hnorm (by decide)
  · obtain ⟨s', err, heq, hlocks, hcases⟩ := unlock_cases h.tree hp
    refine ⟨s', err, heq, fun _ => ?_, fun ⟨l, hl, _⟩ => ?_⟩
    · rw [Refuses, hlocks, GoMap.erase_eq_self_iff, or_iff_right hp]
      rcases hcases with ⟨hdel, herr, hst⟩ | ⟨hdel, herr, hst⟩
      · exact iff_of_false (fun hr => hr.1 herr) fun hr => hr.2 hdel
      · exact ⟨fun hr => ⟨hr.2.2, hdel⟩, fun hr => ⟨herr, hst, hr.1⟩⟩
    · obtain ⟨hnorm, hiff⟩ := h.deletable_iff hl
      rw [← hiff]
      rcases hcases with ⟨hdel, herr, hst⟩ | ⟨hdel, herr, hst⟩
      · exact iff_of_true ⟨herr, hnorm ▸ hst, hlocks⟩ hdel
      · exact iff_of_false (fun hr => herr hr.1) hdel

/-- Alice holds `x`, Bob waits for it, and there is a node that has nothing to do with locks. -/
def releaseRun : List Action :=
  [.node (.create "/locks".toList [] false [] false),
    .node (.create "/data".toList "d".toList false [] false)] ++ contention

/-- Alice's request is granted. -/
theorem unlock_releases_alice :
    ∃ s s', Lts.Reach step (manager newStore .watchManager) s ∧
      s.Holds (requested "x".toList aliceLock.path) ∧
      unlock s (requested "x".toList aliceLock.path) = some (s', none) ∧
      s'.store = s.store.unlink aliceLock.path ∧ s'.locks = s.locks.erase aliceLock.path := by
  obtain ⟨s, hs, hheld, hnode⟩ : ∃ s, Lts.Reach step (manager newStore .watchManager) s ∧
      s.locks.find aliceLock.path = some aliceLock ∧
      (s.store.nodes.find aliceLock.path).map Node.children = some [] :=
    Lts.exists_reach releaseRun (by decide +kernel)
  obtain ⟨n, hn, hleaf⟩ := Option.map_eq_some_iff.mp hnode
  have hholds : s.Holds (requested "x".toList aliceLock.path) := ⟨aliceLock, hheld, rfl⟩
  obtain ⟨s', err, heq, -, hrel⟩ := unlock_releases_iff hs (requested "x".toList aliceLock.path)
  obtain ⟨rfl, hst, hlocks⟩ := (hrel hholds).mpr ⟨n, hn, hleaf⟩
  exact ⟨s, s', hs, hholds, heq, hst, hlocks⟩

/-- **`Unlock` deletes what nobody holds.**  In the same state, a request with the path of Bob's
queue node, and one with the path of the data node, are both granted. -/
theorem unlock_removes_waiter :
    ∃ s, Lts.Reach step (manager newStore .watchManager) s ∧
      ∀ p ∈ ["/locks/x/lock-0000000002".toList, "/data".toList],
        ¬ s.Holds (requested "x".toList p) ∧ p ∈ s.store.nodes ∧
        ∃ s', unlock s (requested "x".toList p) = some (s', none) ∧ p ∉ s'.store.nodes := by
  obtain ⟨s, hs, hall⟩ : ∃ s, Lts.Reach step (manager newStore .watchManager) s ∧
      ∀ p ∈ ["/locks/x/lock-0000000002".toList, "/data".toList],
        p ∉ s.locks ∧ p ∈ s.store.nodes ∧
        (unlock s (requested "x".toList p)).any fun r => r.2 = none ∧ p ∉ r.1.store.nodes :=
    Lts.exists_reach releaseRun (by decide +kernel)
  refine ⟨s, hs, fun p hp => ?_⟩
  obtain ⟨hfree, hmem, hgone⟩ := hall p hp
  obtain ⟨⟨s', err⟩, heq, hr⟩ := (Option.any_eq_true _ _).mp hgone
  obtain ⟨rfl, hnot⟩ := of_decide_eq_true hr
  exact ⟨fun ⟨l, hl, _⟩ => hfree (GoMap.mem_of_find hl), hmem, s', heq, hnot⟩

end SkyLock.Lock
