/-
# Waiting calls and their wake-up

`NewManager` installs `onNodeDeleted` as the store's delete callback, and `onNodeDeleted` is the
only place that sends to a waiter's channel.  main then calls `SetWatchCallbacks`, which REPLACES
that callback by the watch manager's.  From then on no waiter is ever woken: a call that waits
when the holder leaves stays blocked, first in line (`lost_wakeup_after_unlock`).

What remains true is delimited by `NoPromotion`: as long as no step takes away everything ahead
of a call that has already failed its check, no such call is ever first.  The condition names the
defect: it is exactly the hand-over from a departing holder to a waiting successor that the wiring
cannot do.
-/
import SkyLock.Store.Closure
import SkyLock.Lock.Fairness

namespace SkyLock.Lock

open Store Sys Slash

variable {s s' : Sys} {a : Action} {st st' : Store} {l : Lock} {i : Nat}

/-! ## 1. A lost wake-up -/

/-- The call's queue node is the first child of its lock's directory. -/
def FirstChild (st : Store) (l : Lock) : Prop :=
  ∃ rest, st.getChildren (lockPath l.name) = .ok (baseName l.path :: rest)

/-- The call is not in the middle of a step: it has returned, or is blocked in `waitForLock`. -/
def Pc.settled : Pc → Bool
  | failed _ | queued _ .waiting | queued _ (.done _) => true
  | _ => false

/-- No callback is pending, no `Unlock` is under way and no call is in the middle of a step. -/
def Quiescent (s : Sys) : Prop :=
  s.callbacks = [] ∧ s.unlocking = [] ∧
    ∀ i c, s.calls.find i = some c → c.pc.settled = true

/-- The call is blocked in `waitForLock` with an empty channel. -/
def BlockedInWait (s : Sys) (i : Nat) (l : Lock) : Prop :=
  ∃ c, s.calls.find i = some c ∧ c.pc = .queued l .waiting ∧ c.signal = false

/-- Nothing is left to run, and a blocked call is first in line. -/
def LostWakeUp (s : Sys) : Prop :=
  Quiescent s ∧ ∃ i l, IsElem l.name ∧ BlockedInWait s i l ∧ FirstChild s.store l

/-- Quiescence, as a concrete state shows it. -/
theorem quiescent_of_keysWhere (hcb : s.callbacks = []) (hun : s.unlocking = [])
    (hset : (s.calls.keysWhere fun c => ! c.pc.settled) = ∅) : Quiescent s := by
  refine ⟨hcb, hun, fun i c hc => ?_⟩
  by_contra hns
  have hmem : i ∈ s.calls.keysWhere fun c => ! c.pc.settled :=
    GoMap.mem_keysWhere.mpr ⟨c, hc, by simpa using hns⟩
  rw [hset] at hmem
  exact absurd hmem (Finset.notMem_empty i)

/-- Bob's lock while he queues. -/
def bobLock : Lock :=
  ⟨"x".toList, "bob".toList, "s2".toList, "/locks/x/lock-0000000002".toList, 2⟩

/-- Alice holds `x` and Bob waits; Alice unlocks and the delete callback runs. -/
theorem lost_wakeup_after_unlock :
    ¬ ∀ s, Lts.Reach step (manager locksStore .watchManager) s → ¬ LostWakeUp s := by
  intro hall
  obtain ⟨s, hrun, hcb, hun, hset, hpc, hsig, hch⟩ : ∃ s,
      Lts.Reach step (manager locksStore .watchManager) s ∧ s.callbacks = [] ∧ s.unlocking = [] ∧
      (s.calls.keysWhere fun c => ! c.pc.settled) = ∅ ∧
      (s.calls.find 1).map Call.pc = some (.queued bobLock .waiting) ∧
      (s.calls.find 1).map Call.signal = some false ∧
      s.store.getChildren (lockPath "x".toList) = .ok ["lock-0000000002".toList] :=
    Lts.exists_reach (contention ++ [.unlock aliceLock, .unlockDelete aliceLock.path,
      .callback aliceLock.path]) (by decide +kernel)
  rw [Option.map_eq_some_iff] at hpc hsig
  obtain ⟨c, hc, hpc⟩ := hpc
  obtain ⟨c', hc', hsig⟩ := hsig
  obtain rfl : c = c' := Option.some.inj (hc.symm.trans hc')
  exact hall s hrun ⟨quiescent_of_keysWhere hcb hun hset, 1, bobLock, by decide,
    ⟨c, hc, hpc, hsig⟩, [], hch⟩

/-! ## 2. Calls past a failed check -/

/-- The call has failed its check and is registering, or waiting. -/
def PastFailedCheck (s : Sys) (i : Nat) (l : Lock) : Prop :=
  ∃ c, s.calls.find i = some c ∧ (c.pc = .queued l .register ∨ c.pc = .queued l .waiting)

/-- The same, computed: the lock of the call if it is past a failed check. -/
def Sys.pastFailed (s : Sys) (i : Nat) : Option Lock :=
  (s.calls.find i).bind fun c =>
    match c.pc with
    | .queued l .register | .queued l .waiting => some l
    | _ => none

theorem pastFailed_eq_some : s.pastFailed i = some l ↔ PastFailedCheck s i l := by
  unfold Sys.pastFailed PastFailedCheck
  rw [Option.bind_eq_some_iff]
  refine exists_congr fun c => and_congr_right fun _ => ?_
  split
  · rename_i hpc
    simp [hpc]
  · rename_i hpc
    simp [hpc]
  · rename_i hreg hwait
    simp only [reduceCtorEq, false_iff, not_or]
    exact ⟨hreg l, hwait l⟩

/-- What `advance` leaves of a call that is past its failed check afterwards. -/
theorem pastFailed_of_advance {c : Call} (hc : s.calls.find i = some c)
    (h : s.advance i c = some s') (hp : PastFailedCheck s' i l) :
    PastFailedCheck s i l ∨
      checkLockAcquired s.store (lockPath l.name) l.path = .ok false ∧ s'.store = s.store := by
  obtain ⟨t, pc, signal, hsec, rfl⟩ := advance_cases h
  obtain ⟨c', hc', hpc'⟩ := hp
  simp only [setCall, GoMap.find_insert, if_true, Option.some.injEq] at hc'
  rw [← hc'] at hpc'
  dsimp only at hpc'
  cases hsec with
  | behind l' ph next hpc hph ok =>
    have hl : l' = l := by
      rcases hpc' with hpc' | hpc'
      · exact (Pc.queued.inj hpc').1
      · exact (Pc.queued.inj hpc').1
    subst hl
    exact .inr ⟨ok, rfl⟩
  | register l' hpc =>
    simp only [Pc.queued.injEq, reduceCtorEq, and_false, and_true, false_or] at hpc'
    exact .inl ⟨c, hc, .inl (hpc' ▸ hpc)⟩
  | look =>
    split at hpc' <;> simp at hpc'
  | record l' w | delete l' err w =>
    cases w <;> simp [exit] at hpc'
  | mkdir | refused | enqueue | checkFails | grant | wake | leave => simp at hpc'

/-- **A call gets past a failed check only by failing it.** -/
theorem pastFailed_of_step (h : step s a = some s') (hp : PastFailedCheck s' i l) :
    PastFailedCheck s i l ∨
      checkLockAcquired s.store (lockPath l.name) l.path = .ok false ∧ s'.store = s.store := by
  obtain ⟨c', hc', hpc'⟩ := hp
  cases callStep_of_step h hc' with
  | stay c hc _ pc => exact .inl ⟨c, hc, pc ▸ hpc'⟩
  | advance c hc _ after => exact pastFailed_of_advance hc after ⟨c', hc', hpc'⟩
  | start _ pc | giveUp _ _ _ _ pc =>
    rw [pc] at hpc'
    simp at hpc'

/-! ## 3. Being first -/

/-- The path of the child `c` of the lock's directory. -/
def childPath (l : Lock) (c : Str) : Str := lockPath l.name ++ '/' :: c

theorem childPath_eq (l : Lock) (c : Str) : childPath l c = render (lockDir l.name ++ [c]) := by
  rw [childPath, lockPath_eq_render, render_concat (lockDir_ne_nil _)]

/-- A call whose node is first passes its check. -/
theorem FirstChild.check (hq : InQueue l (lockDir l.name)) (hf : FirstChild st l) :
    checkLockAcquired st (lockPath l.name) l.path = .ok true := by
  obtain ⟨rest, hch⟩ := hf
  have hname : Text.trimPrefix l.path (lockPath l.name ++ ['/']) = baseName l.path := by
    rw [hq.path, baseName_concat (isElem_queueName _), render_concat (lockDir_ne_nil _),
      ← lockPath_eq_render]
    have hcut : lockPath l.name ++ '/' :: queueName (ticket l) =
        (lockPath l.name ++ ['/']) ++ queueName (ticket l) := by
      rw [List.append_assoc]
      rfl
    rw [hcut, Text.trimPrefix_append]
  have hsort : (baseName l.path :: rest).insertionSort (· ≤ ·) = baseName l.path :: rest := by
    unfold getChildren at hch
    split at hch
    · simp at hch
    · rw [← Except.ok.inj hch]
      exact (List.pairwise_insertionSort (· ≤ ·) _).insertionSort_eq
  simp [checkLockAcquired, hch, hname, hsort]

theorem firstChild_iff (hq : InQueue l (lockDir l.name)) :
    FirstChild st l ↔ ∃ par, st.nodes.find (render (lockDir l.name)) = some par ∧
      baseName l.path ∈ par.children ∧ ∀ c ∈ par.children, baseName l.path ≤ c := by
  have hdir : normalizePath (lockPath l.name) = render (lockDir l.name) := hq.dir
  unfold FirstChild getChildren
  rw [hdir]
  constructor
  · rintro ⟨rest, hch⟩
    split at hch
    · simp at hch
    · rename_i par hpar
      refine ⟨par, hpar, head?_insertionSort ?_⟩
      rw [Except.ok.inj hch]
      rfl
  · rintro ⟨par, hpar, hmem, hmin⟩
    obtain ⟨rest, hrest⟩ := insertionSort_eq_cons hmem hmin
    exact ⟨rest, by rw [hpar, ← hrest]⟩

/-- The check succeeds exactly for the first child. -/
theorem check_eq_true_iff (h : Tree st) (hq : InQueue l (lockDir l.name)) :
    checkLockAcquired st (lockPath l.name) l.path = .ok true ↔ FirstChild st l := by
  refine ⟨fun hck => (firstChild_iff hq).mpr ?_, fun hf => hf.check hq⟩
  have hbase : baseName l.path = queueName (ticket l) := by
    rw [hq.path]
    exact baseName_concat (isElem_queueName _)
  rw [hbase]
  exact (check_ok h hq.elems (isElem_queueName _) hq.dir hq.path hck).2.2

/-! ## 4. The condition, and what it guarantees -/

/-- The paths a step removes from the store. -/
def removed (s : Sys) (a : Action) : List Str :=
  match s.op? a with
  | some op => deletedPaths s.store op
  | none => []

/-- The path at which an operation makes a node. -/
def createdPath (st : Store) : StoreOp → Option Str
  | .create p d eph sid sq => (st.create p d eph sid sq).2.toOption
  | _ => none

/-- The path that a step adds to the store. -/
def added (s : Sys) (a : Action) : Option Str := (s.op? a).bind (createdPath s.store)

/-- The step takes away everything ahead of the call's node, and leaves that node. -/
def Promotes (s : Sys) (a : Action) (l : Lock) : Prop :=
  l.path ∉ removed s a ∧ ∃ par ∈ s.store.nodes.find (directory l),
    (∃ c ∈ par.children, c < baseName l.path) ∧
    ∀ c ∈ par.children, c < baseName l.path → childPath l c ∈ removed s a

/-- The step makes a node at the path of the call, which has lost its own. -/
def Recreates (s : Sys) (a : Action) (l : Lock) : Prop := added s a = some l.path

instance (s : Sys) (a : Action) (l : Lock) : Decidable (Promotes s a l) :=
  inferInstanceAs (Decidable (_ ∧ _))

instance (s : Sys) (a : Action) (l : Lock) : Decidable (Recreates s a l) :=
  inferInstanceAs (Decidable (_ = _))

/-- No call that has failed its check is moved to the front by the step. -/
def NoPromotion (s : Sys) (a : Action) : Prop :=
  ∀ i ∈ s.calls.keys, ∀ l ∈ s.pastFailed i, ¬ Promotes s a l ∧ ¬ Recreates s a l

instance (s : Sys) (a : Action) : Decidable (NoPromotion s a) :=
  inferInstanceAs (Decidable (∀ i ∈ s.calls.keys, ∀ l ∈ s.pastFailed i, _))

theorem NoPromotion.apart (hok : NoPromotion s a) (hp : PastFailedCheck s i l) :
    ¬ Promotes s a l ∧ ¬ Recreates s a l := by
  obtain ⟨c, hc, -⟩ := id hp
  exact hok i (Finmap.mem_keys.mpr (GoMap.mem_of_find hc)) l (pastFailed_eq_some.mpr hp)

/-- The paths for which callbacks start are the nodes that the operation deletes. -/
theorem mem_deletedPaths {op : StoreOp} (hs : Store.step st op = some st') {q : Str} :
    q ∈ deletedPaths st op ↔ Deletes st q op := by
  cases op with
  | create p d eph sid sq => simp [deletedPaths, Deletes]
  | set p d v => simp [deletedPaths, Deletes]
  | delete p v =>
    simp only [deletedPaths, Deletes]
    split
    · rename_i st₁ hd
      rw [List.mem_singleton, eq_comm]
      exact ⟨fun hq => ⟨hq, st₁, hd⟩, fun hq => hq.1⟩
    · rename_i e he
      simp [he]
  | deleteEphemerals sid order =>
    simp only [Store.step, Option.ite_none_right_eq_some] at hs
    exact hs.1.mem_iff

/-- A path is new to the store only if the operation has made a node there. -/
theorem mem_or_created (h : Tree st) {op : StoreOp} (hs : Store.step st op = some st') {q : Str}
    (hmem : q ∈ st'.nodes) : q ∈ st.nodes ∨ createdPath st op = some q := by
  obtain ⟨n', hn'⟩ := GoMap.mem_iff_find.mp hmem
  rcases h.step_origin hs hn' with ⟨n, hn, -⟩ | ⟨p, d, eph, sid, sq, rfl, hok, -⟩
  · exact .inl (GoMap.mem_of_find hn)
  · refine .inr ?_
    rw [createdPath, hok]
    rfl

theorem PastFailedCheck.lockOf (hp : PastFailedCheck s i l) : s.lockOf i = some l := by
  obtain ⟨c, hc, hpc | hpc⟩ := hp
  · rw [lockOf_of_find hc, hpc]
    rfl
  · rw [lockOf_of_find hc, hpc]
    rfl

structure Behind (s : Sys) : Prop where
  tree : Tree s.store
  shaped : Shaped s
  behind : ∀ {i l}, PastFailedCheck s i l → IsElem l.name → ¬ FirstChild s.store l

/-- An operation that neither removes everything ahead of a node nor puts it back does not bring
it to the front. -/
theorem not_firstChild_of_op (h : Tree st) (hq : InQueue l (lockDir l.name)) {op : StoreOp}
    (hs : Store.step st op = some st') (hnf : ¬ FirstChild st l)
    (hback : createdPath st op ≠ some l.path)
    (hpro : ¬ (l.path ∉ deletedPaths st op ∧ ∃ par ∈ st.nodes.find (directory l),
      (∃ c ∈ par.children, c < baseName l.path) ∧
      ∀ c ∈ par.children, c < baseName l.path → childPath l c ∈ deletedPaths st op)) :
    ¬ FirstChild st' l := by
  intro hf
  obtain ⟨par', hpar', hmem', hmin'⟩ := (firstChild_iff hq).mp hf
  have hbase : baseName l.path = queueName (ticket l) := by
    rw [hq.path]
    exact baseName_concat (isElem_queueName _)
  -- the node is there after the step, so it was there before it
  obtain ⟨-, n', hn'⟩ := (h.step hs).sound hq.elems hpar' hmem'
  rw [hbase, ← hq.path] at hn'
  have hbefore := (mem_or_created h hs (GoMap.mem_of_find hn')).resolve_right hback
  obtain ⟨n, hn⟩ := GoMap.mem_iff_find.mp hbefore
  have hn₁ := hn
  rw [hq.path] at hn₁
  obtain ⟨par, hpar, -⟩ := h.parent hq.elems (isElem_queueName _) hn₁
  have hlisted : baseName l.path ∈ par.children := by
    rw [hbase]
    exact h.listed hq.elems (isElem_queueName _) (lockDir_ne_nil _) hn₁ hpar
  -- it was not first, so somebody was ahead of it
  have hahead : ∃ c ∈ par.children, c < baseName l.path := by
    by_contra hnone
    push Not at hnone
    exact hnf ((firstChild_iff hq).mpr ⟨par, hpar, hlisted, hnone⟩)
  refine hpro ⟨?_, par, by rw [hq.dir, hpar]; rfl, hahead, ?_⟩
  · intro hdel
    rw [gone_of_deletes hs ((mem_deletedPaths hs).mp hdel)] at hn'
    exact absurd hn' (by simp)
  · -- whoever was ahead and is not removed would still be ahead
    intro c hc hlt
    by_contra hkeep
    obtain ⟨hce, m, hm⟩ := h.sound hq.elems hpar hc
    rw [childPath_eq] at hkeep
    obtain ⟨m', hm', -⟩ := h.step_same hm (fun hd => hkeep ((mem_deletedPaths hs).mpr hd)) hs
    have hc' := (h.step hs).listed hq.elems hce (lockDir_ne_nil _) hm' hpar'
    exact absurd (hmin' c hc') (not_le.mpr hlt)

theorem Behind.step (h : Behind s) (hok : NoPromotion s a) (hs : step s a = some s') :
    Behind s' := by
  have hshaped := h.shaped.step hs
  have hstore := store_of_step hs
  have htree : Tree s'.store := tree_of_leaves h.tree hstore
  refine ⟨htree, hshaped, ?_⟩
  intro i l hp hn
  obtain ⟨ds, hq⟩ := hshaped i l hp.lockOf
  obtain rfl := inQueue_lockDir hq hn
  rcases pastFailed_of_step hs hp with hold | ⟨hck, hst⟩
  · obtain ⟨hpro, hrec⟩ := hok.apart hold
    cases hop : s.op? a with
    | none =>
      rw [hop] at hstore
      rw [show s'.store = s.store from hstore]
      exact h.behind hold hn
    | some op =>
      rw [hop] at hstore
      refine not_firstChild_of_op h.tree hq hstore (h.behind hold hn) ?_ ?_
      · simpa only [Recreates, added, hop, Option.bind_some] using hrec
      · simpa only [Promotes, removed, hop] using hpro
  · -- it has just failed its check, on the store as it is
    rw [hst]
    intro hf
    rw [hf.check hq] at hck
    exact absurd hck (by simp)

/-- **No lost wake-up as long as nobody is promoted.**  In the system wired as in main, from any
store, in every run in which no step takes away everything ahead of a call that has already failed
its check, no such call is ever blocked while its node is first. -/
theorem no_lost_wakeup (hst : Lts.Reach Store.step newStore st)
    (hrun : Lts.Run step NoPromotion (manager st .watchManager) s) : ¬ LostWakeUp s := by
  have hfresh := fresh_manager st .watchManager
  have h₀ : Behind (manager st .watchManager) := by
    refine ⟨tree_of_reach hst, ?_, ?_⟩
    · intro i l hl
      rw [hfresh.lockOf] at hl
      exact absurd hl (by simp)
    · intro i l hp
      have hl := hp.lockOf
      rw [hfresh.lockOf] at hl
      exact absurd hl (by simp)
  have h : Behind s := hrun.invariant h₀ fun s a t hb hok hs => hb.step hok hs
  rintro ⟨-, i, l, hn, ⟨c, hc, hpc, -⟩, hf⟩
  exact h.behind ⟨c, hc, Or.inr hpc⟩ hn hf

/-- Alice holds `x` and Bob waits for as long as she does. -/
theorem no_lost_wakeup_contention :
    ∃ s, Lts.Run step NoPromotion (manager locksStore .watchManager) s ∧
      PastFailedCheck s 1 bobLock ∧ ¬ LostWakeUp s := by
  obtain ⟨s, hrun, hfacts⟩ : ∃ s, Lts.Run step NoPromotion (manager locksStore .watchManager) s ∧
      s.pastFailed 1 = some bobLock :=
    Lts.exists_run contention (by decide +kernel)
  exact ⟨s, hrun, pastFailed_eq_some.mp hfacts, no_lost_wakeup reach_locksStore hrun⟩

end SkyLock.Lock
