/-
# What a failed acquisition leaves behind

Nothing: no node in the queue and no channel among the waiters, in any interleaving.  Neither needs
an assumption on lock names or on what other clients do with the store.

A queue node is identified by who made it, not by its path: the counter of the store is a `uint64`,
so a path can come back.  The system therefore carries a RECORD of the call whose queue node was
the last to be created at each path (`noteMade`), and a call's own node STANDS at a path if the
record names the call and the store has a node there.  A call ends with an error only after its
`Delete`.  Of the ways in which that could be refused only one matters, a node with children, and a
node that the call itself made is ephemeral and has none.

`waiters[name]` is exactly the list of the calls between the two critical sections of `waitForLock`
that append to it and remove from it.
-/
import SkyLock.Store.Closure
import SkyLock.Lock.Exclusion

namespace SkyLock.Lock

open Store Sys Slash

variable {s s' : Sys} {a : Action} {st : Store} {i : Nat} {c : Call} {l : Lock}

/-! ## 1. The waiters -/

/-- Inside `waitForLock`: registered, with the deferred function still to run. -/
def Phase.inWait : Phase → Bool
  | waiting | recheck | record true | abort _ true | leave _ => true
  | _ => false

/-- The name for which a call is inside `waitForLock`. -/
def Pc.waitsFor : Pc → Option Str
  | queued l ph => if ph.inWait then some l.name else none
  | _ => none

def Sys.waitsFor (s : Sys) (i : Nat) : Option Str := (s.calls.find i).bind fun c => c.pc.waitsFor

theorem waitsFor_setCall (s : Sys) (id : Nat) (c : Call) (i : Nat) :
    (s.setCall id c).waitsFor i = if i = id then c.pc.waitsFor else s.waitsFor i := by
  simp only [Sys.waitsFor, setCall, GoMap.find_insert]
  split <;> rfl

theorem waitsFor_of_find (hc : s.calls.find i = some c) : s.waitsFor i = c.pc.waitsFor := by
  simp [Sys.waitsFor, hc]

/-- A call is replaced by one that waits for the same, or does not wait either. -/
theorem waitsFor_setCall_same {id : Nat} {c c' : Call} {t : Sys} (hc : s.calls.find id = some c)
    (ht : t.calls = s.calls) (hsame : c'.pc.waitsFor = c.pc.waitsFor) (i : Nat) :
    (t.setCall id c').waitsFor i = s.waitsFor i := by
  rw [waitsFor_setCall]
  split
  · rename_i hi
    rw [hi, waitsFor_of_find hc, hsame]
  · rw [Sys.waitsFor, ht]
    rfl

/-- **What a step does to the waiters**: nothing, one call enters, or one leaves. -/
inductive Waits (s s' : Sys) : Prop
  | keep (waiters : s'.waiters = s.waiters) (waitsFor : ∀ i, s'.waitsFor i = s.waitsFor i)
  | enter (id : Nat) (name : Str) (outside : s.waitsFor id = none)
    (waiters : s'.waiters = s.waiters.insert name (s.waitersOf name ++ [id]))
    (waitsFor : ∀ i, s'.waitsFor i = if i = id then some name else s.waitsFor i)
  | leave (id : Nat) (name : Str) (inside : s.waitsFor id = some name)
    (waiters : s'.waiters = s.waiters.insert name ((s.waitersOf name).erase id))
    (waitsFor : ∀ i, s'.waitsFor i = if i = id then none else s.waitsFor i)

theorem inWait_exit (w : Bool) (err : Option LockErr) : (exit w err).inWait = w := by
  cases w <;> rfl

theorem CriticalSection.waits {id : Nat} {t : Sys} {pc : Pc} {signal : Bool}
    (hc : s.calls.find id = some c) (h : CriticalSection s id c t pc) :
    Waits s (t.setCall id { c with pc, signal }) := by
  have keep : ∀ {t : Sys} {pc : Pc}, t.waiters = s.waiters → t.calls = s.calls →
      pc.waitsFor = c.pc.waitsFor → Waits s (t.setCall id { c with pc, signal }) :=
    fun hw ht hsame => .keep hw (waitsFor_setCall_same hc ht hsame)
  cases h with
  | look hpc =>
    refine keep rfl rfl ?_
    rw [hpc]
    split <;> rfl
  | mkdir _ hpc | refused _ _ hpc | enqueue _ _ hpc | wake _ hpc =>
    exact keep rfl rfl (by rw [hpc]; rfl)
  | checkFails l ph w e hpc hph | grant l ph w hpc hph =>
    refine keep rfl rfl ?_
    rcases hph with ⟨rfl, rfl⟩ | ⟨rfl, rfl⟩
    · rw [hpc]
      rfl
    · rw [hpc]
      rfl
  | behind l ph next hpc hph =>
    refine keep rfl rfl ?_
    rcases hph with ⟨rfl, rfl⟩ | ⟨rfl, rfl⟩
    · rw [hpc]
      split <;> rfl
    · rw [hpc]
      rfl
  | record l w hpc | delete l err w _ hpc =>
    refine keep rfl rfl ?_
    rw [hpc, Pc.waitsFor, Pc.waitsFor, inWait_exit]
    cases w <;> rfl
  | register l hpc =>
    refine .enter id l.name ?_ rfl fun i => waitsFor_setCall _ id _ i
    rw [waitsFor_of_find hc, hpc]
    rfl
  | leave l err hpc =>
    refine .leave id l.name ?_ rfl fun i => waitsFor_setCall _ id _ i
    rw [waitsFor_of_find hc, hpc]
    rfl

theorem waits_of_step (h : step s a = some s') : Waits s s' := by
  cases event_of_step h with
  | tryLock id name owner sessionID timeout new =>
    refine .keep rfl fun i => ?_
    rw [waitsFor_setCall]
    split
    · rename_i hi
      rw [hi, Sys.waitsFor, GoMap.find_eq_none.mpr new]
      rfl
    · rfl
  | advance id c hc after =>
    obtain ⟨t, pc, signal, hsec, rfl⟩ := advance_cases after
    exact hsec.waits hc
  | timer id c l hc hpc =>
    exact .keep rfl (waitsFor_setCall_same hc rfl (by rw [hpc]; rfl))
  | notify path _ w c hc => exact .keep rfl (waitsFor_setCall_same hc rfl rfl)
  | unlockNothing | unlock | unlockDelete | node | callback => exact .keep rfl fun _ => rfl

/-- `waiters[name]` holds the channel of each call inside `waitForLock` for `name` once, and no
other. -/
structure Registered (s : Sys) : Prop where
  once : ∀ name, (s.waitersOf name).Nodup
  exact : ∀ name i, i ∈ s.waitersOf name ↔ s.waitsFor i = some name

theorem waitersOf_insert {name : Str} {ws : List Nat}
    (h : s'.waiters = s.waiters.insert name ws) (name' : Str) :
    s'.waitersOf name' = if name' = name then ws else s.waitersOf name' := by
  rw [Sys.waitersOf, h, GoMap.find_insert]
  split <;> rfl

theorem Registered.step (h : Registered s) (hs : step s a = some s') : Registered s' := by
  cases waits_of_step hs with
  | keep hw hwf =>
    have hsame : ∀ name, s'.waitersOf name = s.waitersOf name := fun name => by
      rw [Sys.waitersOf, hw]
      rfl
    refine ⟨fun name => hsame name ▸ h.once name, fun name i => ?_⟩
    rw [hsame, hwf]
    exact h.exact name i
  | enter id name hout hw hwf =>
    have hnew : ∀ name', id ∉ s.waitersOf name' := by
      intro name' hmem
      rw [h.exact, hout] at hmem
      exact absurd hmem nofun
    constructor
    · intro name'
      rw [waitersOf_insert hw]
      split
      · rw [← List.concat_eq_append]
        exact (h.once name).concat (hnew name)
      · exact h.once name'
    · intro name' i
      rw [waitersOf_insert hw, hwf]
      by_cases hi : i = id
      · subst hi
        by_cases hn : name' = name
        · simp [hn]
        · simp [hn, hnew name', Ne.symm hn]
      · by_cases hn : name' = name
        · simp [hn, hi, h.exact]
        · simp [hn, hi, h.exact]
  | leave id name hin hw hwf =>
    constructor
    · intro name'
      rw [waitersOf_insert hw]
      split
      · exact (h.once name).erase id
      · exact h.once name'
    · intro name' i
      rw [waitersOf_insert hw, hwf]
      by_cases hi : i = id
      · subst hi
        by_cases hn : name' = name
        · simp [hn, (h.once name).not_mem_erase]
        · simp [hn, h.exact, hin, Ne.symm hn]
      · by_cases hn : name' = name
        · simp [hn, hi, h.exact, List.mem_erase_of_ne hi]
        · simp [hn, hi, h.exact]

/-! ## 2. Whose node stands at a path -/

/-- The call that creates its queue node by the action. -/
def Sys.enqueuing (s : Sys) : Action → Option Nat
  | .advance i => if (s.calls.find i).any fun c => c.pc = .enqueue then some i else none
  | _ => none

/-- Who made the node at a path, if it is a queue node: a successful `Create` by a `TryLock` is
noted under the path, any other one strikes the path out. -/
def noteMade (s : Sys) (a : Action) (made : GoMap Str Nat) : GoMap Str Nat :=
  match s.op? a with
  | some (.create p d eph sid sq) =>
    match (s.store.create p d eph sid sq).2 with
    | .ok path =>
      match s.enqueuing a with
      | some i => made.insert path i
      | none => made.erase path
    | .error _ => made
  | _ => made

/-- The queue node that the call `i` has created stands at `p`. -/
def Stands (x : Sys × GoMap Str Nat) (i : Nat) (p : Str) : Prop :=
  x.2.find p = some i ∧ p ∈ x.1.store.nodes

theorem enqueuing_eq_some (h : s.enqueuing a = some i) :
    ∃ c, a = .advance i ∧ s.calls.find i = some c ∧ c.pc = .enqueue := by
  unfold Sys.enqueuing at h
  split at h
  · rename_i j
    simp only [Option.ite_none_right_eq_some, Option.any_eq_true, Option.some.injEq] at h
    obtain ⟨⟨c, hc, hpc⟩, rfl⟩ := h
    exact ⟨c, rfl, hc, of_decide_eq_true hpc⟩
  · cases h

/-- The step is the `Create` by which the call `i` gets its queue node, at `p`. -/
def Enqueues (s : Sys) (a : Action) (i : Nat) (p : Str) : Prop :=
  ∃ c, a = .advance i ∧ s.calls.find i = some c ∧ c.pc = .enqueue ∧
    (c.createQueueNode s.store).2 = .ok p

/-- Nothing is noted under a path that is taken. -/
theorem find_noteMade {made : GoMap Str Nat} {p : Str} (hmem : p ∈ s.store.nodes) :
    (noteMade s a made).find p = made.find p := by
  unfold noteMade
  split
  · split
    · rename_i path hok
      have hne : p ≠ path := by
        rintro rfl
        exact create_ok_fresh hok hmem
      split
      · rw [GoMap.find_insert, if_neg hne]
      · rw [GoMap.find_erase, if_neg hne]
    · rfl
  · rfl

/-- **A call's own node stood there before, unless this step has made it.** -/
theorem stands_of_step (h : Tree s.store) (hs : step s a = some s') {made : GoMap Str Nat}
    {p : Str} (hp : Stands (s', noteMade s a made) i p) :
    (Stands (s, made) i p ∧ ∀ n', s'.store.nodes.find p = some n' →
      ∃ n, s.store.nodes.find p = some n ∧ n.Same n') ∨ Enqueues s a i p := by
  obtain ⟨hmade, hmem⟩ := hp
  dsimp only at hmade hmem
  have hstore := store_of_step hs
  cases hop : s.op? a with
  | none =>
    rw [hop] at hstore
    have hst : s'.store = s.store := hstore
    rw [hst] at hmem ⊢
    rw [find_noteMade hmem] at hmade
    exact .inl ⟨⟨hmade, hmem⟩, fun n' hn' => ⟨n', hn', .refl n'⟩⟩
  | some op =>
    rw [hop] at hstore
    obtain ⟨n', hn'⟩ := GoMap.mem_iff_find.mp hmem
    rcases h.step_origin hstore hn' with ⟨n, hn, hsame, -⟩ | ⟨q, d, eph, sid, sq, rfl, hok, -⟩
    · -- the node is an old one
      have hold := GoMap.mem_of_find hn
      rw [find_noteMade hold] at hmade
      refine .inl ⟨⟨hmade, hold⟩, fun n₁ hn₁ => ?_⟩
      obtain rfl := Option.some.inj (hn'.symm.trans hn₁)
      exact ⟨n, hn, hsame⟩
    · -- the node is new
      right
      simp only [noteMade, hop, hok] at hmade
      split at hmade
      · rename_i j hj
        rw [GoMap.find_insert, if_pos rfl] at hmade
        obtain rfl := Option.some.inj hmade
        obtain ⟨c, rfl, hc, hpc⟩ := enqueuing_eq_some hj
        refine ⟨c, rfl, hc, hpc, ?_⟩
        simp only [Sys.op?, hc, Option.bind_some, Call.op?, hpc, Option.some.injEq,
          StoreOp.create.injEq] at hop
        obtain ⟨rfl, rfl, rfl, rfl, rfl⟩ := hop
        exact hok
      · rw [GoMap.find_erase, if_pos rfl] at hmade
        cases hmade

/-- The step by which a call gets its queue node. -/
theorem step_enqueue {p : Str} (hc : s.calls.find i = some c) (hpc : c.pc = .enqueue)
    (hok : (c.createQueueNode s.store).2 = .ok p) (hs : step s (.advance i) = some s') :
    s'.store = (c.createQueueNode s.store).1 ∧ s'.lockOf i = some (c.lockAt p) := by
  have hcreate : (s.store.create (queuePath c.name) c.owner true c.sessionID true).2 = .ok p := hok
  simp only [step, hc, Sys.advance, hpc, Option.map_eq_some_iff, runOp_eq_some, hcreate] at hs
  obtain ⟨_, ⟨st, hst, rfl⟩, rfl⟩ := hs
  obtain rfl := Option.some.inj hst
  exact ⟨rfl, (lockOf_setCall _ i _ i).trans (if_pos rfl)⟩

/-- What the creation of a queue node leaves. -/
theorem Enqueues.after {p : Str} (he : Enqueues s a i p) (h : Tree s.store)
    (hs : step s a = some s') :
    (∃ l, s'.lockOf i = some l ∧ l.path = p) ∧
      ∀ n, s'.store.nodes.find p = some n → n.ephemeral = true := by
  obtain ⟨c, rfl, hc, hpc, hok⟩ := he
  obtain ⟨hstore, hl⟩ := step_enqueue hc hpc hok hs
  refine ⟨⟨c.lockAt p, hl, rfl⟩, fun n hn => ?_⟩
  rw [hstore] at hn
  obtain rfl := Option.some.inj ((find_created h hok).symm.trans hn)
  rfl

/-! ## 3. The ways out -/

/-- A call that is on its way out with an error, past its `Delete`. -/
def Pc.gaveUp : Pc → Option Lock
  | queued l (.leave (some _)) | queued l (.done (some _)) => some l
  | _ => none

theorem gaveUp_exit (l : Lock) (w : Bool) (err : LockErr) :
    (Pc.queued l (exit w (some err))).gaveUp = some l := by
  cases w <;> rfl

/-- A call is past its `Delete` because it was before, or because it has just made it. -/
theorem CriticalSection.gaveUp {t : Sys} {pc : Pc} (h : CriticalSection s i c t pc)
    (hg : pc.gaveUp = some l) :
    c.pc.gaveUp = some l ∨ ∃ err w st, c.pc = .queued l (.abort err w) ∧
      Store.step s.store (.delete l.path (-1)) = some st ∧ t.store = st := by
  cases h with
  | delete l' err w st hpc hst =>
    rw [gaveUp_exit] at hg
    obtain rfl := Option.some.inj hg
    exact .inr ⟨err, w, st, hpc, hst, rfl⟩
  | leave l' err hpc =>
    cases err with
    | none => exact absurd hg nofun
    | some err =>
      left
      rw [hpc]
      exact hg
  | look => split at hg <;> exact absurd hg nofun
  | behind l' ph next hpc hph =>
    rcases hph with ⟨-, rfl⟩ | ⟨-, rfl⟩
    · split at hg <;> exact absurd hg nofun
    · exact absurd hg nofun
  | record l' w => cases w <;> exact absurd hg nofun
  | mkdir | refused | enqueue | checkFails | grant | register | wake => exact absurd hg nofun

structure Clean (x : Sys × GoMap Str Nat) : Prop where
  tree : Tree x.1.store
  shaped : Shaped x.1
  registered : Registered x.1
  own : ∀ {i p}, Stands x i p → (∃ l, x.1.lockOf i = some l ∧ l.path = p) ∧
    ∀ n, x.1.store.nodes.find p = some n → n.ephemeral = true
  gone : ∀ {i c l}, x.1.calls.find i = some c → c.pc.gaveUp = some l → ¬ Stands x i l.path

/-- **The `Delete` of a call that gives up is not refused**: its own node, if it still stands, is a
leaf. -/
theorem Clean.deleted {made : GoMap Str Nat} (h : Clean (s, made)) (hl : s.lockOf i = some l)
    (hst : Store.step s.store (.delete l.path (-1)) = some st) (hown : Stands (s, made) i l.path) :
    l.path ∉ st.nodes := by
  obtain ⟨ds, hq⟩ := h.shaped i l hl
  obtain ⟨n, hn⟩ := GoMap.mem_iff_find.mp hown.2
  have heph := (h.own hown).2 n hn
  have helems := hq.elems.concat (isElem_queueName (ticket l))
  rw [hq.path] at hn hst ⊢
  have hleaf := h.tree.children_of_ephemeral helems hn heph
  have hdel := delete_leaf h.tree hq.elems (isElem_queueName _) hn hleaf
  have hgone := gone_of_deletes hst ⟨normalizePath_render helems, _, hdel⟩
  exact GoMap.find_eq_none.mp hgone

theorem Clean.step {x y : Sys × GoMap Str Nat} (h : Clean x)
    (hs : Lts.recorded step noteMade x a = some y) : Clean y := by
  obtain ⟨s, made⟩ := x
  simp only [Lts.recorded, Option.map_eq_some_iff] at hs
  obtain ⟨s', hs, rfl⟩ := hs
  have htree : Tree s'.store := tree_of_leaves h.tree (store_of_step hs)
  -- whoever has given up gets no new node
  have hkeep : ∀ {i c l}, s.calls.find i = some c → c.pc.gaveUp = some l →
      ¬ Stands (s', noteMade s a made) i l.path := by
    intro i c l hc hgave hp
    rcases stands_of_step h.tree hs hp with ⟨hold, -⟩ | ⟨c', -, hc', hpc', -⟩
    · exact h.gone hc hgave hold
    · obtain rfl := Option.some.inj (hc.symm.trans hc')
      rw [hpc'] at hgave
      cases hgave
  refine ⟨htree, h.shaped.step hs, h.registered.step hs, ?_, ?_⟩
  · intro i p hp
    rcases stands_of_step h.tree hs hp with ⟨hold, hsame⟩ | henq
    · obtain ⟨⟨l, hl, hpath⟩, heph⟩ := h.own hold
      refine ⟨⟨l, lockOf_of_step hs hl, hpath⟩, fun n' hn' => ?_⟩
      obtain ⟨n, hn, hs⟩ := hsame n' hn'
      rw [hs.ephemeral]
      exact heph n hn
    · exact henq.after h.tree hs
  · intro i c' l hc' hgave
    cases callStep_of_step hs hc' with
    | start _ hpc | giveUp _ _ _ _ hpc =>
      rw [hpc] at hgave
      cases hgave
    | stay c hc _ hpc =>
      rw [hpc] at hgave
      exact hkeep hc hgave
    | advance c hc _ after =>
      obtain ⟨t, pc, signal, hsec, rfl⟩ := advance_cases after
      simp only [setCall, GoMap.find_insert, if_true, Option.some.injEq] at hc'
      rw [← hc'] at hgave
      rcases hsec.gaveUp hgave with hgave | ⟨err, w, st, hpc, hst, rfl⟩
      · exact hkeep hc hgave
      · intro hp
        rcases stands_of_step h.tree hs hp with ⟨hold, -⟩ | ⟨c₁, -, hc₁, hpc₁, -⟩
        · have hl : s.lockOf i = some l := by
            rw [lockOf_of_find hc, hpc]
            rfl
          exact h.deleted hl hst hold hp.2
        · obtain rfl := Option.some.inj (hc.symm.trans hc₁)
          cases hpc.symm.trans hpc₁

theorem clean_manager {handler : DeleteHandler} (hst : Lts.Reach Store.step newStore st) :
    Clean (manager st handler, ∅) := by
  have hfresh := fresh_manager st handler
  have hfind : ∀ i, (manager st handler).calls.find i = none := fun i => by
    rw [hfresh.calls, GoMap.find_empty]
  refine ⟨tree_of_reach hst, ?_, ⟨fun name => ?_, fun name i => ?_⟩, ?_, ?_⟩
  · intro i l hl
    rw [hfresh.lockOf] at hl
    exact absurd hl nofun
  · exact List.nodup_nil
  · rw [Sys.waitsFor, hfind]
    exact iff_of_false List.not_mem_nil nofun
  · intro i p hp
    exact absurd hp.1 (by rw [GoMap.find_empty]; exact nofun)
  · intro i c l hc
    rw [hfind] at hc
    exact absurd hc nofun

/-- The error that `TryLock` has returned to the caller. -/
def Pc.returned : Pc → Option LockErr
  | failed err | queued _ (.done (some err)) => some err
  | _ => none

/-- **A failed acquisition leaves nothing behind.**  In every interleaving, over every store: when a
call has returned an error, the queue node it created is not in the store and its channel is under
no name among the waiters; and `waiters[name]` always holds the channel of each call inside
`waitForLock` for `name` once, and no other. -/
theorem failed_acquisition_clean {handler : DeleteHandler} {x : Sys × GoMap Str Nat}
    (hst : Lts.Reach Store.step newStore st)
    (hrun : Lts.Reach (Lts.recorded step noteMade) (manager st handler, ∅) x) :
    (∀ i c err, x.1.calls.find i = some c → c.pc.returned = some err →
      (∀ p, ¬ Stands x i p) ∧ ∀ name, i ∉ x.1.waitersOf name) ∧
    ∀ name, (x.1.waitersOf name).Nodup ∧
      ∀ i, i ∈ x.1.waitersOf name ↔ x.1.waitsFor i = some name := by
  have h : Clean x := hrun.invariant (clean_manager hst) fun _ _ _ h _ hs => h.step hs
  refine ⟨fun i c err hc hret => ⟨fun p hp => ?_, fun name => ?_⟩, fun name =>
    ⟨h.registered.once name, h.registered.exact name⟩⟩
  · obtain ⟨⟨l, hl, rfl⟩, -⟩ := h.own hp
    rw [lockOf_of_find hc] at hl
    unfold Pc.returned at hret
    split at hret
    · rename_i hpc
      rw [hpc] at hl
      exact absurd hl nofun
    · rename_i l' _ hpc
      rw [hpc] at hl
      obtain rfl := Option.some.inj hl
      exact h.gone hc (by rw [hpc]; rfl) hp
    · exact absurd hret nofun
  · rw [h.registered.exact, waitsFor_of_find hc]
    unfold Pc.returned at hret
    split at hret
    · rename_i hpc
      rw [hpc]
      exact nofun
    · rename_i hpc
      rw [hpc]
      exact nofun
    · exact absurd hret nofun

/-- Bob queues behind Alice and gives up. -/
theorem failed_acquisition_clean_contention :
    ∃ x, Lts.Reach (Lts.recorded step noteMade) (manager locksStore .watchManager, ∅) x ∧
      (x.1.calls.find 1).bind (fun c => c.pc.returned) = some .timeout ∧
      Stands x 0 aliceLock.path ∧ (∀ p, ¬ Stands x 1 p) ∧ 1 ∉ x.1.waitersOf "x".toList := by
  obtain ⟨x, hrun, hret, hmade, hmem⟩ : ∃ x,
      Lts.Reach (Lts.recorded step noteMade) (manager locksStore .watchManager, ∅) x ∧
      (x.1.calls.find 1).bind (fun c => c.pc.returned) = some .timeout ∧
      x.2.find aliceLock.path = some 0 ∧ aliceLock.path ∈ x.1.store.nodes :=
    Lts.exists_reach (contention ++ [.timer 1, .advance 1, .advance 1]) (by decide +kernel)
  obtain ⟨c, hc, hpc⟩ := Option.bind_eq_some_iff.mp hret
  obtain ⟨hgone, hwaiters⟩ := (failed_acquisition_clean reach_locksStore hrun).1 1 c _ hc hpc
  exact ⟨x, hrun, hret, ⟨hmade, hmem⟩, hgone, hwaiters _⟩

end SkyLock.Lock
