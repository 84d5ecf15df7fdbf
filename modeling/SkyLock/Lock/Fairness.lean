/-
# FIFO order of the grants

`Sys.grants` lists the successful checks in the order in which they happened, each with the
`Sequence` that the store holds for the queue node found in first place.  Within one lock name
those numbers are strictly increasing.

The induction looks at the calls that are still in line.  `Fifo.ahead` says that every call of the
name that is not granted yet, and whose node is still there, has a larger number than any grant
made so far: at a grant all others in the directory are larger, later ones draw larger numbers,
and a node that has left does not come back.
-/
import SkyLock.Lock.Exclusion

namespace SkyLock.Lock

open Store Sys Slash

variable {s s' : Sys} {a : Action} {st : Store} {l : Lock}

/-! ## 1. The number in a `Lock` is the number of its node -/

/-- Reading decimal digits in `uint64` arithmetic gives their value as long as it fits. -/
theorem foldl_parse : ∀ (digits : Str) (acc : Nat), (∀ c ∈ digits, Text.IsDigit c) →
    acc * 10 ^ digits.length + Text.value digits < 2 ^ 64 →
    digits.foldl (fun seq c => (seq * 10 + (c.toNat + 2 ^ 64 - 48)) % 2 ^ 64) acc =
      acc * 10 ^ digits.length + Text.value digits
  | [], acc, _, _ => by simp
  | c :: digits, acc, hall, hlt => by
    obtain ⟨d, hd, hc⟩ := hall c List.mem_cons_self
    have hval : c.toNat = 48 + d := by rw [hc, Text.toNat_digitChar hd]
    have hdv : Text.digitValue c = d := by rw [Text.digitValue, hval]; omega
    have hten : 10 ^ (c :: digits).length = 10 ^ digits.length * 10 := pow_succ _ _
    rw [Text.value_cons, hdv, hten] at hlt ⊢
    have hpow : 0 < 10 ^ digits.length := Nat.pow_pos (by norm_num)
    have hsum : acc * (10 ^ digits.length * 10) + (d * 10 ^ digits.length + Text.value digits) =
        (acc * 10 + d) * 10 ^ digits.length + Text.value digits := by ring
    have hacc : acc * 10 + d < 2 ^ 64 := by
      have hle : acc * 10 + d ≤ (acc * 10 + d) * 10 ^ digits.length :=
        Nat.le_mul_of_pos_right _ hpow
      omega
    have hstep : (acc * 10 + (c.toNat + 2 ^ 64 - 48)) % 2 ^ 64 = acc * 10 + d := by
      rw [hval]
      omega
    rw [List.foldl_cons, hstep, hsum]
    rw [hsum] at hlt
    exact foldl_parse digits (acc * 10 + d) (fun x hx => hall x (List.mem_cons_of_mem _ hx)) hlt

/-- **`TryLock` reads back the number its queue node was created with.** -/
theorem parseSequence_eq {q : Nat} (hq : q < 2 ^ 64) (name : Str) :
    parseSequence (lockPath name ++ '/' :: queueName q) (lockPath name) = q := by
  have hpre : lockPath name ++ '/' :: queueName q = (lockPath name ++ ['/']) ++ queueName q := by
    rw [List.append_assoc]
    rfl
  have hdash : ∀ c ∈ formatSequence q, (c == '-') = false := by
    intro c hc
    obtain ⟨d, hd, rfl⟩ := formatSequence_digits q c hc
    interval_cases d <;> rfl
  have hsplit : (queueName q).splitOn '-' = ["lock".toList, formatSequence q] := by
    have hcut : queueName q = "lock".toList ++ '-' :: formatSequence q := rfl
    rw [hcut]
    refine (List.splitOnP_append_cons _ _ rfl).trans ?_
    rw [List.splitOnP_eq_singleton hdash]
    rfl
  rw [parseSequence, hpre, Text.trimPrefix_append, hsplit]
  have hfold := foldl_parse (formatSequence q) 0 (formatSequence_digits q)
    (by rw [value_formatSequence]; omega)
  rw [value_formatSequence, Nat.zero_mul, Nat.zero_add] at hfold
  exact hfold

/-- The number that a call reads out of the path of the node it has just created. -/
theorem parseSequence_created {c : Call} {path : Str} (hname : IsElem c.name)
    (hok : (c.createQueueNode st).2 = .ok path) :
    parseSequence path (lockPath c.name) = (st.bump true).seqCounter := by
  obtain ⟨ds, hq, hticket⟩ := createQueueNode_ok hok
  obtain rfl := inQueue_lockDir hq hname
  have hpath : path = lockPath c.name ++ '/' :: queueName (ticket (c.lockAt path)) := by
    rw [lockPath_eq_render, ← render_concat (lockDir_ne_nil _)]
    exact hq.path
  have hlt : ticket (c.lockAt path) < 2 ^ 64 := by
    rw [hticket]
    exact Nat.mod_lt _ (by norm_num)
  have hparse := parseSequence_eq hlt c.name
  rw [← hpath, hticket] at hparse
  exact hparse

/-! ## 2. The order of grants -/

structure Fifo (s : Sys) : Prop where
  sorted : s.grants.Pairwise fun g g' => g.lock.name = g'.lock.name → g.sequence < g'.sequence
  issued : ∀ g ∈ s.grants, g.sequence ≤ s.store.seqCounter
  ahead : ∀ g ∈ s.grants, ∀ {j l}, s.lockOf j = some l → s.granted j = false →
    l.name = g.lock.name → l.path ∈ s.store.nodes → g.sequence < ticket l
  parsed : ∀ g ∈ s.grants, g.lock.sequence = g.sequence

/-- The number of every call's lock is its ticket. -/
def Parsed (s : Sys) : Prop := ∀ {i l}, s.lockOf i = some l → l.sequence = ticket l

theorem Parsed.step (ht : Tidy s) (hp : Parsed s)
    (hs : step s a = some s') : Parsed s' := by
  intro i l hl
  rcases lock_of_step hs hl with hl | ⟨c, path, hc, hok, rfl⟩
  · exact hp hl
  · obtain ⟨-, -, hticket⟩ := createQueueNode_ok hok
    rw [hticket]
    exact parseSequence_created (ht.names hc) hok

/-- A path that some call queues at, and that is in the store after a quiet step, was there
before it. -/
theorem present_of_quiet (h : Queue s) (ht : Tidy s) (htame : Tame a)
    (hst : s'.store = s.store ∨ ∃ op, Issues s a op ∧ Store.step s.store op = some s'.store)
    {j : Nat} (hl : s.lockOf j = some l) (hmem : l.path ∈ s'.store.nodes) :
    l.path ∈ s.store.nodes := by
  rcases hst with hst | ⟨op, hi, hst⟩
  · rw [← hst]
    exact hmem
  · obtain ⟨n', hn'⟩ := GoMap.mem_iff_find.mp hmem
    obtain ⟨ds, hq⟩ := h.shape hl
    have hname := ht.clean hl
    obtain rfl := inQueue_lockDir hq hname
    rw [hq.path] at hn' ⊢
    obtain ⟨n, hn, -⟩ := quiet_below h.tree ht htame hi hst hname (isElem_queueName _) hn'
    exact GoMap.mem_of_find hn

theorem Fifo.quiet (h : Queue s) (ht : Tidy s) (hf : Fifo s) (htame : Tame a) (hv : SameView s s')
    (hst : s'.store = s.store ∨ ∃ op, Issues s a op ∧ Store.step s.store op = some s'.store) :
    Fifo s' := by
  have hmono : s.store.seqCounter ≤ s'.store.seqCounter := by
    rcases hst with hst | ⟨op, -, hst⟩
    · rw [hst]
    · exact seqCounter_mono h.bound hst
  refine ⟨?_, ?_, ?_, ?_⟩
  · rw [hv.grants]
    exact hf.sorted
  · intro g hg
    rw [hv.grants] at hg
    exact (hf.issued g hg).trans hmono
  · intro g hg j l hl hgr hname hmem
    rw [hv.grants] at hg
    rw [hv.lockOf] at hl
    rw [hv.granted] at hgr
    exact hf.ahead g hg hl hgr hname (present_of_quiet h ht htame hst hl hmem)
  · intro g hg
    rw [hv.grants] at hg
    exact hf.parsed g hg

theorem Fifo.enqueue (h : Queue s) (hf : Fifo s) {id : Nat} {c : Call} {path : Str}
    (hok : (c.createQueueNode s.store).2 = .ok path)
    (hst : s'.store = (c.createQueueNode s.store).1)
    (hlo : ∀ i, s'.lockOf i = if i = id then some (c.lockAt path) else s.lockOf i)
    (hgr : ∀ i, s'.granted i = s.granted i) (hgs : s'.grants = s.grants) : Fifo s' := by
  obtain ⟨ds, hq, hticket⟩ := createQueueNode_ok hok
  obtain ⟨hcount, hnew⟩ := h.seqCounter_of_ok hok
  rw [← hst] at hcount
  have hstep : Store.step s.store (.create (queuePath c.name) c.owner true c.sessionID true) =
      some s'.store := by rw [hst]; rfl
  refine ⟨?_, ?_, ?_, ?_⟩
  · rw [hgs]
    exact hf.sorted
  · intro g hg
    rw [hgs] at hg
    have := hf.issued g hg
    omega
  · intro g hg j l hl hng hname hmem
    rw [hgs] at hg
    rw [hgr] at hng
    rw [hlo] at hl
    by_cases hj : j = id
    · rw [if_pos hj] at hl
      obtain rfl := Option.some.inj hl
      have := hf.issued g hg
      omega
    · rw [if_neg hj] at hl
      refine hf.ahead g hg hl hng hname ?_
      -- the new node is not at an older call's path
      obtain ⟨n', hn'⟩ := GoMap.mem_iff_find.mp hmem
      rcases h.tree.step_origin hstep hn' with ⟨n, hn, -⟩ | hmade
      · exact GoMap.mem_of_find hn
      · obtain ⟨p, d, eph, sid, sq, hop, hok', -⟩ := hmade
        obtain ⟨rfl, rfl, rfl, rfl, rfl⟩ := StoreOp.create.inj hop
        have hpath : path = l.path := Except.ok.inj (hok.symm.trans hok')
        obtain ⟨ds', hq'⟩ := h.shape hl
        have heq : ticket (c.lockAt path) = ticket l := ticket_eq (hpath.trans hq'.path)
        have := h.issued hl
        omega
  · intro g hg
    rw [hgs] at hg
    exact hf.parsed g hg

theorem Fifo.grant (h : Queue s) (ht : Tidy s) (hp : Parsed s) (hf : Fifo s) {id : Nat}
    (hl : s.lockOf id = some l) (hng : s.granted id = false)
    (hck : checkLockAcquired s.store (lockPath l.name) l.path = .ok true)
    (hst : s'.store = s.store) (hlo : ∀ i, s'.lockOf i = s.lockOf i)
    (hgr : ∀ i, s'.granted i = if i = id then true else s.granted i)
    (hgs : s'.grants = (s.grant id l).grants) : Fifo s' := by
  -- the call's own node is what stands in first place
  obtain ⟨ds, hq⟩ := h.shape hl
  obtain ⟨-, -, par, hpar, hfirst, -⟩ :=
    check_ok h.tree hq.elems (isElem_queueName _) hq.dir hq.path hck
  obtain ⟨-, n, hn⟩ := h.tree.sound hq.elems hpar hfirst
  rw [← hq.path] at hn
  obtain ⟨-, hseq, -⟩ := ht.own h hl hn
  have hgrants : s'.grants = s.grants ++ [⟨id, l, ticket l⟩] := by
    rw [hgs, Sys.grant, hn]
    simp only [Option.map_some, Option.getD_some, hseq]
  have hcases : ∀ g ∈ s'.grants, g ∈ s.grants ∨ g = ⟨id, l, ticket l⟩ := by
    intro g hg
    rw [hgrants] at hg
    rcases List.mem_append.mp hg with hg | hg
    · exact Or.inl hg
    · exact Or.inr (List.mem_singleton.mp hg)
  refine ⟨?_, ?_, ?_, ?_⟩
  · rw [hgrants, List.pairwise_append]
    refine ⟨hf.sorted, List.pairwise_singleton _ _, ?_⟩
    intro g hg g' hg' hname
    obtain rfl := List.mem_singleton.mp hg'
    exact hf.ahead g hg hl hng hname.symm (GoMap.mem_of_find hn)
  · intro g hg
    rw [hst]
    rcases hcases g hg with hg | rfl
    · exact hf.issued g hg
    · exact h.issued hl
  · intro g hg j l' hl' hng' hname hmem
    rw [hlo] at hl'
    rw [hst] at hmem
    rw [hgr] at hng'
    by_cases hj : j = id
    · rw [if_pos hj] at hng'
      exact absurd hng' (by decide)
    · rw [if_neg hj] at hng'
      rcases hcases g hg with hg | rfl
      · exact hf.ahead g hg hl' hng' hname hmem
      · obtain ⟨n', hn'⟩ := GoMap.mem_iff_find.mp hmem
        have hdir : directory l' = directory l := by rw [directory, directory, hname]
        exact h.least hl hck hl' hdir (Ne.symm hj) (ht.own h hl' hn').1
  · intro g hg
    rcases hcases g hg with hg | rfl
    · exact hf.parsed g hg
    · exact hp hl

/-- **FIFO order.**  In every state of every disciplined run the grants of one name, in the order
in which the checks succeeded, have strictly increasing sequence numbers, and each is the number
in the `Lock` that `TryLock` returns. -/
theorem lock_fifo_order {handler : DeleteHandler}
    (hst : Lts.Reach Store.step newStore st) (hready : LocksReady st)
    (hb : st.seqCounter < 10 ^ 10) (hrun : Lts.Run step Disciplined (manager st handler) s) :
    (∀ name, ((s.grants.filter fun g => g.lock.name = name).map Grant.sequence).Pairwise (· < ·)) ∧
      ∀ g ∈ s.grants, g.lock.sequence = g.sequence := by
  have ht₀ := tree_of_reach hst
  have hfresh := fresh_manager st handler
  have hp₀ : Parsed (manager st handler) := by
    intro i l hl
    rw [hfresh.lockOf] at hl
    exact absurd hl (by simp)
  have hf₀ : Fifo (manager st handler) := by
    have hnil : ∀ g, g ∉ (manager st handler).grants := by
      rw [hfresh.grants]
      exact fun _ => List.not_mem_nil
    exact ⟨hfresh.grants ▸ List.Pairwise.nil, fun g hg => absurd hg (hnil g),
      fun g hg => absurd hg (hnil g), fun g hg => absurd hg (hnil g)⟩
  obtain ⟨-, -, -, hfifo⟩ := hrun.invariant
    (P := fun s => Queue s ∧ Tidy s ∧ Parsed s ∧ Fifo s)
    ⟨.of_fresh hfresh ht₀ hb, .of_fresh hfresh ht₀ hready, hp₀, hf₀⟩ (by
      rintro s a t ⟨hq, ht, hp, hf⟩ ⟨htame, hbound⟩ hs
      refine ⟨hq.step hbound hs, ht.step hq htame hs, hp.step ht hs, ?_⟩
      cases effect_of_step hs with
      | quiet hv hst => exact hf.quiet hq ht htame hv hst
      | enqueue id c path hc hpc hok hst hlo hgr hgs => exact hf.enqueue hq hok hst hlo hgr hgs
      | grant id l hl hng hck hst hlo hgr hgs => exact hf.grant hq ht hp hl hng hck hst hlo hgr hgs)
  refine ⟨fun name => ?_, hfifo.parsed⟩
  rw [List.pairwise_map, List.pairwise_filter]
  refine hfifo.sorted.imp ?_
  intro g g' hlt hg hg'
  simp only [decide_eq_true_eq] at hg hg'
  exact hlt (hg.trans hg'.symm)

/-- Alice unlocks, the waiting Bob is woken and is granted second. -/
def handOver : List Action :=
  contention ++ [.unlock aliceLock, .unlockDelete aliceLock.path, .callback aliceLock.path,
    .advance 1, .advance 1]

theorem lock_fifo_order_handOver :
    ∃ s, Lts.Run step Disciplined (manager locksStore .lockManager) s ∧
      (s.grants.map Grant.call = [0, 1]) ∧
      ((s.grants.filter fun g => g.lock.name = "x".toList).map Grant.sequence).Pairwise
        (· < ·) := by
  obtain ⟨s, hrun, hfacts⟩ : ∃ s, Lts.Run step Disciplined (manager locksStore .lockManager) s ∧
      s.grants.map Grant.call = [0, 1] :=
    Lts.exists_run handOver (by decide +kernel)
  have hb : locksStore.seqCounter < 10 ^ 10 := by decide +kernel
  exact ⟨s, hrun, hfacts,
    (lock_fifo_order reach_locksStore locksReady_locksStore hb hrun).1 "x".toList⟩

end SkyLock.Lock
