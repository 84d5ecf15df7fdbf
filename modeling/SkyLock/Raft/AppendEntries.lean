/-
# Handling one `AppendEntries`

What `HandleAppendEntries` does with a request that may carry anything, and with one that
`sendHeartbeats` has built.

* Handling a request twice in a row is handling it once (`handleAppendEntries_twice`).
* A response with `Success` should say that the follower now has the entry at `PrevLogIndex`, the
  entries behind it, and a commit index in its log.  It need not.  `TermAt` answers 0 behind the end
  of the log, so a request with `PrevLogTerm` 0 passes the check there and `Log.AppendEntries`
  refuses it without anybody noticing; and a request with entries cuts the log at their end, also
  below the commit index.  `append_reply_truthful_iff` says exactly when it does.
* A request built from a log with terms from 1 on is accepted exactly if the follower has the
  leader's entry at `PrevLogIndex`, then gives it the leader's log, and keeps log matching
  (`replication_step_matching`).
-/
import SkyLock.Raft.Stability

namespace SkyLock.Raft

variable {s : State} {req : AppendEntriesRequest} {l l' Λ : Log} {k : Nat} {es : List LogEntry}

/-! ## 1. Appending to a log -/

namespace Log

theorem appendEntries_of_gt (hk : l.length < k) : (appendEntries l k es).1 = l := by
  rw [appendEntries, if_pos hk]

theorem appendEntries_of_le (hk : k ≤ l.length) :
    (appendEntries l k es).1 = l.take k ++ reindex k es := by
  rw [appendEntries, if_neg (Nat.not_lt.mpr hk)]

/-- `AppendEntries` leaves the log alone up to where it appends. -/
theorem take_appendEntries (l : Log) (k : Nat) (es : List LogEntry) :
    (appendEntries l k es).1.take k = l.take k := by
  rcases Nat.lt_or_ge l.length k with hk | hk
  · rw [appendEntries_of_gt hk]
  · have hlen : (l.take k).length = k := by rw [List.length_take]; omega
    rw [appendEntries_of_le hk, List.take_append_of_le_length hlen.ge, List.take_take, Nat.min_self]

theorem appendEntries_twice (l : Log) (k : Nat) (es : List LogEntry) :
    (appendEntries (appendEntries l k es).1 k es).1 = (appendEntries l k es).1 := by
  rcases Nat.lt_or_ge l.length k with hk | hk
  · rw [appendEntries_of_gt hk, appendEntries_of_gt hk]
  · have hle : k ≤ (appendEntries l k es).1.length := by
      rw [appendEntries_of_le hk, List.length_append, List.length_take]
      omega
    rw [appendEntries_of_le hle, take_appendEntries, appendEntries_of_le hk]

end Log

/-! ## 2. Redelivery -/

namespace State

theorem store_store (s : State) (req : AppendEntriesRequest) :
    (s.store req).store req = s.store req := by
  unfold store
  split
  · rfl
  · dsimp only
    rw [Log.appendEntries_twice]

/-- Appending and following the commit index do not see each other. -/
theorem store_advanceCommit (s : State) (req : AppendEntriesRequest) :
    (s.advanceCommit req).store req = (s.store req).advanceCommit req := by
  unfold advanceCommit store
  split <;> split <;> rfl

theorem advanceCommit_advanceCommit (s : State) (req : AppendEntriesRequest) :
    (s.advanceCommit req).advanceCommit req = s.advanceCommit req := by
  unfold advanceCommit
  by_cases hlc : req.leaderCommit > s.commitIndex
  · rw [if_pos hlc]
    dsimp only
    by_cases hlast : lastNewEntry req < req.leaderCommit
    · rw [if_pos hlast, if_pos hlast]
    · rw [if_neg hlast, if_neg (lt_irrefl _)]
  · rw [if_neg hlc, if_neg hlc]

/-- A node that has accepted a request follows its sender. -/
theorem becomeFollower_accepted (s : State) (req : AppendEntriesRequest) :
    (((s.becomeFollower req.term req.leaderID).store req).advanceCommit req).becomeFollower
        req.term req.leaderID =
      ((s.becomeFollower req.term req.leaderID).store req).advanceCommit req := by
  unfold advanceCommit store
  split <;> split <;> rfl

theorem consistent_accepted (hc : s.consistent req) :
    (((s.becomeFollower req.term req.leaderID).store req).advanceCommit req).consistent req := by
  have hterm : Log.termAt
      (((s.becomeFollower req.term req.leaderID).store req).advanceCommit req).log
      req.prevLogIndex = Log.termAt s.log req.prevLogIndex := by
    rw [advanceCommit_log, Log.termAt_eq_get, Log.termAt_eq_get]
    have htake : ((s.becomeFollower req.term req.leaderID).store req).log.take req.prevLogIndex =
        s.log.take req.prevLogIndex := by
      unfold store
      split
      · rfl
      · exact Log.take_appendEntries _ _ _
    rw [Log.get_eq_of_take_eq htake le_rfl]
  unfold consistent
  rw [hterm]
  exact hc

end State

/-- **Immediate redelivery is harmless**: handling a request a second time changes nothing and gives
the same response. -/
theorem handleAppendEntries_twice (s : State) (req : AppendEntriesRequest) :
    (s.handleAppendEntries req).1.handleAppendEntries req = s.handleAppendEntries req := by
  rcases handleAppendEntries_cases s req with ⟨-, heq⟩ | ⟨-, hc, heq⟩ | ⟨-, hc, heq⟩
  · rw [heq]
    exact heq
  · have hterm : ¬ req.term < (s.becomeFollower req.term req.leaderID).currentTerm := lt_irrefl _
    rw [heq, State.handleAppendEntries, if_neg hterm]
    exact if_neg hc
  · rw [heq]
    dsimp only
    generalize ht : ((s.becomeFollower req.term req.leaderID).store req).advanceCommit req = t
    have hfollow : t.becomeFollower req.term req.leaderID = t :=
      ht ▸ State.becomeFollower_accepted s req
    have hcons : t.consistent req := ht ▸ State.consistent_accepted hc
    have hterm : ¬ req.term < t.currentTerm := by
      rw [← hfollow]
      exact lt_irrefl _
    have hsame : (t.store req).advanceCommit req = t := by
      rw [← ht, State.store_advanceCommit, State.store_store, State.advanceCommit_advanceCommit]
    rw [State.handleAppendEntries, if_neg hterm, hfollow]
    dsimp only
    rw [if_pos hcons, hsame]

/-! ## 3. Truthful responses -/

/-- The entries of the request carry the indices behind `PrevLogIndex`. -/
def Consecutive (req : AppendEntriesRequest) : Prop :=
  ∀ i e, req.entries[i]? = some e → e.index = req.prevLogIndex + i + 1

/-- What `Success` tells the leader about the state `s` of the follower. -/
structure Truthful (req : AppendEntriesRequest) (s : State) : Prop where
  length : req.prevLogIndex + req.entries.length ≤ Log.lastIndex s.log
  prev : 0 < req.prevLogIndex →
    ∃ e, Log.get s.log req.prevLogIndex = some e ∧ e.term = req.prevLogTerm
  entries : ∀ i e, req.entries[i]? = some e → Log.get s.log (req.prevLogIndex + i + 1) = some e
  commit : s.commitIndex ≤ Log.lastIndex s.log

/-- The request starts in the log; and if it has entries and does not move the commit index, they
reach up to it. -/
def Fits (s : State) (req : AppendEntriesRequest) : Prop :=
  req.prevLogIndex ≤ Log.lastIndex s.log ∧
    (req.entries ≠ [] → req.leaderCommit ≤ s.commitIndex →
      s.commitIndex ≤ req.prevLogIndex + req.entries.length)

theorem Log.reindex_of_consecutive : ∀ {es : List LogEntry} {k : Nat},
    (∀ i e, es[i]? = some e → e.index = k + i + 1) → Log.reindex k es = es
  | [], _, _ => rfl
  | e :: es, k, h => by
    have hhead : e.index = k + 1 := h 0 e rfl
    have htail : Log.reindex (k + 1) es = es :=
      Log.reindex_of_consecutive fun i x hx => (h (i + 1) x hx).trans (by omega)
    rw [Log.reindex, htail, ← hhead]

theorem Consecutive.lastNewEntry (h : Consecutive req) :
    State.lastNewEntry req = req.prevLogIndex + req.entries.length := by
  unfold State.lastNewEntry
  rcases List.eq_nil_or_concat req.entries with hnil | ⟨es, e, hes⟩
  · rw [hnil]
    rfl
  · have hlast : req.entries[es.length]? = some e := by
      rw [hes, List.concat_eq_append, List.getElem?_concat_length]
    rw [hes, List.concat_eq_append, List.getLast?_concat]
    dsimp only
    rw [h _ e hlast, List.length_append, List.length_singleton]
    omega

/-- A consecutive request that starts in the log ends up in it. -/
theorem Consecutive.store_log (h : Consecutive req)
    (hprev : req.prevLogIndex ≤ Log.lastIndex s.log) :
    (s.store req).log = s.log.take req.prevLogIndex ++ req.entries ++
      (if req.entries = [] then s.log.drop req.prevLogIndex else []) := by
  unfold State.store
  split
  · rename_i hnil
    rw [hnil, List.append_nil, List.take_append_drop]
  · dsimp only
    rw [Log.appendEntries_of_le hprev, Log.reindex_of_consecutive h, List.append_nil]

theorem store_log_of_gt (hprev : Log.lastIndex s.log < req.prevLogIndex) :
    (s.store req).log = s.log := by
  unfold State.store
  split
  · rfl
  · exact Log.appendEntries_of_gt hprev

/-- The length of the log afterwards. -/
theorem Consecutive.lastIndex_store (h : Consecutive req)
    (hprev : req.prevLogIndex ≤ Log.lastIndex s.log) :
    Log.lastIndex (s.store req).log =
      if req.entries = [] then Log.lastIndex s.log else req.prevLogIndex + req.entries.length := by
  unfold Log.lastIndex at hprev ⊢
  rw [h.store_log hprev]
  by_cases hnil : req.entries = []
  · simp [hnil]
  · simp [hnil, hprev]

/-- A request that has passed the check: what the commit index is afterwards, and when it is in the
log. -/
theorem Consecutive.commit_le_iff (h : Consecutive req)
    (hbound : s.commitIndex ≤ Log.lastIndex s.log)
    (hprev : req.prevLogIndex ≤ Log.lastIndex s.log) :
    ((s.store req).advanceCommit req).commitIndex ≤ Log.lastIndex (s.store req).log ↔
      (req.entries ≠ [] → req.leaderCommit ≤ s.commitIndex →
        s.commitIndex ≤ req.prevLogIndex + req.entries.length) := by
  rw [advanceCommit_commitIndex, store_commitIndex, h.lastNewEntry, h.lastIndex_store hprev]
  by_cases hnil : req.entries = []
  · rw [if_pos hnil]
    refine iff_of_true ?_ fun hne => absurd hnil hne
    rw [hnil, List.length_nil]
    split <;> omega
  · rw [if_neg hnil]
    by_cases hlc : req.leaderCommit > s.commitIndex
    · rw [if_pos hlc]
      exact iff_of_true (Nat.min_le_left _ _) fun _ hle => absurd hle (Nat.not_le.mpr hlc)
    · rw [if_neg hlc]
      exact ⟨fun hle _ _ => hle, fun hcov => hcov hnil (Nat.not_lt.mp hlc)⟩

theorem truthful_accepted_iff (h : Consecutive req) (hbound : s.commitIndex ≤ Log.lastIndex s.log)
    (hc : s.consistent req) :
    Truthful req ((s.store req).advanceCommit req) ↔ Fits s req := by
  rcases Nat.lt_or_ge (Log.lastIndex s.log) req.prevLogIndex with hgt | hprev
  · -- the log stays as it is, too short
    refine iff_of_false (fun ht => ?_) fun hfits => absurd hfits.1 (Nat.not_le.mpr hgt)
    have hlength := ht.length
    rw [advanceCommit_log, store_log_of_gt hgt] at hlength
    omega
  · have hcommit := h.commit_le_iff hbound hprev
    constructor
    · intro ht
      have hle := ht.commit
      rw [advanceCommit_log] at hle
      exact ⟨hprev, hcommit.mp hle⟩
    · intro hfits
      have hlog := h.store_log hprev
      have hlen : (s.log.take req.prevLogIndex).length = req.prevLogIndex := by
        rw [List.length_take]
        exact Nat.min_eq_left hprev
      have htake : (s.store req).log.take req.prevLogIndex = s.log.take req.prevLogIndex := by
        rw [hlog, List.append_assoc, List.take_append_of_le_length hlen.ge, List.take_take,
          Nat.min_self]
      refine ⟨?_, fun h0 => ?_, fun i e he => ?_, ?_⟩
      · rw [advanceCommit_log, Log.lastIndex, hlog, List.length_append, List.length_append, hlen]
        omega
      · obtain ⟨e, he⟩ := Log.exists_get h0 hprev
        rw [advanceCommit_log, Log.get_eq_of_take_eq htake le_rfl]
        refine ⟨e, he, ?_⟩
        by_contra hne
        exact hc ⟨h0, Log.termAt_of_get he ▸ hne⟩
      · rw [advanceCommit_log, Log.get_eq_some_iff, hlog, List.append_assoc,
          List.getElem?_append_right (by omega), hlen, List.getElem?_append_left]
        · refine ⟨by omega, ?_⟩
          rw [← he]
          congr 1
          omega
        · have := (List.getElem?_eq_some_iff.mp he).1
          omega
      · rw [advanceCommit_log]
        exact hcommit.mpr hfits.2

/-- **When a response is truthful.**  For every state with the commit index in the log and every
request with consecutive indices: a `Success` is truthful if and only if the request starts in the
log and, where it has entries and does not move the commit index, reaches up to it.  A response
without `Success` has left the log and the commit index alone. -/
theorem append_reply_truthful_iff (s : State) (req : AppendEntriesRequest)
    (hbound : s.commitIndex ≤ Log.lastIndex s.log) (hcons : Consecutive req) :
    ((s.handleAppendEntries req).2.success = true →
        (Truthful req (s.handleAppendEntries req).1 ↔ Fits s req)) ∧
      ((s.handleAppendEntries req).2.success = false →
        (s.handleAppendEntries req).1.log = s.log ∧
          (s.handleAppendEntries req).1.commitIndex = s.commitIndex) := by
  rcases handleAppendEntries_cases s req with ⟨-, heq⟩ | ⟨-, -, heq⟩ | ⟨-, hc, heq⟩
  · rw [heq]
    exact ⟨fun h => absurd h (by simp), fun _ => ⟨rfl, rfl⟩⟩
  · rw [heq]
    exact ⟨fun h => absurd h (by simp), fun _ => ⟨rfl, rfl⟩⟩
  · rw [heq]
    refine ⟨fun _ => ?_, fun h => absurd h (by simp)⟩
    exact truthful_accepted_iff (s := s.becomeFollower req.term req.leaderID) hcons hbound hc

/-- The requests of `sendHeartbeats` have consecutive indices. -/
theorem Slice.consecutive (h : Slice Λ k req) (hidx : Log.WellIndexed Λ) : Consecutive req := by
  intro i e he
  have hget : (Λ.take k)[req.prevLogIndex + i]? = some e := by
    rw [← List.getElem?_drop, ← h.entries, he]
  have hlt := (List.getElem?_eq_some_iff.mp hget).1
  rw [List.length_take] at hlt
  rw [List.getElem?_take_of_lt (by omega)] at hget
  exact hidx _ e (Log.get_eq_some_iff.mpr ⟨by omega, hget⟩)

theorem consecutive_requestAt {k commit : Nat} (hk : commit ≤ (twoCommands.take k).length) :
    Consecutive (requestAt k commit) := by
  obtain ⟨-, n, hslice, -⟩ := (built_requestAt hk).slice
  exact hslice.consecutive leaderLog_twoCommands.indexed

/-- A new follower accepts both commands and says so truthfully. -/
theorem append_reply_truthful_twoCommands :
    (emptyFollower.handleAppendEntries (requestAt 2 2)).2.success = true ∧
      Truthful (requestAt 2 2) (emptyFollower.handleAppendEntries (requestAt 2 2)).1 := by
  have hcons : Consecutive (requestAt 2 2) := consecutive_requestAt (by decide)
  have hsucc : (emptyFollower.handleAppendEntries (requestAt 2 2)).2.success = true := by
    decide +kernel
  exact ⟨hsucc, ((append_reply_truthful_iff emptyFollower (requestAt 2 2) le_rfl hcons).1 hsucc).mpr
    ⟨Nat.zero_le _, fun _ _ => Nat.zero_le _⟩⟩

/-- A request far behind the end of the log, with `PrevLogTerm` 0. -/
def requestBeyond : AppendEntriesRequest :=
  ⟨1, "n1".toList, 5, 0, [⟨6, 1, .command, "z".toList⟩], 0⟩

/-- **`Success` for what has not been stored.**  A follower with an empty log accepts entry 6 and
stores nothing.  One that has committed two entries accepts a request for the first alone and ends
up with a commit index behind the end of its log.  The entries of both requests carry the indices
behind `PrevLogIndex`. -/
theorem success_untruthful :
    Consecutive requestBeyond ∧ Consecutive (requestAt 1 0) ∧
      emptyFollower.commitIndex ≤ Log.lastIndex emptyFollower.log ∧
      (emptyFollower.handleAppendEntries requestBeyond).2.success = true ∧
      (emptyFollower.handleAppendEntries requestBeyond).1.log = [] ∧
      ¬ Truthful requestBeyond (emptyFollower.handleAppendEntries requestBeyond).1 ∧
      (deliver emptyFollower (requestAt 2 2)).commitIndex = 2 ∧
      Log.lastIndex (deliver emptyFollower (requestAt 2 2)).log = 2 ∧
      ((deliver emptyFollower (requestAt 2 2)).handleAppendEntries (requestAt 1 0)).2.success =
        true ∧
      ¬ Truthful (requestAt 1 0)
        ((deliver emptyFollower (requestAt 2 2)).handleAppendEntries (requestAt 1 0)).1 := by
  refine ⟨fun i e he => ?_, consecutive_requestAt (by decide), le_rfl, by decide +kernel,
    by decide +kernel, fun ht => ?_, by decide +kernel, by decide +kernel, by decide +kernel,
    fun ht => ?_⟩
  · obtain ⟨rfl, rfl⟩ : i = 0 ∧ e = ⟨6, 1, .command, "z".toList⟩ := by
      cases i with
      | zero => exact ⟨rfl, (Option.some.inj he).symm⟩
      | succ i => exact absurd he (by simp [requestBeyond])
    rfl
  · exact absurd ht.length (by decide +kernel)
  · exact absurd ht.commit (by decide +kernel)

/-! ## 4. Log matching -/

/-- The check, for a log with terms from 1 on: the follower has an entry of the leader's term
there. -/
theorem consistent_iff_of_slice (hs : Slice Λ k req) (hpos : ∀ e ∈ Λ, e.term ≠ 0) :
    s.consistent req ↔ req.prevLogIndex = 0 ∨
      ∃ e, Log.get s.log req.prevLogIndex = some e ∧
        e.term = Log.termAt Λ req.prevLogIndex := by
  unfold State.consistent
  rw [hs.term]
  rcases Nat.eq_zero_or_pos req.prevLogIndex with h0 | h0
  · exact iff_of_true (fun h => absurd h0 h.1.ne') (.inl h0)
  · obtain ⟨x, hx⟩ := Log.exists_get h0 (hs.start.trans hs.stop)
    have hne : Log.termAt Λ req.prevLogIndex ≠ 0 :=
      Log.termAt_of_get hx ▸ hpos x (Log.get_mem hx)
    constructor
    · intro hc
      have hterm : Log.termAt s.log req.prevLogIndex = Log.termAt Λ req.prevLogIndex := by
        by_contra h
        exact hc ⟨h0, h⟩
      obtain ⟨e, he, heq⟩ := Log.get_of_termAt (hterm ▸ hne)
      exact .inr ⟨e, he, heq.trans hterm⟩
    · rintro (h | ⟨e, he, heq⟩) ⟨-, hdiff⟩
      · omega
      · exact hdiff ((Log.termAt_of_get he).trans heq)

/-- A request with the whole rest of the leader's log leaves the follower with that log, or with
its own if it had the leader's already. -/
theorem Slice.log_of_accept (hs : Slice Λ Λ.length req) (hΛ : LeaderLog Λ)
    (hmatch : Log.Matching s.log Λ) (hterm : s.currentTerm ≤ req.term) (hc : s.consistent req) :
    (s.handleAppendEntries req).1.log = Λ ∨
      (s.handleAppendEntries req).1.log = s.log ∧ Λ <+: s.log := by
  have hprev := prefix_of_consistent hs hmatch hΛ.terms hc
  have hlog := (handleAppendEntries_spec hs hΛ.indexed hterm hc hprev).1
  by_cases hnil : req.entries = []
  · rw [if_pos hnil] at hlog
    rw [← hs.entries_eq_nil.mp hnil, List.take_length] at hprev
    exact .inr ⟨hlog, hprev⟩
  · rw [if_neg hnil, List.take_length] at hlog
    exact .inl hlog

theorem Slice.take_of_accept (hs : Slice Λ Λ.length req) (hΛ : LeaderLog Λ)
    (hmatch : Log.Matching s.log Λ) (hterm : s.currentTerm ≤ req.term) (hc : s.consistent req) :
    (s.handleAppendEntries req).1.log.take Λ.length = Λ := by
  rcases hs.log_of_accept hΛ hmatch hterm hc with hlog | ⟨hlog, hpre⟩
  · rw [hlog]
    exact List.take_length
  · rw [hlog]
    exact (List.prefix_iff_eq_take.mp hpre).symm

/-- **A replication step keeps log matching.**  The leader `s` has a log with terms from 1 on and
sends what comes behind some `k` in it; the follower `f` is in a term that is not above the
request's, and the logs of the leader, of the follower and a third log `G` match one another.  The
request is accepted exactly if `k` is 0 or the follower has an entry of the leader's term there.
Then the follower has the leader's log; otherwise its log is unchanged; and it still matches the
two others. -/
theorem replication_step_matching {s f : State} {G : Log} {id peer : Str} {T k : Nat}
    (hL : LeaderLog s.log) (hFL : Log.Matching f.log s.log) (hFG : Log.Matching f.log G)
    (hLG : Log.Matching s.log G) (hk : s.prevIndex peer = k) (hle : k ≤ Log.lastIndex s.log)
    (hT : f.currentTerm ≤ T) :
    let r := f.handleAppendEntries (s.appendEntriesRequest id peer T)
    (r.2.success = true ↔
        k = 0 ∨ ∃ e, Log.get f.log k = some e ∧ e.term = Log.termAt s.log k) ∧
      (r.2.success = true → r.1.log.take (Log.lastIndex s.log) = s.log) ∧
      (r.2.success = false → r.1.log = f.log) ∧
      Log.Matching r.1.log s.log ∧ Log.Matching r.1.log G := by
  intro r
  subst hk
  have hs : Slice s.log s.log.length (s.appendEntriesRequest id peer T) :=
    slice_of_build (List.prefix_refl _) hle
  have hsucc : r.2.success = true ↔ f.consistent (s.appendEntriesRequest id peer T) :=
    handleAppendEntries_success.trans (and_iff_right hT)
  refine ⟨hsucc.trans (consistent_iff_of_slice hs hL.terms), ?_⟩
  by_cases hc : f.consistent (s.appendEntriesRequest id peer T)
  · have htrue := hsucc.mpr hc
    refine ⟨fun _ => hs.take_of_accept hL hFL hT hc, fun hfalse => ?_, ?_⟩
    · exact absurd (htrue.symm.trans hfalse) (by simp)
    · rcases hs.log_of_accept hL hFL hT hc with hlog | ⟨hlog, -⟩
      · exact ⟨hlog ▸ .refl _, hlog ▸ hLG⟩
      · exact ⟨hlog ▸ hFL, hlog ▸ hFG⟩
  · have hlog : r.1.log = f.log := (keeps_of_inconsistent hT hc).1
    exact ⟨fun h => absurd (hsucc.mp h) hc, fun _ => hlog, hlog ▸ hFL, hlog ▸ hFG⟩

/-- The leader of both commands knows that `n2` has the first one. -/
def leaderOfSecond : State :=
  { leaderAt 2 0 with nextIndex := Finmap.singleton "n2".toList 2 }

/-- It sends the second, and `n2` then has both. -/
theorem replication_step_matching_second :
    ((deliver emptyFollower (requestAt 1 0)).handleAppendEntries
        (leaderOfSecond.appendEntriesRequest "n1".toList "n2".toList 1)).2.success = true ∧
      ((deliver emptyFollower (requestAt 1 0)).handleAppendEntries
        (leaderOfSecond.appendEntriesRequest "n1".toList "n2".toList 1)).1.log.take 2 =
          twoCommands := by
  have hlog : (deliver emptyFollower (requestAt 1 0)).log <+: twoCommands := by decide +kernel
  have hprev : leaderOfSecond.prevIndex "n2".toList = 1 := by decide +kernel
  have hsecond : Log.get (deliver emptyFollower (requestAt 1 0)).log 1 =
      some ⟨1, 1, .command, "x".toList⟩ := by decide +kernel
  obtain ⟨hiff, hsucc, -⟩ := @replication_step_matching leaderOfSecond _ _ "n1".toList _ 1 _
    leaderLog_twoCommands (.of_isPrefix hlog) (.of_isPrefix hlog) (.refl _) hprev (by decide)
    (by decide +kernel)
  have htrue := hiff.mpr (.inr ⟨_, hsecond, rfl⟩)
  exact ⟨htrue, hsucc htrue⟩

end SkyLock.Raft
