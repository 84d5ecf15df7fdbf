/-
# What an `AppendEntries` request carries

A request that `sendHeartbeats` builds is a SLICE of the leader's log: everything behind
`PrevLogIndex` up to where the log ended when the entries were read, and the term at `PrevLogIndex`
(`slice_of_read`, `slice_of_build`).  The leader's log may have grown when the request arrives; a
slice of a log is a slice of every log it grows into (`Slice.mono`).

A follower that accepts a slice had the leader's log up to `PrevLogIndex` if the two logs match,
so afterwards it has it up to the end of the slice, and no further (`handleAppendEntries_spec`).
-/
import SkyLock.Raft.State

namespace SkyLock.Raft

variable {l Λ Λ' : Log} {i k : Nat} {e : LogEntry} {req : AppendEntriesRequest}

/-! ## 1. Prefixes of logs -/

namespace Log

theorem get_eq_of_prefix (h : l <+: Λ) (hi : i ≤ l.length) : get Λ i = get l i := by
  obtain ⟨t, rfl⟩ := h
  have htake : (l ++ t).take l.length = l.take l.length := by
    rw [List.take_append_length, List.take_length]
  exact get_eq_of_take_eq htake hi

theorem termAt_eq_of_prefix (h : l <+: Λ) (hi : i ≤ l.length) : termAt Λ i = termAt l i := by
  rw [termAt_eq_get, termAt_eq_get, get_eq_of_prefix h hi]

theorem take_eq_of_prefix (h : l <+: Λ) (hi : i ≤ l.length) : Λ.take i = l.take i := by
  obtain ⟨t, rfl⟩ := h
  rw [List.take_append_of_le_length hi]

/-- The same index and term in both logs: the same entries up to there. -/
def Matching (l l' : Log) : Prop :=
  ∀ i e e', get l i = some e → get l' i = some e' → e.term = e'.term → l.take i = l'.take i

theorem Matching.refl (l : Log) : Matching l l := fun _ _ _ _ _ _ => rfl

theorem Matching.of_isPrefix (h : l <+: Λ) : Matching l Λ :=
  fun _ _ _ he _ _ => Eq.symm <| take_eq_of_prefix h (le_length_of_get he).2

/-- With terms from 1 on, `TermAt` decides whether matching logs agree. -/
theorem prefix_of_termAt_eq (h : Matching l Λ) (hpos : ∀ e ∈ Λ, e.term ≠ 0) (hi : i ≤ Λ.length)
    (hterm : 0 < i → termAt l i = termAt Λ i) : Λ.take i <+: l := by
  rcases Nat.eq_zero_or_pos i with rfl | h0
  · exact List.nil_prefix
  · obtain ⟨e', he'⟩ := exists_get h0 hi
    have hterm' := hterm h0
    rw [termAt_of_get he'] at hterm'
    obtain ⟨e, he, heq⟩ := get_of_termAt (hterm' ▸ hpos e' (get_mem he') : termAt l i ≠ 0)
    rw [← h i e e' he he' (heq.trans hterm')]
    exact List.take_prefix i l

end Log

/-! ## 2. Slices -/

/-- The request carries the log `Λ` from `PrevLogIndex` to `k`. -/
structure Slice (Λ : Log) (k : Nat) (req : AppendEntriesRequest) : Prop where
  start : req.prevLogIndex ≤ k
  stop : k ≤ Λ.length
  term : req.prevLogTerm = Log.termAt Λ req.prevLogIndex
  entries : req.entries = (Λ.take k).drop req.prevLogIndex

theorem entriesAfter_eq_drop (l : Log) (i : Nat) : Log.entriesAfter l i = l.drop i := by
  unfold Log.entriesAfter
  split
  · rename_i hle
    exact (List.drop_eq_nil_of_le hle).symm
  · rfl

/-- The entries are read last; the log they are read from may have grown since the term was. -/
theorem slice_of_read {T t commit : Nat} {id : Str} (hlog : l <+: Λ) (hprev : i ≤ l.length)
    (hterm : t = Log.termAt Λ i) :
    Slice Λ l.length ⟨T, id, i, t, Log.entriesAfter l i, commit⟩ := by
  refine ⟨hprev, hlog.length_le, hterm, ?_⟩
  dsimp only
  rw [entriesAfter_eq_drop, ← List.prefix_iff_eq_take.mp hlog]

theorem slice_of_build {s : State} {id peer : Str} {T : Nat} (hlog : s.log <+: Λ)
    (hprev : s.prevIndex peer ≤ Log.lastIndex s.log) :
    Slice Λ s.log.length (s.appendEntriesRequest id peer T) :=
  slice_of_read hlog hprev (Log.termAt_eq_of_prefix hlog hprev).symm

namespace Slice

theorem mono (h : Slice Λ k req) (hp : Λ <+: Λ') : Slice Λ' k req where
  start := h.start
  stop := h.stop.trans hp.length_le
  term := h.term.trans (Log.termAt_eq_of_prefix hp (h.start.trans h.stop)).symm
  entries := by rw [h.entries, Log.take_eq_of_prefix hp h.stop]

theorem length (h : Slice Λ k req) : req.prevLogIndex + req.entries.length = k := by
  have hstart := h.start
  have hstop := h.stop
  rw [h.entries, List.length_drop, List.length_take]
  omega

theorem entries_eq_nil (h : Slice Λ k req) : req.entries = [] ↔ k = req.prevLogIndex := by
  have hlen := h.length
  rw [← List.length_eq_zero_iff]
  omega

/-- The last entry carries its position, so the commit index may follow to the end of the slice. -/
theorem lastNewEntry_eq (h : Slice Λ k req) (hidx : Log.WellIndexed Λ) :
    State.lastNewEntry req = k := by
  unfold State.lastNewEntry
  have hstart := h.start
  have hstop := h.stop
  have hlen : (Λ.take k).length = k := by rw [List.length_take]; omega
  rw [h.entries, List.getLast?_drop, hlen]
  by_cases hk : k ≤ req.prevLogIndex
  · rw [if_pos hk]
    exact Nat.le_antisymm hstart hk
  · rw [if_neg hk, List.getLast?_eq_getElem?, hlen, List.getElem?_take_of_lt (by omega),
      List.getElem?_eq_getElem (by omega)]
    exact hidx k _ (Log.get_eq_some_iff.mpr ⟨by omega, List.getElem?_eq_getElem (by omega)⟩)

/-- Appending a slice behind a common prefix gives the leader's log up to its end. -/
theorem appendEntries_eq (h : Slice Λ k req) (hidx : Log.WellIndexed Λ)
    (hp : Λ.take req.prevLogIndex <+: l) :
    (Log.appendEntries l req.prevLogIndex req.entries).1 = Λ.take k := by
  have hstart := h.start
  have hstop := h.stop
  have hlen : (Λ.take req.prevLogIndex).length = req.prevLogIndex := by
    rw [List.length_take]; omega
  have hle : req.prevLogIndex ≤ l.length := hlen ▸ hp.length_le
  have htake : l.take req.prevLogIndex = Λ.take req.prevLogIndex := by
    rw [Log.take_eq_of_prefix hp hlen.ge, List.take_take, Nat.min_self]
  rw [Log.appendEntries, if_neg (Nat.not_lt.mpr hle), htake, h.entries, List.drop_take,
    Log.reindex_drop _ hidx, ← List.take_add, Nat.add_sub_cancel' hstart]

end Slice

/-! ## 3. Accepting a slice -/

section Accept

variable {s : State}

/-- **The three outcomes**: from the past, refused, accepted. -/
theorem handleAppendEntries_cases (s : State) (req : AppendEntriesRequest) :
    (req.term < s.currentTerm ∧ s.handleAppendEntries req = (s, ⟨s.currentTerm, false⟩)) ∨
    (s.currentTerm ≤ req.term ∧ ¬ s.consistent req ∧
      s.handleAppendEntries req = (s.becomeFollower req.term req.leaderID, ⟨req.term, false⟩)) ∨
    (s.currentTerm ≤ req.term ∧ s.consistent req ∧
      s.handleAppendEntries req =
        (((s.becomeFollower req.term req.leaderID).store req).advanceCommit req,
          ⟨req.term, true⟩)) := by
  have hsame : (s.becomeFollower req.term req.leaderID).consistent req ↔ s.consistent req := Iff.rfl
  unfold State.handleAppendEntries
  by_cases hterm : req.term < s.currentTerm
  · exact .inl ⟨hterm, if_pos hterm⟩
  · rw [if_neg hterm]
    by_cases hc : s.consistent req
    · exact .inr (.inr ⟨Nat.not_lt.mp hterm, hc, if_pos (hsame.mpr hc)⟩)
    · exact .inr (.inl ⟨Nat.not_lt.mp hterm, hc, if_neg (mt hsame.mp hc)⟩)

theorem handleAppendEntries_success : (s.handleAppendEntries req).2.success = true ↔
    s.currentTerm ≤ req.term ∧ s.consistent req := by
  rcases handleAppendEntries_cases s req with ⟨hold, heq⟩ | ⟨hterm, hc, heq⟩ | ⟨hterm, hc, heq⟩
  · simp [heq, Nat.not_le.mpr hold]
  · simp [heq, hc]
  · simp [heq, hterm, hc]

theorem handleAppendEntries_of_stale (hold : req.term < s.currentTerm) :
    (s.handleAppendEntries req).1 = s := by
  rw [State.handleAppendEntries, if_pos hold]

theorem handleAppendEntries_of_inconsistent (hterm : s.currentTerm ≤ req.term)
    (hc : ¬ s.consistent req) :
    (s.handleAppendEntries req).1 = s.becomeFollower req.term req.leaderID := by
  rcases handleAppendEntries_cases s req with ⟨hold, -⟩ | ⟨-, -, heq⟩ | ⟨-, hc', -⟩
  · exact absurd hterm (Nat.not_le.mpr hold)
  · rw [heq]
  · exact absurd hc' hc

theorem handleAppendEntries_of_consistent (hterm : s.currentTerm ≤ req.term)
    (hc : s.consistent req) :
    (s.handleAppendEntries req).1 =
      ((s.becomeFollower req.term req.leaderID).store req).advanceCommit req := by
  rcases handleAppendEntries_cases s req with ⟨hold, -⟩ | ⟨-, hc', -⟩ | ⟨-, -, heq⟩
  · exact absurd hterm (Nat.not_le.mpr hold)
  · exact absurd hc hc'
  · rw [heq]

theorem advanceCommit_log (s : State) (req : AppendEntriesRequest) :
    (s.advanceCommit req).log = s.log := by
  unfold State.advanceCommit
  split <;> rfl

theorem store_commitIndex (s : State) (req : AppendEntriesRequest) :
    (s.store req).commitIndex = s.commitIndex := by
  unfold State.store
  split <;> rfl

theorem advanceCommit_commitIndex (s : State) (req : AppendEntriesRequest) :
    (s.advanceCommit req).commitIndex =
      if req.leaderCommit > s.commitIndex then min (State.lastNewEntry req) req.leaderCommit
      else s.commitIndex := by
  unfold State.advanceCommit
  split
  · dsimp only
    split
    · rename_i hlt
      exact (Nat.min_eq_left hlt.le).symm
    · rename_i hge
      exact (Nat.min_eq_right (Nat.not_lt.mp hge)).symm
  · rfl

/-- **What accepting a slice does.**  The log is the leader's up to the end of the slice if there
was anything to append, and untouched if not; the commit index follows the leader's. -/
theorem handleAppendEntries_spec (h : Slice Λ k req) (hidx : Log.WellIndexed Λ)
    (hterm : s.currentTerm ≤ req.term) (hc : s.consistent req)
    (hp : Λ.take req.prevLogIndex <+: s.log) :
    (s.handleAppendEntries req).1.log = (if req.entries = [] then s.log else Λ.take k) ∧
      (s.handleAppendEntries req).1.commitIndex =
        if req.leaderCommit > s.commitIndex then min k req.leaderCommit else s.commitIndex := by
  rw [handleAppendEntries_of_consistent hterm hc, advanceCommit_log, advanceCommit_commitIndex,
    store_commitIndex, h.lastNewEntry_eq hidx]
  refine ⟨?_, rfl⟩
  unfold State.store
  split
  · rfl
  · exact h.appendEntries_eq hidx hp

/-- A request that passes the check finds the leader's log up to `PrevLogIndex`. -/
theorem prefix_of_consistent (h : Slice Λ k req) (hmatch : Log.Matching s.log Λ)
    (hpos : ∀ e ∈ Λ, e.term ≠ 0) (hc : s.consistent req) :
    Λ.take req.prevLogIndex <+: s.log := by
  refine Log.prefix_of_termAt_eq hmatch hpos (h.start.trans h.stop) fun h0 => ?_
  rw [← h.term]
  by_contra hne
  exact hc ⟨h0, hne⟩

end Accept

end SkyLock.Raft
