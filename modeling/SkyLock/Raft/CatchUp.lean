/-
# Catching up

One leader, one follower, requests and responses one at a time: the loop by which `sendHeartbeats`
finds out where the follower's log leaves its own.  It sends from `nextIndex` on, and steps back by
one each time the follower rejects.

A rejection means that the follower has no entry of the leader's term at `nextIndex - 1`, so it
never happens at `nextIndex = 1`, and `nextIndex` is a measure.  The first acceptance leaves the
follower with the whole log of the leader, however the two had diverged (`catch_up_converges`).
-/
import SkyLock.Raft.AppendEntries
import SkyLock.Raft.Effect

namespace SkyLock.Raft

/-! ## 1. The exchange -/

structure Pair where
  leader : Node
  follower : State

namespace Pair

/-- What the leader sends next. -/
def request (id peer : Str) (p : Pair) : AppendEntriesRequest :=
  p.leader.st.appendEntriesRequest id peer p.leader.st.currentTerm

/-- What the follower responds. -/
def response (id peer : Str) (p : Pair) : AppendEntriesResponse :=
  (p.follower.handleAppendEntries (p.request id peer)).2

/-- One request is sent and handled, and its response is handled. -/
def exchange (id peer : Str) (p : Pair) : Pair where
  leader := p.leader.appendReply peer (p.request id peer) (p.response id peer)
  follower := (p.follower.handleAppendEntries (p.request id peer)).1

/-- What may happen between two exchanges: anything that leaves alone the leader's log and term,
its `nextIndex` for this peer and the follower's log, and does not move the follower to a later
term than the leader's. -/
structure Meanwhile (peer : Str) (p q : Pair) : Prop where
  log : q.leader.st.log = p.leader.st.log
  term : q.leader.st.currentTerm = p.leader.st.currentTerm
  next : q.leader.st.nextIndex.find peer = p.leader.st.nextIndex.find peer
  follower : q.follower.log = p.follower.log
  behind : q.follower.currentTerm ≤ q.leader.st.currentTerm

/-- The two nodes before each exchange. -/
def Exchanges (id peer : Str) (ps : Nat → Pair) : Prop :=
  ∀ i, Meanwhile peer ((ps i).exchange id peer) (ps (i + 1))

section Terms

variable {id peer : Str} {p : Pair} (h : p.follower.currentTerm ≤ p.leader.st.currentTerm)
include h

theorem response_term : (p.response id peer).term = p.leader.st.currentTerm := by
  have hterm : ¬ (p.request id peer).term < p.follower.currentTerm := Nat.not_lt.mpr h
  rcases handleAppendEntries_cases p.follower (p.request id peer) with
    ⟨hlt, -⟩ | ⟨-, -, heq⟩ | ⟨-, -, heq⟩
  · exact absurd hlt hterm
  · rw [response, heq]
    rfl
  · rw [response, heq]
    rfl

theorem exchange_leader : (p.exchange id peer).leader.st =
    if (p.response id peer).success then p.leader.st.noteSuccess peer (p.request id peer).entries
    else p.leader.st.noteFailure peer := by
  have hle : ¬ (p.response id peer).term > (p.request id peer).term := by
    rw [response_term h]
    exact lt_irrefl _
  rw [exchange, Node.appendReply]
  dsimp only
  rw [if_neg hle]
  split <;> rfl

/-- An exchange keeps the leader's term, and moves the follower to it. -/
theorem exchange_term :
    (p.exchange id peer).leader.st.currentTerm = p.leader.st.currentTerm ∧
      (p.exchange id peer).follower.currentTerm = p.leader.st.currentTerm := by
  have hoffice : (p.exchange id peer).leader.st.office = p.leader.st.office := by
    rw [exchange_leader h]
    split
    · exact office_noteSuccess _ _ _
    · exact office_noteFailure _ _
  have hfollower : (p.exchange id peer).follower.office =
      .following (p.request id peer).term (p.request id peer).leaderID :=
    office_handleAppendEntries _ h
  exact ⟨congrArg Office.term hoffice, congrArg Office.term hfollower⟩

/-- Exchanges with nothing in between. -/
theorem exchanges_iterate : Exchanges id peer fun i => (exchange id peer)^[i] p := by
  have hall : ∀ i, ((exchange id peer)^[i] p).follower.currentTerm ≤
      ((exchange id peer)^[i] p).leader.st.currentTerm := by
    intro i
    induction i with
    | zero => exact h
    | succ i ih =>
      rw [Function.iterate_succ_apply']
      exact ((exchange_term ih).2.trans (exchange_term ih).1.symm).le
  intro i
  have hnext := hall (i + 1)
  dsimp only
  rw [Function.iterate_succ_apply'] at hnext ⊢
  exact ⟨rfl, rfl, rfl, rfl, hnext⟩

end Terms

end Pair

/-! ## 2. One exchange -/

/-- The follower can be brought to the leader's log `L`, from `nextIndex = n` on. -/
structure CatchingUp (L : Log) (peer : Str) (n : Nat) (p : Pair) : Prop where
  log : p.leader.st.log = L
  next : p.leader.st.nextIndex.find peer = some n
  low : 1 ≤ n
  high : n ≤ Log.lastIndex L + 1
  fits : n < 2 ^ 64
  matching : Log.Matching p.follower.log L
  behind : p.follower.currentTerm ≤ p.leader.st.currentTerm

namespace CatchingUp

variable {L : Log} {id peer : Str} {n : Nat} {p q : Pair}

theorem meanwhile (h : CatchingUp L peer n p) (hpq : Pair.Meanwhile peer p q) :
    CatchingUp L peer n q where
  log := hpq.log.trans h.log
  next := hpq.next.trans h.next
  low := h.low
  high := h.high
  fits := h.fits
  matching := hpq.follower ▸ h.matching
  behind := hpq.behind

theorem prevIndex (h : CatchingUp L peer n p) : p.leader.st.prevIndex peer = n - 1 := by
  have hlow := h.low
  have hfits := h.fits
  rw [State.prevIndex, h.next, Option.getD_some]
  omega

theorem slice (h : CatchingUp L peer n p) : Slice L L.length (p.request id peer) := by
  have hhigh := h.high
  have hle : p.leader.st.prevIndex peer ≤ Log.lastIndex p.leader.st.log := by
    rw [h.prevIndex, h.log]
    omega
  have hs : Slice p.leader.st.log p.leader.st.log.length (p.request id peer) :=
    slice_of_build (List.prefix_refl _) hle
  rwa [h.log] at hs

theorem success_iff (h : CatchingUp L peer n p) :
    (p.response id peer).success = true ↔ p.follower.consistent (p.request id peer) :=
  handleAppendEntries_success.trans (and_iff_right h.behind)

/-- The first acceptance gives the follower the leader's log. -/
theorem accept (hL : LeaderLog L) (h : CatchingUp L peer n p)
    (hsucc : (p.response id peer).success = true) :
    (p.exchange id peer).follower.log.take (Log.lastIndex L) = L :=
  h.slice.take_of_accept hL h.matching h.behind (h.success_iff.mp hsucc)

/-- A rejection lowers `nextIndex`, which is not 1 then. -/
theorem reject (h : CatchingUp L peer n p) (hrej : (p.response id peer).success = false) :
    1 < n ∧ CatchingUp L peer (n - 1) (p.exchange id peer) := by
  have hc : ¬ p.follower.consistent (p.request id peer) := by
    rw [← h.success_iff, hrej]
    exact Bool.false_ne_true
  have hn : 1 < n := by
    -- a request from the start of the log passes the check
    by_contra hle
    have hprev : (p.request id peer).prevLogIndex = 0 := by
      have := h.prevIndex
      rw [Pair.request, State.appendEntriesRequest]
      dsimp only
      omega
    exact hc fun hgt => absurd hprev hgt.1.ne'
  have hleader : (p.exchange id peer).leader.st =
      { p.leader.st with nextIndex := p.leader.st.nextIndex.insert peer (n - 1) } := by
    rw [Pair.exchange_leader h.behind, hrej, if_neg Bool.false_ne_true, State.noteFailure, h.next,
      Option.getD_some, if_pos hn]
  have hterm := @Pair.exchange_term id peer p h.behind
  have hhigh := h.high
  have hfits := h.fits
  refine ⟨hn, ?_, ?_, by omega, by omega, by omega, ?_, (hterm.2.trans hterm.1.symm).le⟩
  · rw [hleader]
    exact h.log
  · rw [hleader, GoMap.find_insert, if_pos rfl]
  · have hlog : (p.exchange id peer).follower.log = p.follower.log :=
      (keeps_of_inconsistent h.behind hc).1
    exact hlog ▸ h.matching

end CatchingUp

/-! ## 3. The loop -/

variable {L : Log} {id peer : Str} {n : Nat}

/-- By induction on `nextIndex`: the exchanges from the second on are a shorter loop. -/
theorem exists_accept (hL : LeaderLog L) : ∀ {n : Nat} {ps : Nat → Pair},
    Pair.Exchanges id peer ps → CatchingUp L peer n (ps 0) →
      ∃ m < n, (∀ i < m, ((ps i).response id peer).success = false) ∧
        ((ps m).response id peer).success = true ∧
        ((ps m).exchange id peer).follower.log.take (Log.lastIndex L) = L := by
  intro n
  induction n with
  | zero => exact fun _ h => absurd h.low (by omega)
  | succ n ih =>
    intro ps hps h
    cases hsucc : ((ps 0).response id peer).success with
    | true =>
      exact ⟨0, Nat.succ_pos n, fun i hi => absurd hi (Nat.not_lt_zero i), hsucc, h.accept hL hsucc⟩
    | false =>
      obtain ⟨-, hnext⟩ := h.reject hsucc
      obtain ⟨m, hm, hrej, hacc, hlog⟩ :=
        @ih (fun i => ps (i + 1)) (fun i => hps (i + 1)) (hnext.meanwhile (hps 0))
      refine ⟨m + 1, Nat.succ_lt_succ hm, fun i hi => ?_, hacc, hlog⟩
      cases i with
      | zero => exact hsucc
      | succ i => exact hrej i (Nat.lt_of_succ_lt_succ hi)

/-- **Catch-up converges.**  For every log `L` of the leader with terms from 1 on, every log of the
follower that matches it and every `nextIndex` from 1 to one behind the end of `L` (a `uint64`): one
of the first `nextIndex` requests is accepted, and after the first that is, the follower's first
`LastIndex(L)` entries are `L`. -/
theorem catch_up_converges {ps : Nat → Pair} (hL : Log.Made L) (hpos : ∀ e ∈ L, 1 ≤ e.term)
    (hlog : (ps 0).leader.st.log = L) (hmatch : Log.Matching (ps 0).follower.log L)
    (hnext : (ps 0).leader.st.nextIndex.find peer = some n) (hlow : 1 ≤ n)
    (hhigh : n ≤ Log.lastIndex L + 1) (hfits : n < 2 ^ 64)
    (hbehind : (ps 0).follower.currentTerm ≤ (ps 0).leader.st.currentTerm)
    (hps : Pair.Exchanges id peer ps) :
    ∃ m < n, (∀ i < m, ((ps i).response id peer).success = false) ∧
      ((ps m).response id peer).success = true ∧
      ((ps m).exchange id peer).follower.log.take (Log.lastIndex L) = L := by
  have hleader : LeaderLog L := ⟨hL.wellIndexed, fun e he => Nat.ne_of_gt (hpos e he)⟩
  exact exists_accept hleader hps ⟨hlog, hnext, hlow, hhigh, hfits, hmatch, hbehind⟩

/-- The leader of both commands has just been elected; `n2` has neither. -/
def justElected : Pair where
  leader := { newNode with
    st := { leaderAt 2 0 with nextIndex := Finmap.singleton "n2".toList 3 }
    phase := .idle }
  follower := emptyFollower

/-- The third request is the one that is accepted. -/
theorem catch_up_converges_justElected :
    ((Pair.exchange "n1".toList "n2".toList)^[3] justElected).follower.log.take 2 =
      twoCommands := by
  have hmade : Log.Made twoCommands :=
    .append ⟨0, 1, .command, "y".toList⟩ (.append ⟨0, 1, .command, "x".toList⟩ .newLog)
  have hnext : justElected.leader.st.nextIndex.find "n2".toList = some 3 := by
    rw [justElected, GoMap.find_singleton, if_pos rfl]
  have hmatch : Log.Matching justElected.follower.log twoCommands := .of_isPrefix List.nil_prefix
  have hps : Pair.Exchanges "n1".toList "n2".toList
      fun i => (Pair.exchange "n1".toList "n2".toList)^[i] justElected :=
    Pair.exchanges_iterate le_rfl
  obtain ⟨m, hm, -, hacc, hlog⟩ := catch_up_converges hmade (by decide +kernel) rfl hmatch hnext
    (by decide) (by decide) (by decide) le_rfl hps
  have hrej : ∀ i < 2, ((((Pair.exchange "n1".toList "n2".toList)^[i] justElected).response
      "n1".toList "n2".toList).success) = false := by decide +kernel
  have htwo : m = 2 := by
    by_contra hne
    exact Bool.false_ne_true ((hrej m (by omega)).symm.trans hacc)
  subst htwo
  exact hlog

end SkyLock.Raft
