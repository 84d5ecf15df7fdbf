/-
# The apply loop

The loop reads `commitIndex` once, goes through the indices behind `lastApplied` up to it, and reads
the log ANEW at each of them; in between the log can shrink and grow.  Where `Get` answers nil it
carries on with the next index.  So it can pass by an index that is missing at that moment and apply
a later one, and `lastApplied` then covers the index for good (`applies_with_gap`).

A PASS is what happens between two readings of `commitIndex`.  The indices that have been applied
are 1, 2, …, `lastApplied`, in that order, exactly as long as no pass that has missed an index finds
a later one (`applied_without_gaps_iff`).
-/
import SkyLock.Raft.Voting

namespace SkyLock.Raft

/-! ## 1. The system -/

/-- A node on its own, without what it sends. -/
def Node.next (id : Str) (peers : List Str) (n : Node) (e : Event) : Option Node :=
  (Node.step id peers n e).map Outcome.node

/-- The apply loop is about to read an index whose entry is there. -/
def Node.finds (n : Node) : Bool :=
  match n.applying with
  | some (i, commitIndex) => i ≤ commitIndex ∧ (Log.get n.st.log i).isSome
  | none => false

/-- It is about to read an index whose entry is not there. -/
def Node.misses (n : Node) : Bool :=
  match n.applying with
  | some (i, commitIndex) => i ≤ commitIndex ∧ (Log.get n.st.log i).isNone
  | none => false

/-- Has the pass missed an index? -/
def Node.noteMissed (n : Node) : Event → Bool → Bool
  | .applyRead, _ => false
  | .applyNext, missed => missed || n.misses
  | _, missed => missed

/-- A node on its own, with a note of whether the current pass has missed an index. -/
def applyStep (id : Str) (peers : List Str) : Node × Bool → Event → Option (Node × Bool) :=
  Lts.recorded (Node.next id peers) Node.noteMissed

/-- A pass goes up to an index that has a successor in `uint64`; otherwise it would never end. -/
def CommitFits (s : Node × Bool) (e : Event) : Prop :=
  e = .applyRead → s.1.st.commitIndex + 1 < 2 ^ 64

instance (s : Node × Bool) (e : Event) : Decidable (CommitFits s e) :=
  inferInstanceAs (Decidable (_ → _))

/-- **The condition under which nothing is skipped**: an entry is found only in a pass that has
missed none. -/
def FindsInTurn (s : Node × Bool) (e : Event) : Prop :=
  e = .applyNext → s.1.finds = true → s.2 = false

instance (s : Node × Bool) (e : Event) : Decidable (FindsInTurn s e) :=
  inferInstanceAs (Decidable (_ → _ → _))

/-- The indices passed to `applyFunc` so far are 1, 2, …, `lastApplied`. -/
def Node.InOrder (n : Node) : Prop :=
  n.applied.map LogEntry.index = List.range' 1 n.st.lastApplied

/-! ## 2. One event -/

variable {id : Str} {peers : List Str} {n : Node} {e : Event} {o : Outcome} {i k : Nat}
  {missed : Bool}

theorem finds_of_applying (h : n.applying = some (i, k)) (hi : i ≤ k) :
    n.finds = (Log.get n.st.log i).isSome := by
  simp [Node.finds, h, hi]

theorem misses_of_applying (h : n.applying = some (i, k)) (hi : i ≤ k) :
    n.misses = (Log.get n.st.log i).isNone := by
  cases hget : Log.get n.st.log i <;> simp [Node.misses, h, hi, hget]

theorem noteMissed_of_ne (hread : e ≠ .applyRead) (hnext : e ≠ .applyNext) :
    n.noteMissed e missed = missed := by
  unfold Node.noteMissed
  split
  · exact absurd rfl hread
  · exact absurd rfl hnext
  · rfl

/-- **Where a pass is**: the index it is about to read is the next one to apply, unless it has
missed one. -/
structure Progress (s : Node × Bool) : Prop where
  indexed : Log.WellIndexed s.1.st.log
  order : s.1.InOrder
  fits : ∀ i k, s.1.applying = some (i, k) → k + 1 < 2 ^ 64
  ahead : ∀ i k, s.1.applying = some (i, k) → s.1.st.lastApplied < i
  missed : ∀ i k, s.1.applying = some (i, k) → (s.2 = true ↔ s.1.st.lastApplied + 1 < i)

theorem Node.InOrder.of_same (h : n.InOrder) {n' : Node} (happlied : n'.applied = n.applied)
    (hlast : n'.st.lastApplied = n.st.lastApplied) : n'.InOrder := by
  rw [Node.InOrder, happlied, hlast]
  exact h

/-- Applying one more entry keeps the order exactly if it is the next one. -/
theorem inOrder_iff_of_apply (h : n.InOrder) {entry : LogEntry} {n' : Node}
    (happlied : n'.applied = n.applied ++ [entry]) (hlast : n'.st.lastApplied = entry.index) :
    n'.InOrder ↔ entry.index = n.st.lastApplied + 1 := by
  have hlen : n.applied.length = n.st.lastApplied := by
    have := congrArg List.length h
    rwa [List.length_map, List.length_range'] at this
  rw [Node.InOrder, happlied, hlast, List.map_append]
  constructor
  · intro heq
    have := congrArg List.length heq
    simp only [List.length_append, List.length_map, List.length_range', List.map_cons,
      List.map_nil, List.length_singleton] at this
    omega
  · intro heq
    rw [heq, List.range'_1_concat, ← h, List.map_singleton, heq, Nat.add_comm 1]

/-- The next index of a pass that fits. -/
theorem succ_mod_of_fits (hi : i ≤ k) (hk : k + 1 < 2 ^ 64) : (i + 1) % 2 ^ 64 = i + 1 :=
  Nat.mod_eq_of_lt (by omega)

theorem Progress.idle (h : Progress (n, missed)) {n' : Node} (hindexed : Log.WellIndexed n'.st.log)
    (hsame : n.SameProgress n') : Progress (n', missed) where
  indexed := hindexed
  order := h.order.of_same hsame.applied hsame.lastApplied
  fits i k hik := h.fits i k (hsame.applying ▸ hik)
  ahead i k hik := hsame.lastApplied ▸ h.ahead i k (hsame.applying ▸ hik)
  missed i k hik := by
    rw [hsame.lastApplied]
    exact h.missed i k (hsame.applying ▸ hik)

theorem Progress.read (h : Progress (n, missed)) (hfits : n.st.commitIndex + 1 < 2 ^ 64) {n' : Node}
    (hindexed : Log.WellIndexed n'.st.log)
    (happlying : n'.applying = some (n.st.lastApplied + 1, n.st.commitIndex))
    (happlied : n'.applied = n.applied) (hlast : n'.st.lastApplied = n.st.lastApplied) :
    Progress (n', false) := by
  have hpass : ∀ i k, n'.applying = some (i, k) →
      i = n.st.lastApplied + 1 ∧ k = n.st.commitIndex := by
    intro i k hik
    rw [happlying, Option.some.injEq, Prod.mk.injEq] at hik
    exact ⟨hik.1.symm, hik.2.symm⟩
  refine ⟨hindexed, h.order.of_same happlied hlast, ?_, ?_, ?_⟩
  · intro i k hik
    exact (hpass i k hik).2 ▸ hfits
  · intro i k hik
    have := (hpass i k hik).1
    dsimp only
    omega
  · intro i k hik
    have := (hpass i k hik).1
    dsimp only
    constructor
    · intro hfalse
      exact absurd hfalse (by simp)
    · intro hlt
      omega

/-- The pass goes on to the next index. -/
theorem Progress.goOn (h : Progress (n, missed)) (hbefore : n.applying = some (i, k)) (hi : i ≤ k)
    {n' : Node} {missed' : Bool} (hindexed : Log.WellIndexed n'.st.log)
    (happlying : n'.applying = some ((i + 1) % 2 ^ 64, k)) (horder : n'.InOrder)
    (hahead : n'.st.lastApplied ≤ i) (hmissed : missed' = true ↔ n'.st.lastApplied < i) :
    Progress (n', missed') := by
  have hk := h.fits i k hbefore
  rw [succ_mod_of_fits hi hk] at happlying
  have hpass : ∀ j k', n'.applying = some (j, k') → j = i + 1 ∧ k' = k := by
    intro j k' hjk
    rw [happlying, Option.some.injEq, Prod.mk.injEq] at hjk
    exact ⟨hjk.1.symm, hjk.2.symm⟩
  refine ⟨hindexed, horder, ?_, ?_, ?_⟩
  · intro j k' hjk
    exact (hpass j k' hjk).2 ▸ hk
  · intro j k' hjk
    have := (hpass j k' hjk).1
    dsimp only
    omega
  · intro j k' hjk
    have := (hpass j k' hjk).1
    dsimp only
    rw [hmissed]
    omega

/-- **What an event does to the order**: it keeps it exactly if it finds in turn, and then the pass
is where it should be. -/
theorem Progress.move (h : Progress (n, missed)) (hfits : CommitFits (n, missed) e)
    (hmove : Move id peers n e o) :
    (o.node.InOrder ↔ FindsInTurn (n, missed) e) ∧
      (FindsInTurn (n, missed) e → Progress (o.node, n.noteMissed e missed)) := by
  have hindexed := wellIndexed_of_move hmove h.indexed
  cases pass_of_move hmove with
  | idle hread hnext same =>
    have hok : FindsInTurn (n, missed) e := fun he => absurd he hnext
    rw [noteMissed_of_ne hread hnext]
    have hafter := h.idle hindexed same
    exact ⟨iff_of_true hafter.order hok, fun _ => hafter⟩
  | read applying applied lastApplied =>
    have hok : FindsInTurn (n, missed) .applyRead := fun he => absurd he (by simp)
    have hafter := h.read (hfits rfl) hindexed applying applied lastApplied
    exact ⟨iff_of_true hafter.order hok, fun _ => hafter⟩
  | apply i k entry before hi hentry applying applied lastApplied =>
    have hidx : entry.index = i := h.indexed i entry hentry
    have hfinds : n.finds = true := by rw [finds_of_applying before hi, hentry, Option.isSome_some]
    have hmisses : n.misses = false := by
      rw [misses_of_applying before hi, hentry, Option.isNone_some]
    have hahead := h.ahead i k before
    have hmissed := h.missed i k before
    dsimp only at hahead hmissed
    have horder : o.node.InOrder ↔ i = n.st.lastApplied + 1 :=
      hidx ▸ inOrder_iff_of_apply h.order applied (lastApplied.trans hidx.symm)
    have hok : FindsInTurn (n, missed) .applyNext ↔ i = n.st.lastApplied + 1 := by
      constructor
      · intro hturn
        have hnone : missed = false := hturn rfl hfinds
        rw [hnone] at hmissed
        have := mt hmissed.mpr (by simp)
        omega
      · intro hi _ _
        dsimp only
        rw [← Bool.not_eq_true, hmissed]
        omega
    refine ⟨horder.trans hok.symm, fun hturn => ?_⟩
    have hnone : missed = false := hturn rfl hfinds
    refine h.goOn before hi hindexed applying (horder.mpr (hok.mp hturn)) lastApplied.le ?_
    simp [Node.noteMissed, hnone, hmisses, lastApplied]
  | skip i k before hi hmissing applying applied lastApplied =>
    have hfinds : n.finds = false := by
      rw [finds_of_applying before hi, hmissing, Option.isSome_none]
    have hmisses : n.misses = true := by
      rw [misses_of_applying before hi, hmissing, Option.isNone_none]
    have hok : FindsInTurn (n, missed) .applyNext :=
      fun _ hf => absurd (hfinds.symm.trans hf) (by simp)
    have hahead : o.node.st.lastApplied < i := lastApplied ▸ h.ahead i k before
    have horder := h.order.of_same applied lastApplied
    refine ⟨iff_of_true horder hok, fun _ => ?_⟩
    refine h.goOn before hi hindexed applying horder hahead.le ?_
    simp [Node.noteMissed, hmisses, hahead]
  | done i k before hi applying applied lastApplied =>
    have hfinds : n.finds = false := by simp [Node.finds, before, hi]
    have hok : FindsInTurn (n, missed) .applyNext :=
      fun _ hf => absurd (hfinds.symm.trans hf) (by simp)
    have horder := h.order.of_same applied lastApplied
    have hidle : ∀ j k', o.node.applying ≠ some (j, k') := fun j k' => by simp [applying]
    refine ⟨iff_of_true horder hok, fun _ => ?_⟩
    exact ⟨hindexed, horder, fun j k' hjk => absurd hjk (hidle j k'),
      fun j k' hjk => absurd hjk (hidle j k'), fun j k' hjk => absurd hjk (hidle j k')⟩

/-! ## 3. All events -/

theorem progress_newNode : Progress (newNode, false) where
  indexed := Log.wellIndexed_nil
  order := rfl
  fits i k hik := absurd hik (by simp [newNode])
  ahead i k hik := absurd hik (by simp [newNode])
  missed i k hik := absurd hik (by simp [newNode])

/-- **When entries are applied without gaps.**  Whatever a node receives, and however the steps of
its apply loop fall in between, the indices it has applied are at all times 1, 2, …, `lastApplied`
if and only if no pass that has missed an index finds a later one. -/
theorem applied_without_gaps_iff (id : Str) (peers : List Str) (events : List Event)
    (hfits : Lts.Meets (applyStep id peers) CommitFits (newNode, false) events) :
    (∀ s ∈ Lts.states (applyStep id peers) (newNode, false) events,
        s.1.applied.map LogEntry.index = List.range' 1 s.1.st.lastApplied) ↔
      Lts.Meets (applyStep id peers) FindsInTurn (newNode, false) events := by
  refine Lts.forall_states_iff_of_meets CommitFits ?_ events hfits progress_newNode
    progress_newNode.order
  rintro ⟨n, missed⟩ e s' h hfits hstep
  simp only [applyStep, Lts.recorded, Node.next, Option.map_map, Option.map_eq_some_iff] at hstep
  obtain ⟨o, ho, rfl⟩ := hstep
  exact h.move hfits (move_of_step ho)

/-- The leader `n1` of term 1 sends `n2` the entries behind `prevLogIndex`. -/
def entriesFor (prevLogIndex prevLogTerm : Nat) (entries : List LogEntry) (leaderCommit : Nat) :
    Event :=
  .receive (.appendReq n1 n2 ⟨1, n1, prevLogIndex, prevLogTerm, entries, leaderCommit⟩)

/-- Three entries arrive and are applied one after the other. -/
def applyThree : List Event :=
  [entriesFor 0 0 [⟨1, 1, .command, "a".toList⟩, ⟨2, 1, .command, "b".toList⟩,
      ⟨3, 1, .command, "c".toList⟩] 3,
    .applyRead, .applyNext, .applyNext, .applyNext, .applyNext]

theorem applied_without_gaps_iff_three :
    Lts.Meets (applyStep n2 [n1]) FindsInTurn (newNode, false) applyThree ∧
      ∀ s ∈ Lts.states (applyStep n2 [n1]) (newNode, false) applyThree,
        s.1.applied.map LogEntry.index = List.range' 1 s.1.st.lastApplied := by
  have hturn : Lts.Meets (applyStep n2 [n1]) FindsInTurn (newNode, false) applyThree := by
    decide +kernel
  exact ⟨hturn, (applied_without_gaps_iff n2 [n1] applyThree (by decide +kernel)).mpr hturn⟩

/-- The first entry is applied.  Then an older request, which had only that one, cuts the log; the
second entry is missed; the log grows again; and the third entry is found. -/
def cutWhileApplying : List Event :=
  [entriesFor 0 0 [⟨1, 1, .command, "a".toList⟩, ⟨2, 1, .command, "b".toList⟩,
      ⟨3, 1, .command, "c".toList⟩] 3,
    .applyRead, .applyNext, entriesFor 0 0 [⟨1, 1, .command, "a".toList⟩] 0, .applyNext,
    entriesFor 1 1 [⟨2, 1, .command, "b".toList⟩, ⟨3, 1, .command, "c".toList⟩] 3, .applyNext]

/-- **An entry that is never applied**: the second of three. -/
theorem applies_with_gap :
    ∃ n, Lts.Reach (Node.next n2 [n1]) newNode n ∧
      n.applied.map LogEntry.index = [1, 3] ∧ n.st.lastApplied = 3 :=
  Lts.exists_reach cutWhileApplying (by decide +kernel)

end SkyLock.Raft
