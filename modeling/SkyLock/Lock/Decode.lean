/-
# The number in a lock

The store writes its counter into the path of a queue node, and `TryLock` reads it back out of that
path for the `Sequence` of the lock it returns.  Encoder and decoder live in different packages:
`formatSequence` pads to ten characters and writes what does not fit in more of them, the decoder
trims the directory off the path, splits the rest at hyphens and accumulates digits in `uint64`.

For a name that is one clean path segment the two agree.  The hyphens in the name are gone with the
directory; what is left has exactly one.  For other names the decoder gives up: `TrimPrefix` does
not find the uncleaned directory in the clean path, and the number is that of whatever the split
leaves.

The node is identified by who made it (`Stands`), so that nothing has to be assumed about what other
clients do with the store.
-/
import SkyLock.Lock.Cleanup
import SkyLock.Lock.Fairness

namespace SkyLock.Lock

open Store Sys Slash

variable {s s' : Sys} {a : Action} {st : Store} {i : Nat} {l : Lock}

/-! ## 1. One creation -/

/-- What a call reads out of the path is what the store has put into the node. -/
theorem sequence_created (h : Tree st) {c : Call} {path : Str} (hname : IsElem c.name)
    (hok : (c.createQueueNode st).2 = .ok path) :
    ∃ node, (c.createQueueNode st).1.nodes.find path = some node ∧
      (c.lockAt path).sequence = node.sequence :=
  ⟨_, find_created h hok, parseSequence_created hname hok⟩

/-! ## 2. Whole runs -/

/-- The numbers of a lock with a clean name and of the node of its call agree. -/
def Decoded (x : Sys × GoMap Str Nat) : Prop :=
  ∀ i l node, x.1.lockOf i = some l → IsElem l.name → Stands x i l.path →
    x.1.store.nodes.find l.path = some node → l.sequence = node.sequence

theorem Decoded.step {x y : Sys × GoMap Str Nat} (hc : Clean x) (h : Decoded x)
    (hs : Lts.recorded step noteMade x a = some y) : Decoded y := by
  obtain ⟨s, made⟩ := x
  simp only [Lts.recorded, Option.map_eq_some_iff] at hs
  obtain ⟨s', hs, rfl⟩ := hs
  intro i l node hl hname hstands hnode
  rcases stands_of_step hc.tree hs hstands with ⟨hold, hsame⟩ | henq
  · -- the node is an old one, and so is the lock
    obtain ⟨⟨l₀, hl₀, -⟩, -⟩ := hc.own hold
    obtain rfl := Option.some.inj ((lockOf_of_step hs hl₀).symm.trans hl)
    obtain ⟨n, hn, hn'⟩ := hsame node hnode
    rw [h i l₀ n hl₀ hname hold hn, hn']
  · obtain ⟨c, rfl, hcall, hpc, hok⟩ := henq
    obtain ⟨hstore, hl'⟩ := step_enqueue hcall hpc hok hs
    generalize l.path = p at hok hnode hl'
    obtain rfl := Option.some.inj (hl.symm.trans hl')
    obtain ⟨n, hn, hseq⟩ := sequence_created hc.tree hname hok
    rw [hstore, hn] at hnode
    rw [hseq, Option.some.inj hnode]

/-- **`TryLock` decodes what the store has encoded.**  The digits of every `uint64` read back as the
number; and over every run, from every reachable store: the number of a lock that is built for a
clean name is the `Sequence` of the node created for it, and that of a lock which `TryLock` has
returned is still that of its queue node. -/
theorem lock_sequence_decodes {handler : DeleteHandler} {x : Sys × GoMap Str Nat}
    (hst : Lts.Reach Store.step newStore st)
    (hrun : Lts.Reach (Lts.recorded step noteMade) (manager st handler, ∅) x) :
    (∀ n < 2 ^ 64, (formatSequence n).foldl
      (fun seq c => (seq * 10 + (c.toNat + 2 ^ 64 - 48)) % 2 ^ 64) 0 = n) ∧
    (∀ (c : Call) (path : Str), IsElem c.name → (c.createQueueNode x.1.store).2 = .ok path →
      ∃ node, (c.createQueueNode x.1.store).1.nodes.find path = some node ∧
        (c.lockAt path).sequence = node.sequence) ∧
    ∀ i c l node, x.1.calls.find i = some c → c.pc = .queued l (.done none) → IsElem l.name →
      Stands x i l.path → x.1.store.nodes.find l.path = some node →
        l.sequence = node.sequence := by
  have hinv : Clean x ∧ Decoded x := by
    refine hrun.invariant (P := fun x => Clean x ∧ Decoded x) ⟨clean_manager hst, ?_⟩ ?_
    · intro i l node hl
      rw [(fresh_manager st handler).lockOf] at hl
      exact absurd hl nofun
    · exact fun _ _ _ h _ hs => ⟨h.1.step hs, Decoded.step h.1 h.2 hs⟩
  refine ⟨fun n hn => ?_, fun c path hname hok => sequence_created hinv.1.tree hname hok, ?_⟩
  · have hfold := foldl_parse (formatSequence n) 0 (formatSequence_digits n)
      (by rw [value_formatSequence]; omega)
    rwa [value_formatSequence, Nat.zero_mul, Nat.zero_add] at hfold
  · intro i c l node hc hpc hname hstands hnode
    have hl : x.1.lockOf i = some l := by
      rw [lockOf_of_find hc, hpc]
      rfl
    exact hinv.2 i l node hl hname hstands hnode

/-- A lock whose name has a hyphen. -/
def hyphenLock : Lock :=
  ⟨"a-b".toList, "alice".toList, "s1".toList, "/locks/a-b/lock-0000000001".toList, 1⟩

theorem lock_sequence_decodes_hyphen :
    ∃ x node, Lts.Reach (Lts.recorded step noteMade) (manager locksStore .watchManager, ∅) x ∧
      (x.1.calls.find 0).map Call.pc = some (.queued hyphenLock (.done none)) ∧
      x.1.store.nodes.find hyphenLock.path = some node ∧ hyphenLock.sequence = node.sequence := by
  obtain ⟨x, hrun, hcall, hmade, hmem⟩ : ∃ x,
      Lts.Reach (Lts.recorded step noteMade) (manager locksStore .watchManager, ∅) x ∧
      (x.1.calls.find 0).map Call.pc = some (.queued hyphenLock (.done none)) ∧
      x.2.find hyphenLock.path = some 0 ∧ hyphenLock.path ∈ x.1.store.nodes :=
    Lts.exists_reach [.tryLock 0 "a-b".toList "alice".toList "s1".toList 5, .advance 0, .advance 0,
      .advance 0, .advance 0, .advance 0] (by decide +kernel)
  obtain ⟨c, hc, hpc⟩ := Option.map_eq_some_iff.mp hcall
  obtain ⟨node, hnode⟩ := GoMap.mem_iff_find.mp hmem
  have hdecodes := (lock_sequence_decodes reach_locksStore hrun).2.2
  exact ⟨x, node, hrun, hcall, hnode,
    hdecodes 0 c hyphenLock node hc hpc (by decide) ⟨hmade, hmem⟩ hnode⟩

end SkyLock.Lock
