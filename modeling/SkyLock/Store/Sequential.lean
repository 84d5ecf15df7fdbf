/-
# Sequential paths are not reused

Every sequential `Create` that gets past the check of the parent takes a new value of the store's
counter, also one that then fails because its path is taken.  The counter only goes up until it has
gone round `2 ^ 64`, so the numbers given out are strictly increasing (`Issued.sorted`), and a path
determines the number at its end.

The history is a record beside the store: what each successful sequential `Create` was asked for
and what it returned, and how many sequential calls there have been.
-/
import SkyLock.Store.Ops

namespace SkyLock.Store

open Slash

variable {s s' : Store}

/-! ## 1. The history -/

/-- A successful sequential `Create`: the normalised path it was called with, the path it returned
and the `Sequence` of the node it stored. -/
structure Issue where
  requested : Str
  path : Str
  sequence : Nat
  deriving DecidableEq

structure History where
  issued : List Issue
  calls : Nat

/-- Before the first call. -/
def noHistory : History := ⟨[], 0⟩

def noteIssue (s : Store) (op : StoreOp) (h : History) : History :=
  match op with
  | .create p d eph sid true =>
    match s.create p d eph sid true with
    | (t, .ok q) =>
      { issued := h.issued ++
          [⟨normalizePath p, q, ((t.nodes.find q).map Node.sequence).getD 0⟩],
        calls := h.calls + 1 }
    | (_, .error _) => { h with calls := h.calls + 1 }
  | _ => h

/-! ## 2. What a call is given -/

/-- What is true of a store and its history while there have been fewer than `2 ^ 64` sequential
calls. -/
structure Issued (s : Store) (h : History) : Prop where
  counter : s.seqCounter ≤ h.calls
  named : ∀ i ∈ h.issued, i.path = i.requested ++ formatSequence i.sequence
  drawn : ∀ i ∈ h.issued, i.sequence ≤ s.seqCounter
  sorted : h.issued.Pairwise fun i j => i.sequence < j.sequence

/-- Any other call leaves the history alone. -/
theorem noteIssue_of_ne {op : StoreOp} (hop : ∀ p d eph sid, op ≠ .create p d eph sid true)
    (h : History) : noteIssue s op h = h := by
  unfold noteIssue
  split
  · rename_i p d eph sid
    exact absurd rfl (hop p d eph sid)
  · rfl

theorem noteIssue_error (h : History) {p d sid : Str} {eph : Bool} {err : StoreErr}
    (herr : (s.create p d eph sid true).2 = .error err) :
    noteIssue s (.create p d eph sid true) h = { h with calls := h.calls + 1 } := by
  simp only [noteIssue]
  split
  · rename_i heq
    rw [heq] at herr
    cases herr
  · rfl

/-- A successful call notes the number it has drawn. -/
theorem noteIssue_ok (ht : Tree s) (h : History) {p d sid q : Str} {eph : Bool}
    (hok : (s.create p d eph sid true).2 = .ok q) :
    noteIssue s (.create p d eph sid true) h =
      ⟨h.issued ++ [⟨normalizePath p, q, (s.bump true).seqCounter⟩], h.calls + 1⟩ := by
  have hfind := find_created ht hok
  simp only [noteIssue]
  split
  · rename_i t q' heq
    rw [heq] at hok hfind
    obtain rfl := Except.ok.inj hok
    rw [hfind]
    rfl
  · rename_i heq
    rw [heq] at hok
    cases hok

/-- The next number goes to the end of the history. -/
theorem Issued.draw {h : History} (hi : Issued s h) (hseq : s'.seqCounter = s.seqCounter + 1)
    {i : Issue} (hnumber : i.sequence = s'.seqCounter)
    (hname : i.path = i.requested ++ formatSequence i.sequence) :
    Issued s' ⟨h.issued ++ [i], h.calls + 1⟩ := by
  have hold : ∀ j ∈ h.issued, j.sequence < s'.seqCounter := by
    intro j hj
    rw [hseq]
    exact Nat.lt_succ_of_le (hi.drawn j hj)
  constructor
  · rw [hseq]
    exact Nat.succ_le_succ hi.counter
  · intro j hj
    rcases List.mem_append.mp hj with hj | hj
    · exact hi.named j hj
    · rw [List.mem_singleton.mp hj]
      exact hname
  · intro j hj
    rcases List.mem_append.mp hj with hj | hj
    · exact (hold j hj).le
    · rw [List.mem_singleton.mp hj]
      exact hnumber.le
  · refine List.pairwise_append.mpr ⟨hi.sorted, List.pairwise_singleton _ _, ?_⟩
    intro j hj k hk
    rw [List.mem_singleton.mp hk, hnumber]
    exact hold j hj

/-- A sequential `Create` draws the next number, and notes it if it succeeds. -/
theorem Issued.create (ht : Tree s) {h : History} (hi : Issued s h) (p d : Str) (eph : Bool)
    (sid : Str) (hcalls : h.calls + 1 < 2 ^ 64) :
    Issued (s.create p d eph sid true).1 (noteIssue s (.create p d eph sid true) h) := by
  have hbump : (s.bump true).seqCounter = s.seqCounter + 1 :=
    Nat.mod_eq_of_lt (by have := hi.counter; omega)
  cases hok : (s.create p d eph sid true).2 with
  | error err =>
    have hcounter : s.seqCounter ≤ (s.create p d eph sid true).1.seqCounter ∧
        (s.create p d eph sid true).1.seqCounter ≤ s.seqCounter + 1 := by
      rcases create_seqCounter s p d eph sid true with heq | heq
      · omega
      · rw [hbump] at heq
        omega
    rw [noteIssue_error h hok]
    exact ⟨hcounter.2.trans (Nat.succ_le_succ hi.counter), hi.named,
      fun i hmem => (hi.drawn i hmem).trans hcounter.1, hi.sorted⟩
  | ok q =>
    have hcounter := create_seqCounter_ok hok
    rw [noteIssue_ok ht h hok]
    refine hi.draw (hcounter.trans hbump) hcounter.symm ?_
    rw [create_ok_path hok, actualPath, if_pos rfl]

theorem Issued.step (ht : Tree s) {h : History} {op : StoreOp} (hs : step s op = some s')
    (hi : h.calls < 2 ^ 64 → Issued s h) (hcalls : (noteIssue s op h).calls < 2 ^ 64) :
    Issued s' (noteIssue s op h) := by
  by_cases hop : ∃ p d eph sid, op = .create p d eph sid true
  · obtain ⟨p, d, eph, sid, rfl⟩ := hop
    cases hs
    have hcount : (noteIssue s (.create p d eph sid true) h).calls = h.calls + 1 := by
      simp only [noteIssue]
      split <;> rfl
    rw [hcount] at hcalls
    exact (hi (by omega)).create ht p d eph sid hcalls
  · have hother : ∀ p d eph sid, op ≠ .create p d eph sid true := fun p d eph sid heq =>
      hop ⟨p, d, eph, sid, heq⟩
    have hcounter := step_seqCounter_of_ne hs hother
    rw [noteIssue_of_ne hother] at hcalls ⊢
    have hi := hi hcalls
    exact ⟨hcounter ▸ hi.counter, hi.named, hcounter ▸ hi.drawn, hi.sorted⟩

/-! ## 3. Whole runs -/

/-- **Sequential paths are not reused.**  Over every run with fewer than `2 ^ 64` sequential calls
the `Sequence` numbers are strictly increasing in the order of creation, and two calls with the same
normalised path got different paths, whatever was deleted in between. -/
theorem sequential_never_reused {x : Store × History}
    (hrun : Lts.Reach (Lts.recorded step noteIssue) (newStore, noHistory) x)
    (hcalls : x.2.calls < 2 ^ 64) :
    x.2.issued.Pairwise fun i j =>
      i.sequence < j.sequence ∧ (i.requested = j.requested → i.path ≠ j.path) := by
  have hinv : Tree x.1 ∧ (x.2.calls < 2 ^ 64 → Issued x.1 x.2) := by
    refine hrun.invariant (P := fun x => Tree x.1 ∧ (x.2.calls < 2 ^ 64 → Issued x.1 x.2))
      ⟨tree_newStore, fun _ => ⟨le_rfl, nofun, nofun, .nil⟩⟩ ?_
    rintro ⟨s, h⟩ op y ⟨ht, hi⟩ - hs
    simp only [Lts.recorded, Option.map_eq_some_iff] at hs
    obtain ⟨s', hs, rfl⟩ := hs
    exact ⟨ht.step hs, fun hcalls => Issued.step ht hs hi hcalls⟩
  have hi := hinv.2 hcalls
  refine hi.sorted.imp_of_mem fun {i j} hmi hmj hlt => ⟨hlt, fun hreq hpath => ?_⟩
  rw [hi.named i hmi, hi.named j hmj, hreq] at hpath
  exact hlt.ne (formatSequence_injective (List.append_cancel_left hpath))

/-- A queue node is made, deleted and made again. -/
theorem sequential_never_reused_deleted :
    ∃ x, Lts.Reach (Lts.recorded step noteIssue) (newStore, noHistory) x ∧ x.2.calls < 2 ^ 64 ∧
      x.2.issued = [⟨"/a-".toList, "/a-0000000001".toList, 1⟩,
        ⟨"/a-".toList, "/a-0000000002".toList, 2⟩] ∧
      x.2.issued.Pairwise fun i j =>
        i.sequence < j.sequence ∧ (i.requested = j.requested → i.path ≠ j.path) := by
  obtain ⟨x, hrun, hcalls, hissued⟩ : ∃ x,
      Lts.Reach (Lts.recorded step noteIssue) (newStore, noHistory) x ∧ x.2.calls < 2 ^ 64 ∧
      x.2.issued = [⟨"/a-".toList, "/a-0000000001".toList, 1⟩,
        ⟨"/a-".toList, "/a-0000000002".toList, 2⟩] :=
    Lts.exists_reach [.create "/a-".toList [] true "s1".toList true,
      .delete "/a-0000000001".toList (-1), .create "a-".toList [] true "s1".toList true]
      (by decide +kernel)
  exact ⟨x, hrun, hcalls, hissued, sequential_never_reused hrun hcalls⟩

end SkyLock.Store
