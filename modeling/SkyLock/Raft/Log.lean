/-
# The Raft log

`internal/raft/log.go`.  The log is a list of entries addressed from 1.  Both ways of adding
entries overwrite the `Index` field with the position, so every log is WELL INDEXED, whatever the
entries carried before (`WellIndexed.append`, `WellIndexed.appendEntries`).

`AppendEntries` cuts the log at `prevIndex` UNCONDITIONALLY: entries behind it go, also those that
agree with what is appended.  And `TermAt` answers 0 outside the log, which a caller cannot tell
from an entry of term 0.

A log is shorter than `2 ^ 63` in Go, so positions do not wrap.
-/
import SkyLock.Lib.Path

namespace SkyLock.Raft

/-! ## 1. The source -/

inductive LogEntryType
  | command
  | config
  | noop
  deriving DecidableEq

structure LogEntry where
  index : Nat
  term : Nat
  type : LogEntryType
  command : Str
  deriving DecidableEq

abbrev Log := List LogEntry

namespace Log

def append (l : Log) (e : LogEntry) : Log := l ++ [{ e with index := l.length + 1 }]

/-- The entries with the indices they get behind `prevIndex`. -/
def reindex (prevIndex : Nat) : List LogEntry → List LogEntry
  | [] => []
  | e :: es => { e with index := prevIndex + 1 } :: reindex (prevIndex + 1) es

def appendEntries (l : Log) (prevIndex : Nat) (entries : List LogEntry) : Log × Bool :=
  if prevIndex > l.length then (l, false)
  else (l.take prevIndex ++ reindex prevIndex entries, true)

/-- `Get`; a nil pointer is `none`. -/
def get (l : Log) (index : Nat) : Option LogEntry :=
  if index = 0 ∨ index > l.length then none else l[index - 1]?

/-- `GetRange`: both ends are included, and the upper one is cut to the length. -/
def getRange (l : Log) (start stop : Nat) : List LogEntry :=
  if start = 0 ∨ start > stop ∨ start > l.length then []
  else
    let stop := if stop > l.length then l.length else stop
    (l.take stop).drop (start - 1)

def lastIndex (l : Log) : Nat := l.length

def lastTerm (l : Log) : Nat :=
  match l.getLast? with
  | none => 0
  | some e => e.term

def termAt (l : Log) (index : Nat) : Nat :=
  if index = 0 ∨ index > l.length then 0 else (l[index - 1]?.map LogEntry.term).getD 0

def entriesAfter (l : Log) (index : Nat) : List LogEntry :=
  if index ≥ l.length then [] else l.drop index

/-! ## 2. Reading -/

variable {l l' : Log} {i k : Nat} {e : LogEntry} {es : List LogEntry}

theorem get_eq_some_iff : get l i = some e ↔ 0 < i ∧ l[i - 1]? = some e := by
  unfold get
  split
  · rename_i h
    constructor
    · intro he
      exact absurd he (by simp)
    · rintro ⟨h0, he⟩
      have hlt := (List.getElem?_eq_some_iff.mp he).1
      omega
  · rename_i h
    exact ⟨fun he => ⟨by omega, he⟩, fun he => he.2⟩

theorem le_length_of_get (h : get l i = some e) : 0 < i ∧ i ≤ l.length := by
  obtain ⟨h0, he⟩ := get_eq_some_iff.mp h
  have hlt := (List.getElem?_eq_some_iff.mp he).1
  omega

theorem exists_get (h0 : 0 < i) (hi : i ≤ l.length) : ∃ e, get l i = some e := by
  have hlt : i - 1 < l.length := by omega
  exact ⟨l[i - 1], get_eq_some_iff.mpr ⟨h0, List.getElem?_eq_getElem hlt⟩⟩

theorem get_mem (h : get l i = some e) : e ∈ l :=
  List.mem_of_getElem? (get_eq_some_iff.mp h).2

theorem termAt_eq_get (l : Log) (i : Nat) :
    termAt l i = ((get l i).map LogEntry.term).getD 0 := by
  unfold termAt get
  split <;> rfl

theorem termAt_of_get (h : get l i = some e) : termAt l i = e.term := by
  rw [termAt_eq_get, h]
  rfl

/-- Where `TermAt` is not 0 there is an entry. -/
theorem get_of_termAt (h : termAt l i ≠ 0) : ∃ e, get l i = some e ∧ e.term = termAt l i := by
  rw [termAt_eq_get] at h ⊢
  cases he : get l i with
  | none =>
    rw [he] at h
    exact absurd rfl h
  | some e => exact ⟨e, rfl, rfl⟩

theorem get_take (hi : i ≤ k) : get (l.take k) i = get l i := by
  ext e
  rw [get_eq_some_iff, get_eq_some_iff]
  refine and_congr_right fun h0 => ?_
  have hlt : i - 1 < k := by omega
  rw [List.getElem?_take_of_lt hlt]

/-- Logs that agree up to `k` have the same entries there. -/
theorem get_eq_of_take_eq (h : l.take k = l'.take k) (hi : i ≤ k) : get l i = get l' i := by
  rw [← get_take hi, h, get_take hi]

theorem take_eq_of_le (h : l.take k = l'.take k) (hi : i ≤ k) : l.take i = l'.take i := by
  have h2 := congrArg (List.take i) h
  rwa [List.take_take, List.take_take, Nat.min_eq_left hi] at h2

/-! ## 3. Indices are positions -/

/-- Every entry carries its position. -/
def WellIndexed (l : Log) : Prop := ∀ i e, get l i = some e → e.index = i

theorem wellIndexed_nil : WellIndexed [] := by
  intro i e h
  have := le_length_of_get h
  simp at this
  omega

theorem WellIndexed.take (h : WellIndexed l) (k : Nat) : WellIndexed (l.take k) := by
  intro i e hi
  have hle := (le_length_of_get hi).2
  rw [List.length_take] at hle
  rw [get_take (by omega)] at hi
  exact h i e hi

theorem wellIndexed_concat (h : WellIndexed l) (hi : e.index = l.length + 1) :
    WellIndexed (l ++ [e]) := by
  intro i x hx
  obtain ⟨h0, hx⟩ := get_eq_some_iff.mp hx
  by_cases hlt : i - 1 < l.length
  · rw [List.getElem?_append_left hlt] at hx
    exact h i x (get_eq_some_iff.mpr ⟨h0, hx⟩)
  · rw [List.getElem?_append_right (by omega), List.getElem?_singleton] at hx
    split at hx
    · rw [← Option.some.inj hx, hi]
      omega
    · exact absurd hx (by simp)

theorem WellIndexed.append (h : WellIndexed l) (e : LogEntry) : WellIndexed (Log.append l e) :=
  wellIndexed_concat h rfl

theorem wellIndexed_append_reindex (es : List LogEntry) (h : WellIndexed l) :
    WellIndexed (l ++ reindex l.length es) := by
  induction es generalizing l with
  | nil => simpa [reindex] using h
  | cons e es ih =>
    have hcons : WellIndexed (l ++ [{ e with index := l.length + 1 }]) := wellIndexed_concat h rfl
    have ih := ih hcons
    rw [List.length_append, List.length_singleton, List.append_assoc] at ih
    exact ih

theorem WellIndexed.appendEntries (h : WellIndexed l) (k : Nat) (es : List LogEntry) :
    WellIndexed (Log.appendEntries l k es).1 := by
  unfold Log.appendEntries
  split
  · exact h
  · rename_i hk
    have hlen : (l.take k).length = k := by rw [List.length_take]; omega
    have hw := wellIndexed_append_reindex es (h.take k)
    rwa [hlen] at hw

/-- The logs there are: what `NewLog`, `Append` and `AppendEntries` make. -/
inductive Made : Log → Prop
  | newLog : Made []
  | append {l : Log} (e : LogEntry) : Made l → Made (append l e)
  | appendEntries {l : Log} (k : Nat) (es : List LogEntry) : Made l → Made (appendEntries l k es).1

theorem Made.wellIndexed (h : Made l) : WellIndexed l := by
  induction h with
  | newLog => exact wellIndexed_nil
  | append e _ ih => exact ih.append e
  | appendEntries k es _ ih => exact ih.appendEntries k es

/-- The indices of a well-indexed log are those of its positions. -/
theorem WellIndexed.index_le (h : WellIndexed l) (he : e ∈ l) :
    1 ≤ e.index ∧ e.index ≤ l.length := by
  obtain ⟨i, hi⟩ := List.mem_iff_getElem?.mp he
  have hget : get l (i + 1) = some e := get_eq_some_iff.mpr ⟨Nat.succ_pos i, hi⟩
  rw [h _ _ hget]
  exact le_length_of_get hget

/-- Entries cut out of a well-indexed log keep their indices when they are appended behind the
position they come from. -/
theorem reindex_drop (k : Nat) (h : WellIndexed l) (n : Nat) :
    reindex k ((l.drop k).take n) = (l.drop k).take n := by
  induction n generalizing k with
  | zero => simp [reindex]
  | succ n ih =>
    by_cases hk : k < l.length
    · have hidx : (l[k]).index = k + 1 :=
        h _ _ (get_eq_some_iff.mpr ⟨by omega, by simp [List.getElem?_eq_getElem hk]⟩)
      rw [List.drop_eq_getElem_cons hk, List.take_succ_cons, reindex, ih (k + 1)]
      rw [← hidx]
    · rw [List.drop_eq_nil_of_le (by omega)]
      simp [reindex]

/-! ## 4. The readers agree -/

/-- A stretch of the log is what `Get` returns at its positions. -/
theorem map_get_range' (l : Log) (n k : Nat) (hk : k + n ≤ l.length) :
    (List.range' (k + 1) n).map (get l) = ((l.drop k).take n).map some := by
  induction n generalizing k with
  | zero => simp
  | succ n ih =>
    have hlt : k < l.length := by omega
    have hget : get l (k + 1) = some l[k] :=
      get_eq_some_iff.mpr ⟨by omega, by simp [List.getElem?_eq_getElem hlt]⟩
    rw [List.range'_succ, List.map_cons, hget, ih (k + 1) (by omega),
      List.drop_eq_getElem_cons hlt, List.take_succ_cons, List.map_cons]

theorem getRange_eq {start stop : Nat} (h1 : 1 ≤ start) (h2 : start ≤ stop)
    (h3 : start ≤ l.length) :
    getRange l start stop =
      (l.drop (start - 1)).take (min stop l.length + 1 - start) := by
  have hmin : (if stop > l.length then l.length else stop) = min stop l.length := by
    split
    · exact (Nat.min_eq_right (by omega)).symm
    · exact (Nat.min_eq_left (by omega)).symm
  have hcount : min stop l.length - (start - 1) = min stop l.length + 1 - start := by omega
  rw [getRange, if_neg (by omega)]
  dsimp only
  rw [hmin, List.drop_take, hcount]

/-- **The log's readers agree.**  In every log that `Append` and `AppendEntries` make, whatever
indices the entries carried: an entry carries its position; `TermAt`, `GetRange` and
`EntriesAfter` are what `Get` returns at the positions they stand for; and an `AppendEntries` that
is refused leaves the log as it was. -/
theorem log_views_agree (h : Made l) :
    (∀ i, 1 ≤ i → i ≤ lastIndex l → ∃ e, get l i = some e ∧ e.index = i) ∧
    (∀ i, termAt l i = ((get l i).map LogEntry.term).getD 0) ∧
    (∀ start stop, 1 ≤ start → start ≤ stop → start ≤ lastIndex l →
      (getRange l start stop).map some =
        (List.range' start (min stop (lastIndex l) + 1 - start)).map (get l)) ∧
    (∀ start stop, ¬ (1 ≤ start ∧ start ≤ stop ∧ start ≤ lastIndex l) →
      getRange l start stop = []) ∧
    (∀ k, entriesAfter l k =
      if k < lastIndex l then getRange l (k + 1) (lastIndex l) else []) ∧
    ∀ k es, (appendEntries l k es).2 = false → (appendEntries l k es).1 = l := by
  refine ⟨fun i h1 hi => ?_, termAt_eq_get l, fun start stop h1 h2 h3 => ?_,
    fun start stop hno => ?_, fun k => ?_, fun k es hfalse => ?_⟩
  · obtain ⟨e, he⟩ := exists_get h1 hi
    exact ⟨e, he, h.wellIndexed i e he⟩
  · unfold lastIndex at h3 ⊢
    have hrange := map_get_range' l (min stop l.length + 1 - start) (start - 1) (by omega)
    rw [Nat.sub_add_cancel h1] at hrange
    rw [getRange_eq h1 h2 h3, hrange]
  · unfold lastIndex at hno
    rw [getRange, if_pos (by omega)]
  · unfold entriesAfter lastIndex
    by_cases hk : k < l.length
    · have hcount : min l.length l.length + 1 - (k + 1) = (l.drop k).length := by
        rw [Nat.min_self, List.length_drop]
        omega
      rw [if_neg (by omega), if_pos hk, getRange_eq (by omega) (by omega) (by omega), hcount,
        Nat.add_sub_cancel, List.take_length]
    · rw [if_pos (by omega), if_neg hk]
  · unfold appendEntries at hfalse ⊢
    split
    · rfl
    · rename_i hk
      rw [if_neg hk] at hfalse
      exact absurd hfalse nofun

/-- Two entries of which the second is overwritten; both were handed in with wrong indices. -/
theorem log_views_agree_overwritten :
    let l := (appendEntries (append (append [] ⟨7, 1, .noop, []⟩) ⟨7, 1, .command, []⟩) 1
      [⟨9, 2, .command, []⟩, ⟨9, 2, .command, []⟩]).1
    lastIndex l = 3 ∧ (getRange l 2 9).map some = [get l 2, get l 3] := by
  intro l
  have hmade : Made l := .appendEntries 1 _ (.append _ (.append _ .newLog))
  exact ⟨rfl, (log_views_agree hmade).2.2.1 2 9 (by decide) (by decide) (by decide)⟩

end Log

end SkyLock.Raft
