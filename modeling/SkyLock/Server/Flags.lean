/-
# The command line of the server

main reads the peers of the cluster from one flag, a list separated by commas, with a loop over its
characters (`splitPeers`), and writes the addresses it listens on itself (`formatAddr`).  Both have
to be exact: every peer that the flag names counts in the quorums of the node, and the two servers
of a node need two addresses.

`peers_flag_exact` says that the loop computes the pieces between the commas that are not empty, and
reads back every list that can be written.  `formatAddr_eq_iff` says which ports have one address.
-/
import SkyLock.Server.Handlers

namespace SkyLock.Flags

open Store Text

/-! ## 1. The peers -/

/-- The loop of `splitPeers`: `result` and `current` are its variables. -/
def splitPeersLoop : Str → List Str → Str → List Str
  | [], result, current => if current ≠ [] then result ++ [current] else result
  | c :: peers, result, current =>
    if c = ',' then
      if current ≠ [] then splitPeersLoop peers (result ++ [current]) []
      else splitPeersLoop peers result current
    else splitPeersLoop peers result (current ++ [c])

/-- `splitPeers`.  Its first test only makes the result a nil slice. -/
def splitPeers (peers : Str) : List Str := splitPeersLoop peers [] []

/-- The pieces of a list that are not empty. -/
def pieces (parts : List Str) : List Str := parts.filter (· ≠ [])

@[simp] theorem pieces_nil : pieces [] = [] := rfl

theorem pieces_cons (part : Str) (parts : List Str) :
    pieces (part :: parts) = (if part ≠ [] then [part] else []) ++ pieces parts := by
  rw [pieces, List.filter_cons]
  split <;> split <;> simp_all [pieces]

/-- What is read of a piece when the loop has come to `peers` belongs to the first piece of the
rest. -/
theorem splitPeersLoop_eq (peers : Str) (result : List Str) (current : Str) :
    splitPeersLoop peers result current =
      result ++ pieces ((peers.splitOn ',').modifyHead (current ++ ·)) := by
  induction peers generalizing result current with
  | nil =>
    rw [List.splitOn_nil, List.modifyHead_cons, List.append_nil, pieces_cons, splitPeersLoop]
    split <;> simp
  | cons c peers ih =>
    rw [splitPeersLoop, List.splitOn, List.splitOnP_cons_eq_if_modifyHead]
    change _ = result ++ pieces (List.modifyHead _ (if (c == ',') = true then
      [] :: peers.splitOn ',' else (peers.splitOn ',').modifyHead (List.cons c)))
    by_cases hc : c = ','
    · have hfirst : (peers.splitOn ',').modifyHead ([] ++ ·) = peers.splitOn ',' := by
        cases peers.splitOn ',' <;> rfl
      rw [if_pos hc, if_pos (beq_iff_eq.mpr hc), List.modifyHead_cons, List.append_nil, pieces_cons]
      split
      · rw [ih, hfirst, List.append_assoc]
      · rename_i hempty
        rw [ih, not_not.mp hempty, hfirst, List.nil_append]
    · have hstep : ((peers.splitOn ',').modifyHead (List.cons c)).modifyHead (current ++ ·) =
          (peers.splitOn ',').modifyHead (current ++ [c] ++ ·) := by
        cases peers.splitOn ',' <;> simp
      rw [if_neg hc, if_neg (by simpa using hc), ih, hstep]

theorem splitPeers_eq (peers : Str) : splitPeers peers = pieces (peers.splitOn ',') := by
  have hfirst : (peers.splitOn ',').modifyHead ([] ++ ·) = peers.splitOn ',' := by
    cases peers.splitOn ',' <;> rfl
  rw [splitPeers, splitPeersLoop_eq, hfirst, List.nil_append]

/-- An address that can stand in the flag. -/
def IsAddress (p : Str) : Prop := p ≠ [] ∧ ',' ∉ p

instance (p : Str) : Decidable (IsAddress p) := inferInstanceAs (Decidable (p ≠ [] ∧ ',' ∉ p))

theorem isAddress_of_mem_splitPeersLoop (peers : Str) (result : List Str) (current : Str)
    (hresult : ∀ p ∈ result, IsAddress p) (hcurrent : ',' ∉ current) :
    ∀ p ∈ splitPeersLoop peers result current, IsAddress p := by
  have hmore : current ≠ [] → ∀ p ∈ result ++ [current], IsAddress p := by
    intro hne
    rw [List.forall_mem_append, List.forall_mem_singleton]
    exact ⟨hresult, hne, hcurrent⟩
  induction peers generalizing result current with
  | nil =>
    rw [splitPeersLoop]
    split
    · rename_i hne
      exact hmore hne
    · exact hresult
  | cons c peers ih =>
    rw [splitPeersLoop]
    split
    · split
      · rename_i hne
        exact ih _ _ (hmore hne) List.not_mem_nil fun h => absurd rfl h
      · exact ih _ _ hresult hcurrent hmore
    · rename_i hc
      have hcurrent' : ',' ∉ current ++ [c] := by
        rw [List.mem_append, List.mem_singleton, not_or]
        exact ⟨hcurrent, fun h => hc h.symm⟩
      refine ih _ _ hresult hcurrent' fun _ => ?_
      rw [List.forall_mem_append, List.forall_mem_singleton]
      exact ⟨hresult, by simp, hcurrent'⟩

/-- **The flag is read exactly.**  Whatever text the flag is, the peers are the pieces between its
commas that are not empty.  They are addresses, and the lists of peers that can be given in the flag
and are read back from it are exactly the lists of addresses. -/
theorem peers_flag_exact :
    (∀ peers, splitPeers peers = pieces (peers.splitOn ',')) ∧
    (∀ peers, ∀ p ∈ splitPeers peers, IsAddress p) ∧
    ∀ ps, splitPeers ([','].intercalate ps) = ps ↔ ∀ p ∈ ps, IsAddress p := by
  have haddress : ∀ peers, ∀ p ∈ splitPeers peers, IsAddress p := fun peers =>
    isAddress_of_mem_splitPeersLoop peers [] [] (by simp) (by simp)
  refine ⟨splitPeers_eq, haddress, fun ps => ⟨fun h => h ▸ haddress _, fun h => ?_⟩⟩
  cases ps with
  | nil => rfl
  | cons p ps =>
    have hsplit : ([','].intercalate (p :: ps)).splitOn ',' = p :: ps :=
      List.splitOn_intercalate ',' (fun q hq => (h q hq).2) (List.cons_ne_nil p ps)
    rw [splitPeers_eq, hsplit]
    exact List.filter_eq_self.mpr fun q hq => decide_eq_true (h q hq).1

example : splitPeers ",b:5002,,c:5003,".toList = ["b:5002".toList, "c:5003".toList] := by decide

/-! ## 2. The addresses -/

/-- main's own `itoa`.  Its loop runs while `n > 0`, so a negative number has no digits. -/
def itoa (n : Int) : Str := if n = 0 then ['0'] else itoaLoop n.toNat n.toNat []

def formatAddr (port : Int) : Str := ":".toList ++ itoa port

theorem itoa_of_nonneg {n : Int} (h : 0 ≤ n) : itoa n = Store.itoa n.toNat := by
  rw [itoa, Store.itoa]
  by_cases hn : n = 0
  · simp [hn]
  · rw [if_neg hn, if_neg (by omega)]

theorem itoa_of_neg {n : Int} (h : n < 0) : itoa n = [] := by
  have hn : n.toNat = 0 := by omega
  rw [itoa, if_neg h.ne, hn]
  rfl

theorem itoa_ne_nil {n : Int} (h : 0 ≤ n) : itoa n ≠ [] := by
  rw [itoa_of_nonneg h]
  exact Server.itoa_ne_nil n.toNat

/-- Two ports have one address exactly if they are equal, or both are negative. -/
theorem formatAddr_eq_iff (port port' : Int) :
    formatAddr port = formatAddr port' ↔ port = port' ∨ (port < 0 ∧ port' < 0) := by
  rw [formatAddr, formatAddr, List.append_right_inj]
  rcases lt_or_ge port 0 with hneg | hpos
  · rw [itoa_of_neg hneg]
    rcases lt_or_ge port' 0 with hneg' | hpos'
    · simp [itoa_of_neg hneg', hneg, hneg']
    · refine iff_of_false (itoa_ne_nil hpos').symm ?_
      omega
  · rcases lt_or_ge port' 0 with hneg' | hpos'
    · rw [itoa_of_neg hneg']
      refine iff_of_false (itoa_ne_nil hpos) ?_
      omega
    · rw [itoa_of_nonneg hpos, itoa_of_nonneg hpos']
      constructor
      · intro heq
        have hvalue : port.toNat = port'.toNat := by rw [← value_itoa port.toNat, heq, value_itoa]
        omega
      · rintro (rfl | ⟨hneg, -⟩)
        · rfl
        · omega

end SkyLock.Flags
