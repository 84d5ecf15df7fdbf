/-
# Sequence numbers in node names

`formatSequence` (`internal/store/store.go`) writes the counter of a sequential node: the decimal
digits of `itoa`, padded on the left with zeros to ten characters by `padLeft`.  Reading the
result back from the left gives the number (`value_formatSequence`), so no two numbers share a
name.  The result has as many characters as the number has digits, but ten at least
(`length_formatSequence`): below `10 ^ 10` it has exactly ten, so there the names sort as the
numbers do (`formatSequence_lt`).  At `10 ^ 10` the padding runs out: of two numbers with numerals
of different lengths, the smaller one still comes first exactly if it does not exceed the leading
digits of the larger (`formatSequence_lt_iff`, with `Leads`).
-/
import Mathlib.Data.Nat.Digits.Lemmas
import SkyLock.Lib.Text

namespace SkyLock.Store

open Text

/-! ## 1. The source -/

/-- The loop of `itoa`: prepends the last digit and divides.  The first argument bounds the
iterations; `n` of them are enough for `n`. -/
def itoaLoop : Nat → Nat → Str → Str
  | 0, _, result => result
  | fuel + 1, n, result =>
    if n > 0 then itoaLoop fuel (n / 10) (digitChar (n % 10) :: result) else result

def itoa (n : Nat) : Str := if n = 0 then ['0'] else itoaLoop n n []

def padLeft (s : Str) (length : Nat) (pad : Char) : Str :=
  if s.length ≥ length then s else List.replicate (length - s.length) pad ++ s

/-- The three nested `strings.Replace` calls of the source strip a format string down to the
empty text; what is left is the padded numeral. -/
def formatSequence (seq : Nat) : Str :=
  replaceOnce "".toList "".toList
      (replaceOnce "%010d".toList "".toList
        (replaceOnce "%d".toList "".toList "%010d".toList)) ++
    padLeft (itoa seq) 10 '0'

/-! ## 2. The numeral is the number -/

theorem formatSequence_eq (seq : Nat) : formatSequence seq = padLeft (itoa seq) 10 '0' := by
  have h : replaceOnce "".toList "".toList (replaceOnce "%010d".toList "".toList
      (replaceOnce "%d".toList "".toList "%010d".toList)) = [] := by decide
  rw [formatSequence, h, List.nil_append]

/-- What the loop adds in front of `result` is the numeral of `n`. -/
theorem value_itoaLoop (fuel n : Nat) (result : Str) (h : n ≤ fuel) :
    value (itoaLoop fuel n result) = n * 10 ^ result.length + value result := by
  induction fuel generalizing n result with
  | zero =>
    have : n = 0 := by omega
    simp [itoaLoop, this]
  | succ fuel ih =>
    simp only [itoaLoop]
    split
    · rename_i hn
      rw [ih (n / 10) _ (by omega), value_cons, List.length_cons,
        digitValue_digitChar (Nat.mod_lt _ (by norm_num)), pow_succ]
      have hdiv : n / 10 * 10 + n % 10 = n := Nat.div_add_mod' n 10
      calc n / 10 * (10 ^ result.length * 10) + (n % 10 * 10 ^ result.length + value result)
          = (n / 10 * 10 + n % 10) * 10 ^ result.length + value result := by ring
        _ = n * 10 ^ result.length + value result := by rw [hdiv]
    · rename_i hn
      have : n = 0 := by omega
      simp [this]

theorem value_itoa (n : Nat) : value (itoa n) = n := by
  unfold itoa
  split
  · rename_i h
    rw [h]
    decide
  · rw [value_itoaLoop n n [] le_rfl]
    simp

theorem itoaLoop_digits (fuel n : Nat) (result : Str) (h : ∀ c ∈ result, IsDigit c) :
    ∀ c ∈ itoaLoop fuel n result, IsDigit c := by
  induction fuel generalizing n result with
  | zero => exact h
  | succ fuel ih =>
    simp only [itoaLoop]
    split
    · refine ih (n / 10) _ ?_
      intro c hc
      rcases List.mem_cons.mp hc with rfl | hc
      · exact ⟨n % 10, Nat.mod_lt _ (by norm_num), rfl⟩
      · exact h c hc
    · exact h

theorem itoa_digits (n : Nat) : ∀ c ∈ itoa n, IsDigit c := by
  unfold itoa
  split
  · intro c hc
    exact ⟨0, by norm_num, List.mem_singleton.mp hc⟩
  · exact itoaLoop_digits n n [] (by simp)

theorem formatSequence_digits (seq : Nat) : ∀ c ∈ formatSequence seq, IsDigit c := by
  rw [formatSequence_eq]
  unfold padLeft
  split
  · exact itoa_digits seq
  · intro c hc
    rcases List.mem_append.mp hc with hc | hc
    · exact ⟨0, by norm_num, List.eq_of_mem_replicate hc⟩
    · exact itoa_digits seq c hc

/-- **The formatted number reads back as the number**, whatever its length. -/
theorem value_formatSequence (seq : Nat) : value (formatSequence seq) = seq := by
  rw [formatSequence_eq]
  unfold padLeft
  split
  · exact value_itoa seq
  · rw [value_replicate_zero_append, value_itoa]

theorem formatSequence_injective : Function.Injective formatSequence := by
  intro a b h
  rw [← value_formatSequence a, h, value_formatSequence]

/-! ## 3. Length and order -/

theorem ten_le_length_formatSequence (seq : Nat) : 10 ≤ (formatSequence seq).length := by
  rw [formatSequence_eq]
  unfold padLeft
  split
  · assumption
  · simp only [List.length_append, List.length_replicate]
    omega

/-- A numeral without a leading zero is no longer than the number needs. -/
theorem length_itoaLoop (fuel n k : Nat) (result : Str) (h : n < 10 ^ k) :
    (itoaLoop fuel n result).length ≤ k + result.length := by
  induction fuel generalizing n k result with
  | zero => simp [itoaLoop]
  | succ fuel ih =>
    simp only [itoaLoop]
    split
    · cases k with
      | zero => simp at h; omega
      | succ k =>
        have hdiv : n / 10 < 10 ^ k := by
          rw [Nat.div_lt_iff_lt_mul (by norm_num), ← pow_succ]
          exact h
        have ih := ih (n / 10) k (digitChar (n % 10) :: result) hdiv
        simp only [List.length_cons] at ih
        omega
    · omega

theorem length_itoa_le {n k : Nat} (hk : 1 ≤ k) (h : n < 10 ^ k) : (itoa n).length ≤ k := by
  unfold itoa
  split
  · exact hk
  · simpa using length_itoaLoop n n k [] h

theorem length_formatSequence_le {seq k : Nat} (hk : 10 ≤ k) (h : seq < 10 ^ k) :
    (formatSequence seq).length ≤ k := by
  have hlen := length_itoa_le (by omega) h
  rw [formatSequence_eq]
  unfold padLeft
  split
  · exact hlen
  · simp only [List.length_append, List.length_replicate]
    omega

/-- A text of the given length has room for the number. -/
theorem lt_pow_length_formatSequence (seq : Nat) : seq < 10 ^ (formatSequence seq).length := by
  have hvalue := value_lt (formatSequence_digits seq)
  rwa [value_formatSequence] at hvalue

/-- The number of characters that a number takes: its decimal digits, but ten at least. -/
def width (n : Nat) : Nat := max 10 (Nat.digits 10 n).length

theorem length_formatSequence (seq : Nat) : (formatSequence seq).length = width seq := by
  refine le_antisymm (length_formatSequence_le (le_max_left _ _) ?_)
    (max_le (ten_le_length_formatSequence seq) ?_)
  · have hdigits : seq < 10 ^ (Nat.digits 10 seq).length :=
      Nat.lt_base_pow_length_digits (by norm_num)
    exact hdigits.trans_le (Nat.pow_le_pow_right (by norm_num) (le_max_right _ _))
  · exact (Nat.digits_length_le_iff (by norm_num) seq).mpr (lt_pow_length_formatSequence seq)

/-- Below `10 ^ 10` the padding is exact. -/
theorem width_of_lt {n : Nat} (h : n < 10 ^ 10) : width n = 10 :=
  max_eq_left ((Nat.digits_length_le_iff (by norm_num) n).mpr h)

/-- A larger number is not written shorter. -/
theorem length_formatSequence_mono {a b : Nat} (hab : a ≤ b) :
    (formatSequence a).length ≤ (formatSequence b).length :=
  length_formatSequence_le (ten_le_length_formatSequence b)
    (hab.trans_lt (lt_pow_length_formatSequence b))

/-- As many leading digits of `b` as `a` is written with form a number that is not below `a`. -/
def Leads (a b : Nat) : Prop := a ≤ b / 10 ^ (width b - width a)

/-- Below `10 ^ 10` all digits are leading digits. -/
theorem leads_of_lt {a b : Nat} (hab : a < b) (hb : b < 10 ^ 10) : Leads a b := by
  rw [Leads, width_of_lt (hab.trans hb), width_of_lt hb, Nat.sub_self, pow_zero, Nat.div_one]
  exact hab.le

/-- **When names sort as their numbers do.** -/
theorem formatSequence_lt_iff {a b : Nat} (hab : a < b) :
    formatSequence a < formatSequence b ↔ Leads a b := by
  have hv : value (formatSequence a) < value (formatSequence b) := by
    rwa [value_formatSequence, value_formatSequence]
  rw [lt_iff_value_le (formatSequence_digits a) (formatSequence_digits b)
    (length_formatSequence_mono hab.le) hv, value_formatSequence, value_formatSequence,
    length_formatSequence, length_formatSequence]
  rfl

theorem formatSequence_lt {a b : Nat} (hab : a < b) (hb : b < 10 ^ 10) :
    formatSequence a < formatSequence b :=
  (formatSequence_lt_iff hab).mpr (leads_of_lt hab hb)

/-! ## 4. Sorting names -/

/-- Sorting the names of numbers is naming the sorted numbers exactly if the names of any two of
them are ordered as they are. -/
theorem insertionSort_map_iff {f : Nat → Str} (hf : Function.Injective f) (ns : List Nat) :
    (ns.map f).insertionSort (· ≤ ·) = (ns.insertionSort (· ≤ ·)).map f ↔
      ∀ a ∈ ns, ∀ b ∈ ns, a < b → f a < f b := by
  have hperm := List.perm_insertionSort (· ≤ ·) ns
  have hsorted := List.pairwise_insertionSort (· ≤ ·) ns
  constructor
  · intro heq a ha b hb hab
    have hnames : ((ns.insertionSort (· ≤ ·)).map f).Pairwise (· ≤ ·) :=
      heq ▸ List.pairwise_insertionSort (· ≤ ·) (ns.map f)
    rw [List.pairwise_map] at hnames
    -- both orders run through one list, so they agree on any two of its members
    have hforth : (ns.insertionSort (· ≤ ·)).Pairwise fun x y => x < y → f x ≤ f y := by
      refine hnames.imp ?_
      exact fun h _ => h
    have hback : (ns.insertionSort (· ≤ ·)).Pairwise (flip fun x y => x < y → f x ≤ f y) :=
      hsorted.imp fun h hlt => absurd hlt (not_lt.mpr h)
    have hle := hforth.forall_of_forall_of_flip (fun x _ h => absurd h (lt_irrefl x)) hback
      (hperm.mem_iff.mpr ha) (hperm.mem_iff.mpr hb) hab
    exact lt_of_le_of_ne hle (hf.ne hab.ne)
  · intro h
    have hnames : ((ns.insertionSort (· ≤ ·)).map f).Pairwise (· ≤ ·) := by
      rw [List.pairwise_map]
      refine hsorted.imp_of_mem fun {a b} ha hb hab => ?_
      rcases hab.eq_or_lt with rfl | hab
      · exact le_rfl
      · exact (h a (hperm.mem_iff.mp ha) b (hperm.mem_iff.mp hb) hab).le
    exact ((List.perm_insertionSort (· ≤ ·) (ns.map f)).trans (hperm.map f).symm).eq_of_pairwise'
      (List.pairwise_insertionSort _ _) hnames

/-- **How sequential names sort.**  Of two numbers under one prefix the smaller comes first exactly
if it leads the other; a sorted list of names is in the order of the numbers exactly if that holds
of any two of them; and below `10 ^ 10` it always does. -/
theorem sequential_names_sort (p : Str) :
    (∀ a b, a < b → (p ++ formatSequence a < p ++ formatSequence b ↔ Leads a b)) ∧
    (∀ ns : List Nat,
      (ns.map fun n => p ++ formatSequence n).insertionSort (· ≤ ·) =
          (ns.insertionSort (· ≤ ·)).map (fun n => p ++ formatSequence n) ↔
        ∀ a ∈ ns, ∀ b ∈ ns, a < b → Leads a b) ∧
    ∀ a b, a < b → b < 10 ^ 10 → Leads a b := by
  have hiff : ∀ a b, a < b → (p ++ formatSequence a < p ++ formatSequence b ↔ Leads a b) :=
    fun a b hab => append_lt_append_iff.trans (formatSequence_lt_iff hab)
  have hinj : Function.Injective fun n => p ++ formatSequence n := fun a b h =>
    formatSequence_injective (List.append_cancel_left h)
  refine ⟨hiff, fun ns => (insertionSort_map_iff hinj ns).trans ?_, fun a b => leads_of_lt⟩
  exact forall₂_congr fun a _ => forall₂_congr fun b _ => forall_congr' (hiff a b)

theorem sequential_names_sort_ten :
    "/q/lock-".toList ++ formatSequence 9 < "/q/lock-".toList ++ formatSequence 10 := by
  obtain ⟨hiff, -, hsmall⟩ := sequential_names_sort "/q/lock-".toList
  exact (hiff 9 10 (by decide)).mpr (hsmall 9 10 (by decide) (by decide))

/-- **The padding runs out at `10 ^ 10`**: the eleven digits of that number come before the ten of
its predecessor, and so do the sorted names. -/
theorem sequential_names_unsorted :
    ¬ (∀ a b, a < b → b < 2 ^ 64 → ∀ p, p ++ formatSequence a < p ++ formatSequence b) ∧
      ([9999999999, 10000000000].map fun n => "lock-".toList ++ formatSequence n).insertionSort
          (· ≤ ·) = ["lock-10000000000".toList, "lock-9999999999".toList] := by
  constructor
  · intro h
    have hlt := h 9999999999 10000000000 (by decide) (by decide) []
    exact absurd hlt (by decide +kernel)
  · decide +kernel

end SkyLock.Store
