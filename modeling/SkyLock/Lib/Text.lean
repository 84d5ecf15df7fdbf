/-
# Text: Go's string helpers, and decimal numerals in lexicographic order

Two parts.  The first is the handful of functions of Go's `strings` package that the program
calls (`HasPrefix`, `TrimPrefix`, `Replace` with a count of one).

The second is about decimal numerals.  `value` reads a numeral by accumulating
`acc * 10 + digit` from the left.  Its range on `k` digits is `10 ^ k` (`value_lt`), so on
numerals of ONE length the numeric order and the dictionary order agree (`value_lt_iff`).  Across
lengths they do not: the dictionary compares the shorter numeral with as many leading digits of the
longer one (`lt_iff_value_le`).
-/
import SkyLock.Lib.Path

namespace Text

/-! ## 1. Prefixes and replacement -/

/-- `strings.HasPrefix`. -/
def hasPrefix (s pre : Str) : Bool := pre.isPrefixOf s

/-- `strings.TrimPrefix`. -/
def trimPrefix (s pre : Str) : Str := if hasPrefix s pre then s.drop pre.length else s

/-- `strings.Replace` with a count of one.  An empty `old` matches at the beginning. -/
def replaceOnce (old new : Str) : Str → Str
  | [] => if old = [] then new else []
  | c :: cs =>
    if old.isPrefixOf (c :: cs) then new ++ (c :: cs).drop old.length
    else c :: replaceOnce old new cs

theorem hasPrefix_iff {s pre : Str} : hasPrefix s pre = true ↔ ∃ t, s = pre ++ t := by
  rw [hasPrefix, List.isPrefixOf_iff_prefix]
  exact ⟨fun ⟨t, ht⟩ => ⟨t, ht.symm⟩, fun ⟨t, ht⟩ => ⟨t, ht.symm⟩⟩

@[simp] theorem trimPrefix_append (pre t : Str) : trimPrefix (pre ++ t) pre = t := by
  have h : hasPrefix (pre ++ t) pre = true := hasPrefix_iff.mpr ⟨t, rfl⟩
  rw [trimPrefix, if_pos h, List.drop_left]

/-- Trimming either removes the prefix or leaves the whole text. -/
theorem trimPrefix_cases (s pre : Str) :
    s = pre ++ trimPrefix s pre ∨ trimPrefix s pre = s := by
  by_cases h : hasPrefix s pre = true
  · obtain ⟨t, rfl⟩ := hasPrefix_iff.mp h
    exact Or.inl (by rw [trimPrefix_append])
  · exact Or.inr (by rw [trimPrefix, if_neg h])

/-! ## 2. Decimal numerals -/

/-- The character of a decimal digit. -/
def digitChar (d : Nat) : Char := Char.ofNat (48 + d)

/-- A decimal digit, as a character. -/
def IsDigit (c : Char) : Prop := ∃ d < 10, c = digitChar d

/-- What a digit character contributes: its distance from `'0'`. -/
def digitValue (c : Char) : Nat := c.toNat - 48

theorem toNat_digitChar {d : Nat} (h : d < 10) : (digitChar d).toNat = 48 + d := by
  interval_cases d <;> rfl

theorem digitValue_digitChar {d : Nat} (h : d < 10) : digitValue (digitChar d) = d := by
  rw [digitValue, toNat_digitChar h, Nat.add_sub_cancel_left]

theorem digitChar_lt {d e : Nat} (h : d < e) (he : e < 10) : digitChar d < digitChar e := by
  interval_cases e <;> interval_cases d <;> decide

/-- Reads a numeral from the left. -/
def value (s : Str) : Nat := s.foldl (fun acc c => acc * 10 + digitValue c) 0

theorem foldl_value (s : Str) : ∀ acc : Nat,
    s.foldl (fun acc c => acc * 10 + digitValue c) acc = acc * 10 ^ s.length + value s := by
  induction s with
  | nil => intro acc; simp [value]
  | cons c s ih =>
    intro acc
    simp only [List.foldl_cons, List.length_cons, value]
    rw [ih, ih (0 * 10 + digitValue c), pow_succ]
    ring

@[simp] theorem value_nil : value [] = 0 := rfl

theorem value_cons (c : Char) (s : Str) :
    value (c :: s) = digitValue c * 10 ^ s.length + value s := by
  simp only [value, List.foldl_cons]
  rw [foldl_value]
  simp [value]

/-- Leading zeros do not change the value. -/
theorem value_replicate_zero_append (k : Nat) (s : Str) :
    value (List.replicate k '0' ++ s) = value s := by
  induction k with
  | zero => simp
  | succ k ih =>
    rw [List.replicate_succ, List.cons_append, value_cons, ih]
    simp [digitValue]

/-- A numeral of `k` digits is below `10 ^ k`. -/
theorem value_lt {s : Str} (h : ∀ c ∈ s, IsDigit c) : value s < 10 ^ s.length := by
  induction s with
  | nil => simp
  | cons c s ih =>
    obtain ⟨d, hd, rfl⟩ := h c List.mem_cons_self
    have ih' := ih fun x hx => h x (List.mem_cons_of_mem _ hx)
    rw [value_cons, digitValue_digitChar hd, List.length_cons, pow_succ]
    calc d * 10 ^ s.length + value s < d * 10 ^ s.length + 10 ^ s.length := by omega
      _ = (d + 1) * 10 ^ s.length := by ring
      _ ≤ 10 ^ s.length * 10 := by rw [mul_comm]; exact Nat.mul_le_mul_left _ hd

theorem lt_of_digitChar_lt {d e : Nat} (hd : d < 10) (h : digitChar d < digitChar e) : d < e := by
  rcases Nat.lt_trichotomy d e with hde | rfl | hde
  · exact hde
  · exact absurd h (lt_irrefl _)
  · exact absurd h (digitChar_lt hde hd).asymm

/-- The dictionary order on numerals of one length is in the numeric order. -/
theorem value_lt_of_lt {s t : Str} (hs : ∀ c ∈ s, IsDigit c) (ht : ∀ c ∈ t, IsDigit c)
    (hl : s.length = t.length) (h : s < t) : value s < value t := by
  induction s generalizing t with
  | nil =>
    rw [List.length_eq_zero_iff.mp hl.symm] at h
    exact absurd h (lt_irrefl _)
  | cons c s ih =>
    obtain ⟨e, t, rfl⟩ := List.exists_cons_of_length_eq_add_one hl.symm
    have hl' : s.length = t.length := by simpa using hl
    have hs' : ∀ x ∈ s, IsDigit x := fun x hx => hs x (List.mem_cons_of_mem _ hx)
    have ht' : ∀ x ∈ t, IsDigit x := fun x hx => ht x (List.mem_cons_of_mem _ hx)
    have hvs := value_lt hs'
    obtain ⟨a, ha, rfl⟩ := hs c List.mem_cons_self
    obtain ⟨b, hb, rfl⟩ := ht e List.mem_cons_self
    rw [value_cons, value_cons, digitValue_digitChar ha, digitValue_digitChar hb, hl']
    rw [hl'] at hvs
    rcases List.cons_lt_cons_iff.mp h with hlt | ⟨heq, hlt⟩
    · -- a larger leading digit outweighs everything after it
      have hmul : (a + 1) * 10 ^ t.length ≤ b * 10 ^ t.length :=
        Nat.mul_le_mul_right _ (lt_of_digitChar_lt ha hlt)
      rw [Nat.add_mul, Nat.one_mul] at hmul
      omega
    · have hab : a = b := by
        rw [← digitValue_digitChar ha, heq, digitValue_digitChar hb]
      rw [hab]
      exact Nat.add_lt_add_left (ih hs' ht' hl' hlt) _

/-- **On numerals of one length the numeric order is the dictionary order.** -/
theorem value_lt_iff {s t : Str} (hs : ∀ c ∈ s, IsDigit c) (ht : ∀ c ∈ t, IsDigit c)
    (hl : s.length = t.length) : value s < value t ↔ s < t := by
  refine ⟨fun h => ?_, value_lt_of_lt hs ht hl⟩
  rcases lt_trichotomy s t with hst | rfl | hst
  · exact hst
  · exact absurd h (lt_irrefl _)
  · exact absurd h (value_lt_of_lt ht hs hl.symm hst).asymm

/-- A common prefix does not change the dictionary order. -/
theorem append_lt_append {p s t : Str} (h : s < t) : p ++ s < p ++ t :=
  List.Lex.append_left _ h p

theorem append_lt_append_iff {p s t : Str} : p ++ s < p ++ t ↔ s < t := by
  refine ⟨fun h => ?_, append_lt_append⟩
  rcases lt_trichotomy s t with hst | rfl | hst
  · exact hst
  · exact absurd h (lt_irrefl _)
  · exact absurd h (append_lt_append hst).asymm

/-! ## 3. Numerals of different lengths -/

theorem value_append (s t : Str) : value (s ++ t) = value s * 10 ^ t.length + value t := by
  rw [value, List.foldl_append, foldl_value]
  rfl

/-- The leading digits of a numeral form its quotient by a power of ten. -/
theorem value_take {s : Str} (h : ∀ c ∈ s, IsDigit c) (k : Nat) :
    value (s.take k) = value s / 10 ^ (s.length - k) := by
  have hdigits : ∀ c ∈ s.drop k, IsDigit c := fun c hc => h c (List.mem_of_mem_drop hc)
  have hlow := value_lt hdigits
  have hsum := value_append (s.take k) (s.drop k)
  rw [List.length_drop] at hlow hsum
  rw [List.take_append_drop] at hsum
  rw [hsum]
  exact (Nat.div_eq_of_lt_le (by omega) (by rw [Nat.succ_mul]; omega)).symm

/-- A text precedes a longer one exactly if it does not come after the beginning of the other. -/
theorem lt_iff_le_take {s t : Str} (hl : s.length < t.length) :
    s < t ↔ s ≤ t.take s.length := by
  induction s generalizing t with
  | nil =>
    obtain ⟨e, t, rfl⟩ := List.exists_cons_of_length_pos hl
    simp
  | cons c s ih =>
    obtain ⟨e, t, rfl⟩ := List.exists_cons_of_length_pos (Nat.zero_lt_of_lt hl)
    rw [List.length_cons, List.take_succ_cons, List.cons_lt_cons_iff, ih (by simpa using hl),
      le_iff_lt_or_eq, le_iff_lt_or_eq, List.cons_lt_cons_iff, List.cons.injEq]
    tauto

/-- **The order of two numerals, the smaller one not the longer**: the dictionary looks at as many
leading digits as the shorter one has. -/
theorem lt_iff_value_le {s t : Str} (hs : ∀ c ∈ s, IsDigit c) (ht : ∀ c ∈ t, IsDigit c)
    (hl : s.length ≤ t.length) (hv : value s < value t) :
    s < t ↔ value s ≤ value t / 10 ^ (t.length - s.length) := by
  rcases hl.eq_or_lt with hl | hl
  · rw [hl, Nat.sub_self, pow_zero, Nat.div_one]
    exact iff_of_true ((value_lt_iff hs ht hl).mp hv) hv.le
  · have htake : ∀ c ∈ t.take s.length, IsDigit c := fun c hc => ht c (List.mem_of_mem_take hc)
    have hlen : (t.take s.length).length = s.length := by
      rw [List.length_take, Nat.min_eq_left hl.le]
    rw [lt_iff_le_take hl, ← value_take ht, ← not_lt, ← not_lt, value_lt_iff htake hs hlen]

end Text
