/-
# Finite maps

Go's `map[K]V` is a finite partial function: Mathlib's `Finmap` at a constant family.  Two maps
with the same lookups are equal, so a statement about a map never depends on an iteration order.

`Finmap.lookup` returns a value of the family AT THE KEY, and a rewrite of the key inside a
`match` on such a lookup is ill-typed.  `find` is the same function at its non-dependent type,
and the lemmas here give its value after each update as the one `if` that `simp` and `split` work
on.
-/
import Mathlib

/-- Go's `map[K]V`. -/
abbrev GoMap (K V : Type) := Finmap fun _ : K => V

namespace GoMap

variable {K V : Type} [DecidableEq K] {m : GoMap K V} {k k' : K} {v : V}

/-- The value at a key, if there is one. -/
def find (m : GoMap K V) (k : K) : Option V := Finmap.lookup k m

theorem find_insert (m : GoMap K V) (k k' : K) (v : V) :
    find (m.insert k v) k' = if k' = k then some v else m.find k' := by
  split
  · rename_i h
    subst h
    exact Finmap.lookup_insert m
  · rename_i h
    exact Finmap.lookup_insert_of_ne m h

theorem find_erase (m : GoMap K V) (k k' : K) :
    find (m.erase k) k' = if k' = k then none else m.find k' := by
  split
  · rename_i h
    subst h
    exact Finmap.lookup_erase k' m
  · rename_i h
    exact Finmap.lookup_erase_ne h

theorem find_singleton (k k' : K) (v : V) :
    find (Finmap.singleton k v) k' = if k' = k then some v else none := by
  split
  · rename_i h
    subst h
    exact Finmap.lookup_singleton_eq
  · rename_i h
    exact Finmap.lookup_eq_none.mpr fun hm => h ((Finmap.mem_singleton _ _ _).mp hm)

/-- Taking out what is not there changes nothing. -/
theorem find_eq_ite_of_none (h : m.find k = none) (k' : K) :
    m.find k' = if k' = k then none else m.find k' := by
  split
  · rename_i hk
    exact hk ▸ h
  · rfl

@[simp] theorem find_empty (k : K) : find (∅ : GoMap K V) k = none := Finmap.lookup_empty k

theorem mem_iff_find : k ∈ m ↔ ∃ v, m.find k = some v := Finmap.mem_iff

theorem find_eq_none : m.find k = none ↔ k ∉ m := Finmap.lookup_eq_none

theorem mem_of_find (h : m.find k = some v) : k ∈ m := mem_iff_find.mpr ⟨v, h⟩

theorem erase_eq_self_iff : m.erase k = m ↔ k ∉ m := by
  constructor
  · intro h
    have hk := find_erase m k k
    rw [h, if_pos rfl] at hk
    exact find_eq_none.mp hk
  · intro h
    refine Finmap.ext_lookup fun k' => ?_
    exact (find_erase m k k').trans (find_eq_ite_of_none (find_eq_none.mpr h) k').symm

/-- The keys whose value satisfies `p`: what a loop over the map that tests each value sees. -/
def keysWhere (m : GoMap K V) (p : V → Bool) : Finset K :=
  m.keys.filter fun k => (m.find k).any p

theorem mem_keysWhere {p : V → Bool} : k ∈ m.keysWhere p ↔ ∃ v, m.find k = some v ∧ p v := by
  simp only [keysWhere, Finset.mem_filter, Finmap.mem_keys, mem_iff_find, Option.any_eq_true]
  exact ⟨fun h => h.2, fun ⟨v, hv, hp⟩ => ⟨⟨v, hv⟩, v, hv, hp⟩⟩

end GoMap

namespace GoMap

/-! ## Keys in order

`Finset.sort` merges, by a recursion that does not reduce in the kernel; insertion gives the same
list and can be evaluated. -/

variable {K V : Type} [LinearOrder K]

/-- A sorted duplicate-free list is the sorted list of its elements. -/
theorem insertionSort_eq_sort {l : List K} {f : Finset K} (hnd : l.Nodup)
    (hmem : ∀ c, c ∈ l ↔ c ∈ f) : l.insertionSort (· ≤ ·) = f.sort (· ≤ ·) := by
  have hperm : List.Perm (l.insertionSort (· ≤ ·)) (f.sort (· ≤ ·)) := by
    refine (List.perm_insertionSort _ l).trans ?_
    refine (List.perm_ext_iff_of_nodup hnd (Finset.sort_nodup _ _)).mpr fun c => ?_
    rw [hmem c, Finset.mem_sort]
  exact hperm.eq_of_pairwise' (List.pairwise_insertionSort _ l) (Finset.pairwise_sort _ _)

/-- The keys of a map, in increasing order. -/
def sortedKeys (m : GoMap K V) : List K :=
  Quot.liftOn m.keys.val (fun l => l.insertionSort (· ≤ ·)) fun l l' h =>
    (((List.perm_insertionSort _ l).trans h).trans
      (List.perm_insertionSort _ l').symm).eq_of_pairwise'
      (List.pairwise_insertionSort _ l) (List.pairwise_insertionSort _ l')

theorem sortedKeys_eq_sort (m : GoMap K V) : m.sortedKeys = m.keys.sort (· ≤ ·) := by
  obtain ⟨l, hl⟩ := Quot.exists_rep m.keys.val
  have hmem : ∀ k, k ∈ l ↔ k ∈ m.keys := fun k => by rw [← Finset.mem_val, ← hl]; rfl
  have hnd : l.Nodup := by
    have := m.keys.nodup
    rw [← hl] at this
    exact this
  rw [sortedKeys, ← hl]
  exact insertionSort_eq_sort hnd hmem

end GoMap
