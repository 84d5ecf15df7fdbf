/-
# Versions

Compare-and-set on one node.  A lifetime of a node begins when the node is made, by `NewStore` for
the root and by a `Create` for any other (`Born`), and it lasts as long as the node is there.
`updates` lists the successful `Set`s of a path along a list of calls, whoever made them.

Of all calls only a successful `Set` of the path touches the version and the data of its node
(`value_of_step`); the others at most touch its list of children.  So along a lifetime the version
COUNTS the updates, and a conditional `Set` that succeeds has named the number of updates before
it, which no other can (`no_lost_update`).
-/
import SkyLock.Store.Ops

namespace SkyLock.Store

/-! ## 1. Lifetimes and updates -/

/-- The store right after the node at the path has been made, with its version and data. -/
inductive Born : Store → Str → Nat → Str → Prop
  | root : Born newStore root 0 []
  | create {s s' : Store} {p d sid q : Str} {eph sq : Bool}
    (h : create s p d eph sid sq = (s', .ok q)) : Born s' q 1 d

/-- A `Set` that has succeeded, with what it returned. -/
structure Update where
  data : Str
  expectedVersion : Int
  returned : Node

/-- The update of the node at `q` that a call makes, if it makes one. -/
def update (q : Str) (s : Store) : StoreOp → Option Update
  | .set p d v =>
    if normalizePath p = q then
      match (set s p d v).2 with
      | .ok n => some ⟨d, v, n⟩
      | .error _ => none
    else none
  | _ => none

/-- The updates of the node at `q` along a list of calls, in their order. -/
def updates (q : Str) : Store → List StoreOp → List Update
  | _, [] => []
  | s, op :: ops =>
    match step s op with
    | some t => (update q s op).toList ++ updates q t ops
    | none => []

/-- The data after some updates. -/
def lastData (d : Str) (us : List Update) : Str := (us.getLast?.map Update.data).getD d

variable {s s' t : Store} {p q d sid : Str} {n n' : Node} {v : Int} {op : StoreOp} {u : Update}

theorem lastData_cons (d : Str) (u : Update) (us : List Update) :
    lastData d (u :: us) = lastData u.data us := by
  cases us with
  | nil => rfl
  | cons w ws =>
    rw [lastData, lastData, List.getLast?_cons_cons]
    rfl

/-! ## 2. What a call does to a version -/

/-- The part of a node that updates are about. -/
def Node.value (n : Node) : Nat × Str := (n.version, n.data)

/-- The value of the node at a path. -/
def valueAt (nodes : GoMap Str Node) (q : Str) : Option (Nat × Str) := (nodes.find q).map Node.value

theorem valueAt_insert_of_value {nodes : GoMap Str Node} {p q : Str} {m m' : Node}
    (hp : nodes.find p = some m) (hvalue : m'.value = m.value) :
    valueAt (nodes.insert p m') q = valueAt nodes q := by
  by_cases hq : q = p
  · subst hq
    simp [valueAt, GoMap.find_insert, hp, hvalue]
  · simp [valueAt, GoMap.find_insert, hq]

theorem valueAt_addChild (nodes : GoMap Str Node) (parent name q : Str) :
    valueAt (addChild nodes parent name) q = valueAt nodes q := by
  unfold addChild
  split
  · rfl
  · split
    · rfl
    · rename_i hp
      exact valueAt_insert_of_value hp rfl

theorem valueAt_dropChild (nodes : GoMap Str Node) (parent name q : Str) :
    valueAt (dropChild nodes parent name) q = valueAt nodes q := by
  unfold dropChild
  split
  · rfl
  · split
    · rfl
    · rename_i hp
      exact valueAt_insert_of_value hp rfl

theorem mem_iff_valueAt {nodes : GoMap Str Node} : q ∈ nodes ↔ valueAt nodes q ≠ none := by
  rw [valueAt, ne_eq, Option.map_eq_none_iff, GoMap.find_eq_none, not_not]

theorem valueAt_unlink (s : Store) (p q : Str) :
    valueAt (unlink s p).nodes q = if q = p then none else valueAt s.nodes q := by
  unfold unlink
  by_cases hq : q = p
  · simp [valueAt, GoMap.find_erase, hq]
  · rw [if_neg hq, ← valueAt_dropChild s.nodes (parentPath p) (baseName p) q]
    simp [valueAt, GoMap.find_erase, hq]

theorem valueAt_deleteEphemerals (q : Str) : ∀ (order : List Str) (s : Store),
    valueAt (deleteEphemerals s order).nodes q = if q ∈ order then none else valueAt s.nodes q := by
  intro order
  induction order with
  | nil => simp [deleteEphemerals]
  | cons p order ih =>
    intro s
    have hcons : deleteEphemerals s (p :: order) = deleteEphemerals (unlink s p) order := rfl
    rw [hcons, ih, valueAt_unlink]
    by_cases hp : q = p <;> by_cases ho : q ∈ order <;> simp [hp, ho]

/-- `Create` touches no node that is there. -/
theorem valueAt_create (eph sq : Bool) (hq : q ∈ s.nodes) :
    valueAt (create s p d eph sid sq).1.nodes q = valueAt s.nodes q := by
  simp only [create]
  split
  · rfl
  · split
    · simp
    · rename_i hfree
      rw [bump_nodes] at hfree
      have hne : q ≠ actualPath (bump s sq) (normalizePath p) sq := fun h => hfree (h ▸ hq)
      rw [valueAt_addChild]
      simp [valueAt, GoMap.find_insert, hne]

/-- The node that a `Create` makes. -/
theorem valueAt_create_ok {eph sq : Bool} (h : create s p d eph sid sq = (s', .ok q)) :
    valueAt s'.nodes q = some (1, d) := by
  simp only [create] at h
  split at h
  · cases h
  · split at h
    · cases h
    · obtain ⟨rfl, hq⟩ := Prod.mk.inj h
      obtain rfl := Except.ok.inj hq
      rw [valueAt_addChild]
      simp [valueAt, GoMap.find_insert, freshNode, Node.value]

/-- `Set` on one path, and on the others. -/
theorem Retouched.valueAt (h : Retouched s s' p n n') (q : Str) :
    valueAt s'.nodes q = if q = p then some n'.value else valueAt s.nodes q := by
  rw [Store.valueAt, h.lookup]
  split
  · rfl
  · rfl

/-- A version that is given and is not the node's own does not match. -/
theorem versionMatches_of_nonneg (hv : 0 ≤ v) : versionMatches v n = true ↔ v = n.version := by
  simp only [versionMatches, ge_iff_le, hv, true_and, decide_eq_true_eq, not_not]
  omega

/-- An update moves the version on by one and has found the version it expected. -/
structure Updates (n : Node) (u : Update) : Prop where
  returned : u.returned = n.updated u.data
  expected : 0 ≤ u.expectedVersion → u.expectedVersion = n.version

/-- **What a call does to the version and the data of a node that survives it.** -/
theorem value_of_step (hn : s.nodes.find q = some n) (hstep : step s op = some t)
    (hq : q ∈ t.nodes) :
    (∃ u, update q s op = some u ∧ Updates n u ∧ valueAt t.nodes q = some u.returned.value) ∨
      update q s op = none ∧ valueAt t.nodes q = some n.value := by
  have hval : valueAt s.nodes q = some n.value := by rw [valueAt, hn, Option.map_some]
  have hthere := mem_iff_valueAt.mp hq
  cases op with
  | create p d eph sid sq =>
    obtain rfl := Option.some.inj hstep
    exact .inr ⟨rfl, (valueAt_create eph sq (GoMap.mem_of_find hn)).trans hval⟩
  | set p d v =>
    obtain rfl := Option.some.inj hstep
    rcases set_cases s p d v with ⟨e, herr, hsame⟩ | ⟨m, hmatch, hset, -, hr⟩
    · refine .inr ⟨?_, ?_⟩
      · simp [update, herr]
      · rw [hsame, hval]
    · by_cases hp : normalizePath p = q
      · subst hp
        obtain rfl := Option.some.inj (hn.symm.trans hr.node)
        refine .inl ⟨⟨d, v, n.updated d⟩, ?_, ⟨rfl, fun hv => ?_⟩, ?_⟩
        · simp [update, hset]
        · exact (versionMatches_of_nonneg hv).mp hmatch
        · rw [hr.valueAt, if_pos rfl]
      · refine .inr ⟨?_, ?_⟩
        · simp [update, hp]
        · rw [hr.valueAt, if_neg (Ne.symm hp), hval]
  | delete p v =>
    refine .inr ⟨rfl, ?_⟩
    simp only [step] at hstep
    split at hstep
    · rename_i s' hdel
      obtain rfl := Option.some.inj hstep
      rw [delete_eq_unlink hdel, valueAt_unlink] at hthere ⊢
      split at hthere
      · exact absurd rfl hthere
      · rename_i hne
        rw [if_neg hne, hval]
    · obtain rfl := Option.some.inj hstep
      exact hval
  | deleteEphemerals sid order =>
    refine .inr ⟨rfl, ?_⟩
    simp only [step, Option.ite_none_right_eq_some] at hstep
    obtain rfl := Option.some.inj hstep.2
    rw [valueAt_deleteEphemerals] at hthere ⊢
    split at hthere
    · exact absurd rfl hthere
    · rename_i hne
      rw [if_neg hne, hval]

/-! ## 3. A lifetime -/

theorem updates_cons (hstep : step s op = some t) (ops : List StoreOp) :
    updates q s (op :: ops) = (update q s op).toList ++ updates q t ops := by
  rw [updates, hstep]

theorem exists_find_of_valueAt {nodes : GoMap Str Node} {w : Nat × Str}
    (h : valueAt nodes q = some w) : ∃ m, nodes.find q = some m ∧ m.value = w :=
  Option.map_eq_some_iff.mp h

/-- **The version counts the updates.**  From any state with the node in it, along any calls that
it survives, as long as the counter does not wrap. -/
theorem version_counts : ∀ (ops : List StoreOp) {s t : Store} {n : Node},
    s.nodes.find q = some n → Lts.exec step s ops = some t →
    (∀ u ∈ Lts.states step s ops, q ∈ u.nodes) → n.version + (updates q s ops).length < 2 ^ 64 →
    valueAt t.nodes q = some (n.version + (updates q s ops).length,
      lastData n.data (updates q s ops)) ∧
    ∀ (k : Nat) (u : Update), (updates q s ops)[k]? = some u →
      u.returned.version = n.version + k + 1 ∧
        (0 ≤ u.expectedVersion → u.expectedVersion = n.version + k) := by
  intro ops
  induction ops with
  | nil =>
    intro s t n hn hexec _ _
    obtain rfl := Option.some.inj hexec
    simp [updates, lastData, valueAt, hn, Node.value]
  | cons op ops ih =>
    intro s t n hn hexec halive hfew
    simp only [Lts.exec, Option.bind_eq_some_iff] at hexec
    obtain ⟨m, hstep, hexec⟩ := hexec
    simp only [Lts.states, hstep, List.forall_mem_cons] at halive
    have hq : q ∈ m.nodes := by
      obtain ⟨rest, hrest⟩ := Lts.exists_states_eq_cons step m ops
      exact halive.2 m (hrest ▸ List.mem_cons_self)
    rw [updates_cons hstep] at hfew ⊢
    rcases value_of_step hn hstep hq with ⟨u, hu, hup, hval⟩ | ⟨hu, hval⟩
    · obtain ⟨n', hn', hvalue⟩ := exists_find_of_valueAt hval
      rw [hu] at hfew ⊢
      simp only [Option.toList_some, List.singleton_append, List.length_cons] at hfew ⊢
      have hret : u.returned.version = n.version + 1 := by
        rw [hup.returned, Node.updated]
        exact Nat.mod_eq_of_lt (by omega)
      have hver : n'.version = n.version + 1 := (congrArg Prod.fst hvalue).trans hret
      have hdata : n'.data = u.data := (congrArg Prod.snd hvalue).trans (by rw [hup.returned]; rfl)
      obtain ⟨hfinal, hall⟩ := ih hn' hexec halive.2 (by omega)
      refine ⟨?_, fun k w hw => ?_⟩
      · rw [hfinal, hver, hdata, lastData_cons, Nat.add_right_comm, Nat.add_assoc]
      · cases k with
        | zero =>
          obtain rfl := Option.some.inj hw
          exact ⟨hret, fun h0 => by rw [hup.expected h0]; simp⟩
        | succ k =>
          obtain ⟨h1, h2⟩ := hall k w hw
          rw [hver] at h1 h2
          exact ⟨by omega, fun h0 => by rw [h2 h0]; push_cast; omega⟩
    · obtain ⟨n', hn', hvalue⟩ := exists_find_of_valueAt hval
      have hver : n'.version = n.version := congrArg Prod.fst hvalue
      have hdata : n'.data = n.data := congrArg Prod.snd hvalue
      rw [hu] at hfew ⊢
      simp only [Option.toList_none, List.nil_append] at hfew ⊢
      rw [← hver, ← hdata]
      exact ih hn' hexec halive.2 (by omega)

theorem valueAt_of_born {v₀ : Nat} {d₀ : Str} (h : Born s q v₀ d₀) :
    valueAt s.nodes q = some (v₀, d₀) ∧ v₀ ≤ 1 := by
  cases h with
  | root => exact ⟨rfl, by omega⟩
  | create h => exact ⟨valueAt_create_ok h, le_rfl⟩

/-- A conditional `Set` of another version leaves the nodes alone. -/
theorem set_nodes_of_mismatch (hv : 0 ≤ v)
    (hne : ∀ n, s.nodes.find (normalizePath p) = some n → v ≠ n.version) :
    (set s p d v).1.nodes = s.nodes := by
  rcases set_cases s p d v with ⟨e, -, hsame⟩ | ⟨n, hmatch, -, -, hr⟩
  · rw [hsame]
  · exact absurd ((versionMatches_of_nonneg hv).mp hmatch) (hne n hr.node)

/-- So does a conditional `Delete`: it fails. -/
theorem delete_of_mismatch (hv : 0 ≤ v)
    (hne : ∀ n, s.nodes.find (normalizePath p) = some n → v ≠ n.version) :
    ∃ e, delete s p v = .error e := by
  simp only [delete]
  split
  · exact ⟨_, rfl⟩
  · split
    · exact ⟨_, rfl⟩
    · rename_i m hm
      rw [if_neg (mt (versionMatches_of_nonneg hv).mp (hne m hm))]
      exact ⟨_, rfl⟩

/-- **No lost update under compare-and-set.**  From the making of a node, along any calls that it
survives, with fewer than `2 ^ 63` updates:
* its version is the first one plus the number of updates, and its data are those of the last
  update, or of its making;
* the `k`-th update returns the first version plus `k`;
* two different updates do not name the same version;
* in every state on the way, a `Set` or `Delete` that names a version other than that of the node
  it is for leaves every node of the store as it is. -/
theorem no_lost_update {v₀ : Nat} {d₀ : Str} {ops : List StoreOp} (hborn : Born s q v₀ d₀)
    (hexec : Lts.exec step s ops = some t) (halive : ∀ u ∈ Lts.states step s ops, q ∈ u.nodes)
    (hfew : (updates q s ops).length < 2 ^ 63) :
    (∃ n, t.nodes.find q = some n ∧ n.version = v₀ + (updates q s ops).length ∧
      n.data = lastData d₀ (updates q s ops)) ∧
    (∀ (k : Nat) (u : Update), (updates q s ops)[k]? = some u →
      u.returned.version = v₀ + (k + 1)) ∧
    (∀ (i j : Nat) (u w : Update), (updates q s ops)[i]? = some u →
      (updates q s ops)[j]? = some w → 0 ≤ u.expectedVersion →
      u.expectedVersion = w.expectedVersion → i = j) ∧
    (∀ r ∈ Lts.states step s ops, ∀ (p d : Str) (v : Int), 0 ≤ v →
      (∀ n, r.nodes.find (normalizePath p) = some n → v ≠ n.version) →
      (∀ r', step r (.set p d v) = some r' → r'.nodes = r.nodes) ∧
      ∀ r', step r (.delete p v) = some r' → r'.nodes = r.nodes) := by
  obtain ⟨hval, hle⟩ := valueAt_of_born hborn
  obtain ⟨n, hn, hvalue⟩ := exists_find_of_valueAt hval
  obtain ⟨rfl, rfl⟩ := Prod.mk.inj hvalue
  obtain ⟨hfinal, hall⟩ := version_counts ops hn hexec halive (by omega)
  obtain ⟨m, hm, hmvalue⟩ := exists_find_of_valueAt hfinal
  refine ⟨⟨m, hm, congrArg Prod.fst hmvalue, congrArg Prod.snd hmvalue⟩, fun k u hu => ?_,
    fun i j u w hu hw h0 heq => ?_, fun r _ p d v hv hne => ⟨fun r' hr' => ?_, fun r' hr' => ?_⟩⟩
  · exact (hall k u hu).1
  · have hi := (hall i u hu).2 h0
    have hj := (hall j w hw).2 (heq ▸ h0)
    omega
  · obtain rfl := Option.some.inj hr'
    exact set_nodes_of_mismatch hv hne
  · obtain ⟨e, he⟩ := delete_of_mismatch hv hne
    simp only [step, he, Option.some.injEq] at hr'
    rw [hr']

/-- A store in which `/a` has just been made. -/
def madeA : Store := (create newStore "/a".toList "w".toList false [] false).1

theorem born_madeA : Born madeA "/a".toList 1 "w".toList :=
  .create (Prod.ext rfl (by decide +kernel) :
    create newStore "/a".toList "w".toList false [] false = (madeA, .ok "/a".toList))

/-- One update without a condition and one at version 2; the last `Set` comes too late. -/
def contestedUpdates : List StoreOp :=
  [.set "/a".toList "x".toList (-1), .set "/a".toList "y".toList 2, .set "/a".toList "z".toList 2]

theorem no_lost_update_contested :
    ∃ t n, Lts.exec step madeA contestedUpdates = some t ∧ t.nodes.find "/a".toList = some n ∧
      (updates "/a".toList madeA contestedUpdates).length = 2 ∧ n.version = 1 + 2 ∧
      n.data = "y".toList := by
  have hexec : (Lts.exec step madeA contestedUpdates).isSome = true := by decide +kernel
  obtain ⟨t, ht⟩ := Option.isSome_iff_exists.mp hexec
  have halive : ∀ u ∈ Lts.states step madeA contestedUpdates, "/a".toList ∈ u.nodes := by
    decide +kernel
  have hlen : (updates "/a".toList madeA contestedUpdates).length = 2 := by decide +kernel
  have hlast : lastData "w".toList (updates "/a".toList madeA contestedUpdates) = "y".toList := by
    decide +kernel
  obtain ⟨⟨n, hn, hversion, hdata⟩, -⟩ :=
    no_lost_update born_madeA ht halive (by rw [hlen]; decide)
  exact ⟨t, n, ht, hn, hlen, hversion.trans (by rw [hlen]), hdata.trans hlast⟩

end SkyLock.Store
