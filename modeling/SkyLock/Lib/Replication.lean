/-
# Replicated logs with one writer per term

What a leader-based replication protocol does, without messages, clocks or roles.  In each term
at most one log is begun and from then on only appended to, the CHAIN of the term.  A replica
follows chains of ever later terms: it replaces its log by a part of a chain, unless that would
drop something for no reason, and acknowledges.  Before a chain is begun, a quorum of replicas has
let its founder pass as up to date.

An entry is COMMITTED when a quorum has acknowledged it in the term of its chain.  The main result
is that every later chain begins with it (`Valid.complete`), whatever order things happen in, so
that what is committed anywhere is a prefix of one and the same log (`Settled.comparable`).

The state is a history: nothing in it is ever forgotten.  A system with real messages refines this
one by keeping such a history beside its state.
-/
import Mathlib

namespace Replication

/-! ## 1. Lists -/

section Lists

variable {α : Type*} {l l' m : List α} {i : Nat}

/-- Two prefixes of one list are comparable. -/
theorem comparable_of_prefix (h : l <+: m) (h' : l' <+: m) : l <+: l' ∨ l' <+: l := by
  rcases Nat.le_total l.length l'.length with hle | hle
  · exact .inl (List.prefix_of_prefix_length_le h h' hle)
  · exact .inr (List.prefix_of_prefix_length_le h' h hle)

theorem getElem?_of_prefix {e : α} (h : l <+: m) (he : l[i]? = some e) : m[i]? = some e := by
  obtain ⟨t, rfl⟩ := h
  rwa [List.getElem?_append_left (List.getElem?_eq_some_iff.mp he).1]

/-- What a list has in its first `i` entries, every longer list has there. -/
theorem take_eq_of_prefix (h : l <+: m) (hi : i ≤ l.length) : m.take i = l.take i := by
  obtain ⟨t, rfl⟩ := h
  rw [List.take_append_of_le_length hi]

end Lists

/-! ## 2. Histories -/

/-- The history of a replicated log with replicas `ν` and entries `α`. -/
structure History (ν α : Type*) where
  /-- The term a replica is in. -/
  epoch : ν → Nat
  /-- Has it heard of the chain of that term? -/
  followed : ν → Bool
  log : ν → List α
  /-- What a chain was begun with. -/
  start : Nat → Option (List α)
  chain : Nat → List α
  /-- The replica has had the first so many entries of the chain of the term as its log. -/
  acked : ν → Nat → Nat → Prop
  /-- The replica had this log when it let somebody pass in the term. -/
  voted : ν → Nat → List α → Prop

namespace History

variable {ν α : Type*}

/-- The chains a replica may have followed are those of the terms below its horizon. -/
def horizon (h : History ν α) (q : ν) : Nat :=
  if h.followed q then h.epoch q + 1 else h.epoch q

section Steps

variable [DecidableEq ν]

/-- Enter a later term. -/
def advance (h : History ν α) (q : ν) (T : Nat) : History ν α :=
  { h with
    epoch := Function.update h.epoch q T
    followed := Function.update h.followed q false }

/-- Hear of the chain of a term that is not an earlier one. -/
def hear (h : History ν α) (q : ν) (T : Nat) : History ν α :=
  { h with
    epoch := Function.update h.epoch q T
    followed := Function.update h.followed q true }

/-- Let somebody pass in the current term. -/
def vote (h : History ν α) (q : ν) : History ν α :=
  { h with voted := fun p T l => h.voted p T l ∨ p = q ∧ T = h.epoch q ∧ l = h.log q }

/-- Begin the chain of the current term with one's own log. -/
def elect (h : History ν α) (p : ν) : History ν α :=
  { h with
    start := Function.update h.start (h.epoch p) (some (h.log p))
    chain := Function.update h.chain (h.epoch p) (h.log p)
    acked := fun q T m => h.acked q T m ∨ q = p ∧ T = h.epoch p ∧ m = (h.log p).length }

/-- Append to the chain of the current term, which is one's own log. -/
def propose (h : History ν α) (p : ν) (e : α) : History ν α :=
  { h with
    log := Function.update h.log p (h.log p ++ [e])
    chain := Function.update h.chain (h.epoch p) (h.log p ++ [e])
    acked := fun q T m => h.acked q T m ∨ q = p ∧ T = h.epoch p ∧ m = (h.log p).length + 1 }

/-- Take over the first `k` entries of the chain of the current term. -/
def accept (h : History ν α) (q : ν) (k : Nat) : History ν α :=
  { h with
    log := Function.update h.log q ((h.chain (h.epoch q)).take k)
    acked := fun p T m => h.acked p T m ∨ p = q ∧ T = h.epoch q ∧ m = k }

theorem log_propose (h : History ν α) (p : ν) (e : α) (q : ν) :
    (h.propose p e).log q = if q = p then h.log p ++ [e] else h.log q := Function.update_apply ..

theorem log_accept (h : History ν α) (q : ν) (k : Nat) (r : ν) :
    (h.accept q k).log r = if r = q then (h.chain (h.epoch q)).take k else h.log r :=
  Function.update_apply ..

theorem chain_propose (h : History ν α) (p : ν) (e : α) (T : Nat) :
    (h.propose p e).chain T = if T = h.epoch p then h.log p ++ [e] else h.chain T :=
  Function.update_apply ..

omit [DecidableEq ν] in
theorem start_elect (h : History ν α) (p : ν) (T : Nat) :
    (h.elect p).start T = if T = h.epoch p then some (h.log p) else h.start T :=
  Function.update_apply ..

omit [DecidableEq ν] in
theorem chain_elect (h : History ν α) (p : ν) (T : Nat) :
    (h.elect p).chain T = if T = h.epoch p then h.log p else h.chain T := Function.update_apply ..

/-! ## 3. Steps -/

variable (term : α → Nat)

def lastTerm (l : List α) : Nat := (l.getLast?.map term).getD 0

/-- `l` is at least as up to date as `m`. -/
def UpToDate (l m : List α) : Prop :=
  lastTerm term m < lastTerm term l ∨ lastTerm term m = lastTerm term l ∧ m.length ≤ l.length

/-- Replacing `l` by the first `k` entries of `m` drops nothing, or something that conflicts. -/
def MayReplace (l m : List α) (k : Nat) : Prop :=
  l.length ≤ k ∨ ∃ i e e', i < k ∧ l[i]? = some e ∧ m[i]? = some e' ∧ term e ≠ term e'

/-- **The steps of the protocol.** -/
inductive Step (electing : Finset ν → Prop) (h : History ν α) : History ν α → Prop
  | advance (q : ν) (T : Nat) (hT : h.epoch q < T) : Step electing h (h.advance q T)
  | hear (q : ν) (T : Nat) (hT : h.epoch q ≤ T) : Step electing h (h.hear q T)
  | vote (q : ν) (hq : h.followed q = false) : Step electing h (h.vote q)
  | elect (p : ν) (hnew : h.start (h.epoch p) = none)
    (hwon : ∃ Q, electing Q ∧ ∀ q ∈ Q, ∃ l, h.voted q (h.epoch p) l ∧ UpToDate term (h.log p) l) :
    Step electing h (h.elect p)
  | propose (p : ν) (e : α) (he : term e = h.epoch p) (hlead : h.log p = h.chain (h.epoch p))
    (hbegun : h.start (h.epoch p) ≠ none) : Step electing h (h.propose p e)
  | accept (q : ν) (k : Nat) (hq : h.followed q = true) (hbegun : h.start (h.epoch q) ≠ none)
    (hk : k ≤ (h.chain (h.epoch q)).length)
    (hmay : MayReplace term (h.log q) (h.chain (h.epoch q)) k) : Step electing h (h.accept q k)

end Steps

/-! ## 4. The invariant -/

/-- Histories only grow. -/
structure Extends (h h' : History ν α) : Prop where
  epoch : ∀ q, h.epoch q ≤ h'.epoch q
  start : ∀ T l, h.start T = some l → h'.start T = some l
  chain : ∀ T, h.chain T <+: h'.chain T
  acked : ∀ q T m, h.acked q T m → h'.acked q T m
  voted : ∀ q T l, h.voted q T l → h'.voted q T l

/-- Every entry of the log was written in a term whose chain has been begun, and up to it the log
is that chain. -/
def Grown (term : α → Nat) (h : History ν α) (l : List α) : Prop :=
  ∀ i e, l[i]? = some e → h.start (term e) ≠ none ∧ l.take (i + 1) <+: h.chain (term e)

/-- Every chain of a term after `T` and before `U` has been begun with `P`. -/
def Kept (h : History ν α) (P : List α) (T U : Nat) : Prop :=
  ∀ V s, T < V → V < U → h.start V = some s → P <+: s

/-- **The invariant.** -/
structure Valid (term : α → Nat) (electing : Finset ν → Prop) (h : History ν α) : Prop where
  log : ∀ q, h.Grown term (h.log q)
  chain : ∀ T, h.Grown term (h.chain T)
  ballot : ∀ q T l, h.voted q T l → h.Grown term l
  unborn : ∀ T, h.start T = none → h.chain T = []
  begun : ∀ T s, h.start T = some s → s <+: h.chain T
  older : ∀ T s, h.start T = some s → ∀ e ∈ s, term e < T
  chainTerm : ∀ T, ∀ e ∈ h.chain T, term e ≤ T
  logTerm : ∀ q, ∀ e ∈ h.log q, term e ≤ h.epoch q
  acked : ∀ q T m, h.acked q T m → m ≤ (h.chain T).length ∧ T ≤ h.epoch q ∧ h.start T ≠ none
  voted : ∀ q T l, h.voted q T l → T ≤ h.epoch q
  won : ∀ T s, h.start T = some s →
    ∃ Q, electing Q ∧ ∀ q ∈ Q, ∃ l, h.voted q T l ∧ UpToDate term s l
  /-- A replica still has what it has acknowledged, if the chains it may have followed since all
  have it. -/
  keptLog : ∀ q T m P, h.acked q T m → P <+: (h.chain T).take m → h.Kept P T (h.horizon q) →
    P <+: h.log q
  keptBallot : ∀ q T m U l P, h.voted q U l → h.acked q T m → T < U →
    P <+: (h.chain T).take m → h.Kept P T U → P <+: l

section Lemmas

variable {term : α → Nat} {h h' : History ν α} {q : ν} {T U k : Nat} {P l : List α} {e : α}

theorem Grown.take (hl : h.Grown term l) (k : Nat) : h.Grown term (l.take k) := by
  intro i e he
  obtain ⟨hlt, -⟩ := List.getElem?_eq_some_iff.mp he
  rw [List.length_take] at hlt
  rw [List.getElem?_take_of_lt (by omega)] at he
  obtain ⟨hstart, hpre⟩ := hl i e he
  rw [List.take_take, Nat.min_eq_left (by omega)]
  exact ⟨hstart, hpre⟩

/-- What has been begun stays begun. -/
theorem Extends.begun (hext : Extends h h') (hstart : h.start T ≠ none) : h'.start T ≠ none := by
  obtain ⟨s, hs⟩ := Option.ne_none_iff_exists'.mp hstart
  rw [hext.start T s hs]
  exact Option.some_ne_none s

theorem Grown.mono (hl : h.Grown term l) (hext : Extends h h') : h'.Grown term l := by
  intro i e he
  obtain ⟨hstart, hpre⟩ := hl i e he
  exact ⟨hext.begun hstart, hpre.trans (hext.chain _)⟩

/-- Appending to the chain of a term grows it. -/
theorem Grown.concat (hl : h.Grown term l) (hstart : h.start (term e) ≠ none)
    (hchain : h.chain (term e) = l ++ [e]) : h.Grown term (l ++ [e]) := by
  intro i x hx
  by_cases hi : i < l.length
  · rw [List.getElem?_append_left hi] at hx
    rw [List.take_append_of_le_length hi]
    exact hl i x hx
  · have hlt := (List.getElem?_eq_some_iff.mp hx).1
    rw [List.length_append, List.length_singleton] at hlt
    obtain rfl : i = l.length := by omega
    rw [List.getElem?_concat_length] at hx
    obtain rfl := Option.some.inj hx
    exact ⟨hstart, hchain ▸ List.take_prefix _ _⟩

theorem Grown.start_of_mem (hl : h.Grown term l) (he : e ∈ l) : h.start (term e) ≠ none := by
  obtain ⟨i, hi⟩ := List.mem_iff_getElem?.mp he
  exact (hl i e hi).1

/-- A log that ends in an entry of a term is a prefix of the chain of that term. -/
theorem Grown.prefix_chain_last (hl : h.Grown term l) (he : l.getLast? = some e) :
    l <+: h.chain (term e) := by
  rw [List.getLast?_eq_getElem?] at he
  obtain ⟨hlt, -⟩ := List.getElem?_eq_some_iff.mp he
  have hpre := (hl _ e he).2
  rwa [Nat.sub_add_cancel (by omega), List.take_length] at hpre

theorem Kept.anti {V : Nat} (hk : h.Kept P T V) (hle : U ≤ V) : h.Kept P T U :=
  fun W s hT hW hs => hk W s hT (by omega) hs

theorem Kept.of_extends (hk : h'.Kept P T U) (hext : Extends h h') : h.Kept P T U :=
  fun V s hT hV hs => hk V s hT hV (hext.start V s hs)

/-- A prefix that the log and the chain have in common survives a replacement. -/
theorem MayReplace.prefix_take {m : List α} (hmay : MayReplace term l m k) (hl : P <+: l)
    (hm : P <+: m) : P <+: m.take k := by
  refine List.prefix_take_iff.mpr ⟨hm, ?_⟩
  rcases hmay with hle | ⟨i, e, e', hi, he, he', hne⟩
  · exact hl.length_le.trans hle
  · by_contra hlt
    have hiP : i < P.length := by omega
    have h1 := getElem?_of_prefix hl (List.getElem?_eq_getElem hiP)
    have h2 := getElem?_of_prefix hm (List.getElem?_eq_getElem hiP)
    rw [he] at h1
    rw [he'] at h2
    exact hne (congrArg term ((Option.some.inj h1).trans (Option.some.inj h2).symm))

theorem Extends.refl (h : History ν α) : Extends h h :=
  ⟨fun _ => le_rfl, fun _ _ hl => hl, fun _ => List.prefix_rfl, fun _ _ _ ha => ha,
    fun _ _ _ hv => hv⟩

theorem Extends.trans {h'' : History ν α} (h₁ : Extends h h') (h₂ : Extends h' h'') :
    Extends h h'' where
  epoch q := (h₁.epoch q).trans (h₂.epoch q)
  start T l hl := h₂.start T l (h₁.start T l hl)
  chain T := (h₁.chain T).trans (h₂.chain T)
  acked q T m ha := h₂.acked q T m (h₁.acked q T m ha)
  voted q T l hv := h₂.voted q T l (h₁.voted q T l hv)

/-! A chain that is begun or appended to, whoever does it. -/

/-- The chain of the term is `l`, and was begun with it if it had not been begun. -/
def grow (h : History ν α) (T : Nat) (l : List α) : History ν α :=
  { h with
    start := Function.update h.start T (some ((h.start T).getD l))
    chain := Function.update h.chain T l }

theorem start_grow (h : History ν α) (T : Nat) (l : List α) (U : Nat) :
    (h.grow T l).start U = if U = T then some ((h.start T).getD l) else h.start U :=
  Function.update_apply ..

theorem chain_grow (h : History ν α) (T : Nat) (l : List α) (U : Nat) :
    (h.grow T l).chain U = if U = T then l else h.chain U := Function.update_apply ..

theorem start_grow_ne_none (h : History ν α) (T : Nat) (l : List α) :
    (h.grow T l).start T ≠ none := by
  rw [start_grow, if_pos rfl]
  exact Option.some_ne_none _

theorem extends_grow (hpre : h.chain T <+: l) : Extends h (h.grow T l) where
  epoch _ := le_rfl
  start U s hs := by
    rw [start_grow]
    split
    · rename_i heq
      rw [← heq, hs, Option.getD_some]
    · exact hs
  chain U := by
    rw [chain_grow]
    split
    · rename_i heq
      exact heq ▸ hpre
    · exact List.prefix_rfl
  acked _ _ _ ha := ha
  voted _ _ _ hv := hv

end Lemmas

/-! ## 5. Every step keeps it -/

section Invariant

variable {term : α → Nat} {electing : Finset ν → Prop} {h h' : History ν α} {p q : ν} {T k : Nat}
  {e : α}

/-- Later terms and wider horizons. -/
theorem Valid.retime (hv : h.Valid term electing) {epoch : ν → Nat} {followed : ν → Bool}
    (hepoch : ∀ q, h.epoch q ≤ epoch q)
    (hhorizon : ∀ q, h.horizon q ≤ { h with epoch, followed : History ν α }.horizon q) :
    Valid term electing { h with epoch, followed } :=
  { hv with
    logTerm := fun q e he => (hv.logTerm q e he).trans (hepoch q)
    acked := fun q T m ha =>
      ⟨(hv.acked q T m ha).1, (hv.acked q T m ha).2.1.trans (hepoch q), (hv.acked q T m ha).2.2⟩
    voted := fun q T l hl => (hv.voted q T l hl).trans (hepoch q)
    keptLog := fun q T m P ha hP hk => hv.keptLog q T m P ha hP (Kept.anti hk (hhorizon q)) }

theorem Valid.vote (hv : h.Valid term electing) (hq : h.followed q = false) :
    (h.vote q).Valid term electing :=
  { hv with
    ballot := by
      rintro r T l (hl | ⟨-, -, rfl⟩)
      · exact hv.ballot r T l hl
      · exact hv.log q
    voted := by
      rintro r T l (hl | ⟨rfl, rfl, -⟩)
      · exact hv.voted r T l hl
      · exact le_rfl
    won := fun T s hs => by
      obtain ⟨Q, hQ, hwon⟩ := hv.won T s hs
      refine ⟨Q, hQ, fun r hr => ?_⟩
      obtain ⟨l, hl, hup⟩ := hwon r hr
      exact ⟨l, .inl hl, hup⟩
    keptBallot := by
      rintro r T m U l P (hl | ⟨rfl, rfl, rfl⟩) ha hTU hP hk
      · exact hv.keptBallot r T m U l P hl ha hTU hP hk
      · refine hv.keptLog r T m P ha hP ?_
        rw [horizon, hq]
        exact hk }

theorem extends_elect (hv : h.Valid term electing) (hnew : h.start (h.epoch p) = none) :
    Extends h (h.elect p) := by
  refine { Extends.refl h with start := ?_, chain := ?_, acked := fun _ _ _ ha => .inl ha }
  · intro T l hl
    have hne : T ≠ h.epoch p := fun heq => by rw [heq, hnew] at hl; exact absurd hl (by simp)
    rw [start_elect, if_neg hne]
    exact hl
  · intro T
    rw [chain_elect]
    split
    · rename_i hT
      rw [hT, hv.unborn _ hnew]
      exact List.nil_prefix
    · exact List.prefix_rfl

theorem Valid.elect (hv : h.Valid term electing) (hnew : h.start (h.epoch p) = none)
    (hwon : ∃ Q, electing Q ∧
      ∀ q ∈ Q, ∃ l, h.voted q (h.epoch p) l ∧ UpToDate term (h.log p) l) :
    (h.elect p).Valid term electing := by
  have hext := extends_elect hv hnew
  have hchain : (h.elect p).chain (h.epoch p) = h.log p := by rw [chain_elect, if_pos rfl]
  -- a term that has been acknowledged in has begun, so it is another one
  have hne : ∀ {q T m}, h.acked q T m → T ≠ h.epoch p := fun ha heq =>
    (hv.acked _ _ _ ha).2.2 (heq ▸ hnew)
  exact
    { log := fun q => (hv.log q).mono hext
      chain := fun T => by
        rw [chain_elect]
        split
        · exact (hv.log p).mono hext
        · exact (hv.chain T).mono hext
      ballot := fun q T l hl => (hv.ballot q T l hl).mono hext
      unborn := fun T hT => by
        rw [start_elect] at hT
        split at hT
        · exact absurd hT (by simp)
        · rename_i heq
          rw [chain_elect, if_neg heq]
          exact hv.unborn T hT
      begun := fun T s hs => by
        rw [start_elect] at hs
        rw [chain_elect]
        split at hs
        · rename_i heq
          rw [if_pos heq, Option.some.inj hs]
        · rename_i heq
          rw [if_neg heq]
          exact hv.begun T s hs
      older := fun T s hs e he => by
        rw [start_elect] at hs
        split at hs
        · obtain rfl := Option.some.inj hs
          have hle := hv.logTerm p e he
          have hterm : term e ≠ h.epoch p := fun h0 => (hv.log p).start_of_mem he (h0 ▸ hnew)
          omega
        · exact hv.older T s hs e he
      chainTerm := fun T e he => by
        rw [chain_elect] at he
        split at he
        · rename_i heq
          exact heq ▸ hv.logTerm p e he
        · exact hv.chainTerm T e he
      logTerm := hv.logTerm
      acked := by
        rintro q T m (ha | ⟨rfl, rfl, rfl⟩)
        · rw [chain_elect, start_elect, if_neg (hne ha), if_neg (hne ha)]
          exact hv.acked q T m ha
        · rw [hchain, start_elect, if_pos rfl]
          exact ⟨le_rfl, le_rfl, by simp⟩
      voted := hv.voted
      won := fun T s hs => by
        rw [start_elect] at hs
        split at hs
        · rename_i heq
          obtain rfl := Option.some.inj hs
          exact heq ▸ hwon
        · exact hv.won T s hs
      keptLog := by
        rintro q T m P (ha | ⟨rfl, rfl, rfl⟩) hP hk
        · rw [chain_elect, if_neg (hne ha)] at hP
          exact hv.keptLog q T m P ha hP (hk.of_extends hext)
        · rw [hchain] at hP
          exact hP.trans (List.take_prefix _ _)
      keptBallot := by
        rintro q T m U l P hl (ha | ⟨rfl, rfl, rfl⟩) hTU hP hk
        · rw [chain_elect, if_neg (hne ha)] at hP
          exact hv.keptBallot q T m U l P hl ha hTU hP (hk.of_extends hext)
        · exact absurd (hv.voted q U l hl) (by omega) }

variable [DecidableEq ν]

theorem update_epoch_le (hT : h.epoch q ≤ T) (r : ν) :
    h.epoch r ≤ Function.update h.epoch q T r := by
  by_cases hr : r = q
  · subst hr
    rwa [Function.update_self]
  · rw [Function.update_of_ne hr]

theorem extends_propose (hlead : h.log p = h.chain (h.epoch p)) : Extends h (h.propose p e) := by
  refine { Extends.refl h with chain := ?_, acked := fun _ _ _ ha => .inl ha }
  intro T
  rw [chain_propose]
  split
  · rename_i hT
    rw [hT, ← hlead]
    exact List.prefix_append _ _
  · exact List.prefix_rfl

theorem Step.extends (hv : h.Valid term electing) (hstep : Step term electing h h') :
    Extends h h' := by
  cases hstep with
  | advance q T hT => exact { Extends.refl h with epoch := update_epoch_le hT.le }
  | hear q T hT => exact { Extends.refl h with epoch := update_epoch_le hT }
  | vote q hq => exact { Extends.refl h with voted := fun _ _ _ hv => .inl hv }
  | elect p hnew hwon => exact extends_elect hv hnew
  | propose p e he hlead hbegun => exact extends_propose hlead
  | accept q k => exact { Extends.refl h with acked := fun _ _ _ ha => .inl ha }

theorem Valid.advance (hv : h.Valid term electing) (hT : h.epoch q < T) :
    (h.advance q T).Valid term electing := by
  refine hv.retime (update_epoch_le hT.le) fun r => ?_
  unfold horizon
  by_cases hr : r = q
  · subst hr
    simp only [Function.update_self]
    split <;> simp <;> omega
  · simp only [Function.update_of_ne hr]
    exact le_rfl

theorem Valid.hear (hv : h.Valid term electing) (hT : h.epoch q ≤ T) :
    (h.hear q T).Valid term electing := by
  refine hv.retime (update_epoch_le hT) fun r => ?_
  unfold horizon
  by_cases hr : r = q
  · subst hr
    simp only [Function.update_self]
    split <;> simp <;> omega
  · simp only [Function.update_of_ne hr]
    exact le_rfl

theorem Valid.propose (hv : h.Valid term electing) (he : term e = h.epoch p)
    (hlead : h.log p = h.chain (h.epoch p)) (hbegun : h.start (h.epoch p) ≠ none) :
    (h.propose p e).Valid term electing := by
  have hext : Extends h (h.propose p e) := extends_propose hlead
  have hchain : (h.propose p e).chain (h.epoch p) = h.log p ++ [e] := by
    rw [chain_propose, if_pos rfl]
  have hgrown : (h.propose p e).Grown term (h.log p ++ [e]) :=
    ((hv.log p).mono hext).concat (he ▸ hbegun) (he ▸ hchain)
  have hterms : ∀ x ∈ h.log p ++ [e], term x ≤ h.epoch p := fun x hx => by
    rcases List.mem_append.mp hx with hx | hx
    · exact hv.logTerm p x hx
    · rw [List.mem_singleton.mp hx, he]
  -- what has been acknowledged is there already
  have htake : ∀ {q T m}, h.acked q T m → ((h.propose p e).chain T).take m = (h.chain T).take m :=
    fun ha => take_eq_of_prefix (hext.chain _) (hv.acked _ _ _ ha).1
  exact
    { log := fun q => by
        rw [log_propose]
        split
        · exact hgrown
        · exact (hv.log q).mono hext
      chain := fun T => by
        rw [chain_propose]
        split
        · exact hgrown
        · exact (hv.chain T).mono hext
      ballot := fun q T l hl => (hv.ballot q T l hl).mono hext
      unborn := fun T hT => by
        have hne : T ≠ h.epoch p := fun heq => hbegun (heq ▸ hT)
        rw [chain_propose, if_neg hne]
        exact hv.unborn T hT
      begun := fun T s hs => (hv.begun T s hs).trans (hext.chain T)
      older := hv.older
      chainTerm := fun T x hx => by
        rw [chain_propose] at hx
        split at hx
        · rename_i hT
          exact hT ▸ hterms x hx
        · exact hv.chainTerm T x hx
      logTerm := fun q x hx => by
        rw [log_propose] at hx
        split at hx
        · rename_i hq
          exact hq ▸ hterms x hx
        · exact hv.logTerm q x hx
      acked := by
        rintro q T m (ha | ⟨rfl, rfl, rfl⟩)
        · obtain ⟨hm, hT, hs⟩ := hv.acked q T m ha
          exact ⟨hm.trans (hext.chain T).length_le, hT, hs⟩
        · rw [hchain, List.length_append]
          exact ⟨le_rfl, le_rfl, hbegun⟩
      voted := hv.voted
      won := hv.won
      keptLog := by
        rintro q T m P (ha | ⟨rfl, rfl, rfl⟩) hP hk
        · rw [htake ha] at hP
          have hold := hv.keptLog q T m P ha hP hk
          rw [log_propose]
          split
          · rename_i hq
            exact (hq ▸ hold).trans (List.prefix_append _ _)
          · exact hold
        · rw [hchain] at hP
          rw [log_propose, if_pos rfl]
          exact hP.trans (List.take_prefix _ _)
      keptBallot := by
        rintro q T m U l P hl (ha | ⟨rfl, rfl, rfl⟩) hTU hP hk
        · rw [htake ha] at hP
          exact hv.keptBallot q T m U l P hl ha hTU hP hk
        · exact absurd (hv.voted q U l hl) (by omega) }

theorem Valid.accept (hv : h.Valid term electing) (hq : h.followed q = true)
    (hbegun : h.start (h.epoch q) ≠ none) (hk : k ≤ (h.chain (h.epoch q)).length)
    (hmay : MayReplace term (h.log q) (h.chain (h.epoch q)) k) :
    (h.accept q k).Valid term electing :=
  { hv with
    log := fun r => by
      rw [log_accept]
      split
      · exact (hv.chain _).take k
      · exact hv.log r
    logTerm := fun r e he => by
      rw [log_accept] at he
      split at he
      · rename_i hr
        rw [hr]
        exact hv.chainTerm _ e (List.mem_of_mem_take he)
      · exact hv.logTerm r e he
    acked := by
      rintro r T m (ha | ⟨rfl, rfl, rfl⟩)
      · exact hv.acked r T m ha
      · exact ⟨hk, le_rfl, hbegun⟩
    keptLog := by
      rintro r T m P (ha | ⟨rfl, rfl, rfl⟩) hP hkept
      · have hold := hv.keptLog r T m P ha hP hkept
        rw [log_accept]
        split
        · -- the chain that is taken over has `P` too: it is the one acknowledged, or a later one
          rename_i hr
          subst hr
          refine hmay.prefix_take hold ?_
          have hle := (hv.acked r T m ha).2.1
          rcases Nat.lt_or_eq_of_le hle with hlt | heq
          · obtain ⟨s, hs⟩ := Option.ne_none_iff_exists'.mp hbegun
            have hhor : h.epoch r < h.horizon r := by
              rw [horizon, hq, if_pos rfl]
              exact Nat.lt_succ_self _
            exact (hkept _ s hlt hhor hs).trans (hv.begun _ s hs)
          · exact heq ▸ hP.trans (List.take_prefix _ _)
        · exact hold
      · rw [log_accept, if_pos rfl]
        exact hP
    keptBallot := by
      rintro r T m U l P hl (ha | ⟨rfl, rfl, rfl⟩) hTU hP hkept
      · exact hv.keptBallot r T m U l P hl ha hTU hP hkept
      · exact absurd (hv.voted r U l hl) (by omega) }

/-- **Every step keeps the invariant.** -/
theorem Valid.step (hv : h.Valid term electing) (hstep : Step term electing h h') :
    h'.Valid term electing := by
  cases hstep with
  | advance q T hT => exact hv.advance hT
  | hear q T hT => exact hv.hear hT
  | vote q hq => exact hv.vote hq
  | elect p hnew hwon => exact hv.elect hnew hwon
  | propose p e he hlead hbegun => exact hv.propose he hlead hbegun
  | accept q k hq hbegun hk hmay => exact hv.accept hq hbegun hk hmay

end Invariant

/-! ## 6. What is committed stays -/

section Committed

variable {term : α → Nat} {electing committing : Finset ν → Prop} {h h' : History ν α}
  {T U N : Nat} {P P' l s : List α}

/-- The entry at position `N` of the chain of `T` was written in that term and acknowledged in it
by a quorum. -/
structure Committed (term : α → Nat) (committing : Finset ν → Prop) (h : History ν α)
    (T N : Nat) : Prop where
  own : ∃ e, (h.chain T)[N]? = some e ∧ term e = T
  quorum : ∃ Q, committing Q ∧ ∀ q ∈ Q, ∃ m, h.acked q T m ∧ N < m

theorem Committed.mono (hc : h.Committed term committing T N) (hext : Extends h h') :
    h'.Committed term committing T N where
  own := by
    obtain ⟨e, he, hT⟩ := hc.own
    exact ⟨e, getElem?_of_prefix (hext.chain T) he, hT⟩
  quorum := by
    obtain ⟨Q, hQ, hack⟩ := hc.quorum
    refine ⟨Q, hQ, fun q hq => ?_⟩
    obtain ⟨m, hm, hN⟩ := hack q hq
    exact ⟨m, hext.acked q T m hm, hN⟩

theorem Committed.lt_length (hc : h.Committed term committing T N) : N < (h.chain T).length := by
  obtain ⟨e, he, -⟩ := hc.own
  exact (List.getElem?_eq_some_iff.mp he).1

theorem lastTerm_of_getLast? {e : α} (he : l.getLast? = some e) : lastTerm term l = term e := by
  rw [lastTerm, he]
  rfl

/-- A log that is at least as up to date as one with `P` in it has `P` too, if `P` ends in an entry
of the term `T` and all chains begun after `T` and before `U` have it. -/
theorem prefix_of_upToDate (hv : h.Valid term electing) (hs : h.Grown term s)
    (hsU : ∀ e ∈ s, term e < U) (hl : h.Grown term l) (hup : UpToDate term s l) (hP : P <+: l)
    {e : α} (he : P.getLast? = some e) (hkept : h.Kept P (term e) U) : P <+: s := by
  have heP : e ∈ P := List.mem_of_getLast? he
  -- the last entry of `l` is not older than that of `P`
  obtain ⟨x, hx⟩ : ∃ x, l.getLast? = some x := by
    rw [← Option.isSome_iff_exists, List.getLast?_isSome]
    exact List.ne_nil_of_mem (hP.subset heP)
  have hlx := hl.prefix_chain_last hx
  have hTx : term e ≤ term x := hv.chainTerm _ e (hlx.subset (hP.subset heP))
  obtain ⟨y, hy⟩ : ∃ y, s.getLast? = some y := by
    rw [← Option.isSome_iff_exists, List.getLast?_isSome]
    rintro rfl
    have hlen : 0 < l.length := List.length_pos_of_mem (hP.subset heP)
    have h0 : lastTerm term ([] : List α) = 0 := rfl
    rcases hup with hlt | ⟨-, hle⟩
    · omega
    · exact absurd (show l.length ≤ 0 from hle) (by omega)
  have hsy := hs.prefix_chain_last hy
  have hys : y ∈ s := List.mem_of_getLast? hy
  rw [UpToDate, lastTerm_of_getLast? hx, lastTerm_of_getLast? hy] at hup
  rcases hup with hlt | ⟨heq, hle⟩
  · -- `s` ends in a later term, whose chain was begun with `P`
    obtain ⟨b, hb⟩ := Option.ne_none_iff_exists'.mp (hs.start_of_mem hys)
    have hPb := hkept (term y) b (by omega) (hsU y hys) hb
    rcases comparable_of_prefix (hv.begun _ b hb) hsy with hbs | hsb
    · exact hPb.trans hbs
    · exact absurd (hv.older _ b hb y (hsb.subset hys)) (lt_irrefl _)
  · -- both end in the same term, and `s` is the longer one
    rw [← heq] at hsy
    exact hP.trans (List.prefix_of_prefix_length_le hlx hsy hle)

/-- **Completeness.**  If any two quorums, one that elects and one that commits, have a replica in
common, every chain begun after the term in which an entry was committed has it. -/
theorem Valid.complete (hv : h.Valid term electing)
    (hmeet : ∀ A B, electing A → committing B → ∃ q, q ∈ A ∧ q ∈ B)
    (hc : h.Committed term committing T N) :
    ∀ U s, T < U → h.start U = some s → (h.chain T).take (N + 1) <+: s := by
  intro U
  induction U using Nat.strong_induction_on with
  | _ U ih =>
    intro s hTU hs
    obtain ⟨A, hA, hvoted⟩ := hv.won U s hs
    obtain ⟨B, hB, hacked⟩ := hc.quorum
    obtain ⟨q, hqA, hqB⟩ := hmeet A B hA hB
    obtain ⟨l, hl, hup⟩ := hvoted q hqA
    obtain ⟨m, hm, hN⟩ := hacked q hqB
    have hkept : h.Kept ((h.chain T).take (N + 1)) T U := fun V b hTV hVU hb => ih V hVU b hTV hb
    have hpre : (h.chain T).take (N + 1) <+: (h.chain T).take m := List.take_prefix_take_left hN
    have hPl := hv.keptBallot q T m U l _ hl hm hTU hpre hkept
    obtain ⟨e, he, hT⟩ := hc.own
    have hlast : ((h.chain T).take (N + 1)).getLast? = some e := by
      have hlen : ((h.chain T).take (N + 1)).length = N + 1 := by
        rw [List.length_take]
        exact Nat.min_eq_left hc.lt_length
      rw [List.getLast?_eq_getElem?, hlen, Nat.add_sub_cancel,
        List.getElem?_take_of_lt (by omega), he]
    subst hT
    have hgrown : h.Grown term s := by
      rw [List.prefix_iff_eq_take.mp (hv.begun U s hs)]
      exact (hv.chain U).take _
    exact prefix_of_upToDate hv hgrown (hv.older U s hs) (hv.ballot q U l hl) hup hPl hlast hkept

/-- `P` has been committed in a term up to `U`. -/
def Settled (term : α → Nat) (committing : Finset ν → Prop) (h : History ν α) (U : Nat)
    (P : List α) : Prop :=
  P = [] ∨ ∃ T N, T ≤ U ∧ h.Committed term committing T N ∧ P <+: (h.chain T).take (N + 1)

theorem Settled.mono (hP : h.Settled term committing T P) (hext : Extends h h') (hle : T ≤ U) :
    h'.Settled term committing U P := by
  rcases hP with rfl | ⟨V, N, hV, hc, hpre⟩
  · exact .inl rfl
  · exact .inr ⟨V, N, hV.trans hle, hc.mono hext, hpre.trans ((hext.chain V).take _)⟩

section Meet

variable (hv : h.Valid term electing)
  (hmeet : ∀ A B, electing A → committing B → ∃ q, q ∈ A ∧ q ∈ B)

include hv hmeet

/-- Every chain of a later term has what is settled. -/
theorem Settled.prefix_chain (hP : h.Settled term committing T P) (hle : T ≤ U)
    (hbegun : h.start U ≠ none) : P <+: h.chain U := by
  rcases hP with rfl | ⟨V, N, hV, hc, hpre⟩
  · exact List.nil_prefix
  · rcases Nat.lt_or_eq_of_le (hV.trans hle) with hlt | rfl
    · obtain ⟨s, hs⟩ := Option.ne_none_iff_exists'.mp hbegun
      exact hpre.trans ((hv.complete hmeet hc U s hlt hs).trans (hv.begun U s hs))
    · exact hpre.trans (List.take_prefix _ _)

/-- **Agreement.**  Any two settled lists are prefixes of one another. -/
theorem Settled.comparable (hP : h.Settled term committing T P)
    (hP' : h.Settled term committing U P') : P <+: P' ∨ P' <+: P := by
  rcases hP with rfl | ⟨V, N, hV, hc, hpre⟩
  · exact .inl List.nil_prefix
  rcases hP' with rfl | ⟨V', N', hV', hc', hpre'⟩
  · exact .inr List.nil_prefix
  have hbegun : ∀ {W M}, h.Committed term committing W M → h.start W ≠ none := fun hcW h0 => by
    have := hcW.lt_length
    rw [hv.unborn _ h0] at this
    exact absurd this (by simp)
  rcases Nat.le_total V V' with hle | hle
  · have hVV' := Settled.prefix_chain hv hmeet (.inr ⟨V, N, le_rfl, hc, hpre⟩) hle (hbegun hc')
    exact comparable_of_prefix hVV' (hpre'.trans (List.take_prefix _ _))
  · have hV'V := Settled.prefix_chain hv hmeet (.inr ⟨V', N', le_rfl, hc', hpre'⟩) hle (hbegun hc)
    exact comparable_of_prefix (hpre.trans (List.take_prefix _ _)) hV'V

end Meet

end Committed

end History

end Replication
