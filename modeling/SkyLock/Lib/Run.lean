/-
# Runs of a labelled transition system

A system is a partial step function `step : σ → α → Option σ`: from a state and an action it
gives the next state, or `none` where the action is not enabled.  Everything the rest of the
development says about interleavings it says about RUNS of such a function: an interleaving
of any number of parties is one sequence of actions, and "for any interleaving" is a
quantifier over runs.

A run carries a side condition `ok` on each step, a predicate of the state BEFORE the step and
of the action.  With the trivial condition it is plain reachability (`Reach`); with another one
it says "in every run whose steps all meet the condition", which is the form in which a defect
is delimited.

* `Run.invariant` is the induction every safety theorem goes through: what holds at the start
  and is kept by one step holds at the end.
* `Run.project` sees a run of a composed system at one of its parts.
* `exists_run` and `exists_reach` turn an evaluated list of actions into a run, so that a concrete
  run is a computation and not a derivation.
* `reachesBy_of_step` and `reachesBy_of_stuck` follow one party that acts alone.
* `forall_states_iff` and `isChain_states_iff` are the exact forms: a property of all states that a
  list of actions passes through, or of all its neighbouring states, holds if and only if every
  step meets the condition; `meets_of_last` concludes from the last state alone.
-/
import Mathlib

namespace Lts

variable {σ α : Type*}

/-! ## 1. Executing a list of actions -/

/-- Folds a partial step function over a list of actions. -/
def exec (step : σ → α → Option σ) : σ → List α → Option σ
  | s, [] => some s
  | s, a :: as => (step s a).bind fun t => exec step t as

theorem exec_concat (step : σ → α → Option σ) (a : α) : ∀ (as : List α) (s : σ),
    exec step s (as ++ [a]) = (exec step s as).bind fun t => step t a
  | [], s => by simp [exec]
  | b :: as, s => by
    simp only [List.cons_append, exec, Option.bind_assoc]
    congr 1
    funext t
    exact exec_concat step a as t

/-- The step function restricted to the steps that meet `ok`. -/
def guarded (step : σ → α → Option σ) (ok : σ → α → Prop) [∀ s a, Decidable (ok s a)]
    (s : σ) (a : α) : Option σ :=
  if ok s a then step s a else none

/-- The states that a list of actions passes through, the first one included; it stops where an
action is not enabled. -/
def states (step : σ → α → Option σ) : σ → List α → List σ
  | s, [] => [s]
  | s, a :: as =>
    s :: match step s a with
      | some t => states step t as
      | none => []

/-- Every step that the list of actions takes meets `ok`. -/
def Meets (step : σ → α → Option σ) (ok : σ → α → Prop) : σ → List α → Prop
  | _, [] => True
  | s, a :: as =>
    match step s a with
    | some t => ok s a ∧ Meets step ok t as
    | none => True

instance decidableMeets (step : σ → α → Option σ) (ok : σ → α → Prop)
    [∀ s a, Decidable (ok s a)] : ∀ (as : List α) (s : σ), Decidable (Meets step ok s as)
  | [], _ => .isTrue trivial
  | a :: as, s =>
    match hs : step s a with
    | none => .isTrue (by rw [Meets, hs]; trivial)
    | some t =>
      have := decidableMeets step ok as t
      decidable_of_iff (ok s a ∧ Meets step ok t as) (by rw [Meets, hs])

/-- A system that also keeps a record `η` of what it has done. -/
def recorded {η : Type*} (step : σ → α → Option σ) (note : σ → α → η → η) (s : σ × η) (a : α) :
    Option (σ × η) :=
  (step s.1 a).map fun t => (t, note s.1 a s.2)

/-! ## 2. Runs -/

/-- `Run step ok s t`: the system goes from `s` to `t` by steps that all meet `ok`. -/
inductive Run (step : σ → α → Option σ) (ok : σ → α → Prop) : σ → σ → Prop
  | refl (s : σ) : Run step ok s s
  | tail {s t u : σ} (a : α) : Run step ok s t → ok t a → step t a = some u → Run step ok s u

/-- Plain reachability: no condition on the steps. -/
abbrev Reach (step : σ → α → Option σ) : σ → σ → Prop := Run step fun _ _ => True

namespace Run

variable {step : σ → α → Option σ} {ok : σ → α → Prop} {s t u : σ}

theorem single (a : α) (ha : ok s a) (h : step s a = some t) : Run step ok s t :=
  .tail a (.refl s) ha h

theorem trans (h₁ : Run step ok s t) (h₂ : Run step ok t u) : Run step ok s u := by
  induction h₂ with
  | refl => exact h₁
  | tail a _ ha hs ih => exact .tail a ih ha hs

/-- **The invariant rule.**  What holds at the start, and is kept by every step that meets the
condition, holds at the end of every run. -/
theorem invariant {P : σ → Prop} (h : Run step ok s t) (h₀ : P s)
    (hstep : ∀ s a t, P s → ok s a → step s a = some t → P t) : P t := by
  induction h with
  | refl => exact h₀
  | tail a _ ha hs ih => exact hstep _ a _ ih ha hs

/-- **The projection rule.**  If each step, seen through `f`, leaves another system where it is or
is one of its steps, then a run seen through `f` is a run of that system. -/
theorem project {τ β : Type*} {step' : τ → β → Option τ} {ok' : τ → β → Prop} (f : σ → τ)
    (h : Run step ok s t)
    (hstep : ∀ s a t, ok s a → step s a = some t →
      f t = f s ∨ ∃ b, ok' (f s) b ∧ step' (f s) b = some (f t)) :
    Run step' ok' (f s) (f t) := by
  induction h with
  | refl => exact .refl _
  | tail a _ ha hs ih =>
    rcases hstep _ a _ ha hs with heq | ⟨b, hb, hs'⟩
    · rw [heq]
      exact ih
    · exact .tail b ih hb hs'

/-- A list of actions that the guarded step function executes is a run. -/
theorem of_guarded [∀ s a, Decidable (ok s a)] {as : List α} :
    ∀ {s : σ}, exec (guarded step ok) s as = some t → Run step ok s t := by
  induction as with
  | nil =>
    intro s h
    simp only [exec, Option.some.injEq] at h
    exact h ▸ .refl s
  | cons a as ih =>
    intro s h
    simp only [exec, guarded, Option.bind_eq_some_iff] at h
    obtain ⟨u, hu, htail⟩ := h
    split at hu
    · rename_i hok
      exact (single a hok hu).trans (ih htail)
    · cases hu

/-- The same without a condition: an executed list of actions is a run. -/
theorem of_exec {as : List α} : ∀ {s : σ}, exec step s as = some t → Reach step s t := by
  induction as with
  | nil =>
    intro s h
    simp only [exec, Option.some.injEq] at h
    exact h ▸ .refl s
  | cons a as ih =>
    intro s h
    simp only [exec, Option.bind_eq_some_iff] at h
    obtain ⟨u, hu, htail⟩ := h
    exact (single a trivial hu).trans (ih htail)

/-- A list of actions whose steps all meet the condition is a run. -/
theorem of_meets {as : List α} : ∀ {s : σ}, exec step s as = some t → Meets step ok s as →
    Run step ok s t := by
  induction as with
  | nil =>
    intro s h _
    simp only [exec, Option.some.injEq] at h
    exact h ▸ .refl s
  | cons a as ih =>
    intro s h hmeets
    simp only [exec, Option.bind_eq_some_iff] at h
    obtain ⟨u, hu, htail⟩ := h
    rw [Meets, hu] at hmeets
    exact (single a hmeets.1 hu).trans (ih htail hmeets.2)

end Run

/-- A state that an executed list of actions ends in, with what can be seen of it. -/
theorem exists_reach {step : σ → α → Option σ} {s : σ} {P : σ → Prop} [DecidablePred P]
    (as : List α) (h : (exec step s as).any (fun t => decide (P t)) = true) :
    ∃ t, Reach step s t ∧ P t := by
  obtain ⟨t, ht, hP⟩ := (Option.any_eq_true _ _).mp h
  exact ⟨t, .of_exec ht, of_decide_eq_true hP⟩

/-- The same for a list of actions that all meet the condition. -/
theorem exists_run {step : σ → α → Option σ} {ok : σ → α → Prop} [∀ s a, Decidable (ok s a)]
    {s : σ} {P : σ → Prop} [DecidablePred P] (as : List α)
    (h : (exec (guarded step ok) s as).any (fun t => decide (P t)) = true) :
    ∃ t, Run step ok s t ∧ P t := by
  obtain ⟨t, ht, hP⟩ := (Option.any_eq_true _ _).mp h
  exact ⟨t, .of_guarded ht, of_decide_eq_true hP⟩

/-- Two moments of one run. -/
theorem exists_two_runs {step : σ → α → Option σ} {ok : σ → α → Prop}
    [∀ s a, Decidable (ok s a)] {s : σ} {P : σ → σ → Prop} [∀ t u, Decidable (P t u)]
    (as bs : List α)
    (h : (exec (guarded step ok) s as).any (fun t =>
      (exec (guarded step ok) t bs).any fun u => decide (P t u)) = true) :
    ∃ t u, Run step ok s t ∧ Run step ok t u ∧ P t u := by
  obtain ⟨t, ht, h⟩ := (Option.any_eq_true _ _).mp h
  obtain ⟨u, hu, hP⟩ := (Option.any_eq_true _ _).mp h
  exact ⟨t, u, .of_guarded ht, .of_guarded hu, of_decide_eq_true hP⟩

/-! ## 3. One party alone -/

section Alone

variable {step : σ → α → Option σ} {a : α} {P : σ → Prop} {s t : σ}

/-- Repeating the action `a`, and doing nothing else, leads to a state with the property. -/
def ReachesBy (step : σ → α → Option σ) (a : α) (P : σ → Prop) (s : σ) : Prop :=
  ∃ k t, exec step s (List.replicate k a) = some t ∧ P t

/-- Where the action is not enabled it is now or never. -/
theorem reachesBy_of_stuck (hs : step s a = none) : ReachesBy step a P s ↔ P s := by
  constructor
  · rintro ⟨k, t, ht, hP⟩
    cases k with
    | zero => exact Option.some.inj ht ▸ hP
    | succ k =>
      rw [List.replicate_succ, exec, hs] at ht
      exact absurd ht nofun
  · exact fun hP => ⟨0, s, rfl, hP⟩

/-- One more repetition makes no difference, as long as the property does not hold yet. -/
theorem reachesBy_of_step (hs : step s a = some t) (hP : ¬ P s) :
    ReachesBy step a P s ↔ ReachesBy step a P t := by
  have hexec : ∀ k, exec step s (List.replicate (k + 1) a) =
      exec step t (List.replicate k a) := fun k => by
    rw [List.replicate_succ, exec, hs, Option.bind_some]
  constructor
  · rintro ⟨k, u, hu, hPu⟩
    cases k with
    | zero => exact absurd (Option.some.inj hu ▸ hPu) hP
    | succ k => exact ⟨k, u, (hexec k).symm.trans hu, hPu⟩
  · rintro ⟨k, u, hu, hPu⟩
    exact ⟨k + 1, u, (hexec k).trans hu, hPu⟩

end Alone

/-! ## 4. Exact conditions -/

section Exact

variable {step : σ → α → Option σ} {ok : σ → α → Prop}

theorem exists_states_eq_cons (step : σ → α → Option σ) (s : σ) (as : List α) :
    ∃ rest, states step s as = s :: rest := by
  cases as with
  | nil => exact ⟨[], rfl⟩
  | cons a as => exact ⟨_, rfl⟩

theorem meets_of_forall (h : ∀ s a, ok s a) : ∀ (as : List α) (s : σ), Meets step ok s as
  | [], _ => trivial
  | a :: as, s => by
    rw [Meets]
    cases hs : step s a with
    | none => trivial
    | some t => exact ⟨h s a, meets_of_forall h as t⟩

/-- **The exact condition for a property of states**, where all steps meet `fits`.  If from the
states `J` a step leads into `P` exactly when it meets `ok`, and then stays in `J`, then `P` holds
all along exactly when all steps meet `ok`. -/
theorem forall_states_iff_of_meets {J P : σ → Prop} (fits : σ → α → Prop)
    (hstep : ∀ s a t, J s → fits s a → step s a = some t → (P t ↔ ok s a) ∧ (ok s a → J t)) :
    ∀ (as : List α) {s : σ}, Meets step fits s as → J s → P s →
      ((∀ t ∈ states step s as, P t) ↔ Meets step ok s as)
  | [], s, _, _, hP => by simp [states, Meets, hP]
  | a :: as, s, hfits, hJ, hP => by
    rw [Meets] at hfits
    rw [states, Meets, List.forall_mem_cons]
    cases hs : step s a with
    | none => simp [hP]
    | some t =>
      rw [hs] at hfits
      obtain ⟨hiff, hJt⟩ := hstep s a t hJ hfits.1 hs
      dsimp only
      constructor
      · rintro ⟨-, hall⟩
        have hPt : P t := by
          obtain ⟨rest, hrest⟩ := exists_states_eq_cons step t as
          exact hall t (hrest ▸ List.mem_cons_self)
        have hok := hiff.mp hPt
        exact ⟨hok, (forall_states_iff_of_meets fits hstep as hfits.2 (hJt hok) hPt).mp hall⟩
      · rintro ⟨hok, hmeets⟩
        have ih := forall_states_iff_of_meets fits hstep as hfits.2 (hJt hok) (hiff.mpr hok)
        exact ⟨hP, ih.mpr hmeets⟩

/-- The same without a further condition. -/
theorem forall_states_iff {J P : σ → Prop}
    (hstep : ∀ s a t, J s → step s a = some t → (P t ↔ ok s a) ∧ (ok s a → J t))
    (as : List α) {s : σ} (hJ : J s) (hP : P s) :
    (∀ t ∈ states step s as, P t) ↔ Meets step ok s as :=
  forall_states_iff_of_meets (fun _ _ => True) (fun s a t hJ _ hs => hstep s a t hJ hs) as
    (meets_of_forall (fun _ _ => trivial) as s) hJ hP

/-- **Going back from the end.**  If a step that leads into `P` comes from `P` and meets `ok`, then
all steps of a list of actions that ends in `P` do. -/
theorem meets_of_last {J P : σ → Prop} (hJ : ∀ s a t, J s → step s a = some t → J t)
    (hback : ∀ s a t, J s → step s a = some t → P t → P s ∧ ok s a) :
    ∀ (as : List α) {s t : σ}, J s → exec step s as = some t → P t → P s ∧ Meets step ok s as
  | [], s, t, _, hexec, hP => ⟨Option.some.inj hexec ▸ hP, trivial⟩
  | a :: as, s, t, hJs, hexec, hP => by
    simp only [exec, Option.bind_eq_some_iff] at hexec
    obtain ⟨u, hu, hexec⟩ := hexec
    obtain ⟨hPu, hmeets⟩ := meets_of_last hJ hback as (hJ s a u hJs hu) hexec hP
    obtain ⟨hPs, hok⟩ := hback s a u hJs hu hPu
    refine ⟨hPs, ?_⟩
    rw [Meets, hu]
    exact ⟨hok, hmeets⟩

/-- **The exact condition for a relation between neighbours.** -/
theorem isChain_states_iff {R : σ → σ → Prop}
    (hstep : ∀ s a t, step s a = some t → (R s t ↔ ok s a)) :
    ∀ (as : List α) (s : σ), (states step s as).IsChain R ↔ Meets step ok s as
  | [], s => by simp [states, Meets]
  | a :: as, s => by
    rw [states, Meets]
    cases hs : step s a with
    | none => simp
    | some t =>
      have ih := isChain_states_iff hstep as t
      obtain ⟨rest, hrest⟩ := exists_states_eq_cons step t as
      dsimp only
      rw [hrest] at ih ⊢
      rw [List.isChain_cons_cons, ih, hstep s a t hs]

end Exact

end Lts
