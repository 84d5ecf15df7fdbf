/-
# Systems that answer

A service is a transition system together with the ANSWER each action gets in the state it is taken
in.  What its users see is the list of answers (`answers`), so one service does the work of another
if every list of actions gets the same answers from both.

`answers_of_simulation` is the rule for that: a relation between the states of the two that every
step keeps, and under which the answers agree, gives the same answers to every list of actions.
`exec_filterMap` is the rule for a part of a composed system: the actions that concern the part,
executed by it alone, lead to where the whole system has taken it.  `countP_le_of_measure` bounds
how often a party can act: a measure that its own actions lower and no other action raises.
-/
import SkyLock.Lib.Run

namespace Lts

variable {σ τ α β : Type*}

/-- The answers to a list of actions, up to the first that is not enabled. -/
def answers (step : σ → α → Option σ) (answer : σ → α → β) : σ → List α → List β
  | _, [] => []
  | s, a :: as =>
    match step s a with
    | some t => answer s a :: answers step answer t as
    | none => []

variable {step : σ → α → Option σ} {answer : σ → α → β} {step' : τ → α → Option τ}
  {answer' : τ → α → β} {ok : α → Prop}

theorem answers_cons {s t : σ} {a : α} (hs : step s a = some t) (as : List α) :
    answers step answer s (a :: as) = answer s a :: answers step answer t as := by
  rw [answers, hs]

/-- **The simulation rule.**  If whatever the first service does from `s` the second can do from a
related state, with the same answer and into related states, then a list of actions that the first
executes is executed by the second, and nobody can tell them apart by the answers. -/
theorem answers_of_simulation {R : σ → τ → Prop}
    (hsim : ∀ s t a s', R s t → ok a → step s a = some s' →
      ∃ t', step' t a = some t' ∧ R s' t' ∧ answer' t a = answer s a)
    {as : List α} (hok : ∀ a ∈ as, ok a) {s s' : σ} {t : τ} (hR : R s t)
    (hexec : exec step s as = some s') :
    ∃ t', exec step' t as = some t' ∧ R s' t' ∧
      answers step' answer' t as = answers step answer s as := by
  induction as generalizing s t with
  | nil =>
    obtain rfl := Option.some.inj hexec
    exact ⟨t, rfl, hR, rfl⟩
  | cons a as ih =>
    obtain ⟨u, hu, hexec⟩ := Option.bind_eq_some_iff.mp hexec
    obtain ⟨v, hv, hR', hanswer⟩ := hsim s t a u hR (hok a List.mem_cons_self) hu
    obtain ⟨t', ht', hlast, hanswers⟩ :=
      ih (fun b hb => hok b (List.mem_cons_of_mem a hb)) hR' hexec
    refine ⟨t', ?_, hlast, ?_⟩
    · rw [exec, hv]
      exact ht'
    · rw [answers_cons hu, answers_cons hv, hanswer, hanswers]

/-- The invariant rule for a list of actions. -/
theorem exec_invariant {P : σ → Prop} (hstep : ∀ s a t, P s → ok a → step s a = some t → P t)
    {as : List α} (hok : ∀ a ∈ as, ok a) {s t : σ} (hP : P s) (hexec : exec step s as = some t) :
    P t := by
  induction as generalizing s with
  | nil => exact Option.some.inj hexec ▸ hP
  | cons a as ih =>
    obtain ⟨u, hu, hexec⟩ := Option.bind_eq_some_iff.mp hexec
    exact ih (fun b hb => hok b (List.mem_cons_of_mem a hb))
      (hstep s a u hP (hok a List.mem_cons_self) hu) hexec

/-- **The rule for bounded work.** -/
theorem countP_le_of_measure {J : σ → Prop} {own : α → Bool} (μ : σ → Nat)
    (hJ : ∀ s a t, J s → step s a = some t → J t)
    (hstep : ∀ s a t, J s → step s a = some t → μ t + (if own a then 1 else 0) ≤ μ s)
    {as : List α} {s t : σ} (hs : J s) (hexec : exec step s as = some t) :
    μ t + as.countP own ≤ μ s := by
  induction as generalizing s with
  | nil => exact (congrArg μ (Option.some.inj hexec)).ge
  | cons a as ih =>
    obtain ⟨u, hu, hexec⟩ := Option.bind_eq_some_iff.mp hexec
    have hrest := ih (hJ s a u hs hu) hexec
    have hone := hstep s a u hs hu
    rw [List.countP_cons]
    omega

/-- **The rule for a part**, seen through `view`: `at?` says which action of the part an action of
the system is, if it is one. -/
theorem exec_filterMap {γ : Type*} {part : τ → γ → Option τ} (view : σ → τ) (at? : α → Option γ)
    (hstep : ∀ s a t, step s a = some t → exec part (view s) (at? a).toList = some (view t))
    {as : List α} {s t : σ} (hexec : exec step s as = some t) :
    exec part (view s) (as.filterMap at?) = some (view t) := by
  induction as generalizing s with
  | nil => exact congrArg (fun u => some (view u)) (Option.some.inj hexec)
  | cons a as ih =>
    obtain ⟨u, hu, hexec⟩ := Option.bind_eq_some_iff.mp hexec
    have hhead := hstep s a u hu
    rw [List.filterMap_cons]
    cases ha : at? a with
    | none =>
      rw [ha] at hhead
      dsimp only
      rw [Option.some.inj hhead]
      exact ih hexec
    | some b =>
      rw [ha] at hhead
      obtain ⟨v, hv, hlast⟩ := Option.bind_eq_some_iff.mp hhead
      dsimp only
      rw [exec, hv, Option.bind_some, Option.some.inj hlast]
      exact ih hexec

end Lts
