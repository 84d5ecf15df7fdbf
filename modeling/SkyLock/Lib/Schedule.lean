/-
# Schedules

A schedule is a list of actions that somebody means to take.  `Drives step P as Q` is total
correctness for it: from every state with `P`, all its actions are enabled one after the other, and
the last leaves a state with `Q`.  It is how a liveness property reads for a system whose steps are
chosen from outside: not that something good happens whatever is chosen, but that this choice works.

The rules are those of a program logic: sequence (`append`, `cons`), consequence (`mono`) and, for a
schedule that does the same for each element of a list, an invariant of what is left of the list
(`flatMap`).
-/
import SkyLock.Lib.Run

namespace Lts

variable {σ α β : Type*} {step : σ → α → Option σ}

theorem exec_append (step : σ → α → Option σ) (as bs : List α) (s : σ) :
    exec step s (as ++ bs) = (exec step s as).bind fun t => exec step t bs := by
  induction as generalizing s with
  | nil => rfl
  | cons a as ih =>
    rw [List.cons_append, exec, exec, Option.bind_assoc]
    simp only [ih]

theorem exec_cons_of_step {s t : σ} {a : α} (h : step s a = some t) (as : List α) :
    exec step s (a :: as) = exec step t as := by
  rw [exec, h, Option.bind_some]

/-- **Total correctness of a schedule.** -/
def Drives (step : σ → α → Option σ) (P : σ → Prop) (as : List α) (Q : σ → Prop) : Prop :=
  ∀ s, P s → ∃ t, exec step s as = some t ∧ Q t

namespace Drives

variable {P P' Q Q' R : σ → Prop} {a : α} {as bs : List α}

theorem nil (h : ∀ s, P s → Q s) : Drives step P [] Q := fun s hs => ⟨s, rfl, h s hs⟩

theorem cons (ha : ∀ s, P s → ∃ t, step s a = some t ∧ Q t) (has : Drives step Q as R) :
    Drives step P (a :: as) R := by
  intro s hs
  obtain ⟨t, hstep, ht⟩ := ha s hs
  obtain ⟨u, hexec, hu⟩ := has t ht
  exact ⟨u, (exec_cons_of_step hstep as).trans hexec, hu⟩

theorem single (h : ∀ s, P s → ∃ t, step s a = some t ∧ Q t) : Drives step P [a] Q :=
  cons h (nil fun _ ht => ht)

theorem append (has : Drives step P as Q) (hbs : Drives step Q bs R) :
    Drives step P (as ++ bs) R := by
  intro s hs
  obtain ⟨t, hexec, ht⟩ := has s hs
  obtain ⟨u, hexec', hu⟩ := hbs t ht
  refine ⟨u, ?_, hu⟩
  rw [exec_append, hexec]
  exact hexec'

theorem mono (h : Drives step P as Q) (hpre : ∀ s, P' s → P s) (hpost : ∀ s, Q s → Q' s) :
    Drives step P' as Q' := by
  intro s hs
  obtain ⟨t, hexec, ht⟩ := h s (hpre s hs)
  exact ⟨t, hexec, hpost t ht⟩

/-- **The loop rule.**  The invariant says where the system is when the elements of the list are
still to be dealt with. -/
theorem flatMap {f : β → List α} {I : List β → σ → Prop}
    (h : ∀ x xs, Drives step (I (x :: xs)) (f x) (I xs)) (xs : List β) :
    Drives step (I xs) (xs.flatMap f) (I []) := by
  induction xs with
  | nil => exact nil fun _ hs => hs
  | cons x xs ih =>
    rw [List.flatMap_cons]
    exact (h x xs).append ih

end Drives

end Lts
