import Mathlib.Data.List.Basic
import Mathlib.Tactic.Common

/-!
# Machines that answer, and when two of them answer alike

A machine takes a state and an action to a state and an answer. A relation
between the states of two machines that every admitted action preserves, with
equal answers, makes the answers of whole runs equal.
-/

set_option autoImplicit false

namespace ArchivalDedup.Simulation

universe u v w x
variable {σ : Type u} {τ : Type v} {α : Type w} {β : Type x}

def answers (step : σ → α → σ × β) : σ → List α → List β
  | _, [] => []
  | s, a::as => (step s a).2::answers step (step s a).1 as

def Throughout (step : σ → α → σ × β) (cond : σ → α → Prop) : σ → List α → Prop
  | _, [] => True
  | s, a::as => cond s a ∧ Throughout step cond (step s a).1 as

instance decidableThroughout (step : σ → α → σ × β) (cond : σ → α → Prop)
    [∀ s a, Decidable (cond s a)] : ∀ s as, Decidable (Throughout step cond s as)
  | _, [] => isTrue trivial
  | s, a::as =>
    have := decidableThroughout step cond (step s a).1 as
    inferInstanceAs (Decidable (cond s a ∧ Throughout step cond (step s a).1 as))

def final (step : σ → α → σ × β) (s : σ) (as : List α) : σ := as.foldl (fun s a => (step s a).1) s

theorem final_append (step : σ → α → σ × β) (s : σ) (as bs : List α) :
    final step s (as++bs) = final step (final step s as) bs := List.foldl_append

theorem answers_append (step : σ → α → σ × β) (s : σ) (as bs : List α) :
    answers step s (as++bs) = answers step s as++answers step (final step s as) bs := by
  induction as generalizing s with
  | nil => rfl
  | cons a as ih => exact congrArg ((step s a).2::·) (ih (step s a).1)

theorem answers_length (step : σ → α → σ × β) (s : σ) (as : List α) :
    (answers step s as).length = as.length := by
  induction as generalizing s with
  | nil => rfl
  | cons a as ih => exact congrArg (·+1) (ih (step s a).1)

theorem throughout_of_forall {step : σ → α → σ × β} {cond : σ → α → Prop} (s : σ) {as : List α}
    (h : ∀ a ∈ as, ∀ s, cond s a) : Throughout step cond s as := by
  induction as generalizing s with
  | nil => trivial
  | cons a as ih => exact ⟨h a (by simp) s,ih _ (fun b hb => h b (by simp [hb]))⟩

theorem throughout_and {step : σ → α → σ × β} {cond cond' : σ → α → Prop} {s : σ} {as : List α}
    (h : Throughout step cond s as) (h' : Throughout step cond' s as) :
    Throughout step (fun s a => cond s a ∧ cond' s a) s as := by
  induction as generalizing s with
  | nil => trivial
  | cons a as ih => exact ⟨⟨h.1,h'.1⟩,ih h.2 h'.2⟩

/-- What every action keeps holds at the end. -/
theorem final_holds {step : σ → α → σ × β} {cond : σ → α → Prop} {inv : σ → Prop}
    (hstep : ∀ s a, inv s → cond s a → inv (step s a).1) (as : List α) {s : σ} (h : inv s)
    (hc : Throughout step cond s as) : inv (final step s as) := by
  induction as generalizing s with
  | nil => exact h
  | cons a as ih => exact ih (hstep s a h hc.1) hc.2

/-- The rule of simulation, for actions that meet a condition of their own and
one on the state of the first machine. -/
theorem answers_eq {step : σ → α → σ × β} {step' : τ → α → τ × β} {rel : σ → τ → Prop}
    {good : α → Prop} {cond : σ → α → Prop}
    (hsim : ∀ s t a, rel s t → good a → cond s a →
      rel (step s a).1 (step' t a).1 ∧ (step s a).2 = (step' t a).2)
    (as : List α) (hg : ∀ a ∈ as, good a) {s : σ} {t : τ} (hr : rel s t)
    (hc : Throughout step cond s as) : answers step s as = answers step' t as := by
  induction as generalizing s t with
  | nil => rfl
  | cons a as ih =>
    obtain ⟨hr',hout⟩ := hsim s t a hr (hg a (by simp)) hc.1
    simp only [answers,hout]
    rw [ih (fun b hb => hg b (by simp [hb])) hr' hc.2]

end ArchivalDedup.Simulation
