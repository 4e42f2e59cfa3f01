import ArchivalDedup.Library.Interleaving

/-!
# Runs that a measure bounds

A measure that every internal action lowers bounds the number of internal
actions in a row. When in addition some internal action is enabled in every
state that is not final, every state leads to a final one.
-/

set_option autoImplicit false

namespace ArchivalDedup.Descent
open ArchivalDedup.Interleaving

universe u v
variable {σ : Type u} {α : Type v} (step : σ → α → Option σ)
variable (internal : α → Prop) (measure : σ → ℕ)

theorem length_le (hstep : ∀ s a t, internal a → step s a = some t → measure t < measure s)
    (as : List α) (s t : σ) (hi : ∀ a ∈ as, internal a) (he : exec step s as = some t) :
    as.length+measure t ≤ measure s := by
  induction as generalizing s with
  | nil =>
    cases he
    simp
  | cons a as ih =>
    obtain ⟨m,hm,ht⟩ := exec_cons_some step he
    have hlt := hstep s a m (hi a (by simp)) hm
    have := ih m (fun b hb => hi b (by simp [hb])) ht
    simp only [List.length_cons]
    omega

def Follows (t s : σ) : Prop := ∃ a, internal a ∧ step s a = some t

/-- Without an infinite run of internal actions they lead to a final state. -/
theorem final_of_wellFounded (final : σ → Prop) (hwf : WellFounded (Follows step internal))
    (hmove : ∀ s, ¬ final s → ∃ a t, internal a ∧ step s a = some t) (s : σ) :
    ∃ as t, (∀ a ∈ as, internal a) ∧ exec step s as = some t ∧ final t := by
  induction s using hwf.induction with
  | h s ih =>
    by_cases hf : final s
    · exact ⟨[],s,by simp,rfl,hf⟩
    · obtain ⟨a,m,ha,hm⟩ := hmove s hf
      obtain ⟨as,t,has,ht,hft⟩ := ih m ⟨a,ha,hm⟩
      refine ⟨a::as,t,?_,by rw [exec,hm]; exact ht,hft⟩
      intro b hb
      rcases List.mem_cons.mp hb with rfl | hb
      · exact ha
      · exact has b hb

theorem exists_final (final : σ → Prop)
    (hstep : ∀ s a t, internal a → step s a = some t → measure t < measure s)
    (hmove : ∀ s, ¬ final s → ∃ a t, internal a ∧ step s a = some t) (s : σ) :
    ∃ as t, (∀ a ∈ as, internal a) ∧ exec step s as = some t ∧ final t := by
  refine final_of_wellFounded step internal final ?_ hmove s
  apply Subrelation.wf (r := InvImage (· < ·) measure)
  · rintro t s ⟨a,ha,hs⟩
    exact hstep s a t ha hs
  · exact InvImage.wf measure Nat.lt_wfRel.wf

end ArchivalDedup.Descent
