import ArchivalDedup.Library.Interleaving

/-!
# The effects of a run on what it shows to the outside

Some steps of a system have an effect on a view of its state, most have none.
The trace of a run lists the effects in the order of the steps. When every
admitted step changes the view by its own effect and by nothing else, the view
at the end of a run is the trace applied to the view at its start: each effect
happens at one instant of the run.
-/

set_option autoImplicit false

namespace ArchivalDedup.EffectTrace
open ArchivalDedup.Interleaving

universe u v w x
variable {σ : Type u} {α : Type v} {ε : Type w} {υ : Type x}
variable (step : σ → α → Option σ) (effect : σ → α → Option ε)

def trace : σ → List α → List ε
  | _, [] => []
  | s, a::as => (effect s a).toList++((step s a).map (fun t => trace t as)).getD []

theorem trace_cons {s t : σ} {a : α} (as : List α) (h : step s a = some t) :
    trace step effect s (a::as) = (effect s a).toList++trace step effect t as := by
  rw [trace,h,Option.map_some,Option.getD_some]

theorem trace_append {s t : σ} {as : List α} (bs : List α) (h : exec step s as = some t) :
    trace step effect s (as++bs) = trace step effect s as++trace step effect t bs := by
  induction as generalizing s with
  | nil =>
    cases h
    rfl
  | cons a as ih =>
    obtain ⟨m,hm,ht⟩ := exec_cons_some step h
    rw [List.cons_append,trace_cons step effect _ hm,trace_cons step effect _ hm,ih ht,
      List.append_assoc]

theorem trace_snoc {s t : σ} {as : List α} (a : α) (h : exec step s as = some t) :
    trace step effect s (as++[a]) = trace step effect s as++(effect t a).toList := by
  rw [trace_append step effect [a] h,trace]
  cases step t a <;> simp [trace]

/-- The rule of effects: the view follows the trace. -/
theorem view_trace (cond : σ → α → Prop) (inv : σ → Prop) (view : σ → υ) (apply : υ → ε → υ)
    (hstep : ∀ s a t, inv s → cond s a → step s a = some t →
      inv t ∧ view t = (effect s a).toList.foldl apply (view s))
    (s t : σ) (as : List α) (hi : inv s) (hc : Meets step cond s as)
    (he : exec step s as = some t) :
    view t = (trace step effect s as).foldl apply (view s) := by
  induction as generalizing s with
  | nil =>
    cases he
    rfl
  | cons a as ih =>
    obtain ⟨m,hm,ht⟩ := exec_cons_some step he
    obtain ⟨him,hv⟩ := hstep s a m hi hc.1 hm
    rw [ih m him (hc.2 m hm) ht,trace_cons step effect as hm,List.foldl_append,hv]

theorem foldl_part {π : Type*} (apply : υ → ε → υ) (part : υ → π) (concerns : ε → Bool)
    (hother : ∀ v e, concerns e = false → part (apply v e) = part v)
    (hsame : ∀ v v' e, part v = part v' → part (apply v e) = part (apply v' e))
    (es : List ε) (v v' : υ) (h : part v = part v') :
    part (es.foldl apply v) = part ((es.filter concerns).foldl apply v') := by
  induction es generalizing v v' with
  | nil => exact h
  | cons e es ih =>
    by_cases hc : concerns e = true
    · rw [List.filter_cons_of_pos hc]
      exact ih _ _ (hsame v v' e h)
    · rw [List.filter_cons_of_neg hc]
      refine ih _ _ ?_
      rw [hother v e (Bool.eq_false_iff.mpr hc)]
      exact h

end ArchivalDedup.EffectTrace
