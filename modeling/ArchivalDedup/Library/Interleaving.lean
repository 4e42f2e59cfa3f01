import Mathlib.Algebra.GroupWithZero.Nat
import Mathlib.Data.List.Basic
import Mathlib.Data.List.Perm.Basic
import Mathlib.Tactic.Common

/-!
# Finite runs of a partial step function

A system is a partial function of a state and an action; an action that is
not enabled gives no state. A run is a list of actions. A condition on
states and actions is met by a run when it holds of every step taken. The
rule of invariants derives a fact about every state a run reaches from what
one step preserves under the condition.
-/

set_option autoImplicit false

namespace ArchivalDedup.Interleaving

universe u v w
variable {σ : Type u} {α : Type v} (step : σ → α → Option σ)

def exec : σ → List α → Option σ
  | s, [] => some s
  | s, a::as => (step s a).bind (fun t => exec t as)

theorem exec_append (s : σ) (as bs : List α) :
    exec step s (as++bs) = (exec step s as).bind (fun t => exec step t bs) := by
  induction as generalizing s with
  | nil => rfl
  | cons a as ih =>
    simp only [List.cons_append,exec]
    cases h : step s a with
    | none => rfl
    | some t => exact ih t

theorem exec_cons_some {s t : σ} {a : α} {as : List α} (h : exec step s (a::as) = some t) :
    ∃ m, step s a = some m ∧ exec step m as = some t := by
  simpa [exec,Option.bind_eq_some_iff] using h

theorem exec_snoc_some {s t : σ} {a : α} {as : List α} (h : exec step s (as++[a]) = some t) :
    ∃ m, exec step s as = some m ∧ step m a = some t := by
  rw [exec_append] at h
  obtain ⟨m,hm,ht⟩ := Option.bind_eq_some_iff.mp h
  exact ⟨m,hm,by simpa [exec] using ht⟩

/-- Every step of the run meets the condition in the state it is taken from. -/
def Meets (cond : σ → α → Prop) : σ → List α → Prop
  | _, [] => True
  | s, a::as => cond s a ∧ ∀ t, step s a = some t → Meets cond t as

instance decidableMeets (cond : σ → α → Prop) [∀ s a, Decidable (cond s a)] :
    ∀ s as, Decidable (Meets step cond s as)
  | _, [] => isTrue trivial
  | s, a::as =>
    match hs : step s a with
    | none => decidable_of_iff (cond s a)
        ⟨fun h => ⟨h,fun t ht => absurd (hs.symm.trans ht) (Option.some_ne_none t).symm⟩,
          fun h => h.1⟩
    | some t =>
      have := decidableMeets cond t as
      decidable_of_iff (cond s a ∧ Meets step cond t as)
        ⟨fun h => ⟨h.1,fun _ ht => Option.some.inj (hs.symm.trans ht) ▸ h.2⟩,
          fun h => ⟨h.1,h.2 t hs⟩⟩

theorem meets_append (cond : σ → α → Prop) (s : σ) (as bs : List α)
    (h : Meets step cond s (as++bs)) :
    Meets step cond s as ∧ ∀ t, exec step s as = some t → Meets step cond t bs := by
  induction as generalizing s with
  | nil =>
    refine ⟨trivial,?_⟩
    intro t ht
    cases ht
    exact h
  | cons a as ih =>
    constructor
    · exact ⟨h.1,fun t ht => (ih t (h.2 t ht)).1⟩
    · intro t ht
      obtain ⟨m,hm,ht⟩ := exec_cons_some step ht
      exact (ih m (h.2 m hm)).2 t ht

/-- The rule of invariants: what one admitted step preserves, a run preserves. -/
theorem exec_invariant (cond : σ → α → Prop) (inv : σ → Prop)
    (hstep : ∀ s a t, inv s → cond s a → step s a = some t → inv t)
    (s t : σ) (as : List α) (hi : inv s) (hc : Meets step cond s as)
    (he : exec step s as = some t) : inv t := by
  induction as generalizing s with
  | nil =>
    cases he
    exact hi
  | cons a as ih =>
    obtain ⟨m,hm,ht⟩ := exec_cons_some step he
    exact ih m (hstep s a m hi hc.1 hm) (hc.2 m hm) ht

theorem meets_of_forall (cond : σ → α → Prop) (s : σ) (as : List α)
    (h : ∀ a ∈ as, ∀ t, cond t a) : Meets step cond s as := by
  induction as generalizing s with
  | nil => trivial
  | cons a as ih =>
    exact ⟨h a (List.mem_cons_self ..) s,fun t _ => ih t (fun b hb => h b (List.mem_cons_of_mem _ hb))⟩

theorem meets_mono {p q : σ → α → Prop} (h : ∀ s a, p s a → q s a) {s : σ} {as : List α}
    (hp : Meets step p s as) : Meets step q s as := by
  induction as generalizing s with
  | nil => trivial
  | cons a as ih => exact ⟨h s a hp.1,fun t ht => ih (hp.2 t ht)⟩

theorem meets_and {p q : σ → α → Prop} {s : σ} {as : List α} (hp : Meets step p s as)
    (hq : Meets step q s as) : Meets step (fun t a => p t a ∧ q t a) s as := by
  induction as generalizing s with
  | nil => trivial
  | cons a as ih => exact ⟨⟨hp.1,hq.1⟩,fun t ht => ih (hp.2 t ht) (hq.2 t ht)⟩

theorem exec_preserves (inv : σ → Prop)
    (hstep : ∀ s a t, inv s → step s a = some t → inv t)
    (s t : σ) (as : List α) (hi : inv s) (he : exec step s as = some t) : inv t :=
  exec_invariant step (fun _ _ => True) inv (fun s a t hi _ hs => hstep s a t hi hs) s t as hi
    (meets_of_forall step _ s as (fun _ _ _ => trivial)) he

def Along (p : σ → Prop) : σ → List α → Prop
  | s, [] => p s
  | s, a::as => p s ∧ ∀ t, step s a = some t → Along p t as

theorem along_last {p : σ → Prop} {s t : σ} {as : List α} (ha : Along step p s as)
    (he : exec step s as = some t) : p t := by
  induction as generalizing s with
  | nil =>
    cases he
    exact ha
  | cons a as ih =>
    obtain ⟨m,hm,hrest⟩ := exec_cons_some step he
    exact ih (ha.2 m hm) hrest

theorem along_iff_meets (cond : σ → α → Prop) (base inv : σ → Prop)
    (hbase : ∀ s a t, base s → step s a = some t → base t)
    (hstep : ∀ s a t, base s → inv s → step s a = some t → (inv t ↔ cond s a))
    (s t : σ) (as : List α) (hb : base s) (hi : inv s) (he : exec step s as = some t) :
    Along step inv s as ↔ Meets step cond s as := by
  induction as generalizing s with
  | nil => exact iff_of_true hi trivial
  | cons a as ih =>
    obtain ⟨m,hm,hrest⟩ := exec_cons_some step he
    have hone := hstep s a m hb hi hm
    constructor
    · rintro ⟨_,hall⟩
      have hmeets := hall m hm
      have him : inv m := by
        cases as with
        | nil => exact hmeets
        | cons b bs => exact hmeets.1
      refine ⟨hone.mp him,?_⟩
      intro k hk
      cases hm.symm.trans hk
      exact (ih m (hbase s a m hb hm) him hrest).mp hmeets
    · rintro ⟨hc,hall⟩
      refine ⟨hi,?_⟩
      intro k hk
      cases hm.symm.trans hk
      exact (ih m (hbase s a m hb hm) (hone.mpr hc) hrest).mpr (hall m hm)

/-- A property that a step keeps exactly under the condition, and that no step
brings back: the last state tells whether every step met the condition. -/
theorem last_iff_meets (cond : σ → α → Prop) (inv : σ → Prop)
    (hstep : ∀ s a t, step s a = some t → (inv t ↔ inv s ∧ cond s a))
    (s t : σ) (as : List α) (he : exec step s as = some t) :
    inv t ↔ inv s ∧ Meets step cond s as := by
  induction as generalizing s with
  | nil =>
    cases he
    exact (and_iff_left trivial).symm
  | cons a as ih =>
    obtain ⟨m,hm,hrest⟩ := exec_cons_some step he
    rw [ih m hrest,hstep s a m hm]
    constructor
    · rintro ⟨⟨hi,hc⟩,hall⟩
      refine ⟨hi,hc,?_⟩
      intro k hk
      cases hm.symm.trans hk
      exact hall
    · rintro ⟨hi,hc,hall⟩
      exact ⟨⟨hi,hc⟩,hall m hm⟩

def peak (measure : σ → α → ℕ) : σ → List α → ℕ
  | _, [] => 0
  | s, a::as => max (measure s a) (((step s a).map (fun t => peak measure t as)).getD 0)

theorem exec_peak (cond : σ → α → Prop) (inv : σ → Prop) (level : σ → ℕ) (measure : σ → α → ℕ)
    (hstep : ∀ s a t, inv s → cond s a → step s a = some t →
      inv t ∧ level t = max (level s) (measure s a))
    (s t : σ) (as : List α) (hi : inv s) (hc : Meets step cond s as)
    (he : exec step s as = some t) :
    inv t ∧ level t = max (level s) (peak step measure s as) := by
  induction as generalizing s with
  | nil =>
    cases he
    exact ⟨hi,(Nat.max_zero _).symm⟩
  | cons a as ih =>
    obtain ⟨m,hm,ht⟩ := exec_cons_some step he
    obtain ⟨hi',hl⟩ := hstep s a m hi hc.1 hm
    obtain ⟨hit,hlt⟩ := ih m hi' (hc.2 m hm) ht
    refine ⟨hit,?_⟩
    rw [hlt,hl,peak,hm,Option.map_some,Option.getD_some,Nat.max_assoc]

/-- A decidable observation of the state a run reaches. -/
theorem exec_observe (p : σ → Bool) (s : σ) (as : List α)
    (h : (exec step s as).map p = some true) : ∃ t, exec step s as = some t ∧ p t = true := by
  obtain ⟨t,ht,hp⟩ := Option.map_eq_some_iff.mp h
  exact ⟨t,ht,hp⟩

section Parties

variable {β : Type w}

theorem set_perm (l : List β) (i : ℕ) (x y : β) (h : l[i]? = some x) :
    l.Perm (x :: l.eraseIdx i) ∧ (l.set i y).Perm (y :: l.eraseIdx i) := by
  induction l generalizing i with
  | nil => simp at h
  | cons b l ih =>
    cases i with
    | zero =>
      have hb : b = x := by simpa using h
      subst hb
      simp
    | succ i =>
      obtain ⟨h₁,h₂⟩ := ih i (by simpa using h)
      constructor
      · exact (h₁.cons b).trans (List.Perm.swap x b _)
      · exact (h₂.cons b).trans (List.Perm.swap y b _)

theorem sum_parties (f : β → ℕ) (l : List β) (i : ℕ) (x y : β) (h : l[i]? = some x) :
    (l.map f).sum = f x+((l.eraseIdx i).map f).sum ∧
      ((l.set i y).map f).sum = f y+((l.eraseIdx i).map f).sum := by
  obtain ⟨hx,hy⟩ := set_perm l i x y h
  exact ⟨(hx.map f).sum_nat,(hy.map f).sum_nat⟩

theorem mem_set_cases {l : List β} {i : ℕ} {y z : β} (h : z ∈ l.set i y) : z = y ∨ z ∈ l := by
  rcases List.mem_or_eq_of_mem_set h with h | h
  · exact Or.inr h
  · exact Or.inl h

end Parties

end ArchivalDedup.Interleaving
