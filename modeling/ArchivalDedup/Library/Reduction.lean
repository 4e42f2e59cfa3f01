import ArchivalDedup.Library.Descent

/-!
# Reduction of interleavings to runs with uninterrupted sections

Some actions of a system are quiet: each continues a section that one party has
entered. When a quiet action can be exchanged with whatever another party does
next, every run leads to the same state as the run in which each section, once
entered, goes to its end before anything else happens. A state in which no
quiet action is enabled is settled.
-/

set_option autoImplicit false

namespace ArchivalDedup.Reduction
open ArchivalDedup.Interleaving

universe u v
variable {σ : Type u} {α : Type v} (step : σ → α → Option σ)
variable (quiet : α → Prop) (cond : σ → α → Prop) (inv : σ → Prop)

def Resting (s : σ) : Prop := ∀ b, quiet b → step s b = none

/-- Quiet actions lead from `s` to `n`, and no further. -/
def SettlesTo (s n : σ) : Prop :=
  (∃ bs, (∀ b ∈ bs, quiet b) ∧ exec step s bs = some n) ∧ Resting step quiet n

/-- What the exchange of actions rests on: quiet actions keep the invariant and
what admits the others, and close a square with each of them. -/
structure Exchangeable : Prop where
  admits : ∀ s b, quiet b → cond s b
  keeps : ∀ s a t, inv s → cond s a → step s a = some t → inv t
  stable : ∀ s b a t u, inv s → quiet b → b ≠ a → cond s a → step s b = some t →
    step s a = some u → cond t a
  square : ∀ s b a t u, inv s → quiet b → b ≠ a → cond s a → step s b = some t →
    step s a = some u → ∃ v, step t a = some v ∧ step u b = some v

variable {step quiet cond inv} {s t u n m : σ} {a : α}

theorem settlesTo_self (h : Resting step quiet s) : SettlesTo step quiet s s :=
  ⟨⟨[],by simp,rfl⟩,h⟩

theorem settlesTo_cons {b : α} (hb : quiet b) (hs : step s b = some t)
    (h : SettlesTo step quiet t n) : SettlesTo step quiet s n := by
  obtain ⟨⟨bs,hbs,he⟩,hn⟩ := h
  refine ⟨⟨b::bs,?_,by rw [exec,hs]; exact he⟩,hn⟩
  intro c hc
  rcases List.mem_cons.mp hc with rfl | hc
  · exact hb
  · exact hbs c hc

theorem settlesTo_append {bs : List α} (hb : ∀ b ∈ bs, quiet b) (hs : exec step s bs = some t)
    (h : SettlesTo step quiet t n) : SettlesTo step quiet s n := by
  obtain ⟨⟨cs,hcs,he⟩,hn⟩ := h
  refine ⟨⟨bs++cs,?_,by rw [exec_append,hs]; exact he⟩,hn⟩
  intro c hc
  rcases List.mem_append.mp hc with hc | hc
  · exact hb c hc
  · exact hcs c hc

theorem unsettled_moves (h : ¬ Resting step quiet s) : ∃ b t, quiet b ∧ step s b = some t := by
  by_contra hn
  refine h (fun b hb => ?_)
  cases hs : step s b with
  | none => rfl
  | some t => exact absurd ⟨b,t,hb,hs⟩ hn

theorem settled_settlesTo (hs : Resting step quiet s) (h : SettlesTo step quiet s n) : n = s := by
  obtain ⟨⟨bs,hbs,he⟩,_⟩ := h
  cases bs with
  | nil => exact (Option.some.inj he).symm
  | cons b bs =>
    obtain ⟨k,hk,_⟩ := exec_cons_some step he
    rw [hs b (hbs b (List.mem_cons_self ..))] at hk
    cases hk

section Exchange

variable (hx : Exchangeable step quiet cond inv)
include hx

theorem quiet_first {bs : List α} (hi : inv s) (hb : ∀ b ∈ bs, quiet b)
    (he : exec step s bs = some n) (hn : Resting step quiet n) (ha : quiet a)
    (hs : step s a = some u) : SettlesTo step quiet u n := by
  induction bs generalizing s u with
  | nil =>
    cases he
    rw [hn a ha] at hs
    cases hs
  | cons b bs ih =>
    obtain ⟨k,hk,he⟩ := exec_cons_some step he
    have hqb := hb b (List.mem_cons_self ..)
    have hrest : ∀ c ∈ bs, quiet c := fun c hc => hb c (List.mem_cons_of_mem _ hc)
    by_cases hba : b = a
    · subst hba
      cases hk.symm.trans hs
      exact ⟨⟨bs,hrest,he⟩,hn⟩
    · obtain ⟨w,hw,huw⟩ := hx.square s b a k u hi hqb hba (hx.admits s a ha) hk hs
      have hik := hx.keeps s b k hi (hx.admits s b hqb) hk
      exact settlesTo_cons hqb huw (ih hik hrest he hw)

theorem settlesTo_quiet (hi : inv s) (h : SettlesTo step quiet s n) (ha : quiet a)
    (hs : step s a = some u) : SettlesTo step quiet u n := by
  obtain ⟨⟨bs,hbs,he⟩,hn⟩ := h
  exact quiet_first hx hi hbs he hn ha hs

/-- Sections have one outcome, in whatever order their actions are taken. -/
theorem settlesTo_unique (hi : inv s) (h : SettlesTo step quiet s n)
    (h' : SettlesTo step quiet s m) : n = m := by
  obtain ⟨⟨bs,hbs,he⟩,hn⟩ := h
  induction bs generalizing s with
  | nil =>
    cases he
    exact (settled_settlesTo hn h').symm
  | cons b bs ih =>
    obtain ⟨k,hk,he⟩ := exec_cons_some step he
    have hqb := hbs b (List.mem_cons_self ..)
    have hik := hx.keeps s b k hi (hx.admits s b hqb) hk
    exact ih hik (settlesTo_quiet hx hi h' hqb hk) (fun c hc => hbs c (List.mem_cons_of_mem _ hc)) he

theorem quiet_keeps {bs : List α} (hi : inv s) (hb : ∀ b ∈ bs, quiet b)
    (he : exec step s bs = some n) : inv n :=
  exec_invariant step cond inv (fun s a t => hx.keeps s a t) s n bs hi
    (meets_of_forall step cond s bs (fun b hbs t => hx.admits t b (hb b hbs))) he

/-- An action that is not quiet may wait until all sections are finished. -/
theorem postponed {bs : List α} (hi : inv s) (hb : ∀ b ∈ bs, quiet b)
    (he : exec step s bs = some n) (ha : ¬ quiet a) (hc : cond s a) (hs : step s a = some u) :
    cond n a ∧ ∃ w, step n a = some w ∧ exec step u bs = some w := by
  induction bs generalizing s u with
  | nil =>
    cases he
    exact ⟨hc,u,hs,rfl⟩
  | cons b bs ih =>
    obtain ⟨k,hk,he⟩ := exec_cons_some step he
    have hqb := hb b (List.mem_cons_self ..)
    have hba : b ≠ a := fun heq => ha (heq ▸ hqb)
    obtain ⟨w,hw,huw⟩ := hx.square s b a k u hi hqb hba hc hk hs
    have hik := hx.keeps s b k hi (hx.admits s b hqb) hk
    obtain ⟨hcn,x,hx',hex⟩ := ih hik (fun c hc => hb c (List.mem_cons_of_mem _ hc)) he
      (hx.stable s b a k u hi hqb hba hc hk hs) hw
    refine ⟨hcn,x,hx',?_⟩
    rw [exec,huw]
    exact hex

end Exchange

section Coarse

/-! A coarser system whose steps are an action that is not quiet together with
the section it enters. -/

variable {τ : Type*} {β : Type*} (coarse : τ → β → Option τ) (admitted : τ → β → Prop)
variable (label : α → Option β) (agrees : σ → τ → Prop)

variable (step quiet cond inv) in
/-- The coarse step follows the action and the sections up to their end. -/
def CoarseFollows : Prop := ∀ n a w m x, inv n → agrees n x → Resting step quiet n → ¬ quiet a →
  cond n a → step n a = some w → SettlesTo step quiet w m →
    ∃ y, exec coarse x (label a).toList = some y ∧ Meets coarse admitted x (label a).toList ∧
      agrees m y

variable {coarse admitted label agrees}

theorem meets_concat {x y : τ} {as bs : List β} (ha : Meets coarse admitted x as)
    (he : exec coarse x as = some y) (hb : Meets coarse admitted y bs) :
    Meets coarse admitted x (as++bs) := by
  induction as generalizing x with
  | nil =>
    cases he
    exact hb
  | cons a as ih =>
    obtain ⟨k,hk,he⟩ := exec_cons_some coarse he
    refine ⟨ha.1,?_⟩
    intro z hz
    cases hk.symm.trans hz
    exact ih (ha.2 k hk) he

/-- Every run, with its quiet actions left out, is a run of the coarse system,
and leads to the state in which all sections are finished. -/
theorem coarse_run (measure : σ → ℕ) (hx : Exchangeable step quiet cond inv)
    (hdown : ∀ s a t, quiet a → step s a = some t → measure t < measure s)
    (hlabel : ∀ a, quiet a → label a = none)
    (hf : CoarseFollows step quiet cond inv coarse admitted label agrees)
    (as : List α) (s t n : σ) (x : τ) (hi : inv s) (hn : SettlesTo step quiet s n)
    (hag : agrees n x) (hc : Meets step cond s as) (he : exec step s as = some t) :
    ∃ m y, SettlesTo step quiet t m ∧ exec coarse x (as.filterMap label) = some y ∧
      Meets coarse admitted x (as.filterMap label) ∧ agrees m y := by
  induction as generalizing s n x with
  | nil =>
    cases he
    exact ⟨n,x,hn,rfl,trivial,hag⟩
  | cons a as ih =>
    obtain ⟨k,hk,he⟩ := exec_cons_some step he
    have hik := hx.keeps s a k hi hc.1 hk
    have hfirst : (a::as).filterMap label = (label a).toList++as.filterMap label := by
      cases hl : label a <;> simp [hl]
    by_cases ha : quiet a
    · rw [hfirst,hlabel a ha]
      exact ih k n x hik (settlesTo_quiet hx hi hn ha hk) hag (hc.2 k hk) he
    · obtain ⟨⟨bs,hbs,hsn⟩,hnset⟩ := hn
      -- the action is taken in the settled state, and its section run from there
      obtain ⟨hcn,w,hnw,hkw⟩ := postponed hx hi hbs hsn ha hc.1 hk
      have hin := quiet_keeps hx hi hbs hsn
      obtain ⟨cs,m,hcs,hwm,hm⟩ := Descent.exists_final step quiet measure (Resting step quiet) hdown
        (fun r hr => unsettled_moves hr) w
      obtain ⟨y,hy,hadm,hagm⟩ := hf n a w m x hin hag hnset ha hcn hnw ⟨⟨cs,hcs,hwm⟩,hm⟩
      obtain ⟨m',y',hset,hrun,hmeets,hag'⟩ := ih k m y hik
        (settlesTo_append hbs hkw ⟨⟨cs,hcs,hwm⟩,hm⟩) hagm (hc.2 k hk) he
      refine ⟨m',y',hset,?_,?_,hag'⟩
      · rw [hfirst,exec_append,hy]
        exact hrun
      · rw [hfirst]
        exact meets_concat hadm hy hmeets

end Coarse

end ArchivalDedup.Reduction
