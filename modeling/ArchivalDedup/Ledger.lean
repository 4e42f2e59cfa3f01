import Mathlib.Data.Set.Basic
import Mathlib.Algebra.BigOperators.Group.List.Basic
import ArchivalDedup.WriteDedup

/-!
# The ledger of references and slots

Every operation in flight is a party with the plan entries whose reference it
holds and the slots it has been handed or has yet to release. The ledger
invariant balances the reference counters against all mappings and plan
entries, and accounts for every slot below the append counter exactly once.

A freed object may still be mapped: the set `Z` collects such addresses. Their
counter stays above the number of mappings left, so that no later decrement
takes them for the last holder. With `Z` empty there are none.
-/

set_option autoImplicit false

namespace ArchivalDedup.Ledger
open ArchivalDedup.FiniteTable ArchivalDedup.MetaIndex ArchivalDedup.WriteDedup

/-- What one operation in flight holds. -/
structure Party where
  plan : List PlanEntry
  extra : List ℕ
  assigned : Bool

def missSlots (plan : List PlanEntry) : List ℕ := plan.filterMap missSlot

def Party.slots (p : Party) : List ℕ := p.extra++if p.assigned then missSlots p.plan else []

def planRefs (plan : List PlanEntry) (a : Ptr) : ℕ := plan.countP (fun e => e.info = a)

def planMisses (plan : List PlanEntry) (a : Ptr) : ℕ :=
  plan.countP (fun e => e.kind = .miss ∧ e.info = a)

def heldRefs (ps : List Party) (a : Ptr) : ℕ := (ps.map (fun p => planRefs p.plan a)).sum

def heldMisses (ps : List Party) (a : Ptr) : ℕ := (ps.map (fun p => planMisses p.plan a)).sum

/-- All references to an object: mappings of file blocks and held plan entries. -/
def refs (c : Context) (ps : List Party) (a : Ptr) : ℕ :=
  occurrences c.fileToMaster a+heldRefs ps a

def Published (c : Context) (a : Ptr) : Prop := find c.hashToMaster (c.cell a).hash = some a

def publishedSlots (c : Context) : List ℕ :=
  valuesBy (fun a => (c.cell a).masterBlockIndex) c.hashToMaster

structure Inv (Z : Set Ptr) (c : Context) (ps : List Party) : Prop where
  counted : ∀ a ∈ c.live, (c.cell a).refcount = refs c ps a
  bounded : ∀ a, (c.cell a).refcount < refcountMod
  positive : ∀ a ∈ c.live, 0 < refs c ps a
  keyed : ∀ h a, find c.hashToMaster h = some a →
    (c.cell a).hash = h ∧ a ∈ c.live ∧ heldMisses ps a = 0
  owned : ∀ a ∈ c.live, Published c a ∨
    (heldMisses ps a = 1 ∧ occurrences c.fileToMaster a = 0)
  single : ∀ a, heldMisses ps a ≤ 1
  pending : ∀ p ∈ ps, ∀ e ∈ p.plan, e.kind = .miss → e.info ∈ c.live ∧
    (c.cell e.info).hash = e.hash ∧
    (p.assigned = true → (c.cell e.info).masterBlockIndex = e.masterBlk)
  shared : ∀ p ∈ ps, ∀ e ∈ p.plan, e.info ∈ c.live → Published c e.info ∨
    ∃ m ∈ p.plan, m.kind = .miss ∧ m.info = e.info
  stale : ∀ a, a ∉ c.live → refs c ps a = 0 ∨ (a ∈ Z ∧ refs c ps a < (c.cell a).refcount)
  slots : (c.freeBlockList++ps.flatMap Party.slots++publishedSlots c).Perm
    (List.range c.nextBlockIndex)

@[simp] theorem planRefs_nil (a : Ptr) : planRefs [] a = 0 := rfl

@[simp] theorem planRefs_cons (e : PlanEntry) (plan : List PlanEntry) (a : Ptr) :
    planRefs (e::plan) a = planRefs plan a+if e.info = a then 1 else 0 := by
  simp [planRefs,List.countP_cons]

@[simp] theorem planMisses_nil (a : Ptr) : planMisses [] a = 0 := rfl

@[simp] theorem planMisses_cons (e : PlanEntry) (plan : List PlanEntry) (a : Ptr) :
    planMisses (e::plan) a = planMisses plan a+if e.kind = .miss ∧ e.info = a then 1 else 0 := by
  simp [planMisses,List.countP_cons]

@[simp] theorem heldRefs_nil (a : Ptr) : heldRefs [] a = 0 := rfl

@[simp] theorem heldRefs_cons (p : Party) (ps : List Party) (a : Ptr) :
    heldRefs (p::ps) a = planRefs p.plan a+heldRefs ps a := rfl

@[simp] theorem heldMisses_nil (a : Ptr) : heldMisses [] a = 0 := rfl

@[simp] theorem heldMisses_cons (p : Party) (ps : List Party) (a : Ptr) :
    heldMisses (p::ps) a = planMisses p.plan a+heldMisses ps a := rfl

theorem planRefs_zero (plan : List PlanEntry) (a : Ptr) :
    planRefs plan a = 0 ↔ ∀ e ∈ plan, e.info ≠ a := by
  simp [planRefs,List.countP_eq_zero]

theorem planMisses_zero (plan : List PlanEntry) (a : Ptr) :
    planMisses plan a = 0 ↔ ∀ e ∈ plan, e.kind = .miss → e.info ≠ a := by
  simp [planMisses,List.countP_eq_zero]

theorem planMisses_le (plan : List PlanEntry) (a : Ptr) : planMisses plan a ≤ planRefs plan a := by
  unfold planMisses planRefs
  apply List.countP_mono_left
  intro e _ h
  have := of_decide_eq_true h
  exact decide_eq_true this.2

theorem heldRefs_zero (ps : List Party) (a : Ptr) :
    heldRefs ps a = 0 ↔ ∀ p ∈ ps, ∀ e ∈ p.plan, e.info ≠ a := by
  induction ps with
  | nil => simp
  | cons p ps ih => simp [ih,planRefs_zero]

theorem heldMisses_zero (ps : List Party) (a : Ptr) :
    heldMisses ps a = 0 ↔ ∀ p ∈ ps, ∀ e ∈ p.plan, e.kind = .miss → e.info ≠ a := by
  induction ps with
  | nil => simp
  | cons p ps ih => simp [ih,planMisses_zero]

theorem heldMisses_le (ps : List Party) (a : Ptr) : heldMisses ps a ≤ heldRefs ps a := by
  induction ps with
  | nil => simp
  | cons p ps ih =>
    have := planMisses_le p.plan a
    simp only [heldMisses_cons,heldRefs_cons]
    omega

theorem inv_empty (Z : Set Ptr) : Inv Z emptyContext [] where
  counted := by simp [emptyContext]
  bounded := by
    intro a
    change (default : MasterInfo).refcount < refcountMod
    decide
  positive := by simp [emptyContext]
  keyed := by simp [emptyContext]
  owned := by simp [emptyContext]
  single := by simp
  pending := by simp
  shared := by simp
  stale := fun a _ => Or.inl (by simp [refs,emptyContext])
  slots := by simp [emptyContext,publishedSlots]

/-- A pending object is referenced by its own party alone. -/
theorem others_clear {Z : Set Ptr} {c : Context} {p : Party} {ps : List Party}
    (h : Inv Z c (p::ps)) {e : PlanEntry} (he : e ∈ p.plan) (hk : e.kind = .miss) :
    heldRefs ps e.info = 0 ∧ occurrences c.fileToMaster e.info = 0 ∧ ¬ Published c e.info := by
  have hl := (h.pending p (by simp) e he hk).1
  have hp : 0 < planMisses p.plan e.info := by
    rw [Nat.pos_iff_ne_zero,Ne,planMisses_zero]
    exact fun hz => hz e he hk rfl
  have hs := h.single e.info
  simp only [heldMisses_cons] at hs
  have hn : ¬ Published c e.info := by
    intro hpub
    have := (h.keyed _ _ hpub).2.2
    simp only [heldMisses_cons] at this
    omega
  refine ⟨?_,?_,hn⟩
  · rw [heldRefs_zero]
    intro q hq m hm hi
    rcases h.shared q (by simp [hq]) m hm (hi ▸ hl) with hpub | ⟨m',hm',hk',hi'⟩
    · exact hn (hi ▸ hpub)
    · have hz : heldMisses ps e.info = 0 := by omega
      exact (heldMisses_zero ps e.info).mp hz q hq m' hm' hk' (hi'.trans hi)
  · rcases h.owned e.info hl with hpub | ⟨_,ho⟩
    · exact absurd hpub hn
    · exact ho

theorem flatMap_slots_perm {ps qs : List Party} (h : ps.Perm qs) :
    (ps.flatMap Party.slots).Perm (qs.flatMap Party.slots) := h.flatMap_right _

theorem heldRefs_perm {ps qs : List Party} (h : ps.Perm qs) (a : Ptr) :
    heldRefs ps a = heldRefs qs a := (h.map _).sum_eq

theorem heldMisses_perm {ps qs : List Party} (h : ps.Perm qs) (a : Ptr) :
    heldMisses ps a = heldMisses qs a := (h.map _).sum_eq

theorem inv_perm {Z : Set Ptr} {c : Context} {ps qs : List Party} (hp : ps.Perm qs)
    (h : Inv Z c ps) : Inv Z c qs := by
  have hr : ∀ a, refs c qs a = refs c ps a := fun a => by
    simp only [refs,heldRefs_perm hp a]
  have hm : ∀ a, heldMisses qs a = heldMisses ps a := fun a => (heldMisses_perm hp a).symm
  exact
    { counted := fun a ha => by rw [hr]; exact h.counted a ha
      bounded := h.bounded
      positive := fun a ha => by rw [hr]; exact h.positive a ha
      keyed := fun k a hk => by rw [hm]; exact h.keyed k a hk
      owned := fun a ha => by rw [hm]; exact h.owned a ha
      single := fun a => by rw [hm]; exact h.single a
      pending := fun p hq => h.pending p (hp.mem_iff.mpr hq)
      shared := fun p hq => h.shared p (hp.mem_iff.mpr hq)
      stale := fun a ha => by rw [hr]; exact h.stale a ha
      slots := by
        refine List.Perm.trans ?_ h.slots
        exact ((flatMap_slots_perm hp).symm.append_left _).append_right _ }

theorem inv_reorder {Z : Set Ptr} {c : Context} {p q : Party} {ps : List Party}
    (hplan : p.plan.Perm q.plan) (hslots : p.slots.Perm q.slots) (ha : q.assigned = p.assigned)
    (h : Inv Z c (p::ps)) : Inv Z c (q::ps) := by
  have hr : ∀ a, refs c (q::ps) a = refs c (p::ps) a := fun a => by
    simp only [refs,heldRefs_cons,planRefs,hplan.countP_eq]
  have hm : ∀ a, heldMisses (q::ps) a = heldMisses (p::ps) a := fun a => by
    simp only [heldMisses_cons,planMisses,hplan.countP_eq]
  exact
    { counted := fun a hl => by rw [hr]; exact h.counted a hl
      bounded := h.bounded
      positive := fun a hl => by rw [hr]; exact h.positive a hl
      keyed := fun k a hk => by rw [hm]; exact h.keyed k a hk
      owned := fun a hl => by rw [hm]; exact h.owned a hl
      single := fun a => by rw [hm]; exact h.single a
      pending := by
        intro r hr' e he hk
        rcases List.mem_cons.mp hr' with rfl | hr'
        · rw [ha]
          exact h.pending p (by simp) e (hplan.mem_iff.mpr he) hk
        · exact h.pending r (by simp [hr']) e he hk
      shared := by
        intro r hr' e he hl
        rcases List.mem_cons.mp hr' with rfl | hr'
        · rcases h.shared p (by simp) e (hplan.mem_iff.mpr he) hl with hp | ⟨m,hm',hk⟩
          · exact Or.inl hp
          · exact Or.inr ⟨m,hplan.mem_iff.mp hm',hk⟩
        · exact h.shared r (by simp [hr']) e he hl
      stale := fun a hl => by rw [hr]; exact h.stale a hl
      slots := by
        refine List.Perm.trans ?_ h.slots
        simp only [List.flatMap_cons]
        exact ((hslots.symm.append_right _).append_left _).append_right _ }

theorem inv_replan {Z : Set Ptr} {c : Context} {plan plan' : List PlanEntry} {extra : List ℕ}
    {assigned : Bool} {ps : List Party} (hp : plan.Perm plan')
    (h : Inv Z c (⟨plan,extra,assigned⟩::ps)) : Inv Z c (⟨plan',extra,assigned⟩::ps) := by
  refine inv_reorder (p := ⟨plan,extra,assigned⟩) hp ?_ rfl h
  cases assigned with
  | false => exact List.Perm.refl _
  | true =>
    simp only [Party.slots,if_true]
    exact (hp.filterMap _).append_left _

theorem inv_mono {Z Z' : Set Ptr} {c : Context} {ps : List Party} (hz : Z ⊆ Z')
    (h : Inv Z c ps) : Inv Z' c ps :=
  { h with stale := fun a ha => (h.stale a ha).imp id (fun ⟨hm,hlt⟩ => ⟨hz hm,hlt⟩) }

end ArchivalDedup.Ledger
