import ArchivalDedup.WriteDedup

/-!
# What pass 1 leaves in a plan

The entries follow the blocks of the request in order, no two MISSes carry the
same hash, and the table of pending hashes lists exactly the MISSes so far.
Slot assignment changes the slot numbers of MISS entries and nothing else.
-/

set_option autoImplicit false

namespace ArchivalDedup.PlanShape
open ArchivalDedup.FiniteTable ArchivalDedup.MetaIndex ArchivalDedup.WriteDedup

variable (sha512 : List UInt8 → Hash) (r : WriteReq)

/-- Entry `i` is about block `i` of the request. -/
def Formed (plan : List PlanEntry) : Prop :=
  ∀ i e, plan[i]? = some e →
    e.logicalBlk = r.startBlock+i ∧ e.payload = i*blockSize ∧ e.hash = sha512 (r.block i)

def MissDistinct (plan : List PlanEntry) : Prop :=
  plan.Pairwise (fun e f => e.kind = .miss → f.kind = .miss → e.hash ≠ f.hash)

structure Pass1Ok (p : Pass1) : Prop where
  formed : Formed sha512 r p.plan
  distinct : MissDistinct p.plan
  pendingOf : ∀ h a, find p.pendingHashes h = some a →
    ∃ e ∈ p.plan, e.kind = .miss ∧ e.hash = h ∧ e.info = a
  pendingAll : ∀ e ∈ p.plan, e.kind = .miss → find p.pendingHashes e.hash = some e.info

variable {sha512 r}

theorem pass1_start : Pass1Ok sha512 r Pass1.start where
  formed := by simp [Formed,Pass1.start]
  distinct := List.Pairwise.nil
  pendingOf := by simp [Pass1.start]
  pendingAll := by simp [Pass1.start]

theorem formed_snoc {plan : List PlanEntry} {e : PlanEntry} (h : Formed sha512 r plan)
    (he : e.logicalBlk = r.startBlock+plan.length ∧ e.payload = plan.length*blockSize ∧
      e.hash = sha512 (r.block plan.length)) : Formed sha512 r (plan++[e]) := by
  intro i f hf
  by_cases hi : i < plan.length
  · rw [List.getElem?_append_left hi] at hf
    exact h i f hf
  · rw [List.getElem?_append_right (by omega)] at hf
    obtain ⟨hlt,_⟩ := List.getElem?_eq_some_iff.mp hf
    have hil : i = plan.length := by
      simp at hlt
      omega
    subst hil
    have hef : e = f := by simpa using hf
    exact hef ▸ he

theorem missDistinct_snoc {plan : List PlanEntry} {e : PlanEntry} (h : MissDistinct plan)
    (he : e.kind = .miss → ∀ f ∈ plan, f.kind = .miss → f.hash ≠ e.hash) :
    MissDistinct (plan++[e]) := by
  refine List.pairwise_append.mpr ⟨h,List.pairwise_singleton _ _,?_⟩
  intro f hf g hg hfk hgk
  have hge : g = e := by simpa using hg
  subst hge
  exact he hgk f hf hfk

theorem pass1Block_ok {c : Context} {p : Pass1} (a : Ptr) (h : Pass1Ok sha512 r p) :
    Pass1Ok sha512 r (pass1Block sha512 r a c p).2 := by
  cases hx : existingInfo c p (sha512 (r.block p.plan.length)) with
  | some b =>
    rw [pass1Block_hit a hx]
    exact
      { formed := formed_snoc h.formed ⟨rfl,rfl,rfl⟩
        distinct := missDistinct_snoc h.distinct (fun hk => by cases hk)
        pendingOf := fun k b hk => by
          obtain ⟨e,he,hh⟩ := h.pendingOf k b hk
          exact ⟨e,by simp [he],hh⟩
        pendingAll := by
          intro e he hk
          rcases List.mem_append.mp he with he | he
          · exact h.pendingAll e he hk
          · have := List.mem_singleton.mp he
            subst this
            cases hk }
  | none =>
    have hnone : find p.pendingHashes (sha512 (r.block p.plan.length)) = none := by
      unfold existingInfo at hx
      exact (Option.or_eq_none_iff.mp hx).2
    have hne : ∀ f ∈ p.plan, f.kind = .miss → f.hash ≠ sha512 (r.block p.plan.length) := by
      intro f hf hk hh
      have := h.pendingAll f hf hk
      rw [hh,hnone] at this
      cases this
    rw [pass1Block_miss a hx]
    exact
      { formed := formed_snoc h.formed ⟨rfl,rfl,rfl⟩
        distinct := missDistinct_snoc h.distinct (fun _ => hne)
        pendingOf := by
          intro k b hk
          rw [find_insert] at hk
          split_ifs at hk with hkey
          · cases hk
            exact ⟨_,List.mem_append_right _ (List.mem_singleton.mpr rfl),rfl,hkey.symm,rfl⟩
          · obtain ⟨e,he,hh⟩ := h.pendingOf k b hk
            exact ⟨e,by simp [he],hh⟩
        pendingAll := by
          intro e he hk
          rw [find_insert]
          rcases List.mem_append.mp he with he | he
          · rw [if_neg (hne e he hk)]
            exact h.pendingAll e he hk
          · have := List.mem_singleton.mp he
            subst this
            exact if_pos rfl }

theorem pass1Block_length (a : Ptr) (c : Context) (p : Pass1) :
    (pass1Block sha512 r a c p).2.plan.length = p.plan.length+1 := by
  cases hx : existingInfo c p (sha512 (r.block p.plan.length)) with
  | some b => simp [pass1Block_hit a hx]
  | none => simp [pass1Block_miss a hx]

def unslotted (e : PlanEntry) : PlanEntry := { e with masterBlk := 0 }

theorem assignSlots_unslotted (plan : List PlanEntry) (slots : List ℕ) (c : Context) :
    (assignSlots plan slots c).1.map unslotted = plan.map unslotted := by
  induction plan generalizing slots c with
  | nil => rfl
  | cons e es ih =>
    unfold assignSlots
    split <;> simp [ih,unslotted]

theorem unslotted_getElem {plan plan' : List PlanEntry}
    (h : plan'.map unslotted = plan.map unslotted) {i : ℕ} {e : PlanEntry}
    (he : plan'[i]? = some e) : ∃ f, plan[i]? = some f ∧ unslotted f = unslotted e := by
  have h₁ := congrArg (fun l => l[i]?) h
  simp only [List.getElem?_map,he,Option.map_some] at h₁
  obtain ⟨f,hf,hu⟩ := Option.map_eq_some_iff.mp h₁.symm
  exact ⟨f,hf,hu⟩

theorem unslotted_mem {plan plan' : List PlanEntry}
    (h : plan'.map unslotted = plan.map unslotted) {e : PlanEntry}
    (he : e ∈ plan') : ∃ f ∈ plan, unslotted f = unslotted e := by
  obtain ⟨i,hi⟩ := List.mem_iff_getElem?.mp he
  obtain ⟨f,hf,hu⟩ := unslotted_getElem h hi
  exact ⟨f,List.mem_of_getElem? hf,hu⟩

theorem unslotted_fields {e f : PlanEntry} (h : unslotted f = unslotted e) :
    f.kind = e.kind ∧ f.logicalBlk = e.logicalBlk ∧ f.payload = e.payload ∧ f.hash = e.hash ∧
      f.info = e.info := by
  cases e
  cases f
  simp_all [unslotted]

theorem formed_unslotted {plan plan' : List PlanEntry}
    (hu : plan'.map unslotted = plan.map unslotted)
    (h : Formed sha512 r plan) : Formed sha512 r plan' := by
  intro i e he
  obtain ⟨f,hf,hfe⟩ := unslotted_getElem hu he
  obtain ⟨_,h₁,h₂,h₃,_⟩ := unslotted_fields hfe
  rw [← h₁,← h₂,← h₃]
  exact h i f hf

theorem missDistinct_unslotted {plan plan' : List PlanEntry}
    (hu : plan'.map unslotted = plan.map unslotted)
    (h : MissDistinct plan) : MissDistinct plan' := by
  have hmap : ∀ l : List PlanEntry, MissDistinct (l.map unslotted) ↔ MissDistinct l :=
    fun l => List.pairwise_map
  rw [← hmap,hu,hmap]
  exact h

theorem countP_unslotted {plan plan' : List PlanEntry} (q : PlanEntry → Bool)
    (hq : ∀ e, q (unslotted e) = q e)
    (hu : plan'.map unslotted = plan.map unslotted) :
    plan'.countP q = plan.countP q := by
  have h₁ := congrArg (List.countP q) hu
  rw [List.countP_map,List.countP_map] at h₁
  have hcomp : (q ∘ unslotted) = q := funext hq
  rwa [hcomp] at h₁

end ArchivalDedup.PlanShape
