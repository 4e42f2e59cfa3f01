import ArchivalDedup.PlanShape
import ArchivalDedup.LedgerPublication

/-!
# The passes of a write keep the ledger balanced

Pass 1 takes references, the allocator hands out slots, pass 3 turns held
references into mappings and rollback gives everything back. Each pass is
followed through the elementary moves; nothing here depends on which other
operations are in flight.
-/

set_option autoImplicit false

namespace ArchivalDedup.LedgerPasses
open ArchivalDedup.FiniteTable ArchivalDedup.MetaIndex ArchivalDedup.WriteDedup
open ArchivalDedup.PlanShape ArchivalDedup.Ledger ArchivalDedup.LedgerMoves
open ArchivalDedup.LedgerPublication

variable {sha512 : List UInt8 → Hash} {r : WriteReq}
variable {Z : Set Ptr} {c : Context} {plan : List PlanEntry} {extra : List ℕ} {ps : List Party}

theorem existing_live {p : Pass1} {k : Hash} {b : Ptr} (h : Inv Z c (⟨p.plan,extra,false⟩::ps))
    (hok : Pass1Ok sha512 r p) (hx : existingInfo c p k = some b) : b ∈ c.live := by
  rcases Option.or_eq_some_iff.mp hx with hb | ⟨_,hb⟩
  · exact (h.keyed _ _ hb).2.1
  · obtain ⟨m,hm,hk,_,rfl⟩ := hok.pendingOf _ _ hb
    exact (h.pending _ (List.mem_cons_self ..) m hm hk).1

theorem inv_pass1Block {p : Pass1} {a : Ptr} (h : Inv Z c (⟨p.plan,extra,false⟩::ps))
    (hok : Pass1Ok sha512 r p) (ha : a ∉ c.live)
    (hz : existingInfo c p (sha512 (r.block p.plan.length)) = none → a ∉ Z)
    (hw : ∀ b, existingInfo c p (sha512 (r.block p.plan.length)) = some b →
      (c.cell b).refcount+1 < refcountMod) :
    Inv Z (pass1Block sha512 r a c p).1
      (⟨(pass1Block sha512 r a c p).2.plan,extra,false⟩::ps) := by
  have hsnoc : ∀ (d : Context) (e : PlanEntry), Inv Z d (⟨e::p.plan,extra,false⟩::ps) →
      Inv Z d (⟨p.plan++[e],extra,false⟩::ps) := fun d e hd =>
    inv_replan (List.perm_append_singleton e p.plan).symm hd
  cases hx : existingInfo c p (sha512 (r.block p.plan.length)) with
  | some b =>
    rw [pass1Block_hit a hx]
    have hshared : Published c b ∨ ∃ m ∈ p.plan, m.kind = .miss ∧ m.info = b := by
      rcases Option.or_eq_some_iff.mp hx with hb | ⟨_,hb⟩
      · left
        rw [Published,(h.keyed _ _ hb).1]
        exact hb
      · obtain ⟨m,hm,hk,_,hi⟩ := hok.pendingOf _ _ hb
        exact Or.inr ⟨m,hm,hk,hi⟩
    exact hsnoc _ _ (inv_hit (e := newEntry .hit r p.plan.length (sha512 (r.block p.plan.length)) b)
      h rfl (existing_live h hok hx) hshared (hw b hx))
  | none =>
    rw [pass1Block_miss a hx]
    exact hsnoc _ _ (inv_miss
      (e := newEntry .miss r p.plan.length (sha512 (r.block p.plan.length)) a) h ha rfl (hz hx))

theorem inv_slots {d : Context} {extra' : List ℕ} (h : Inv Z c (⟨plan,extra,false⟩::ps))
    (hf : d.fileToMaster = c.fileToMaster) (hh : d.hashToMaster = c.hashToMaster)
    (hc : d.toHeap = c.toHeap)
    (hs : (d.freeBlockList++(extra'++ps.flatMap Party.slots)++publishedSlots d).Perm
      (List.range d.nextBlockIndex)) : Inv Z d (⟨plan,extra',false⟩::ps) := by
  have hcell : d.cell = c.cell := congrArg Heap.cell hc
  have hlive : d.live = c.live := congrArg Heap.live hc
  have hr : ∀ a, refs d (⟨plan,extra',false⟩::ps) a = refs c (⟨plan,extra,false⟩::ps) a := by
    intro a
    simp [refs,hf]
  have hpub : ∀ a, Published d a ↔ Published c a := by
    intro a
    simp [Published,hcell,hh]
  exact
    { counted := fun a ha => by rw [hr,hcell]; exact h.counted a (hlive ▸ ha)
      bounded := fun a => by rw [hcell]; exact h.bounded a
      positive := fun a ha => by rw [hr]; exact h.positive a (hlive ▸ ha)
      keyed := fun k a hk => by rw [hcell,hlive]; exact h.keyed k a (hh ▸ hk)
      owned := fun a ha => by rw [hpub,hf]; exact h.owned a (hlive ▸ ha)
      single := h.single
      pending := by
        intro p hp m hm hk
        rw [hcell,hlive]
        rcases List.mem_cons.mp hp with rfl | hp
        · exact h.pending _ (List.mem_cons_self ..) m hm hk
        · exact h.pending p (by simp [hp]) m hm hk
      shared := by
        intro p hp m hm hl
        rw [hpub]
        rcases List.mem_cons.mp hp with rfl | hp
        · exact h.shared _ (List.mem_cons_self ..) m hm (hlive ▸ hl)
        · exact h.shared p (by simp [hp]) m hm (hlive ▸ hl)
      stale := fun a ha => by rw [hr,hcell]; exact h.stale a (hlive ▸ ha)
      slots := by simpa [Party.slots] using hs }

theorem inv_drain (n : ℕ) (h : Inv Z c (⟨plan,[],false⟩::ps)) :
    Inv Z (drainFreeList n c).2 (⟨plan,(drainFreeList n c).1,false⟩::ps) := by
  refine inv_slots h rfl rfl rfl ?_
  have hs := h.slots
  change (c.freeBlockList.drop n++(c.freeBlockList.take n++ps.flatMap Party.slots)++
    publishedSlots c).Perm (List.range c.nextBlockIndex)
  refine List.Perm.trans ?_ hs
  simp only [List.flatMap_cons,Party.slots,List.nil_append,Bool.false_eq_true,if_false]
  refine List.Perm.append_right _ ?_
  rw [← List.append_assoc]
  refine List.Perm.append_right _ ?_
  exact List.perm_append_comm.trans (List.Perm.of_eq (List.take_append_drop n c.freeBlockList))

theorem inv_append (n : ℕ) {taken : List ℕ} (h : Inv Z c (⟨plan,taken,false⟩::ps)) :
    Inv Z (appendSlots n taken c).2 (⟨plan,(appendSlots n taken c).1,false⟩::ps) := by
  refine inv_slots h rfl rfl rfl ?_
  have hs := h.slots
  simp only [List.flatMap_cons,Party.slots,Bool.false_eq_true,if_false,List.append_nil] at hs
  change (c.freeBlockList++(taken++(List.range (n-taken.length)).map (c.nextBlockIndex+·)++
    ps.flatMap Party.slots)++publishedSlots c).Perm (List.range (c.nextBlockIndex+(n-taken.length)))
  rw [List.range_add]
  refine List.Perm.trans ?_ (hs.append_right _)
  simp only [List.append_assoc]
  refine List.Perm.append_left _ (List.Perm.append_left _ ?_)
  exact List.perm_append_comm.trans (List.Perm.of_eq (by simp only [List.append_assoc]))

theorem assignSlots_frame (plan : List PlanEntry) (slots : List ℕ) (c : Context) :
    (assignSlots plan slots c).2.toIndex = c.toIndex ∧
    (assignSlots plan slots c).2.live = c.live ∧
    (assignSlots plan slots c).2.toMasterFile = c.toMasterFile ∧
    (assignSlots plan slots c).2.nextBlockIndex = c.nextBlockIndex := by
  induction plan generalizing slots c with
  | nil => exact ⟨rfl,rfl,rfl,rfl⟩
  | cons e es ih =>
    cases hk : e.kind with
    | hit =>
      rw [assignSlots_hit es slots c hk]
      exact ih slots c
    | miss =>
      cases slots with
      | nil =>
        rw [assignSlots_none]
        exact ⟨rfl,rfl,rfl,rfl⟩
      | cons m ms =>
        rw [assignSlots_miss es m ms c hk]
        exact ih ms _

theorem setMasterBlockIndex_cell (c : Context) (b : Ptr) (m : ℕ) (a : Ptr) :
    ((c.setMasterBlockIndex b m).cell a).hash = (c.cell a).hash ∧
    ((c.setMasterBlockIndex b m).cell a).refcount = (c.cell a).refcount ∧
    (b ≠ a → (c.setMasterBlockIndex b m).cell a = c.cell a) := by
  by_cases ha : a = b
  · subst ha
    simp [Context.setMasterBlockIndex]
  · simp [Context.setMasterBlockIndex,ha]

theorem assignSlots_cell (plan : List PlanEntry) (slots : List ℕ) (c : Context) (a : Ptr) :
    ((assignSlots plan slots c).2.cell a).hash = (c.cell a).hash ∧
    ((assignSlots plan slots c).2.cell a).refcount = (c.cell a).refcount ∧
    ((∀ e ∈ plan, e.kind = .miss → e.info ≠ a) →
      (assignSlots plan slots c).2.cell a = c.cell a) := by
  induction plan generalizing slots c with
  | nil => exact ⟨rfl,rfl,fun _ => rfl⟩
  | cons e es ih =>
    cases hk : e.kind with
    | hit =>
      rw [assignSlots_hit es slots c hk]
      obtain ⟨h₁,h₂,h₃⟩ := ih slots c
      exact ⟨h₁,h₂,fun hne => h₃ (fun m hm => hne m (List.mem_cons_of_mem _ hm))⟩
    | miss =>
      cases slots with
      | nil =>
        rw [assignSlots_none]
        exact ⟨rfl,rfl,fun _ => rfl⟩
      | cons m ms =>
        rw [assignSlots_miss es m ms c hk]
        obtain ⟨h₁,h₂,h₃⟩ := ih ms (c.setMasterBlockIndex e.info m)
        obtain ⟨g₁,g₂,g₃⟩ := setMasterBlockIndex_cell c e.info m a
        refine ⟨h₁.trans g₁,h₂.trans g₂,?_⟩
        intro hne
        rw [h₃ (fun m hm => hne m (List.mem_cons_of_mem _ hm)),
          g₃ (hne e (List.mem_cons_self ..) hk)]

theorem assignSlots_missSlots (plan : List PlanEntry) (slots : List ℕ) (c : Context)
    (hn : slots.length = missCount plan) : missSlots (assignSlots plan slots c).1 = slots := by
  induction plan generalizing slots c with
  | nil =>
    have : slots = [] := List.length_eq_zero_iff.mp hn
    simp [assignSlots,missSlots,this]
  | cons e es ih =>
    cases hk : e.kind with
    | hit =>
      have hn' : slots.length = missCount es := by simpa [missCount,hk] using hn
      rw [assignSlots_hit es slots c hk]
      exact (missSlots_hit hk).trans (ih slots c hn')
    | miss =>
      have hn' : slots.length = missCount es+1 := by simpa [missCount,hk] using hn
      cases slots with
      | nil => simp at hn'
      | cons m ms =>
        rw [assignSlots_miss es m ms c hk]
        refine (missSlots_miss (e := { e with masterBlk := m }) hk).trans ?_
        rw [ih ms _ (by simpa using hn')]

theorem assignSlots_recorded (plan : List PlanEntry) (slots : List ℕ) (c : Context)
    (hn : slots.length = missCount plan) (hd : ∀ a, planMisses plan a ≤ 1) :
    ∀ e ∈ (assignSlots plan slots c).1, e.kind = .miss →
      ((assignSlots plan slots c).2.cell e.info).masterBlockIndex = e.masterBlk := by
  induction plan generalizing slots c with
  | nil => simp [assignSlots]
  | cons e es ih =>
    have hd' : ∀ a, planMisses es a ≤ 1 := by
      intro a
      have := hd a
      simp only [planMisses_cons] at this
      omega
    cases hk : e.kind with
    | hit =>
      have hn' : slots.length = missCount es := by simpa [missCount,hk] using hn
      rw [assignSlots_hit es slots c hk]
      intro m hm hmk
      rcases List.mem_cons.mp hm with rfl | hm
      · rw [hk] at hmk
        cases hmk
      · exact ih slots c hn' hd' m hm hmk
    | miss =>
      have hn' : slots.length = missCount es+1 := by simpa [missCount,hk] using hn
      cases slots with
      | nil => simp at hn'
      | cons s ss =>
        rw [assignSlots_miss es s ss c hk]
        intro m hm hmk
        rcases List.mem_cons.mp hm with rfl | hm
        · have hz : planMisses es e.info = 0 := by
            have := hd e.info
            simp only [planMisses_cons,hk,true_and,if_true] at this
            omega
          have h₁ := (assignSlots_cell es ss (c.setMasterBlockIndex e.info s) e.info).2.2
            ((planMisses_zero es e.info).mp hz)
          simp only at h₁ ⊢
          rw [h₁]
          simp [Context.setMasterBlockIndex]
        · exact ih ss _ (by simpa using hn') hd' m hm hmk

section Assign

variable {slots : List ℕ} (h : Inv Z c (⟨plan,slots,false⟩::ps))

theorem assigned_refs (plan : List PlanEntry) (slots : List ℕ) (c : Context) (ps : List Party)
    (a : Ptr) : refs (assignSlots plan slots c).2 (⟨(assignSlots plan slots c).1,[],true⟩::ps) a =
      refs c (⟨plan,slots,false⟩::ps) a := by
  have hf := congrArg Index.fileToMaster (assignSlots_frame plan slots c).1
  have hq : (assignSlots plan slots c).1.countP (fun e => e.info = a) =
      plan.countP (fun e => e.info = a) :=
    countP_unslotted _ (fun _ => rfl) (assignSlots_unslotted plan slots c)
  simp only [refs,hf,heldRefs_cons,planRefs,hq]

theorem assigned_misses (plan : List PlanEntry) (slots : List ℕ) (c : Context) (ps : List Party)
    (a : Ptr) : heldMisses (⟨(assignSlots plan slots c).1,[],true⟩::ps) a =
      heldMisses (⟨plan,slots,false⟩::ps) a := by
  have hq : (assignSlots plan slots c).1.countP (fun e => e.kind = .miss ∧ e.info = a) =
      plan.countP (fun e => e.kind = .miss ∧ e.info = a) :=
    countP_unslotted _ (fun _ => rfl) (assignSlots_unslotted plan slots c)
  simp only [heldMisses_cons,planMisses,hq]

theorem assigned_published (plan : List PlanEntry) (slots : List ℕ) (c : Context) (a : Ptr) :
    Published (assignSlots plan slots c).2 a ↔ Published c a := by
  have hh := congrArg Index.hashToMaster (assignSlots_frame plan slots c).1
  simp [Published,(assignSlots_cell plan slots c a).1,hh]

include h

theorem assigned_other {p : Party} {e : PlanEntry} (hp : p ∈ ps) (he : e ∈ p.plan)
    (hk : e.kind = .miss) : (assignSlots plan slots c).2.cell e.info = c.cell e.info := by
  apply (assignSlots_cell plan slots c e.info).2.2
  intro m hmem hmk hmi
  have h₁ := h.single e.info
  have h₂ : 0 < planMisses plan e.info := by
    rw [Nat.pos_iff_ne_zero,Ne,planMisses_zero]
    exact fun hz => hz m hmem hmk hmi
  have h₃ : 0 < heldMisses ps e.info := by
    rw [Nat.pos_iff_ne_zero,Ne,heldMisses_zero]
    exact fun hz => hz p hp e he hk rfl
  simp only [heldMisses_cons] at h₁
  omega

theorem assigned_slots : publishedSlots (assignSlots plan slots c).2 = publishedSlots c := by
  have hh := congrArg Index.hashToMaster (assignSlots_frame plan slots c).1
  unfold publishedSlots
  rw [hh]
  apply values_by_congr
  intro k a hk
  have h₁ := (h.keyed k a hk).2.2
  simp only [heldMisses_cons] at h₁
  rw [(assignSlots_cell plan slots c a).2.2 ((planMisses_zero plan a).mp (by omega))]

theorem assigned_pending (hn : slots.length = missCount plan) :
    ∀ p ∈ (⟨(assignSlots plan slots c).1,[],true⟩::ps : List Party), ∀ e ∈ p.plan,
      e.kind = .miss → e.info ∈ (assignSlots plan slots c).2.live ∧
        ((assignSlots plan slots c).2.cell e.info).hash = e.hash ∧
        (p.assigned = true →
          ((assignSlots plan slots c).2.cell e.info).masterBlockIndex = e.masterBlk) := by
  have hu := assignSlots_unslotted plan slots c
  have hdist : ∀ a, planMisses plan a ≤ 1 := by
    intro a
    have := h.single a
    simp only [heldMisses_cons] at this
    omega
  have hrec := assignSlots_recorded plan slots c hn hdist
  intro p hp e he hk
  rw [(assignSlots_cell plan slots c e.info).1,(assignSlots_frame plan slots c).2.1]
  rcases List.mem_cons.mp hp with rfl | hp
  · obtain ⟨f,hf,hfe⟩ := unslotted_mem hu he
    obtain ⟨h₁,_,_,h₂,h₃⟩ := unslotted_fields hfe
    obtain ⟨h₄,h₅,_⟩ := h.pending _ (List.mem_cons_self ..) f hf (h₁.trans hk)
    exact ⟨h₃ ▸ h₄,by rw [← h₃,h₅,h₂],fun _ => hrec e he hk⟩
  · rw [assigned_other h hp he hk]
    exact h.pending p (by simp [hp]) e he hk

theorem assigned_shared : ∀ p ∈ (⟨(assignSlots plan slots c).1,[],true⟩::ps : List Party),
    ∀ e ∈ p.plan, e.info ∈ c.live →
      Published c e.info ∨ ∃ m ∈ p.plan, m.kind = .miss ∧ m.info = e.info := by
  have hu := assignSlots_unslotted plan slots c
  intro p hp e he hl
  rcases List.mem_cons.mp hp with rfl | hp
  · obtain ⟨f,hf,hfe⟩ := unslotted_mem hu he
    obtain ⟨_,_,_,_,h₃⟩ := unslotted_fields hfe
    rw [← h₃] at hl ⊢
    rcases h.shared _ (List.mem_cons_self ..) f hf hl with hp | ⟨m,hmem,hmk,hmi⟩
    · exact Or.inl hp
    · obtain ⟨m',hm',hmm⟩ := unslotted_mem hu.symm hmem
      obtain ⟨h₄,_,_,_,h₅⟩ := unslotted_fields hmm
      exact Or.inr ⟨m',hm',h₄.trans hmk,h₅.trans hmi⟩
  · exact h.shared p (by simp [hp]) e he hl

theorem inv_assign (hn : slots.length = missCount plan) :
    Inv Z (assignSlots plan slots c).2 (⟨(assignSlots plan slots c).1,[],true⟩::ps) := by
  obtain ⟨hix,hlive,_,hnext⟩ := assignSlots_frame plan slots c
  have hcell := assignSlots_cell plan slots c
  have hr := assigned_refs plan slots c ps
  have hm := assigned_misses plan slots c ps
  have hpub := assigned_published plan slots c
  have hf := congrArg Index.fileToMaster hix
  have hh := congrArg Index.hashToMaster hix
  exact
    { counted := fun a ha => by rw [hr,(hcell a).2.1]; exact h.counted a (hlive ▸ ha)
      bounded := fun a => by rw [(hcell a).2.1]; exact h.bounded a
      positive := fun a ha => by rw [hr]; exact h.positive a (hlive ▸ ha)
      keyed := fun k a hk => by rw [(hcell a).1,hlive,hm]; exact h.keyed k a (hh ▸ hk)
      owned := fun a ha => by rw [hpub,hm,hf]; exact h.owned a (hlive ▸ ha)
      single := fun a => by rw [hm]; exact h.single a
      pending := assigned_pending h hn
      shared := by
        intro p hp e he hl
        rw [hpub]
        exact assigned_shared h p hp e he (hlive ▸ hl)
      stale := fun a ha => by rw [hr,(hcell a).2.1]; exact h.stale a (hlive ▸ ha)
      slots := by
        have hfree := congrArg Index.freeBlockList hix
        have hs := h.slots
        simp only [List.flatMap_cons,Party.slots,Bool.false_eq_true,if_false,List.append_nil] at hs
        simp only [List.flatMap_cons,Party.slots,if_true,List.nil_append,assigned_slots h,hfree,
          hnext,assignSlots_missSlots plan slots c hn]
        exact hs }

end Assign

end ArchivalDedup.LedgerPasses
