import ArchivalDedup.Passthrough

/-!
# The loops of the critical sections

The loops of the removals, of pass 3 and of the rollback apply a few operations on
the index, entry by entry, and collect the slots to release. What every operation
of a loop keeps, the loop keeps. All of them keep the hashes and the slots of the
objects, the sizes, the free list, the append counter and the master file.
-/

set_option autoImplicit false

namespace ArchivalDedup.LoopFrames
open ArchivalDedup.FiniteTable ArchivalDedup.MetaIndex ArchivalDedup.WriteDedup
open ArchivalDedup.Passthrough

section Rules

variable {I : Context → List ℕ → Prop} {path : Path} {plan : List PlanEntry} {c : Context}
  {slots : List ℕ}

theorem removeBlocks_rule
    (hunmap : ∀ c slots i, I c slots → I (c.removeFileBlock path i) slots)
    (hdrop : ∀ c slots a, I c slots → I (c.dropReference slots a).1 (c.dropReference slots a).2)
    (n i : ℕ) (h : I c slots) :
    I (removeBlocks path n i c slots).1 (removeBlocks path n i c slots).2 := by
  induction n generalizing i c slots with
  | zero => exact h
  | succ n ih =>
    refine ih (i+1) ?_
    unfold removeBlock
    split
    · exact h
    · exact hdrop _ slots _ (hunmap c slots i h)

theorem rollbackHits_rule
    (hdrop : ∀ c slots a, I c slots → I (c.dropReference slots a).1 (c.dropReference slots a).2)
    (h : I c slots) : I (rollbackHits plan c slots).1 (rollbackHits plan c slots).2 := by
  induction plan generalizing c slots with
  | nil => exact h
  | cons e es ih =>
    cases hk : e.kind with
    | hit =>
      simp only [rollbackHits,hk]
      exact ih (hdrop c slots e.info h)
    | miss =>
      simp only [rollbackHits,hk]
      exact ih h

theorem mapPlan_rule
    (hdrop : ∀ c slots a, I c slots → I (c.dropReference slots a).1 (c.dropReference slots a).2)
    (hmap : ∀ c slots, ∀ e ∈ plan, I c slots →
      I (c.insertFileBlock path e.logicalBlk e.info) slots)
    (h : I c slots) : I (mapPlan path plan c slots).1 (mapPlan path plan c slots).2 := by
  induction plan generalizing c slots with
  | nil => exact h
  | cons e es ih =>
    refine ih (fun c slots m hm => hmap c slots m (List.mem_cons_of_mem _ hm)) ?_
    unfold mapEntry
    split
    · exact hmap _ _ e (List.mem_cons_self ..) (hdrop c slots _ h)
    · exact hmap c slots e (List.mem_cons_self ..) h

theorem publishPlan_rule
    (hlose : ∀ c slots w, ∀ e ∈ plan, I c slots →
      I ((c.free e.info).fetchAdd w) (e.masterBlk::slots))
    (hwin : ∀ c slots, ∀ e ∈ plan, I c slots →
      I (c.insertHash (c.cell e.info).hash e.info) slots)
    (h : I c slots) : I (publishPlan plan c slots).1 (publishPlan plan c slots).2.1 := by
  induction plan generalizing c slots with
  | nil => exact h
  | cons e es ih =>
    refine ih (fun c slots w m hm => hlose c slots w m (List.mem_cons_of_mem _ hm))
      (fun c slots m hm => hwin c slots m (List.mem_cons_of_mem _ hm)) ?_
    unfold publishEntry
    split
    · exact h
    · split
      · exact hlose c slots _ e (List.mem_cons_self ..) h
      · exact hwin c slots e (List.mem_cons_self ..) h

theorem rollbackMisses_rule {I : Context → Prop}
    (hfree : ∀ c, ∀ e ∈ plan, I c → I ((c.releaseSlots [e.masterBlk]).free e.info))
    (h : I c) : I (rollbackMisses plan c) := by
  induction plan generalizing c with
  | nil => exact h
  | cons e es ih =>
    have hrest : ∀ c, ∀ m ∈ es, I c → I ((c.releaseSlots [m.masterBlk]).free m.info) :=
      fun c m hm => hfree c m (List.mem_cons_of_mem _ hm)
    cases hk : e.kind with
    | hit =>
      simp only [rollbackMisses,hk]
      exact ih hrest h
    | miss =>
      simp only [rollbackMisses,hk]
      exact ih hrest (hfree c e (List.mem_cons_self ..) h)

end Rules

/-- What all the loops keep. -/
structure Frame (c d : Context) : Prop where
  hash : ∀ a, (d.cell a).hash = (c.cell a).hash
  slot : ∀ a, (d.cell a).masterBlockIndex = (c.cell a).masterBlockIndex
  fileToSizes : d.fileToSizes = c.fileToSizes
  freeBlockList : d.freeBlockList = c.freeBlockList
  nextBlockIndex : d.nextBlockIndex = c.nextBlockIndex
  toMasterFile : d.toMasterFile = c.toMasterFile

theorem frame_refl (c : Context) : Frame c c := ⟨fun _ => rfl,fun _ => rfl,rfl,rfl,rfl,rfl⟩

theorem frame_trans {b c d : Context} (h₁ : Frame b c) (h₂ : Frame c d) : Frame b d where
  hash a := (h₂.hash a).trans (h₁.hash a)
  slot a := (h₂.slot a).trans (h₁.slot a)
  fileToSizes := h₂.fileToSizes.trans h₁.fileToSizes
  freeBlockList := h₂.freeBlockList.trans h₁.freeBlockList
  nextBlockIndex := h₂.nextBlockIndex.trans h₁.nextBlockIndex
  toMasterFile := h₂.toMasterFile.trans h₁.toMasterFile

theorem frame_setRefcount (c : Context) (a : Ptr) (n : ℕ) : Frame c (c.setRefcount a n) :=
  ⟨setRefcount_hash c a n,setRefcount_masterBlockIndex c a n,rfl,rfl,rfl,rfl⟩

theorem frame_dropReference (c : Context) (slots : List ℕ) (a : Ptr) :
    Frame c (c.dropReference slots a).1 := by
  have hset := frame_setRefcount c a (((c.cell a).refcount+(refcountMod-1)) % refcountMod)
  unfold Context.dropReference
  split_ifs
  · exact ⟨hset.hash,hset.slot,rfl,rfl,rfl,rfl⟩
  · exact hset

theorem frame_removeBlocks (path : Path) (n i : ℕ) (c : Context) (slots : List ℕ) :
    Frame c (removeBlocks path n i c slots).1 := by
  refine removeBlocks_rule (I := fun d _ => Frame c d) ?_ ?_ n i (frame_refl c)
  · exact fun _ _ _ h => { h with }
  · exact fun d s a h => frame_trans h (frame_dropReference d s a)

theorem frame_rollbackHits (plan : List PlanEntry) (c : Context) (slots : List ℕ) :
    Frame c (rollbackHits plan c slots).1 := by
  refine rollbackHits_rule (I := fun d _ => Frame c d) ?_ (frame_refl c)
  exact fun d s a h => frame_trans h (frame_dropReference d s a)

theorem frame_mapPlan (path : Path) (plan : List PlanEntry) (c : Context) (slots : List ℕ) :
    Frame c (mapPlan path plan c slots).1 := by
  refine mapPlan_rule (I := fun d _ => Frame c d) ?_ ?_ (frame_refl c)
  · exact fun d s a h => frame_trans h (frame_dropReference d s a)
  · exact fun _ _ _ _ h => { h with }

theorem frame_publishPlan (plan : List PlanEntry) (c : Context) (slots : List ℕ) :
    Frame c (publishPlan plan c slots).1 := by
  refine publishPlan_rule (I := fun d _ => Frame c d) ?_ ?_ (frame_refl c)
  · intro d _ w e _ h
    have hfree : Frame c (d.free e.info) := { h with }
    exact frame_trans hfree (frame_setRefcount (d.free e.info) w _)
  · exact fun _ _ _ _ h => { h with }

theorem frame_publishEntry (c : Context) (slots : List ℕ) (e : PlanEntry) :
    Frame c (publishEntry c slots e).1 := frame_publishPlan [e] c slots

theorem frame_pass3 (path : Path) (plan : List PlanEntry) (c : Context) :
    Frame c (mapPlan path (publishPlan plan c []).2.2 (publishPlan plan c []).1
      (publishPlan plan c []).2.1).1 :=
  frame_trans (frame_publishPlan plan c []) (frame_mapPlan path _ _ _)

theorem publishPlan_fileToMaster (plan : List PlanEntry) (c : Context) (slots : List ℕ) :
    (publishPlan plan c slots).1.fileToMaster = c.fileToMaster :=
  publishPlan_rule (I := fun d _ => d.fileToMaster = c.fileToMaster)
    (fun _ _ _ _ _ h => h) (fun _ _ _ _ h => h) rfl

theorem rollbackHits_fileToMaster (plan : List PlanEntry) (c : Context) (slots : List ℕ) :
    (rollbackHits plan c slots).1.fileToMaster = c.fileToMaster := by
  refine rollbackHits_rule (I := fun d _ => d.fileToMaster = c.fileToMaster) ?_ rfl
  intro d s a h
  unfold Context.dropReference
  split_ifs <;> exact h

end ArchivalDedup.LoopFrames
