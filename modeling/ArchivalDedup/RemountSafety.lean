import ArchivalDedup.FailedWrite
import ArchivalDedup.SequentialRun

/-!
# Slots across unmount and mount

In a sequential run whose writes fit the counters the ledger balances with no
party at all. A mount takes the append counter from the length of the master
file: when that covers every slot that was ever reserved, the reloaded free list
and the reloaded objects stay below the counter, and no allocation of the new
mount hands a slot out twice.
-/

set_option autoImplicit false

namespace ArchivalDedup.RemountSafety
open ArchivalDedup.FiniteTable ArchivalDedup.MetaIndex ArchivalDedup.WriteDedup
open ArchivalDedup.Passthrough ArchivalDedup.Persistence ArchivalDedup.Ledger
open ArchivalDedup.LedgerPublication ArchivalDedup.LedgerLoops ArchivalDedup.ThreadLedger
open ArchivalDedup.Content
open ArchivalDedup.ReferenceSafety ArchivalDedup.SequentialWrite ArchivalDedup.FailedWrite
open ArchivalDedup.Remount ArchivalDedup.SequentialRun ArchivalDedup.Interleaving
open ArchivalDedup.LoopFrames

variable {sha512 : List UInt8 → Hash} {r : WriteReq} {c₀ c d : Context} {ps : List Party}

theorem inv_publish_alone {t : List PlanEntry × Context × Option Errno}
    (h : StagedAmong sha512 ps r c₀ t) : Inv ∅ (consolidate r t.1 t.2.1).1
      (⟨[],(consolidate r t.1 t.2.1).2,true⟩::ps) := by
  refine inv_consolidate h.ledger h.shape.2.1 ?_ ?_
  · intro e he hk w hw
    rw [h.planned.unindexed e he hk] at hw
    cases hw
  · intro e he hk hf
    exact absurd (h.planned.unindexed e he hk) hf

theorem inv_writeDedup (env : Env) (h : Inv ∅ c ps) (hfit : CallFits sha512 r c) :
    Inv ∅ (writeDedup sha512 env r c).1 ps := by
  unfold writeDedup
  split_ifs with h₁ h₂
  · exact h
  · exact h
  · rw [not_or,not_not] at h₂
    have hs := stageWrite_alone env h (hfit h₂.2)
    unfold finishWrite
    split
    · exact inv_rollback hs
    · exact (inv_idle true).mp (inv_release (inv_publish_alone hs))

theorem inv_removeBatch (path : Path) (startBlock endBlock : ℕ) (h : Inv ∅ c []) :
    Inv ∅ (removeBlocksDedupBatch path startBlock endBlock c) [] :=
  (inv_idle true).mp (inv_release (inv_removeBlocks (endBlock-startBlock) startBlock
    ((inv_idle true).mpr h)))

theorem inv_unlinkIndex (path : Path) (h : Inv ∅ c []) : Inv ∅ (unlinkIndex path c) [] := by
  unfold unlinkIndex
  split
  · exact h
  · exact inv_sizes _ (inv_removeBatch path 0 _ h)

theorem inv_truncateIndex (path : Path) (size : ℕ) (h : Inv ∅ c []) :
    Inv ∅ (truncateIndex path size c) [] := by
  unfold truncateIndex
  split
  · exact h
  · next newBlockCount oldBlockCount _ =>
    have h₁ := inv_removeBatch path newBlockCount oldBlockCount h
    unfold shrinkSize
    split
    · exact h₁
    · split_ifs
      · exact inv_sizes _ h₁
      · exact h₁

def OpFits (sha512 : List UInt8 → Hash) (m : Mount) : Op → Prop
  | .write _ r => CallFits sha512 r m.ctx
  | _ => True

instance (m : Mount) (op : Op) : Decidable (OpFits sha512 m op) :=
  match op with
  | .write _ r => inferInstanceAs (Decidable (CallFits sha512 r m.ctx))
  | .unlink _ _ => isTrue trivial
  | .truncate _ _ _ => isTrue trivial

theorem held_published (h : Inv ∅ c []) {a : Ptr} (ha : Held c a) : Published c a ∧ a ∈ c.live := by
  rcases ha with ⟨k,hk⟩ | ⟨k,hk⟩
  · obtain ⟨hh,hl,_⟩ := h.keyed k a hk
    refine ⟨?_,hl⟩
    rw [Published,hh]
    exact hk
  · obtain ⟨hl,hp⟩ := mapped_published h hk
    exact ⟨hp,hl⟩

theorem inv_renamed {ρ : Ptr → Ptr} (h : Inv ∅ c []) (hρ : Renamed ρ c d)
    (hn : d.nextBlockIndex = c.nextBlockIndex) : Inv ∅ d [] := by
  have hpub : ∀ a, Held c a → Published c a ∧ a ∈ c.live := fun a ha => held_published h ha
  have hocc : ∀ a, Held c a → occurrences d.fileToMaster (ρ a) = occurrences c.fileToMaster a := by
    intro a ha
    refine occurrences_map _ _ ρ hρ.fileToMaster a ?_
    intro k y hy
    exact hρ.injective y a (Or.inr ⟨k,hy⟩) ha
  have hlive : ∀ a, Held c a → ρ a ∈ d.live := fun a ha => (hρ.live _).mpr ⟨a,ha,rfl⟩
  exact
    { counted := by
        intro x hx
        obtain ⟨a,ha,rfl⟩ := (hρ.live x).mp hx
        rw [hρ.infos a ha,h.counted a (hpub a ha).2]
        simp only [refs,heldRefs_nil,hocc a ha]
      bounded := by
        intro x
        by_cases hx : x ∈ d.live
        · obtain ⟨a,ha,rfl⟩ := (hρ.live x).mp hx
          rw [hρ.infos a ha]
          exact h.bounded a
        · rw [hρ.blank x hx]
          decide
      positive := by
        intro x hx
        obtain ⟨a,ha,rfl⟩ := (hρ.live x).mp hx
        have := h.positive a (hpub a ha).2
        simpa only [refs,heldRefs_nil,hocc a ha] using this
      keyed := by
        intro k x hk
        rw [hρ.hashToMaster] at hk
        obtain ⟨a,ha,rfl⟩ := Option.map_eq_some_iff.mp hk
        have hheld : Held c a := Or.inl ⟨k,ha⟩
        rw [hρ.infos a hheld]
        exact ⟨(h.keyed k a ha).1,hlive a hheld,rfl⟩
      owned := by
        intro x hx
        obtain ⟨a,ha,rfl⟩ := (hρ.live x).mp hx
        left
        have hp : find c.hashToMaster (c.cell a).hash = some a := (hpub a ha).1
        rw [Published,hρ.infos a ha,hρ.hashToMaster,hp]
        rfl
      single := by simp
      pending := by simp
      shared := by simp
      stale := by
        intro x hx
        left
        simp only [refs,heldRefs_nil,Nat.add_zero]
        by_contra hne
        obtain ⟨k,hk⟩ := (occurrences_pos _ _).mp (Nat.pos_of_ne_zero hne)
        rw [hρ.fileToMaster] at hk
        obtain ⟨a,ha,rfl⟩ := Option.map_eq_some_iff.mp hk
        exact hx (hlive a (Or.inr ⟨k,ha⟩))
      slots := by
        have hslots : (publishedSlots d).Perm (publishedSlots c) := by
          unfold publishedSlots valuesBy
          refine ((entries_perm_map _ _ ρ hρ.hashToMaster).map _).trans (List.Perm.of_eq ?_)
          rw [List.map_map]
          apply List.map_congr_left
          rintro ⟨k,a⟩ hm
          have hk := (mem_entries_iff _ k a).mp hm
          exact congrArg MasterInfo.masterBlockIndex (hρ.infos a (Or.inl ⟨k,hk⟩))
        rw [hρ.freeBlockList,hn]
        exact (hslots.append_left _).trans h.slots }

/-- What a sequential run keeps: the ledger, the ranges, and a master file that
ends where the append counter does or before. -/
structure SeqInv (c : Context) : Prop where
  ledger : Inv ∅ c []
  ranged : Ranged c.nextBlockIndex c []
  within : c.fileSize ≤ c.nextBlockIndex*blockSize

theorem seqInv_empty : SeqInv emptyContext := ⟨inv_empty ∅,ranged_empty,Nat.le_refl 0⟩

theorem ranged_self {n : ℕ} (h : Ranged n c []) : Ranged c.nextBlockIndex c [] := by
  rw [h.counter]
  exact h

theorem finishWrite_store {n : ℕ} {t : List PlanEntry × Context × Option Errno}
    (h : Ranged n t.2.1 []) (hp : RangedPlan n t.1) :
    (finishWrite r t).1.toMasterFile = t.2.1.toMasterFile ∧ Ranged n (finishWrite r t).1 [] := by
  unfold finishWrite
  split
  · refine ⟨?_,ranged_rollbackMisses _ hp (ranged_release (ranged_rollbackHits _ h))⟩
    exact (rollbackMisses_keeps _ _).2.2.2.2.1.trans (frame_rollbackHits _ _ _).toMasterFile
  · exact ⟨consolidate_file r t.1 t.2.1,ranged_release (ranged_consolidate r _ hp h)⟩

theorem seqInv_write (env : Env) (h : SeqInv c) (hfit : CallFits sha512 r c) :
    SeqInv (writeDedup sha512 env r c).1 := by
  have hledger := inv_writeDedup env h.ledger hfit
  obtain ⟨_,hranged⟩ := ranged_write sha512 env r h.ranged
  refine ⟨hledger,ranged_self hranged,?_⟩
  unfold writeDedup
  split_ifs with h₁ h₂
  · exact h.within
  · exact h.within
  · rw [not_or,not_not] at h₂
    have hs := stageWrite_alone env h.ledger (hfit h₂.2)
    obtain ⟨n,hr,hp⟩ := ranged_stage sha512 env r h.ranged
    obtain ⟨hf,hr'⟩ := finishWrite_store (r := r) hr hp
    have hle : c.nextBlockIndex*blockSize ≤
        (stageWrite sha512 env r c).2.1.nextBlockIndex*blockSize :=
      Nat.mul_le_mul_right _ hs.next
    have hwithin := hs.within
    have hbefore := h.within
    rw [congrArg MasterFile.fileSize hf,hr'.counter,←hr.counter]
    omega

theorem removeBatch_file (path : Path) (startBlock endBlock : ℕ) (c : Context) :
    (removeBlocksDedupBatch path startBlock endBlock c).toMasterFile = c.toMasterFile :=
  (frame_removeBlocks path (endBlock-startBlock) startBlock c []).toMasterFile

theorem unlinkIndex_file (path : Path) (c : Context) :
    (unlinkIndex path c).toMasterFile = c.toMasterFile := by
  unfold unlinkIndex
  split
  · rfl
  · exact removeBatch_file path 0 _ c

theorem truncateIndex_file (path : Path) (size : ℕ) (c : Context) :
    (truncateIndex path size c).toMasterFile = c.toMasterFile := by
  unfold truncateIndex
  split
  · rfl
  · next newBlockCount oldBlockCount _ =>
    unfold shrinkSize
    split
    · exact removeBatch_file path newBlockCount oldBlockCount c
    · split_ifs <;> exact removeBatch_file path newBlockCount oldBlockCount c

theorem seqInv_unlink (path : Path) (h : SeqInv c) : SeqInv (unlinkIndex path c) := by
  have hr := ranged_unlink path h.ranged
  refine ⟨inv_unlinkIndex path h.ledger,ranged_self hr,?_⟩
  rw [congrArg MasterFile.fileSize (unlinkIndex_file path c),hr.counter]
  exact h.within

theorem seqInv_truncate (path : Path) (size : ℕ) (h : SeqInv c) :
    SeqInv (truncateIndex path size c) := by
  have hr := ranged_truncate path size h.ranged
  refine ⟨inv_truncateIndex path size h.ledger,ranged_self hr,?_⟩
  rw [congrArg MasterFile.fileSize (truncateIndex_file path size c),hr.counter]
  exact h.within

theorem seqInv_perform {m m' : Mount} {op : Op} (h : SeqInv m.ctx) (hf : OpFits sha512 m op)
    (hs : perform sha512 m op = some m') : SeqInv m'.ctx := by
  obtain ⟨env,r,rfl,hm⟩ | ⟨sys,path,rfl,hm⟩ | ⟨sys,path,size,rfl,hm | hm⟩ := perform_cases hs
  · rw [hm]
    exact seqInv_write env h hf
  · rw [hm]
    exact seqInv_unlink path h
  · rw [hm]
    exact h
  · rw [hm]
    exact seqInv_truncate path _ h

theorem seqInv_run {ops : List Op} {m m' : Mount} (h : SeqInv m.ctx)
    (hr : exec (perform sha512) m ops = some m')
    (hf : Meets (perform sha512) (OpFits sha512) m ops) : SeqInv m'.ctx :=
  exec_invariant (perform sha512) (OpFits sha512) (fun m => SeqInv m.ctx)
    (fun _ _ _ hi hf hs => seqInv_perform hi hf hs) m m' ops h hf hr

/-- The master file covers every slot that was reserved. -/
def Reaching (c : Context) : Prop := c.nextBlockIndex*blockSize ≤ c.fileSize

instance (c : Context) : Decidable (Reaching c) :=
  inferInstanceAs (Decidable (c.nextBlockIndex*blockSize ≤ c.fileSize))

theorem ledger_next {u : Unmounting} (h : Inv ∅ c []) (hs : SmallTables u c) :
    c.nextBlockIndex < 2^64 := by
  have hlen := h.slots.length_eq
  have hfree := hs.freeBlockList
  have hpub : (publishedSlots c).length < 2^31 := by
    have := hs.hashToMaster
    simpa [publishedSlots,valuesBy] using this
  simp only [List.length_append,List.length_range,List.flatMap_nil,List.length_nil] at hlen
  omega

theorem remount_next (u : Unmounting) (i : Mounting) (h : SeqInv c) (hf : Reaching c) :
    (remount u i c).nextBlockIndex = c.nextBlockIndex := by
  change c.fileSize/blockSize = c.nextBlockIndex
  have heq : c.fileSize = c.nextBlockIndex*blockSize := Nat.le_antisymm h.within hf
  rw [heq,Nat.mul_div_cancel _ blockSize_pos]

theorem ranged_renamed {ρ : Ptr → Ptr} {n : ℕ} (h : Ranged n c []) (hρ : Renamed ρ c d)
    (hn : d.nextBlockIndex = c.nextBlockIndex) : Ranged n d [] where
  counter := hn.trans h.counter
  indices := by
    intro x
    by_cases hx : x ∈ d.live
    · obtain ⟨a,ha,rfl⟩ := (hρ.live x).mp hx
      rw [hρ.infos a ha]
      exact h.indices a
    · rw [hρ.blank x hx]
      exact Nat.zero_le n
  counts := by
    intro x
    by_cases hx : x ∈ d.live
    · obtain ⟨a,ha,rfl⟩ := (hρ.live x).mp hx
      rw [hρ.infos a ha]
      exact h.counts a
    · rw [hρ.blank x hx]
      decide
  free := by
    rw [hρ.freeBlockList]
    exact h.free
  offsets := by
    intro k x hk
    rw [hρ.fileToMaster] at hk
    obtain ⟨a,ha,_⟩ := Option.map_eq_some_iff.mp hk
    exact h.offsets k a ha
  sizes := by
    intro p size hp
    rw [hρ.fileToSizes] at hp
    exact h.sizes p size hp

theorem seqInv_remount (u : Unmounting) (i : Mounting) (h : SeqInv c) (hf : Reaching c)
    (hn : c.nextBlockIndex < 2^64) (hs : SmallTables u c) : SeqInv (remount u i c) := by
  obtain ⟨ρ,hρ⟩ := remount_renamed u i (ranged_inRange h.ranged hn) hs
  have hnext := remount_next u i h hf
  refine ⟨inv_renamed h.ledger hρ hnext,ranged_self (ranged_renamed h.ranged hρ hnext),?_⟩
  rw [hnext]
  exact h.within

def allocations : List ℕ → Context → List ℕ
  | [], _ => []
  | n::ns, c =>
    let t := allocateBatchStorageFirst n c
    t.1++allocations ns t.2

/-- No allocation from here on returns a slot twice or a slot in use. -/
def AllocatesApart (c : Context) : Prop :=
  ∀ ns, (allocations ns c).Nodup ∧
    ∀ q ∈ allocations ns c, ∀ x ∈ c.live, (c.cell x).masterBlockIndex ≠ q

theorem allocations_source (ns : List ℕ) (c : Context) :
    ∀ q ∈ allocations ns c, q ∈ c.freeBlockList ∨ c.nextBlockIndex ≤ q := by
  induction ns generalizing c with
  | nil => simp [allocations]
  | cons n ns ih =>
    intro q hq
    rcases List.mem_append.mp hq with hq | hq
    · rcases List.mem_append.mp hq with hq | hq
      · exact Or.inl (List.mem_of_mem_take hq)
      · obtain ⟨j,_,rfl⟩ := List.mem_map.mp hq
        exact Or.inr (Nat.le_add_right ..)
    · rcases ih _ q hq with hq | hq
      · exact Or.inl (List.mem_of_mem_drop hq)
      · exact Or.inr ((Nat.le_add_right ..).trans hq)

theorem allocations_nodup (ns : List ℕ) (c : Context) (hd : c.freeBlockList.Nodup)
    (hf : ∀ q ∈ c.freeBlockList, q < c.nextBlockIndex) : (allocations ns c).Nodup := by
  induction ns generalizing c with
  | nil => exact List.nodup_nil
  | cons n ns ih =>
    set taken := c.freeBlockList.take n with htaken
    set k := n-taken.length with hk
    have hsplit : (taken++c.freeBlockList.drop n).Nodup := by
      rw [htaken,List.take_append_drop]
      exact hd
    have happ : ((List.range k).map (c.nextBlockIndex+·)).Nodup :=
      List.nodup_range.map (fun a b hab => Nat.add_left_cancel hab)
    have hnew : ∀ q ∈ (List.range k).map (c.nextBlockIndex+·),
        c.nextBlockIndex ≤ q ∧ q < c.nextBlockIndex+k := by
      intro q hq
      obtain ⟨j,hj,rfl⟩ := List.mem_map.mp hq
      have := List.mem_range.mp hj
      omega
    have hfirst : (allocateBatchStorageFirst n c).1.Nodup := by
      refine List.Nodup.append hsplit.of_append_left happ ?_
      intro q hq hq'
      have := hf q (List.mem_of_mem_take hq)
      have := (hnew q hq').1
      omega
    refine List.Nodup.append hfirst (ih _ hsplit.of_append_right ?_) ?_
    · intro q hq
      exact Nat.lt_of_lt_of_le (hf q (List.mem_of_mem_drop hq)) (Nat.le_add_right ..)
    · intro q hq hq'
      rcases allocations_source ns _ q hq' with hr | hr
      · rcases List.mem_append.mp hq with hq | hq
        · exact List.disjoint_of_nodup_append hsplit hq hr
        · have := hf q (List.mem_of_mem_drop hr)
          have := (hnew q hq).1
          omega
      · change c.nextBlockIndex+k ≤ q at hr
        rcases List.mem_append.mp hq with hq | hq
        · have := hf q (List.mem_of_mem_take hq)
          omega
        · have := (hnew q hq).2
          omega

theorem allocatesApart_of (hd : c.freeBlockList.Nodup)
    (hf : ∀ q ∈ c.freeBlockList, q < c.nextBlockIndex)
    (hl : ∀ x ∈ c.live, (c.cell x).masterBlockIndex < c.nextBlockIndex ∧
      (c.cell x).masterBlockIndex ∉ c.freeBlockList) : AllocatesApart c := by
  intro ns
  refine ⟨allocations_nodup ns c hd hf,?_⟩
  rintro q hq x hx rfl
  rcases allocations_source ns c _ hq with h | h
  · exact (hl x hx).2 h
  · have := (hl x hx).1
    omega

theorem idle_slots (h : Inv ∅ c []) : c.freeBlockList.Nodup ∧
    (∀ q ∈ c.freeBlockList, q < c.nextBlockIndex) ∧
    ∀ a, Published c a → (c.cell a).masterBlockIndex < c.nextBlockIndex ∧
      (c.cell a).masterBlockIndex ∉ c.freeBlockList := by
  refine ⟨free_nodup h,?_,?_⟩
  · intro q hq
    exact List.mem_range.mp (h.slots.mem_iff.mp (by simp [hq]))
  · intro a ha
    refine ⟨?_,(published_slot_unclaimed h ha).1⟩
    have hm := published_slot_mem ha
    exact List.mem_range.mp (h.slots.mem_iff.mp (List.mem_append_right _ hm))

theorem inv_allocatesApart (h : Inv ∅ c []) : AllocatesApart c := by
  obtain ⟨hd,hf,hp⟩ := idle_slots h
  refine allocatesApart_of hd hf ?_
  intro x hx
  rcases h.owned x hx with hpub | ⟨hm,_⟩
  · exact hp x hpub
  · simp at hm

/-- When the master file covers every reserved slot, a mount knows all of them:
nothing reloaded reaches the counter and no allocation repeats a slot. -/
theorem reaching_run_remount_apart (ops : List Op) (m : Mount) (hr : Leads sha512 ops m)
    (hc : Meets (perform sha512) (OpFits sha512) emptyMount ops)
    (hn : m.ctx.nextBlockIndex < 2^64) (hf : Reaching m.ctx) (u : Unmounting) (i : Mounting) :
    (remount u i m.ctx).nextBlockIndex = m.ctx.fileSize/blockSize ∧
    (∀ q ∈ (remount u i m.ctx).freeBlockList, q < (remount u i m.ctx).nextBlockIndex) ∧
    (∀ x ∈ (remount u i m.ctx).live,
      ((remount u i m.ctx).cell x).masterBlockIndex < (remount u i m.ctx).nextBlockIndex) ∧
    AllocatesApart (remount u i m.ctx) ∧
    (SmallTables u m.ctx → ∀ ops' m',
      exec (perform sha512) ⟨remount u i m.ctx,m.backing⟩ ops' = some m' →
      Meets (perform sha512) (OpFits sha512) ⟨remount u i m.ctx,m.backing⟩ ops' →
      AllocatesApart m'.ctx) := by
  have hi : SeqInv m.ctx := seqInv_run seqInv_empty hr hc
  have hrange := ranged_inRange hi.ranged hn
  have hnext := remount_next u i hi hf
  obtain ⟨hd,hfree,hpub⟩ := idle_slots hi.ledger
  have hsub := remount_free u i hrange
  have h₁ : ∀ q ∈ (remount u i m.ctx).freeBlockList, q ∈ m.ctx.freeBlockList := by
    intro q hq
    rw [hsub] at hq
    exact List.mem_of_mem_take hq
  have h₂ : ∀ x ∈ (remount u i m.ctx).live,
      ((remount u i m.ctx).cell x).masterBlockIndex < m.ctx.nextBlockIndex ∧
      ((remount u i m.ctx).cell x).masterBlockIndex ∉ m.ctx.freeBlockList := by
    intro x hx
    obtain ⟨a,ha,hcell⟩ := remount_live u i hrange hx
    rw [hcell]
    exact hpub a (held_published hi.ledger ha).1
  refine ⟨rfl,?_,?_,?_,?_⟩
  · intro q hq
    rw [hnext]
    exact hfree q (h₁ q hq)
  · intro x hx
    rw [hnext]
    exact (h₂ x hx).1
  · refine allocatesApart_of ?_ ?_ ?_
    · rw [hsub]
      exact hd.sublist (List.take_sublist _ _)
    · intro q hq
      rw [hnext]
      exact hfree q (h₁ q hq)
    · intro x hx
      rw [hnext]
      exact ⟨(h₂ x hx).1,fun hq => (h₂ x hx).2 (h₁ _ hq)⟩
  · intro hs ops' m' hr' hc'
    exact inv_allocatesApart (seqInv_run (seqInv_remount u i hi hf hn hs) hr' hc').ledger

def refilledAppend : List Op :=
  [.write completeEnv (fillReq fileA 65 0 2 two_blocks_fit blocks01_end),
    .write (shortEnv [1,2,3]) (fillReq fileB 66 0 1 one_block_fits block0_ends),
    .write completeEnv (fillReq fileB 67 0 1 one_block_fits block0_ends),.unlink none fileA]

theorem reaching_run_remount_refilled : ∃ m, Leads sampleSha512 refilledAppend m ∧
    Meets (perform sampleSha512) (OpFits sampleSha512) emptyMount refilledAppend ∧
    m.ctx.nextBlockIndex < 2^64 ∧ Reaching m.ctx ∧ m.ctx.freeBlockList = [0] ∧
    AllocatesApart (remount sampleUnmounting sampleMounting m.ctx) := by
  have hc : Meets (perform sampleSha512) (OpFits sampleSha512) emptyMount refilledAppend := by
    decide +kernel
  obtain ⟨m,hr,hp⟩ := exec_observe (perform sampleSha512)
    (fun m => m.ctx.nextBlockIndex < 2^64 ∧ Reaching m.ctx ∧ m.ctx.freeBlockList = [0])
    emptyMount refilledAppend (by decide +kernel)
  obtain ⟨hn,hf,hfree⟩ := of_decide_eq_true hp
  exact ⟨m,hr,hc,hn,hf,hfree,(reaching_run_remount_apart refilledAppend m hr hc hn hf
    sampleUnmounting sampleMounting).2.2.2.1⟩

/-- The first write ever, with a `pwrite` that writes nothing. -/
def failedAppend : List Op :=
  [.write (shortEnv []) (fillReq fileA 65 0 1 one_block_fits block0_ends)]

theorem failed_append_allocates_twice : ∃ m, Leads sampleSha512 failedAppend m ∧
    ¬ (∀ q ∈ (remount sampleUnmounting sampleMounting m.ctx).freeBlockList,
      q < (remount sampleUnmounting sampleMounting m.ctx).nextBlockIndex) ∧
    (allocateBatchStorageFirst 2 (remount sampleUnmounting sampleMounting m.ctx)).1 = [0,0] := by
  obtain ⟨m,hr,hp⟩ := exec_observe (perform sampleSha512)
    (fun m => m.ctx.nextBlockIndex = 1 ∧ m.ctx.freeBlockList = [0] ∧ m.ctx.fileSize = 0)
    emptyMount failedAppend (by decide +kernel)
  obtain ⟨hn,hfree,hsize⟩ := of_decide_eq_true hp
  have hrange := ranged_inRange (run_ranged hr) (by rw [hn]; decide)
  have hf : (remount sampleUnmounting sampleMounting m.ctx).freeBlockList = [0] := by
    rw [remount_free _ _ hrange,hfree]
    rfl
  have hnext : (remount sampleUnmounting sampleMounting m.ctx).nextBlockIndex = 0 := by
    change m.ctx.fileSize/blockSize = 0
    rw [hsize]
    rfl
  refine ⟨m,hr,?_,?_⟩
  · intro h
    have := h 0 (by rw [hf]; exact List.mem_singleton.mpr rfl)
    omega
  · simp [allocateBatchStorageFirst,drainFreeList,appendSlots,hf,hnext]

end ArchivalDedup.RemountSafety
