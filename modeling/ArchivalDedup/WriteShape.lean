import ArchivalDedup.MappedHashes

/-!
# The footprint of a write

Which file blocks a write maps and which size it records does not depend on
hashes, counters or slots: these hold from every context, balanced or not.
-/

set_option autoImplicit false

namespace ArchivalDedup.WriteShape
open ArchivalDedup.FiniteTable ArchivalDedup.MetaIndex ArchivalDedup.WriteDedup
open ArchivalDedup.PlanShape ArchivalDedup.LedgerPasses ArchivalDedup.ThreadLedger
open ArchivalDedup.Extents ArchivalDedup.Content ArchivalDedup.MappedHashes ArchivalDedup.LoopFrames

variable {sha512 : List UInt8 → Hash} {r : WriteReq}

theorem pass1_shape (env : Env) (n : ℕ) (c : Context) {p : Pass1}
    (hn : p.plan.length+n = r.numBlocks) (h : Pass1Ok sha512 r p) :
    PlanOk sha512 r (pass1 sha512 env r n c p).2.plan ∧
      (pass1 sha512 env r n c p).1.fileToMaster = c.fileToMaster ∧
      (pass1 sha512 env r n c p).1.fileToSizes = c.fileToSizes := by
  induction n generalizing c p with
  | zero => exact ⟨⟨h.formed,h.distinct,hn⟩,rfl,rfl⟩
  | succ n ih =>
    set t := pass1Block sha512 r (env.alloc c.live) c p with ht
    have htables : t.1.fileToMaster = c.fileToMaster ∧ t.1.fileToSizes = c.fileToSizes :=
      pass1Block_tables r (env.alloc c.live) c p
    have hlen : t.2.plan.length = p.plan.length+1 := pass1Block_length (env.alloc c.live) c p
    have hok : Pass1Ok sha512 r t.2 := pass1Block_ok (env.alloc c.live) h
    obtain ⟨h₃,h₄,h₅⟩ := ih t.1 (by omega) hok
    exact ⟨h₃,h₄.trans htables.1,h₅.trans htables.2⟩

theorem stageWrite_shape (sha512 : List UInt8 → Hash) (env : Env) (r : WriteReq) (c : Context) :
    PlanOk sha512 r (stageWrite sha512 env r c).1 ∧
      (stageWrite sha512 env r c).2.1.fileToMaster = c.fileToMaster ∧
      (stageWrite sha512 env r c).2.1.fileToSizes = c.fileToSizes := by
  have hstart : Pass1Ok sha512 r Pass1.start := pass1_start
  obtain ⟨h₁,h₂,h₃⟩ := pass1_shape env r.numBlocks c (by simp [Pass1.start]) hstart
  unfold stageWrite allocateAndFlush
  dsimp only
  split_ifs
  · set p := pass1 sha512 env r r.numBlocks c Pass1.start with hp
    set s := allocateBatchStorageFirst (missCount p.2.plan) p.1 with hs
    have hframe := (assignSlots_frame p.2.plan s.1 s.2).1
    refine ⟨planOk_assign s.1 s.2 h₁,?_,?_⟩
    · exact (congrArg Index.fileToMaster hframe).trans h₂
    · exact (congrArg Index.fileToSizes hframe).trans h₃
  · exact ⟨h₁,h₂,h₃⟩

/-- A write comes to pass 3: an accepted request with every `pwrite` complete. -/
structure Completes (env : Env) (r : WriteReq) : Prop where
  nonempty : r.buf.length ≠ 0
  aligned : r.buf.length % blockSize = 0
  io : ∀ j, env.io j = .complete

theorem writeDedup_passed {env : Env} {c : Context} (hz : r.buf.length ≠ 0)
    (ha : r.buf.length % blockSize = 0) (hok : (stageWrite sha512 env r c).2.2 = none) :
    writeDedup sha512 env r c =
      ((consolidate r (stageWrite sha512 env r c).1 (stageWrite sha512 env r c).2.1).1.releaseSlots
        (consolidate r (stageWrite sha512 env r c).1 (stageWrite sha512 env r c).2.1).2,
        .ok r.buf.length) := by
  have hmul := Nat.div_mul_cancel (Nat.dvd_of_mod_eq_zero ha)
  have haccept : ¬ (r.numBlocks = 0 ∨ r.buf.length % blockSize ≠ 0) := by
    rintro (hb | hm)
    · rw [WriteReq.numBlocks] at hb
      rw [hb,Nat.zero_mul] at hmul
      exact hz hmul.symm
    · exact hm ha
  have hlen : r.numBlocks*blockSize = r.buf.length := hmul
  unfold writeDedup
  rw [if_neg hz,if_neg haccept,finishWrite,hok]
  simp only [hlen]

theorem writeDedup_positive {env : Env} {c : Context} {n : ℕ}
    (h : (writeDedup sha512 env r c).2 = .ok n) (hn : 0 < n) :
    r.buf.length ≠ 0 ∧ r.buf.length % blockSize = 0 ∧ (stageWrite sha512 env r c).2.2 = none := by
  unfold writeDedup at h
  split_ifs at h with hz hrej
  · have : 0 = n := Except.ok.inj h
    omega
  · have ha : r.buf.length % blockSize = 0 := by
      by_contra hne
      exact hrej (Or.inr hne)
    refine ⟨hz,ha,?_⟩
    unfold finishWrite at h
    cases hs : (stageWrite sha512 env r c).2.2 with
    | none => rfl
    | some err =>
      rw [hs] at h
      cases h

theorem writeDedup_completes {env : Env} (h : Completes env r) (c : Context) :
    writeDedup sha512 env r c =
      ((consolidate r (stageWrite sha512 env r c).1 (stageWrite sha512 env r c).2.1).1.releaseSlots
        (consolidate r (stageWrite sha512 env r c).1 (stageWrite sha512 env r c).2.1).2,
        .ok r.buf.length) :=
  writeDedup_passed h.nonempty h.aligned (stageWrite_complete h.io c)

theorem consolidate_keys {plan : List PlanEntry} (hok : PlanOk sha512 r plan) (c : Context)
    (k : BlockIndice) : find (consolidate r plan c).1.fileToMaster k = none ↔
      find c.fileToMaster k = none ∧
        ¬ (k.path = r.path ∧ r.startBlock ≤ k.offset ∧ k.offset < r.startBlock+r.numBlocks) := by
  have hblocks := formed_blocks hok.1
  rw [hok.2.2] at hblocks
  have hpub := publishPlan_blocks plan c []
  have htables := publishPlan_fileToMaster plan c []
  set u := publishPlan plan c [] with hu
  have hgrow : (consolidate r plan c).1.fileToMaster =
      (mapPlan r.path u.2.2 u.1 u.2.1).1.fileToMaster := (growSize_keeps ..).2.1
  have hkeys : (k.path = r.path ∧ r.startBlock ≤ k.offset ∧ k.offset < r.startBlock+r.numBlocks) ↔
      ∃ e ∈ u.2.2, k = ⟨r.path,e.logicalBlk⟩ := by
    have hmem : ∀ b, (∃ e ∈ u.2.2, e.logicalBlk = b) ↔
        r.startBlock ≤ b ∧ b < r.startBlock+r.numBlocks := by
      intro b
      rw [←List.mem_map,hpub,hblocks,List.mem_map]
      constructor
      · rintro ⟨j,hj,rfl⟩
        have := List.mem_range.mp hj
        omega
      · rintro ⟨h₁,h₂⟩
        exact ⟨b-r.startBlock,List.mem_range.mpr (by omega),by omega⟩
    constructor
    · rintro ⟨hp,hb⟩
      obtain ⟨e,he,hbe⟩ := (hmem k.offset).mpr hb
      exact ⟨e,he,by rw [hbe,←hp]⟩
    · rintro ⟨e,he,rfl⟩
      exact ⟨rfl,(hmem _).mp ⟨e,he,rfl⟩⟩
  have hnd : (u.2.2.map PlanEntry.logicalBlk).Nodup := by
    rw [hpub,hblocks]
    exact List.nodup_range.map (fun a b hab => Nat.add_left_cancel hab)
  rw [hgrow,hkeys]
  by_cases hin : ∃ e ∈ u.2.2, k = ⟨r.path,e.logicalBlk⟩
  · obtain ⟨e,he,rfl⟩ := hin
    rw [mapPlan_self r.path u.2.2 u.1 u.2.1 hnd he]
    simp only [reduceCtorEq,false_iff,not_and,not_not]
    exact fun _ => ⟨e,he,rfl⟩
  · rw [mapPlan_other r.path u.2.2 u.1 u.2.1 k (fun e he heq => hin ⟨e,he,heq⟩),htables]
    exact ⟨fun h => ⟨h,hin⟩,And.left⟩

theorem writeDedup_keys {env : Env} (h : Completes env r) (c : Context) (k : BlockIndice) :
    find (writeDedup sha512 env r c).1.fileToMaster k = none ↔ find c.fileToMaster k = none ∧
      ¬ (k.path = r.path ∧ r.startBlock ≤ k.offset ∧ k.offset < r.startBlock+r.numBlocks) := by
  obtain ⟨hok,hfile,_⟩ := stageWrite_shape sha512 env r c
  rw [writeDedup_completes h,←hfile]
  exact consolidate_keys hok _ k

theorem writeDedup_sizes {env : Env} (h : Completes env r) (c : Context) (p : Path) :
    find (writeDedup sha512 env r c).1.fileToSizes p =
      if p = r.path then some (max ((find c.fileToSizes r.path).getD 0) r.newEnd)
      else find c.fileToSizes p := by
  obtain ⟨_,_,hsizes⟩ := stageWrite_shape sha512 env r c
  rw [writeDedup_completes h,←hsizes]
  exact consolidate_find r _ _ p

end ArchivalDedup.WriteShape
