import ArchivalDedup.BatchedRead
import ArchivalDedup.CoalescedFlush
import ArchivalDedup.HandlerEffects

/-!
# A short read and the end of the file

A read stops at the first block that is not mapped. Sequential runs keep mapped
blocks below the recorded size, sizes on block boundaries and every slot inside
the master file, so a read falls short of the size exactly at a hole. Nothing
here rests on the counters: they may wrap.
-/

set_option autoImplicit false

namespace ArchivalDedup.ShortReads
open ArchivalDedup.FiniteTable ArchivalDedup.ByteMap ArchivalDedup.ConsecutiveRun
open ArchivalDedup.MetaIndex ArchivalDedup.WriteDedup ArchivalDedup.ReadDedup
open ArchivalDedup.Passthrough ArchivalDedup.PlanShape ArchivalDedup.Ledger
open ArchivalDedup.LedgerMoves ArchivalDedup.LedgerPasses ArchivalDedup.LedgerLoops
open ArchivalDedup.ThreadLedger ArchivalDedup.FlushRuns ArchivalDedup.ReadBlocks
open ArchivalDedup.ReferenceSafety ArchivalDedup.Content ArchivalDedup.Extents
open ArchivalDedup.SequentialWrite ArchivalDedup.SequentialRun ArchivalDedup.RemountSafety
open ArchivalDedup.MappedHashes ArchivalDedup.BlockRefinement ArchivalDedup.Simulation
open ArchivalDedup.BatchedRead ArchivalDedup.CoalescedFlush ArchivalDedup.WriteShape
open ArchivalDedup.HandlerEffects ArchivalDedup.LoopFrames

section Slots

/-- Every slot on record is below the append counter, or 0 while nothing has
been appended. -/
structure Placed (n : ℕ) (c : Context) (slots : List ℕ) : Prop where
  counter : c.nextBlockIndex = n
  indices : ∀ a, (c.cell a).masterBlockIndex < max 1 n
  free : ∀ q ∈ slots++c.freeBlockList, q < max 1 n

def PlacedPlan (n : ℕ) (plan : List PlanEntry) : Prop := ∀ e ∈ plan, e.masterBlk < max 1 n

variable {sha512 : List UInt8 → Hash} {r : WriteReq} {n : ℕ} {c : Context} {slots : List ℕ}

theorem placed_empty : Placed 0 emptyContext [] where
  counter := rfl
  indices := fun _ => Nat.one_pos
  free := by simp [emptyContext]

theorem placed_setRefcount (a : Ptr) (k : ℕ) (h : Placed n c slots) :
    Placed n (c.setRefcount a k) slots :=
  { h with
    indices := fun b => by
      rw [setRefcount_masterBlockIndex]
      exact h.indices b }

theorem placed_malloc (a : Ptr) (k : Hash) (h : Placed n c slots) :
    Placed n (c.malloc a ⟨k,0,1⟩) slots :=
  { h with
    indices := fun b => by
      by_cases hb : b = a
      · simp [Context.malloc,hb]
      · simp only [Context.malloc,Function.update_of_ne hb]
        exact h.indices b }

theorem placed_drop (a : Ptr) (h : Placed n c slots) :
    Placed n (c.dropReference slots a).1 (c.dropReference slots a).2 := by
  have hs := placed_setRefcount a (((c.cell a).refcount+(refcountMod-1)) % refcountMod) h
  unfold Context.dropReference
  split_ifs
  · exact
      { hs with
        free := by
          intro q hq
          rcases List.mem_cons.mp hq with rfl | hq
          · exact h.indices a
          · exact h.free q hq }
  · exact hs

theorem placed_mapPlan (path : Path) (plan : List PlanEntry) (h : Placed n c slots) :
    Placed n (mapPlan path plan c slots).1 (mapPlan path plan c slots).2 :=
  mapPlan_rule (fun _ _ a h => placed_drop a h) (fun _ _ _ _ h => { h with }) h

theorem placed_publishPlan (plan : List PlanEntry) (hp : PlacedPlan n plan)
    (h : Placed n c slots) :
    Placed n (publishPlan plan c slots).1 (publishPlan plan c slots).2.1 := by
  refine publishPlan_rule ?_ (fun _ _ _ _ h => { h with }) h
  intro d s w e he h
  refine placed_setRefcount w _ { h with free := ?_ }
  intro q hq
  rcases List.mem_cons.mp hq with rfl | hq
  · exact hp e he
  · exact h.free q hq

theorem placed_consolidate (r : WriteReq) (plan : List PlanEntry) (hp : PlacedPlan n plan)
    (h : Placed n c []) :
    Placed n ((consolidate r plan c).1.releaseSlots (consolidate r plan c).2) [] := by
  have h₁ := placed_mapPlan r.path (publishPlan plan c []).2.2 (placed_publishPlan plan hp h)
  obtain ⟨_,_,hheap,_,hfree,hnext⟩ := growSize_keeps
    (mapPlan r.path (publishPlan plan c []).2.2 (publishPlan plan c []).1
      (publishPlan plan c []).2.1).1 r.path r.newEnd
  exact
    { counter := hnext.trans h₁.counter
      indices := fun a =>
        (congrArg (fun x : Heap => (x.cell a).masterBlockIndex) hheap).trans_lt (h₁.indices a)
      free := fun q hq => by
        refine h₁.free q ?_
        rw [←hfree]
        exact hq }

theorem placed_removeBlocks (path : Path) (k i : ℕ) (h : Placed n c slots) :
    Placed n (removeBlocks path k i c slots).1 (removeBlocks path k i c slots).2 :=
  removeBlocks_rule (fun _ _ _ h => { h with }) (fun _ _ a h => placed_drop a h) k i h

theorem placed_removeBatch (path : Path) (startBlock endBlock : ℕ) (h : Placed n c []) :
    Placed n (removeBlocksDedupBatch path startBlock endBlock c) [] :=
  { placed_removeBlocks path (endBlock-startBlock) startBlock h with
    free := (placed_removeBlocks path (endBlock-startBlock) startBlock h).free }

theorem placed_pass1 (env : Env) (k : ℕ) {p : Pass1} (hp : ∀ e ∈ p.plan, e.masterBlk = 0)
    (h : Placed n c []) : Placed n (pass1 sha512 env r k c p).1 [] ∧
      (∀ e ∈ (pass1 sha512 env r k c p).2.plan, e.masterBlk = 0) ∧
      (pass1 sha512 env r k c p).1.toMasterFile = c.toMasterFile := by
  induction k generalizing c p with
  | zero => exact ⟨h,hp,rfl⟩
  | succ k ih =>
    have hnew : ∀ (kind : PlanKind) (hash : Hash) (a : Ptr),
        ∀ e ∈ p.plan++[newEntry kind r p.plan.length hash a], e.masterBlk = 0 := by
      intro kind hash a e he
      rcases List.mem_append.mp he with he | he
      · exact hp e he
      · rw [List.mem_singleton.mp he]
        rfl
    have hone : Placed n (pass1Block sha512 r (env.alloc c.live) c p).1 [] ∧
        ∀ e ∈ (pass1Block sha512 r (env.alloc c.live) c p).2.plan, e.masterBlk = 0 := by
      unfold pass1Block
      dsimp only
      split
      · exact ⟨placed_setRefcount _ _ h,hnew _ _ _⟩
      · exact ⟨placed_malloc _ _ h,hnew _ _ _⟩
    obtain ⟨h₁,h₂,h₃⟩ := ih hone.2 hone.1
    exact ⟨h₁,h₂,h₃.trans (pass1Block_store sha512 r (env.alloc c.live) c p).1⟩

theorem placed_allocate (k : ℕ) (h : Placed n c []) :
    let t := allocateBatchStorageFirst k c
    n ≤ t.2.nextBlockIndex ∧ Placed t.2.nextBlockIndex t.2 [] ∧
      (∀ q ∈ t.1, q < max 1 t.2.nextBlockIndex) ∧
      ∀ q, n ≤ q → q < t.2.nextBlockIndex → q ∈ t.1 := by
  set m := c.nextBlockIndex+(k-(c.freeBlockList.take k).length) with hm
  have hle : n ≤ m := by
    rw [←h.counter]
    exact Nat.le_add_right ..
  have hmax : max 1 n ≤ max 1 m := max_le_max_left 1 hle
  refine ⟨hle,⟨rfl,?_,?_⟩,?_,?_⟩
  · exact fun a => (h.indices a).trans_le hmax
  · exact fun q hq => (h.free q (List.mem_of_mem_drop hq)).trans_le hmax
  · intro q hq
    rcases List.mem_append.mp hq with hq | hq
    · exact (h.free q (List.mem_of_mem_take hq)).trans_le hmax
    · obtain ⟨j,hj,rfl⟩ := List.mem_map.mp hq
      have hlt : j < k-(c.freeBlockList.take k).length := List.mem_range.mp hj
      change c.nextBlockIndex+j < max 1 m
      omega
  · intro q h₁ h₂
    have h₂' : q < c.nextBlockIndex+(k-(c.freeBlockList.take k).length) := h₂
    have hn := h.counter
    refine List.mem_append_right _ (List.mem_map.mpr ⟨q-c.nextBlockIndex,?_,?_⟩)
    · change q-c.nextBlockIndex ∈ List.range (k-(c.freeBlockList.take k).length)
      rw [List.mem_range]
      omega
    · change c.nextBlockIndex+(q-c.nextBlockIndex) = q
      omega

theorem placed_assign (plan : List PlanEntry) (hs : ∀ q ∈ slots, q < max 1 n)
    (hp : PlacedPlan n plan) (h : Placed n c []) : Placed n (assignSlots plan slots c).2 [] ∧
      PlacedPlan n (assignSlots plan slots c).1 := by
  induction plan generalizing slots c with
  | nil => exact ⟨h,hp⟩
  | cons e es ih =>
    have hp' : PlacedPlan n es := fun m hm => hp m (List.mem_cons_of_mem _ hm)
    cases hk : e.kind with
    | hit =>
      rw [assignSlots_hit es slots c hk]
      obtain ⟨h₁,h₂⟩ := ih hs hp' h
      exact ⟨h₁,List.forall_mem_cons.mpr ⟨hp e (List.mem_cons_self ..),h₂⟩⟩
    | miss =>
      cases slots with
      | nil =>
        rw [assignSlots_none]
        exact ⟨h,hp⟩
      | cons q qs =>
        rw [assignSlots_miss es q qs c hk]
        have hq : q < max 1 n := hs q (List.mem_cons_self ..)
        have hset : Placed n (c.setMasterBlockIndex e.info q) [] :=
          { h with
            indices := fun b => by
              by_cases hb : b = e.info
              · simpa only [Context.setMasterBlockIndex,hb,Function.update_self] using hq
              · simp only [Context.setMasterBlockIndex,Function.update_of_ne hb]
                exact h.indices b }
        obtain ⟨h₁,h₂⟩ := ih (fun x hx => hs x (List.mem_cons_of_mem _ hx)) hp' hset
        exact ⟨h₁,List.forall_mem_cons.mpr ⟨hq,h₂⟩⟩

theorem flushSingly_reached (plan : List PlanEntry) (f : MasterFile)
    (hp : ∀ e ∈ plan, e.payload+blockSize ≤ r.buf.length) :
    f.fileSize ≤ (flushSingly r plan f).fileSize ∧
      ∀ q ∈ missSlots plan, (q+1)*blockSize ≤ (flushSingly r plan f).fileSize := by
  induction plan generalizing f with
  | nil => exact ⟨Nat.le_refl _,by simp [missSlots]⟩
  | cons e es ih =>
    have hp' : ∀ e ∈ es, e.payload+blockSize ≤ r.buf.length :=
      fun m hm => hp m (List.mem_cons_of_mem _ hm)
    cases hk : e.kind with
    | hit =>
      simp only [flushSingly,hk]
      rw [missSlots_hit hk]
      exact ih f hp'
    | miss =>
      simp only [flushSingly,hk]
      rw [missSlots_miss hk]
      set bytes := (r.buf.drop e.payload).take blockSize with hbytes
      have hlen : bytes.length = blockSize := by
        have := hp e (List.mem_cons_self ..)
        rw [hbytes,List.length_take,List.length_drop]
        omega
      have hreach : (e.masterBlk+1)*blockSize ≤
          (f.write (e.masterBlk*blockSize) bytes).fileSize := by
        have hne : bytes ≠ [] := by
          intro hnil
          rw [hnil] at hlen
          exact absurd hlen.symm (by decide)
        unfold MasterFile.write
        dsimp only
        rw [if_neg hne,hlen,Nat.add_mul,Nat.one_mul]
        exact Nat.le_max_right ..
      obtain ⟨h₁,h₂⟩ := ih (f.write (e.masterBlk*blockSize) bytes) hp'
      refine ⟨(write_fileSize f _ bytes).1.trans h₁,?_⟩
      intro q hq
      rcases List.mem_cons.mp hq with rfl | hq
      · exact hreach.trans h₁
      · exact h₂ q hq

theorem placed_stage {env : Env} (hio : ∀ j, env.io j = .complete) (h : Placed n c [])
    (hr : Reaching c) : let t := stageWrite sha512 env r c
    n ≤ t.2.1.nextBlockIndex ∧ Placed t.2.1.nextBlockIndex t.2.1 [] ∧
      PlacedPlan t.2.1.nextBlockIndex t.1 ∧ Reaching t.2.1 := by
  have hstart : Pass1Ok sha512 r Pass1.start := pass1_start
  obtain ⟨h₁,h₂,hfile⟩ : Placed n (pass1 sha512 env r r.numBlocks c Pass1.start).1 [] ∧ _ ∧ _ :=
    placed_pass1 env r.numBlocks (by simp [Pass1.start]) h
  obtain ⟨hok,_,_⟩ := pass1_shape env r.numBlocks c (by simp [Pass1.start]) hstart
  unfold stageWrite allocateAndFlush
  dsimp only
  set p := pass1 sha512 env r r.numBlocks c Pass1.start with hp
  have hzero : ∀ m, PlacedPlan m p.2.plan := by
    intro m e he
    rw [h₂ e he]
    exact Nat.lt_of_lt_of_le Nat.one_pos (Nat.le_max_left ..)
  split_ifs with hm
  · obtain ⟨hle,h₃,h₄,hnew⟩ := placed_allocate (missCount p.2.plan) h₁
    set s := allocateBatchStorageFirst (missCount p.2.plan) p.1 with hs
    have hlen : s.1.length = missCount p.2.plan := appendSlots_length _ _ (by simp [drainFreeList])
    obtain ⟨h₅,h₆⟩ := placed_assign p.2.plan h₄ (hzero _) h₃
    obtain ⟨_,_,hfa,hna⟩ := assignSlots_frame p.2.plan s.1 s.2
    have hms := assignSlots_missSlots p.2.plan s.1 s.2 hlen
    have hoka := planOk_assign s.1 s.2 hok
    set t := assignSlots p.2.plan s.1 s.2 with ht
    have hpay : ∀ e ∈ t.1, e.payload+blockSize ≤ r.buf.length := by
      intro e he
      obtain ⟨j,hj⟩ := List.mem_iff_getElem?.mp he
      have hlt : j < r.numBlocks := by
        rw [←hoka.2.2]
        exact (List.getElem?_eq_some_iff.mp hj).1
      rw [(hoka.1 j e hj).2.1]
      calc j*blockSize+blockSize = (j+1)*blockSize := (Nat.succ_mul ..).symm
        _ ≤ r.numBlocks*blockSize := Nat.mul_le_mul_right _ hlt
        _ ≤ r.buf.length := Nat.div_mul_le_self ..
    obtain ⟨hgrow,hreach⟩ := flushSingly_reached t.1 t.2.toMasterFile hpay
    have hflush := flushPlan_singly hoka.1 hoka.2.2 env.io hio t.2.toMasterFile
    have hbase : c.fileSize ≤ (flushSingly r t.1 t.2.toMasterFile).fileSize := by
      refine Nat.le_trans (Nat.le_of_eq ?_) hgrow
      exact (congrArg MasterFile.fileSize (hfa.trans hfile)).symm
    refine ⟨hle.trans (Nat.le_of_eq hna.symm),?_,?_,?_⟩
    · rw [hna]
      exact ⟨rfl,h₅.indices,h₅.free⟩
    · rw [hna]
      exact h₆
    · change t.2.nextBlockIndex*blockSize ≤ (flushPlan r env.io t.1 t.2.toMasterFile).1.fileSize
      rw [hflush,hna]
      rcases Nat.lt_or_ge n s.2.nextBlockIndex with hlt | hge
      · have hlast := hreach (s.2.nextBlockIndex-1) (by
          rw [hms]
          exact hnew _ (by omega) (by omega))
        rwa [Nat.sub_add_cancel (by omega)] at hlast
      · have hsame : s.2.nextBlockIndex = c.nextBlockIndex := by
          rw [h.counter]
          omega
        rw [hsame]
        exact Nat.le_trans hr hbase
  · have hnext := h₁.counter
    refine ⟨Nat.le_of_eq hnext.symm,?_,hzero _,?_⟩
    · rw [hnext]
      exact h₁
    · change p.1.nextBlockIndex*blockSize ≤ p.1.fileSize
      rw [hnext,←h.counter,show p.1.fileSize = c.fileSize from congrArg MasterFile.fileSize hfile]
      exact hr

theorem pass1_extends (env : Env) (k : ℕ) (c : Context) (p : Pass1) :
    (∃ l, (pass1 sha512 env r k c p).2.plan = p.plan++l) ∧
      (pass1 sha512 env r k c p).1.freeBlockList = c.freeBlockList ∧
      (pass1 sha512 env r k c p).1.nextBlockIndex = c.nextBlockIndex := by
  induction k generalizing c p with
  | zero => exact ⟨⟨[],(List.append_nil _).symm⟩,rfl,rfl⟩
  | succ k ih =>
    have hone : ∃ e, (pass1Block sha512 r (env.alloc c.live) c p).2.plan = p.plan++[e] := by
      unfold pass1Block
      dsimp only
      split <;> exact ⟨_,rfl⟩
    obtain ⟨e,he⟩ := hone
    obtain ⟨_,hfree,hnext⟩ := pass1Block_store sha512 r (env.alloc c.live) c p
    obtain ⟨⟨l,hl⟩,h₂,h₃⟩ := ih (pass1Block sha512 r (env.alloc c.live) c p).1
      (pass1Block sha512 r (env.alloc c.live) c p).2
    refine ⟨⟨e::l,?_⟩,h₂.trans hfree,h₃.trans hnext⟩
    change (pass1 sha512 env r k _ _).2.plan = _
    rw [hl,he,List.append_assoc,List.singleton_append]

theorem stageWrite_starts (env : Env) (hb : 0 < r.numBlocks) :
    0 < (stageWrite sha512 env r emptyContext).2.1.nextBlockIndex := by
  obtain ⟨k,hk⟩ := Nat.exists_eq_succ_of_ne_zero (Nat.ne_of_gt hb)
  set t := pass1Block sha512 r (env.alloc ∅) emptyContext Pass1.start with ht
  have hmiss : missCount t.2.plan = 1 := by
    rw [ht,pass1Block_miss _ rfl]
    rfl
  obtain ⟨⟨l,hl⟩,hfree,hnext⟩ : (∃ l, (pass1 sha512 env r k t.1 t.2).2.plan = t.2.plan++l) ∧ _ :=
    pass1_extends env k t.1 t.2
  have hrun : pass1 sha512 env r r.numBlocks emptyContext Pass1.start =
      pass1 sha512 env r k t.1 t.2 := by rw [hk]; rfl
  have hempty : t.1.freeBlockList = [] :=
    (pass1Block_store sha512 r (env.alloc ∅) emptyContext Pass1.start).2.1
  unfold stageWrite allocateAndFlush
  dsimp only
  rw [hrun]
  set p := pass1 sha512 env r k t.1 t.2 with hp
  have hcount : 0 < missCount p.2.plan := by
    rw [hl,missCount,List.countP_append]
    exact Nat.lt_of_lt_of_le Nat.one_pos (hmiss.symm.le.trans (Nat.le_add_right ..))
  rw [if_pos hcount]
  set s := allocateBatchStorageFirst (missCount p.2.plan) p.1 with hs
  have hlast : (assignSlots p.2.plan s.1 s.2).2.nextBlockIndex = s.2.nextBlockIndex :=
    (assignSlots_frame p.2.plan s.1 s.2).2.2.2
  have hs2 : s.2.nextBlockIndex = p.1.nextBlockIndex+missCount p.2.plan := by
    change p.1.nextBlockIndex+(missCount p.2.plan-(p.1.freeBlockList.take _).length) = _
    rw [hfree.trans hempty,List.take_nil,List.length_nil,Nat.sub_zero]
  change 0 < (assignSlots p.2.plan s.1 s.2).2.nextBlockIndex
  omega

end Slots

section Runs

structure Readable (m : Mount) : Prop where
  covered : InsideSizes m.ctx
  aligned : ∀ p ls, find m.ctx.fileToSizes p = some ls → ls % blockSize = 0
  placed : Placed m.ctx.nextBlockIndex m.ctx []
  reaching : Reaching m.ctx
  started : 0 < m.ctx.nextBlockIndex ∨ m.ctx = emptyContext
  backing : ∀ p, find m.ctx.fileToSizes p = none → m.backing p = none ∨ m.backing p = some 0

variable {sha512 : List UInt8 → Hash} {qsort : List BlockPair → List BlockPair}

theorem readable_empty : Readable emptyMount where
  covered := by
    intro _ _ _ h
    cases h
  aligned := by
    intro _ _ h
    cases h
  placed := placed_empty
  reaching := Nat.le_refl 0
  started := Or.inr rfl
  backing := fun _ _ => Or.inl rfl

theorem covered_release {c : Context} {slots : List ℕ} (h : InsideSizes c) :
    InsideSizes (c.releaseSlots slots) := h

theorem readable_write {env : Env} {r : WriteReq} {m : Mount} (h : Readable m)
    (hl : r.buf.length % blockSize = 0) :
    Readable (xmpWrite sha512 (withoutFailure env) r m).1 := by
  by_cases hz : r.buf.length = 0
  · have hsame : (xmpWrite sha512 (withoutFailure env) r m).1 = m := by
      rw [xmpWrite,writeDedup,if_pos hz]
    rw [hsame]
    exact h
  · have hc : Completes (withoutFailure env) r := ⟨hz,hl,fun _ => rfl⟩
    obtain ⟨hok,hfile,hsz⟩ := stageWrite_shape sha512 (withoutFailure env) r m.ctx
    have hwrite : (xmpWrite sha512 (withoutFailure env) r m).1 =
        ⟨(writeDedup sha512 (withoutFailure env) r m.ctx).1,m.backing⟩ := rfl
    have hsizes : ∀ p, find (writeDedup sha512 (withoutFailure env) r m.ctx).1.fileToSizes p = _ :=
      writeDedup_sizes hc m.ctx
    have hpos : m.ctx = emptyContext →
        0 < (stageWrite sha512 (withoutFailure env) r m.ctx).2.1.nextBlockIndex := by
      intro hs
      rw [hs]
      refine stageWrite_starts _ (Nat.div_pos ?_ blockSize_pos)
      exact Nat.le_of_dvd (Nat.pos_of_ne_zero hz) (Nat.dvd_of_mod_eq_zero hl)
    obtain ⟨hle,hplaced,hplan,hreach⟩ : m.ctx.nextBlockIndex ≤
        (stageWrite sha512 (withoutFailure env) r m.ctx).2.1.nextBlockIndex ∧ _ ∧ _ ∧ _ :=
      placed_stage hc.io h.placed h.reaching
    rw [hwrite]
    rw [writeDedup_completes hc] at hsizes ⊢
    set t := stageWrite sha512 (withoutFailure env) r m.ctx with ht
    have hcons := placed_consolidate r t.1 hplan hplaced
    have hcounter := hcons.counter
    have hcov : InsideSizes t.2.1 := by
      intro path b a ha
      rw [hfile] at ha
      rw [hsz]
      exact h.covered path b a ha
    have hcov' := covered_consolidate hok hcov
    refine ⟨?_,?_,?_,?_,?_,?_⟩
    · exact covered_release hcov'
    · intro p ls hp
      rw [hsizes p] at hp
      split_ifs at hp with heq
      · rw [←Option.some.inj hp]
        rcases max_choice ((find m.ctx.fileToSizes r.path).getD 0) r.newEnd with hmax | hmax
        · rw [hmax]
          cases hs : find m.ctx.fileToSizes r.path with
          | none => rfl
          | some k => exact h.aligned r.path k hs
        · rw [hmax]
          exact Nat.mul_mod_left ..
      · exact h.aligned p ls hp
    · dsimp only
      rw [hcounter]
      exact hcons
    · unfold Reaching
      dsimp only
      rw [hcounter]
      refine Nat.le_trans hreach (Nat.le_of_eq ?_)
      exact (congrArg MasterFile.fileSize (consolidate_file r t.1 t.2.1)).symm
    · refine Or.inl ?_
      dsimp only
      rw [hcounter]
      rcases h.started with hs | hs
      · exact Nat.lt_of_lt_of_le hs hle
      · exact hpos hs
    · intro p hp
      rw [hsizes p] at hp
      split_ifs at hp
      exact h.backing p hp

theorem readable_unlink (path : Path) {m : Mount} (h : Readable m) :
    Readable (xmpUnlink none path m).1 := by
  have hplaced : Placed m.ctx.nextBlockIndex (unlinkIndex path m.ctx) [] := by
    unfold unlinkIndex
    split
    · exact h.placed
    · exact { placed_removeBatch path 0 _ h.placed with }
  have hnext := hplaced.counter
  have hfile := unlinkIndex_file path m.ctx
  refine ⟨covered_unlinkIndex h.covered,?_,?_,?_,?_,?_⟩
  · intro p ls hp
    change find (unlinkIndex path m.ctx).fileToSizes p = some ls at hp
    rw [unlinkIndex_sizes] at hp
    split_ifs at hp
    exact h.aligned p ls hp
  · change Placed (unlinkIndex path m.ctx).nextBlockIndex (unlinkIndex path m.ctx) []
    rw [hnext]
    exact hplaced
  · change (unlinkIndex path m.ctx).nextBlockIndex*blockSize ≤ (unlinkIndex path m.ctx).fileSize
    rw [hnext,show (unlinkIndex path m.ctx).fileSize = m.ctx.fileSize from
      congrArg MasterFile.fileSize hfile]
    exact h.reaching
  · change 0 < (unlinkIndex path m.ctx).nextBlockIndex ∨ unlinkIndex path m.ctx = emptyContext
    rw [hnext]
    refine h.started.imp_right ?_
    intro hs
    rw [hs]
    rfl
  · intro p hp
    change find (unlinkIndex path m.ctx).fileToSizes p = none at hp
    change Function.update m.backing path none p = none ∨
      Function.update m.backing path none p = some 0
    by_cases hpp : p = path
    · rw [hpp,Function.update_self]
      exact Or.inl rfl
    · rw [unlinkIndex_sizes,if_neg hpp] at hp
      rw [Function.update_of_ne hpp]
      exact h.backing p hp

theorem truncateIndex_recorded {path : Path} {size : ℕ} {c : Context} {p : Path} {ls : ℕ}
    (h : find (truncateIndex path size c).fileToSizes p = some ls) :
    find c.fileToSizes p = some ls ∨ ls = size := by
  have hshrink : ∀ d : Context, find (shrinkSize path size d).fileToSizes p = some ls →
      find d.fileToSizes p = some ls ∨ ls = size := by
    intro d hd
    unfold shrinkSize at hd
    split at hd
    · exact Or.inl hd
    · split_ifs at hd
      · dsimp only at hd
        rw [find_insert] at hd
        split_ifs at hd
        · exact Or.inr (Option.some.inj hd).symm
        · exact Or.inl hd
      · exact Or.inl hd
  unfold truncateIndex at h
  split at h
  · exact Or.inl h
  · have := hshrink _ h
    rwa [removeBatch_sizes] at this

theorem readable_truncate (path : Path) {size : ℕ} {m : Mount} (h : Readable m)
    (ha : size % blockSize = 0) (hs : size ≤ logicalSize m path) :
    Readable ⟨truncateIndex path size m.ctx,Function.update m.backing path (some size)⟩ := by
  have hplaced : Placed m.ctx.nextBlockIndex (truncateIndex path size m.ctx) [] := by
    unfold truncateIndex
    split
    · exact h.placed
    · have hb : ∀ d : Context, Placed m.ctx.nextBlockIndex d [] →
          Placed m.ctx.nextBlockIndex (shrinkSize path size d) [] := by
        intro d hd
        unfold shrinkSize
        split
        · exact hd
        · split_ifs
          · exact { hd with }
          · exact hd
      exact hb _ (placed_removeBatch path _ _ h.placed)
  have hnext := hplaced.counter
  have hfile := truncateIndex_file path size m.ctx
  refine ⟨covered_truncateIndex h.covered hs,?_,?_,?_,?_,?_⟩
  · intro p ls hp
    rcases truncateIndex_recorded hp with hp | rfl
    · exact h.aligned p ls hp
    · exact ha
  · dsimp only
    rw [hnext]
    exact hplaced
  · change (truncateIndex path size m.ctx).nextBlockIndex*blockSize ≤
      (truncateIndex path size m.ctx).fileSize
    rw [hnext,show (truncateIndex path size m.ctx).fileSize = m.ctx.fileSize from
      congrArg MasterFile.fileSize hfile]
    exact h.reaching
  · dsimp only
    rw [hnext]
    refine h.started.imp_right ?_
    intro he
    rw [he]
    rfl
  · intro p hp
    have hold := (truncateIndex_sizes hs p).2 hp
    dsimp only
    by_cases hpp : p = path
    · subst hpp
      rw [logicalSize,hold] at hs
      have hz : size = 0 := Nat.le_zero.mp hs
      rw [Function.update_self,hz]
      exact Or.inr rfl
    · rw [Function.update_of_ne hpp]
      exact h.backing p hold

theorem readable_respond (m : Mount) (op : FsOp) (h : Readable m)
    (hc : Regular m op ∧ ∀ u i, op ≠ .remount u i) : Readable (respond sha512 qsort m op).1 := by
  obtain ⟨hreg,hnot⟩ := hc
  cases op with
  | create path =>
    refine { h with backing := ?_ }
    intro p hp
    change Function.update m.backing path (some ((m.backing path).getD 0)) p = none ∨
      Function.update m.backing path (some ((m.backing path).getD 0)) p = some 0
    by_cases hpp : p = path
    · subst hpp
      rw [Function.update_self]
      rcases h.backing p hp with hb | hb <;> rw [hb] <;> exact Or.inr rfl
    · rw [Function.update_of_ne hpp]
      exact h.backing p hp
  | write env r => exact readable_write h hreg.2
  | read r buf => exact h
  | truncate path size =>
    obtain ⟨hpos,ha,hle⟩ := hreg
    change Readable (xmpTruncate none path size m).1
    rw [truncate_regular ⟨hpos,ha⟩]
    refine readable_truncate path h ?_ (by omega)
    have hcast : ((size.toNat : ℕ) : ℤ) % blockSize = 0 := by
      rw [Int.toNat_of_nonneg hpos]
      exact ha
    exact_mod_cast hcast
  | unlink path => exact readable_unlink path h
  | getattr path => exact h
  | remount u i => exact absurd rfl (hnot u i)

end Runs

section Reads

variable {sha512 : List UInt8 → Hash} {qsort : List BlockPair → List BlockPair}

/-- Every byte up to the recorded size is returned, and a block inside it that
was never written reads as zeros. -/
structure ReadsToEnd (qsort : List BlockPair → List BlockPair) (r : ReadReq) (m : Mount)
    (buf : Buffer) : Prop where
  count : (xmpRead qsort r m buf).2 = .ok (min r.size (logicalSize m r.path-r.offset))
  zeros : ∀ i < r.numBlocks, (r.startBlock+i)*blockSize < logicalSize m r.path →
    find m.ctx.fileToMaster ⟨r.path,r.startBlock+i⟩ = none →
    outBlock (xmpRead qsort r m buf).1 i = List.replicate blockSize 0

theorem readable_inside {m : Mount} (h : Readable m) (r : ReadReq) :
    Inside m.ctx.toMasterFile (leadingSlots r m.ctx) := by
  intro q hq
  obtain ⟨i,hi⟩ := presentRun_mem hq
  obtain ⟨a,ha,rfl⟩ := Option.map_eq_some_iff.mp hi
  have hpos : 0 < m.ctx.nextBlockIndex := by
    rcases h.started with hs | hs
    · exact hs
    · rw [hs] at ha
      cases ha
  have hlt := h.placed.indices a
  rw [max_eq_right hpos] at hlt
  exact (Nat.mul_le_mul_right _ hlt).trans h.reaching

theorem readable_count {m : Mount} (hq : ∀ l, (qsort l).Perm l) (h : Readable m) (r : ReadReq)
    (buf : Buffer) (hpos : 0 < r.size) (hs : r.size % blockSize = 0) :
    (xmpRead qsort r m buf).2 = .ok ((leadingSlots r m.ctx).length*blockSize) := by
  have hgroups := readDedup_groups qsort r m.ctx buf hpos hs
  obtain ⟨hres,_⟩ := readGroups_leading (sortPairs_perm hq (lookupPairs r m.ctx r.numBlocks 0)) buf
  dsimp only at hgroups hres
  rw [if_pos (readable_inside h r)] at hres
  rw [hres] at hgroups
  exact congrArg Prod.snd hgroups

theorem readable_getattr {m : Mount} (h : Readable m) {p : Path} (hb : m.backing p ≠ none) :
    xmpGetattr p m = .ok (logicalSize m p) := by
  unfold xmpGetattr logicalSize
  cases hbk : m.backing p with
  | none => exact absurd hbk hb
  | some len =>
    cases hsz : find m.ctx.fileToSizes p with
    | some k => rfl
    | none =>
      rcases h.backing p hsz with hz | hz
      · rw [hz] at hbk
        cases hbk
      · rw [hz] at hbk
        rw [←Option.some.inj hbk]

theorem readable_logicalSize {m : Mount} (h : Readable m) (p : Path) :
    logicalSize m p/blockSize*blockSize = logicalSize m p := by
  refine Nat.div_mul_cancel (Nat.dvd_of_mod_eq_zero ?_)
  unfold logicalSize
  cases hsz : find m.ctx.fileToSizes p with
  | none => rfl
  | some k => exact h.aligned p k hsz

/-- How many blocks of a request start below the recorded size. -/
def blocksToEnd (r : ReadReq) (m : Mount) : ℕ :=
  min r.numBlocks (logicalSize m r.path/blockSize-r.startBlock)

theorem blocksToEnd_size {m : Mount} (h : Readable m) {r : ReadReq} (ho : r.offset % blockSize = 0)
    (hs : r.size % blockSize = 0) :
    min r.size (logicalSize m r.path-r.offset) = blocksToEnd r m*blockSize := by
  have hsize : r.size = r.numBlocks*blockSize :=
    (Nat.div_mul_cancel (Nat.dvd_of_mod_eq_zero hs)).symm
  have hoff : r.offset = r.startBlock*blockSize :=
    (Nat.div_mul_cancel (Nat.dvd_of_mod_eq_zero ho)).symm
  rw [←readable_logicalSize h,hsize,hoff,←Nat.sub_mul,blocksToEnd,Nat.mul_min_mul_right]

/-- No block is mapped beyond the end, so the leading run ends there at last; it
reaches it when there is no hole on the way. -/
theorem leading_to_end {m : Mount} (h : Readable m) (r : ReadReq) :
    (leadingSlots r m.ctx).length = blocksToEnd r m ↔
      ∀ i < r.numBlocks, (r.startBlock+i)*blockSize < logicalSize m r.path →
        find m.ctx.fileToMaster ⟨r.path,r.startBlock+i⟩ ≠ none := by
  have hbelow : ∀ b, b*blockSize < logicalSize m r.path ↔ b < logicalSize m r.path/blockSize := by
    intro b
    have hmul : b*blockSize < logicalSize m r.path/blockSize*blockSize ↔
        b < logicalSize m r.path/blockSize := Nat.mul_lt_mul_right blockSize_pos
    rw [readable_logicalSize h] at hmul
    exact hmul
  have hbeyond : blocksToEnd r m < r.numBlocks →
      find m.ctx.fileToMaster ⟨r.path,r.startBlock+blocksToEnd r m⟩ = none := by
    intro hlt
    cases hf : find m.ctx.fileToMaster ⟨r.path,r.startBlock+blocksToEnd r m⟩ with
    | none => rfl
    | some a =>
      obtain ⟨size,hsz,hin⟩ := h.covered r.path _ a hf
      have hls : logicalSize m r.path = size := by rw [logicalSize,hsz]; rfl
      rw [←hls,hbelow] at hin
      unfold blocksToEnd at hlt hin
      omega
  have hlen : (leadingSlots r m.ctx).length = blocksToEnd r m ↔
      ∀ j < blocksToEnd r m, find m.ctx.fileToMaster ⟨r.path,r.startBlock+j⟩ ≠ none := by
    have hle : blocksToEnd r m ≤ r.numBlocks := Nat.min_le_left ..
    unfold leadingSlots
    rw [presentRun_length _ 0 hle]
    simp only [Nat.zero_add,ne_eq,Option.map_eq_none_iff]
    exact and_iff_left hbeyond
  rw [hlen]
  constructor
  · intro hall i hi hlt
    have := (hbelow _).mp hlt
    refine hall i ?_
    unfold blocksToEnd
    omega
  · intro hall j hj
    unfold blocksToEnd at hj
    exact hall j (by omega) ((hbelow _).mpr (by omega))

theorem readable_to_end_iff {m : Mount} (hq : ∀ l, (qsort l).Perm l) (h : Readable m) {r : ReadReq}
    (ho : r.offset % blockSize = 0) (hs : r.size % blockSize = 0) (buf : Buffer) :
    ReadsToEnd qsort r m buf ↔ 0 < r.size ∧
      ∀ i < r.numBlocks, (r.startBlock+i)*blockSize < logicalSize m r.path →
        find m.ctx.fileToMaster ⟨r.path,r.startBlock+i⟩ ≠ none := by
  have hmin := blocksToEnd_size h ho hs
  constructor
  · intro hread
    have hcount := hread.count
    have hpos : 0 < r.size := by
      rcases Nat.eq_zero_or_pos r.size with hz | hz
      · rw [xmpRead,readDedup,if_pos (Or.inl (by rw [ReadReq.numBlocks,hz]; rfl))] at hcount
        cases hcount
      · exact hz
    refine ⟨hpos,(leading_to_end h r).mp ?_⟩
    rw [readable_count hq h r buf hpos hs,hmin] at hcount
    exact Nat.eq_of_mul_eq_mul_right blockSize_pos (Except.ok.inj hcount)
  · rintro ⟨hpos,hall⟩
    refine ⟨?_,?_⟩
    · rw [readable_count hq h r buf hpos hs,hmin,(leading_to_end h r).mpr hall]
    · intro i hi hlt hnone
      exact absurd hnone (hall i hi hlt)

def holedFile : List FsOp :=
  [.create fileA,.write completeEnv (fillReq fileA 65 2 1 one_block_fits block2_ends)]

def holedMount : Mount := final (respond sampleSha512 id) emptyMount holedFile

end Reads

end ArchivalDedup.ShortReads
