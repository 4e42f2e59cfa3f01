import ArchivalDedup.EqualWrites

/-!
# Slots in use and growth of the master file

Between calls every slot that is not free holds a content of its own, and every
such content is mapped. A request then needs a slot for each content that is not
mapped yet, and the append counter stands at the highest such need so far.
-/

set_option autoImplicit false

namespace ArchivalDedup.PerfectDedup
open ArchivalDedup.FiniteTable ArchivalDedup.MetaIndex ArchivalDedup.WriteDedup
open ArchivalDedup.Passthrough ArchivalDedup.PlanShape ArchivalDedup.Ledger
open ArchivalDedup.LedgerLoops ArchivalDedup.LedgerPasses ArchivalDedup.ReferenceSafety
open ArchivalDedup.SequentialWrite ArchivalDedup.SequentialRun ArchivalDedup.RemountSafety
open ArchivalDedup.ExactRequests ArchivalDedup.SettledWrites ArchivalDedup.Interleaving
open ArchivalDedup.SlotAccounting ArchivalDedup.BlockRefinement ArchivalDedup.FailedWrite
open ArchivalDedup.EqualWrites

variable {sha512 : List UInt8 → Hash} {known : List (List UInt8)} {c : Context}
variable {env : Env} {r : WriteReq}

section Contents

def infoContent (c : Context) (a : Ptr) : List UInt8 :=
  c.toMasterFile.block (c.cell a).masterBlockIndex

def mappedContents (c : Context) : Finset (List UInt8) :=
  (valuesBy (infoContent c) c.fileToMaster).toFinset

def requestContents (r : WriteReq) : Finset (List UInt8) :=
  ((List.range r.numBlocks).map r.block).toFinset

def slotsInUse (c : Context) : ℕ := c.nextBlockIndex-c.freeBlockList.length

/-- The contents mapped when a write comes, and those that it adds. -/
def demand (m : Mount) : Op → ℕ
  | .write _ r => (mappedContents m.ctx).card+(requestContents r \ mappedContents m.ctx).card
  | .unlink .. => 0
  | .truncate .. => 0

theorem mem_mappedContents (h : Inv ∅ c []) (b : List UInt8) :
    b ∈ mappedContents c ↔ ∃ x a, find c.hashToMaster x = some a ∧ infoContent c a = b := by
  rw [mappedContents,List.mem_toFinset,mem_values_by]
  constructor
  · rintro ⟨k,a,hk,hb⟩
    exact ⟨_,a,(mapped_published h hk).2,hb⟩
  · rintro ⟨x,a,hx,hb⟩
    have hpos := h.positive a (h.keyed x a hx).2.1
    rw [refs,heldRefs_nil,Nat.add_zero] at hpos
    obtain ⟨k,hk⟩ := (occurrences_pos _ _).mp hpos
    exact ⟨k,a,hk,hb⟩

theorem publishedContents_nodup (hs : Addressed sha512 c) :
    (valuesBy (infoContent c) c.hashToMaster).Nodup := by
  have hkeys : (valuesBy (infoContent c) c.hashToMaster).map sha512 =
      c.hashToMaster.entries.map Sigma.fst := by
    rw [valuesBy,List.map_map]
    apply List.map_congr_left
    rintro ⟨x,a⟩ hm
    exact hs x a ((mem_entries_iff c.hashToMaster x a).mp hm)
  refine List.Nodup.of_map sha512 ?_
  rw [hkeys]
  exact c.hashToMaster.nodupKeys

theorem mappedContents_card (h : Inv ∅ c []) (hs : Addressed sha512 c) :
    (mappedContents c).card = c.hashToMaster.entries.length := by
  have heq : mappedContents c = (valuesBy (infoContent c) c.hashToMaster).toFinset := by
    ext b
    rw [mem_mappedContents h,List.mem_toFinset,mem_values_by]
  rw [heq,List.toFinset_card_of_nodup (publishedContents_nodup hs),valuesBy,List.length_map]

theorem slots_counted (h : Inv ∅ c []) (hs : Addressed sha512 c) :
    c.nextBlockIndex = c.freeBlockList.length+(mappedContents c).card := by
  have hlen := h.slots.length_eq
  rw [List.length_range,List.length_append,List.length_append,publishedSlots,valuesBy,
    List.length_map,←mappedContents_card h hs] at hlen
  exact hlen.symm

end Contents

section Allocation

variable {t : List PlanEntry × Context × Option Errno}

theorem allocateAndFlush_next (env : Env) (r : WriteReq) (plan : List PlanEntry) (c : Context) :
    missCount (allocateAndFlush env r plan c).1 = missCount plan ∧
      (allocateAndFlush env r plan c).2.1.nextBlockIndex =
        c.nextBlockIndex+(missCount plan-c.freeBlockList.length) := by
  unfold allocateAndFlush
  split_ifs with hm
  · refine ⟨countP_unslotted _ (fun _ => rfl) (assignSlots_unslotted plan _ _),?_⟩
    change (assignSlots plan _ _).2.nextBlockIndex = _
    rw [(assignSlots_frame plan _ _).2.2.2]
    change c.nextBlockIndex+(missCount plan-(c.freeBlockList.take (missCount plan)).length) = _
    rw [List.length_take]
    omega
  · refine ⟨rfl,?_⟩
    dsimp only
    omega

def unindexedHashes (sha512 : List UInt8 → Hash) (r : WriteReq) (c : Context) : Finset Hash :=
  ((List.range r.numBlocks).map (fun i => sha512 (r.block i))).toFinset.filter
    (fun x => find c.hashToMaster x = none)

theorem staged_miss (ht : StagedWrite sha512 r c t) {e : PlanEntry} (he : e ∈ t.1)
    (hnone : find c.hashToMaster e.hash = none) : ∃ m ∈ t.1, m.kind = .miss ∧ m.hash = e.hash := by
  obtain ⟨hl,hh⟩ := ht.planned.hashes e he
  rcases ht.ledger.shared _ (List.mem_singleton_self _) e he hl with hp | ⟨m,hm,hk,hi⟩
  · rw [Published,hh,ht.planned.hashToMaster,hnone] at hp
    cases hp
  · refine ⟨m,hm,hk,?_⟩
    rw [←(ht.planned.hashes m hm).2,hi,hh]

theorem staged_missCount (ht : StagedWrite sha512 r c t) :
    missCount t.1 = (unindexedHashes sha512 r c).card := by
  have hnodup : ((misses t.1).map PlanEntry.hash).Nodup := by
    refine List.pairwise_map.mpr (List.pairwise_filter.mpr ?_)
    refine ht.shape.2.1.imp ?_
    intro e f hef he hf
    exact hef (of_decide_eq_true he) (of_decide_eq_true hf)
  have hset : unindexedHashes sha512 r c = ((misses t.1).map PlanEntry.hash).toFinset := by
    ext x
    rw [unindexedHashes,Finset.mem_filter,List.mem_toFinset,List.mem_toFinset,←ht.shape.2.2,
      ←formed_hashes ht.shape.1]
    constructor
    · rintro ⟨hx,hnone⟩
      obtain ⟨e,he,rfl⟩ := List.mem_map.mp hx
      obtain ⟨m,hm,hk,hh⟩ := staged_miss ht he hnone
      exact List.mem_map.mpr ⟨m,List.mem_filter.mpr ⟨hm,decide_eq_true hk⟩,hh⟩
    · intro hx
      obtain ⟨e,he,rfl⟩ := List.mem_map.mp hx
      obtain ⟨he,hk⟩ := List.mem_filter.mp he
      refine ⟨List.mem_map_of_mem he,?_⟩
      rw [←ht.planned.hashToMaster]
      exact ht.planned.unindexed e he (of_decide_eq_true hk)
  rw [hset,List.toFinset_card_of_nodup hnodup,List.length_map,misses,missCount,
    List.countP_eq_length_filter]

theorem unindexed_card (h : Inv ∅ c []) (hs : Holds sha512 known c)
    (hinj : DistinctHashes sha512 known) (hb : ∀ i < r.numBlocks, r.block i ∈ known) :
    (unindexedHashes sha512 r c).card = (requestContents r \ mappedContents c).card := by
  have hmem : ∀ b, b ∈ requestContents r ↔ ∃ i < r.numBlocks, r.block i = b := by
    intro b
    simp only [requestContents,List.mem_toFinset,List.mem_map,List.mem_range]
  have himage : unindexedHashes sha512 r c = (requestContents r \ mappedContents c).image sha512 := by
    ext x
    rw [unindexedHashes,Finset.mem_filter,List.mem_toFinset,List.mem_map,Finset.mem_image]
    constructor
    · rintro ⟨⟨i,hi,rfl⟩,hnone⟩
      refine ⟨r.block i,Finset.mem_sdiff.mpr ⟨(hmem _).mpr ⟨i,List.mem_range.mp hi,rfl⟩,?_⟩,rfl⟩
      intro hm
      obtain ⟨x,a,hx,hc⟩ := (mem_mappedContents h _).mp hm
      have hsha := (hs x a hx).1
      change sha512 (infoContent c a) = x at hsha
      rw [hc] at hsha
      rw [hsha,hx] at hnone
      cases hnone
    · rintro ⟨b,hm,rfl⟩
      obtain ⟨hreq,hnot⟩ := Finset.mem_sdiff.mp hm
      obtain ⟨i,hi,rfl⟩ := (hmem b).mp hreq
      refine ⟨⟨i,List.mem_range.mpr hi,rfl⟩,?_⟩
      -- an indexed hash would stand for this very content
      refine Option.eq_none_iff_forall_ne_some.mpr ?_
      intro a ha
      obtain ⟨hsha,hk⟩ := hs _ a ha
      exact hnot ((mem_mappedContents h _).mpr ⟨_,a,ha,hinj _ hk _ (hb i hi) hsha⟩)
  rw [himage]
  refine Finset.card_image_of_injOn ?_
  intro x hx y hy hxy
  obtain ⟨i,hi,rfl⟩ := (hmem x).mp (Finset.mem_sdiff.mp hx).1
  obtain ⟨j,hj,rfl⟩ := (hmem y).mp (Finset.mem_sdiff.mp hy).1
  exact hinj _ (hb i hi) _ (hb j hj) hxy

theorem staged_next (env : Env) (h : Inv ∅ c []) (hs : Holds sha512 known c)
    (hinj : DistinctHashes sha512 known) (hfit : FitsCounters sha512 r c)
    (hb : ∀ i < r.numBlocks, r.block i ∈ known) :
    (stageWrite sha512 env r c).2.1.nextBlockIndex = max c.nextBlockIndex
      ((mappedContents c).card+(requestContents r \ mappedContents c).card) := by
  obtain ⟨_,_,_,_,hfree,hnext⟩ := pass1_alone env h hfit
  have hmiss := staged_missCount (stageWrite_alone env h hfit)
  obtain ⟨hcount,halloc⟩ := allocateAndFlush_next env r
    (pass1 sha512 env r r.numBlocks c Pass1.start).2.plan
    (pass1 sha512 env r r.numBlocks c Pass1.start).1
  have hused := slots_counted h (fun x a ha => (hs x a ha).1)
  rw [hfree,hnext,←hcount] at halloc
  rw [stageWrite] at hmiss ⊢
  rw [halloc,hmiss,unindexed_card h hs hinj hb]
  omega

theorem write_next (env : Env) (h : SeqInv c) (hs : Holds sha512 known c)
    (hinj : DistinctHashes sha512 known) (hfit : CallFits sha512 r c)
    (ha : r.buf.length % blockSize = 0) (hb : ∀ i < r.numBlocks, r.block i ∈ known) :
    (writeDedup sha512 env r c).1.nextBlockIndex = max c.nextBlockIndex
      ((mappedContents c).card+(requestContents r \ mappedContents c).card) := by
  unfold writeDedup
  split_ifs with hz hrej
  · have hnum : r.numBlocks = 0 := by
      rw [WriteReq.numBlocks,hz,Nat.zero_div]
    have hused := slots_counted h.ledger (fun x a ha => (hs x a ha).1)
    rw [requestContents,hnum,List.range_zero,List.map_nil,List.toFinset_nil,Finset.empty_sdiff,
      Finset.card_empty,Nat.add_zero,Nat.max_eq_left]
    rw [hused]
    exact Nat.le_add_left ..
  · have hmul := Nat.div_mul_cancel (Nat.dvd_of_mod_eq_zero ha)
    rcases hrej with hnum | hne
    · rw [WriteReq.numBlocks] at hnum
      rw [hnum,Nat.zero_mul] at hmul
      exact absurd hmul.symm hz
    · exact absurd ha hne
  · obtain ⟨n,hr,hp⟩ := ranged_stage sha512 env r h.ranged
    obtain ⟨_,hr'⟩ := finishWrite_store hr hp
    rw [hr'.counter,←hr.counter]
    exact staged_next env h.ledger hs hinj (hfit ha) hb

end Allocation

section Runs

def Aligned : Op → Prop
  | .write _ r => r.buf.length % blockSize = 0
  | .unlink .. => True
  | .truncate .. => True

instance (op : Op) : Decidable (Aligned op) :=
  match op with
  | .write _ r => inferInstanceAs (Decidable (r.buf.length % blockSize = 0))
  | .unlink .. => isTrue trivial
  | .truncate .. => isTrue trivial

theorem perform_next {m m' : Mount} {op : Op} (h : SeqInv m.ctx) (hs : Holds sha512 known m.ctx)
    (hinj : DistinctHashes sha512 known) (hf : OpFits sha512 m op) (ha : Aligned op)
    (hb : ∀ b ∈ opBlocks op, b ∈ known) (hp : perform sha512 m op = some m') :
    m'.ctx.nextBlockIndex = max m.ctx.nextBlockIndex (demand m op) := by
  obtain ⟨env,r,rfl,hm⟩ | ⟨sys,path,rfl,hm⟩ | ⟨sys,path,size,rfl,hm | hm⟩ := perform_cases hp
  · rw [hm]
    refine write_next env h hs hinj hf ha ?_
    intro i hi
    exact hb _ (List.mem_map.mpr ⟨i,List.mem_range.mpr hi,rfl⟩)
  · rw [hm,demand,Nat.max_zero]
    exact (ranged_unlink path h.ranged).counter
  · rw [hm,demand,Nat.max_zero]
  · rw [hm,demand,Nat.max_zero]
    exact (ranged_truncate path _ h.ranged).counter

/-- After every sequential run of aligned writes, unlinks and truncates whose
writes fit the counters: one slot for each content that is mapped, and the
append counter at the highest demand of a write so far. -/
theorem perfect_dedup (ops : List Op) (m : Mount) (hr : Leads sha512 ops m)
    (ha : ∀ op ∈ ops, Aligned op) (hinj : DistinctHashes sha512 (ops.flatMap opBlocks))
    (hc : Meets (perform sha512) (OpFits sha512) emptyMount ops) :
    m.ctx.freeBlockList.length ≤ m.ctx.nextBlockIndex ∧
    slotsInUse m.ctx = (mappedContents m.ctx).card ∧
    m.ctx.nextBlockIndex = peak (perform sha512) demand emptyMount ops := by
  have hown : Meets (perform sha512)
      (fun _ op => Aligned op ∧ ∀ b ∈ opBlocks op, b ∈ ops.flatMap opBlocks) emptyMount ops := by
    refine meets_of_forall _ _ _ _ ?_
    intro op hop _
    exact ⟨ha op hop,fun b hb => List.mem_flatMap.mpr ⟨op,hop,hb⟩⟩
  obtain ⟨⟨hseq,hholds⟩,hpeak⟩ := exec_peak (perform sha512) _
    (fun m => SeqInv m.ctx ∧ Holds sha512 (ops.flatMap opBlocks) m.ctx)
    (fun m => m.ctx.nextBlockIndex) demand (by
      rintro s op t ⟨hi,hs⟩ ⟨hf,hal,hb⟩ hp
      exact ⟨⟨seqInv_perform hi hf hp,
        stored_perform hi.ledger hs hf (fun b hm => ⟨rfl,hb b hm⟩) hp⟩,
        perform_next hi hs hinj hf hal hb hp⟩) emptyMount m ops
    ⟨seqInv_empty,fun _ _ hx => by cases hx⟩ (meets_and _ hc hown) hr
  have hused := slots_counted hseq.ledger (fun x a hx => (hholds x a hx).1)
  refine ⟨?_,?_,?_⟩
  · rw [hused]
    exact Nat.le_add_right ..
  · rw [slotsInUse,hused,Nat.add_sub_cancel_left]
  · rw [hpeak]
    exact Nat.zero_max _

end Runs

section Samples

variable {n : ℕ}

theorem dropped_last (h : EqualFilled (n+1) c) (hn : (n+1) % refcountMod = 1) :
    removeBlocksDedupBatch fileA n (n+1) c =
      ((((c.removeFileBlock fileA n).fetchSub 1).removeHash digestA).free 1).releaseSlots [0] := by
  have hold : c.lookupByFileBlock fileA n = some 1 :=
    (h.mapped ⟨fileA,n⟩).trans (if_pos ⟨rfl,Nat.lt_succ_self n⟩)
  have hcell : (c.removeFileBlock fileA n).cell 1 = ⟨digestA,0,1⟩ := by
    have := h.cell
    rw [hn] at this
    exact this
  rw [removeBlocksDedupBatch,Nat.add_sub_cancel_left]
  simp only [removeBlocks,removeBlock,hold,Context.dropReference,hcell,if_true]

theorem truncated_equal (h : EqualFilled (n+1) c) (hn : (n+1) % refcountMod = 1) (hpos : 0 < n) :
    slotsInUse (truncateIndex fileA (n*blockSize) c) = 0 ∧
      List.replicate blockSize 65 ∈ mappedContents (truncateIndex fileA (n*blockSize) c) := by
  have hlt : n*blockSize < (n+1)*blockSize :=
    Nat.mul_lt_mul_of_pos_right (Nat.lt_succ_self n) blockSize_pos
  have hextent : truncateExtent fileA (n*blockSize) c = some (n,n+1) := by
    unfold truncateExtent
    rw [h.sized]
    simp only [if_pos hlt,blockCount_mul]
  have hdrop := dropped_last h hn
  have hsize : find (removeBlocksDedupBatch fileA n (n+1) c).fileToSizes fileA =
      some ((n+1)*blockSize) := by
    rw [hdrop]
    exact h.sized
  have hindex : truncateIndex fileA (n*blockSize) c =
      { removeBlocksDedupBatch fileA n (n+1) c with
        fileToSizes := (removeBlocksDedupBatch fileA n (n+1) c).fileToSizes.insert fileA
          (n*blockSize) } := by
    unfold truncateIndex
    rw [hextent]
    simp only [shrinkSize,hsize,if_pos hlt]
  rw [hindex,hdrop]
  constructor
  · change c.nextBlockIndex-(0::c.freeBlockList).length = 0
    rw [h.next,h.unused]
    rfl
  · rw [mappedContents,List.mem_toFinset,mem_values_by]
    refine ⟨⟨fileA,0⟩,1,?_,?_⟩
    · change find (c.fileToMaster.erase ⟨fileA,n⟩) ⟨fileA,0⟩ = some 1
      rw [find_erase,if_neg,h.mapped,if_pos ⟨rfl,Nat.succ_pos n⟩]
      intro heq
      rw [BlockIndice.mk.injEq] at heq
      omega
    · change c.toMasterFile.block (((c.removeFileBlock fileA n).fetchSub 1).cell 1).masterBlockIndex = _
      rw [Context.fetchSub,setRefcount_masterBlockIndex]
      change c.toMasterFile.block (c.cell 1).masterBlockIndex = _
      rw [h.cell]
      exact h.content

theorem mem_equalWrites {op : Op} (h : op ∈ equalWrites n) :
    ∃ i, op = .write completeEnv (blockReq i) := by
  rw [equalWrites] at h
  obtain ⟨i,_,rfl⟩ := List.mem_map.mp h
  exact ⟨i,rfl⟩

def equalThenTruncated : List Op :=
  equalWrites (refcountMod+1)++[.truncate none fileA (refcountMod*blockSize)]

theorem mapped_slot_freed : ∃ m, Leads sampleSha512 equalThenTruncated m ∧
    (∀ op ∈ equalThenTruncated, Aligned op) ∧
    DistinctHashes sampleSha512 (equalThenTruncated.flatMap opBlocks) ∧
    slotsInUse m.ctx ≠ (mappedContents m.ctx).card := by
  obtain ⟨m,hm,hf⟩ := equalFilled_run refcountMod (by decide)
  have hpart : ∀ op ∈ equalThenTruncated, (∃ i, op = .write completeEnv (blockReq i)) ∨
      op = .truncate none fileA (refcountMod*blockSize) := by
    intro op hop
    rcases List.mem_append.mp hop with hop | hop
    · exact Or.inl (mem_equalWrites hop)
    · exact Or.inr (List.mem_singleton.mp hop)
  refine ⟨⟨truncateIndex fileA (refcountMod*blockSize) m.ctx,
    Function.update m.backing fileA (some (refcountMod*blockSize))⟩,?_,?_,fill_noCollision ?_,?_⟩
  · rw [Leads,equalThenTruncated,exec_append,hm]
    rfl
  · intro op hop
    rcases hpart op hop with ⟨i,rfl⟩ | rfl
    · exact (blockReq_accepted i).2
    · trivial
  · intro b hb
    obtain ⟨op,hop,hb⟩ := List.mem_flatMap.mp hb
    rcases hpart op hop with ⟨i,rfl⟩ | rfl
    · obtain ⟨j,hj,rfl⟩ := List.mem_map.mp hb
      rw [blockReq_numBlocks,List.mem_range,Nat.lt_one_iff] at hj
      rw [hj]
      exact ⟨65,by decide,blockReq_block i⟩
    · cases hb
  · obtain ⟨hnone,hmapped⟩ := truncated_equal hf (by decide) (by decide)
    rw [hnone]
    exact (Nat.ne_of_gt (Finset.card_pos.mpr ⟨_,hmapped⟩)).symm

def mixedRun : List Op :=
  [.write completeEnv (fillReq fileA 65 0 2 two_blocks_fit blocks01_end),
    .write completeEnv (fillReq fileB 66 0 1 one_block_fits block0_ends),
    .write (shortEnv []) (fillReq fileB 67 1 1 one_block_fits block1_ends),
    .truncate none fileA 4096,.unlink none fileB,
    .write completeEnv (fillReq fileA 67 0 1 one_block_fits block0_ends)]

theorem perfect_dedup_mixed : ∃ m, Leads sampleSha512 mixedRun m ∧
    (∀ op ∈ mixedRun, Aligned op) ∧ DistinctHashes sampleSha512 (mixedRun.flatMap opBlocks) ∧
    Meets (perform sampleSha512) (OpFits sampleSha512) emptyMount mixedRun ∧
    (mappedContents m.ctx).card = 1 ∧ peak (perform sampleSha512) demand emptyMount mixedRun = 3 := by
  have hc : Meets (perform sampleSha512) (OpFits sampleSha512) emptyMount mixedRun := by
    decide +kernel
  obtain ⟨m,hr,hp⟩ := exec_observe (perform sampleSha512)
    (fun m => m.ctx.nextBlockIndex = 3 ∧ m.ctx.freeBlockList.length = 2) emptyMount mixedRun
    (by decide +kernel)
  obtain ⟨hnext,hfree⟩ := of_decide_eq_true hp
  have ha : ∀ op ∈ mixedRun, Aligned op := by
    decide +kernel
  have hfill : ∀ (env : Env) (path : Path) (byte : UInt8) (i k : ℕ) (h₁ : k*blockSize < 2^31)
      (h₂ : i*blockSize+k*blockSize < 2^63), byte ∈ ([65,66,67] : List UInt8) →
      ∀ b ∈ opBlocks (.write env (fillReq path byte i k h₁ h₂)),
        ∃ byte ∈ ([65,66,67] : List UInt8), b = List.replicate blockSize byte := by
    intro env path byte i k h₁ h₂ hbyte b hb
    obtain ⟨j,hj,rfl⟩ := List.mem_map.mp hb
    rw [fill_numBlocks,List.mem_range] at hj
    exact ⟨byte,hbyte,fill_block h₁ h₂ hj⟩
  have hinj : DistinctHashes sampleSha512 (mixedRun.flatMap opBlocks) := by
    refine fill_noCollision ?_
    intro b hb
    obtain ⟨op,hop,hb⟩ := List.mem_flatMap.mp hb
    simp only [mixedRun,List.mem_cons,List.not_mem_nil,or_false] at hop
    rcases hop with rfl | rfl | rfl | rfl | rfl | rfl
    · exact hfill _ _ _ _ _ _ _ (by decide) b hb
    · exact hfill _ _ _ _ _ _ _ (by decide) b hb
    · exact hfill _ _ _ _ _ _ _ (by decide) b hb
    · cases hb
    · cases hb
    · exact hfill _ _ _ _ _ _ _ (by decide) b hb
  obtain ⟨_,hused,hpeak⟩ := perfect_dedup mixedRun m hr ha hinj hc
  rw [slotsInUse,hnext,hfree] at hused
  rw [hnext] at hpeak
  exact ⟨m,hr,ha,hinj,hc,hused.symm,hpeak.symm⟩

end Samples

end ArchivalDedup.PerfectDedup
