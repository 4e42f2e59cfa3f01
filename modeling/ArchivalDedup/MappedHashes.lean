import ArchivalDedup.RemountSafety

/-!
# The file table, by the hashes of its objects

`mappedHash` forgets where an object lies and keeps the hash that a file block
stands for. Each operation that runs alone changes it the way it would change a
plain table of blocks.
-/

set_option autoImplicit false

namespace ArchivalDedup.MappedHashes
open ArchivalDedup.FiniteTable ArchivalDedup.MetaIndex ArchivalDedup.WriteDedup
open ArchivalDedup.Passthrough ArchivalDedup.PlanShape ArchivalDedup.Ledger
open ArchivalDedup.LedgerLoops ArchivalDedup.FlushRuns ArchivalDedup.ReferenceSafety
open ArchivalDedup.Content
open ArchivalDedup.Extents ArchivalDedup.SequentialWrite ArchivalDedup.Remount
open ArchivalDedup.LoopFrames

variable {sha512 : List UInt8 → Hash} {r : WriteReq} {c c₀ : Context} {path : Path}

def mappedHash (c : Context) (k : BlockIndice) : Option Hash :=
  (find c.fileToMaster k).map (fun a => (c.cell a).hash)

theorem mappedHash_congr {c d : Context} (hf : d.fileToMaster = c.fileToMaster)
    (hc : ∀ a, (d.cell a).hash = (c.cell a).hash) (k : BlockIndice) :
    mappedHash d k = mappedHash c k := by
  simp only [mappedHash,hf,hc]

theorem mappedHash_removeBatch (path : Path) (startBlock endBlock : ℕ) (c : Context)
    (k : BlockIndice) : mappedHash (removeBlocksDedupBatch path startBlock endBlock c) k =
      if k.path = path ∧ startBlock ≤ k.offset ∧ k.offset < endBlock then none
      else mappedHash c k := by
  have hfind : find (removeBlocksDedupBatch path startBlock endBlock c).fileToMaster k = _ :=
    removeBlocks_find path (endBlock-startBlock) startBlock c [] k
  have hhash : ∀ b, ((removeBlocksDedupBatch path startBlock endBlock c).cell b).hash =
      (c.cell b).hash := (frame_removeBlocks path (endBlock-startBlock) startBlock c []).hash
  have hiff : (k.path = path ∧ startBlock ≤ k.offset ∧
      k.offset < startBlock+(endBlock-startBlock)) ↔
      (k.path = path ∧ startBlock ≤ k.offset ∧ k.offset < endBlock) := by
    constructor <;> rintro ⟨h₁,h₂,h₃⟩ <;> exact ⟨h₁,h₂,by omega⟩
  simp only [mappedHash,hfind,hhash,hiff]
  split_ifs <;> rfl

theorem removeBatch_sizes (path : Path) (startBlock endBlock : ℕ) (c : Context) :
    (removeBlocksDedupBatch path startBlock endBlock c).fileToSizes = c.fileToSizes :=
  (frame_removeBlocks path (endBlock-startBlock) startBlock c []).fileToSizes

theorem covered_offset (h : InsideSizes c) {k : BlockIndice} {x : Hash} (hk : mappedHash c k = some x) :
    k.offset*blockSize < (find c.fileToSizes k.path).getD 0 := by
  obtain ⟨a,ha,_⟩ := Option.map_eq_some_iff.mp hk
  obtain ⟨size,hs,hlt⟩ := h k.path k.offset a ha
  rw [hs]
  exact hlt

theorem unlinkIndex_hash (h : InsideSizes c) (k : BlockIndice) :
    mappedHash (unlinkIndex path c) k = if k.path = path then none else mappedHash c k := by
  unfold unlinkIndex unlinkExtent
  cases hs : find c.fileToSizes path with
  | none =>
    split_ifs with hp
    · cases hk : mappedHash c k with
      | none => exact hk
      | some x =>
        have := covered_offset h hk
        rw [hp,hs] at this
        simp at this
    · rfl
  | some size =>
    change mappedHash (removeBlocksDedupBatch path 0 (blockCount size) c) k = _
    rw [mappedHash_removeBatch]
    by_cases hp : k.path = path
    · rw [if_pos hp]
      split_ifs with hin
      · rfl
      · cases hk : mappedHash c k with
        | none => rfl
        | some x =>
          have := covered_offset h hk
          rw [hp,hs] at this
          exact absurd ⟨hp,Nat.zero_le _,(lt_blockCount _ _).mpr this⟩ hin
    · rw [if_neg hp,if_neg (fun hin => hp hin.1)]

theorem unlinkIndex_sizes (c : Context) (p : Path) :
    find (unlinkIndex path c).fileToSizes p = if p = path then none else find c.fileToSizes p := by
  unfold unlinkIndex unlinkExtent
  cases hs : find c.fileToSizes path with
  | none =>
    split_ifs with hp
    · rw [hp]
      exact hs
    · rfl
  | some size =>
    change find ((removeBlocksDedupBatch path 0 (blockCount size) c).fileToSizes.erase path) p = _
    rw [removeBatch_sizes,find_erase]

theorem truncateIndex_hash {size : ℕ} (h : InsideSizes c) (hs : size ≤ (find c.fileToSizes path).getD 0)
    (k : BlockIndice) : mappedHash (truncateIndex path size c) k =
      if k.path = path ∧ size ≤ k.offset*blockSize then none else mappedHash c k := by
  have hsame : (find c.fileToSizes path).getD 0 ≤ size →
      mappedHash c k = if k.path = path ∧ size ≤ k.offset*blockSize then none else mappedHash c k := by
    intro hle
    split_ifs with hin
    · cases hk : mappedHash c k with
      | none => rfl
      | some x =>
        have := covered_offset h hk
        rw [hin.1] at this
        omega
    · rfl
  unfold truncateIndex truncateExtent
  cases hf : find c.fileToSizes path with
  | none =>
    refine hsame ?_
    rw [hf]
    exact Nat.zero_le size
  | some ls =>
    by_cases hlt : size < ls
    · have hshrink : ∀ d : Context, mappedHash (shrinkSize path size d) k = mappedHash d k := by
        intro d
        unfold shrinkSize
        split
        · rfl
        · split_ifs <;> rfl
      simp only [if_pos hlt,hshrink,mappedHash_removeBatch]
      have hcount := lt_blockCount k.offset size
      by_cases hin : k.path = path ∧ size ≤ k.offset*blockSize
      · rw [if_pos hin]
        by_cases hold : k.path = path ∧ blockCount size ≤ k.offset ∧ k.offset < blockCount ls
        · rw [if_pos hold]
        · rw [if_neg hold]
          cases hk : mappedHash c k with
          | none => rfl
          | some x =>
            have := covered_offset h hk
            rw [hin.1,hf] at this
            exact absurd ⟨hin.1,by omega,(lt_blockCount _ _).mpr this⟩ hold
      · rw [if_neg hin,if_neg]
        rintro ⟨hp,hge,_⟩
        exact hin ⟨hp,by omega⟩
    · simp only [if_neg hlt]
      refine hsame ?_
      rw [hf]
      exact Nat.le_of_not_lt hlt

theorem truncateIndex_sizes {size : ℕ} (hs : size ≤ (find c.fileToSizes path).getD 0) (p : Path) :
    (find (truncateIndex path size c).fileToSizes p).getD 0 =
      (if p = path then size else (find c.fileToSizes p).getD 0) ∧
    (find (truncateIndex path size c).fileToSizes p = none → find c.fileToSizes p = none) := by
  unfold truncateIndex truncateExtent
  cases hf : find c.fileToSizes path with
  | none =>
    refine ⟨?_,id⟩
    rw [hf] at hs
    split_ifs with hp
    · subst hp
      change (find c.fileToSizes p).getD 0 = size
      rw [hf]
      exact (Nat.le_zero.mp hs).symm
    · rfl
  | some ls =>
    rw [hf] at hs
    simp only
    split_ifs with hlt hp hp
    · subst hp
      simp only [shrinkSize,removeBatch_sizes,hf,if_pos hlt,find_insert]
      simp
    · simp only [shrinkSize,removeBatch_sizes,hf,if_pos hlt,find_insert,if_neg hp]
      exact ⟨trivial,id⟩
    · subst hp
      refine ⟨?_,id⟩
      change (find c.fileToSizes p).getD 0 = size
      rw [hf]
      exact Nat.le_antisymm (Nat.le_of_not_lt hlt) hs
    · exact ⟨rfl,id⟩

theorem narrows_unlinkIndex (path : Path) (c : Context) : Narrows c (unlinkIndex path c) := by
  unfold unlinkIndex
  split
  · exact narrows_refl c
  · next numBlocks _ => exact narrows_removeBlocks path (numBlocks-0) 0 c []

theorem narrows_truncateIndex (path : Path) (size : ℕ) (c : Context) :
    Narrows c (truncateIndex path size c) := by
  unfold truncateIndex
  split
  · exact narrows_refl c
  · next newBlockCount oldBlockCount _ =>
    have hn : Narrows c (removeBlocksDedupBatch path newBlockCount oldBlockCount c) :=
      narrows_removeBlocks path (oldBlockCount-newBlockCount) newBlockCount c []
    unfold shrinkSize
    split
    · exact hn
    · split_ifs <;> exact hn

theorem covered_unlinkIndex (h : InsideSizes c) : InsideSizes (unlinkIndex path c) := by
  intro p b a hb
  have hk : mappedHash (unlinkIndex path c) ⟨p,b⟩ ≠ none := by simp [mappedHash,hb]
  rw [unlinkIndex_hash h] at hk
  split_ifs at hk with hp
  · exact absurd rfl hk
  obtain ⟨x,hx⟩ := Option.ne_none_iff_exists'.mp hk
  obtain ⟨a',ha',_⟩ := Option.map_eq_some_iff.mp hx
  rw [unlinkIndex_sizes,if_neg hp]
  exact h p b a' ha'

theorem covered_truncateIndex {size : ℕ} (h : InsideSizes c)
    (hs : size ≤ (find c.fileToSizes path).getD 0) : InsideSizes (truncateIndex path size c) := by
  intro p b a hb
  have hk : mappedHash (truncateIndex path size c) ⟨p,b⟩ ≠ none := by simp [mappedHash,hb]
  rw [truncateIndex_hash h hs] at hk
  split_ifs at hk with hin
  · exact absurd rfl hk
  obtain ⟨x,hx⟩ := Option.ne_none_iff_exists'.mp hk
  have hlt := covered_offset h hx
  have hsize := (truncateIndex_sizes hs p).1
  have hb' : b*blockSize < (find (truncateIndex path size c).fileToSizes p).getD 0 := by
    rw [hsize]
    split_ifs with hp
    · exact Nat.lt_of_not_le (fun hle => hin ⟨hp,hle⟩)
    · exact hlt
  cases hf : find (truncateIndex path size c).fileToSizes p with
  | none =>
    rw [hf] at hb'
    simp at hb'
  | some n =>
    rw [hf] at hb'
    exact ⟨n,rfl,hb'⟩

/-! ## Pass 3 alone -/

theorem publishPlan_entries (plan : List PlanEntry) (c : Context) (slots : List ℕ)
    (hh : ∀ e ∈ plan, e.kind = .miss → (c.cell e.info).hash = e.hash)
    (hu : ∀ e ∈ plan, e.kind = .miss → find c.hashToMaster e.hash = none)
    (hd : MissDistinct plan) : (publishPlan plan c slots).2.2 = plan := by
  induction plan generalizing c slots with
  | nil => rfl
  | cons e es ih =>
    obtain ⟨hd₁,hd₂⟩ := List.pairwise_cons.mp hd
    cases hk : e.kind with
    | hit =>
      simp only [publishPlan,publishEntry_hit c slots hk]
      rw [ih c slots (fun f hf => hh f (by simp [hf])) (fun f hf => hu f (by simp [hf])) hd₂]
    | miss =>
      have hhash := hh e (by simp) hk
      simp only [publishPlan,publishEntry_win slots hk hhash (hu e (by simp) hk)]
      rw [ih (c.insertHash e.hash e.info) slots (fun f hf => hh f (by simp [hf])) ?_ hd₂]
      intro f hf hfk
      change find (c.hashToMaster.insert e.hash e.info) f.hash = none
      rw [find_insert,if_neg (fun heq => hd₁ f hf hk hfk heq.symm)]
      exact hu f (by simp [hf]) hfk

theorem mapPlan_other (path : Path) (plan : List PlanEntry) (c : Context) (slots : List ℕ)
    (k : BlockIndice) (hk : ∀ e ∈ plan, k ≠ ⟨path,e.logicalBlk⟩) :
    find (mapPlan path plan c slots).1.fileToMaster k = find c.fileToMaster k := by
  induction plan generalizing c slots with
  | nil => rfl
  | cons e es ih =>
    refine (ih _ _ (fun f hf => hk f (by simp [hf]))).trans ?_
    rw [(mapEntry_tables path c slots e).1,find_insert,if_neg (hk e (by simp))]

theorem mapPlan_self (path : Path) (plan : List PlanEntry) (c : Context) (slots : List ℕ)
    (hn : (plan.map PlanEntry.logicalBlk).Nodup) {e : PlanEntry} (he : e ∈ plan) :
    find (mapPlan path plan c slots).1.fileToMaster ⟨path,e.logicalBlk⟩ = some e.info := by
  induction plan generalizing c slots with
  | nil => cases he
  | cons f fs ih =>
    obtain ⟨hf,hfs⟩ := List.nodup_cons.mp hn
    rcases List.mem_cons.mp he with rfl | he
    · refine (mapPlan_other path fs _ _ _ ?_).trans ?_
      · intro g hg heq
        have : e.logicalBlk = g.logicalBlk := congrArg BlockIndice.offset heq
        exact hf (List.mem_map.mpr ⟨g,hg,this.symm⟩)
      · rw [(mapEntry_tables path c slots e).1,find_insert,if_pos rfl]
    · exact ih _ _ hfs he

theorem formed_blocks {plan : List PlanEntry} (h : Formed sha512 r plan) :
    plan.map PlanEntry.logicalBlk = (List.range plan.length).map (r.startBlock+·) := by
  apply List.ext_getElem
  · simp
  · intro i h₁ h₂
    have hi : i < plan.length := by simpa using h₁
    have := (h i plan[i] (List.getElem?_eq_getElem hi)).1
    simpa using this

/-- Pass 3 of a call that runs alone maps the blocks of the request and leaves
all others as they were when the call started. -/
theorem consolidate_hash {ps : List Party} {t : List PlanEntry × Context × Option Errno}
    (h₀ : Inv ∅ c₀ ps) (h : StagedAmong sha512 ps r c₀ t) (k : BlockIndice) :
    mappedHash (consolidate r t.1 t.2.1).1 k =
      if k.path = r.path ∧ r.startBlock ≤ k.offset ∧ k.offset < r.startBlock+r.numBlocks
      then some (sha512 (r.block (k.offset-r.startBlock))) else mappedHash c₀ k := by
  have hentries := publishPlan_entries t.1 t.2.1 [] (fun e he _ => (h.planned.hashes e he).2)
    h.planned.unindexed h.shape.2.1
  have htables := publishPlan_fileToMaster t.1 t.2.1 []
  have hframe := frame_pass3 r.path t.1 t.2.1
  set u := publishPlan t.1 t.2.1 [] with hu
  set v := mapPlan r.path u.2.2 u.1 u.2.1 with hv
  obtain ⟨_,g₂,g₃,_⟩ := growSize_keeps v.1 r.path r.newEnd
  have hgrow : mappedHash (consolidate r t.1 t.2.1).1 k = mappedHash v.1 k :=
    mappedHash_congr g₂ (fun a => congrArg (fun x : Heap => (x.cell a).hash) g₃) k
  have hcell : ∀ a, (v.1.cell a).hash = (t.2.1.cell a).hash := hframe.hash
  have hblocks := formed_blocks h.shape.1
  rw [h.shape.2.2] at hblocks
  rw [hgrow]
  split_ifs with hin
  · obtain ⟨hp,hlo,hhi⟩ := hin
    obtain ⟨e,he,hblk⟩ : ∃ e ∈ t.1, e.logicalBlk = k.offset := by
      refine List.mem_map.mp ?_
      rw [hblocks]
      exact List.mem_map.mpr ⟨k.offset-r.startBlock,List.mem_range.mpr (by omega),by omega⟩
    have hnd : (u.2.2.map PlanEntry.logicalBlk).Nodup := by
      rw [hentries,hblocks]
      exact List.nodup_range.map (fun a b hab => Nat.add_left_cancel hab)
    have hfind := mapPlan_self r.path u.2.2 u.1 u.2.1 hnd (hentries ▸ he)
    obtain ⟨j,hj⟩ := List.mem_iff_getElem?.mp he
    obtain ⟨hjb,_,hjh⟩ := h.shape.1 j e hj
    have hkey : k = ⟨r.path,e.logicalBlk⟩ := by rw [←hp,hblk]
    have hidx : k.offset-r.startBlock = j := by omega
    rw [hidx,mappedHash,hkey,hfind,Option.map_some,hcell,(h.planned.hashes e he).2,hjh]
  · have hother := mapPlan_other r.path u.2.2 u.1 u.2.1 k (by
      rw [hentries]
      rintro e he rfl
      refine hin ⟨rfl,?_⟩
      have : e.logicalBlk ∈ t.1.map PlanEntry.logicalBlk := List.mem_map.mpr ⟨e,he,rfl⟩
      rw [hblocks] at this
      obtain ⟨j,hj,hje⟩ := List.mem_map.mp this
      have := List.mem_range.mp hj
      change r.startBlock ≤ e.logicalBlk ∧ e.logicalBlk < r.startBlock+r.numBlocks
      omega)
    have hfile : find v.1.fileToMaster k = find c₀.fileToMaster k := by
      rw [hother,htables,h.planned.fileToMaster]
    unfold mappedHash
    rw [hfile]
    cases hk : find c₀.fileToMaster k with
    | none => rfl
    | some a =>
      have hl := (mapped_published h₀ hk).1
      rw [Option.map_some,Option.map_some,hcell,(h.planned.kept a hl).2.1]

theorem growSize_find (c : Context) (path : Path) (n : ℕ) (p : Path) :
    find (growSize c path n).fileToSizes p =
      if p = path then some (max ((find c.fileToSizes path).getD 0) n)
      else find c.fileToSizes p := by
  unfold growSize
  cases hs : find c.fileToSizes path with
  | none =>
    simp only [find_insert]
    split_ifs <;> simp
  | some size =>
    simp only
    split_ifs with hn hp hp
    · simp only [find_insert,if_pos hp,Option.getD_some]
      rw [Nat.max_eq_right (Nat.le_of_lt hn)]
    · simp only [find_insert,if_neg hp]
    · rw [hp,hs,Option.getD_some,Nat.max_eq_left (Nat.le_of_not_lt hn)]
    · rfl

theorem consolidate_find (r : WriteReq) (plan : List PlanEntry) (c : Context) (p : Path) :
    find (consolidate r plan c).1.fileToSizes p =
      if p = r.path then some (max ((find c.fileToSizes r.path).getD 0) r.newEnd)
      else find c.fileToSizes p := by
  have hkeep := (frame_pass3 r.path plan c).fileToSizes
  unfold consolidate
  dsimp only
  rw [growSize_find,hkeep]

theorem stageWrite_complete {env : Env} (hio : ∀ j, env.io j = .complete) (c : Context) :
    (stageWrite sha512 env r c).2.2 = none := by
  unfold stageWrite allocateAndFlush
  dsimp only
  split_ifs
  · exact flushPlan_complete r hio _ _
  · rfl

theorem stored_staged {ps : List Party} {good : Hash → List UInt8 → Prop} (h₀ : Inv ∅ c₀ ps)
    {t : List PlanEntry × Context × Option Errno} (h : StagedAmong sha512 ps r c₀ t)
    (hs : Stored good c₀) : Stored good t.2.1 := by
  intro k a hk
  have hk₀ : find c₀.hashToMaster k = some a := by
    rw [←h.planned.hashToMaster]
    exact hk
  have hl := (h₀.keyed k a hk₀).2.1
  have hpub : Published t.2.1 a := by
    rw [Published,(h.ledger.keyed k a hk).1]
    exact hk
  have hslot := (published_slot_unclaimed h.ledger hpub).2 _ (List.mem_cons_self ..)
  rw [h.spares _ hslot,(h.planned.kept a hl).2.2]
  exact hs k a hk₀

section Counts

def mappedCount (c : Context) (x : Hash) : ℕ :=
  (valuesBy (fun a => (c.cell a).hash) c.fileToMaster).count x

theorem mappedCount_congr {d : Context} (h : ∀ k, mappedHash d k = mappedHash c k) (x : Hash) :
    mappedCount d x = mappedCount c x := (values_by_perm _ _ _ _ h).count_eq x

theorem mappedCount_pos (c : Context) (x : Hash) :
    0 < mappedCount c x ↔ ∃ k, mappedHash c k = some x := by
  rw [mappedCount,List.count_pos_iff,mem_values_by]
  constructor
  · rintro ⟨k,a,hk,rfl⟩
    exact ⟨k,by rw [mappedHash,hk]; rfl⟩
  · rintro ⟨k,hk⟩
    obtain ⟨a,ha,rfl⟩ := Option.map_eq_some_iff.mp hk
    exact ⟨k,a,ha,rfl⟩

def mappedKeys (c : Context) (x : Hash) : List BlockIndice :=
  (c.fileToMaster.entries.filter (fun e => (c.cell e.2).hash = x)).map Sigma.fst

theorem mem_mappedKeys (c : Context) (x : Hash) (k : BlockIndice) :
    k ∈ mappedKeys c x ↔ mappedHash c k = some x := by
  rw [mappedKeys,List.mem_map,mappedHash,Option.map_eq_some_iff]
  constructor
  · rintro ⟨⟨j,a⟩,hm,rfl⟩
    obtain ⟨hm,hx⟩ := List.mem_filter.mp hm
    exact ⟨a,(mem_entries_iff _ j a).mp hm,of_decide_eq_true hx⟩
  · rintro ⟨a,ha,hx⟩
    exact ⟨⟨k,a⟩,List.mem_filter.mpr ⟨(mem_entries_iff _ k a).mpr ha,decide_eq_true hx⟩,rfl⟩

theorem mappedKeys_nodup (c : Context) (x : Hash) : (mappedKeys c x).Nodup :=
  List.Nodup.sublist (List.filter_sublist.map Sigma.fst) c.fileToMaster.nodupKeys

theorem mappedKeys_length (c : Context) (x : Hash) : (mappedKeys c x).length = mappedCount c x := by
  rw [mappedKeys,List.length_map,←List.countP_eq_length_filter,mappedCount,valuesBy,List.count,
    List.countP_map]
  rfl

theorem mappedCount_published (h : Inv ∅ c []) {x : Hash} {a : Ptr}
    (hx : find c.hashToMaster x = some a) : mappedCount c x = occurrences c.fileToMaster a := by
  unfold mappedCount occurrences valuesBy
  rw [List.count,List.countP_map]
  apply List.countP_congr
  rintro ⟨k,b⟩ hm
  have hk := (mem_entries_iff c.fileToMaster k b).mp hm
  have hp : find c.hashToMaster (c.cell b).hash = some b := (mapped_published h hk).2
  simp only [Function.comp_apply,beq_iff_eq,decide_eq_true_eq]
  constructor
  · rintro rfl
    exact Option.some.inj (hp.symm.trans hx)
  · rintro rfl
    exact (h.keyed x b hx).1

/-- Between calls the table of hashes is determined by what is mapped. -/
theorem counters_mapped (h : Inv ∅ c []) (x : Hash) :
    (find c.hashToMaster x).map (fun a => (c.cell a).refcount) =
      if mappedCount c x = 0 then none else some (mappedCount c x) := by
  cases hx : find c.hashToMaster x with
  | none =>
    have hz : mappedCount c x = 0 := by
      by_contra hne
      obtain ⟨k,hk⟩ := (mappedCount_pos c x).mp (Nat.pos_of_ne_zero hne)
      obtain ⟨a,ha,rfl⟩ := Option.map_eq_some_iff.mp hk
      have hp : find c.hashToMaster (c.cell a).hash = some a := (mapped_published h ha).2
      rw [hx] at hp
      cases hp
    rw [if_pos hz]
    rfl
  | some a =>
    have hl := (h.keyed x a hx).2.1
    have hcount := h.counted a hl
    have hpos := h.positive a hl
    simp only [refs,heldRefs_nil,Nat.add_zero] at hcount hpos
    rw [mappedCount_published h hx,if_neg (Nat.ne_of_gt hpos),Option.map_some,hcount]

end Counts

end ArchivalDedup.MappedHashes
