import ArchivalDedup.Content

/-!
# Mapped blocks and recorded sizes

`unlink` and `truncate` decide under one lock how many blocks to remove, remove
them under a second and change the size under a third. From the first section
to the last such a call relies on a limit that no mapped block of its path
reaches. A write whose pass 3 stays below the limits in force keeps every mapped
block inside the recorded size.
-/

set_option autoImplicit false

namespace ArchivalDedup.Extents
open ArchivalDedup.FiniteTable ArchivalDedup.MetaIndex ArchivalDedup.WriteDedup
open ArchivalDedup.Passthrough ArchivalDedup.PlanShape ArchivalDedup.LedgerPasses
open ArchivalDedup.LedgerLoops ArchivalDedup.Threads ArchivalDedup.ThreadLedger
open ArchivalDedup.ReferenceSafety ArchivalDedup.Content ArchivalDedup.Interleaving
open ArchivalDedup.LoopFrames

/-- The path a call is shrinking and the number of blocks it relies on. -/
def limit : Stage → Option (Path × ℕ)
  | .unlinkRemove path numBlocks => some (path,numBlocks)
  | .unlinkConcat path _ => some (path,0)
  | .unlinkDropSize path => some (path,0)
  | .truncateRemove path _ _ oldBlockCount => some (path,oldBlockCount)
  | .truncateConcat path size _ => some (path,blockCount size)
  | .truncateShrink path size => some (path,blockCount size)
  | _ => none

def mapsAt : Stage → Option WriteReq
  | .consolidate r _ => some r
  | _ => none

/-- A pass 3 stays below the limits of the calls that are shrinking its path. -/
def FitsLimits (s : System) (a : Action) : Prop :=
  ∀ st ∈ stageOf s a, ∀ r ∈ mapsAt st, ∀ q ∈ s.procs, ∀ l ∈ limit q,
    l.1 = r.path → r.startBlock+r.numBlocks ≤ l.2

instance (s : System) (a : Action) : Decidable (FitsLimits s a) :=
  inferInstanceAs (Decidable (∀ st ∈ stageOf s a, ∀ r ∈ mapsAt st, ∀ q ∈ s.procs, ∀ l ∈ limit q,
    l.1 = r.path → r.startBlock+r.numBlocks ≤ l.2))

/-- Every mapped block lies inside the recorded size of its path. -/
def InsideSizes (c : Context) : Prop :=
  ∀ path b a, find c.fileToMaster ⟨path,b⟩ = some a →
    ∃ size, find c.fileToSizes path = some size ∧ b*blockSize < size

def Below (c : Context) (path : Path) (n : ℕ) : Prop :=
  ∀ b a, find c.fileToMaster ⟨path,b⟩ = some a → b < n

def Rounded : Stage → Prop
  | .truncateRemove _ size newBlockCount _ => newBlockCount = blockCount size
  | _ => True

structure SizesInv (s : System) : Prop where
  covered : InsideSizes s.ctx
  limited : ∀ st ∈ s.procs, ∀ l ∈ limit st, Below s.ctx l.1 l.2
  rounded : ∀ st ∈ s.procs, Rounded st

theorem lt_blockCount (b size : ℕ) : b < blockCount size ↔ b*blockSize < size := by
  have hpos := blockSize_pos
  unfold blockCount
  rw [Nat.lt_iff_add_one_le,Nat.le_div_iff_mul_le hpos,Nat.succ_mul]
  omega

theorem removeBlock_find (path : Path) (i : ℕ) (c : Context) (slots : List ℕ) (k : BlockIndice) :
    find (removeBlock path i c slots).1.fileToMaster k =
      if k = ⟨path,i⟩ then none else find c.fileToMaster k := by
  unfold removeBlock Context.lookupByFileBlock
  cases hk : find c.fileToMaster ⟨path,i⟩ with
  | none =>
    split_ifs with h
    · rw [h]
      exact hk
    · rfl
  | some info =>
    change find ((c.removeFileBlock path i).dropReference slots info).1.fileToMaster k = _
    rw [(dropReference_keeps _ slots info).1]
    exact find_erase c.fileToMaster k ⟨path,i⟩

theorem removeBlocks_find (path : Path) (n i : ℕ) (c : Context) (slots : List ℕ)
    (k : BlockIndice) : find (removeBlocks path n i c slots).1.fileToMaster k =
      if k.path = path ∧ i ≤ k.offset ∧ k.offset < i+n then none else find c.fileToMaster k := by
  induction n generalizing i c slots with
  | zero =>
    rw [if_neg (by omega)]
    rfl
  | succ n ih =>
    simp only [removeBlocks]
    rw [ih,removeBlock_find]
    obtain ⟨p,b⟩ := k
    by_cases hp : p = path
    · simp only [BlockIndice.mk.injEq,hp,true_and]
      split_ifs <;> first | rfl | omega
    · simp only [BlockIndice.mk.injEq,hp,false_and,if_false]

theorem publishPlan_blocks (plan : List PlanEntry) (c : Context) (slots : List ℕ) :
    (publishPlan plan c slots).2.2.map PlanEntry.logicalBlk = plan.map PlanEntry.logicalBlk := by
  induction plan generalizing c slots with
  | nil => rfl
  | cons e es ih =>
    have hone : (publishEntry c slots e).2.2.logicalBlk = e.logicalBlk := by
      unfold publishEntry
      split
      · rfl
      · split <;> rfl
    simp only [publishPlan,List.map_cons,hone,ih]

theorem mapEntry_tables (path : Path) (c : Context) (slots : List ℕ) (e : PlanEntry) :
    (mapEntry path c slots e).1.fileToMaster =
        c.fileToMaster.insert ⟨path,e.logicalBlk⟩ e.info ∧
      (mapEntry path c slots e).1.fileToSizes = c.fileToSizes := by
  cases hk : find c.fileToMaster ⟨path,e.logicalBlk⟩ with
  | none =>
    rw [mapEntry_new slots hk]
    exact ⟨rfl,rfl⟩
  | some old =>
    rw [mapEntry_old slots hk]
    obtain ⟨h₁,h₂⟩ := dropReference_keeps c slots old
    refine ⟨?_,h₂⟩
    simp only [Context.insertFileBlock,h₁]

theorem mapPlan_mapped (path : Path) (plan : List PlanEntry) (c : Context) (slots : List ℕ)
    {k : BlockIndice} {a : Ptr} (h : find (mapPlan path plan c slots).1.fileToMaster k = some a) :
    find c.fileToMaster k = some a ∨ ∃ b ∈ plan.map PlanEntry.logicalBlk, k = ⟨path,b⟩ := by
  induction plan generalizing c slots with
  | nil => exact Or.inl h
  | cons e es ih =>
    rcases ih (mapEntry path c slots e).1 (mapEntry path c slots e).2 h with h | ⟨b,hb,hk⟩
    · rw [(mapEntry_tables path c slots e).1,find_insert] at h
      split_ifs at h with hk
      · exact Or.inr ⟨e.logicalBlk,by simp,hk⟩
      · exact Or.inl h
    · exact Or.inr ⟨b,by simp only [List.map_cons]; exact List.mem_cons_of_mem _ hb,hk⟩

theorem growSize_covers (c : Context) (path : Path) (n : ℕ) :
    (∀ p size, find c.fileToSizes p = some size →
      ∃ size', find (growSize c path n).fileToSizes p = some size' ∧ size ≤ size') ∧
    ∃ size, find (growSize c path n).fileToSizes path = some size ∧ n ≤ size := by
  unfold growSize
  cases hs : find c.fileToSizes path with
  | none =>
    refine ⟨?_,n,by simp [find_insert],Nat.le_refl n⟩
    intro p size hp
    refine ⟨size,?_,Nat.le_refl size⟩
    rw [find_insert,if_neg]
    · exact hp
    · rintro rfl
      rw [hs] at hp
      cases hp
  | some old =>
    simp only
    split_ifs with hn
    · refine ⟨?_,n,by simp [find_insert],Nat.le_refl n⟩
      intro p size hp
      by_cases heq : p = path
      · subst heq
        refine ⟨n,by simp [find_insert],?_⟩
        rw [hs] at hp
        cases hp
        omega
      · exact ⟨size,by rw [find_insert,if_neg heq]; exact hp,Nat.le_refl size⟩
    · exact ⟨fun p size hp => ⟨size,hp,Nat.le_refl size⟩,old,hs,by omega⟩

section Consolidate

variable {sha512 : List UInt8 → Hash} {r : WriteReq} {plan : List PlanEntry}

theorem consolidate_mapped (hok : PlanOk sha512 r plan) (c : Context) {k : BlockIndice} {a : Ptr}
    (h : find (consolidate r plan c).1.fileToMaster k = some a) :
    find c.fileToMaster k = some a ∨ (k.path = r.path ∧ k.offset < r.startBlock+r.numBlocks) := by
  unfold consolidate at h
  dsimp only at h
  rw [(growSize_keeps _ r.path r.newEnd).2.1] at h
  rcases mapPlan_mapped r.path _ _ _ h with h | ⟨b,hb,rfl⟩
  · rw [publishPlan_fileToMaster] at h
    exact Or.inl h
  · rw [publishPlan_blocks] at hb
    obtain ⟨e,he,rfl⟩ := List.mem_map.mp hb
    obtain ⟨i,hi⟩ := List.mem_iff_getElem?.mp he
    have hlt := (List.getElem?_eq_some_iff.mp hi).1
    have hblk := (hok.1 i e hi).1
    refine Or.inr ⟨rfl,?_⟩
    have := hok.2.2
    simp only
    omega

theorem consolidate_sizes (r : WriteReq) (plan : List PlanEntry) (c : Context) :
    (∀ p size, find c.fileToSizes p = some size →
      ∃ size', find (consolidate r plan c).1.fileToSizes p = some size' ∧ size ≤ size') ∧
    ∃ size, find (consolidate r plan c).1.fileToSizes r.path = some size ∧ r.newEnd ≤ size := by
  have hkeep := (frame_pass3 r.path plan c).fileToSizes
  have h := growSize_covers (mapPlan r.path (publishPlan plan c []).2.2 (publishPlan plan c []).1
    (publishPlan plan c []).2.1).1 r.path r.newEnd
  rw [hkeep] at h
  exact h

theorem covered_consolidate (hok : PlanOk sha512 r plan) {c : Context} (h : InsideSizes c) :
    InsideSizes (consolidate r plan c).1 := by
  obtain ⟨hgrow,size,hsize,hend⟩ := consolidate_sizes r plan c
  intro path b a hb
  rcases consolidate_mapped hok c hb with hb | ⟨hp,hlt⟩
  · obtain ⟨old,hold,hlt⟩ := h path b a hb
    obtain ⟨new,hnew,hle⟩ := hgrow path old hold
    exact ⟨new,hnew,by omega⟩
  · simp only at hp hlt
    subst hp
    refine ⟨size,hsize,?_⟩
    have : b*blockSize < (r.startBlock+r.numBlocks)*blockSize :=
      Nat.mul_lt_mul_of_pos_right hlt blockSize_pos
    exact Nat.lt_of_lt_of_le this hend

end Consolidate

section Steps

variable {sha512 : List UInt8 → Hash} {qsort : List ReadDedup.BlockPair → List ReadDedup.BlockPair}
variable {c : Context} {ch : Choice}

theorem pass1Block_tables (r : WriteReq) (a : Ptr) (c : Context) (p : Pass1) :
    (pass1Block sha512 r a c p).1.fileToMaster = c.fileToMaster ∧
      (pass1Block sha512 r a c p).1.fileToSizes = c.fileToSizes := by
  unfold pass1Block
  dsimp only
  split <;> exact ⟨rfl,rfl⟩

theorem flushStep_tables (r : WriteReq) (plan : List PlanEntry) (i : ℕ) (io : PwriteResult)
    (c : Context) : (flushStep r plan i io c).1.toIndex = c.toIndex ∧
      limit (flushStep r plan i io c).2 = none ∧ Rounded (flushStep r plan i io c).2 := by
  unfold flushStep
  split
  · exact ⟨rfl,rfl,trivial⟩
  · split <;> exact ⟨rfl,rfl,trivial⟩

theorem lookupStep_limit (r : ReadDedup.ReadReq) (pairs : List ReadDedup.BlockPair)
    (buf : ReadDedup.Buffer) (c : Context) : limit (lookupStep qsort r pairs buf c) = none ∧
      Rounded (lookupStep qsort r pairs buf c) := by
  have hend : limit (endLookup qsort r pairs buf) = none ∧
      Rounded (endLookup qsort r pairs buf) := by
    unfold endLookup
    split_ifs <;> exact ⟨rfl,trivial⟩
  unfold lookupStep
  split
  · split
    · exact ⟨rfl,trivial⟩
    · exact hend
  · exact hend

theorem readStep_limit (r : ReadDedup.ReadReq) (pairs : List ReadDedup.BlockPair) (g : ℕ)
    (buf : ReadDedup.Buffer) (c : Context) : limit (readStep r pairs g buf c) = none ∧
      Rounded (readStep r pairs g buf c) := by
  simp only [readStep]
  split
  · exact ⟨rfl,trivial⟩
  · split <;> exact ⟨rfl,trivial⟩

/-- What one step owes to the extents: mapped blocks stay covered, the call's
own limit holds next, and limits of others hold unless a pass 3 breaks them. -/
structure Respects (c : Context) (st : Stage) (d : Context × Stage) : Prop where
  covered : InsideSizes d.1
  limited : ∀ l ∈ limit d.2, Below d.1 l.1 l.2
  rounded : Rounded d.2
  others : ∀ path n, Below c path n →
    (∀ r ∈ mapsAt st, path = r.path → r.startBlock+r.numBlocks ≤ n) → Below d.1 path n

theorem respects_same {st : Stage} {d : Context × Stage} (hcov : InsideSizes c)
    (hf : d.1.fileToMaster = c.fileToMaster) (hz : d.1.fileToSizes = c.fileToSizes)
    (hl : ∀ l ∈ limit d.2, Below c l.1 l.2) (hr : Rounded d.2) : Respects c st d := by
  have hb : ∀ path n, Below c path n → Below d.1 path n := by
    intro path n h b a hk
    rw [hf] at hk
    exact h b a hk
  refine ⟨?_,fun l hm => hb _ _ (hl l hm),hr,fun path n h _ => hb path n h⟩
  intro path b a hk
  rw [hf] at hk
  rw [hz]
  exact hcov path b a hk

theorem covered_below {path : Path} {size : ℕ} (h : InsideSizes c)
    (hs : find c.fileToSizes path = some size) : Below c path (blockCount size) := by
  intro b a hk
  obtain ⟨size',hs',hlt⟩ := h path b a hk
  rw [hs] at hs'
  cases hs'
  exact (lt_blockCount b size).mpr hlt

theorem respects_remove {path : Path} {i m : ℕ} {st st' : Stage} (hcov : InsideSizes c)
    (hm : Below c path m) (hl : limit st' = some (path,i)) (hr : Rounded st') :
    Respects c st ((removeBlocks path (m-i) i c []).1,st') := by
  have hsub : ∀ k a, find (removeBlocks path (m-i) i c []).1.fileToMaster k = some a →
      find c.fileToMaster k = some a ∧ ¬ (k.path = path ∧ i ≤ k.offset ∧ k.offset < i+(m-i)) := by
    intro k a hk
    rw [removeBlocks_find] at hk
    split_ifs at hk with h
    exact ⟨hk,h⟩
  refine ⟨?_,?_,hr,?_⟩
  · intro p b a hk
    rw [(frame_removeBlocks path (m-i) i c []).fileToSizes]
    exact hcov p b a (hsub _ a hk).1
  · intro l hl'
    rw [hl] at hl'
    cases hl'
    intro b a hk
    obtain ⟨hk,hn⟩ := hsub _ a hk
    have hb := hm b a hk
    simp only [true_and] at hn
    change b < i
    omega
  · intro p n h _ b a hk
    exact h b a (hsub _ a hk).1

section Stages

variable {path : Path} {size : ℕ} {d : Context × Stage} (hcov : InsideSizes c)
include hcov

theorem respects_pass1 {r : WriteReq} {p : Pass1}
    (hd : advance sha512 qsort ch c (.pass1 r p) = some d) : Respects c (.pass1 r p) d := by
  simp only [advance] at hd
  split_ifs at hd
  · cases hd
    obtain ⟨h₁,h₂⟩ := pass1Block_tables r ch.addr c p
    exact respects_same hcov h₁ h₂ (by simp [limit]) trivial
  · cases hd
    exact respects_same hcov rfl rfl (by simp [limit]) trivial
  · cases hd
    exact respects_same hcov rfl rfl (by simp [limit]) trivial

theorem respects_consolidate {r : WriteReq} {plan : List PlanEntry} (hok : PlanOk sha512 r plan)
    (slots : List ℕ) (res : ℕ) : Respects c (.consolidate r plan)
      ((consolidate r plan c).1,.release slots res) := by
  refine ⟨covered_consolidate hok hcov,by simp [limit],trivial,?_⟩
  intro path n h hfit b a hk
  rcases consolidate_mapped hok c hk with hk | ⟨hp,hlt⟩
  · exact h b a hk
  · have := hfit r rfl hp
    simp only at hlt
    omega

theorem respects_unlinkSize (hd : advance sha512 qsort ch c (.unlinkSize path) = some d) :
    Respects c (.unlinkSize path) d := by
  simp only [advance,unlinkExtent] at hd
  cases hs : find c.fileToSizes path with
  | none =>
    rw [hs] at hd
    cases hd
    exact respects_same hcov rfl rfl (by simp [limit]) trivial
  | some size =>
    rw [hs] at hd
    cases hd
    refine respects_same hcov rfl rfl ?_ trivial
    intro l hl
    cases hl
    exact covered_below hcov hs

theorem respects_unlinkDropSize (hnone : Below c path 0) :
    Respects c (.unlinkDropSize path) (dropSize path c,.unlinkBacking path) := by
  refine ⟨?_,by simp [limit],trivial,fun p n h _ => h⟩
  intro p b a hk
  obtain ⟨size,hs,hlt⟩ := hcov p b a hk
  refine ⟨size,?_,hlt⟩
  simp only [dropSize]
  rw [find_erase,if_neg]
  · exact hs
  · rintro rfl
    exact absurd (hnone b a hk) (Nat.not_lt_zero b)

theorem respects_truncateSize (hd : advance sha512 qsort ch c (.truncateSize path size) = some d) :
    Respects c (.truncateSize path size) d := by
  simp only [advance,truncateExtent] at hd
  cases hs : find c.fileToSizes path with
  | none =>
    rw [hs] at hd
    cases hd
    exact respects_same hcov rfl rfl (by simp [limit]) trivial
  | some ls =>
    simp only [hs] at hd
    split_ifs at hd
    · cases hd
      refine respects_same hcov rfl rfl ?_ rfl
      intro l hl
      cases hl
      exact covered_below hcov hs
    · cases hd
      exact respects_same hcov rfl rfl (by simp [limit]) trivial

omit hcov in
theorem shrinkSize_fileToMaster (path : Path) (size : ℕ) (c : Context) :
    (shrinkSize path size c).fileToMaster = c.fileToMaster := by
  unfold shrinkSize
  split
  · rfl
  · split_ifs <;> rfl

omit hcov in
theorem shrinkSize_other {p : Path} (hp : p ≠ path) (size : ℕ) (c : Context) :
    find (shrinkSize path size c).fileToSizes p = find c.fileToSizes p := by
  unfold shrinkSize
  split
  · rfl
  · split_ifs
    · rw [find_insert,if_neg hp]
    · rfl

theorem respects_truncateShrink (hbelow : Below c path (blockCount size)) :
    Respects c (.truncateShrink path size) (shrinkSize path size c,.truncateBacking path size) := by
  have hfile := shrinkSize_fileToMaster path size c
  refine ⟨?_,by simp [limit],trivial,?_⟩
  · intro p b a hk
    dsimp only at hk
    rw [hfile] at hk
    obtain ⟨ls,hs,hlt⟩ := hcov p b a hk
    by_cases hp : p = path
    · subst hp
      have hb : b*blockSize < size := (lt_blockCount b size).mp (hbelow b a hk)
      simp only [shrinkSize,hs]
      split_ifs
      · exact ⟨size,by simp [find_insert],hb⟩
      · exact ⟨ls,hs,hlt⟩
    · exact ⟨ls,(shrinkSize_other hp size c).trans hs,hlt⟩
  · intro p n h _ b a hk
    dsimp only at hk
    rw [hfile] at hk
    exact h b a hk

end Stages

theorem advance_respects {st : Stage} {d : Context × Stage} (hok : StageOk sha512 st)
    (hcov : InsideSizes c) (hlim : ∀ l ∈ limit st, Below c l.1 l.2) (hround : Rounded st)
    (hd : advance sha512 qsort ch c st = some d) : Respects c st d := by
  cases st with
  | pass1 r p => exact respects_pass1 hcov hd
  | append r plan taken =>
    cases hd
    have hix := (assignSlots_frame plan (appendSlots (missCount plan) taken c).1
      (appendSlots (missCount plan) taken c).2).1
    exact respects_same hcov (congrArg Index.fileToMaster hix) (congrArg Index.fileToSizes hix)
      (by simp [limit]) trivial
  | flush r plan i =>
    cases hd
    obtain ⟨hix,hl,hr⟩ := flushStep_tables r plan i ch.io c
    exact respects_same hcov (congrArg Index.fileToMaster hix) (congrArg Index.fileToSizes hix)
      (by simp [hl]) hr
  | consolidate r plan =>
    cases hd
    exact respects_consolidate hcov hok _ _
  | rollbackHits plan err =>
    cases hd
    exact respects_same hcov (rollbackHits_fileToMaster plan c [])
      (frame_rollbackHits plan c []).fileToSizes (by simp [limit]) trivial
  | rollbackMisses plan err =>
    cases hd
    obtain ⟨_,h₁,h₂,_⟩ := rollbackMisses_keeps plan c
    exact respects_same hcov h₁ h₂ (by simp [limit]) trivial
  | unlinkSize path => exact respects_unlinkSize hcov hd
  | unlinkRemove path n =>
    cases hd
    exact respects_remove (i := 0) hcov (hlim (path,n) rfl) rfl trivial
  | unlinkDropSize path =>
    cases hd
    exact respects_unlinkDropSize hcov (hlim (path,0) rfl)
  | unlinkConcat path slots =>
    cases hd
    refine respects_same hcov rfl rfl ?_ trivial
    intro l hl
    cases hl
    exact hlim (path,0) rfl
  | truncateSize path size => exact respects_truncateSize hcov hd
  | truncateRemove path size n m =>
    cases hd
    have hn : n = blockCount size := hround
    subst hn
    exact respects_remove hcov (hlim (path,m) rfl) rfl trivial
  | truncateConcat path size slots =>
    cases hd
    refine respects_same hcov rfl rfl ?_ trivial
    intro l hl
    cases hl
    exact hlim (path,blockCount size) rfl
  | truncateShrink path size =>
    cases hd
    exact respects_truncateShrink hcov (hlim (path,_) rfl)
  | readLookup r pairs buf =>
    cases hd
    obtain ⟨hl,hr⟩ : limit (lookupStep qsort r pairs buf c) = none ∧
        Rounded (lookupStep qsort r pairs buf c) := lookupStep_limit r pairs buf c
    exact respects_same hcov rfl rfl (by simp [hl]) hr
  | readGroups r pairs g buf =>
    cases hd
    obtain ⟨hl,hr⟩ := readStep_limit r pairs g buf c
    exact respects_same hcov rfl rfl (by simp [hl]) hr
  | readDone r pairs g buf res => cases hd
  | done res => cases hd
  | _ =>
    cases hd
    exact respects_same hcov rfl rfl (by simp [limit]) trivial

theorem start_limit (k : Call) : limit k.start = none ∧ Rounded k.start := by
  cases k with
  | write r =>
    simp only [Call.start]
    split_ifs <;> exact ⟨rfl,trivial⟩
  | unlink path => exact ⟨rfl,trivial⟩
  | truncate path size =>
    simp only [Call.start]
    split_ifs <;> exact ⟨rfl,trivial⟩
  | read r buf =>
    simp only [Call.start]
    split_ifs <;> exact ⟨rfl,trivial⟩

theorem sizesInv_step {s t : System} {a : Action} (hst : ∀ st ∈ s.procs, StageOk sha512 st)
    (h : SizesInv s) (hc : FitsLimits s a) (hs : step sha512 qsort s a = some t) :
    (∀ st ∈ t.procs, StageOk sha512 st) ∧ SizesInv t := by
  cases a with
  | call k =>
    rw [step_call_some sha512 qsort hs]
    obtain ⟨hl,hr⟩ := start_limit k
    have hall : ∀ P : Stage → Prop, (∀ st ∈ s.procs, P st) → P k.start →
        ∀ st ∈ s.procs++[k.start], P st := by
      intro P h₁ h₂ st hm
      rcases List.mem_append.mp hm with hm | hm
      · exact h₁ st hm
      · exact List.mem_singleton.mp hm ▸ h₂
    exact ⟨hall _ hst (start_ok k),h.covered,
      hall (fun st => ∀ l ∈ limit st, Below s.ctx l.1 l.2) h.limited (by simp [hl]),
      hall _ h.rounded hr⟩
  | step i ch =>
    obtain ⟨q,d,hq,hd,rfl,_⟩ := step_step_some sha512 qsort hs
    have hmem := List.mem_of_getElem? hq
    have hresp := advance_respects (hst q hmem) h.covered (h.limited q hmem) (h.rounded q hmem) hd
    refine ⟨?_,hresp.covered,?_,?_⟩
    · intro st hm
      rcases mem_set_cases hm with rfl | hm
      · exact advance_ok (hst q hmem) hd
      · exact hst st hm
    · intro st hm l hl
      rcases mem_set_cases hm with rfl | hm
      · exact hresp.limited l hl
      · exact hresp.others l.1 l.2 (h.limited st hm l hl)
          (fun r hr hp => hc q hq r hr st hm l hl hp)
    · intro st hm
      rcases mem_set_cases hm with rfl | hm
      · exact hresp.rounded
      · exact h.rounded st hm

def coveredOverwrite : List Action :=
  [.call (.write (fillReq fileA 65 0 2 two_blocks_fit blocks01_end)),
    go 0 0,go 0 1,go 0 1,go 0 1,go 0 1,go 0 1,go 0 1,go 0 1,go 0 1,
    .call (.write (fillReq fileA 66 0 1 one_block_fits block0_ends)),
    go 1 1,go 1 2,go 1 2,go 1 2,go 1 2,go 1 2,
    .call (.unlink fileA),go 2 2,go 1 2,go 1 2]

/-- A write consolidates between the removal of the blocks and the removal of
the size by an unlink. -/
def refilledUnlink : List Action :=
  [.call (.write (fillReq fileA 65 0 1 one_block_fits block0_ends)),
    go 0 0,go 0 1,go 0 1,go 0 1,go 0 1,go 0 1,go 0 1,go 0 1,
    .call (.write (fillReq fileA 66 0 1 one_block_fits block0_ends)),
    go 1 1,go 1 2,go 1 2,go 1 2,go 1 2,go 1 2,
    .call (.unlink fileA),go 2 2,go 2 2,go 1 2,go 1 2,go 2 2,go 2 2,go 2 2]

end Steps

end ArchivalDedup.Extents
