import ArchivalDedup.RemountSafety

/-!
# The length of the master file while operations interleave

`xmp_init` takes the append counter from the length of the master file. Among
any number of calls the file never extends beyond the slots that were reserved,
and a reserved slot beyond its end belongs to a call that is still to flush it.
So when no `pwrite` failed and no call is in progress the two agree.
-/

set_option autoImplicit false

namespace ArchivalDedup.MasterExtent
open ArchivalDedup.FiniteTable ArchivalDedup.MetaIndex ArchivalDedup.WriteDedup
open ArchivalDedup.ReadDedup ArchivalDedup.Passthrough ArchivalDedup.PlanShape ArchivalDedup.Ledger
open ArchivalDedup.LedgerPasses ArchivalDedup.FlushRuns ArchivalDedup.Threads
open ArchivalDedup.ThreadLedger ArchivalDedup.ReferenceSafety ArchivalDedup.Content
open ArchivalDedup.SequentialWrite ArchivalDedup.RemountSafety ArchivalDedup.Interleaving
open ArchivalDedup.LoopFrames

variable {sha512 : List UInt8 → Hash} {qsort : List BlockPair → List BlockPair}
variable {Z : Set Ptr} {c d : Context} {ps : List Party} {ch : Choice}

/-! ## Steps that leave the store alone -/

def SameStore (c d : Context) : Prop :=
  d.nextBlockIndex = c.nextBlockIndex ∧ d.toMasterFile = c.toMasterFile

theorem sameStore_refl (c : Context) : SameStore c c := ⟨rfl,rfl⟩

theorem sameStore_frame (h : Frame c d) : SameStore c d := ⟨h.nextBlockIndex,h.toMasterFile⟩

theorem sameStore_consolidate (r : WriteReq) (plan : List PlanEntry) (c : Context) :
    SameStore c (consolidate r plan c).1 := by
  obtain ⟨_,_,_,hf,_,hn⟩ := growSize_keeps (mapPlan r.path (publishPlan plan c []).2.2
    (publishPlan plan c []).1 (publishPlan plan c []).2.1).1 r.path r.newEnd
  have hframe := frame_pass3 r.path plan c
  exact ⟨hn.trans hframe.nextBlockIndex,hf.trans hframe.toMasterFile⟩

theorem sameStore_shrinkSize (path : Path) (size : ℕ) (c : Context) :
    SameStore c (shrinkSize path size c) := by
  unfold shrinkSize
  split
  · exact sameStore_refl c
  · split_ifs <;> exact ⟨rfl,rfl⟩

def touchesStore : Stage → Bool
  | .append .. => true
  | .flush .. => true
  | _ => false

theorem advance_sameStore {st : Stage} {t : Context × Stage}
    (hs : advance sha512 qsort ch c st = some t) (hn : touchesStore st = false) :
    SameStore c t.1 := by
  cases st with
  | pass1 r p =>
    simp only [advance] at hs
    split_ifs at hs with h₁ h₂ h₃
    · cases hs
      obtain ⟨hf,_,hx⟩ := pass1Block_store sha512 r ch.addr c p
      exact ⟨hx,hf⟩
    · cases hs
      exact sameStore_refl c
    · cases hs
      exact sameStore_refl c
  | append r plan taken => cases hn
  | flush r plan i => cases hn
  | consolidate r plan =>
    cases hs
    exact sameStore_consolidate r plan c
  | rollbackHits plan err =>
    cases hs
    exact sameStore_frame (frame_rollbackHits plan c [])
  | rollbackMisses plan err =>
    cases hs
    obtain ⟨_,_,_,_,hf,hx⟩ := rollbackMisses_keeps plan c
    exact ⟨hx,hf⟩
  | unlinkSize path =>
    simp only [advance] at hs
    split at hs <;> cases hs <;> exact sameStore_refl c
  | unlinkRemove path n =>
    cases hs
    exact sameStore_frame (frame_removeBlocks path n 0 c [])
  | truncateSize path size =>
    simp only [advance] at hs
    split at hs <;> cases hs <;> exact sameStore_refl c
  | truncateRemove path size n m =>
    cases hs
    exact sameStore_frame (frame_removeBlocks path (m-n) n c [])
  | truncateShrink path size =>
    cases hs
    exact sameStore_shrinkSize path size c
  | readDone r pairs g buf res => cases hs
  | done res => cases hs
  | _ =>
    cases hs
    exact ⟨rfl,rfl⟩

/-! ## Reserved slots and the end of the file -/

def flushing : Stage → List ℕ
  | .flush _ plan _ => missSlots plan
  | _ => []

/-- Every reserved slot lies within the file, or its call is flushing. -/
def Covered (s : System) : Prop :=
  ∀ q < s.ctx.nextBlockIndex, (q+1)*blockSize ≤ s.ctx.fileSize ∨ ∃ st ∈ s.procs, q ∈ flushing st

def StageReached (f : MasterFile) : Stage → Prop
  | .flush _ plan i => Reached f plan i
  | _ => True

theorem stageReached_mono {f f' : MasterFile} (hf : f.fileSize ≤ f'.fileSize) {st : Stage}
    (h : StageReached f st) : StageReached f' st := by
  cases st with
  | flush r plan i => exact fun j g hj hg hk => (h j g hj hg hk).trans hf
  | _ => trivial

theorem append_next (n : ℕ) (plan : List PlanEntry) (taken : List ℕ) (c : Context) :
    (assignSlots plan (appendSlots n taken c).1 (appendSlots n taken c).2).2.nextBlockIndex =
      c.nextBlockIndex+(n-taken.length) ∧
    (assignSlots plan (appendSlots n taken c).1 (appendSlots n taken c).2).2.toMasterFile =
      c.toMasterFile := by
  obtain ⟨_,_,hf,hn⟩ := assignSlots_frame plan (appendSlots n taken c).1 (appendSlots n taken c).2
  exact ⟨hn,hf⟩

theorem flushStep_next (r : WriteReq) (plan : List PlanEntry) (i : ℕ) (io : PwriteResult)
    (c : Context) : (flushStep r plan i io c).1.nextBlockIndex = c.nextBlockIndex ∧
      c.fileSize ≤ (flushStep r plan i io c).1.fileSize := by
  unfold flushStep
  split
  · exact ⟨rfl,Nat.le_refl _⟩
  · next skip e len _ =>
    have hgrow := (pwriteRun_fileSize r e len io c.toMasterFile).1
    split
    · next f hf =>
      rw [hf] at hgrow
      exact ⟨rfl,hgrow⟩
    · next f err hf =>
      rw [hf] at hgrow
      exact ⟨rfl,hgrow⟩

theorem advance_grows {st : Stage} {t : Context × Stage}
    (hs : advance sha512 qsort ch c st = some t) :
    c.nextBlockIndex ≤ t.1.nextBlockIndex ∧ c.fileSize ≤ t.1.fileSize := by
  cases hst : touchesStore st with
  | false =>
    obtain ⟨hn,hf⟩ := advance_sameStore hs hst
    exact ⟨Nat.le_of_eq hn.symm,Nat.le_of_eq (congrArg MasterFile.fileSize hf.symm)⟩
  | true =>
    cases st with
    | append r plan taken =>
      cases hs
      obtain ⟨hn,hf⟩ := append_next (missCount plan) plan taken c
      refine ⟨?_,Nat.le_of_eq (congrArg MasterFile.fileSize hf.symm)⟩
      rw [hn]
      exact Nat.le_add_right ..
    | flush r plan i =>
      cases hs
      obtain ⟨hn,hf⟩ := flushStep_next r plan i ch.io c
      exact ⟨Nat.le_of_eq hn.symm,hf⟩
    | _ => cases hst

theorem run_below {r : WriteReq} {plan : List PlanEntry} {i skip len : ℕ} {e : PlanEntry}
    (h : Inv Z c (party (.flush r plan i)::ps)) (hrun : nextRun (plan.drop i) = some (skip,e,len)) :
    e.masterBlk+len ≤ c.nextBlockIndex := by
  obtain ⟨_,hpos,_,_,_⟩ := nextRun_some hrun
  obtain ⟨g,hg,hk,hlast⟩ := run_slot (q := e.masterBlk+len-1) hrun (by omega)
  have hmem : e.masterBlk+len-1 ∈ missSlots plan :=
    mem_missSlots.mpr ⟨g,List.mem_of_getElem? hg,hk,hlast⟩
  have hslot : e.masterBlk+len-1 ∈ c.freeBlockList++
      (party (.flush r plan i)::ps).flatMap Party.slots++publishedSlots c := by
    simp [Party.slots,party,hmem]
  have := List.mem_range.mp (h.slots.mem_iff.mp hslot)
  omega

theorem advance_within {st : Stage} {t : Context × Stage} (h : Inv Z c (party st::ps))
    (hs : advance sha512 qsort ch c st = some t) (hw : c.fileSize ≤ c.nextBlockIndex*blockSize) :
    t.1.fileSize ≤ t.1.nextBlockIndex*blockSize := by
  cases hst : touchesStore st with
  | false =>
    obtain ⟨hn,hf⟩ := advance_sameStore hs hst
    rw [hn,congrArg MasterFile.fileSize hf]
    exact hw
  | true =>
    cases st with
    | append r plan taken =>
      have hle := Nat.mul_le_mul_right blockSize (advance_grows hs).1
      cases hs
      rw [congrArg MasterFile.fileSize (append_next (missCount plan) plan taken c).2]
      exact hw.trans hle
    | flush r plan i =>
      cases hs
      unfold flushStep
      split
      · exact hw
      · next skip e len hrun =>
        have hmax := (pwriteRun_fileSize r e len ch.io c.toMasterFile).2
        have hend := Nat.mul_le_mul_right blockSize (run_below h hrun)
        have hle := hmax.trans (max_le hw hend)
        split
        · next f hf =>
          rw [hf] at hle
          exact hle
        · next f err hf =>
          rw [hf] at hle
          exact hle
    | _ => cases hst

structure LeavesCovered (c : Context) (st : Stage) (t : Context × Stage) : Prop where
  slots : ∀ q < t.1.nextBlockIndex, (q+1)*blockSize ≤ t.1.fileSize ∨ q ∈ flushing t.2 ∨
    q < c.nextBlockIndex ∧ q ∉ flushing st
  reached : StageReached t.1.toMasterFile t.2

theorem covers_append {r : WriteReq} {plan : List PlanEntry} {taken : List ℕ}
    (ht : taken.length ≤ missCount plan) :
    LeavesCovered c (.append r plan taken) ((assignSlots plan (appendSlots (missCount plan) taken c).1
      (appendSlots (missCount plan) taken c).2).2,.flush r (assignSlots plan
        (appendSlots (missCount plan) taken c).1 (appendSlots (missCount plan) taken c).2).1 0) where
  slots := by
    intro q hq
    rw [(append_next (missCount plan) plan taken c).1] at hq
    by_cases hold : q < c.nextBlockIndex
    · exact Or.inr (Or.inr ⟨hold,by simp [flushing]⟩)
    · refine Or.inr (Or.inl ?_)
      change q ∈ missSlots _
      rw [assignSlots_missSlots plan _ _ (appendSlots_length taken c ht)]
      refine List.mem_append_right _ (List.mem_map.mpr ⟨q-c.nextBlockIndex,?_,?_⟩)
      · rw [List.mem_range]
        omega
      · omega
  reached := fun j g hj => absurd hj (Nat.not_lt_zero j)

theorem covers_flush {r : WriteReq} {plan : List PlanEntry} {i : ℕ} (hok : PlanOk sha512 r plan)
    (hr : Reached c.toMasterFile plan i) :
    LeavesCovered c (.flush r plan i) (flushStep r plan i .complete c) := by
  unfold flushStep
  split
  · next hnone =>
    refine ⟨?_,trivial⟩
    intro q hq
    by_cases hm : q ∈ missSlots plan
    · obtain ⟨e,he,hk,rfl⟩ := mem_missSlots.mp hm
      obtain ⟨j,hj⟩ := List.mem_iff_getElem?.mp he
      exact Or.inl (hr j e (miss_before hnone hj hk) hj hk)
    · exact Or.inr (Or.inr ⟨hq,hm⟩)
  · next skip e len hrun =>
    split
    · next f hf =>
      refine ⟨?_,reached_run hok.1 hok.2.2 hrun hf hr⟩
      intro q hq
      by_cases hm : q ∈ missSlots plan
      · exact Or.inr (Or.inl hm)
      · exact Or.inr (Or.inr ⟨hq,hm⟩)
    · next f err hf => cases (Prod.mk.inj hf).2

theorem advance_reached {st : Stage} {t : Context × Stage}
    (hs : advance sha512 qsort ch c st = some t) (hn : touchesStore st = false) :
    StageReached t.1.toMasterFile t.2 := by
  cases st with
  | pass1 r p =>
    simp only [advance] at hs
    split_ifs at hs <;> cases hs <;> trivial
  | append r plan taken => cases hn
  | flush r plan i => cases hn
  | unlinkSize path =>
    simp only [advance] at hs
    split at hs <;> cases hs <;> trivial
  | truncateSize path size =>
    simp only [advance] at hs
    split at hs <;> cases hs <;> trivial
  | readLookup r pairs buf =>
    cases hs
    have hend : StageReached c.toMasterFile (endLookup qsort r pairs buf) := by
      unfold endLookup
      split_ifs <;> trivial
    change StageReached c.toMasterFile (lookupStep qsort r pairs buf c)
    unfold lookupStep
    split
    · split
      · trivial
      · exact hend
    · exact hend
  | readGroups r pairs g buf =>
    cases hs
    change StageReached c.toMasterFile (readStep r pairs g buf c)
    simp only [readStep]
    split
    · trivial
    · split <;> trivial
  | readDone r pairs g buf res => cases hs
  | done res => cases hs
  | _ =>
    cases hs
    trivial

theorem advance_covers {st : Stage} {t : Context × Stage} (hok : StageOk sha512 st)
    (hio : ch.io = .complete) (hr : StageReached c.toMasterFile st)
    (hs : advance sha512 qsort ch c st = some t) : LeavesCovered c st t := by
  cases hst : touchesStore st with
  | false =>
    obtain ⟨hn,hf⟩ := advance_sameStore hs hst
    refine ⟨?_,advance_reached hs hst⟩
    intro q hq
    rw [hn] at hq
    refine Or.inr (Or.inr ⟨hq,?_⟩)
    cases st <;> first | exact List.not_mem_nil | cases hst
  | true =>
    cases st with
    | append r plan taken =>
      cases hs
      exact covers_append hok.2
    | flush r plan i =>
      cases hs
      rw [hio]
      exact covers_flush hok hr
    | _ => cases hst

/-! ## Whole runs -/

/-- No `pwrite` stops short or fails. -/
def PwritesComplete : Action → Prop
  | .call _ => True
  | .step _ ch => ch.io = .complete

structure ExtentInv (s : System) : Prop where
  covered : Covered s
  reached : ∀ st ∈ s.procs, StageReached s.ctx.toMasterFile st

theorem start_reached (k : Call) (f : MasterFile) : StageReached f k.start := by
  cases k with
  | write r =>
    simp only [Call.start]
    split_ifs <;> trivial
  | unlink path => trivial
  | truncate path size =>
    simp only [Call.start]
    split_ifs <;> trivial
  | read r buf =>
    simp only [Call.start]
    split_ifs <;> trivial

theorem within_step {s t : System} {a : Action} (h : SysInv sha512 Z s)
    (hs : step sha512 qsort s a = some t) (hw : s.ctx.fileSize ≤ s.ctx.nextBlockIndex*blockSize) :
    t.ctx.fileSize ≤ t.ctx.nextBlockIndex*blockSize := by
  cases a with
  | call k =>
    rw [step_call_some sha512 qsort hs]
    exact hw
  | step i ch =>
    obtain ⟨st,d,hst,hd,rfl,_⟩ := step_step_some sha512 qsort hs
    obtain ⟨hp,_⟩ := set_perm s.procs i st d.2 hst
    exact advance_within (inv_perm (hp.map party) h.ledger) hd hw

theorem extentInv_step {s t : System} {a : Action} (h : SysInv sha512 Z s) (hio : PwritesComplete a)
    (hs : step sha512 qsort s a = some t) (he : ExtentInv s) : ExtentInv t := by
  cases a with
  | call k =>
    rw [step_call_some sha512 qsort hs]
    constructor
    · intro q hq
      rcases he.covered q hq with hq | ⟨st,hst,hq⟩
      · exact Or.inl hq
      · exact Or.inr ⟨st,List.mem_append_left _ hst,hq⟩
    · intro st hst
      rcases List.mem_append.mp hst with hst | hst
      · exact he.reached st hst
      · rw [List.mem_singleton.mp hst]
        exact start_reached k s.ctx.toMasterFile
  | step i ch =>
    obtain ⟨st,d,hst,hd,rfl,_⟩ := step_step_some sha512 qsort hs
    obtain ⟨hp,hp'⟩ := set_perm s.procs i st d.2 hst
    have hmem := List.mem_of_getElem? hst
    have hgrow := (advance_grows hd).2
    have hcov := advance_covers (h.staged st hmem) hio (he.reached st hmem) hd
    constructor
    · intro q hq
      rcases hcov.slots q hq with hq | hq | ⟨hq,hout⟩
      · exact Or.inl hq
      · exact Or.inr ⟨d.2,hp'.mem_iff.mpr (List.mem_cons_self ..),hq⟩
      · rcases he.covered q hq with hq | ⟨st',hst',hq⟩
        · exact Or.inl (hq.trans hgrow)
        · -- the slot belongs to another call, which stays as it is
          rcases List.mem_cons.mp (hp.mem_iff.mp hst') with rfl | hst'
          · exact absurd hq hout
          · exact Or.inr ⟨st',hp'.mem_iff.mpr (List.mem_cons_of_mem _ hst'),hq⟩
    · intro q hq
      rcases List.mem_cons.mp (hp'.mem_iff.mp hq) with rfl | hq
      · exact hcov.reached
      · exact stageReached_mono hgrow (he.reached q (hp.mem_iff.mpr (List.mem_cons_of_mem st hq)))

theorem extentInv_empty : ExtentInv emptySystem :=
  ⟨fun q hq => absurd hq (Nat.not_lt_zero q),by simp [emptySystem]⟩

theorem quiescent_reaching {s : System} (h : Covered s) (hq : Quiescent s) : Reaching s.ctx := by
  unfold Reaching
  cases hn : s.ctx.nextBlockIndex with
  | zero => simp
  | succ n =>
    rcases h n (by omega) with hle | ⟨st,hst,hmem⟩
    · exact hle
    · have hfin := hq st hst
      cases st <;> first | cases hmem | cases hfin

theorem clean_within {acts : List Action} {s t : System} (h : SysInv sha512 ∅ s)
    (hw : s.ctx.fileSize ≤ s.ctx.nextBlockIndex*blockSize)
    (hc : Meets (step sha512 qsort) (Clean sha512) s acts)
    (he : exec (step sha512 qsort) s acts = some t) :
    t.ctx.fileSize ≤ t.ctx.nextBlockIndex*blockSize :=
  (exec_invariant (step sha512 qsort) (Clean sha512)
    (fun s => SysInv sha512 ∅ s ∧ s.ctx.fileSize ≤ s.ctx.nextBlockIndex*blockSize)
    (fun _ _ _ hi hc hs => ⟨sysInv_step hi.1 hc.1 hc.2 (by simp) hs,within_step hi.1 hs hi.2⟩)
    s t acts ⟨h,hw⟩ hc he).2

theorem complete_extentInv {acts : List Action} {s t : System} (h : SysInv sha512 ∅ s)
    (hi : ExtentInv s) (hc : Meets (step sha512 qsort) (Clean sha512) s acts)
    (hio : ∀ a ∈ acts, PwritesComplete a) (he : exec (step sha512 qsort) s acts = some t) :
    ExtentInv t := by
  have hmeets := meets_and _ hc (meets_of_forall (step sha512 qsort) (fun _ a => PwritesComplete a) s
    acts (fun a ha _ => hio a ha))
  exact (exec_invariant (step sha512 qsort) _ (fun s => SysInv sha512 ∅ s ∧ ExtentInv s)
    (fun _ _ _ hi hc hs => ⟨sysInv_step hi.1 hc.1.1 hc.1.2 (by simp) hs,
      extentInv_step hi.1 hc.2 hs hi.2⟩) s t acts ⟨h,hi⟩ hmeets he).2

/-- In any interleaving the file stays below the append counter; while no
`pwrite` fails, a slot beyond its end is being flushed, and with no call in
progress the next mount finds the counter as it was. -/
theorem clean_run_extent (acts : List Action) (s : System) (hr : Reaches sha512 qsort acts s)
    (hc : Meets (step sha512 qsort) (Clean sha512) emptySystem acts) :
    s.ctx.fileSize ≤ s.ctx.nextBlockIndex*blockSize ∧ ((∀ a ∈ acts, PwritesComplete a) → Covered s ∧
      (Quiescent s → s.ctx.fileSize = s.ctx.nextBlockIndex*blockSize ∧
        ∀ u i, (Remount.remount u i s.ctx).nextBlockIndex = s.ctx.nextBlockIndex)) := by
  have hw := clean_within (sysInv_empty ∅) (Nat.le_refl 0) hc hr
  refine ⟨hw,?_⟩
  intro hio
  have hi := complete_extentInv (sysInv_empty ∅) extentInv_empty hc hio hr
  refine ⟨hi.covered,?_⟩
  intro hq
  have heq := Nat.le_antisymm hw (quiescent_reaching hi.covered hq)
  refine ⟨heq,?_⟩
  intro u i
  change s.ctx.fileSize/blockSize = s.ctx.nextBlockIndex
  rw [heq,Nat.mul_div_cancel _ blockSize_pos]

def settledBlocks : List Action := sharedBlocks++[go 0 2,go 1 2,go 2 2,go 2 2,go 2 2]

theorem settledBlocks_clean :
    Meets (step sampleSha512 id) (Clean sampleSha512) emptySystem settledBlocks := by
  decide +kernel

theorem settledBlocks_complete : ∀ a ∈ settledBlocks, PwritesComplete a := by
  simp [settledBlocks,sharedBlocks,go,PwritesComplete]

theorem clean_run_extent_settled : ∃ s, Reaches sampleSha512 id settledBlocks s ∧
    Meets (step sampleSha512 id) (Clean sampleSha512) emptySystem settledBlocks ∧
    (∀ a ∈ settledBlocks, PwritesComplete a) ∧ Quiescent s ∧
    s.ctx.fileSize = s.ctx.nextBlockIndex*blockSize := by
  obtain ⟨s,hr,hp⟩ := exec_observe (step sampleSha512 id)
    (fun s => ∀ st ∈ s.procs, st.finished = true) emptySystem settledBlocks (by decide +kernel)
  have hq : ∀ st ∈ s.procs, st.finished = true := of_decide_eq_true hp
  exact ⟨s,hr,settledBlocks_clean,settledBlocks_complete,hq,
    (((clean_run_extent settledBlocks s hr settledBlocks_clean).2 settledBlocks_complete).2 hq).1⟩

end ArchivalDedup.MasterExtent
