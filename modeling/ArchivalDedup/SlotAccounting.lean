import ArchivalDedup.ReferenceSafety

/-!
# Slots under every interleaving

When `malloc` never hands out an address twice, a freed object keeps its last
contents for whoever still points to it. In such runs every slot below the
append counter has exactly one owner as long as no counter wraps, also after a
lost double check. A counter that wraps releases a slot twice.
-/

set_option autoImplicit false

namespace ArchivalDedup.SlotAccounting
open ArchivalDedup.FiniteTable ArchivalDedup.MetaIndex ArchivalDedup.WriteDedup
open ArchivalDedup.Passthrough ArchivalDedup.PlanShape ArchivalDedup.Ledger
open ArchivalDedup.LedgerMoves ArchivalDedup.LedgerLoops ArchivalDedup.Threads
open ArchivalDedup.ThreadLedger ArchivalDedup.ReferenceSafety ArchivalDedup.Interleaving

/-- Every slot that anybody has a claim on. -/
def claimedSlots (s : System) : List ℕ :=
  s.ctx.freeBlockList++s.procs.flatMap releasing++s.procs.flatMap handed++publishedSlots s.ctx

def Accounted (s : System) : Prop := (claimedSlots s).Perm (List.range s.ctx.nextBlockIndex)

section Fresh

variable (sha512 : List UInt8 → Hash) (qsort : List ReadDedup.BlockPair → List ReadDedup.BlockPair)

def mallocs : System → List Action → List Ptr
  | _, [] => []
  | s, a::as =>
    (mallocBy sha512 s a).toList++
      match step sha512 qsort s a with
      | some t => mallocs t as
      | none => []

theorem mallocs_cons {s t : System} {a : Action} (as : List Action)
    (h : step sha512 qsort s a = some t) : mallocs sha512 qsort s (a::as) =
      (mallocBy sha512 s a).toList++mallocs sha512 qsort t as := by
  simp only [mallocs,h]

theorem mallocs_append {s t : System} {as : List Action} (bs : List Action)
    (h : exec (step sha512 qsort) s as = some t) : mallocs sha512 qsort s (as++bs) =
      mallocs sha512 qsort s as++mallocs sha512 qsort t bs := by
  induction as generalizing s with
  | nil =>
    cases h
    rfl
  | cons a as ih =>
    obtain ⟨m,hm,h⟩ := exec_cons_some _ h
    rw [List.cons_append,mallocs_cons sha512 qsort _ hm,mallocs_cons sha512 qsort _ hm,ih h,
      List.append_assoc]

end Fresh

variable {sha512 : List UInt8 → Hash} {qsort : List ReadDedup.BlockPair → List ReadDedup.BlockPair}
variable {c : Context} {ch : Choice}

theorem inv_accounted {Z : Set Ptr} {s : System} (h : SysInv sha512 Z s) : Accounted s := by
  refine List.Perm.trans ?_ h.ledger.slots
  have hp : (s.procs.map party).flatMap Party.slots =
      s.procs.flatMap (fun st => releasing st++handed st) := by
    rw [List.flatMap_map]
    exact List.flatMap_congr (fun st _ => party_slots st)
  rw [hp,claimedSlots,List.append_assoc s.ctx.freeBlockList]
  exact ((List.flatMap_append_perm s.procs releasing handed).append_left _).append_right _

def pendingInfos (st : Stage) : List Ptr := (misses (party st).plan).map PlanEntry.info

theorem mem_pendingInfos {st : Stage} {x : Ptr} :
    x ∈ pendingInfos st ↔ ∃ e ∈ (party st).plan, e.kind = .miss ∧ e.info = x := by
  simp [pendingInfos,misses,and_assoc]

theorem advance_pendingInfos {st : Stage} {d : Context × Stage} {x : Ptr}
    (hs : advance sha512 qsort ch c st = some d) (hx : x ∈ pendingInfos d.2) :
    x ∈ pendingInfos st ∨ mallocAt sha512 ch c st = some x := by
  obtain ⟨e,he,hk,rfl⟩ := mem_pendingInfos.mp hx
  have hkeep : ∀ e' ∈ (party st).plan, e'.kind = .miss → e'.info = e.info →
      e.info ∈ pendingInfos st ∨ mallocAt sha512 ch c st = some e.info := fun e' h₁ h₂ h₃ =>
    Or.inl (mem_pendingInfos.mpr ⟨e',h₁,h₂,h₃⟩)
  cases st with
  | pass1 r p =>
    simp only [advance] at hs
    split_ifs at hs with h₁ h₂ h₃
    · cases hs
      cases hb : existingInfo c p (sha512 (r.block p.plan.length)) with
      | some b =>
        rw [pass1Block_hit _ hb] at he
        rcases List.mem_append.mp he with he | he
        · exact hkeep e he hk rfl
        · rw [List.mem_singleton.mp he] at hk
          cases hk
      | none =>
        rw [pass1Block_miss _ hb] at he
        rcases List.mem_append.mp he with he | he
        · exact hkeep e he hk rfl
        · rw [List.mem_singleton.mp he]
          exact Or.inr (if_pos ⟨h₁,hb⟩)
    · cases hs
      exact hkeep e he hk rfl
    · cases hs
      exact hkeep e he hk rfl
  | drain r plan =>
    cases hs
    exact hkeep e he hk rfl
  | append r plan taken =>
    cases hs
    obtain ⟨f,hf,hu⟩ := unslotted_mem (assignSlots_unslotted plan _ _) he
    obtain ⟨h₁,_,_,_,h₂⟩ := unslotted_fields hu
    exact hkeep f hf (h₁.trans hk) h₂
  | flush r plan i =>
    cases hs
    unfold flushStep at he
    split at he
    · exact hkeep e he hk rfl
    · split at he <;> exact hkeep e he hk rfl
  | rollbackHits plan err =>
    cases hs
    exact hkeep e (List.mem_filter.mp he).1 hk rfl
  | rollbackConcat plan slots err =>
    cases hs
    exact hkeep e he hk rfl
  | unlinkSize path =>
    simp only [advance] at hs
    split at hs <;> cases hs <;> cases he
  | truncateSize path size =>
    simp only [advance] at hs
    split at hs <;> cases hs <;> cases he
  | readLookup r pairs buf =>
    cases hs
    rw [lookupStep_party] at he
    cases he
  | readGroups r pairs n buf =>
    cases hs
    rw [readStep_party] at he
    cases he
  | readDone r pairs n buf res => cases hs
  | done res => cases hs
  | _ =>
    cases hs
    cases he

theorem start_pendingInfos (k : Call) : pendingInfos k.start = [] := by
  rcases start_party k with h | h <;> simp [pendingInfos,h,misses]

theorem sharedLosers_pending {st : Stage} {x : Ptr} (h : x ∈ sharedLosers c st) :
    x ∈ pendingInfos st := by
  cases st with
  | consolidate r plan =>
    obtain ⟨e,he,rfl⟩ := List.mem_map.mp h
    obtain ⟨hm,hd⟩ := List.mem_filter.mp he
    exact mem_pendingInfos.mpr ⟨e,hm,(of_decide_eq_true hd).1,rfl⟩
  | _ => cases h

theorem step_pendingInfos {s t : System} {a : Action} (hs : step sha512 qsort s a = some t)
    {st : Stage} {x : Ptr} (hst : st ∈ t.procs) (hx : x ∈ pendingInfos st) :
    (∃ q ∈ s.procs, x ∈ pendingInfos q) ∨ mallocBy sha512 s a = some x := by
  cases a with
  | call k =>
    rw [step_call_some sha512 qsort hs] at hst
    rcases List.mem_append.mp hst with hst | hst
    · exact Or.inl ⟨st,hst,hx⟩
    · rw [List.mem_singleton.mp hst,start_pendingInfos] at hx
      cases hx
  | step i ch =>
    obtain ⟨q,d,hq,hd,rfl,_⟩ := step_step_some sha512 qsort hs
    rcases mem_set_cases hst with rfl | hst
    · rcases advance_pendingInfos hd hx with h | h
      · exact Or.inl ⟨q,List.mem_of_getElem? hq,h⟩
      · right
        simpa [mallocBy,hq] using h
    · exact Or.inl ⟨st,hst,hx⟩

theorem fresh_exec {s t : System} {acts : List Action} {U : Set Ptr} (hi : SysInv sha512 U s)
    (hu : ∀ st ∈ s.procs, ∀ x ∈ pendingInfos st, x ∈ U)
    (hn : (mallocs sha512 qsort s acts).Nodup) (hd : ∀ x ∈ mallocs sha512 qsort s acts, x ∉ U)
    (hw : Meets (step sha512 qsort) (NoWrap sha512) s acts)
    (he : exec (step sha512 qsort) s acts = some t) : ∃ V, SysInv sha512 V t := by
  induction acts generalizing s U with
  | nil =>
    cases he
    exact ⟨U,hi⟩
  | cons a as ih =>
    obtain ⟨m,hm,he⟩ := exec_cons_some _ he
    rw [mallocs_cons sha512 qsort as hm] at hn hd
    have hlose : LosersBy U s a := by
      intro st hst x hx
      cases a with
      | call k => cases hst
      | step i ch => exact hu st (List.mem_of_getElem? hst) x (sharedLosers_pending hx)
    have hi' := sysInv_step hi hw.1 hlose
      (fun x hx => hd x (List.mem_append_left _ (Option.mem_toList.mpr hx))) hm
    obtain ⟨_,hn₂,hdisj⟩ := List.nodup_append.mp hn
    refine ih (U := U ∪ { x | mallocBy sha512 s a = some x })
      ⟨inv_mono Set.subset_union_left hi'.ledger,hi'.staged⟩ ?_ hn₂ ?_ (hw.2 m hm) he
    · intro st hst x hx
      rcases step_pendingInfos hm hst hx with ⟨q,hq,hx⟩ | hx
      · exact Or.inl (hu q hq x hx)
      · exact Or.inr hx
    · rintro x hx (hU | hx')
      · exact hd x (List.mem_append_right _ hx) hU
      · exact hdisj x (Option.mem_toList.mpr hx') x hx rfl

/-- No slot is lost and none is given out twice while no counter wraps. -/
theorem fresh_run_accounted (acts : List Action) (s : System)
    (hr : Reaches sha512 qsort acts s) (hn : (mallocs sha512 qsort emptySystem acts).Nodup)
    (hw : Meets (step sha512 qsort) (NoWrap sha512) emptySystem acts) : Accounted s := by
  obtain ⟨V,hi⟩ := fresh_exec (sysInv_empty ∅) (by simp [emptySystem]) hn (by simp) hw hr
  exact inv_accounted hi

instance (s : System) (a : Action) : Decidable (NoWrap sha512 s a) :=
  inferInstanceAs (Decidable (∀ st ∈ stageOf s a, ∀ b ∈ increments sha512 s.ctx st,
    (s.ctx.cell b).refcount+1 < refcountMod))

theorem fresh_run_accounted_lost : ∃ s, Reaches sampleSha512 id lostDoubleCheck s ∧
    (mallocs sampleSha512 id emptySystem lostDoubleCheck).Nodup ∧
    Meets (step sampleSha512 id) (NoWrap sampleSha512) emptySystem lostDoubleCheck ∧
    Accounted s ∧ s.ctx.nextBlockIndex = 2 := by
  have hn : (mallocs sampleSha512 id emptySystem lostDoubleCheck).Nodup := by decide +kernel
  have hw : Meets (step sampleSha512 id) (NoWrap sampleSha512) emptySystem lostDoubleCheck := by
    decide +kernel
  obtain ⟨s,hr,hp⟩ := exec_observe (step sampleSha512 id)
    (fun s => s.ctx.nextBlockIndex = 2) emptySystem lostDoubleCheck (by decide +kernel)
  exact ⟨s,hr,hn,hw,fresh_run_accounted lostDoubleCheck s hr hn hw,of_decide_eq_true hp⟩

section Wrap

def hitWrite (i : ℕ) (x : Ptr) (r : WriteReq) : List Action :=
  [.call (.write r),go i x,go i x,go i x,go i x]

theorem hit_write_exec (sha512 : List UInt8 → Hash)
    (qsort : List ReadDedup.BlockPair → List ReadDedup.BlockPair) {s : System} {r : WriteReq}
    {a x : Ptr} (hu : Unlocked s)
    (hn : r.buf.length = blockSize) (ha : find s.ctx.hashToMaster (sha512 r.buf) = some a)
    (hx : x ∉ s.ctx.live) (hb : find s.ctx.fileToMaster ⟨r.path,r.startBlock⟩ = none) :
    exec (step sha512 qsort) s (hitWrite s.procs.length x r) =
      some ⟨growSize ((s.ctx.fetchAdd a).insertFileBlock r.path r.startBlock a) r.path r.newEnd,
        s.procs++[.done (.ok blockSize)]⟩ ∧
    mallocs sha512 qsort s (hitWrite s.procs.length x r) = [] := by
  have hpos : r.buf.length ≠ 0 := by
    have := blockSize_pos
    omega
  have hnum : r.numBlocks = 1 := by
    unfold WriteReq.numBlocks
    rw [hn]
    exact Nat.div_self blockSize_pos
  have hblock : r.block 0 = r.buf := by
    simp [WriteReq.block,←hn]
  have hex : existingInfo s.ctx Pass1.start (sha512 (r.block 0)) = some a := by
    simp [existingInfo,Context.lookupByHash,hblock,ha]
  set e := newEntry .hit r 0 (sha512 (r.block 0)) a
  have he : e.kind = .hit := rfl
  have hp : pass1Block sha512 r x s.ctx Pass1.start = (s.ctx.fetchAdd a,⟨[e],∅⟩) :=
    pass1Block_hit x hex
  have hmap : find (s.ctx.fetchAdd a).fileToMaster ⟨r.path,e.logicalBlk⟩ = none := hb
  have hcons : WriteDedup.consolidate r [e] (s.ctx.fetchAdd a) =
      (growSize ((s.ctx.fetchAdd a).insertFileBlock r.path r.startBlock a) r.path r.newEnd,[]) := by
    simp only [WriteDedup.consolidate,publishPlan,publishEntry_hit _ _ he,mapPlan,
      mapEntry_new _ hmap]
    rfl
  have h₀ : step sha512 qsort s (.call (.write r)) =
      some ⟨s.ctx,s.procs++[.pass1 r Pass1.start]⟩ := by
    simp only [step,Call.start,if_neg hpos]
    rw [if_neg (by simp [hnum,hn])]
  have h₁ : step sha512 qsort ⟨s.ctx,s.procs++[.pass1 r Pass1.start]⟩ (go s.procs.length x) =
      some ⟨s.ctx.fetchAdd a,s.procs++[.pass1 r ⟨[e],∅⟩]⟩ := by
    have hlt : Pass1.start.plan.length < r.numBlocks := by
      rw [hnum]
      exact Nat.one_pos
    rw [go,step_last _ _ _ _ _ _ hu (by simp [Stage.needsWrite])]
    simp only [advance,if_pos hlt,if_neg hx,hp,Option.map_some]
  have h₂ : step sha512 qsort ⟨s.ctx.fetchAdd a,s.procs++[.pass1 r ⟨[e],∅⟩]⟩
      (go s.procs.length x) = some ⟨s.ctx.fetchAdd a,s.procs++[.consolidate r [e]]⟩ := by
    rw [go,step_last _ _ _ _ _ _ hu (by simp [Stage.needsWrite])]
    simp [advance,hnum,missCount,he]
  have h₃ : step sha512 qsort ⟨s.ctx.fetchAdd a,s.procs++[.consolidate r [e]]⟩
      (go s.procs.length x) = some ⟨growSize ((s.ctx.fetchAdd a).insertFileBlock r.path
        r.startBlock a) r.path r.newEnd,s.procs++[.release [] blockSize]⟩ := by
    rw [go,step_last _ _ _ _ _ _ hu (by simp [Stage.holdsRead])]
    simp [advance,hcons,hnum]
  have h₄ : ∀ d : Context, step sha512 qsort ⟨d,s.procs++[.release [] blockSize]⟩
      (go s.procs.length x) = some ⟨d,s.procs++[.done (.ok blockSize)]⟩ := by
    intro d
    rw [go,step_last _ _ _ _ _ _ hu (by simp [Stage.needsWrite])]
    rfl
  constructor
  · simp [hitWrite,exec,h₀,h₁,h₂,h₃,h₄]
  · rw [hitWrite,mallocs_cons _ _ _ h₀,mallocs_cons _ _ _ h₁,mallocs_cons _ _ _ h₂,
      mallocs_cons _ _ _ h₃,mallocs_cons _ _ _ (h₄ _)]
    have hone : mallocBy sha512 ⟨s.ctx,s.procs++[.pass1 r Pass1.start]⟩ (go s.procs.length x) =
        none := by
      simp only [go,mallocBy,List.getElem?_concat_length,Option.bind_some,mallocAt]
      rw [if_neg]
      rintro ⟨_,hnone⟩
      exact Option.some_ne_none a (hex.symm.trans hnone)
    have htwo : mallocBy sha512 ⟨s.ctx.fetchAdd a,s.procs++[.pass1 r ⟨[e],∅⟩]⟩
        (go s.procs.length x) = none := by
      simp only [go,mallocBy,List.getElem?_concat_length,Option.bind_some,mallocAt]
      rw [if_neg]
      rintro ⟨hlt,_⟩
      rw [hnum] at hlt
      exact Nat.lt_irrefl 1 hlt
    rw [hone,htwo]
    simp [go,mallocBy,mallocAt,mallocs]

def blockReq (i : ℕ) : WriteReq where
  path := fileA
  buf := List.replicate blockSize 65
  offset := i % 2^40*blockSize
  fits := by
    rw [List.length_replicate]
    decide
  inRange := by
    have := Nat.mod_lt i (show 0 < 2^40 by decide)
    rw [List.length_replicate]
    unfold blockSize
    omega

theorem blockReq_start {i : ℕ} (h : i < 2^40) : (blockReq i).startBlock = i := by
  unfold WriteReq.startBlock blockReq
  rw [Nat.mul_div_cancel _ blockSize_pos,Nat.mod_eq_of_lt h]

theorem blockReq_end {i : ℕ} (h : i < 2^40) : (blockReq i).newEnd = (i+1)*blockSize := by
  unfold WriteReq.newEnd
  rw [blockReq_start h]
  congr 2
  simp [WriteReq.numBlocks,blockReq,Nat.div_self blockSize_pos]

structure Filled (n : ℕ) (s : System) : Prop where
  calls : s.procs.length = n
  idle : Quiescent s
  indexed : find s.ctx.hashToMaster digestA = some 0
  alone : find s.ctx.hashToMaster digestB = none
  mapped : ∀ i, find s.ctx.fileToMaster ⟨fileA,i⟩ = if i < n then some 0 else none
  sized : find s.ctx.fileToSizes fileA = some (n*blockSize)
  cell : s.ctx.cell 0 = ⟨digestA,0,n % refcountMod⟩
  live : s.ctx.live = {0}

theorem filled_succ {n : ℕ} {s : System} (h : Filled n s) (hn : n < 2^40) :
    ∃ t, exec (step sampleSha512 id) s (hitWrite n 1 (blockReq n)) = some t ∧
      mallocs sampleSha512 id s (hitWrite n 1 (blockReq n)) = [] ∧ Filled (n+1) t := by
  have hhash : sampleSha512 (blockReq n).buf = digestA := rfl
  have hrun := hit_write_exec sampleSha512 id (s := s) (r := blockReq n)
    (a := 0) (x := 1) (quiescent_unlocked h.idle) List.length_replicate (by rw [hhash]; exact h.indexed)
    (by simp [h.live])
    (by rw [blockReq_start hn]; exact (h.mapped n).trans (if_neg (Nat.lt_irrefl n)))
  rw [h.calls,blockReq_start hn,blockReq_end hn] at hrun
  refine ⟨_,hrun.1,hrun.2,?_⟩
  have hgrow : ∀ c : Context, find c.fileToSizes fileA = some (n*blockSize) →
      growSize c fileA ((n+1)*blockSize) =
        { c with fileToSizes := c.fileToSizes.insert fileA ((n+1)*blockSize) } := by
    intro c hc
    simp only [growSize,hc]
    rw [if_pos]
    unfold blockSize
    omega
  rw [show (blockReq n).path = fileA from rfl,
    hgrow ((s.ctx.fetchAdd 0).insertFileBlock fileA n 0) h.sized]
  exact
    { calls := by simp [h.calls]
      idle := by
        intro st hst
        rcases List.mem_append.mp hst with hst | hst
        · exact h.idle st hst
        · rw [List.mem_singleton.mp hst]
          rfl
      indexed := h.indexed
      alone := h.alone
      mapped := by
        intro i
        simp only [Context.insertFileBlock,find_insert,BlockIndice.mk.injEq,true_and]
        have hi := h.mapped i
        split_ifs with h₁ h₂ h₂
        · rfl
        · omega
        · exact hi.trans (if_pos (by omega))
        · exact hi.trans (if_neg (by omega))
      sized := by simp [find_insert]
      cell := by
        simp [Context.insertFileBlock,Context.fetchAdd,Context.setRefcount,h.cell]
      live := h.live }

def fillRun : ℕ → List Action
  | 0 => [.call (.write (blockReq 0)),go 0 0,go 0 1,go 0 1,go 0 1,go 0 1,go 0 1,go 0 1,go 0 1]
  | n+1 => fillRun n++hitWrite (n+1) 1 (blockReq (n+1))

theorem filled_one : ∃ s, exec (step sampleSha512 id) emptySystem (fillRun 0) = some s ∧
    mallocs sampleSha512 id emptySystem (fillRun 0) = [0] ∧ Filled 1 s := by
  obtain ⟨s,hr,hp⟩ := exec_observe (step sampleSha512 id)
    (fun s => s.procs.length = 1 ∧ (∀ st ∈ s.procs, st.finished = true) ∧
      s.ctx.hashToMaster.entries = [⟨digestA,0⟩] ∧
      s.ctx.fileToMaster.entries = [⟨⟨fileA,0⟩,0⟩] ∧ s.ctx.fileToSizes.entries = [⟨fileA,4096⟩] ∧
      s.ctx.cell 0 = ⟨digestA,0,1⟩ ∧ s.ctx.live = {0}) emptySystem (fillRun 0) (by decide +kernel)
  obtain ⟨h₁,h₂,h₃,h₄,h₅,h₆,h₇⟩ := of_decide_eq_true hp
  refine ⟨s,hr,by decide +kernel,?_⟩
  exact
    { calls := h₁
      idle := h₂
      indexed := (find_singleton _ _ _ h₃ _).trans (if_pos rfl)
      alone := (find_singleton _ _ _ h₃ _).trans (if_neg (by decide))
      mapped := by
        intro i
        rw [find_singleton _ _ _ h₄]
        simp only [BlockIndice.mk.injEq,true_and,Nat.lt_one_iff]
      sized := (find_singleton _ _ _ h₅ _).trans (if_pos rfl)
      cell := h₆
      live := h₇ }

theorem filled_all (n : ℕ) (hn : n < 2^40) :
    ∃ s, exec (step sampleSha512 id) emptySystem (fillRun n) = some s ∧
      mallocs sampleSha512 id emptySystem (fillRun n) = [0] ∧ Filled (n+1) s := by
  induction n with
  | zero => exact filled_one
  | succ n ih =>
    obtain ⟨s,hs,hm,hf⟩ := ih (by omega)
    obtain ⟨t,ht,hm',hf'⟩ := filled_succ hf hn
    refine ⟨t,?_,?_,hf'⟩
    · rw [fillRun,exec_append,hs]
      exact ht
    · rw [fillRun,mallocs_append _ _ _ hs,hm,hm',List.append_nil]

theorem removeBlocks_add (path : Path) (n m i : ℕ) (c : Context) (slots : List ℕ) :
    removeBlocks path (n+m) i c slots = removeBlocks path m (i+n)
      (removeBlocks path n i c slots).1 (removeBlocks path n i c slots).2 := by
  induction n generalizing i c slots with
  | zero => rw [Nat.zero_add]; rfl
  | succ n ih =>
    rw [Nat.succ_add]
    simp only [removeBlocks]
    rw [ih,show i+1+n = i+(n+1) by omega]

def Shares (path : Path) (a : Ptr) (i j : ℕ) (c : Context) : Prop :=
  ∀ k, i ≤ k → k < j → find c.fileToMaster ⟨path,k⟩ = some a

theorem removeBlock_shared {path : Path} {a : Ptr} {i j : ℕ} {c : Context} (slots : List ℕ)
    (h : Shares path a i j c) (hi : i < j) : Shares path a (i+1) j (removeBlock path i c slots).1 ∧
      ((removeBlock path i c slots).1.cell a).masterBlockIndex = (c.cell a).masterBlockIndex ∧
      ((removeBlock path i c slots).1.cell a).refcount =
        ((c.cell a).refcount+(refcountMod-1)) % refcountMod ∧
      (removeBlock path i c slots).2 = if (c.cell a).refcount = 1 then
        (c.cell a).masterBlockIndex::slots else slots := by
  have hk := h i (Nat.le_refl i) hi
  have hrest : ∀ d : Context, d.fileToMaster = c.fileToMaster.erase ⟨path,i⟩ →
      Shares path a (i+1) j d := by
    intro d hd k h₁ h₂
    rw [hd,find_erase,if_neg]
    · exact h k (by omega) h₂
    · intro he
      have := congrArg BlockIndice.offset he
      simp only at this
      omega
  have hcell : ((c.removeFileBlock path i).cell a) = c.cell a := rfl
  simp only [removeBlock,Context.lookupByFileBlock,hk,Context.dropReference,hcell]
  split_ifs with h₁
  · refine ⟨hrest _ rfl,?_,?_,rfl⟩
    · simp [Context.free,Context.removeHash,Context.fetchSub,Context.removeFileBlock,
        Context.setRefcount]
    · simp [Context.free,Context.removeHash,Context.fetchSub,Context.removeFileBlock,
        Context.setRefcount]
  · refine ⟨hrest _ rfl,?_,?_,rfl⟩
    · simp [Context.fetchSub,Context.removeFileBlock,Context.setRefcount]
    · simp [Context.fetchSub,Context.removeFileBlock,Context.setRefcount]

theorem removeBlocks_shared {path : Path} {a : Ptr} {i j : ℕ} {c : Context} (n : ℕ)
    (slots : List ℕ) (h : Shares path a i j c) (hj : i+n ≤ j) (hn : n < (c.cell a).refcount)
    (hb : (c.cell a).refcount < refcountMod) :
    Shares path a (i+n) j (removeBlocks path n i c slots).1 ∧
      ((removeBlocks path n i c slots).1.cell a).masterBlockIndex =
        (c.cell a).masterBlockIndex ∧
      ((removeBlocks path n i c slots).1.cell a).refcount = (c.cell a).refcount-n ∧
      (removeBlocks path n i c slots).2 = slots := by
  induction n generalizing i c slots with
  | zero => exact ⟨h,rfl,rfl,rfl⟩
  | succ n ih =>
    obtain ⟨h₁,h₂,h₃,h₄⟩ := removeBlock_shared slots h (by omega)
    rw [pred_mod (by omega) hb] at h₃
    rw [if_neg (by omega)] at h₄
    obtain ⟨i₁,i₂,i₃,i₄⟩ := ih (removeBlock path i c slots).2 h₁ (by omega) (by omega) (by omega)
    simp only [removeBlocks]
    refine ⟨?_,i₂.trans h₂,by omega,i₄.trans h₄⟩
    rw [show i+(n+1) = i+1+n by omega]
    exact i₁

theorem removeBlocks_ends (path : Path) (k : ℕ) (c : Context) (slots : List ℕ) :
    removeBlocks path (k+3) 0 c slots =
      let t₀ := removeBlock path 0 c slots
      let t₁ := removeBlock path 1 t₀.1 t₀.2
      let t₂ := removeBlocks path k 2 t₁.1 t₁.2
      removeBlock path (2+k) t₂.1 t₂.2 := by
  rw [show k+3 = 1+(1+(k+1)) by omega,removeBlocks_add,removeBlocks_add,removeBlocks_add]
  rfl

/-- An object with 2^32+1 mappings counts one reference: its slot is released
by the first removal and again by the last. -/
theorem removeBlocks_wrapped {path : Path} {a : Ptr} {c : Context} {n : ℕ}
    (h : Shares path a 0 n c) (hn : n = refcountMod+1) (hc : (c.cell a).refcount = 1) :
    (removeBlocks path n 0 c []).2 =
      [(c.cell a).masterBlockIndex,(c.cell a).masterBlockIndex] := by
  obtain ⟨m,hm⟩ : ∃ m, refcountMod = m+2 := ⟨2^32-2,rfl⟩
  have hnm : n = m+3 := by omega
  subst hnm
  rw [removeBlocks_ends]
  set t₀ := removeBlock path 0 c [] with ht₀
  set t₁ := removeBlock path 1 t₀.1 t₀.2 with ht₁
  set t₂ := removeBlocks path m 2 t₁.1 t₁.2 with ht₂
  obtain ⟨a₁,a₂,a₃,a₄⟩ := removeBlock_shared [] h (by omega)
  rw [hc,show 1+(refcountMod-1) = refcountMod by omega,Nat.mod_self] at a₃
  rw [if_pos hc] at a₄
  obtain ⟨b₁,b₂,b₃,b₄⟩ := removeBlock_shared t₀.2 a₁ (by omega)
  rw [a₃,Nat.zero_add,Nat.mod_eq_of_lt (by omega)] at b₃
  rw [a₃,if_neg (by decide)] at b₄
  have hcount : (t₁.1.cell a).refcount = m+1 := b₃.trans (by omega)
  obtain ⟨c₁,c₂,c₃,c₄⟩ := removeBlocks_shared m t₁.2 b₁ (by omega)
    (by rw [hcount]; omega) (by rw [hcount]; omega)
  obtain ⟨-,-,-,d₄⟩ := removeBlock_shared t₂.2 c₁ (by omega)
  refine d₄.trans ?_
  have hlast : (t₂.1.cell a).refcount = 1 := c₃.trans (by rw [hcount]; omega)
  rw [if_pos hlast]
  have hidx : (t₂.1.cell a).masterBlockIndex = (c.cell a).masterBlockIndex := c₂.trans (b₂.trans a₂)
  rw [hidx]
  exact congrArg _ (c₄.trans (b₄.trans a₄))

/-- 2^32+1 writes of one block each, all with the same content, then the
unlink of the file up to the release of its slots. -/
def wrappedCounter : List Action :=
  fillRun refcountMod++[.call (.unlink fileA),go (refcountMod+1) 1,go (refcountMod+1) 1]

theorem wrapped_counter_releases_twice : ∃ s, Reaches sampleSha512 id wrappedCounter s ∧
    (mallocs sampleSha512 id emptySystem wrappedCounter).Nodup ∧ ¬ Accounted s := by
  have hm : 2 < refcountMod ∧ refcountMod < 2^40 := by decide
  obtain ⟨s,hs,hmal,hf⟩ := filled_all refcountMod hm.2
  have hshare : Shares fileA 0 0 (refcountMod+1) s.ctx := by
    intro k _ hk
    exact (hf.mapped k).trans (if_pos hk)
  have hone : (s.ctx.cell 0).refcount = 1 := by
    rw [hf.cell]
    decide
  have hslots := removeBlocks_wrapped hshare rfl hone
  rw [hf.cell] at hslots
  have hext : unlinkExtent fileA s.ctx = some (refcountMod+1) := by
    rw [unlinkExtent,hf.sized]
    decide
  obtain ⟨c,l⟩ := s
  obtain ⟨n,hn⟩ : ∃ n, n = refcountMod+1 := ⟨_,rfl⟩
  rw [←hn] at hext hslots hf
  have hlen : l.length = n := hf.calls
  have h₀ : step sampleSha512 id ⟨c,l⟩ (.call (.unlink fileA)) =
      some ⟨c,l++[.unlinkSize fileA]⟩ := rfl
  have h₁ : step sampleSha512 id ⟨c,l++[.unlinkSize fileA]⟩ (go n 1) =
      some ⟨c,l++[.unlinkRemove fileA n]⟩ := by
    rw [go,←hlen,step_last _ _ _ _ _ _ (quiescent_unlocked hf.idle) (by simp [Stage.needsWrite]),hlen]
    simp only [advance,hext,Option.map_some]
  have h₂ : step sampleSha512 id ⟨c,l++[.unlinkRemove fileA n]⟩ (go n 1) =
      some ⟨(removeBlocks fileA n 0 c []).1,
        l++[.unlinkConcat fileA (removeBlocks fileA n 0 c []).2]⟩ := by
    rw [go,←hlen,step_last _ _ _ _ _ _ (quiescent_unlocked hf.idle) (by simp [Stage.holdsRead]),hlen]
    rfl
  rw [wrappedCounter,←hn]
  refine ⟨⟨(removeBlocks fileA n 0 c []).1,
    l++[.unlinkConcat fileA (removeBlocks fileA n 0 c []).2]⟩,?_,?_,?_⟩
  · rw [Reaches,exec_append,hs]
    simp only [Option.bind_some,exec,h₀,h₁,h₂]
  · rw [mallocs_append _ _ _ hs,hmal,mallocs_cons _ _ _ h₀,mallocs_cons _ _ _ h₁,
      mallocs_cons _ _ _ h₂]
    simp [go,mallocBy,mallocAt,mallocs,←hlen]
  · intro hacc
    have hnd := hacc.nodup_iff.mpr List.nodup_range
    have hrel := hnd.sublist
      (((List.sublist_append_right _ _).trans (List.sublist_append_left _ _)).trans
        (List.sublist_append_left _ _))
    rw [List.flatMap_append] at hrel
    have hlast := hrel.sublist (List.sublist_append_right _ _)
    simp [releasing,hslots] at hlast

end Wrap

end ArchivalDedup.SlotAccounting
