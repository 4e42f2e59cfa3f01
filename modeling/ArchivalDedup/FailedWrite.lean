import ArchivalDedup.SequentialWrite
import ArchivalDedup.SlotAccounting

/-!
# A failed write leaves no trace

The rollback of a call that runs alone drops every HIT without reaching the last
reference and gives every slot of the plan back, so the tables, the published
objects with their bytes, and the set of allocatable slots are what they were.
-/

set_option autoImplicit false

namespace ArchivalDedup.FailedWrite
open ArchivalDedup.FiniteTable ArchivalDedup.MetaIndex ArchivalDedup.WriteDedup
open ArchivalDedup.PlanShape ArchivalDedup.Ledger ArchivalDedup.LedgerMoves
open ArchivalDedup.LedgerPublication ArchivalDedup.LedgerLoops ArchivalDedup.Threads
open ArchivalDedup.ThreadLedger ArchivalDedup.ReferenceSafety ArchivalDedup.Content
open ArchivalDedup.SequentialWrite ArchivalDedup.SlotAccounting ArchivalDedup.Interleaving

variable {sha512 : List UInt8 → Hash} {r : WriteReq} {c₀ c : Context}

/-- The slots that the allocator may hand out. -/
def Allocatable (c : Context) (slot : ℕ) : Prop := slot ∈ c.freeBlockList ∨ c.nextBlockIndex ≤ slot

structure NoTrace (c c' : Context) : Prop where
  hashToMaster : c'.hashToMaster = c.hashToMaster
  fileToMaster : c'.fileToMaster = c.fileToMaster
  fileToSizes : c'.fileToSizes = c.fileToSizes
  infos : ∀ h a, find c.hashToMaster h = some a → c'.cell a = c.cell a
  bytes : ∀ h a, find c.hashToMaster h = some a →
    c'.toMasterFile.block (c.cell a).masterBlockIndex = c.toMasterFile.block (c.cell a).masterBlockIndex
  allocatable : ∀ slot, Allocatable c' slot ↔ Allocatable c slot
  distinct : c'.freeBlockList.Nodup

/-- Each HIT shares its object with a mapping or with the MISS that made it. -/
def Supported (c : Context) (plan : List PlanEntry) (e : PlanEntry) : Prop :=
  0 < occurrences c.fileToMaster e.info ∨ ∃ m ∈ plan, m.kind = .miss ∧ m.info = e.info

theorem supported_not_last {e : PlanEntry} {es : List PlanEntry} {extra : List ℕ}
    (h : Inv ∅ c [⟨e::es,extra,true⟩]) (hs : Supported c es e) :
    (c.cell e.info).refcount ≠ 1 := by
  have hpos : 0 < refs c [⟨es,extra,true⟩] e.info := by
    rcases hs with hs | ⟨m,hm,_,hi⟩
    · simp only [refs]
      omega
    · have : 0 < planRefs es e.info := by
        rw [Nat.pos_iff_ne_zero,Ne,planRefs_zero]
        exact fun hz => hz m hm hi
      simp only [refs,heldRefs_cons]
      omega
  have hl : e.info ∈ c.live := by
    by_contra hn
    rcases h.stale e.info hn with hz | ⟨hz,_⟩
    · simp only [refs,heldRefs_cons,planRefs_cons,if_true] at hz
      omega
    · exact hz
  have hc := h.counted e.info hl
  simp only [refs,heldRefs_cons,planRefs_cons,if_true] at hc hpos
  omega

theorem rollbackHits_supported (rest done : List PlanEntry) {extra : List ℕ}
    (h : Inv ∅ c [⟨rest++done,extra,true⟩])
    (hs : ∀ e ∈ rest, e.kind = .hit → Supported c (rest++done) e) :
    (rollbackHits rest c extra).1.toIndex = c.toIndex ∧
      (rollbackHits rest c extra).1.toMasterFile = c.toMasterFile ∧
      (rollbackHits rest c extra).1.nextBlockIndex = c.nextBlockIndex ∧
      (rollbackHits rest c extra).2 = extra ∧
      ∀ a, ((rollbackHits rest c extra).1.cell a).hash = (c.cell a).hash ∧
        ((rollbackHits rest c extra).1.cell a).masterBlockIndex = (c.cell a).masterBlockIndex := by
  induction rest generalizing c done with
  | nil => exact ⟨rfl,rfl,rfl,rfl,fun _ => ⟨rfl,rfl⟩⟩
  | cons e es ih =>
    cases hk : e.kind with
    | hit =>
      have hsup : Supported c (es++done) e := by
        rcases hs e (by simp) hk with h' | ⟨m,hm,hmk,hmi⟩
        · exact Or.inl h'
        · rcases List.mem_cons.mp hm with rfl | hm
          · rw [hk] at hmk
            cases hmk
          · exact Or.inr ⟨m,hm,hmk,hmi⟩
      have hne := supported_not_last h hsup
      have hdrop : c.dropReference extra e.info = (c.fetchSub e.info,extra) := if_neg hne
      simp only [rollbackHits,hk,hdrop]
      obtain ⟨h₁,h₂,h₃,h₄,h₅⟩ := ih done (inv_drop_more h hne hk) (by
        intro m hm hmk
        rcases hs m (by simp [hm]) hmk with h' | ⟨q,hq,hqk,hqi⟩
        · exact Or.inl h'
        · rcases List.mem_cons.mp hq with rfl | hq
          · rw [hk] at hqk
            cases hqk
          · exact Or.inr ⟨q,hq,hqk,hqi⟩)
      exact ⟨h₁,h₂,h₃,h₄,fun a => ⟨(h₅ a).1.trans (setRefcount_hash c _ _ a),
        (h₅ a).2.trans (setRefcount_masterBlockIndex c _ _ a)⟩⟩
    | miss =>
      simp only [rollbackHits,hk]
      have hperm : (e::(es++done)).Perm (es++e::done) := List.perm_middle.symm
      exact ih (e::done) (inv_replan hperm h) (by
        intro m hm hmk
        rcases hs m (by simp [hm]) hmk with h' | ⟨q,hq,hqk,hqi⟩
        · exact Or.inl h'
        · exact Or.inr ⟨q,hperm.mem_iff.mp hq,hqk,hqi⟩)

theorem staged_supported {t : List PlanEntry × Context × Option Errno} (h₀ : Inv ∅ c₀ [])
    (h : StagedWrite sha512 r c₀ t) : ∀ e ∈ t.1, e.kind = .hit → Supported t.2.1 t.1 e := by
  intro e he _
  have hl := (h.planned.hashes e he).1
  rcases h.ledger.shared _ (List.mem_singleton.mpr rfl) e he hl with hp | hm
  · left
    have hk : find c₀.hashToMaster (t.2.1.cell e.info).hash = some e.info := by
      rw [←h.planned.hashToMaster]
      exact hp
    have := h₀.positive e.info (h₀.keyed _ _ hk).2.1
    rw [h.planned.fileToMaster]
    simpa [refs] using this
  · exact Or.inr hm

theorem allocatable_iff (h : Inv ∅ c []) (slot : ℕ) :
    Allocatable c slot ↔ slot ∉ publishedSlots c := by
  have hs := h.slots
  simp only [List.flatMap_nil,List.append_nil] at hs
  have hnd := hs.nodup_iff.mpr List.nodup_range
  constructor
  · rintro (hf | hn) hp
    · exact List.disjoint_of_nodup_append hnd hf hp
    · have := List.mem_range.mp (hs.mem_iff.mp (List.mem_append_right _ hp))
      omega
  · intro hp
    by_cases hlt : slot < c.nextBlockIndex
    · have hmem := hs.mem_iff.mpr (List.mem_range.mpr hlt)
      rcases List.mem_append.mp hmem with hf | hf
      · exact Or.inl hf
      · exact absurd hf hp
    · exact Or.inr (by omega)

theorem free_nodup (h : Inv ∅ c []) : c.freeBlockList.Nodup :=
  (List.Nodup.of_append_left (slots_nodup h)).of_append_left

theorem inv_rollback {ps : List Party} {t : List PlanEntry × Context × Option Errno}
    (h : StagedAmong sha512 ps r c₀ t) : Inv ∅ (rollbackAllocations t.1 t.2.1) ps := by
  have h₁ := inv_rollbackHits t.1 [] (by simpa using h.ledger)
  rw [List.append_nil] at h₁
  exact (inv_idle true).mp (inv_rollbackMisses (inv_release h₁))

theorem rollback_cell {t : List PlanEntry × Context × Option Errno} (h₀ : Inv ∅ c₀ [])
    (h : StagedWrite sha512 r c₀ t) {k : Hash} {a : Ptr} (hk : find c₀.hashToMaster k = some a) :
    (rollbackAllocations t.1 t.2.1).cell a = c₀.cell a := by
  have ha := (h₀.keyed k a hk).2.1
  have hd := inv_rollback h
  obtain ⟨i₁,_,_,_,i₅⟩ := rollbackHits_supported t.1 [] (by simpa using h.ledger)
    (by simpa using staged_supported h₀ h)
  obtain ⟨k₁,k₂,_,k₄,_,_⟩ := rollbackMisses_keeps t.1
    ((rollbackHits t.1 t.2.1 []).1.releaseSlots (rollbackHits t.1 t.2.1 []).2)
  have hcell : (rollbackAllocations t.1 t.2.1).cell a = (rollbackHits t.1 t.2.1 []).1.cell a :=
    congrFun k₄ a
  have hhash : (rollbackAllocations t.1 t.2.1).hashToMaster = c₀.hashToMaster :=
    k₁.trans ((congrArg Index.hashToMaster i₁).trans h.planned.hashToMaster)
  have hfile : (rollbackAllocations t.1 t.2.1).fileToMaster = c₀.fileToMaster :=
    k₂.trans ((congrArg Index.fileToMaster i₁).trans h.planned.fileToMaster)
  have hlive : a ∈ (rollbackAllocations t.1 t.2.1).live := (hd.keyed k a (by rw [hhash]; exact hk)).2.1
  have hcount : ((rollbackAllocations t.1 t.2.1).cell a).refcount = (c₀.cell a).refcount := by
    rw [hd.counted a hlive,h₀.counted a ha]
    simp only [refs,hfile]
  have hkept := h.planned.kept a ha
  have hh := congrArg MasterInfo.hash hcell
  have hm := congrArg MasterInfo.masterBlockIndex hcell
  rw [(i₅ a).1,hkept.2.1] at hh
  rw [(i₅ a).2,hkept.2.2] at hm
  exact MasterInfo.ext hh hm hcount

theorem rollback_no_trace {t : List PlanEntry × Context × Option Errno} (h₀ : Inv ∅ c₀ [])
    (h : StagedWrite sha512 r c₀ t) : NoTrace c₀ (rollbackAllocations t.1 t.2.1) := by
  have hd := inv_rollback h
  obtain ⟨i₁,i₂,_,_,_⟩ := rollbackHits_supported t.1 [] (by simpa using h.ledger)
    (by simpa using staged_supported h₀ h)
  obtain ⟨k₁,k₂,k₃,_,k₅,_⟩ := rollbackMisses_keeps t.1
    ((rollbackHits t.1 t.2.1 []).1.releaseSlots (rollbackHits t.1 t.2.1 []).2)
  have hhash : (rollbackAllocations t.1 t.2.1).hashToMaster = c₀.hashToMaster :=
    k₁.trans ((congrArg Index.hashToMaster i₁).trans h.planned.hashToMaster)
  have hfile : (rollbackAllocations t.1 t.2.1).toMasterFile = t.2.1.toMasterFile := k₅.trans i₂
  have hslots : publishedSlots (rollbackAllocations t.1 t.2.1) = publishedSlots c₀ := by
    unfold publishedSlots
    rw [hhash]
    apply values_by_congr
    intro k a hk
    rw [rollback_cell h₀ h hk]
  exact
    { hashToMaster := hhash
      fileToMaster := k₂.trans ((congrArg Index.fileToMaster i₁).trans h.planned.fileToMaster)
      fileToSizes := k₃.trans ((congrArg Index.fileToSizes i₁).trans h.planned.fileToSizes)
      infos := fun k a hk => rollback_cell h₀ h hk
      bytes := by
        intro k a hk
        obtain ⟨hh,ha,_⟩ := h₀.keyed k a hk
        obtain ⟨_,hkh,hks⟩ := h.planned.kept a ha
        have hpub : Published t.2.1 a := by
          rw [Published,hkh,hh,h.planned.hashToMaster]
          exact hk
        have hslot := (published_slot_unclaimed h.ledger hpub).2 _ (List.mem_singleton.mpr rfl)
        rw [hks] at hslot
        rw [hfile]
        exact h.spares _ hslot
      allocatable := fun slot => by rw [allocatable_iff hd,allocatable_iff h₀,hslots]
      distinct := free_nodup hd }

theorem noTrace_refl (h : Inv ∅ c []) : NoTrace c c :=
  ⟨rfl,rfl,rfl,fun _ _ _ => rfl,fun _ _ _ => rfl,fun _ => Iff.rfl,free_nodup h⟩

theorem quiescent_ledger {s : System} (h : SysInv sha512 ∅ s) (hq : Quiescent s) :
    Inv ∅ s.ctx [] := by
  have hidle : ∀ procs : List Stage, (∀ st ∈ procs, st.finished = true) →
      Inv ∅ s.ctx (procs.map party) → Inv ∅ s.ctx [] := by
    intro procs hp hi
    induction procs with
    | nil => exact hi
    | cons st procs ih =>
      have hst : party st = ⟨[],[],true⟩ := by
        have := hp st (by simp)
        cases st <;> first | rfl | cases this
      rw [List.map_cons,hst] at hi
      exact ih (fun q hq => hp q (by simp [hq])) ((inv_idle true).mp hi)
  exact hidle s.procs hq h.ledger

/-- After a clean run, with nothing in progress, a write whose increments fit
the counters and that fails leaves no trace. -/
theorem failed_write_no_trace {qsort : List ReadDedup.BlockPair → List ReadDedup.BlockPair}
    (acts : List Action) (s : System) (hr : Reaches sha512 qsort acts s)
    (hc : Meets (step sha512 qsort) (Clean sha512) emptySystem acts) (hq : Quiescent s)
    (env : Env) (r : WriteReq) (hfit : CallFits sha512 r s.ctx) (c' : Context) (err : Errno)
    (hw : writeDedup sha512 env r s.ctx = (c',.error err)) : NoTrace s.ctx c' := by
  have h₀ := quiescent_ledger (clean_run hr hc) hq
  unfold writeDedup at hw
  split_ifs at hw with h₁ h₂
  · cases (Prod.mk.inj hw).2
  · rw [←(Prod.mk.inj hw).1]
    exact noTrace_refl h₀
  · rw [not_or,not_not] at h₂
    have hs := stageWrite_alone env h₀ (hfit h₂.2)
    unfold finishWrite at hw
    split at hw
    · rw [←(Prod.mk.inj hw).1]
      exact rollback_no_trace h₀ hs
    · cases (Prod.mk.inj hw).2

def shortEnv (written : List UInt8) : Env := ⟨topAlloc,topAlloc_fresh,fun _ => .short written⟩

def mixedReq : WriteReq where
  path := fileB
  buf := List.replicate (2*blockSize) 65++List.replicate blockSize 66
  offset := 0
  fits := by
    rw [List.length_append,List.length_replicate,List.length_replicate]
    decide
  inRange := by
    rw [List.length_append,List.length_replicate,List.length_replicate]
    decide

theorem failed_write_no_trace_mixed : ∃ s c', Reaches sampleSha512 id (fillRun 0) s ∧
    Meets (step sampleSha512 id) (Clean sampleSha512) emptySystem (fillRun 0) ∧ Quiescent s ∧
    CallFits sampleSha512 mixedReq s.ctx ∧
    writeDedup sampleSha512 (shortEnv [1,2,3]) mixedReq s.ctx = (c',.error .eio) ∧
    NoTrace s.ctx c' ∧ find s.ctx.hashToMaster digestA = some 0 := by
  have hc : Meets (step sampleSha512 id) (Clean sampleSha512) emptySystem (fillRun 0) := by
    decide +kernel
  obtain ⟨s,hr,hp⟩ := exec_observe (step sampleSha512 id)
    (fun s => (∀ st ∈ s.procs, st.finished = true) ∧ CallFits sampleSha512 mixedReq s.ctx ∧
      (writeDedup sampleSha512 (shortEnv [1,2,3]) mixedReq s.ctx).2 = .error .eio ∧
      find s.ctx.hashToMaster digestA = some 0) emptySystem (fillRun 0) (by decide +kernel)
  obtain ⟨hq,hfit,hw,hk⟩ := of_decide_eq_true hp
  cases hw' : writeDedup sampleSha512 (shortEnv [1,2,3]) mixedReq s.ctx with
  | mk c' res =>
    rw [hw'] at hw
    subst hw
    exact ⟨s,c',hr,hc,hq,hfit,hw',failed_write_no_trace (fillRun 0) s hr hc hq
      (shortEnv [1,2,3]) mixedReq hfit c' .eio hw',hk⟩

def hitAt (i : ℕ) : PlanEntry := newEntry .hit mixedReq i digestA 0

def missAt (a : Ptr) : PlanEntry := newEntry .miss mixedReq 2 digestB a

theorem mixed_pass1 (env : Env) (hA : find c.hashToMaster digestA = some 0)
    (hB : find c.hashToMaster digestB = none) :
    pass1 sampleSha512 env mixedReq 3 c Pass1.start =
      (((c.fetchAdd 0).fetchAdd 0).malloc (env.alloc c.live) ⟨digestB,0,1⟩,
        ⟨[hitAt 0,hitAt 1,missAt (env.alloc c.live)],
          (∅ : Table Hash Ptr).insert digestB (env.alloc c.live)⟩) := by
  have b₀ : sampleSha512 (mixedReq.block 0) = digestA := by decide +kernel
  have b₁ : sampleSha512 (mixedReq.block 1) = digestA := by decide +kernel
  have b₂ : sampleSha512 (mixedReq.block 2) = digestB := by decide +kernel
  have e₀ : existingInfo c Pass1.start (sampleSha512 (mixedReq.block Pass1.start.plan.length)) =
      some 0 := by
    change existingInfo c Pass1.start (sampleSha512 (mixedReq.block 0)) = some 0
    simp [existingInfo,Context.lookupByHash,b₀,hA]
  have e₁ : existingInfo (c.fetchAdd 0) ⟨[hitAt 0],∅⟩ (sampleSha512 (mixedReq.block
      (Pass1.mk [hitAt 0] ∅).plan.length)) = some 0 := by
    change existingInfo (c.fetchAdd 0) ⟨[hitAt 0],∅⟩ (sampleSha512 (mixedReq.block 1)) = some 0
    simp [existingInfo,Context.lookupByHash,b₁,hA,Context.fetchAdd]
  have e₂ : existingInfo ((c.fetchAdd 0).fetchAdd 0) ⟨[hitAt 0,hitAt 1],∅⟩
      (sampleSha512 (mixedReq.block (Pass1.mk [hitAt 0,hitAt 1] ∅).plan.length)) = none := by
    change existingInfo _ _ (sampleSha512 (mixedReq.block 2)) = none
    simp [existingInfo,Context.lookupByHash,b₂,hB,Context.fetchAdd]
  have s₀ : pass1Block sampleSha512 mixedReq (env.alloc c.live) c Pass1.start =
      (c.fetchAdd 0,⟨[hitAt 0],∅⟩) := by
    rw [pass1Block_hit _ e₀]
    change (c.fetchAdd 0,(⟨[newEntry .hit mixedReq 0 (sampleSha512 (mixedReq.block 0)) 0],∅⟩ : Pass1)) = _
    rw [b₀]
    rfl
  have s₁ : ∀ x, pass1Block sampleSha512 mixedReq x (c.fetchAdd 0) ⟨[hitAt 0],∅⟩ =
      ((c.fetchAdd 0).fetchAdd 0,⟨[hitAt 0,hitAt 1],∅⟩) := by
    intro x
    rw [pass1Block_hit _ e₁]
    change (_,(⟨[hitAt 0,newEntry .hit mixedReq 1 (sampleSha512 (mixedReq.block 1)) 0],∅⟩ : Pass1)) = _
    rw [b₁]
    rfl
  have s₂ : ∀ x, pass1Block sampleSha512 mixedReq x ((c.fetchAdd 0).fetchAdd 0)
      ⟨[hitAt 0,hitAt 1],∅⟩ = (((c.fetchAdd 0).fetchAdd 0).malloc x ⟨digestB,0,1⟩,
        ⟨[hitAt 0,hitAt 1,missAt x],(∅ : Table Hash Ptr).insert digestB x⟩) := by
    intro x
    rw [pass1Block_miss _ e₂]
    change (((c.fetchAdd 0).fetchAdd 0).malloc x ⟨sampleSha512 (mixedReq.block 2),0,1⟩,
      (⟨[hitAt 0,hitAt 1,newEntry .miss mixedReq 2 (sampleSha512 (mixedReq.block 2)) x],
        (∅ : Table Hash Ptr).insert (sampleSha512 (mixedReq.block 2)) x⟩ : Pass1)) = _
    rw [b₂]
    rfl
  simp only [pass1,s₀,s₁,s₂]
  rfl

theorem mixed_flush (d : Context) (a : Ptr) :
    ∃ m d', allocateAndFlush (shortEnv []) mixedReq [hitAt 0,hitAt 1,missAt a] d =
      ([hitAt 0,hitAt 1,{ missAt a with masterBlk := m }],d',some .eio) ∧
      d'.hashToMaster = d.hashToMaster ∧ ∀ b ≠ a, d'.cell b = d.cell b := by
  have hm : missCount [hitAt 0,hitAt 1,missAt a] = 1 := rfl
  obtain ⟨m,hs⟩ := List.length_eq_one_iff.mp
    (appendSlots_length (drainFreeList 1 d).1 (drainFreeList 1 d).2
      (by simp [drainFreeList]))
  have ha : assignSlots [hitAt 0,hitAt 1,missAt a] [m] (allocateBatchStorageFirst 1 d).2 =
      ([hitAt 0,hitAt 1,{ missAt a with masterBlk := m }],
        (allocateBatchStorageFirst 1 d).2.setMasterBlockIndex a m) := rfl
  have hf : ∀ f, (flushPlan mixedReq (shortEnv []).io
      [hitAt 0,hitAt 1,{ missAt a with masterBlk := m }] f).2 = some .eio := fun _ => rfl
  unfold allocateAndFlush
  rw [hm,if_pos Nat.one_pos]
  simp only [show (allocateBatchStorageFirst 1 d).1 = [m] from hs,ha,hf]
  refine ⟨m,_,rfl,rfl,?_⟩
  intro b hb
  simp only [Context.setMasterBlockIndex,Function.update_of_ne hb]
  rfl

/-- Two HITs on an object with 2^32-1 references count one, and the first of
them to be rolled back takes the object out of the index. -/
theorem full_counter_loses (hA : find c.hashToMaster digestA = some 0)
    (hB : find c.hashToMaster digestB = none) (hc : c.cell 0 = ⟨digestA,0,refcountMod-1⟩)
    (hl : c.live = {0}) : ∃ c', writeDedup sampleSha512 (shortEnv []) mixedReq c = (c',.error .eio) ∧
      find c'.hashToMaster digestA = none := by
  have hlen : mixedReq.buf.length = 3*blockSize := by
    simp only [mixedReq,List.length_append,List.length_replicate]
    omega
  have hnum : mixedReq.numBlocks = 3 := by
    rw [WriteReq.numBlocks,hlen]
    rfl
  set a := (shortEnv []).alloc c.live with ha
  have hne : (0 : Ptr) ≠ a := by
    have := (shortEnv []).alloc_fresh c.live
    rw [←ha,hl,Finset.mem_singleton] at this
    exact fun h => this h.symm
  obtain ⟨m,d,hd,hdh,hdc⟩ := mixed_flush (((c.fetchAdd 0).fetchAdd 0).malloc a ⟨digestB,0,1⟩) a
  have hstage : stageWrite sampleSha512 (shortEnv []) mixedReq c =
      ([hitAt 0,hitAt 1,{ missAt a with masterBlk := m }],d,some .eio) := by
    unfold stageWrite
    rw [hnum,mixed_pass1 (shortEnv []) hA hB]
    exact hd
  have hcell : d.cell 0 = ⟨digestA,0,1⟩ := by
    rw [hdc 0 hne]
    simp only [Context.malloc,Function.update_of_ne hne,Context.fetchAdd,Context.setRefcount,
      Function.update_self,hc]
    rfl
  refine ⟨rollbackAllocations [hitAt 0,hitAt 1,{ missAt a with masterBlk := m }] d,?_,?_⟩
  · unfold writeDedup
    rw [hlen,hnum,hstage]
    rfl
  · obtain ⟨k₁,_⟩ := rollbackMisses_keeps [hitAt 0,hitAt 1,{ missAt a with masterBlk := m }]
      ((rollbackHits [hitAt 0,hitAt 1,{ missAt a with masterBlk := m }] d []).1.releaseSlots
        (rollbackHits [hitAt 0,hitAt 1,{ missAt a with masterBlk := m }] d []).2)
    have hdrop : d.dropReference [] 0 =
        (((d.fetchSub 0).removeHash digestA).free 0,[0]) := by
      simp [Context.dropReference,hcell]
    have hzero : ((((d.fetchSub 0).removeHash digestA).free 0).cell 0).refcount = 0 := by
      simp [Context.free,Context.removeHash,Context.fetchSub,Context.setRefcount,hcell,refcountMod]
    have hagain : (((d.fetchSub 0).removeHash digestA).free 0).dropReference [0] 0 =
        ((((d.fetchSub 0).removeHash digestA).free 0).fetchSub 0,[0]) := by
      rw [Context.dropReference,if_neg (by rw [hzero]; decide)]
    have hhits : rollbackHits [hitAt 0,hitAt 1,{ missAt a with masterBlk := m }] d [] =
        ((((d.fetchSub 0).removeHash digestA).free 0).fetchSub 0,[0]) := by
      simp only [rollbackHits,hitAt,missAt,newEntry,hdrop,hagain]
    unfold rollbackAllocations
    rw [k₁,hhits]
    change find (d.hashToMaster.erase digestA) digestA = none
    rw [find_erase,if_pos rfl]

theorem full_counter_trace : ∃ s c', Reaches sampleSha512 id (fillRun (refcountMod-2)) s ∧
    Quiescent s ∧ writeDedup sampleSha512 (shortEnv []) mixedReq s.ctx = (c',.error .eio) ∧
    ¬ NoTrace s.ctx c' := by
  obtain ⟨s,hs,_,hf⟩ := filled_all (refcountMod-2) (by decide)
  have hcell : s.ctx.cell 0 = ⟨digestA,0,refcountMod-1⟩ := by
    rw [hf.cell]
    rfl
  obtain ⟨c',hw,hk⟩ := full_counter_loses hf.indexed hf.alone hcell hf.live
  refine ⟨s,c',hs,hf.idle,hw,?_⟩
  intro h
  rw [h.hashToMaster,hf.indexed] at hk
  cases hk

end ArchivalDedup.FailedWrite
