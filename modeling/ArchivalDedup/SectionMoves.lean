import ArchivalDedup.SectionLedger

/-!
# What turns and steps touch

A section under the write lock works on the tables and on objects that are
indexed or its own. What a call touches without `metadata_rwlock` is the free
list, the append counter, the master file and pending objects of its own. So a
turn of one section and the next step of another call may change places.
-/

set_option autoImplicit false

namespace ArchivalDedup.SectionMoves
open ArchivalDedup.FiniteTable ArchivalDedup.MetaIndex ArchivalDedup.WriteDedup
open ArchivalDedup.ReadDedup ArchivalDedup.Passthrough ArchivalDedup.PlanShape ArchivalDedup.Ledger
open ArchivalDedup.LedgerMoves ArchivalDedup.LedgerPasses ArchivalDedup.LedgerLoops
open ArchivalDedup.Threads ArchivalDedup.ThreadLedger ArchivalDedup.LockedSections
open ArchivalDedup.SectionLedger

variable {sha512 : List UInt8 → Hash} {qsort : List BlockPair → List BlockPair}
variable {c d : Context} {ch : Choice}

/-! ## What is changed without `metadata_rwlock` -/

def restore (l : List ℕ) (f : MasterFile) (n : ℕ) (freed : Finset Ptr) (c : Context) : Context :=
  { c with freeBlockList := l, toMasterFile := f, nextBlockIndex := n, live := c.live \ freed }

def enterSlots : List (Ptr × ℕ) → Context → Context
  | [], c => c
  | x::xs, c => enterSlots xs (c.setMasterBlockIndex x.1 x.2)

def SameStorage (c d : Context) : Prop :=
  d.freeBlockList = c.freeBlockList ∧ d.toMasterFile = c.toMasterFile ∧
    d.nextBlockIndex = c.nextBlockIndex

section Restore

variable (l : List ℕ) (f : MasterFile) (n : ℕ) (freed : Finset Ptr)

theorem dropReference_restore (c : Context) (slots : List ℕ) (a : Ptr) :
    (restore l f n freed c).dropReference slots a =
      (restore l f n freed (c.dropReference slots a).1,(c.dropReference slots a).2) := by
  have hlive : (c.live.erase a) \ freed = (c.live \ freed).erase a := Finset.erase_sdiff_comm ..
  by_cases h : (c.cell a).refcount = 1
  · have h' : ((restore l f n freed c).cell a).refcount = 1 := h
    simp only [Context.dropReference,if_pos h,if_pos h']
    simp only [restore,Context.free,Context.removeHash,Context.fetchSub,Context.setRefcount,hlive]
  · have h' : ¬ ((restore l f n freed c).cell a).refcount = 1 := h
    simp only [Context.dropReference,if_neg h,if_neg h']
    rfl

theorem removeBlock_restore (path : Path) (i : ℕ) (c : Context) (slots : List ℕ) :
    removeBlock path i (restore l f n freed c) slots =
      (restore l f n freed (removeBlock path i c slots).1,(removeBlock path i c slots).2) := by
  have hfind : (restore l f n freed c).lookupByFileBlock path i = c.lookupByFileBlock path i := rfl
  simp only [removeBlock,hfind]
  cases c.lookupByFileBlock path i with
  | none => rfl
  | some a => exact dropReference_restore l f n freed (c.removeFileBlock path i) slots a

theorem publishEntry_restore (c : Context) (slots : List ℕ) (e : PlanEntry) :
    publishEntry (restore l f n freed c) slots e =
      (restore l f n freed (publishEntry c slots e).1,(publishEntry c slots e).2) := by
  have hlive : (c.live.erase e.info) \ freed = (c.live \ freed).erase e.info :=
    Finset.erase_sdiff_comm ..
  have hfind : (restore l f n freed c).lookupByHash ((restore l f n freed c).cell e.info).hash =
    c.lookupByHash (c.cell e.info).hash := rfl
  cases hk : e.kind with
  | hit => simp only [publishEntry,hk]
  | miss =>
    simp only [publishEntry,hk,hfind]
    cases c.lookupByHash (c.cell e.info).hash with
    | none => rfl
    | some w =>
      simp only [restore,Context.free,Context.fetchAdd,Context.setRefcount,hlive]

theorem mapEntry_restore (path : Path) (c : Context) (slots : List ℕ) (e : PlanEntry) :
    mapEntry path (restore l f n freed c) slots e =
      (restore l f n freed (mapEntry path c slots e).1,(mapEntry path c slots e).2) := by
  have hfind : (restore l f n freed c).lookupByFileBlock path e.logicalBlk =
    c.lookupByFileBlock path e.logicalBlk := rfl
  simp only [mapEntry,hfind]
  cases c.lookupByFileBlock path e.logicalBlk with
  | none => rfl
  | some a =>
    simp only [dropReference_restore]
    rfl

theorem growSize_restore (c : Context) (path : Path) (m : ℕ) :
    growSize (restore l f n freed c) path m = restore l f n freed (growSize c path m) := by
  have hfind : find (restore l f n freed c).fileToSizes path = find c.fileToSizes path := rfl
  simp only [growSize,hfind]
  cases find c.fileToSizes path with
  | none => rfl
  | some size =>
    by_cases h : m > size
    · simp only [if_pos h]
      rfl
    · simp only [if_neg h]

theorem turn_restore {sec : Section} (hw : sec.holdsWrite = true) (c : Context) :
    turn (restore l f n freed c) sec = (restore l f n freed (turn c sec).1,(turn c sec).2) := by
  cases sec with
  | removing path size k i slots =>
    cases k with
    | zero => rfl
    | succ k => simp only [turn,removeBlock_restore]
  | publishing r done rest slots =>
    cases rest with
    | nil => rfl
    | cons e es => simp only [turn,publishEntry_restore]
  | mapping r rest slots =>
    cases rest with
    | nil => simp only [turn,growSize_restore]
    | cons e es => simp only [turn,mapEntry_restore]
  | reverting done rest slots err =>
    cases rest with
    | nil => rfl
    | cons e es =>
      cases hk : e.kind with
      | hit => simp only [turn,hk,dropReference_restore]
      | miss => simp only [turn,hk]
  | draining r plan taken => cases hw
  | discarding rest err => cases hw

end Restore

theorem restore_self (c : Context) :
    restore c.freeBlockList c.toMasterFile c.nextBlockIndex ∅ c = c := by
  simp only [restore,Finset.sdiff_empty]

theorem turn_storage {sec : Section} (hw : sec.holdsWrite = true) (c : Context) :
    SameStorage c (turn c sec).1 := by
  have h := turn_restore c.freeBlockList c.toMasterFile c.nextBlockIndex ∅ hw c
  rw [restore_self] at h
  have h' := congrArg Prod.fst h
  rw [h']
  exact ⟨rfl,rfl,rfl⟩

/-! ## Slots entered in pending objects -/

def dropped (c : Context) : Section → Option Ptr
  | .removing path _ (_+1) i _ => c.lookupByFileBlock path i
  | .mapping r (e::_) _ => c.lookupByFileBlock r.path e.logicalBlk
  | .reverting _ (e::_) _ _ => some e.info
  | _ => none

theorem setRefcount_setMasterBlockIndex (c : Context) (a b : Ptr) (m n : ℕ) :
    (c.setMasterBlockIndex a m).setRefcount b n = (c.setRefcount b n).setMasterBlockIndex a m := by
  have hcell : Function.update (Function.update c.cell a { c.cell a with masterBlockIndex := m }) b
      { Function.update c.cell a { c.cell a with masterBlockIndex := m } b with refcount := n } =
    Function.update (Function.update c.cell b { c.cell b with refcount := n }) a
      { Function.update c.cell b { c.cell b with refcount := n } a with masterBlockIndex := m } := by
    by_cases h : a = b
    · subst h
      simp
    · rw [Function.update_of_ne (Ne.symm h),Function.update_of_ne h,Function.update_comm h]
  simp only [Context.setRefcount,Context.setMasterBlockIndex,hcell]

theorem setMasterBlockIndex_hash (c : Context) (a b : Ptr) (m : ℕ) :
    ((c.setMasterBlockIndex a m).cell b).hash = (c.cell b).hash := by
  by_cases h : b = a
  · subst h
    simp [Context.setMasterBlockIndex]
  · simp [Context.setMasterBlockIndex,h]

theorem setMasterBlockIndex_refcount (c : Context) (a b : Ptr) (m : ℕ) :
    ((c.setMasterBlockIndex a m).cell b).refcount = (c.cell b).refcount := by
  by_cases h : b = a
  · subst h
    simp [Context.setMasterBlockIndex]
  · simp [Context.setMasterBlockIndex,h]

theorem dropReference_enterSlot (c : Context) (slots : List ℕ) {a b : Ptr} (m : ℕ) (h : b ≠ a) :
    (c.setMasterBlockIndex a m).dropReference slots b =
      ((c.dropReference slots b).1.setMasterBlockIndex a m,(c.dropReference slots b).2) := by
  have hcell : (c.setMasterBlockIndex a m).cell b = c.cell b := Function.update_of_ne h ..
  have hsub : (c.setMasterBlockIndex a m).fetchSub b = (c.fetchSub b).setMasterBlockIndex a m := by
    unfold Context.fetchSub
    rw [hcell,setRefcount_setMasterBlockIndex]
  unfold Context.dropReference
  rw [hcell,hsub]
  split_ifs <;> rfl

theorem turn_enterSlot {sec : Section} (hw : sec.holdsWrite = true) (c : Context) {a : Ptr} (m : ℕ)
    (hd : dropped c sec ≠ some a) : turn (c.setMasterBlockIndex a m) sec =
      ((turn c sec).1.setMasterBlockIndex a m,(turn c sec).2) := by
  have hfind : ∀ path i, (c.setMasterBlockIndex a m).lookupByFileBlock path i =
    c.lookupByFileBlock path i := fun _ _ => rfl
  cases sec with
  | removing path size k i slots =>
    cases k with
    | zero => rfl
    | succ k =>
      simp only [turn,removeBlock,hfind]
      simp only [dropped] at hd
      cases hl : c.lookupByFileBlock path i with
      | none => rfl
      | some b =>
        rw [hl] at hd
        have h := dropReference_enterSlot (c.removeFileBlock path i) slots m
          (fun hb => hd (congrArg some hb) : b ≠ a)
        simp only
        exact congrArg (fun t : Context × List ℕ =>
          (t.1,Place.inside (.removing path size k (i+1) t.2))) h
  | publishing r done rest slots =>
    cases rest with
    | nil => rfl
    | cons e es =>
      cases hk : e.kind with
      | hit => simp only [turn,publishEntry,hk]
      | miss =>
        have hhash : (c.setMasterBlockIndex a m).lookupByHash
            ((c.setMasterBlockIndex a m).cell e.info).hash = c.lookupByHash (c.cell e.info).hash := by
          rw [setMasterBlockIndex_hash]
          rfl
        simp only [turn,publishEntry,hk,hhash]
        cases c.lookupByHash (c.cell e.info).hash with
        | none =>
          simp only [setMasterBlockIndex_hash]
          rfl
        | some w =>
          have hadd : ((c.setMasterBlockIndex a m).free e.info).fetchAdd w =
              ((c.free e.info).fetchAdd w).setMasterBlockIndex a m := by
            have hfree : (c.setMasterBlockIndex a m).free e.info =
              (c.free e.info).setMasterBlockIndex a m := rfl
            rw [hfree]
            unfold Context.fetchAdd
            rw [setMasterBlockIndex_refcount,setRefcount_setMasterBlockIndex]
          simp only [hadd]
  | mapping r rest slots =>
    cases rest with
    | nil =>
      simp only [turn,growSize]
      have hsize : find (c.setMasterBlockIndex a m).fileToSizes r.path = find c.fileToSizes r.path := rfl
      rw [hsize]
      cases find c.fileToSizes r.path with
      | none => rfl
      | some size =>
        by_cases h : r.newEnd > size
        · simp only [if_pos h]
          rfl
        · simp only [if_neg h]
    | cons e es =>
      simp only [turn,mapEntry,hfind]
      simp only [dropped] at hd
      cases hl : c.lookupByFileBlock r.path e.logicalBlk with
      | none => rfl
      | some b =>
        rw [hl] at hd
        have h := dropReference_enterSlot c slots m (fun hb => hd (congrArg some hb) : b ≠ a)
        simp only [h]
        rfl
  | reverting done rest slots err =>
    cases rest with
    | nil => rfl
    | cons e es =>
      cases hk : e.kind with
      | hit =>
        have h := dropReference_enterSlot c slots m (fun hb => hd (congrArg some hb) : e.info ≠ a)
        simp only [turn,hk,h]
      | miss => simp only [turn,hk]
  | draining r plan taken => cases hw
  | discarding rest err => cases hw

theorem dropped_enterSlot (c : Context) (sec : Section) (a : Ptr) (m : ℕ) :
    dropped (c.setMasterBlockIndex a m) sec = dropped c sec := by
  unfold dropped
  rfl

theorem turn_enterSlots {sec : Section} (hw : sec.holdsWrite = true) (xs : List (Ptr × ℕ))
    (c : Context) (hd : ∀ x ∈ xs, dropped c sec ≠ some x.1) :
    turn (enterSlots xs c) sec = (enterSlots xs (turn c sec).1,(turn c sec).2) := by
  induction xs generalizing c with
  | nil => rfl
  | cons x xs ih =>
    simp only [enterSlots]
    rw [ih,turn_enterSlot hw c x.2 (hd x (List.mem_cons_self ..))]
    intro y hy
    rw [dropped_enterSlot]
    exact hd y (List.mem_cons_of_mem _ hy)

theorem assignSlots_enterSlots (plan : List PlanEntry) (slots : List ℕ) :
    ∃ xs plan', (∀ x ∈ xs, ∃ e ∈ plan, e.kind = .miss ∧ e.info = x.1) ∧
      ∀ c, assignSlots plan slots c = (plan',enterSlots xs c) := by
  induction plan generalizing slots with
  | nil => exact ⟨[],[],by simp,fun _ => rfl⟩
  | cons e es ih =>
    cases hk : e.kind with
    | hit =>
      obtain ⟨xs,plan',hx,hp⟩ := ih slots
      refine ⟨xs,e::plan',?_,?_⟩
      · intro x hxs
        obtain ⟨f,hf,hfk⟩ := hx x hxs
        exact ⟨f,List.mem_cons_of_mem _ hf,hfk⟩
      · intro c
        rw [assignSlots_hit es slots c hk,hp]
    | miss =>
      cases slots with
      | nil => exact ⟨[],e::es,by simp,fun c => assignSlots_none (e::es) c⟩
      | cons q slots =>
        obtain ⟨xs,plan',hx,hp⟩ := ih slots
        refine ⟨(e.info,q)::xs,{ e with masterBlk := q }::plan',?_,?_⟩
        · intro x hxs
          rcases List.mem_cons.mp hxs with rfl | hxs
          · exact ⟨e,List.mem_cons_self ..,hk,rfl⟩
          · obtain ⟨f,hf,hfk⟩ := hx x hxs
            exact ⟨f,List.mem_cons_of_mem _ hf,hfk⟩
        · intro c
          rw [assignSlots_miss es q slots c hk,hp]
          rfl

/-! ## Steps of other calls while a section is open -/

theorem restore_storage (hd : SameStorage c d) (l : List ℕ) (f : MasterFile) (n : ℕ) :
    restore c.freeBlockList c.toMasterFile c.nextBlockIndex ∅ d = d ∧
    restore l c.toMasterFile c.nextBlockIndex ∅ d = { d with freeBlockList := l } ∧
    restore c.freeBlockList f c.nextBlockIndex ∅ d = { d with toMasterFile := f } ∧
    restore c.freeBlockList c.toMasterFile n ∅ d = { d with nextBlockIndex := n } := by
  obtain ⟨hl,hf,hn⟩ := hd
  rw [←hl,←hf,←hn]
  simp only [restore,Finset.sdiff_empty,and_self]

/-- What a step does that takes `metadata_rwlock` in no mode: it depends on the
storage, changes it and enters slots in the call's own pending objects. -/
theorem advance_unlocked {st : Stage} {u : Context × Stage} (ho : opens st = none)
    (hw : st.needsWrite = false) (hr : st.holdsRead = false) (ht : takesRead st = false)
    (hs : advance sha512 qsort ch c st = some u) :
    ∃ l f n xs, (∀ x ∈ xs, ∃ e ∈ (party st).plan, e.kind = .miss ∧ e.info = x.1) ∧
      ∀ d, SameStorage c d →
        advance sha512 qsort ch d st = some (enterSlots xs (restore l f n ∅ d),u.2) := by
  -- a step that only changes the free list, or nothing
  have hplain : ∀ (l : List ℕ), (∀ d, SameStorage c d →
      advance sha512 qsort ch d st = some ({ d with freeBlockList := l },u.2)) →
      ∃ l f n xs, (∀ x ∈ xs, ∃ e ∈ (party st).plan, e.kind = .miss ∧ e.info = x.1) ∧
        ∀ d, SameStorage c d →
          advance sha512 qsort ch d st = some (enterSlots xs (restore l f n ∅ d),u.2) := by
    intro l h
    refine ⟨l,c.toMasterFile,c.nextBlockIndex,[],by simp,?_⟩
    intro d hd
    rw [h d hd,enterSlots,(restore_storage hd l d.toMasterFile 0).2.1]
  have hrest : ∀ d, SameStorage c d → { d with freeBlockList := c.freeBlockList } = d := by
    intro d hd
    rw [←hd.1]
  cases st with
  | append r plan taken =>
    cases hs
    obtain ⟨xs,plan',hx,hp⟩ := assignSlots_enterSlots plan
      (taken++(List.range (missCount plan-taken.length)).map (c.nextBlockIndex+·))
    refine ⟨c.freeBlockList,c.toMasterFile,c.nextBlockIndex+(missCount plan-taken.length),xs,hx,?_⟩
    intro d hd
    simp only [advance,appendSlots]
    rw [hd.2.2,hp,hp,(restore_storage hd [] d.toMasterFile _).2.2.2]
  | flush r plan i =>
    cases hs
    refine ⟨c.freeBlockList,(flushStep r plan i ch.io c).1.toMasterFile,c.nextBlockIndex,[],by simp,?_⟩
    intro d hd
    rw [(restore_storage hd [] _ 0).2.2.1]
    simp only [advance,flushStep,enterSlots,hd.2.1]
    cases nextRun (plan.drop i) with
    | none =>
      have hsame : { d with toMasterFile := c.toMasterFile } = d := by rw [←hd.2.1]
      simp only [hsame]
    | some x =>
      simp only
      cases pwriteRun r x.2.1 x.2.2 ch.io c.toMasterFile with
      | mk g err =>
        cases err with
        | none => rfl
        | some err => rfl
  | release slots res =>
    cases hs
    refine hplain (slots++c.freeBlockList) (fun d hd => ?_)
    simp only [advance,Context.releaseSlots,hd.1]
  | rollbackConcat plan slots err =>
    cases hs
    refine hplain (slots++c.freeBlockList) (fun d hd => ?_)
    simp only [advance,Context.releaseSlots,hd.1]
  | unlinkConcat path slots =>
    cases hs
    refine hplain (slots++c.freeBlockList) (fun d hd => ?_)
    simp only [advance,Context.releaseSlots,hd.1]
  | truncateConcat path size slots =>
    cases hs
    refine hplain (slots++c.freeBlockList) (fun d hd => ?_)
    simp only [advance,Context.releaseSlots,hd.1]
  | unlinkBacking path =>
    cases hs
    refine hplain c.freeBlockList (fun d hd => ?_)
    rw [hrest d hd]
    rfl
  | truncateBacking path size =>
    cases hs
    refine hplain c.freeBlockList (fun d hd => ?_)
    rw [hrest d hd]
    rfl
  | readGroups r pairs n buf =>
    cases hs
    refine hplain c.freeBlockList (fun d hd => ?_)
    rw [hrest d hd]
    simp only [advance,readStep,hd.2.1]
  | unlinkSize path => cases ht
  | truncateSize path size => cases ht
  | pass1 r p => cases hr
  | readLookup r pairs buf => cases hr
  | unlinkDropSize path => cases hw
  | truncateShrink path size => cases hw
  | readDone r pairs n buf res => cases hs
  | done res => cases hs
  | _ => cases ho

theorem step_beside_writer {st : Stage} {u : Context × Stage} {sec : Section}
    (hsec : sec.holdsWrite = true) (ho : opens st = none) (hw : st.needsWrite = false)
    (hr : st.holdsRead = false) (ht : takesRead st = false)
    (hd : ∀ e ∈ (party st).plan, e.kind = .miss → dropped c sec ≠ some e.info)
    (hs : advance sha512 qsort ch c st = some u) :
    ∃ v, advance sha512 qsort ch (turn c sec).1 st = some (v,u.2) ∧
      turn u.1 sec = (v,(turn c sec).2) := by
  obtain ⟨l,f,n,xs,hx,hadv⟩ := advance_unlocked ho hw hr ht hs
  refine ⟨_,hadv _ (turn_storage hsec c),?_⟩
  have hu : u.1 = enterSlots xs (restore l f n ∅ c) :=
    congrArg Prod.fst (Option.some.inj (hs.symm.trans (hadv c ⟨rfl,rfl,rfl⟩)))
  have hdrop : dropped (restore l f n ∅ c) sec = dropped c sec := by
    unfold dropped
    rfl
  rw [hu,turn_enterSlots hsec,turn_restore l f n ∅ hsec]
  intro x hxs
  obtain ⟨e,he,hk,hi⟩ := hx x hxs
  rw [hdrop,←hi]
  exact hd e he hk

/-- The free list is given anew and objects are freed: what turns under the mutex
do. -/
def reshelve (l : List ℕ) (freed : Finset Ptr) (d : Context) : Context :=
  restore l d.toMasterFile d.nextBlockIndex freed d

theorem turn_mutex {sec : Section} (hw : sec.holdsWrite = false) (c : Context) :
    ∃ l freed, (∀ a ∈ freed, ∃ e ∈ (sectionParty sec).plan, e.kind = .miss ∧ e.info = a) ∧
      ∀ d, d.freeBlockList = c.freeBlockList →
        turn d sec = (reshelve l freed d,(turn c sec).2) := by
  have hself : ∀ d : Context, reshelve d.freeBlockList ∅ d = d := restore_self
  cases sec with
  | draining r plan taken =>
    by_cases hn : taken.length < missCount plan
    · cases hl : c.freeBlockList with
      | nil =>
        refine ⟨[],∅,by simp,?_⟩
        intro d hd
        rw [←hd,hself]
        simp only [turn,if_pos hn,hd,hl]
      | cons q l =>
        refine ⟨l,∅,by simp,?_⟩
        intro d hd
        simp only [turn,if_pos hn,hd,hl,reshelve,restore,Finset.sdiff_empty]
    · refine ⟨c.freeBlockList,∅,by simp,?_⟩
      intro d hd
      rw [←hd,hself]
      simp only [turn,if_neg hn]
  | discarding rest err =>
    cases rest with
    | nil =>
      refine ⟨c.freeBlockList,∅,by simp,?_⟩
      intro d hd
      rw [←hd,hself]
      rfl
    | cons e es =>
      cases hk : e.kind with
      | hit =>
        refine ⟨c.freeBlockList,∅,by simp,?_⟩
        intro d hd
        rw [←hd,hself]
        simp only [turn,hk]
      | miss =>
        refine ⟨e.masterBlk::c.freeBlockList,{e.info},?_,?_⟩
        · intro a ha
          rw [Finset.mem_singleton.mp ha]
          exact ⟨e,by simp [sectionParty,misses_miss es hk],hk,rfl⟩
        · intro d hd
          simp only [turn,hk,reshelve,restore,Context.releaseSlots,Context.free,hd,
            Finset.sdiff_singleton_eq_erase,List.singleton_append]
  | _ => cases hw

section Reshelve

variable (l : List ℕ) (freed : Finset Ptr)

theorem pass1Block_reshelve (r : WriteReq) {a : Ptr} (c : Context) (p : Pass1)
    (ha : a ∉ freed) : pass1Block sha512 r a (reshelve l freed c) p =
      (reshelve l freed (pass1Block sha512 r a c p).1,(pass1Block sha512 r a c p).2) := by
  have hex : existingInfo (reshelve l freed c) p (sha512 (r.block p.plan.length)) =
    existingInfo c p (sha512 (r.block p.plan.length)) := rfl
  cases hx : existingInfo c p (sha512 (r.block p.plan.length)) with
  | some b =>
    rw [pass1Block_hit a hx,pass1Block_hit a (hex.trans hx)]
    rfl
  | none =>
    rw [pass1Block_miss a hx,pass1Block_miss a (hex.trans hx)]
    simp only [reshelve,restore,Context.malloc,Finset.insert_sdiff_of_notMem c.live ha]

theorem enterSlots_reshelve (xs : List (Ptr × ℕ)) (c : Context) :
    enterSlots xs (reshelve l freed c) = reshelve l freed (enterSlots xs c) := by
  induction xs generalizing c with
  | nil => rfl
  | cons x xs ih =>
    simp only [enterSlots]
    rw [←ih]
    rfl

theorem enterSlots_freeBlockList (xs : List (Ptr × ℕ)) (c : Context) :
    (enterSlots xs c).freeBlockList = c.freeBlockList := by
  induction xs generalizing c with
  | nil => rfl
  | cons x xs ih => exact ih _

theorem shrinkSize_reshelve (path : Path) (size : ℕ) (c : Context) :
    shrinkSize path size (reshelve l freed c) = reshelve l freed (shrinkSize path size c) ∧
      (shrinkSize path size c).freeBlockList = c.freeBlockList := by
  have hfind : find (reshelve l freed c).fileToSizes path = find c.fileToSizes path := rfl
  simp only [shrinkSize,hfind]
  cases find c.fileToSizes path with
  | none => exact ⟨rfl,rfl⟩
  | some n =>
    simp only
    by_cases h : size < n
    · rw [if_pos h,if_pos h]
      exact ⟨rfl,rfl⟩
    · rw [if_neg h,if_neg h]
      exact ⟨rfl,rfl⟩

theorem pass1_reshelve {r : WriteReq} {p : Pass1} {u : Context × Stage}
    (hf : ∀ a ∈ freed, a ∈ c.live) (hs : advance sha512 qsort ch c (.pass1 r p) = some u) :
    advance sha512 qsort ch (reshelve l freed c) (.pass1 r p) = some (reshelve l freed u.1,u.2) ∧
      u.1.freeBlockList = c.freeBlockList := by
  simp only [advance] at hs ⊢
  split_ifs at hs with h₁ h₂ h₃
  · cases hs
    have ha : ch.addr ∉ freed := fun h => h₂ (hf _ h)
    have hlive : ch.addr ∉ (reshelve l freed c).live := fun h => h₂ (Finset.mem_sdiff.mp h).1
    rw [if_pos h₁,if_neg hlive,pass1Block_reshelve l freed r c p ha]
    refine ⟨rfl,?_⟩
    cases hx : existingInfo c p (sha512 (r.block p.plan.length)) with
    | some b =>
      rw [pass1Block_hit _ hx]
      rfl
    | none =>
      rw [pass1Block_miss _ hx]
      rfl
  · cases hs
    rw [if_neg h₁,if_pos h₃]
    exact ⟨rfl,rfl⟩
  · cases hs
    rw [if_neg h₁,if_neg h₃]
    exact ⟨rfl,rfl⟩

theorem flushStep_reshelve (r : WriteReq) (plan : List PlanEntry) (i : ℕ) (io : PwriteResult)
    (c : Context) : flushStep r plan i io (reshelve l freed c) =
        (reshelve l freed (flushStep r plan i io c).1,(flushStep r plan i io c).2) ∧
      (flushStep r plan i io c).1.freeBlockList = c.freeBlockList := by
  have hfile : (reshelve l freed c).toMasterFile = c.toMasterFile := rfl
  simp only [flushStep,hfile]
  cases nextRun (plan.drop i) with
  | none => exact ⟨rfl,rfl⟩
  | some x =>
    simp only
    cases pwriteRun r x.2.1 x.2.2 io c.toMasterFile with
    | mk g err =>
      cases err with
      | none => exact ⟨rfl,rfl⟩
      | some err => exact ⟨rfl,rfl⟩

theorem append_reshelve (r : WriteReq) (plan : List PlanEntry) (taken : List ℕ)
    {u : Context × Stage} (hs : advance sha512 qsort ch c (.append r plan taken) = some u) :
    advance sha512 qsort ch (reshelve l freed c) (.append r plan taken) =
        some (reshelve l freed u.1,u.2) ∧
      u.1.freeBlockList = c.freeBlockList := by
  cases hs
  obtain ⟨xs,plan',_,hp⟩ := assignSlots_enterSlots plan
    (taken++(List.range (missCount plan-taken.length)).map (c.nextBlockIndex+·))
  have hnext : (reshelve l freed c).nextBlockIndex = c.nextBlockIndex := rfl
  simp only [advance,appendSlots,hnext,hp,enterSlots_freeBlockList,and_true]
  rw [←enterSlots_reshelve]
  rfl

/-- A step that does not take the mutex works on what its sections leave alone. -/
theorem advance_reshelve {st : Stage} {u : Context × Stage} (ho : opens st = none)
    (hm : takesMutex st = false) (hf : ∀ a ∈ freed, a ∈ c.live)
    (hs : advance sha512 qsort ch c st = some u) :
    advance sha512 qsort ch (reshelve l freed c) st = some (reshelve l freed u.1,u.2) ∧
      u.1.freeBlockList = c.freeBlockList := by
  have hnil : ∀ slots : List ℕ, (!slots.isEmpty) = false → c.releaseSlots slots = c ∧
      (reshelve l freed c).releaseSlots slots = reshelve l freed c := by
    intro slots h
    cases slots with
    | nil => exact ⟨rfl,rfl⟩
    | cons q slots => cases h
  cases st with
  | pass1 r p => exact pass1_reshelve l freed hf hs
  | append r plan taken => exact append_reshelve l freed r plan taken hs
  | flush r plan i =>
    cases hs
    obtain ⟨h₁,h₂⟩ := flushStep_reshelve l freed r plan i ch.io c
    simp only [advance,h₁,h₂,and_self]
  | release slots res =>
    cases hs
    obtain ⟨h₁,h₂⟩ := hnil slots hm
    simp only [advance,h₁,h₂,and_self]
  | rollbackConcat plan slots err =>
    cases hs
    obtain ⟨h₁,h₂⟩ := hnil slots hm
    simp only [advance,h₁,h₂,and_self]
  | unlinkConcat path slots =>
    cases hs
    obtain ⟨h₁,h₂⟩ := hnil slots hm
    simp only [advance,h₁,h₂,and_self]
  | truncateConcat path size slots =>
    cases hs
    obtain ⟨h₁,h₂⟩ := hnil slots hm
    simp only [advance,h₁,h₂,and_self]
  | unlinkSize path =>
    have hext : unlinkExtent path (reshelve l freed c) = unlinkExtent path c := rfl
    simp only [advance,hext] at hs ⊢
    split at hs <;> cases hs <;> exact ⟨rfl,rfl⟩
  | truncateSize path size =>
    have hext : truncateExtent path size (reshelve l freed c) = truncateExtent path size c := rfl
    simp only [advance,hext] at hs ⊢
    split at hs <;> cases hs <;> exact ⟨rfl,rfl⟩
  | truncateShrink path size =>
    cases hs
    obtain ⟨h₁,h₂⟩ := shrinkSize_reshelve l freed path size c
    simp only [advance,h₁,h₂,and_self]
  | unlinkDropSize path =>
    cases hs
    exact ⟨rfl,rfl⟩
  | unlinkBacking path =>
    cases hs
    exact ⟨rfl,rfl⟩
  | truncateBacking path size =>
    cases hs
    exact ⟨rfl,rfl⟩
  | readLookup r pairs buf =>
    cases hs
    exact ⟨rfl,rfl⟩
  | readGroups r pairs n buf =>
    cases hs
    exact ⟨rfl,rfl⟩
  | readDone r pairs n buf res => cases hs
  | done res => cases hs
  | _ => cases ho

end Reshelve

theorem step_beside_mutex {st : Stage} {u : Context × Stage} {sec : Section}
    (hsec : sec.holdsWrite = false) (ho : opens st = none) (hm : takesMutex st = false)
    (hf : ∀ e ∈ (sectionParty sec).plan, e.kind = .miss → e.info ∈ c.live)
    (hs : advance sha512 qsort ch c st = some u) :
    ∃ v, advance sha512 qsort ch (turn c sec).1 st = some (v,u.2) ∧
      turn u.1 sec = (v,(turn c sec).2) := by
  obtain ⟨l,freed,hfreed,hturn⟩ := turn_mutex hsec c
  have hlive : ∀ a ∈ freed, a ∈ c.live := by
    intro a ha
    obtain ⟨e,he,hk,rfl⟩ := hfreed a ha
    exact hf e he hk
  obtain ⟨hadv,hsame⟩ := advance_reshelve l freed ho hm hlive hs
  refine ⟨reshelve l freed u.1,?_,hturn u.1 hsame⟩
  rw [hturn c rfl]
  exact hadv

theorem turn_beside_turn {sec sec' : Section} (hw : sec.holdsWrite = true)
    (hm : sec'.holdsWrite = false) (c : Context) :
    ∃ v, turn (turn c sec).1 sec' = (v,(turn c sec').2) ∧
      turn (turn c sec').1 sec = (v,(turn c sec).2) := by
  obtain ⟨l,freed,_,hturn⟩ := turn_mutex hm c
  obtain ⟨hl,hf,hn⟩ := turn_storage hw c
  refine ⟨_,hturn (turn c sec).1 hl,?_⟩
  rw [hturn c rfl]
  simp only [reshelve,hf,hn]
  exact turn_restore l c.toMasterFile c.nextBlockIndex freed hw c

end ArchivalDedup.SectionMoves
