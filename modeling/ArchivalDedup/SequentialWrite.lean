import ArchivalDedup.Content

/-!
# A write that runs alone

Pass by pass, what `writeDedup` leaves behind when no other operation takes a
step: pass 1 moves counters and allocates pending objects and nothing else,
the flush stays inside the slots of the plan, and no hash that pass 1 missed can
have been published meanwhile.
-/

set_option autoImplicit false

namespace ArchivalDedup.SequentialWrite
open ArchivalDedup.FiniteTable ArchivalDedup.MetaIndex ArchivalDedup.WriteDedup
open ArchivalDedup.PlanShape ArchivalDedup.Ledger ArchivalDedup.LedgerMoves
open ArchivalDedup.LedgerPasses ArchivalDedup.LedgerLoops ArchivalDedup.FlushRuns
open ArchivalDedup.ThreadLedger ArchivalDedup.ReferenceSafety ArchivalDedup.Content

variable {sha512 : List UInt8 → Hash} {r : WriteReq} {c₀ c : Context} {plan : List PlanEntry}
variable {ps : List Party}

def reqCount (sha512 : List UInt8 → Hash) (r : WriteReq) (h : Hash) (n : ℕ) : ℕ :=
  (List.range n).countP (fun j => sha512 (r.block j) = h)

def storedCount (c : Context) (h : Hash) : ℕ :=
  match find c.hashToMaster h with
  | some a => (c.cell a).refcount
  | none => 0

/-- The counters have room for all the references that pass 1 takes. -/
def FitsCounters (sha512 : List UInt8 → Hash) (r : WriteReq) (c : Context) : Prop :=
  ∀ i < r.numBlocks, storedCount c (sha512 (r.block i))+
    reqCount sha512 r (sha512 (r.block i)) r.numBlocks < refcountMod

instance : Decidable (FitsCounters sha512 r c) :=
  inferInstanceAs (Decidable (∀ i < r.numBlocks, storedCount c (sha512 (r.block i))+
    reqCount sha512 r (sha512 (r.block i)) r.numBlocks < refcountMod))

/-- So do they when the request is rejected: it takes none. -/
def CallFits (sha512 : List UInt8 → Hash) (r : WriteReq) (c : Context) : Prop :=
  r.buf.length % blockSize = 0 → FitsCounters sha512 r c

instance : Decidable (CallFits sha512 r c) :=
  inferInstanceAs (Decidable (r.buf.length % blockSize = 0 → FitsCounters sha512 r c))

theorem storedCount_le (h : Inv ∅ c []) (x : Hash) :
    storedCount c x ≤ c.fileToMaster.entries.length := by
  unfold storedCount
  split
  · next a ha =>
    rw [h.counted a (h.keyed x a ha).2.1,refs,heldRefs_nil,Nat.add_zero]
    exact occurrences_le _ a
  · exact Nat.zero_le _

theorem callFits_of_few (h : Inv ∅ c [])
    (hn : c.fileToMaster.entries.length+r.numBlocks < refcountMod) : CallFits sha512 r c := by
  intro _ i _
  have hreq : reqCount sha512 r (sha512 (r.block i)) r.numBlocks ≤ r.numBlocks :=
    List.countP_le_length.trans_eq List.length_range
  have hstored := storedCount_le h (sha512 (r.block i))
  omega

structure Planned (c₀ c : Context) (plan : List PlanEntry) : Prop where
  hashToMaster : c.hashToMaster = c₀.hashToMaster
  fileToMaster : c.fileToMaster = c₀.fileToMaster
  fileToSizes : c.fileToSizes = c₀.fileToSizes
  kept : ∀ a ∈ c₀.live, a ∈ c.live ∧ (c.cell a).hash = (c₀.cell a).hash ∧
    (c.cell a).masterBlockIndex = (c₀.cell a).masterBlockIndex
  hashes : ∀ e ∈ plan, e.info ∈ c.live ∧ (c.cell e.info).hash = e.hash
  unindexed : ∀ e ∈ plan, e.kind = .miss → find c.hashToMaster e.hash = none

theorem planned_start (c : Context) : Planned c c [] where
  hashToMaster := rfl
  fileToMaster := rfl
  fileToSizes := rfl
  kept := fun _ ha => ⟨ha,rfl,rfl⟩
  hashes := by simp
  unindexed := by simp

theorem formed_hashes (h : Formed sha512 r plan) :
    plan.map PlanEntry.hash = (List.range plan.length).map (fun j => sha512 (r.block j)) := by
  apply List.ext_getElem
  · simp
  · intro i h₁ h₂
    have hi : i < plan.length := by simpa using h₁
    have := (h i plan[i] (List.getElem?_eq_getElem hi)).2.2
    simpa using this

theorem formed_count (h : Formed sha512 r plan) (k : Hash) :
    plan.countP (fun e => e.hash = k) = reqCount sha512 r k plan.length := by
  have hmap := congrArg (List.countP (fun x => decide (x = k))) (formed_hashes h)
  rw [List.countP_map,List.countP_map] at hmap
  exact hmap

theorem reqCount_lt (sha512 : List UInt8 → Hash) (r : WriteReq) {i n : ℕ} (h : i < n) :
    reqCount sha512 r (sha512 (r.block i)) i+1 ≤ reqCount sha512 r (sha512 (r.block i)) n := by
  unfold reqCount
  have hsub : (List.range (i+1)).Sublist (List.range n) := List.range_sublist.mpr h
  have hle := hsub.countP_le (p := fun j => decide (sha512 (r.block j) = sha512 (r.block i)))
  rw [List.range_succ,List.countP_append] at hle
  simpa using hle

theorem existing_hash {p : Pass1} {k : Hash} {b : Ptr} (h : Inv ∅ c (⟨p.plan,[],false⟩::ps))
    (hok : Pass1Ok sha512 r p) (hp : Planned c₀ c p.plan) (hx : existingInfo c p k = some b) :
    (c.cell b).hash = k := by
  rcases Option.or_eq_some_iff.mp hx with hb | ⟨_,hb⟩
  · exact (h.keyed _ _ hb).1
  · obtain ⟨m,hm,_,hh,rfl⟩ := hok.pendingOf _ _ hb
    exact (hp.hashes m hm).2.trans hh

theorem existing_room {p : Pass1} {b : Ptr} (h₀ : Inv ∅ c₀ ps) (hfit : FitsCounters sha512 r c₀)
    (h : Inv ∅ c (⟨p.plan,[],false⟩::ps)) (hok : Pass1Ok sha512 r p) (hp : Planned c₀ c p.plan)
    (hlt : p.plan.length < r.numBlocks)
    (hx : existingInfo c p (sha512 (r.block p.plan.length)) = some b) :
    (c.cell b).refcount+1 < refcountMod := by
  have hl := existing_live h hok hx
  have hash := existing_hash h hok hp hx
  have hcount := h.counted b hl
  have hplan : planRefs p.plan b ≤
      reqCount sha512 r (sha512 (r.block p.plan.length)) p.plan.length := by
    rw [←formed_count hok.formed]
    apply List.countP_mono_left
    intro e he hb
    have hb' : e.info = b := of_decide_eq_true hb
    have hh := (hp.hashes e he).2
    rw [hb',hash] at hh
    exact decide_eq_true hh.symm
  have hothers : occurrences c.fileToMaster b+heldRefs ps b ≤
      storedCount c₀ (sha512 (r.block p.plan.length)) := by
    rcases Option.or_eq_some_iff.mp hx with hb | ⟨_,hb⟩
    · have hb₀ : find c₀.hashToMaster (sha512 (r.block p.plan.length)) = some b := by
        rw [←hp.hashToMaster]
        exact hb
      have := h₀.counted b (h₀.keyed _ _ hb₀).2.1
      rw [refs] at this
      rw [hp.fileToMaster,←this]
      simp [storedCount,hb₀]
    · obtain ⟨m,hm,hk,_,rfl⟩ := hok.pendingOf _ _ hb
      obtain ⟨hheld,hocc,_⟩ := others_clear h hm hk
      rw [hheld,hocc]
      exact Nat.zero_le _
  have hreq := reqCount_lt sha512 r hlt
  have hfit' := hfit p.plan.length hlt
  rw [refs,heldRefs_cons] at hcount
  dsimp only at hcount
  omega

theorem planned_pass1Block {p : Pass1} {a : Ptr} (h : Inv ∅ c (⟨p.plan,[],false⟩::ps))
    (hok : Pass1Ok sha512 r p) (hp : Planned c₀ c p.plan) (ha : a ∉ c.live) :
    Planned c₀ (pass1Block sha512 r a c p).1 (pass1Block sha512 r a c p).2.plan := by
  cases hx : existingInfo c p (sha512 (r.block p.plan.length)) with
  | some b =>
    have hlive : b ∈ c.live := existing_live h hok hx
    rw [pass1Block_hit a hx]
    exact
      { hashToMaster := hp.hashToMaster
        fileToMaster := hp.fileToMaster
        fileToSizes := hp.fileToSizes
        kept := fun x hx' => by
          obtain ⟨h₁,h₂,h₃⟩ := hp.kept x hx'
          exact ⟨h₁,(setRefcount_hash c b _ x).trans h₂,
            (setRefcount_masterBlockIndex c b _ x).trans h₃⟩
        hashes := by
          intro e he
          rcases List.mem_append.mp he with he | he
          · obtain ⟨h₁,h₂⟩ := hp.hashes e he
            exact ⟨h₁,(setRefcount_hash c b _ e.info).trans h₂⟩
          · rw [List.mem_singleton.mp he]
            exact ⟨hlive,(setRefcount_hash c b _ b).trans (existing_hash h hok hp hx)⟩
        unindexed := by
          intro e he hk
          rcases List.mem_append.mp he with he | he
          · exact hp.unindexed e he hk
          · rw [List.mem_singleton.mp he] at hk
            cases hk }
  | none =>
    rw [pass1Block_miss a hx]
    have hne : ∀ x ∈ c.live, x ≠ a := fun x hx' he => ha (he ▸ hx')
    exact
      { hashToMaster := hp.hashToMaster
        fileToMaster := hp.fileToMaster
        fileToSizes := hp.fileToSizes
        kept := fun x hx' => by
          obtain ⟨h₁,h₂,h₃⟩ := hp.kept x hx'
          simp only [Context.malloc,Function.update_of_ne (hne x h₁)]
          exact ⟨Finset.mem_insert_of_mem h₁,h₂,h₃⟩
        hashes := by
          intro e he
          rcases List.mem_append.mp he with he | he
          · obtain ⟨h₁,h₂⟩ := hp.hashes e he
            simp only [Context.malloc,Function.update_of_ne (hne _ h₁)]
            exact ⟨Finset.mem_insert_of_mem h₁,h₂⟩
          · rw [List.mem_singleton.mp he]
            simp [Context.malloc,newEntry]
        unindexed := by
          intro e he hk
          rcases List.mem_append.mp he with he | he
          · exact hp.unindexed e he hk
          · rw [List.mem_singleton.mp he]
            exact (Option.or_eq_none_iff.mp hx).1 }

theorem pass1Block_store (sha512 : List UInt8 → Hash) (r : WriteReq) (a : Ptr) (c : Context) (p : Pass1) :
    (pass1Block sha512 r a c p).1.toMasterFile = c.toMasterFile ∧
      (pass1Block sha512 r a c p).1.freeBlockList = c.freeBlockList ∧
      (pass1Block sha512 r a c p).1.nextBlockIndex = c.nextBlockIndex := by
  unfold pass1Block
  dsimp only
  split <;> exact ⟨rfl,rfl,rfl⟩

theorem pass1_loop {env : Env} (h₀ : Inv ∅ c₀ ps) (hfit : FitsCounters sha512 r c₀) (n : ℕ)
    {p : Pass1} (hn : p.plan.length+n = r.numBlocks) (h : Inv ∅ c (⟨p.plan,[],false⟩::ps))
    (hok : Pass1Ok sha512 r p) (hp : Planned c₀ c p.plan) :
    let t := pass1 sha512 env r n c p
    Inv ∅ t.1 (⟨t.2.plan,[],false⟩::ps) ∧ PlanOk sha512 r t.2.plan ∧ Planned c₀ t.1 t.2.plan ∧
      t.1.toMasterFile = c.toMasterFile ∧ t.1.freeBlockList = c.freeBlockList ∧
      t.1.nextBlockIndex = c.nextBlockIndex := by
  induction n generalizing c p with
  | zero => exact ⟨h,⟨hok.formed,hok.distinct,hn⟩,hp,rfl,rfl,rfl⟩
  | succ n ih =>
    have hlt : p.plan.length < r.numBlocks := by omega
    have hfresh := env.alloc_fresh c.live
    have hstep := inv_pass1Block (a := env.alloc c.live) h hok hfresh (by simp)
      (fun b hb => existing_room h₀ hfit h hok hp hlt hb)
    obtain ⟨s₁,s₂,s₃⟩ := pass1Block_store sha512 r (env.alloc c.live) c p
    obtain ⟨h₁,h₂,h₃,h₄,h₅,h₆⟩ := ih (by rw [pass1Block_length]; omega) hstep
      (pass1Block_ok _ hok) (planned_pass1Block h hok hp hfresh)
    exact ⟨h₁,h₂,h₃,h₄.trans s₁,h₅.trans s₂,h₆.trans s₃⟩

theorem pass1_alone (env : Env) (h₀ : Inv ∅ c₀ ps) (hfit : FitsCounters sha512 r c₀) :
    let t := pass1 sha512 env r r.numBlocks c₀ Pass1.start
    Inv ∅ t.1 (⟨t.2.plan,[],false⟩::ps) ∧ PlanOk sha512 r t.2.plan ∧ Planned c₀ t.1 t.2.plan ∧
      t.1.toMasterFile = c₀.toMasterFile ∧ t.1.freeBlockList = c₀.freeBlockList ∧
      t.1.nextBlockIndex = c₀.nextBlockIndex :=
  pass1_loop h₀ hfit r.numBlocks (by simp [Pass1.start]) ((inv_idle false).mpr h₀) pass1_start
    (planned_start c₀)

/-- The state of a call that runs alone when it comes to the decision between
pass 3 and rollback. -/
structure StagedAmong (sha512 : List UInt8 → Hash) (ps : List Party) (r : WriteReq) (c₀ : Context)
    (t : List PlanEntry × Context × Option Errno) : Prop where
  ledger : Inv ∅ t.2.1 (⟨t.1,[],true⟩::ps)
  shape : PlanOk sha512 r t.1
  planned : Planned c₀ t.2.1 t.1
  spares : ∀ q ∉ missSlots t.1, t.2.1.toMasterFile.block q = c₀.toMasterFile.block q
  flushed : t.2.2 = none → Flushed t.2.1.toMasterFile r t.1 t.1.length
  next : c₀.nextBlockIndex ≤ t.2.1.nextBlockIndex
  grows : c₀.fileSize ≤ t.2.1.fileSize
  within : t.2.1.fileSize ≤ max c₀.fileSize (t.2.1.nextBlockIndex*blockSize)
  reached : t.2.2 = none → ∀ q, c₀.nextBlockIndex ≤ q → q < t.2.1.nextBlockIndex →
    (q+1)*blockSize ≤ t.2.1.fileSize

abbrev StagedWrite (sha512 : List UInt8 → Hash) (r : WriteReq) (c₀ : Context)
    (t : List PlanEntry × Context × Option Errno) : Prop :=
  StagedAmong sha512 [] r c₀ t

theorem planned_assign (slots : List ℕ) (hp : Planned c₀ c plan)
    (h₀ : ∀ a ∈ c₀.live, planMisses plan a = 0) :
    Planned c₀ (assignSlots plan slots c).2 (assignSlots plan slots c).1 := by
  obtain ⟨hix,hlive,_,_⟩ := assignSlots_frame plan slots c
  have hcell := assignSlots_cell plan slots c
  have hu := assignSlots_unslotted plan slots c
  exact
    { hashToMaster := (congrArg Index.hashToMaster hix).trans hp.hashToMaster
      fileToMaster := (congrArg Index.fileToMaster hix).trans hp.fileToMaster
      fileToSizes := (congrArg Index.fileToSizes hix).trans hp.fileToSizes
      kept := by
        intro a ha
        obtain ⟨h₁,h₂,h₃⟩ := hp.kept a ha
        rw [hlive,(hcell a).2.2 ((planMisses_zero plan a).mp (h₀ a ha))]
        exact ⟨h₁,h₂,h₃⟩
      hashes := by
        intro e he
        obtain ⟨f,hf,hfe⟩ := unslotted_mem hu he
        obtain ⟨_,_,_,hh,hi⟩ := unslotted_fields hfe
        obtain ⟨h₁,h₂⟩ := hp.hashes f hf
        rw [hlive,(hcell e.info).1,←hi,←hh]
        exact ⟨h₁,h₂⟩
      unindexed := by
        intro e he hk
        obtain ⟨f,hf,hfe⟩ := unslotted_mem hu he
        obtain ⟨hkind,_,_,hh,_⟩ := unslotted_fields hfe
        rw [congrArg Index.hashToMaster hix,←hh]
        exact hp.unindexed f hf (hkind.trans hk) }

theorem kept_not_pending (h₀ : Inv ∅ c₀ ps) (h : Inv ∅ c (⟨plan,[],false⟩::ps))
    (hp : Planned c₀ c plan) {a : Ptr} (ha : a ∈ c₀.live) : planMisses plan a = 0 := by
  rcases h₀.owned a ha with hown | ⟨hone,_⟩
  · have hpub : Published c a := by
      rw [Published,(hp.kept a ha).2.1,hp.hashToMaster]
      exact hown
    have hzero := (h.keyed _ _ hpub).2.2
    rw [heldMisses_cons] at hzero
    exact (Nat.add_eq_zero_iff.mp hzero).1
  · -- pending in another call, and in one only
    have hsingle := h.single a
    rw [heldMisses_cons,hone] at hsingle
    exact Nat.le_zero.mp (Nat.le_of_add_le_add_right hsingle)

theorem allocateAndFlush_alone (env : Env) (h₀ : Inv ∅ c₀ ps)
    (h : Inv ∅ c (⟨plan,[],false⟩::ps)) (hok : PlanOk sha512 r plan) (hp : Planned c₀ c plan)
    (hfile : c.toMasterFile = c₀.toMasterFile) (hnext : c.nextBlockIndex = c₀.nextBlockIndex) :
    StagedAmong sha512 ps r c₀ (allocateAndFlush env r plan c) := by
  unfold allocateAndFlush
  split_ifs with hm
  · set n := missCount plan with hn
    set slots := (allocateBatchStorageFirst n c).1 with hslots
    set d := (allocateBatchStorageFirst n c).2 with hd
    have hinv : Inv ∅ d (⟨plan,slots,false⟩::ps) := inv_append n (inv_drain n h)
    have hlen : slots.length = missCount plan := appendSlots_length _ _ (by simp [drainFreeList])
    have hpd : Planned c₀ d plan := ⟨hp.hashToMaster,hp.fileToMaster,hp.fileToSizes,hp.kept,
      hp.hashes,hp.unindexed⟩
    have hpa := planned_assign slots hpd (fun a ha => kept_not_pending h₀ h hp ha)
    have hia := inv_assign hinv hlen
    obtain ⟨_,_,hfa,hna⟩ := assignSlots_frame plan slots d
    have hms := assignSlots_missSlots plan slots d hlen
    have hoka := planOk_assign slots d hok
    set t := assignSlots plan slots d with ht
    have hdn : c₀.nextBlockIndex ≤ d.nextBlockIndex := by
      rw [←hnext]
      exact Nat.le_add_right ..
    have hsn : ∀ q ∈ missSlots t.1, q < t.2.nextBlockIndex := by
      intro q hq
      have hmem : q ∈ t.2.freeBlockList++(⟨t.1,[],true⟩::ps).flatMap Party.slots++publishedSlots t.2 := by
        simp [Party.slots,hq]
      exact List.mem_range.mp (hia.slots.mem_iff.mp hmem)
    have hnd : (missSlots t.1).Nodup := by
      have := slots_nodup hia
      rw [List.flatMap_cons,Party.slots,if_pos rfl,List.nil_append] at this
      exact (List.Nodup.of_append_left this).of_append_right.of_append_left
    have hflush := flushPlan_spec hoka.1 hoka.2.2 hnd env.io t.2.toMasterFile
    have htf : t.2.toMasterFile = c₀.toMasterFile := hfa.trans hfile
    exact
      { ledger := inv_file _ hia
        shape := hoka
        planned := ⟨hpa.hashToMaster,hpa.fileToMaster,hpa.fileToSizes,hpa.kept,hpa.hashes,
          hpa.unindexed⟩
        spares := fun q hq => (hflush.spares q hq).trans (congrArg (MasterFile.block · q) htf)
        flushed := hflush.flushed
        next := hdn.trans (Nat.le_of_eq hna.symm)
        grows := (Nat.le_of_eq (congrArg MasterFile.fileSize htf).symm).trans hflush.grows
        within := (hflush.within t.2.nextBlockIndex hsn).trans
          (max_le_max_right _ (Nat.le_of_eq (congrArg MasterFile.fileSize htf)))
        reached := by
          intro herr q h₁ h₂
          have hq : q ∈ missSlots t.1 := by
            rw [hms]
            refine List.mem_append_right _ (List.mem_map.mpr ⟨q-c.nextBlockIndex,?_,?_⟩)
            · have h₂' : q < d.nextBlockIndex := Nat.lt_of_lt_of_eq h₂ hna
              change q < c.nextBlockIndex+(n-(drainFreeList n c).1.length) at h₂'
              rw [List.mem_range]
              omega
            · change c.nextBlockIndex+(q-c.nextBlockIndex) = q
              omega
          obtain ⟨e,he,hk,rfl⟩ := mem_missSlots.mp hq
          obtain ⟨j,hj⟩ := List.mem_iff_getElem?.mp he
          exact hflush.reached herr j e (List.getElem?_eq_some_iff.mp hj).1 hj hk }
  · have hz : missCount plan = 0 := by omega
    exact
      { ledger := inv_unmissed h hz
        shape := hok
        planned := hp
        spares := fun q _ => congrArg (MasterFile.block · q) hfile
        flushed := by
          intro _ j e _ he hk
          exact absurd hk (by simpa using List.countP_eq_zero.mp hz e (List.mem_of_getElem? he))
        next := Nat.le_of_eq hnext.symm
        grows := Nat.le_of_eq (congrArg MasterFile.fileSize hfile).symm
        within := (Nat.le_of_eq (congrArg MasterFile.fileSize hfile)).trans (Nat.le_max_left ..)
        reached := by
          intro _ q h₁ h₂
          simp only at h₂
          omega }

theorem stageWrite_alone (env : Env) (h₀ : Inv ∅ c₀ ps) (hfit : FitsCounters sha512 r c₀) :
    StagedAmong sha512 ps r c₀ (stageWrite sha512 env r c₀) := by
  obtain ⟨h,hok,hp,hfile,_,hnext⟩ := pass1_alone env h₀ hfit
  exact allocateAndFlush_alone env h₀ h hok hp hfile hnext

end ArchivalDedup.SequentialWrite
