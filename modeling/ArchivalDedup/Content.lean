import ArchivalDedup.FlushRuns
import ArchivalDedup.LoopFrames
import ArchivalDedup.ReferenceSafety

/-!
# What the published slots hold

`Stored good` says that every published slot holds bytes that are good for the
hash of its object. Only a complete flush followed by publication adds a slot;
no other change of the context publishes anything or touches a published slot.
-/

set_option autoImplicit false

namespace ArchivalDedup.Content
open ArchivalDedup.FiniteTable ArchivalDedup.MetaIndex ArchivalDedup.WriteDedup
open ArchivalDedup.Passthrough ArchivalDedup.PlanShape ArchivalDedup.Ledger
open ArchivalDedup.LedgerMoves ArchivalDedup.LedgerPasses ArchivalDedup.LedgerLoops
open ArchivalDedup.FlushRuns ArchivalDedup.Threads ArchivalDedup.ThreadLedger
open ArchivalDedup.ReferenceSafety ArchivalDedup.Interleaving ArchivalDedup.LoopFrames

variable {good : Hash → List UInt8 → Prop} {sha512 : List UInt8 → Hash}
variable {Z : Set Ptr} {c d : Context} {ps : List Party}

def Stored (good : Hash → List UInt8 → Prop) (c : Context) : Prop :=
  ∀ h a, find c.hashToMaster h = some a →
    good h (c.toMasterFile.block (c.cell a).masterBlockIndex)

/-- `d` publishes nothing that `c` does not, and what it publishes stands in
the same slot. -/
def Narrows (c d : Context) : Prop :=
  ∀ h a, find d.hashToMaster h = some a →
    find c.hashToMaster h = some a ∧
      (d.cell a).masterBlockIndex = (c.cell a).masterBlockIndex

theorem narrows_refl (c : Context) : Narrows c c := fun _ _ h => ⟨h,rfl⟩

theorem narrows_trans {b : Context} (h₁ : Narrows c d) (h₂ : Narrows d b) : Narrows c b := by
  intro h a hb
  obtain ⟨hd,hs⟩ := h₂ h a hb
  obtain ⟨hc,hs'⟩ := h₁ h a hd
  exact ⟨hc,hs.trans hs'⟩

theorem stored_narrows (hf : d.toMasterFile = c.toMasterFile) (hn : Narrows c d)
    (h : Stored good c) : Stored good d := by
  intro k a hk
  obtain ⟨hc,hs⟩ := hn k a hk
  rw [hf,hs]
  exact h k a hc

theorem stored_release {slots : List ℕ} (h : Stored good c) : Stored good (c.releaseSlots slots) := h

theorem narrows_fetchAdd (c : Context) (b : Ptr) : Narrows c (c.fetchAdd b) :=
  fun _ a h => ⟨h,setRefcount_masterBlockIndex c b _ a⟩

theorem narrows_dropReference (c : Context) (slots : List ℕ) (b : Ptr) :
    Narrows c (c.dropReference slots b).1 := by
  unfold Context.dropReference
  split_ifs
  · intro h a hk
    refine ⟨?_,setRefcount_masterBlockIndex c b _ a⟩
    change find (c.hashToMaster.erase (c.cell b).hash) h = some a at hk
    rw [find_erase] at hk
    split_ifs at hk
    exact hk
  · exact fun _ a h => ⟨h,setRefcount_masterBlockIndex c b _ a⟩

theorem narrows_drop (d : Context) (slots : List ℕ) (b : Ptr) (h : Narrows c d) :
    Narrows c (d.dropReference slots b).1 :=
  narrows_trans h (narrows_dropReference d slots b)

theorem narrows_mapPlan (path : Path) (plan : List PlanEntry) (c : Context) (slots : List ℕ) :
    Narrows c (mapPlan path plan c slots).1 :=
  mapPlan_rule (I := fun d _ => Narrows c d) narrows_drop (fun _ _ _ _ h => h) (narrows_refl c)

theorem narrows_rollbackHits (plan : List PlanEntry) (c : Context) (slots : List ℕ) :
    Narrows c (rollbackHits plan c slots).1 :=
  rollbackHits_rule (I := fun d _ => Narrows c d) narrows_drop (narrows_refl c)

theorem narrows_removeBlocks (path : Path) (n i : ℕ) (c : Context) (slots : List ℕ) :
    Narrows c (removeBlocks path n i c slots).1 :=
  removeBlocks_rule (I := fun d _ => Narrows c d) (fun _ _ _ h => h) narrows_drop n i
    (narrows_refl c)

theorem growSize_keeps (c : Context) (path : Path) (n : ℕ) :
    (growSize c path n).hashToMaster = c.hashToMaster ∧
      (growSize c path n).fileToMaster = c.fileToMaster ∧
      (growSize c path n).toHeap = c.toHeap ∧
      (growSize c path n).toMasterFile = c.toMasterFile ∧
      (growSize c path n).freeBlockList = c.freeBlockList ∧
      (growSize c path n).nextBlockIndex = c.nextBlockIndex := by
  unfold growSize
  split
  · exact ⟨rfl,rfl,rfl,rfl,rfl,rfl⟩
  · split_ifs <;> exact ⟨rfl,rfl,rfl,rfl,rfl,rfl⟩

theorem rollbackMisses_keeps (plan : List PlanEntry) (c : Context) :
    (rollbackMisses plan c).hashToMaster = c.hashToMaster ∧
      (rollbackMisses plan c).fileToMaster = c.fileToMaster ∧
      (rollbackMisses plan c).fileToSizes = c.fileToSizes ∧
      (rollbackMisses plan c).cell = c.cell ∧
      (rollbackMisses plan c).toMasterFile = c.toMasterFile ∧
      (rollbackMisses plan c).nextBlockIndex = c.nextBlockIndex :=
  rollbackMisses_rule (I := fun d => d.hashToMaster = c.hashToMaster ∧
    d.fileToMaster = c.fileToMaster ∧ d.fileToSizes = c.fileToSizes ∧ d.cell = c.cell ∧
    d.toMasterFile = c.toMasterFile ∧ d.nextBlockIndex = c.nextBlockIndex)
    (fun _ _ _ h => h) ⟨rfl,rfl,rfl,rfl,rfl,rfl⟩

theorem narrows_pass1Block {r : WriteReq} {p : Pass1} {a : Ptr} (h : Inv Z c ps)
    (ha : a ∉ c.live) : Narrows c (pass1Block sha512 r a c p).1 ∧
      (pass1Block sha512 r a c p).1.toMasterFile = c.toMasterFile := by
  cases hx : existingInfo c p (sha512 (r.block p.plan.length)) with
  | some b =>
    rw [pass1Block_hit a hx]
    exact ⟨narrows_fetchAdd c b,rfl⟩
  | none =>
    rw [pass1Block_miss a hx]
    refine ⟨?_,rfl⟩
    intro k b hk
    have hb : b ≠ a := fun he => ha (he ▸ (h.keyed k b hk).2.1)
    refine ⟨hk,?_⟩
    simp [Context.malloc,hb]

theorem narrows_assignSlots {plan : List PlanEntry} {extra : List ℕ} {assigned : Bool}
    (slots : List ℕ) (h : Inv Z c (⟨plan,extra,assigned⟩::ps)) :
    Narrows c (assignSlots plan slots c).2 ∧
      (assignSlots plan slots c).2.toMasterFile = c.toMasterFile := by
  obtain ⟨hix,_,hfile,_⟩ := assignSlots_frame plan slots c
  refine ⟨?_,hfile⟩
  intro k a hk
  rw [congrArg Index.hashToMaster hix] at hk
  have hz := (h.keyed k a hk).2.2
  simp only [heldMisses_cons,Nat.add_eq_zero_iff] at hz
  refine ⟨hk,?_⟩
  rw [(assignSlots_cell plan slots c a).2.2 ((planMisses_zero plan a).mp hz.1)]

theorem publishEntry_published (c : Context) (slots : List ℕ) (e : PlanEntry) {k : Hash} {a : Ptr}
    (hk : find (publishEntry c slots e).1.hashToMaster k = some a) :
    find c.hashToMaster k = some a ∨
      (e.kind = .miss ∧ (c.cell e.info).hash = k ∧ e.info = a) := by
  unfold publishEntry at hk
  split at hk
  · exact Or.inl hk
  · next he =>
    split at hk
    · exact Or.inl hk
    · change find (c.hashToMaster.insert (c.cell e.info).hash e.info) k = some a at hk
      rw [find_insert] at hk
      split_ifs at hk with hh
      · cases hk
        exact Or.inr ⟨he,hh.symm,rfl⟩
      · exact Or.inl hk

theorem publishPlan_published (plan : List PlanEntry) (c : Context) (slots : List ℕ) {k : Hash}
    {a : Ptr} (hk : find (publishPlan plan c slots).1.hashToMaster k = some a) :
    find c.hashToMaster k = some a ∨
      ∃ e ∈ plan, e.kind = .miss ∧ (c.cell e.info).hash = k ∧ e.info = a := by
  induction plan generalizing c slots with
  | nil => exact Or.inl hk
  | cons e es ih =>
    rcases ih (publishEntry c slots e).1 (publishEntry c slots e).2.1 hk with h | ⟨f,hf,hfk,hfh,hfa⟩
    · rcases publishEntry_published c slots e h with h | h
      · exact Or.inl h
      · exact Or.inr ⟨e,by simp,h⟩
    · rw [(frame_publishEntry c slots e).hash f.info] at hfh
      exact Or.inr ⟨f,by simp [hf],hfk,hfh,hfa⟩

theorem consolidate_file (r : WriteReq) (plan : List PlanEntry) (c : Context) :
    (consolidate r plan c).1.toMasterFile = c.toMasterFile := by
  have hg := (growSize_keeps (mapPlan r.path (publishPlan plan c []).2.2
    (publishPlan plan c []).1 (publishPlan plan c []).2.1).1 r.path r.newEnd).2.2.2.1
  exact hg.trans (frame_pass3 r.path plan c).toMasterFile

/-- Pass 3 on a flushed plan: what it publishes holds the block it stands for. -/
theorem stored_consolidate {r : WriteReq} {plan : List PlanEntry}
    (h : Inv Z c (⟨plan,[],true⟩::ps)) (hform : Formed sha512 r plan)
    (hf : Flushed c.toMasterFile r plan plan.length)
    (hgood : ∀ i < plan.length, good (sha512 (r.block i)) (r.block i)) (hs : Stored good c) :
    Stored good (consolidate r plan c).1 := by
  have hframe := frame_publishPlan plan c []
  have hpub : Stored good (publishPlan plan c []).1 := by
    intro k a hk
    rw [hframe.toMasterFile,hframe.slot]
    rcases publishPlan_published plan c [] hk with hk | ⟨e,he,hek,heh,rfl⟩
    · exact hs k a hk
    · obtain ⟨_,hhash,hslot⟩ := h.pending _ (List.mem_cons_self ..) e he hek
      obtain ⟨i,hi⟩ := List.mem_iff_getElem?.mp he
      have hlt : i < plan.length := (List.getElem?_eq_some_iff.mp hi).1
      obtain ⟨_,_,hsha⟩ := hform i e hi
      have hblock := hf i e hlt hi hek
      rw [hslot rfl,hblock,←heh,hhash,hsha]
      exact hgood i hlt
  have hn := narrows_mapPlan r.path (publishPlan plan c []).2.2 (publishPlan plan c []).1
    (publishPlan plan c []).2.1
  have hmf := (frame_mapPlan r.path (publishPlan plan c []).2.2 (publishPlan plan c []).1
    (publishPlan plan c []).2.1).toMasterFile
  obtain ⟨g₁,_,g₃,g₄,_⟩ := growSize_keeps (mapPlan r.path (publishPlan plan c []).2.2
    (publishPlan plan c []).1 (publishPlan plan c []).2.1).1 r.path r.newEnd
  have hmap := stored_narrows hmf hn hpub
  refine stored_narrows g₄ ?_ hmap
  intro k a hk
  refine ⟨g₁ ▸ hk,?_⟩
  exact congrArg (fun t : Heap => (t.cell a).masterBlockIndex) g₃

section Runs

variable {qsort : List ReadDedup.BlockPair → List ReadDedup.BlockPair} {ch : Choice}

def StageContent (f : MasterFile) : Stage → Prop
  | .flush r plan i => Flushed f r plan i
  | .consolidate r plan => Flushed f r plan plan.length
  | _ => True

theorem stageContent_congr {st : Stage} {f f' : MasterFile}
    (h : ∀ q ∈ handed st, f'.block q = f.block q) (hs : StageContent f st) : StageContent f' st := by
  cases st with
  | flush r plan i =>
    intro j e hj he hk
    rw [h _ (mem_missSlots.mpr ⟨e,List.mem_of_getElem? he,hk,rfl⟩)]
    exact hs j e hj he hk
  | consolidate r plan =>
    intro j e hj he hk
    rw [h _ (mem_missSlots.mpr ⟨e,List.mem_of_getElem? he,hk,rfl⟩)]
    exact hs j e hj he hk
  | _ => trivial

/-- Every key holds the object with that hash, and the slot of the object holds
4096 bytes with that hash. -/
def ContentAddressed (sha512 : List UInt8 → Hash) (s : System) : Prop :=
  ∀ h a, find s.ctx.hashToMaster h = some a → (s.ctx.cell a).hash = h ∧
    sha512 (s.ctx.toMasterFile.block (s.ctx.cell a).masterBlockIndex) = (s.ctx.cell a).hash

structure ContentInv (sha512 : List UInt8 → Hash) (s : System) : Prop where
  stored : Stored (fun h b => sha512 b = h) s.ctx
  staged : ∀ st ∈ s.procs, StageContent s.ctx.toMasterFile st

theorem start_content (f : MasterFile) (k : Call) : StageContent f k.start := by
  cases k with
  | write r =>
    simp only [Call.start]
    split_ifs <;> trivial
  | unlink path => trivial
  | truncate path size =>
    simp only [Call.start]
    split_ifs <;> trivial
  | read r buf =>
    simp only [Call.start]
    split_ifs <;> trivial

theorem endLookup_content (f : MasterFile) (r : ReadDedup.ReadReq)
    (pairs : List ReadDedup.BlockPair) (buf : ReadDedup.Buffer) :
    StageContent f (endLookup qsort r pairs buf) := by
  unfold endLookup
  split_ifs <;> trivial

theorem flushStep_content {r : WriteReq} {plan : List PlanEntry} {i : ℕ} (io : PwriteResult)
    (h : Inv Z c (⟨plan,[],true⟩::ps)) (hok : PlanOk sha512 r plan) (hs : Stored good c)
    (hf : Flushed c.toMasterFile r plan i) :
    Stored good (flushStep r plan i io c).1 ∧
      StageContent (flushStep r plan i io c).1.toMasterFile (flushStep r plan i io c).2 ∧
      ∀ q ∉ missSlots plan, (flushStep r plan i io c).1.toMasterFile.block q =
        c.toMasterFile.block q := by
  have hnd : (missSlots plan).Nodup := by
    have := slots_nodup h
    simp only [List.flatMap_cons,Party.slots,List.nil_append,if_true] at this
    exact (List.Nodup.of_append_right (List.Nodup.of_append_left this)).of_append_left
  have hfree : ∀ k a, find c.hashToMaster k = some a →
      (c.cell a).masterBlockIndex ∉ missSlots plan := by
    intro k a hk
    have hp : Published c a := by
      rw [Published,(h.keyed k a hk).1]
      exact hk
    simpa [Party.slots] using (published_slot_unclaimed h hp).2 _ (List.mem_cons_self ..)
  unfold flushStep
  split
  · next hrun => exact ⟨hs,flushed_end hrun hf,fun _ _ => rfl⟩
  · next skip e len hrun =>
    have hspare := fun q hq => pwriteRun_spares (r := r) hrun io c.toMasterFile (q := q) hq
    cases hw : pwriteRun r e len io c.toMasterFile with
    | mk f err =>
      rw [hw] at hspare
      have hst : Stored good { c with toMasterFile := f } := by
        intro k a hk
        change good k (f.block (c.cell a).masterBlockIndex)
        rw [hspare _ (hfree k a hk)]
        exact hs k a hk
      cases err with
      | none => exact ⟨hst,flushed_run hok.1 hok.2.2 hnd hrun hw hf,hspare⟩
      | some err => exact ⟨hst,trivial,hspare⟩

theorem lookupStep_content (f : MasterFile) (r : ReadDedup.ReadReq)
    (pairs : List ReadDedup.BlockPair) (buf : ReadDedup.Buffer) (c : Context) :
    StageContent f (lookupStep qsort r pairs buf c) := by
  unfold lookupStep
  split
  · split
    · trivial
    · exact endLookup_content f r pairs buf
  · exact endLookup_content f r pairs buf

theorem readStep_content (f : MasterFile) (r : ReadDedup.ReadReq)
    (pairs : List ReadDedup.BlockPair) (n : ℕ) (buf : ReadDedup.Buffer) (c : Context) :
    StageContent f (readStep r pairs n buf c) := by
  simp only [readStep]
  split
  · trivial
  · split <;> trivial

theorem flushed_hits {f : MasterFile} {r : WriteReq} {plan : List PlanEntry} {i : ℕ}
    (hz : missCount plan = 0) : Flushed f r plan i := by
  intro j e _ he hk
  exact absurd hk (by simpa using List.countP_eq_zero.mp hz e (List.mem_of_getElem? he))

theorem shrinkSize_stored (path : Path) (size : ℕ) (hs : Stored good c) :
    Stored good (shrinkSize path size c) ∧
      (shrinkSize path size c).toMasterFile = c.toMasterFile := by
  unfold shrinkSize
  split
  · exact ⟨hs,rfl⟩
  · split_ifs <;> exact ⟨hs,rfl⟩

/-- One step of one call: published slots stay good, the call's own flushed
slots are right, and slots of other parties are not touched. -/
theorem advance_content {st : Stage} {t : Context × Stage} (h : Inv Z c (party st::ps))
    (hok : StageOk sha512 st) (hs : Stored (fun k b => sha512 b = k) c)
    (hst : StageContent c.toMasterFile st) (ht : advance sha512 qsort ch c st = some t) :
    Stored (fun k b => sha512 b = k) t.1 ∧ StageContent t.1.toMasterFile t.2 ∧
      ∀ q ∉ handed st, t.1.toMasterFile.block q = c.toMasterFile.block q := by
  have hsame : ∀ {d : Context}, Narrows c d ∧ d.toMasterFile = c.toMasterFile →
      Stored (fun k b => sha512 b = k) d ∧
        ∀ q ∉ handed st, d.toMasterFile.block q = c.toMasterFile.block q := fun hd =>
    ⟨stored_narrows hd.2 hd.1 hs,fun q _ => congrArg (MasterFile.block · q) hd.2⟩
  have hself : Stored (fun k b => sha512 b = k) c ∧
      ∀ q ∉ handed st, c.toMasterFile.block q = c.toMasterFile.block q := ⟨hs,fun _ _ => rfl⟩
  cases st with
  | pass1 r p =>
    simp only [advance] at ht
    split_ifs at ht with h₁ h₂ h₃
    · cases ht
      obtain ⟨h₄,h₅⟩ := hsame (narrows_pass1Block (p := p) (r := r) h h₂)
      exact ⟨h₄,trivial,h₅⟩
    · cases ht
      exact ⟨hs,trivial,hself.2⟩
    · cases ht
      exact ⟨hs,flushed_hits (by omega),hself.2⟩
  | drain r plan =>
    cases ht
    exact ⟨hs,trivial,hself.2⟩
  | append r plan taken =>
    cases ht
    have hinv := inv_append (missCount plan) h
    obtain ⟨hn,hfile⟩ := narrows_assignSlots (appendSlots (missCount plan) taken c).1 hinv
    obtain ⟨h₄,h₅⟩ := hsame (d := (assignSlots plan (appendSlots (missCount plan) taken c).1
      (appendSlots (missCount plan) taken c).2).2) ⟨hn,hfile⟩
    exact ⟨h₄,fun j e hj => absurd hj (Nat.not_lt_zero j),h₅⟩
  | flush r plan i =>
    cases ht
    exact flushStep_content ch.io h hok hs hst
  | consolidate r plan =>
    cases ht
    exact ⟨stored_consolidate h hok.1 hst (fun _ _ => rfl) hs,trivial,
      fun q _ => congrArg (MasterFile.block · q) (consolidate_file r plan c)⟩
  | release slots res =>
    cases ht
    exact ⟨hs,trivial,hself.2⟩
  | rollbackHits plan err =>
    cases ht
    obtain ⟨h₄,h₅⟩ := hsame ⟨narrows_rollbackHits plan c [],
      (frame_rollbackHits plan c []).toMasterFile⟩
    exact ⟨h₄,trivial,h₅⟩
  | rollbackConcat plan slots err =>
    cases ht
    exact ⟨hs,trivial,hself.2⟩
  | rollbackMisses plan err =>
    cases ht
    obtain ⟨g₁,_,_,g₂,g₃,_⟩ := rollbackMisses_keeps plan c
    obtain ⟨h₄,h₅⟩ := hsame (d := WriteDedup.rollbackMisses plan c)
      ⟨fun k a hk => ⟨g₁ ▸ hk,by rw [g₂]⟩,g₃⟩
    exact ⟨h₄,trivial,h₅⟩
  | unlinkSize path =>
    simp only [advance] at ht
    split at ht <;> cases ht <;> exact ⟨hs,trivial,hself.2⟩
  | unlinkRemove path n =>
    cases ht
    obtain ⟨h₄,h₅⟩ := hsame ⟨narrows_removeBlocks path n 0 c [],
      (frame_removeBlocks path n 0 c []).toMasterFile⟩
    exact ⟨h₄,trivial,h₅⟩
  | truncateSize path size =>
    simp only [advance] at ht
    split at ht <;> cases ht <;> exact ⟨hs,trivial,hself.2⟩
  | truncateRemove path size n m =>
    cases ht
    obtain ⟨h₄,h₅⟩ := hsame ⟨narrows_removeBlocks path (m-n) n c [],
      (frame_removeBlocks path (m-n) n c []).toMasterFile⟩
    exact ⟨h₄,trivial,h₅⟩
  | truncateShrink path size =>
    cases ht
    obtain ⟨h₄,h₅⟩ := shrinkSize_stored path size hs
    exact ⟨h₄,trivial,fun q _ => congrArg (MasterFile.block · q) h₅⟩
  | readLookup r pairs buf =>
    cases ht
    exact ⟨hs,lookupStep_content _ r pairs buf c,hself.2⟩
  | readGroups r pairs n buf =>
    cases ht
    exact ⟨hs,readStep_content _ r pairs n buf c,hself.2⟩
  | readDone r pairs n buf res => cases ht
  | done res => cases ht
  | _ =>
    cases ht
    exact ⟨hs,trivial,hself.2⟩

theorem contentInv_step {s t : System} {a : Action} (hi : SysInv sha512 Z s)
    (h : ContentInv sha512 s) (hs : step sha512 qsort s a = some t) : ContentInv sha512 t := by
  cases a with
  | call k =>
    rw [step_call_some sha512 qsort hs]
    refine ⟨h.stored,?_⟩
    intro st hst
    rcases List.mem_append.mp hst with hst | hst
    · exact h.staged st hst
    · rw [List.mem_singleton.mp hst]
      exact start_content _ k
  | step i ch =>
    obtain ⟨st,d,hst,hd,rfl,_⟩ := step_step_some sha512 qsort hs
    have hmem := List.mem_of_getElem? hst
    obtain ⟨hp,hp'⟩ := set_perm s.procs i st d.2 hst
    have hinv : Inv Z s.ctx (party st::(s.procs.eraseIdx i).map party) :=
      inv_perm (hp.map party) hi.ledger
    obtain ⟨h₁,h₂,h₃⟩ := advance_content hinv (hi.staged st hmem) h.stored (h.staged st hmem) hd
    refine ⟨h₁,?_⟩
    intro q hq
    rcases List.mem_cons.mp (hp'.mem_iff.mp hq) with rfl | hq
    · exact h₂
    · -- the slots of another party are not among those of the stepping one
      refine stageContent_congr ?_ (h.staged q (hp.mem_iff.mpr (List.mem_cons_of_mem _ hq)))
      intro x hx
      apply h₃
      intro hx'
      have hnd := slots_nodup hinv
      rw [List.flatMap_cons] at hnd
      have hdisj := List.disjoint_of_nodup_append
        (List.Nodup.of_append_right (List.Nodup.of_append_left hnd))
      refine hdisj (a := x) ?_ ?_
      · rw [party_slots]
        exact List.mem_append_right _ hx'
      · refine List.mem_flatMap.mpr ⟨party q,List.mem_map.mpr ⟨q,hq,rfl⟩,?_⟩
        rw [party_slots]
        exact List.mem_append_right _ hx

theorem clean_contentInv {acts : List Action} {s : System} (hr : Reaches sha512 qsort acts s)
    (hc : Meets (step sha512 qsort) (Clean sha512) emptySystem acts) :
    SysInv sha512 ∅ s ∧ ContentInv sha512 s :=
  exec_invariant (step sha512 qsort) (Clean sha512)
    (fun s => SysInv sha512 ∅ s ∧ ContentInv sha512 s)
    (fun s a t hi hc hs => ⟨sysInv_step hi.1 hc.1 hc.2 (by simp) hs,contentInv_step hi.1 hi.2 hs⟩)
    emptySystem s acts ⟨sysInv_empty ∅,by simp [Stored,emptySystem,emptyContext],
      by simp [emptySystem]⟩ hc hr

/-- In every clean run the index is content addressed. -/
theorem clean_run_content (acts : List Action) (s : System) (hr : Reaches sha512 qsort acts s)
    (hc : Meets (step sha512 qsort) (Clean sha512) emptySystem acts) :
    ContentAddressed sha512 s := by
  have hrun := clean_contentInv hr hc
  intro h a hk
  have hkey := (hrun.1.ledger.keyed h a hk).1
  exact ⟨hkey,(hrun.2.stored h a hk).trans hkey.symm⟩

theorem clean_run_content_shared : ∃ s, Reaches sampleSha512 id sharedBlocks s ∧
    Meets (step sampleSha512 id) (Clean sampleSha512) emptySystem sharedBlocks ∧
    ContentAddressed sampleSha512 s ∧ find s.ctx.hashToMaster digestA = some 0 := by
  have hc : Meets (step sampleSha512 id) (Clean sampleSha512) emptySystem sharedBlocks := by
    decide +kernel
  obtain ⟨s,hr,hp⟩ := exec_observe (step sampleSha512 id)
    (fun s => find s.ctx.hashToMaster digestA = some 0) emptySystem sharedBlocks
    (by decide +kernel)
  exact ⟨s,hr,hc,clean_run_content sharedBlocks s hr hc,of_decide_eq_true hp⟩

def overwrittenSlot : List Action :=
  lostDoubleCheck++[go 0 2,
    .call (.write (fillReq fileB 66 1 1 one_block_fits block1_ends)),go 2 0,go 2 2,
    .call (.unlink fileA),go 3 2,go 3 2,go 3 2,go 2 2,go 2 2,go 2 2]

theorem overwritten_slot_mismatch :
    ∃ s, Reaches sampleSha512 id overwrittenSlot s ∧ ¬ ContentAddressed sampleSha512 s := by
  obtain ⟨s,hr,hp⟩ := exec_observe (step sampleSha512 id)
    (fun s => find s.ctx.hashToMaster digestA = some 1 ∧ (s.ctx.cell 1).hash = digestA ∧
      sampleSha512 (s.ctx.toMasterFile.block (s.ctx.cell 1).masterBlockIndex) = digestB)
    emptySystem overwrittenSlot (by decide +kernel)
  obtain ⟨hk,hh,hb⟩ := of_decide_eq_true hp
  refine ⟨s,hr,?_⟩
  intro h
  have := (h digestA 1 hk).2
  rw [hb,hh] at this
  exact absurd this (by decide)

end Runs

end ArchivalDedup.Content
