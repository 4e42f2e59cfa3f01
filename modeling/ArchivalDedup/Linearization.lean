import ArchivalDedup.Library.EffectTrace
import ArchivalDedup.BlockRefinement

/-!
# The files that interleaved operations leave behind

`Volume` is what the users of a mount can tell apart: the blocks of every path
and its size, without hashes, objects or slots. Of all the steps of a call only
few have an effect on it: pass 3 of a write, the removal loop, and the sections
that change a size. In a clean run without collisions the volume is what those
effects give, applied in the order of the steps.
-/

set_option autoImplicit false

namespace ArchivalDedup.Linearization
open ArchivalDedup.FiniteTable ArchivalDedup.MetaIndex ArchivalDedup.WriteDedup
open ArchivalDedup.ReadDedup ArchivalDedup.Passthrough ArchivalDedup.PlanShape ArchivalDedup.Ledger
open ArchivalDedup.LedgerPasses ArchivalDedup.LedgerLoops ArchivalDedup.Threads
open ArchivalDedup.ThreadLedger ArchivalDedup.ReferenceSafety ArchivalDedup.Content
open ArchivalDedup.Extents ArchivalDedup.MappedHashes ArchivalDedup.Interleaving
open ArchivalDedup.EffectTrace ArchivalDedup.BlockRefinement ArchivalDedup.LoopFrames

@[ext] structure Volume where
  blocks : Path → ℕ → Option (List UInt8)
  size : Path → Option ℕ

def emptyVolume : Volume := ⟨fun _ _ => none,fun _ => none⟩

inductive Effect where
  | store (r : WriteReq)
  | clear (path : Path) (i n : ℕ)
  | forget (path : Path)
  | shrink (path : Path) (size : ℕ)

def Effect.path : Effect → Path
  | .store r => r.path
  | .clear path _ _ => path
  | .forget path => path
  | .shrink path _ => path

def Volume.apply (v : Volume) : Effect → Volume
  | .store r =>
    ⟨fun p b => if p = r.path ∧ r.startBlock ≤ b ∧ b < r.startBlock+r.numBlocks
        then some (r.block (b-r.startBlock)) else v.blocks p b,
      fun p => if p = r.path then some (max ((v.size r.path).getD 0) r.newEnd) else v.size p⟩
  | .clear path i n =>
    { v with blocks := fun p b => if p = path ∧ i ≤ b ∧ b < i+n then none else v.blocks p b }
  | .forget path => { v with size := fun p => if p = path then none else v.size p }
  | .shrink path size =>
    { v with size := fun p => if p = path then (v.size path).map (min size) else v.size p }

/-- The volume that an index and a master file stand for. -/
def volume (c : Context) : Volume where
  blocks := fun p b => (find c.fileToMaster ⟨p,b⟩).map
    (fun a => c.toMasterFile.block (c.cell a).masterBlockIndex)
  size := fun p => find c.fileToSizes p

/-- The effect of the next step of a stage. -/
def effect : Stage → Option Effect
  | .consolidate r _ => some (.store r)
  | .unlinkRemove path numBlocks => some (.clear path 0 numBlocks)
  | .unlinkDropSize path => some (.forget path)
  | .truncateRemove path _ newBlockCount oldBlockCount =>
      some (.clear path newBlockCount (oldBlockCount-newBlockCount))
  | .truncateShrink path size => some (.shrink path size)
  | _ => none

def effectBy (s : System) : Action → Option (ℕ × Effect)
  | .call _ => none
  | .step i _ => ((s.procs[i]?).bind effect).map (fun e => (i,e))

def Volume.applyBy (v : Volume) (e : ℕ × Effect) : Volume := v.apply e.2

variable (sha512 : List UInt8 → Hash) (qsort : List BlockPair → List BlockPair)

/-- The effects of a run from the empty store, in the order of its steps. -/
def effects (acts : List Action) : List (ℕ × Effect) :=
  trace (step sha512 qsort) effectBy emptySystem acts

def request : Stage → Option WriteReq
  | .pass1 r _ => some r
  | .drain r _ => some r
  | .append r _ _ => some r
  | .flush r _ _ => some r
  | .consolidate r _ => some r
  | _ => none

def writtenBlocks (acts : List Action) : List (List UInt8) :=
  acts.flatMap (fun
    | .call (.write r) => (List.range r.numBlocks).map r.block
    | _ => [])

variable {sha512 qsort}
variable {c d : Context} {ps : List Party} {ch : Choice}

/-! ## What the loops leave in the objects -/

def SameCells (c d : Context) : Prop :=
  ∀ a, (d.cell a).hash = (c.cell a).hash ∧
    (d.cell a).masterBlockIndex = (c.cell a).masterBlockIndex

theorem sameCells_frame (h : Frame c d) : SameCells c d := fun a => ⟨h.hash a,h.slot a⟩

theorem sameCells_consolidate (r : WriteReq) (plan : List PlanEntry) (c : Context) :
    SameCells c (consolidate r plan c).1 := by
  intro a
  have hheap := (growSize_keeps (mapPlan r.path (publishPlan plan c []).2.2
    (publishPlan plan c []).1 (publishPlan plan c []).2.1).1 r.path r.newEnd).2.2.1
  have hframe := frame_pass3 r.path plan c
  exact ⟨(congrArg (fun t : Heap => (t.cell a).hash) hheap).trans (hframe.hash a),
    (congrArg (fun t : Heap => (t.cell a).masterBlockIndex) hheap).trans (hframe.slot a)⟩

/-! ## One step of one call -/

/-- What every step does to the objects and, outside its effect, to the tables. -/
structure Moves (c : Context) (st : Stage) (t : Context × Stage) : Prop where
  hash : ∀ a ∈ c.live, (t.1.cell a).hash = (c.cell a).hash
  slot : ∀ a, Published c a → (t.1.cell a).masterBlockIndex = (c.cell a).masterBlockIndex
  tables : effect st = none →
    t.1.fileToMaster = c.fileToMaster ∧ t.1.fileToSizes = c.fileToSizes
  narrows : (∀ r plan, st ≠ .consolidate r plan) → Narrows c t.1
  request : ∀ r ∈ request t.2, r ∈ request st

theorem moves_kept {st st' : Stage} (hcell : SameCells c d)
    (ht : effect st = none → d.fileToMaster = c.fileToMaster ∧ d.fileToSizes = c.fileToSizes)
    (hn : Narrows c d) (hr : ∀ r ∈ request st', r ∈ request st) : Moves c st (d,st') where
  hash := fun a _ => (hcell a).1
  slot := fun a _ => (hcell a).2
  tables := ht
  narrows := fun _ => hn
  request := hr

theorem moves_self {st st' : Stage} (hr : ∀ r ∈ request st', r ∈ request st) :
    Moves c st (c,st') :=
  moves_kept (fun _ => ⟨rfl,rfl⟩) (fun _ => ⟨rfl,rfl⟩) (narrows_refl c) hr

theorem published_live {Z : Set Ptr} {a : Ptr} (h : Inv Z c ps) (ha : Published c a) :
    a ∈ c.live := (h.keyed _ _ ha).2.1

theorem moves_pass1 {Z : Set Ptr} {r : WriteReq} {p : Pass1} {a : Ptr} {st : Stage}
    (h : Inv Z c ps) (ha : a ∉ c.live) (hst : request st = some r) :
    Moves c st ((pass1Block sha512 r a c p).1,.pass1 r (pass1Block sha512 r a c p).2) := by
  have hcell : ∀ b ∈ c.live, ((pass1Block sha512 r a c p).1.cell b).hash = (c.cell b).hash ∧
      ((pass1Block sha512 r a c p).1.cell b).masterBlockIndex = (c.cell b).masterBlockIndex := by
    intro b hb
    cases hx : existingInfo c p (sha512 (r.block p.plan.length)) with
    | some x =>
      rw [pass1Block_hit a hx]
      exact ⟨setRefcount_hash c x _ b,setRefcount_masterBlockIndex c x _ b⟩
    | none =>
      rw [pass1Block_miss a hx]
      have hne : b ≠ a := fun he => ha (he ▸ hb)
      simp [Context.malloc,hne]
  exact
    { hash := fun b hb => (hcell b hb).1
      slot := fun b hb => (hcell b (published_live h hb)).2
      tables := fun _ => pass1Block_tables r a c p
      narrows := fun _ => (narrows_pass1Block h ha).1
      request := fun r' hr' => hst ▸ hr' }

theorem moves_append {Z : Set Ptr} {r : WriteReq} {plan : List PlanEntry} {taken : List ℕ}
    (h : Inv Z c (⟨plan,taken,false⟩::ps)) (n i : ℕ) :
    Moves c (.append r plan taken) ((assignSlots plan (appendSlots n taken c).1
      (appendSlots n taken c).2).2,.flush r (assignSlots plan (appendSlots n taken c).1
        (appendSlots n taken c).2).1 i) := by
  have hinv := inv_append n h
  obtain ⟨hix,_,_,_⟩ := assignSlots_frame plan (appendSlots n taken c).1 (appendSlots n taken c).2
  exact
    { hash := fun a _ => (assignSlots_cell plan _ _ a).1
      slot := by
        intro a ha
        have hz := (h.keyed _ _ ha).2.2
        simp only [heldMisses_cons,Nat.add_eq_zero_iff] at hz
        rw [(assignSlots_cell plan _ _ a).2.2 ((planMisses_zero plan a).mp hz.1)]
        rfl
      tables := fun _ => ⟨congrArg Index.fileToMaster hix,congrArg Index.fileToSizes hix⟩
      narrows := fun _ => (narrows_assignSlots (appendSlots n taken c).1 hinv).1
      request := fun _ hr => hr }

theorem moves_flush (r : WriteReq) (plan : List PlanEntry) (i : ℕ) (io : PwriteResult) :
    Moves c (.flush r plan i) (flushStep r plan i io c) := by
  unfold flushStep
  split
  · exact moves_self (fun _ hr => hr)
  · split
    · exact moves_kept (fun _ => ⟨rfl,rfl⟩) (fun _ => ⟨rfl,rfl⟩) (narrows_refl c) (fun _ hr => hr)
    · exact moves_kept (fun _ => ⟨rfl,rfl⟩) (fun _ => ⟨rfl,rfl⟩) (narrows_refl c)
        (fun _ hr => by cases hr)

theorem moves_removal {st st' : Stage} {e : Effect} (he : effect st = some e) (path : Path)
    (n i : ℕ) (hr : request st' = none) :
    Moves c st ((removeBlocks path n i c []).1,st') :=
  moves_kept (sameCells_frame (frame_removeBlocks path n i c []))
    (fun hn => by rw [he] at hn; cases hn) (narrows_removeBlocks path n i c [])
    (fun r h => by rw [hr] at h; cases h)

theorem request_lookupStep (r : ReadReq) (pairs : List BlockPair) (buf : Buffer) (c : Context) :
    request (lookupStep qsort r pairs buf c) = none := by
  have hend : request (endLookup qsort r pairs buf) = none := by
    unfold endLookup
    split_ifs <;> rfl
  unfold lookupStep
  split
  · split
    · rfl
    · exact hend
  · exact hend

theorem request_readStep (r : ReadReq) (pairs : List BlockPair) (g : ℕ) (buf : Buffer)
    (c : Context) : request (readStep r pairs g buf c) = none := by
  simp only [readStep]
  split
  · rfl
  · split <;> rfl

theorem shrinkSize_same (path : Path) (size : ℕ) (c : Context) :
    SameCells c (shrinkSize path size c) ∧ Narrows c (shrinkSize path size c) := by
  unfold shrinkSize
  split
  · exact ⟨fun _ => ⟨rfl,rfl⟩,narrows_refl c⟩
  · split_ifs <;> exact ⟨fun _ => ⟨rfl,rfl⟩,narrows_refl c⟩

theorem advance_moves {Z : Set Ptr} {st : Stage} {t : Context × Stage}
    (h : Inv Z c (party st::ps)) (hs : advance sha512 qsort ch c st = some t) : Moves c st t := by
  have hquiet : ∀ {st' : Stage}, request st' = none → Moves c st (c,st') := fun hn =>
    moves_self (fun r hr => by rw [hn] at hr; cases hr)
  cases st with
  | pass1 r p =>
    simp only [advance] at hs
    split_ifs at hs with h₁ h₂ h₃
    · cases hs
      exact moves_pass1 h h₂ rfl
    · cases hs
      exact moves_self (fun _ hr => hr)
    · cases hs
      exact moves_self (fun _ hr => hr)
  | drain r plan =>
    cases hs
    exact moves_kept (fun _ => ⟨rfl,rfl⟩) (fun _ => ⟨rfl,rfl⟩) (narrows_refl c) (fun _ hr => hr)
  | append r plan taken =>
    cases hs
    exact moves_append h (missCount plan) 0
  | flush r plan i =>
    cases hs
    exact moves_flush r plan i ch.io
  | consolidate r plan =>
    cases hs
    have hcell := sameCells_consolidate r plan c
    exact
      { hash := fun a _ => (hcell a).1
        slot := fun a _ => (hcell a).2
        tables := fun hn => by cases hn
        narrows := fun hne => absurd rfl (hne r plan)
        request := fun _ hr => by cases hr }
  | rollbackHits plan err =>
    cases hs
    have hframe := frame_rollbackHits plan c []
    exact moves_kept (sameCells_frame hframe)
      (fun _ => ⟨rollbackHits_fileToMaster plan c [],hframe.fileToSizes⟩)
      (narrows_rollbackHits plan c []) (fun _ hr => by cases hr)
  | rollbackMisses plan err =>
    cases hs
    obtain ⟨g₁,g₂,g₃,g₄,_,_⟩ := rollbackMisses_keeps plan c
    exact moves_kept (fun a => ⟨by rw [g₄],by rw [g₄]⟩) (fun _ => ⟨g₂,g₃⟩)
      (fun k a hk => ⟨g₁ ▸ hk,by rw [g₄]⟩) (fun _ hr => by cases hr)
  | unlinkSize path =>
    simp only [advance] at hs
    split at hs <;> cases hs <;> exact hquiet rfl
  | unlinkRemove path n =>
    cases hs
    exact moves_removal rfl path n 0 rfl
  | unlinkDropSize path =>
    cases hs
    exact moves_kept (fun _ => ⟨rfl,rfl⟩) (fun hn => by cases hn) (narrows_refl c)
      (fun _ hr => by cases hr)
  | truncateSize path size =>
    simp only [advance] at hs
    split at hs <;> cases hs <;> exact hquiet rfl
  | truncateRemove path size n m =>
    cases hs
    exact moves_removal rfl path (m-n) n rfl
  | truncateShrink path size =>
    cases hs
    obtain ⟨hcell,hn⟩ := shrinkSize_same path size c
    exact moves_kept hcell (fun hn => by cases hn) hn (fun _ hr => by cases hr)
  | readLookup r pairs buf =>
    cases hs
    exact hquiet (request_lookupStep r pairs buf c)
  | readGroups r pairs g buf =>
    cases hs
    exact hquiet (request_readStep r pairs g buf c)
  | readDone r pairs g buf res => cases hs
  | done res => cases hs
  | _ =>
    cases hs
    exact moves_kept (fun _ => ⟨rfl,rfl⟩) (fun _ => ⟨rfl,rfl⟩) (narrows_refl c)
      (fun _ hr => by cases hr)

/-! ## The plans in flight -/

theorem entry_live {p : Party} {e : PlanEntry} (h : Inv ∅ c ps) (hp : p ∈ ps) (he : e ∈ p.plan) :
    e.info ∈ c.live := by
  by_contra hn
  rcases h.stale e.info hn with hz | ⟨hz,_⟩
  · simp only [refs,Nat.add_eq_zero_iff] at hz
    exact (heldRefs_zero ps e.info).mp hz.2 p hp e he rfl
  · exact hz

def Hashed (c : Context) (st : Stage) : Prop :=
  ∀ e ∈ (party st).plan, (c.cell e.info).hash = e.hash

theorem hashed_pass1 {r : WriteReq} {p : Pass1} {a : Ptr} (h : Inv ∅ c (party (.pass1 r p)::ps))
    (hok : Pass1Ok sha512 r p) (ha : a ∉ c.live) (hs : Hashed c (.pass1 r p)) :
    Hashed (pass1Block sha512 r a c p).1 (.pass1 r (pass1Block sha512 r a c p).2) := by
  have hm : Moves c (.pass1 r p) ((pass1Block sha512 r a c p).1,
      .pass1 r (pass1Block sha512 r a c p).2) := moves_pass1 h ha rfl
  have hold : ∀ e ∈ p.plan, ((pass1Block sha512 r a c p).1.cell e.info).hash = e.hash := fun e he =>
    (hm.hash e.info (entry_live h (List.mem_cons_self ..) he)).trans (hs e he)
  cases hx : existingInfo c p (sha512 (r.block p.plan.length)) with
  | some b =>
    have hb : (c.cell b).hash = sha512 (r.block p.plan.length) := by
      rcases Option.or_eq_some_iff.mp hx with hk | ⟨_,hk⟩
      · exact (h.keyed _ b hk).1
      · obtain ⟨e,he,_,heh,hei⟩ := hok.pendingOf _ _ hk
        rw [←hei,hs e he,heh]
    intro e he
    rw [pass1Block_hit a hx] at he hold ⊢
    rcases List.mem_append.mp he with he | he
    · exact hold e he
    · rw [List.mem_singleton.mp he]
      exact (setRefcount_hash c b _ b).trans hb
  | none =>
    intro e he
    rw [pass1Block_miss a hx] at he hold ⊢
    rcases List.mem_append.mp he with he | he
    · exact hold e he
    · rw [List.mem_singleton.mp he]
      simp [Context.malloc,newEntry]

theorem hashed_handed {st : Stage} {t : Context × Stage} (h : Inv ∅ c (party st::ps))
    (hm : Moves c st t) (hs : Hashed c st)
    (hsub : ∀ e ∈ (party t.2).plan, ∃ f ∈ (party st).plan, f.info = e.info ∧ f.hash = e.hash) :
    Hashed t.1 t.2 := by
  intro e he
  obtain ⟨f,hf,hi,hh⟩ := hsub e he
  rw [←hi,←hh,hm.hash f.info (entry_live h (List.mem_cons_self ..) hf)]
  exact hs f hf

theorem flushStep_plan (r : WriteReq) (plan : List PlanEntry) (i : ℕ) (io : PwriteResult)
    (c : Context) : (party (flushStep r plan i io c).2).plan = plan := by
  unfold flushStep
  split
  · rfl
  · split <;> rfl

theorem advance_hashed {st : Stage} {t : Context × Stage} (h : Inv ∅ c (party st::ps))
    (hok : StageOk sha512 st) (hs : Hashed c st) (ht : advance sha512 qsort ch c st = some t) :
    Hashed t.1 t.2 := by
  have hm := advance_moves h ht
  have hnone : (party t.2).plan = [] → Hashed t.1 t.2 := by
    intro hnil e he
    rw [hnil] at he
    cases he
  have hsame : (party t.2).plan = (party st).plan → Hashed t.1 t.2 := fun heq =>
    hashed_handed h hm hs (fun e he => ⟨e,heq ▸ he,rfl,rfl⟩)
  cases st with
  | pass1 r p =>
    simp only [advance] at ht
    split_ifs at ht with h₁ h₂ h₃
    · cases ht
      exact hashed_pass1 h hok.1 h₂ hs
    · cases ht
      exact hsame rfl
    · cases ht
      exact hsame rfl
  | drain r plan =>
    cases ht
    exact hsame rfl
  | append r plan taken =>
    cases ht
    refine hashed_handed h hm hs ?_
    intro e he
    have hu := assignSlots_unslotted plan (appendSlots (missCount plan) taken c).1
      (appendSlots (missCount plan) taken c).2
    obtain ⟨f,hf,hfe⟩ := unslotted_mem hu he
    obtain ⟨_,_,_,hhash,hinfo⟩ := unslotted_fields hfe
    exact ⟨f,hf,hinfo,hhash⟩
  | flush r plan i =>
    cases ht
    exact hsame (flushStep_plan r plan i ch.io c)
  | consolidate r plan =>
    cases ht
    exact hnone rfl
  | rollbackHits plan err =>
    cases ht
    exact hashed_handed h hm hs (fun e he => ⟨e,(List.mem_filter.mp he).1,rfl,rfl⟩)
  | rollbackConcat plan slots err =>
    cases ht
    exact hsame rfl
  | unlinkSize path =>
    simp only [advance] at ht
    split at ht <;> cases ht <;> exact hnone rfl
  | truncateSize path size =>
    simp only [advance] at ht
    split at ht <;> cases ht <;> exact hnone rfl
  | readLookup r pairs buf =>
    cases ht
    exact hnone (by rw [lookupStep_party])
  | readGroups r pairs g buf =>
    cases ht
    exact hnone (by rw [readStep_party])
  | readDone r pairs g buf res => cases ht
  | done res => cases ht
  | _ =>
    cases ht
    exact hnone rfl

/-! ## Pass 3 among other calls -/

theorem publishPlan_hashes (plan : List PlanEntry) (c : Context) (slots : List ℕ)
    (hkey : ∀ k a, find c.hashToMaster k = some a → (c.cell a).hash = k)
    (hh : ∀ e ∈ plan, (c.cell e.info).hash = e.hash) {e : PlanEntry}
    (he : e ∈ (publishPlan plan c slots).2.2) :
    (c.cell e.info).hash = e.hash ∧ ∃ f ∈ plan, f.logicalBlk = e.logicalBlk ∧ f.hash = e.hash := by
  induction plan generalizing c slots with
  | nil => cases he
  | cons f fs ih =>
    have hframe := frame_publishEntry c slots f
    have hkey' : ∀ k a, find (publishEntry c slots f).1.hashToMaster k = some a →
        ((publishEntry c slots f).1.cell a).hash = k := by
      intro k a hk
      rw [hframe.hash]
      rcases publishEntry_published c slots f hk with hk | ⟨_,hk',rfl⟩
      · exact hkey k a hk
      · exact hk'
    rcases List.mem_cons.mp he with rfl | he
    · refine ⟨?_,f,by simp,?_⟩
      all_goals unfold publishEntry
      all_goals split
      · exact hh f (by simp)
      · split
        · next w hw => exact (hkey _ w hw).trans (hh f (by simp))
        · exact hh f (by simp)
      · exact ⟨rfl,rfl⟩
      · split <;> exact ⟨rfl,rfl⟩
    · obtain ⟨h₁,g,hg,h₂⟩ := ih (publishEntry c slots f).1 (publishEntry c slots f).2.1 hkey'
        (fun g hg => by rw [hframe.hash]; exact hh g (by simp [hg])) he
      rw [hframe.hash] at h₁
      exact ⟨h₁,g,by simp [hg],h₂⟩

theorem consolidate_files (r : WriteReq) (plan : List PlanEntry) (c : Context) :
    (consolidate r plan c).1.fileToMaster = (mapPlan r.path (publishPlan plan c []).2.2
      (publishPlan plan c []).1 (publishPlan plan c []).2.1).1.fileToMaster :=
  (growSize_keeps _ r.path r.newEnd).2.1

theorem published_blocks {r : WriteReq} {plan : List PlanEntry} (hok : PlanOk sha512 r plan)
    (c : Context) : (publishPlan plan c []).2.2.map PlanEntry.logicalBlk =
      (List.range r.numBlocks).map (r.startBlock+·) := by
  rw [publishPlan_blocks,formed_blocks hok.1,hok.2.2]

theorem consolidate_inside {r : WriteReq} {plan : List PlanEntry} (hok : PlanOk sha512 r plan)
    (hkey : ∀ k a, find c.hashToMaster k = some a → (c.cell a).hash = k)
    (hh : ∀ e ∈ plan, (c.cell e.info).hash = e.hash) {b : ℕ} (hlo : r.startBlock ≤ b)
    (hhi : b < r.startBlock+r.numBlocks) :
    ∃ a, find (consolidate r plan c).1.fileToMaster ⟨r.path,b⟩ = some a ∧
      (c.cell a).hash = sha512 (r.block (b-r.startBlock)) := by
  have hblocks := published_blocks hok c
  obtain ⟨e,he,rfl⟩ : ∃ e ∈ (publishPlan plan c []).2.2, e.logicalBlk = b := by
    refine List.mem_map.mp ?_
    rw [hblocks]
    exact List.mem_map.mpr ⟨b-r.startBlock,List.mem_range.mpr (by omega),by omega⟩
  have hnd : ((publishPlan plan c []).2.2.map PlanEntry.logicalBlk).Nodup := by
    rw [hblocks]
    exact List.nodup_range.map (fun a b hab => Nat.add_left_cancel hab)
  obtain ⟨hhash,f,hf,hfb,hfh⟩ := publishPlan_hashes plan c [] hkey hh he
  refine ⟨e.info,?_,?_⟩
  · rw [consolidate_files]
    exact mapPlan_self r.path _ _ _ hnd he
  · obtain ⟨j,hj⟩ := List.mem_iff_getElem?.mp hf
    obtain ⟨hjb,_,hjh⟩ := hok.1 j f hj
    have hidx : e.logicalBlk-r.startBlock = j := by omega
    rw [hhash,←hfh,hjh,hidx]

theorem consolidate_outside {r : WriteReq} {plan : List PlanEntry} (hok : PlanOk sha512 r plan)
    (c : Context) {p : Path} {b : ℕ}
    (hout : ¬ (p = r.path ∧ r.startBlock ≤ b ∧ b < r.startBlock+r.numBlocks)) :
    find (consolidate r plan c).1.fileToMaster ⟨p,b⟩ = find c.fileToMaster ⟨p,b⟩ := by
  rw [consolidate_files,mapPlan_other,publishPlan_fileToMaster]
  intro e he heq
  have hmem : e.logicalBlk ∈ (publishPlan plan c []).2.2.map PlanEntry.logicalBlk :=
    List.mem_map.mpr ⟨e,he,rfl⟩
  rw [published_blocks hok c] at hmem
  obtain ⟨j,hj,hje⟩ := List.mem_map.mp hmem
  have hlt := List.mem_range.mp hj
  have hp : p = r.path := congrArg BlockIndice.path heq
  have hb : b = e.logicalBlk := congrArg BlockIndice.offset heq
  exact hout ⟨hp,by omega⟩

/-! ## The volume, step by step -/

theorem volume_block (h : ∀ k a, find c.fileToMaster k = some a →
      (d.cell a).masterBlockIndex = (c.cell a).masterBlockIndex ∧
      d.toMasterFile.block (c.cell a).masterBlockIndex =
        c.toMasterFile.block (c.cell a).masterBlockIndex)
    {p : Path} {b : ℕ} (hf : find d.fileToMaster ⟨p,b⟩ = find c.fileToMaster ⟨p,b⟩) :
    (volume d).blocks p b = (volume c).blocks p b := by
  simp only [volume,hf]
  cases hk : find c.fileToMaster ⟨p,b⟩ with
  | none => rw [Option.map_none,Option.map_none]
  | some a =>
    obtain ⟨h₁,h₂⟩ := h _ a hk
    rw [Option.map_some,Option.map_some,h₁,h₂]

theorem shrinkSize_find (path : Path) (size : ℕ) (c : Context) (p : Path) :
    find (shrinkSize path size c).fileToSizes p =
      if p = path then (find c.fileToSizes path).map (min size) else find c.fileToSizes p := by
  unfold shrinkSize
  cases hs : find c.fileToSizes path with
  | none =>
    simp only [Option.map_none]
    split_ifs with hp
    · rw [hp]
      exact hs
    · rfl
  | some ls =>
    simp only [Option.map_some]
    split_ifs with hlt hp hp
    · simp only [find_insert,if_pos hp]
      rw [Nat.min_eq_left (Nat.le_of_lt hlt)]
    · simp only [find_insert,if_neg hp]
    · rw [hp,hs,Nat.min_eq_right (Nat.le_of_not_lt hlt)]
    · rfl

structure LinearInv (sha512 : List UInt8 → Hash) (known : List (List UInt8)) (s : System) :
    Prop where
  sys : SysInv sha512 ∅ s
  content : ContentInv sha512 s
  stored : Stored (fun _ b => b ∈ known) s.ctx
  hashed : ∀ st ∈ s.procs, Hashed s.ctx st
  asked : ∀ st ∈ s.procs, ∀ r ∈ request st, ∀ i < r.numBlocks, r.block i ∈ known

/-- A step as seen by the call that takes it, the others being parties. -/
structure StepView (sha512 : List UInt8 → Hash) (known : List (List UInt8)) (c : Context)
    (ps : List Party) (st : Stage) : Prop where
  ledger : Inv ∅ c (party st::ps)
  ok : StageOk sha512 st
  stored : Stored (fun k b => sha512 b = k) c
  kept : Stored (fun _ b => b ∈ known) c
  content : StageContent c.toMasterFile st
  hashed : Hashed c st
  asked : ∀ r ∈ request st, ∀ i < r.numBlocks, r.block i ∈ known

variable {known : List (List UInt8)} {st : Stage} {t : Context × Stage}

theorem turn_kept (h : StepView sha512 known c ps st) (ht : advance sha512 qsort ch c st = some t)
    {a : Ptr} (ha : Published c a) :
    (t.1.cell a).masterBlockIndex = (c.cell a).masterBlockIndex ∧
      t.1.toMasterFile.block (c.cell a).masterBlockIndex =
        c.toMasterFile.block (c.cell a).masterBlockIndex := by
  refine ⟨(advance_moves h.ledger ht).slot a ha,?_⟩
  refine (advance_content h.ledger h.ok h.stored h.content ht).2.2 _ ?_
  intro hm
  refine (published_slot_unclaimed h.ledger ha).2 (party st) (List.mem_cons_self ..) ?_
  rw [party_slots]
  exact List.mem_append_right _ hm

theorem turn_known (h : StepView sha512 known c ps st) (ht : advance sha512 qsort ch c st = some t) :
    Stored (fun _ b => b ∈ known) t.1 := by
  by_cases hcon : ∃ r plan, st = .consolidate r plan
  · obtain ⟨r,plan,rfl⟩ := hcon
    cases ht
    exact stored_consolidate h.ledger h.ok.1 h.content
      (fun i hi => h.asked r rfl i (h.ok.2.2 ▸ hi)) h.kept
  · have hn := (advance_moves h.ledger ht).narrows (fun r plan he => hcon ⟨r,plan,he⟩)
    intro k a hk
    obtain ⟨hc,hs⟩ := hn k a hk
    have hp : Published c a := by
      rw [Published,(h.ledger.keyed k a hc).1]
      exact hc
    rw [hs,(turn_kept h ht hp).2]
    exact h.kept k a hc

theorem volume_kept (h : StepView sha512 known c ps st)
    (ht : advance sha512 qsort ch c st = some t) {p : Path} {b : ℕ}
    (hf : find t.1.fileToMaster ⟨p,b⟩ = find c.fileToMaster ⟨p,b⟩) :
    (volume t.1).blocks p b = (volume c).blocks p b :=
  volume_block (fun _ _ hk => turn_kept h ht (mapped_published h.ledger hk).2) hf

theorem consolidate_volume (hinj : ∀ x ∈ known, ∀ y ∈ known, sha512 x = sha512 y → x = y)
    {r : WriteReq} {plan : List PlanEntry} (h : StepView sha512 known c ps (.consolidate r plan))
    (ht : advance sha512 qsort ch c (.consolidate r plan) = some t)
    (hafter : Inv ∅ t.1 (party t.2::ps)) : volume t.1 = (volume c).apply (.store r) := by
  have hkept := fun p b => volume_kept (p := p) (b := b) h ht
  have hknown := turn_known h ht
  have hstored := (advance_content h.ledger h.ok h.stored h.content ht).1
  cases ht
  apply Volume.ext
  · funext p b
    simp only [Volume.apply]
    split_ifs with hin
    · obtain ⟨rfl,hlo,hhi⟩ := hin
      obtain ⟨a,ha,hhash⟩ := consolidate_inside h.ok (fun k a hk => (h.ledger.keyed k a hk).1)
        h.hashed hlo hhi
      obtain ⟨_,hp⟩ := mapped_published hafter ha
      -- the slot holds known bytes with the hash of the block, so the block
      have hsha := hstored _ a hp
      have hmem := hknown _ a hp
      simp only [volume,ha,Option.map_some]
      refine congrArg some (hinj _ hmem _ (h.asked r rfl (b-r.startBlock) (by omega)) ?_)
      rw [hsha,(sameCells_consolidate r plan c a).1,hhash]
    · exact hkept p b (consolidate_outside h.ok c hin)
  · funext p
    exact consolidate_find r plan c p

theorem removed_volume (h : StepView sha512 known c ps st)
    (ht : advance sha512 qsort ch c st = some t) {path : Path} {n i : ℕ}
    (heq : t.1 = (removeBlocks path n i c []).1) :
    volume t.1 = (volume c).apply (.clear path i n) := by
  have hfind := removeBlocks_find path n i c []
  rw [←heq] at hfind
  apply Volume.ext
  · funext p b
    simp only [Volume.apply]
    split_ifs with hin
    · simp only [volume,hfind,if_pos hin,Option.map_none]
    · exact volume_kept h ht ((hfind ⟨p,b⟩).trans (if_neg hin))
  · funext p
    change find t.1.fileToSizes p = find c.fileToSizes p
    rw [heq,(frame_removeBlocks path n i c []).fileToSizes]

theorem quiet_volume (h : StepView sha512 known c ps st)
    (ht : advance sha512 qsort ch c st = some t) (hn : effect st = none) :
    volume t.1 = volume c := by
  obtain ⟨hf,hs⟩ := (advance_moves h.ledger ht).tables hn
  apply Volume.ext
  · funext p b
    exact volume_kept h ht (by rw [hf])
  · funext p
    change find t.1.fileToSizes p = find c.fileToSizes p
    rw [hs]

/-- Every step changes the volume by its effect alone. -/
theorem turn_volume (hinj : ∀ x ∈ known, ∀ y ∈ known, sha512 x = sha512 y → x = y)
    (h : StepView sha512 known c ps st) (ht : advance sha512 qsort ch c st = some t)
    (hafter : Inv ∅ t.1 (party t.2::ps)) :
    volume t.1 = (effect st).toList.foldl Volume.apply (volume c) := by
  have hquiet := quiet_volume h ht
  cases st with
  | consolidate r plan => exact consolidate_volume hinj h ht hafter
  | unlinkRemove path n =>
    refine removed_volume h ht ?_
    cases ht
    rfl
  | unlinkDropSize path =>
    cases ht
    apply Volume.ext
    · rfl
    · funext p
      exact find_erase c.fileToSizes p path
  | truncateRemove path size n m =>
    refine removed_volume h ht ?_
    cases ht
    rfl
  | truncateShrink path size =>
    have hkept := fun p b => volume_kept (p := p) (b := b) h ht
    cases ht
    apply Volume.ext
    · funext p b
      exact hkept p b (congrArg (find · _) (shrinkSize_fileToMaster path size c))
    · funext p
      exact shrinkSize_find path size c p
  | _ => exact hquiet rfl

/-! ## Whole runs -/

def HandsOver (known : List (List UInt8)) (a : Action) : Prop := ∀ b ∈ writtenBlocks [a], b ∈ known

theorem start_hashed (c : Context) (k : Call) : Hashed c k.start := by
  intro e he
  rcases start_party k with hp | hp <;> rw [hp] at he <;> cases he

theorem start_asked {k : Call} (hk : HandsOver known (.call k)) :
    ∀ r ∈ request k.start, ∀ i < r.numBlocks, r.block i ∈ known := by
  intro r hr i hi
  cases k with
  | write r' =>
    have heq : r' = r := by
      simp only [Call.start] at hr
      split_ifs at hr
      · cases hr
      · cases hr
      · exact Option.some.inj hr
    subst heq
    refine hk _ ?_
    simp only [writtenBlocks,List.flatMap_cons,List.flatMap_nil,List.append_nil]
    exact List.mem_map.mpr ⟨i,List.mem_range.mpr hi,rfl⟩
  | unlink path => cases hr
  | truncate path size =>
    simp only [Call.start] at hr
    split_ifs at hr <;> cases hr
  | read r' buf =>
    simp only [Call.start] at hr
    split_ifs at hr <;> cases hr

theorem linear_call {s : System} {k : Call} (h : LinearInv sha512 known s)
    (hk : HandsOver known (.call k)) : LinearInv sha512 known ⟨s.ctx,s.procs++[k.start]⟩ where
  sys := sysInv_call k h.sys
  content := by
    have hstep : step sha512 id s (.call k) = some ⟨s.ctx,s.procs++[k.start]⟩ := rfl
    exact contentInv_step h.sys h.content hstep
  stored := h.stored
  hashed := by
    intro st hst
    rcases List.mem_append.mp hst with hst | hst
    · exact h.hashed st hst
    · rw [List.mem_singleton.mp hst]
      exact start_hashed s.ctx k
  asked := by
    intro st hst
    rcases List.mem_append.mp hst with hst | hst
    · exact h.asked st hst
    · rw [List.mem_singleton.mp hst]
      exact start_asked hk

theorem linear_step (hinj : ∀ x ∈ known, ∀ y ∈ known, sha512 x = sha512 y → x = y)
    {s u : System} {a : Action} (h : LinearInv sha512 known s) (hc : Clean sha512 s a)
    (hk : HandsOver known a) (hs : step sha512 qsort s a = some u) :
    LinearInv sha512 known u ∧
      volume u.ctx = (effectBy s a).toList.foldl Volume.applyBy (volume s.ctx) := by
  have hsys : SysInv sha512 ∅ u := sysInv_step h.sys hc.1 hc.2 (by simp) hs
  have hcontent := contentInv_step h.sys h.content hs
  cases a with
  | call k =>
    rw [step_call_some sha512 qsort hs]
    exact ⟨linear_call h hk,rfl⟩
  | step i ch =>
    obtain ⟨st,t,hst,ht,rfl,_⟩ := step_step_some sha512 qsort hs
    have hmem := List.mem_of_getElem? hst
    obtain ⟨hp,hp'⟩ := set_perm s.procs i st t.2 hst
    have hturn : StepView sha512 known s.ctx ((s.procs.eraseIdx i).map party) st :=
      { ledger := inv_perm (hp.map party) h.sys.ledger
        ok := h.sys.staged st hmem
        stored := h.content.stored
        kept := h.stored
        content := h.content.staged st hmem
        hashed := h.hashed st hmem
        asked := h.asked st hmem }
    have hm := advance_moves hturn.ledger ht
    refine ⟨⟨hsys,hcontent,turn_known hturn ht,?_,?_⟩,?_⟩
    · intro q hq
      rcases List.mem_cons.mp (hp'.mem_iff.mp hq) with rfl | hq
      · exact advance_hashed hturn.ledger hturn.ok hturn.hashed ht
      · intro e he
        have hq' := hp.mem_iff.mpr (List.mem_cons_of_mem st hq)
        -- the other plans refer to allocated objects, whose hash stays
        have hl := entry_live h.sys.ledger (List.mem_map_of_mem hq') he
        exact (hm.hash e.info hl).trans (h.hashed q hq' e he)
    · intro q hq r hr
      rcases List.mem_cons.mp (hp'.mem_iff.mp hq) with rfl | hq
      · exact hturn.asked r (hm.request r hr)
      · exact h.asked q (hp.mem_iff.mpr (List.mem_cons_of_mem st hq)) r hr
    · have hv := turn_volume hinj hturn ht (inv_perm (hp'.map party) hsys.ledger)
      simp only [effectBy,hst,Option.bind_some]
      rw [hv]
      cases effect st <;> rfl

theorem linear_empty : LinearInv sha512 known emptySystem where
  sys := sysInv_empty ∅
  content := ⟨by simp [Stored,emptySystem,emptyContext],by simp [emptySystem]⟩
  stored := by simp [Stored,emptySystem,emptyContext]
  hashed := by simp [emptySystem]
  asked := by simp [emptySystem]

theorem volume_empty : volume emptyContext = emptyVolume := by
  simp [volume,emptyContext,emptyVolume]

theorem writtenBlocks_handed (acts : List Action) :
    ∀ a ∈ acts, HandsOver (writtenBlocks acts) a := by
  intro a ha b hb
  simp only [writtenBlocks,List.flatMap_cons,List.flatMap_nil,List.append_nil] at hb
  exact List.mem_flatMap.mpr ⟨a,ha,hb⟩

/-- No two different blocks that the calls of a run hand over have one hash. -/
def NoCollision (sha512 : List UInt8 → Hash) (acts : List Action) : Prop :=
  ∀ x ∈ writtenBlocks acts, ∀ y ∈ writtenBlocks acts, sha512 x = sha512 y → x = y

theorem handsOver_meets {acts : List Action} (hk : ∀ a ∈ acts, HandsOver known a) (s : System) :
    Meets (step sha512 qsort) (fun _ a => HandsOver known a) s acts :=
  meets_of_forall _ _ _ _ (fun a ha _ => hk a ha)

/-- From any such state on, the volume follows the effects. -/
theorem linear_exec (hinj : ∀ x ∈ known, ∀ y ∈ known, sha512 x = sha512 y → x = y)
    {acts : List Action} {s t : System} (h : LinearInv sha512 known s)
    (hc : Meets (step sha512 qsort) (Clean sha512) s acts) (hk : ∀ a ∈ acts, HandsOver known a)
    (he : exec (step sha512 qsort) s acts = some t) :
    LinearInv sha512 known t ∧
      volume t.ctx = (trace (step sha512 qsort) effectBy s acts).foldl Volume.applyBy
        (volume s.ctx) := by
  have hmeets := meets_and _ hc (handsOver_meets hk s)
  exact ⟨exec_invariant (step sha512 qsort) _ (LinearInv sha512 known)
      (fun _ _ _ hi hc hs => (linear_step hinj hi hc.1 hc.2 hs).1) s t acts h hmeets he,
    view_trace (step sha512 qsort) effectBy _ (LinearInv sha512 known) (fun s => volume s.ctx)
      Volume.applyBy (fun _ _ _ hi hc hs => linear_step hinj hi hc.1 hc.2 hs) s t acts h hmeets he⟩

/-- Whatever the interleaving, a clean run without collisions leaves the files
that its effects give in the order of the steps. -/
theorem clean_run_volume (acts : List Action) (s : System) (hr : Reaches sha512 qsort acts s)
    (hc : Meets (step sha512 qsort) (Clean sha512) emptySystem acts)
    (hinj : NoCollision sha512 acts) :
    volume s.ctx = (effects sha512 qsort acts).foldl Volume.applyBy emptyVolume := by
  rw [←volume_empty]
  exact (linear_exec hinj linear_empty hc (writtenBlocks_handed acts) hr).2

theorem sharedBlocks_uniform {b : List UInt8} (hb : b ∈ writtenBlocks sharedBlocks) :
    b = List.replicate blockSize 65 := by
  simp only [writtenBlocks,sharedBlocks,go,List.flatMap_cons,List.flatMap_nil,List.append_nil,
    List.mem_append,List.mem_map,List.mem_range,fill_numBlocks] at hb
  rcases hb with ⟨i,hi,rfl⟩ | ⟨i,hi,rfl⟩
  · exact fill_block two_blocks_fit blocks01_end hi
  · exact fill_block one_block_fits block0_ends hi

theorem sharedBlocks_noCollision : NoCollision sampleSha512 sharedBlocks := by
  intro x hx y hy _
  rw [sharedBlocks_uniform hx,sharedBlocks_uniform hy]

theorem sharedBlocks_clean :
    Meets (step sampleSha512 id) (Clean sampleSha512) emptySystem sharedBlocks := by
  decide +kernel

theorem clean_run_volume_shared : ∃ s, Reaches sampleSha512 id sharedBlocks s ∧
    NoCollision sampleSha512 sharedBlocks ∧
    Meets (step sampleSha512 id) (Clean sampleSha512) emptySystem sharedBlocks ∧
    volume s.ctx = (effects sampleSha512 id sharedBlocks).foldl Volume.applyBy emptyVolume ∧
    (volume s.ctx).size fileB = some blockSize := by
  obtain ⟨s,hr,hp⟩ := exec_observe (step sampleSha512 id)
    (fun s => find s.ctx.fileToSizes fileB = some blockSize) emptySystem sharedBlocks
    (by decide +kernel)
  exact ⟨s,hr,sharedBlocks_noCollision,sharedBlocks_clean,
    clean_run_volume sharedBlocks s hr sharedBlocks_clean sharedBlocks_noCollision,
    of_decide_eq_true hp⟩

def Volume.file (v : Volume) (path : Path) : (ℕ → Option (List UInt8)) × Option ℕ :=
  (v.blocks path,v.size path)

theorem apply_other (v : Volume) {e : Effect} {path : Path} (h : e.path ≠ path) :
    (v.apply e).file path = v.file path := by
  cases e with
  | store r =>
    have hp : path ≠ r.path := fun he => h he.symm
    simp [Volume.file,Volume.apply,hp]
  | clear p i n =>
    have hp : path ≠ p := fun he => h he.symm
    simp [Volume.file,Volume.apply,hp]
  | forget p =>
    have hp : path ≠ p := fun he => h he.symm
    simp [Volume.file,Volume.apply,hp]
  | shrink p size =>
    have hp : path ≠ p := fun he => h he.symm
    simp [Volume.file,Volume.apply,hp]

theorem apply_file {v v' : Volume} (e : Effect) {path : Path} (h : v.file path = v'.file path) :
    (v.apply e).file path = (v'.apply e).file path := by
  by_cases he : e.path = path
  · obtain ⟨hb,hs⟩ := Prod.mk.inj h
    have hblock : ∀ b, v.blocks path b = v'.blocks path b := congrFun hb
    cases e with
    | store r =>
      subst he
      simp only [Volume.file,Volume.apply,Effect.path] at hs hblock ⊢
      simp only [hs,hblock]
    | clear p i n =>
      subst he
      simp only [Volume.file,Volume.apply,Effect.path] at hs hblock ⊢
      simp only [hs,hblock]
    | forget p =>
      subst he
      simp only [Volume.file,Volume.apply,Effect.path] at hb ⊢
      simp only [hb,if_true]
    | shrink p size =>
      subst he
      simp only [Volume.file,Volume.apply,Effect.path] at hs hb ⊢
      simp only [hs,hb,if_true]
  · rw [apply_other v he,apply_other v' he,h]

/-- Files do not interfere, however their blocks are shared: what a clean run
without collisions leaves under a path depends only on the effects on it. -/
theorem clean_run_isolated (acts : List Action) (s : System) (hr : Reaches sha512 qsort acts s)
    (hc : Meets (step sha512 qsort) (Clean sha512) emptySystem acts)
    (hinj : NoCollision sha512 acts) (path : Path) :
    (volume s.ctx).file path = (((effects sha512 qsort acts).filter
      (fun e => e.2.path = path)).foldl Volume.applyBy emptyVolume).file path := by
  have hv := (linear_exec hinj linear_empty hc (writtenBlocks_handed acts) hr).2
  change volume s.ctx = (effects sha512 qsort acts).foldl Volume.applyBy (volume emptyContext) at hv
  rw [hv,volume_empty]
  refine foldl_part Volume.applyBy (Volume.file · path) _ ?_ ?_ _ _ _ rfl
  · intro v e he
    exact apply_other v (of_decide_eq_false he)
  · intro v v' e h
    exact apply_file e.2 h

theorem clean_run_isolated_shared : ∃ s, Reaches sampleSha512 id sharedBlocks s ∧
    NoCollision sampleSha512 sharedBlocks ∧
    Meets (step sampleSha512 id) (Clean sampleSha512) emptySystem sharedBlocks ∧
    (volume s.ctx).file fileB = (((effects sampleSha512 id sharedBlocks).filter
      (fun e => e.2.path = fileB)).foldl Volume.applyBy emptyVolume).file fileB := by
  obtain ⟨s,hr,_⟩ := exec_observe (step sampleSha512 id) (fun _ => true) emptySystem sharedBlocks
    (by decide +kernel)
  exact ⟨s,hr,sharedBlocks_noCollision,sharedBlocks_clean,
    clean_run_isolated sharedBlocks s hr sharedBlocks_clean sharedBlocks_noCollision fileB⟩

end ArchivalDedup.Linearization
