import ArchivalDedup.Library.HeapLog
import ArchivalDedup.Linearization
import ArchivalDedup.MasterExtent

/-!
# The objects of the index on the heap

Which `MasterInfo` objects each loop allocates, reads or writes through a pointer,
and frees, in the order of the source. In a clean run no call touches an object
that is not allocated, whatever other calls freed in the meantime, and once the
calls have returned the unmount frees what is left, each object once.
-/

set_option autoImplicit false

namespace ArchivalDedup.MemorySafety
open ArchivalDedup.FiniteTable ArchivalDedup.MetaIndex ArchivalDedup.WriteDedup
open ArchivalDedup.ReadDedup ArchivalDedup.Passthrough ArchivalDedup.PlanShape ArchivalDedup.Ledger
open ArchivalDedup.LedgerMoves ArchivalDedup.LedgerPublication ArchivalDedup.LedgerPasses
open ArchivalDedup.LedgerLoops ArchivalDedup.Threads ArchivalDedup.ThreadLedger
open ArchivalDedup.ReferenceSafety ArchivalDedup.Content ArchivalDedup.Persistence
open ArchivalDedup.Remount ArchivalDedup.FailedWrite
open ArchivalDedup.Interleaving ArchivalDedup.EffectTrace ArchivalDedup.HeapLog
open ArchivalDedup.Linearization ArchivalDedup.SequentialRun ArchivalDedup.MasterExtent

/-! ## The accesses of the source -/

def dropAccesses (c : Context) (info : Ptr) : List (Access Ptr) :=
  .use info::if (c.cell info).refcount = 1 then [.use info,.free info] else []

def removeAccesses (path : Path) : ℕ → ℕ → Context → List ℕ → List (Access Ptr)
  | 0, _, _, _ => []
  | n+1, i, c, slots =>
    let t := removeBlock path i c slots
    ((c.lookupByFileBlock path i).toList.flatMap (dropAccesses c))++
      removeAccesses path n (i+1) t.1 t.2

def rollbackHitAccesses : List PlanEntry → Context → List ℕ → List (Access Ptr)
  | [], _, _ => []
  | e::es, c, slots =>
    match e.kind with
    | .hit =>
      let t := c.dropReference slots e.info
      dropAccesses c e.info++rollbackHitAccesses es t.1 t.2
    | .miss => rollbackHitAccesses es c slots

def rollbackMissAccesses (plan : List PlanEntry) : List (Access Ptr) :=
  (misses plan).map (fun e => .free e.info)

def pass1Accesses (sha512 : List UInt8 → Hash) (r : WriteReq) (a : Ptr) (c : Context) (p : Pass1) :
    List (Access Ptr) :=
  match existingInfo c p (sha512 (r.block p.plan.length)) with
  | some x => [.use x]
  | none => [.alloc a]

def assignAccesses (plan : List PlanEntry) : List (Access Ptr) :=
  (misses plan).map (fun e => .use e.info)

/-- The double check reads the hash of the pending object; a loser is freed and
the winner incremented. -/
def publishAccesses (c : Context) (e : PlanEntry) : List (Access Ptr) :=
  match e.kind with
  | .hit => []
  | .miss => .use e.info::(c.lookupByHash (c.cell e.info).hash).toList.flatMap
      (fun winner => [.free e.info,.use winner])

def publishPlanAccesses : List PlanEntry → Context → List ℕ → List (Access Ptr)
  | [], _, _ => []
  | e::es, c, slots =>
    let t := publishEntry c slots e
    publishAccesses c e++publishPlanAccesses es t.1 t.2.1

def mapPlanAccesses (path : Path) : List PlanEntry → Context → List ℕ → List (Access Ptr)
  | [], _, _ => []
  | e::es, c, slots =>
    let t := mapEntry path c slots e
    ((c.lookupByFileBlock path e.logicalBlk).toList.flatMap (dropAccesses c))++
      mapPlanAccesses path es t.1 t.2

def consolidateAccesses (r : WriteReq) (plan : List PlanEntry) (c : Context) : List (Access Ptr) :=
  let t := publishPlan plan c []
  publishPlanAccesses plan c []++mapPlanAccesses r.path t.2.2 t.1 t.2.1

def lookupAccesses (r : ReadReq) (pairs : List BlockPair) (c : Context) : List (Access Ptr) :=
  if pairs.length < r.numBlocks then
    (c.lookupByFileBlock r.path (r.startBlock+pairs.length)).toList.map .use
  else []

def accesses (sha512 : List UInt8 → Hash) (ch : Choice) (c : Context) : Stage → List (Access Ptr)
  | .pass1 r p => if p.plan.length < r.numBlocks then pass1Accesses sha512 r ch.addr c p else []
  | .append _ plan _ => assignAccesses plan
  | .consolidate r plan => consolidateAccesses r plan c
  | .rollbackHits plan _ => rollbackHitAccesses plan c []
  | .rollbackMisses plan _ => rollbackMissAccesses plan
  | .unlinkRemove path numBlocks => removeAccesses path numBlocks 0 c []
  | .truncateRemove path _ newBlockCount oldBlockCount =>
      removeAccesses path (oldBlockCount-newBlockCount) newBlockCount c []
  | .readLookup r pairs _ => lookupAccesses r pairs c
  | _ => []

def accessesBy (sha512 : List UInt8 → Hash) (s : System) : Action → List (Access Ptr)
  | .call _ => []
  | .step i ch => (s.procs[i]?).toList.flatMap (accesses sha512 ch s.ctx)

def runAccesses (sha512 : List UInt8 → Hash) (qsort : List BlockPair → List BlockPair)
    (acts : List Action) : List (Access Ptr) :=
  (trace (step sha512 qsort) (fun s a => some (accessesBy sha512 s a)) emptySystem acts).flatten

/-- `index_destroy` encodes every object and then frees the values of
`hash_to_master` in the order of a walk. -/
def destroyAccesses (u : Unmounting) (order : Listing Hash Ptr) (c : Context) : List (Access Ptr) :=
  (savedValues u c).map .use++((order.list c.hashToMaster).map Sigma.snd).map .free

/-! ## The loops -/

variable {sha512 : List UInt8 → Hash} {qsort : List BlockPair → List BlockPair}
variable {c d : Context} {ps : List Party} {ch : Choice} {extra : List ℕ}

theorem passes_drop {a : Ptr} (slots : List ℕ) (ha : a ∈ c.live) :
    Passes c.live (dropAccesses c a) (c.dropReference slots a).1.live := by
  unfold dropAccesses Context.dropReference
  split_ifs with hone
  · exact passes_append (passes_use ha) (passes_append (passes_use ha) (passes_free ha))
  · exact passes_use ha

theorem passes_removeBlock (path : Path) (i : ℕ) {assigned : Bool}
    (h : Inv ∅ c (⟨[],extra,assigned⟩::ps)) :
    Passes c.live ((c.lookupByFileBlock path i).toList.flatMap (dropAccesses c))
      (removeBlock path i c extra).1.live := by
  unfold removeBlock
  cases hk : c.lookupByFileBlock path i with
  | none => exact passes_nil c.live
  | some a =>
    simp only [Option.toList_some,List.flatMap_cons,List.flatMap_nil,List.append_nil]
    exact passes_drop (c := c.removeFileBlock path i) extra (mapped_published h hk).1

theorem passes_removeBlocks (path : Path) (n i : ℕ) {assigned : Bool}
    (h : Inv ∅ c (⟨[],extra,assigned⟩::ps)) :
    Passes c.live (removeAccesses path n i c extra) (removeBlocks path n i c extra).1.live := by
  induction n generalizing i c extra with
  | zero => exact passes_nil c.live
  | succ n ih => exact passes_append (passes_removeBlock path i h) (ih (i+1) (inv_removeBlock i h))

theorem passes_rollbackHits (rest done : List PlanEntry)
    (h : Inv ∅ c (⟨rest++done,extra,true⟩::ps)) :
    Passes c.live (rollbackHitAccesses rest c extra) (rollbackHits rest c extra).1.live := by
  induction rest generalizing c extra done with
  | nil => exact passes_nil c.live
  | cons e es ih =>
    cases hk : e.kind with
    | hit =>
      simp only [rollbackHits,rollbackHitAccesses,hk]
      have hl : e.info ∈ c.live := entry_live h (List.mem_cons_self ..) (by simp)
      exact passes_append (passes_drop extra hl) (ih done (inv_drop h hk))
    | miss =>
      simp only [rollbackHits,rollbackHitAccesses,hk]
      have hperm : (e::(es++done)).Perm (es++e::done) := List.perm_middle.symm
      exact ih (e::done) (inv_replan hperm h)

theorem misses_apart {plan : List PlanEntry} {assigned : Bool}
    (h : Inv ∅ c (⟨plan,extra,assigned⟩::ps)) :
    ((misses plan).map PlanEntry.info).Nodup ∧ ∀ a ∈ (misses plan).map PlanEntry.info, a ∈ c.live := by
  constructor
  · rw [List.nodup_iff_count_le_one]
    intro a
    have hs := h.single a
    have hcount : ((misses plan).map PlanEntry.info).count a = planMisses plan a := by
      rw [List.count,List.countP_map,misses,List.countP_filter]
      unfold planMisses
      refine List.countP_congr ?_
      intro e _
      simp [and_comm]
    simp only [heldMisses_cons] at hs
    omega
  · intro a ha
    obtain ⟨e,he,rfl⟩ := List.mem_map.mp ha
    obtain ⟨hm,hk⟩ := List.mem_filter.mp he
    exact (h.pending _ (List.mem_cons_self ..) e hm (by simpa using hk)).1

theorem rollbackMisses_live (plan : List PlanEntry) (c : Context) :
    (rollbackMisses plan c).live = c.live \ ((misses plan).map PlanEntry.info).toFinset := by
  induction plan generalizing c with
  | nil => simp [rollbackMisses,misses]
  | cons e es ih =>
    cases hk : e.kind with
    | hit =>
      simp only [rollbackMisses,hk,misses_hit es hk]
      exact ih c
    | miss =>
      simp only [rollbackMisses,hk,misses_miss es hk,List.map_cons,List.toFinset_cons]
      rw [ih,Finset.sdiff_insert,←Finset.erase_sdiff_comm]
      rfl

theorem passes_rollbackMisses {plan : List PlanEntry} {assigned : Bool}
    (h : Inv ∅ c (⟨misses plan,extra,assigned⟩::ps)) :
    Passes c.live (rollbackMissAccesses plan) (rollbackMisses plan c).live := by
  have hself : misses (misses plan) = misses plan := by
    unfold misses
    rw [List.filter_filter]
    simp
  obtain ⟨hd,hl⟩ := misses_apart h
  rw [hself] at hd hl
  have hfrees := passes_frees _ hd hl
  rw [List.map_map] at hfrees
  rw [rollbackMisses_live]
  exact hfrees

theorem passes_pass1 {r : WriteReq} {p : Pass1} {a : Ptr}
    (h : Inv ∅ c (party (.pass1 r p)::ps)) (hok : Pass1Ok sha512 r p) (ha : a ∉ c.live) :
    Passes c.live (pass1Accesses sha512 r a c p) (pass1Block sha512 r a c p).1.live := by
  unfold pass1Accesses
  cases hx : existingInfo c p (sha512 (r.block p.plan.length)) with
  | none =>
    rw [pass1Block_miss a hx]
    exact passes_alloc ha
  | some x =>
    rw [pass1Block_hit a hx]
    refine passes_use ?_
    rcases Option.or_eq_some_iff.mp hx with hk | ⟨_,hk⟩
    · exact (h.keyed _ x hk).2.1
    · obtain ⟨e,he,_,_,rfl⟩ := hok.pendingOf _ _ hk
      exact entry_live h (List.mem_cons_self ..) he

theorem passes_assign {r : WriteReq} {plan : List PlanEntry} {taken : List ℕ}
    (h : Inv ∅ c (party (.append r plan taken)::ps)) : Passes c.live (assignAccesses plan) c.live := by
  have huses := passes_uses _ (misses_apart h).2
  rwa [List.map_map] at huses

/-! ## Pass 3 -/

theorem publishPlan_snoc (pre : List PlanEntry) (e : PlanEntry) (c : Context) (slots : List ℕ) :
    (publishPlan (pre++[e]) c slots).1 =
        (publishEntry (publishPlan pre c slots).1 (publishPlan pre c slots).2.1 e).1 ∧
      (publishPlan (pre++[e]) c slots).2.1 =
        (publishEntry (publishPlan pre c slots).1 (publishPlan pre c slots).2.1 e).2.1 := by
  induction pre generalizing c slots with
  | nil => exact ⟨rfl,rfl⟩
  | cons f fs ih => exact ih (publishEntry c slots f).1 (publishEntry c slots f).2.1

theorem passes_publishEntry {e : PlanEntry} {plan : List PlanEntry} (slots : List ℕ)
    (h : Inv ∅ c (⟨plan,extra,true⟩::ps)) (he : e ∈ plan) :
    Passes c.live (publishAccesses c e) (publishEntry c slots e).1.live := by
  cases hk : e.kind with
  | hit =>
    rw [publishEntry_hit c slots hk]
    simp only [publishAccesses,hk]
    exact passes_nil c.live
  | miss =>
    obtain ⟨hl,hh,_⟩ := h.pending _ (List.mem_cons_self ..) e he hk
    simp only [publishAccesses,hk,Context.lookupByHash,hh]
    cases hn : find c.hashToMaster e.hash with
    | none =>
      rw [publishEntry_win slots hk hh hn]
      exact passes_use hl
    | some w =>
      rw [publishEntry_lose slots hk hh hn]
      -- the winner is published, the pending object is not, so it stays
      obtain ⟨hwh,hwl,_⟩ := h.keyed _ _ hn
      have hne : w ≠ e.info := by
        rintro rfl
        refine (others_clear h he hk).2.2 ?_
        rw [Published,hh]
        exact hn
      have hstay : w ∈ c.live.erase e.info := Finset.mem_erase.mpr ⟨hne,hwl⟩
      simp only [Option.toList_some,List.flatMap_cons,List.flatMap_nil,List.append_nil]
      exact passes_append (passes_use hl) (passes_append (passes_free hl) (passes_use hstay))

theorem passes_publishRest (pre rest : List PlanEntry) (h : Inv ∅ c (⟨pre++rest,extra,true⟩::ps))
    (hd : MissDistinct (pre++rest)) (hroom : WinnerRoom c (pre++rest))
    (hz : LosersIn ∅ c (pre++rest) (pre++rest)) :
    Passes (publishPlan pre c extra).1.live
      (publishPlanAccesses rest (publishPlan pre c extra).1 (publishPlan pre c extra).2.1)
      (publishPlan (pre++rest) c extra).1.live := by
  induction rest generalizing pre with
  | nil =>
    rw [List.append_nil]
    exact passes_nil _
  | cons e es ih =>
    have hpre : Inv ∅ (publishPlan pre c extra).1 (⟨(publishPlan pre c extra).2.2.map asHit++e::es,
        (publishPlan pre c extra).2.1,true⟩::ps) :=
      inv_publishPlan pre (e::es) h (List.pairwise_append.mp hd).1
        (fun f hf => hroom f (List.mem_append_left _ hf))
        (fun f hf => hz f (List.mem_append_left _ hf))
    have hone := passes_publishEntry (publishPlan pre c extra).2.1 hpre
      (List.mem_append_right _ (List.mem_cons_self ..))
    have hsplit : pre++e::es = (pre++[e])++es := by simp
    rw [hsplit] at h hd hroom hz
    have hrest := ih (pre++[e]) h hd hroom hz
    obtain ⟨h₁,h₂⟩ := publishPlan_snoc pre e c extra
    rw [h₁,h₂,←hsplit] at hrest
    exact passes_append hone hrest

theorem passes_mapPlan (path : Path) (plan : List PlanEntry) {assigned : Bool}
    (h : Inv ∅ c (⟨plan.map asHit,extra,assigned⟩::ps)) :
    Passes c.live (mapPlanAccesses path plan c extra) (mapPlan path plan c extra).1.live := by
  induction plan generalizing c extra with
  | nil => exact passes_nil c.live
  | cons e es ih =>
    have hall : ∀ m ∈ es.map asHit, m.kind = .hit := by
      intro m hm
      obtain ⟨f,_,rfl⟩ := List.mem_map.mp hm
      rfl
    have hnext : Inv ∅ (mapEntry path c extra e).1
        (⟨es.map asHit,(mapEntry path c extra e).2,assigned⟩::ps) :=
      inv_mapEntry path (e := asHit e) h rfl hall
    have hone : Passes c.live
        ((c.lookupByFileBlock path e.logicalBlk).toList.flatMap (dropAccesses c))
        (mapEntry path c extra e).1.live := by
      cases hk : c.lookupByFileBlock path e.logicalBlk with
      | none =>
        rw [mapEntry_new extra hk]
        exact passes_nil c.live
      | some old =>
        rw [mapEntry_old extra hk]
        simp only [Option.toList_some,List.flatMap_cons,List.flatMap_nil,List.append_nil]
        exact passes_drop extra (mapped_published h hk).1
    exact passes_append hone (ih hnext)

theorem passes_consolidate {r : WriteReq} {plan : List PlanEntry}
    (h : Inv ∅ c (⟨plan,[],true⟩::ps)) (hd : MissDistinct plan) (hroom : WinnerRoom c plan)
    (hz : LosersIn ∅ c plan plan) :
    Passes c.live (consolidateAccesses r plan c) (WriteDedup.consolidate r plan c).1.live := by
  have hpub := passes_publishRest [] plan h hd hroom hz
  have hmid := inv_publishPlan plan [] (by simpa using h) hd hroom (by simpa using hz)
  rw [List.append_nil] at hmid
  have hgrow := congrArg Heap.live (growSize_keeps (mapPlan r.path (publishPlan plan c []).2.2
    (publishPlan plan c []).1 (publishPlan plan c []).2.1).1 r.path r.newEnd).2.2.1
  unfold WriteDedup.consolidate consolidateAccesses
  dsimp only
  rw [hgrow]
  exact passes_append hpub (passes_mapPlan r.path _ hmid)

/-! ## Steps and runs -/

theorem passes_lookup {r : ReadReq} {pairs : List BlockPair} (h : Inv ∅ c ps) :
    Passes c.live (lookupAccesses r pairs c) c.live := by
  unfold lookupAccesses
  split_ifs
  · refine passes_uses _ ?_
    intro a ha
    exact (mapped_published h (Option.mem_toList.mp ha)).1
  · exact passes_nil c.live

theorem advance_passes {st : Stage} {t : Context × Stage} (h : Inv ∅ c (party st::ps))
    (hok : StageOk sha512 st) (hroom : RoomAt sha512 c st) (hlose : LosersAt ∅ c st)
    (hs : advance sha512 qsort ch c st = some t) :
    Passes c.live (accesses sha512 ch c st) t.1.live := by
  cases st with
  | pass1 r p =>
    simp only [advance] at hs
    simp only [accesses]
    split_ifs at hs with h₁ h₂ h₃
    · cases hs
      rw [if_pos h₁]
      exact passes_pass1 h hok.1 h₂
    · cases hs
      rw [if_neg h₁]
      exact passes_nil c.live
    · cases hs
      rw [if_neg h₁]
      exact passes_nil c.live
  | append r plan taken =>
    cases hs
    rw [(assignSlots_frame plan _ _).2.1]
    exact passes_assign h
  | flush r plan i =>
    cases hs
    unfold flushStep
    split
    · exact passes_nil c.live
    · split <;> exact passes_nil c.live
  | consolidate r plan =>
    cases hs
    exact passes_consolidate h hok.2.1 (winnerRoom_of hroom) (losersIn_of hlose)
  | rollbackHits plan err =>
    cases hs
    exact passes_rollbackHits plan [] (by simpa [party] using h)
  | rollbackMisses plan err =>
    cases hs
    exact passes_rollbackMisses h
  | unlinkSize path =>
    simp only [advance] at hs
    split at hs <;> cases hs <;> exact passes_nil c.live
  | unlinkRemove path n =>
    cases hs
    exact passes_removeBlocks path n 0 h
  | truncateSize path size =>
    simp only [advance] at hs
    split at hs <;> cases hs <;> exact passes_nil c.live
  | truncateRemove path size n m =>
    cases hs
    exact passes_removeBlocks path (m-n) n h
  | truncateShrink path size =>
    cases hs
    unfold shrinkSize
    split
    · exact passes_nil c.live
    · split_ifs <;> exact passes_nil c.live
  | readLookup r pairs buf =>
    cases hs
    exact passes_lookup h
  | readDone r pairs g buf res => cases hs
  | done res => cases hs
  | _ =>
    cases hs
    exact passes_nil c.live

theorem step_passes {s t : System} {a : Action} (h : SysInv sha512 ∅ s) (hc : Clean sha512 s a)
    (hs : step sha512 qsort s a = some t) :
    Passes s.ctx.live (accessesBy sha512 s a) t.ctx.live := by
  cases a with
  | call k =>
    rw [step_call_some sha512 qsort hs]
    exact passes_nil s.ctx.live
  | step i ch =>
    obtain ⟨st,d,hst,hd,rfl,_⟩ := step_step_some sha512 qsort hs
    obtain ⟨hp,_⟩ := set_perm s.procs i st d.2 hst
    simp only [accessesBy,hst,Option.toList_some,List.flatMap_cons,List.flatMap_nil,List.append_nil]
    exact advance_passes (inv_perm (hp.map party) h.ledger) (h.staged st (List.mem_of_getElem? hst))
      (hc.1 st hst) (hc.2 st hst) hd

theorem run_passes {acts : List Action} {s : System} (hr : Reaches sha512 qsort acts s)
    (hc : Meets (step sha512 qsort) (Clean sha512) emptySystem acts) :
    Passes ∅ (runAccesses sha512 qsort acts) s.ctx.live :=
  exec_passes (step sha512 qsort) (accessesBy sha512) (fun s => s.ctx.live) (Clean sha512)
    (SysInv sha512 ∅) (fun _ _ _ hi hc hs =>
      ⟨sysInv_step hi hc.1 hc.2 (by simp) hs,step_passes hi hc hs⟩) emptySystem s acts
    (sysInv_empty ∅) hc hr

theorem destroyed_values (order : Listing Hash Ptr) (h : Inv ∅ c []) :
    ((order.list c.hashToMaster).map Sigma.snd).Nodup ∧
      ∀ a, a ∈ (order.list c.hashToMaster).map Sigma.snd ↔ a ∈ c.live := by
  have hperm := order.perm c.hashToMaster
  have hfind : ∀ e, e ∈ order.list c.hashToMaster ↔ find c.hashToMaster e.1 = some e.2 := fun e =>
    hperm.mem_iff.trans (mem_entries_iff c.hashToMaster e.1 e.2)
  constructor
  · have hkeys : (order.list c.hashToMaster).Nodup := hperm.nodup_iff.mpr
      (List.Nodup.of_map Sigma.fst c.hashToMaster.nodupKeys)
    refine List.Nodup.map_on ?_ hkeys
    rintro ⟨k,a⟩ he ⟨k',a'⟩ he' heq
    cases heq
    have h₁ := (h.keyed k a ((hfind _).mp he)).1
    have h₂ := (h.keyed k' a ((hfind _).mp he')).1
    rw [←h₁,←h₂]
  · intro a
    constructor
    · intro ha
      obtain ⟨e,he,rfl⟩ := List.mem_map.mp ha
      exact (h.keyed _ _ ((hfind e).mp he)).2.1
    · intro ha
      rcases h.owned a ha with hp | ⟨hm,_⟩
      · exact List.mem_map.mpr ⟨⟨_,a⟩,(hfind ⟨_,a⟩).mpr hp,rfl⟩
      · simp at hm

theorem passes_destroy (u : Unmounting) (order : Listing Hash Ptr) (h : Inv ∅ c []) :
    Passes c.live (destroyAccesses u order c) ∅ := by
  obtain ⟨hnd,hmem⟩ := destroyed_values order h
  have hlast := passes_frees _ hnd (fun a ha => (hmem a).mp ha)
  have hall : c.live \ ((order.list c.hashToMaster).map Sigma.snd).toFinset = ∅ := by
    rw [Finset.sdiff_eq_empty_iff_subset]
    intro a ha
    exact List.mem_toFinset.mpr ((hmem a).mpr ha)
  rw [hall] at hlast
  refine passes_append (passes_uses _ ?_) hlast
  intro a ha
  exact (RemountSafety.held_published h ((mem_savedValues u a).mp ha)).2

/-- In any interleaving that is clean, with the unmount at its end, every access
to an object finds it allocated, and every object is freed as often as it is
allocated. -/
theorem clean_run_memory_safe (acts : List Action) (s : System) (hr : Reaches sha512 qsort acts s)
    (hc : Meets (step sha512 qsort) (Clean sha512) emptySystem acts) :
    Passes ∅ (runAccesses sha512 qsort acts) s.ctx.live ∧ (Quiescent s →
      ∀ (u : Unmounting) (order : Listing Hash Ptr),
        let log := runAccesses sha512 qsort acts++destroyAccesses u order s.ctx
        Passes ∅ log ∅ ∧ ∀ a, log.count (.alloc a) = log.count (.free a)) := by
  have hrun := run_passes hr hc
  refine ⟨hrun,?_⟩
  intro hq u order log
  have hall : Passes ∅ log ∅ := passes_append hrun
    (passes_destroy u order (quiescent_ledger (clean_run hr hc) hq))
  refine ⟨hall,?_⟩
  intro a
  have := passes_count hall a
  simpa using this

theorem clean_run_memory_settled : ∃ s, Reaches sampleSha512 id settledBlocks s ∧
    Meets (step sampleSha512 id) (Clean sampleSha512) emptySystem settledBlocks ∧ Quiescent s ∧
    (runAccesses sampleSha512 id settledBlocks).count (.free 1) = 1 ∧
    Passes ∅ (runAccesses sampleSha512 id settledBlocks++
      destroyAccesses sampleUnmounting sampleUnmounting.pair.save1 s.ctx) ∅ := by
  obtain ⟨s,hr,hp⟩ := exec_observe (step sampleSha512 id)
    (fun s => ∀ st ∈ s.procs, st.finished = true) emptySystem settledBlocks (by decide +kernel)
  have hq : ∀ st ∈ s.procs, st.finished = true := of_decide_eq_true hp
  exact ⟨s,hr,settledBlocks_clean,hq,by decide +kernel,
    ((clean_run_memory_safe settledBlocks s hr settledBlocks_clean).2 hq sampleUnmounting
      sampleUnmounting.pair.save1).1⟩

end ArchivalDedup.MemorySafety
