import ArchivalDedup.ExactRequests

/-!
# Contents over whole runs

Failing writes, unlinks, truncates and remounts keep what is known of the stored
contents. Between calls the counters follow from the mapped hashes, and the
contents from the hashes when none collide.
-/

set_option autoImplicit false

namespace ArchivalDedup.SettledWrites
open ArchivalDedup.FiniteTable ArchivalDedup.MetaIndex ArchivalDedup.WriteDedup
open ArchivalDedup.Passthrough ArchivalDedup.Ledger ArchivalDedup.Content
open ArchivalDedup.SequentialWrite ArchivalDedup.SequentialRun ArchivalDedup.RemountSafety
open ArchivalDedup.MappedHashes ArchivalDedup.BlockRefinement ArchivalDedup.WriteShape
open ArchivalDedup.ExactRequests ArchivalDedup.Interleaving ArchivalDedup.Remount
open ArchivalDedup.LoopFrames

variable {sha512 : List UInt8 → Hash} {known : List (List UInt8)} {c d : Context}
variable {env : Env} {r : WriteReq}

section Runs

variable {good : Hash → List UInt8 → Prop}

def opBlocks : Op → List (List UInt8)
  | .write _ r => (List.range r.numBlocks).map r.block
  | .unlink .. => []
  | .truncate .. => []

theorem stored_rollback {plan : List PlanEntry} (h : Stored good c) :
    Stored good (rollbackAllocations plan c) := by
  have hn := narrows_rollbackHits plan c []
  have hf := (frame_rollbackHits plan c []).toMasterFile
  have h₁ : Stored good ((rollbackHits plan c []).1.releaseSlots (rollbackHits plan c []).2) :=
    stored_narrows hf hn h
  obtain ⟨hh,_,_,hcell,hfile,_⟩ := rollbackMisses_keeps plan
    ((rollbackHits plan c []).1.releaseSlots (rollbackHits plan c []).2)
  refine stored_narrows hfile ?_ h₁
  intro x a ha
  exact ⟨hh ▸ ha,congrArg (fun cell : Ptr → MasterInfo => (cell a).masterBlockIndex) hcell⟩

theorem stored_write (env : Env) (h : Inv ∅ c []) (hs : Stored good c)
    (hfit : CallFits sha512 r c) (hg : ∀ i < r.numBlocks, good (sha512 (r.block i)) (r.block i)) :
    Stored good (writeDedup sha512 env r c).1 := by
  unfold writeDedup
  split_ifs with hz hrej
  · exact hs
  · exact hs
  · have ha : r.buf.length % blockSize = 0 := by
      by_contra hne
      exact hrej (Or.inr hne)
    have ht := stageWrite_alone env h (hfit ha)
    have hst : Stored good (stageWrite sha512 env r c).2.1 := stored_staged h ht hs
    unfold finishWrite
    cases herr : (stageWrite sha512 env r c).2.2 with
    | some err => exact stored_rollback hst
    | none =>
      refine stored_release (stored_consolidate ht.ledger ht.shape.1 (ht.flushed herr) ?_ hst)
      intro i hi
      rw [ht.shape.2.2] at hi
      exact hg i hi

theorem stored_perform {m m' : Mount} {op : Op} (h : Inv ∅ m.ctx []) (hs : Stored good m.ctx)
    (hf : OpFits sha512 m op) (hg : ∀ b ∈ opBlocks op, good (sha512 b) b)
    (hp : perform sha512 m op = some m') : Stored good m'.ctx := by
  obtain ⟨env,r,rfl,hm⟩ | ⟨sys,path,rfl,hm⟩ | ⟨sys,path,size,rfl,hm | hm⟩ := perform_cases hp
  · rw [hm]
    refine stored_write env h hs hf ?_
    intro i hi
    exact hg _ (List.mem_map.mpr ⟨i,List.mem_range.mpr hi,rfl⟩)
  · rw [hm]
    exact stored_narrows (unlinkIndex_file path m.ctx) (narrows_unlinkIndex path m.ctx) hs
  · rw [hm]
    exact hs
  · rw [hm]
    exact stored_narrows (truncateIndex_file path _ m.ctx) (narrows_truncateIndex path _ m.ctx) hs

abbrev Addressed (sha512 : List UInt8 → Hash) (c : Context) : Prop :=
  Stored (fun x b => sha512 b = x) c

/-- One operation, or an unmount and the next mount. -/
inductive Turn where
  | op (o : Op)
  | remount (u : Unmounting) (i : Mounting)

def takeTurn (sha512 : List UInt8 → Hash) (m : Mount) : Turn → Option Mount
  | .op o => perform sha512 m o
  | .remount u i => some ⟨remount u i m.ctx,m.backing⟩

theorem exec_ops (ops : List Op) (m : Mount) :
    exec (takeTurn sha512) m (ops.map .op) = exec (perform sha512) m ops := by
  induction ops generalizing m with
  | nil => rfl
  | cons o ops ih =>
    rw [List.map_cons,exec,exec]
    change (perform sha512 m o).bind _ = _
    refine congrArg _ (funext ?_)
    intro t
    exact ih t

/-- Counters and counts stay inside their fields, and a mount finds the master
file as long as the append counter says. -/
def TurnFits (sha512 : List UInt8 → Hash) (m : Mount) : Turn → Prop
  | .op o => OpFits sha512 m o
  | .remount u _ => SmallTables u m.ctx ∧ Reaching m.ctx

instance (m : Mount) (t : Turn) : Decidable (TurnFits sha512 m t) :=
  match t with
  | .op o => inferInstanceAs (Decidable (OpFits sha512 m o))
  | .remount u _ => inferInstanceAs (Decidable (SmallTables u m.ctx ∧ Reaching m.ctx))

def turnBlocks : Turn → List (List UInt8)
  | .op o => opBlocks o
  | .remount .. => []

/-- Sequential runs keep the ledger and what is known of the contents, failing
writes and remounts included. -/
theorem stored_run {turns : List Turn} {m m' : Mount} (h : SeqInv m.ctx) (hs : Stored good m.ctx)
    (hg : ∀ t ∈ turns, ∀ b ∈ turnBlocks t, good (sha512 b) b)
    (hr : exec (takeTurn sha512) m turns = some m')
    (hf : Meets (takeTurn sha512) (TurnFits sha512) m turns) :
    SeqInv m'.ctx ∧ Stored good m'.ctx := by
  have hown : Meets (takeTurn sha512) (fun _ t => ∀ b ∈ turnBlocks t, good (sha512 b) b) m turns :=
    meets_of_forall _ _ _ _ (fun t ht _ => hg t ht)
  refine exec_invariant (takeTurn sha512) _ (fun m => SeqInv m.ctx ∧ Stored good m.ctx) ?_ m m' turns
    ⟨h,hs⟩ (meets_and _ hf hown) hr
  rintro s t s' ⟨hi,ha⟩ ⟨hfit,hb⟩ hstep
  cases t with
  | op o => exact ⟨seqInv_perform hi hfit hstep,stored_perform hi.ledger ha hfit hb hstep⟩
  | remount u i =>
    cases hstep
    exact ⟨seqInv_remount u i hi hfit.2 (ledger_next hi.ledger hfit.1) hfit.1,
      stored_remount u i hi ha hfit.1⟩

theorem stored_empty : Stored good emptyContext := by
  intro x a h
  cases h

end Runs

section Outcomes

/-- The state between calls, with one of the known blocks in every slot. -/
structure Settled (sha512 : List UInt8 → Hash) (known : List (List UInt8)) (c : Context) :
    Prop where
  ledger : Inv ∅ c []
  holds : Holds sha512 known c

/-- All that two ways of writing are compared by: neither slots nor addresses. -/
structure SameOutcome (c d : Context) : Prop where
  fileToSizes : ∀ p, find d.fileToSizes p = find c.fileToSizes p
  contents : ∀ k, blockContent d k = blockContent c k
  counters : ∀ x, (find d.hashToMaster x).map (fun a => (d.cell a).refcount) =
    (find c.hashToMaster x).map (fun a => (c.cell a).refcount)

theorem settled_same (hinj : DistinctHashes sha512 known) (h : Settled sha512 known c)
    (h' : Settled sha512 known d) (hh : ∀ k, mappedHash d k = mappedHash c k)
    (hs : ∀ p, find d.fileToSizes p = find c.fileToSizes p) : SameOutcome c d where
  fileToSizes := hs
  contents := fun k => blockContent_congr h.ledger h.holds h'.ledger h'.holds hinj (hh k)
  counters := fun x => by
    rw [counters_mapped h.ledger,counters_mapped h'.ledger,mappedCount_congr hh]

def Touches (r : WriteReq) (k : BlockIndice) : Prop :=
  k.path = r.path ∧ r.startBlock ≤ k.offset ∧ k.offset < r.startBlock+r.numBlocks

instance (r : WriteReq) (k : BlockIndice) : Decidable (Touches r k) :=
  inferInstanceAs (Decidable (k.path = r.path ∧ r.startBlock ≤ k.offset ∧
    k.offset < r.startBlock+r.numBlocks))

def Accepted (r : WriteReq) : Prop := r.buf.length ≠ 0 ∧ r.buf.length % blockSize = 0

instance (r : WriteReq) : Decidable (Accepted r) :=
  inferInstanceAs (Decidable (r.buf.length ≠ 0 ∧ r.buf.length % blockSize = 0))

theorem writeDedup_refused (h : ¬ Accepted r) : (writeDedup sha512 env r c).1 = c := by
  unfold writeDedup
  split_ifs with hz hrej
  · rfl
  · rfl
  · refine absurd ⟨hz,?_⟩ h
    by_contra hne
    exact hrej (Or.inr hne)

theorem settled_write (h : Settled sha512 known c) (hio : ∀ j, env.io j = .complete)
    (ha : Accepted r) (hfit : CallFits sha512 r c) (hk : ∀ i < r.numBlocks, r.block i ∈ known) :
    Settled sha512 known (writeDedup sha512 env r c).1 ∧
    (∀ k, mappedHash (writeDedup sha512 env r c).1 k =
      if Touches r k then some (sha512 (r.block (k.offset-r.startBlock))) else mappedHash c k) ∧
    ∀ p, find (writeDedup sha512 env r c).1.fileToSizes p =
      if p = r.path then some (max ((find c.fileToSizes r.path).getD 0) r.newEnd)
      else find c.fileToSizes p := by
  have hc : Completes env r := ⟨ha.1,ha.2,hio⟩
  have hok : (stageWrite sha512 env r c).2.2 = none := stageWrite_complete hio c
  have hinv := inv_writeDedup env h.ledger hfit
  refine ⟨⟨hinv,?_⟩,?_,writeDedup_sizes hc c⟩
  · rw [writeDedup_completes hc]
    exact holds_written h.ledger h.holds (hfit ha.2) hok hk _
  · intro k
    rw [writeDedup_completes hc,mappedHash_release]
    exact consolidate_hash h.ledger (stageWrite_alone env h.ledger (hfit ha.2)) k

end Outcomes

end ArchivalDedup.SettledWrites
