import ArchivalDedup.Extents
import ArchivalDedup.Remount
import ArchivalDedup.SequentialWrite

/-!
# Runs of operations one after another

Each operation ends before the next starts. Whatever the counters do, every
number that such a run leaves in the index stays in the range of its C type as
long as the append counter does, so that unmount and mount lose nothing.
-/

set_option autoImplicit false

namespace ArchivalDedup.SequentialRun
open ArchivalDedup.FiniteTable ArchivalDedup.MetaIndex ArchivalDedup.WriteDedup
open ArchivalDedup.Passthrough ArchivalDedup.PlanShape ArchivalDedup.LedgerMoves
open ArchivalDedup.LedgerPasses ArchivalDedup.LedgerLoops ArchivalDedup.Content
open ArchivalDedup.Extents ArchivalDedup.Remount ArchivalDedup.Persistence
open ArchivalDedup.ReferenceSafety ArchivalDedup.Interleaving ArchivalDedup.LoopFrames

/-- An operation with what the environment answers to it. -/
inductive Op where
  | write (env : Env) (r : WriteReq)
  | unlink (sys : Option Errno) (path : Path)
  | truncate (sys : Option Errno) (path : Path) (size : ℤ)

def perform (sha512 : List UInt8 → Hash) (m : Mount) : Op → Option Mount
  | .write env r => some (xmpWrite sha512 env r m).1
  | .unlink sys path => some (xmpUnlink sys path m).1
  | .truncate sys path size => some (xmpTruncate sys path size m).1

/-- All that an operation can do to the index. -/
theorem perform_cases {sha512 : List UInt8 → Hash} {m m' : Mount} {op : Op}
    (h : perform sha512 m op = some m') :
    (∃ env r, op = .write env r ∧ m'.ctx = (writeDedup sha512 env r m.ctx).1) ∨
    (∃ sys path, op = .unlink sys path ∧ m'.ctx = unlinkIndex path m.ctx) ∨
    ∃ sys path size, op = .truncate sys path size ∧
      (m'.ctx = m.ctx ∨ m'.ctx = truncateIndex path size.toNat m.ctx) := by
  cases op with
  | write env r =>
    cases h
    exact Or.inl ⟨env,r,rfl,rfl⟩
  | unlink sys path =>
    cases h
    refine Or.inr (Or.inl ⟨sys,path,rfl,?_⟩)
    cases sys <;> rfl
  | truncate sys path size =>
    cases h
    refine Or.inr (Or.inr ⟨sys,path,size,rfl,?_⟩)
    unfold xmpTruncate
    split_ifs
    · exact Or.inl rfl
    · refine Or.inr ?_
      cases sys <;> rfl

def Leads (sha512 : List UInt8 → Hash) (ops : List Op) (m : Mount) : Prop :=
  exec (perform sha512) emptyMount ops = some m

/-- Ranges of all numbers, with the slots in a local release list. -/
structure Ranged (n : ℕ) (c : Context) (slots : List ℕ) : Prop where
  counter : c.nextBlockIndex = n
  indices : ∀ a, (c.cell a).masterBlockIndex ≤ n
  counts : ∀ a, (c.cell a).refcount < refcountMod
  free : ∀ q ∈ slots++c.freeBlockList, q ≤ n
  offsets : ∀ k a, find c.fileToMaster k = some a → k.offset < 2^64
  sizes : ∀ p size, find c.fileToSizes p = some size → size < 2^64

def RangedPlan (n : ℕ) (plan : List PlanEntry) : Prop :=
  ∀ e ∈ plan, e.logicalBlk < 2^64 ∧ e.masterBlk ≤ n

variable {n : ℕ} {c : Context} {slots : List ℕ}

theorem ranged_empty : Ranged 0 emptyContext [] where
  counter := rfl
  indices := fun _ => Nat.le_refl 0
  counts := fun _ => by
    change (default : MasterInfo).refcount < refcountMod
    decide
  free := by simp [emptyContext]
  offsets := by simp [emptyContext]
  sizes := by simp [emptyContext]

theorem ranged_setRefcount (a : Ptr) {k : ℕ} (hk : k < refcountMod) (h : Ranged n c slots) :
    Ranged n (c.setRefcount a k) slots :=
  { h with
    indices := fun b => by
      rw [setRefcount_masterBlockIndex]
      exact h.indices b
    counts := fun b => by
      rw [setRefcount_refcount]
      split_ifs
      · exact hk
      · exact h.counts b }

theorem ranged_fetchAdd (a : Ptr) (h : Ranged n c slots) : Ranged n (c.fetchAdd a) slots :=
  ranged_setRefcount a (Nat.mod_lt _ (by decide)) h

theorem ranged_malloc (a : Ptr) (k : Hash) (h : Ranged n c slots) :
    Ranged n (c.malloc a ⟨k,0,1⟩) slots :=
  { h with
    indices := fun b => by
      by_cases hb : b = a
      · simp [Context.malloc,hb]
      · simp only [Context.malloc,Function.update_of_ne hb]
        exact h.indices b
    counts := fun b => by
      by_cases hb : b = a
      · simp [Context.malloc,hb,refcountMod]
      · simp only [Context.malloc,Function.update_of_ne hb]
        exact h.counts b }

theorem ranged_drop (a : Ptr) (h : Ranged n c slots) :
    Ranged n (c.dropReference slots a).1 (c.dropReference slots a).2 := by
  have hs := ranged_setRefcount a (Nat.mod_lt ((c.cell a).refcount+(refcountMod-1))
    (show 0 < refcountMod by decide)) h
  unfold Context.dropReference
  split_ifs
  · exact
      { hs with
        free := by
          intro q hq
          rcases List.mem_cons.mp hq with rfl | hq
          · exact h.indices a
          · exact h.free q hq }
  · exact hs

theorem ranged_release (h : Ranged n c slots) : Ranged n (c.releaseSlots slots) [] :=
  { h with free := h.free }

theorem ranged_map (path : Path) {b : ℕ} (hb : b < 2^64) (a : Ptr) (h : Ranged n c slots) :
    Ranged n (c.insertFileBlock path b a) slots :=
  { h with
    offsets := by
      intro k x hk
      simp only [Context.insertFileBlock,find_insert] at hk
      split_ifs at hk with heq
      · rw [heq]
        exact hb
      · exact h.offsets k x hk }

theorem ranged_mapPlan (path : Path) (plan : List PlanEntry)
    (hp : ∀ b ∈ plan.map PlanEntry.logicalBlk, b < 2^64) (h : Ranged n c slots) :
    Ranged n (mapPlan path plan c slots).1 (mapPlan path plan c slots).2 :=
  mapPlan_rule (fun _ _ a h => ranged_drop a h)
    (fun _ _ e he h => ranged_map path (hp _ (List.mem_map_of_mem he)) e.info h) h

theorem ranged_publishPlan (plan : List PlanEntry) (hp : ∀ e ∈ plan, e.masterBlk ≤ n)
    (h : Ranged n c slots) :
    Ranged n (publishPlan plan c slots).1 (publishPlan plan c slots).2.1 := by
  refine publishPlan_rule ?_ (fun _ _ _ _ h => { h with }) h
  intro d s w e he h
  refine ranged_fetchAdd w { h with free := ?_ }
  intro q hq
  rcases List.mem_cons.mp hq with rfl | hq
  · exact hp e he
  · exact h.free q hq

theorem ranged_sizes {t : Table Path ℕ} (ht : ∀ p size, find t p = some size → size < 2^64)
    (h : Ranged n c slots) : Ranged n { c with fileToSizes := t } slots := { h with sizes := ht }

theorem ranged_growSize (path : Path) {size : ℕ} (hs : size < 2^64) (h : Ranged n c slots) :
    Ranged n (growSize c path size) slots := by
  have ht : ∀ p k, find (c.fileToSizes.insert path size) p = some k → k < 2^64 := by
    intro p k hk
    rw [find_insert] at hk
    split_ifs at hk
    · exact Option.some.inj hk ▸ hs
    · exact h.sizes p k hk
  unfold growSize
  split
  · exact ranged_sizes ht h
  · split_ifs
    · exact ranged_sizes ht h
    · exact h

theorem request_blocks (r : WriteReq) : r.startBlock+r.numBlocks < 2^52 ∧ r.newEnd < 2^64 := by
  have h₁ := r.fits
  have h₂ := r.inRange
  unfold WriteReq.newEnd WriteReq.startBlock WriteReq.numBlocks blockSize
  omega

theorem ranged_consolidate (r : WriteReq) (plan : List PlanEntry) (hp : RangedPlan n plan)
    (h : Ranged n c []) : Ranged n (consolidate r plan c).1 (consolidate r plan c).2 := by
  have h₁ := ranged_publishPlan plan (fun e he => (hp e he).2) h
  have h₂ := ranged_mapPlan r.path (publishPlan plan c []).2.2 (by
    rw [publishPlan_blocks]
    intro b hb
    obtain ⟨e,he,rfl⟩ := List.mem_map.mp hb
    exact (hp e he).1) h₁
  exact ranged_growSize r.path (request_blocks r).2 h₂

theorem ranged_rollbackHits (plan : List PlanEntry) (h : Ranged n c slots) :
    Ranged n (rollbackHits plan c slots).1 (rollbackHits plan c slots).2 :=
  rollbackHits_rule (fun _ _ a h => ranged_drop a h) h

theorem ranged_rollbackMisses (plan : List PlanEntry) (hp : RangedPlan n plan)
    (h : Ranged n c []) : Ranged n (rollbackMisses plan c) [] := by
  refine rollbackMisses_rule (I := fun d => Ranged n d []) ?_ h
  intro d e he h
  refine { h with free := ?_ }
  intro q hq
  rcases List.mem_cons.mp hq with rfl | hq
  · exact (hp e he).2
  · exact h.free q hq

theorem ranged_pass1 (sha512 : List UInt8 → Hash) (env : Env) (r : WriteReq) (k : ℕ) {p : Pass1}
    (hk : p.plan.length+k = r.numBlocks) (hp : RangedPlan n p.plan) (h : Ranged n c []) :
    Ranged n (pass1 sha512 env r k c p).1 [] ∧
      RangedPlan n (pass1 sha512 env r k c p).2.plan := by
  induction k generalizing c p with
  | zero => exact ⟨h,hp⟩
  | succ k ih =>
    have hlt := (request_blocks r).1
    have hnew : ∀ (kind : PlanKind) (hash : Hash) (a : Ptr),
        RangedPlan n (p.plan++[newEntry kind r p.plan.length hash a]) := by
      intro kind hash a e he
      rcases List.mem_append.mp he with he | he
      · exact hp e he
      · rw [List.mem_singleton.mp he]
        simp only [newEntry]
        omega
    refine ih ?_ ?_ ?_
    · rw [pass1Block_length]
      omega
    · unfold pass1Block
      dsimp only
      split
      · exact hnew _ _ _
      · exact hnew _ _ _
    · unfold pass1Block
      dsimp only
      split
      · exact ranged_fetchAdd _ h
      · exact ranged_malloc _ _ h

theorem ranged_assign (plan : List PlanEntry) (slots : List ℕ) (hs : ∀ q ∈ slots, q ≤ n)
    (hp : RangedPlan n plan) (h : Ranged n c []) : Ranged n (assignSlots plan slots c).2 [] ∧
      RangedPlan n (assignSlots plan slots c).1 := by
  induction plan generalizing slots c with
  | nil => exact ⟨h,hp⟩
  | cons e es ih =>
    have hp' : RangedPlan n es := fun m hm => hp m (List.mem_cons_of_mem _ hm)
    cases hk : e.kind with
    | hit =>
      rw [assignSlots_hit es slots c hk]
      obtain ⟨h₁,h₂⟩ := ih slots hs hp' h
      refine ⟨h₁,?_⟩
      intro m hm
      rcases List.mem_cons.mp hm with rfl | hm
      · exact hp m (List.mem_cons_self ..)
      · exact h₂ m hm
    | miss =>
      cases slots with
      | nil =>
        rw [assignSlots_none]
        exact ⟨h,hp⟩
      | cons q qs =>
        rw [assignSlots_miss es q qs c hk]
        have hset : Ranged n (c.setMasterBlockIndex e.info q) [] :=
          { h with
            indices := fun b => by
              by_cases hb : b = e.info
              · simp only [Context.setMasterBlockIndex,hb,Function.update_self]
                exact hs q (List.mem_cons_self ..)
              · simp only [Context.setMasterBlockIndex,Function.update_of_ne hb]
                exact h.indices b
            counts := fun b => by
              rw [(setMasterBlockIndex_cell c e.info q b).2.1]
              exact h.counts b }
        obtain ⟨h₁,h₂⟩ := ih qs (fun x hx => hs x (List.mem_cons_of_mem _ hx)) hp' hset
        refine ⟨h₁,?_⟩
        intro m hm
        rcases List.mem_cons.mp hm with rfl | hm
        · exact ⟨(hp e (List.mem_cons_self ..)).1,hs q (List.mem_cons_self ..)⟩
        · exact h₂ m hm

theorem ranged_allocate (k : ℕ) (h : Ranged n c []) :
    ∃ n', n ≤ n' ∧ Ranged n' (allocateBatchStorageFirst k c).2 [] ∧
      ∀ q ∈ (allocateBatchStorageFirst k c).1, q ≤ n' := by
  set taken := c.freeBlockList.take k with htaken
  refine ⟨n+(k-taken.length),Nat.le_add_right .., ?_,?_⟩
  · exact
      { counter := by
          rw [←h.counter]
          rfl
        indices := fun a => (h.indices a).trans (Nat.le_add_right ..)
        counts := h.counts
        free := fun q hq => (h.free q (List.mem_of_mem_drop hq)).trans (Nat.le_add_right ..)
        offsets := h.offsets
        sizes := h.sizes }
  · intro q hq
    rcases List.mem_append.mp hq with hq | hq
    · exact (h.free q (List.mem_of_mem_take hq)).trans (Nat.le_add_right ..)
    · obtain ⟨j,hj,rfl⟩ := List.mem_map.mp hq
      have hlt : j < k-taken.length := List.mem_range.mp hj
      change c.nextBlockIndex+j ≤ _
      rw [h.counter]
      omega

theorem ranged_stage (sha512 : List UInt8 → Hash) (env : Env) (r : WriteReq) (h : Ranged n c []) :
    ∃ n', Ranged n' (stageWrite sha512 env r c).2.1 [] ∧
      RangedPlan n' (stageWrite sha512 env r c).1 := by
  obtain ⟨h₁,h₂⟩ := ranged_pass1 sha512 env r r.numBlocks
    (p := Pass1.start) (by simp [Pass1.start]) (by simp [RangedPlan,Pass1.start]) h
  unfold stageWrite allocateAndFlush
  dsimp only
  split_ifs
  · obtain ⟨n',hn,h₃,h₄⟩ := ranged_allocate
      (missCount (pass1 sha512 env r r.numBlocks c Pass1.start).2.plan) h₁
    obtain ⟨h₅,h₆⟩ := ranged_assign _ _ h₄ (fun e he => ⟨(h₂ e he).1,(h₂ e he).2.trans hn⟩) h₃
    exact ⟨n',{ h₅ with },h₆⟩
  · exact ⟨n,h₁,h₂⟩

theorem ranged_write (sha512 : List UInt8 → Hash) (env : Env) (r : WriteReq) (h : Ranged n c []) :
    ∃ n', Ranged n' (writeDedup sha512 env r c).1 [] := by
  unfold writeDedup
  split_ifs
  · exact ⟨n,h⟩
  · exact ⟨n,h⟩
  · obtain ⟨n',h₁,h₂⟩ := ranged_stage sha512 env r h
    refine ⟨n',?_⟩
    unfold finishWrite
    split
    · exact ranged_rollbackMisses _ h₂ (ranged_release (ranged_rollbackHits _ h₁))
    · exact ranged_release (ranged_consolidate r _ h₂ h₁)

theorem ranged_removeBlocks (path : Path) (k i : ℕ) (h : Ranged n c slots) :
    Ranged n (removeBlocks path k i c slots).1 (removeBlocks path k i c slots).2 := by
  refine removeBlocks_rule ?_ (fun _ _ a h => ranged_drop a h) k i h
  intro d s j h
  refine { h with offsets := ?_ }
  intro b a hb
  simp only [Context.removeFileBlock,find_erase] at hb
  split_ifs at hb
  exact h.offsets b a hb

theorem ranged_removeBatch (path : Path) (startBlock endBlock : ℕ) (h : Ranged n c []) :
    Ranged n (removeBlocksDedupBatch path startBlock endBlock c) [] :=
  ranged_release (ranged_removeBlocks path (endBlock-startBlock) startBlock h)

theorem ranged_unlink (path : Path) (h : Ranged n c []) : Ranged n (unlinkIndex path c) [] := by
  unfold unlinkIndex
  split
  · exact h
  · next numBlocks _ =>
    have h₁ := ranged_removeBatch path 0 numBlocks h
    refine ranged_sizes ?_ h₁
    intro p size hp
    rw [find_erase] at hp
    split_ifs at hp
    exact h₁.sizes p size hp

theorem ranged_truncate (path : Path) (size : ℕ) (h : Ranged n c []) :
    Ranged n (truncateIndex path size c) [] := by
  unfold truncateIndex
  split
  · exact h
  · next newBlockCount oldBlockCount _ =>
    have h₁ := ranged_removeBatch path newBlockCount oldBlockCount h
    unfold shrinkSize
    split
    · exact h₁
    · next ls hls =>
      split_ifs with hlt
      · refine ranged_sizes ?_ h₁
        intro p k hk
        rw [find_insert] at hk
        split_ifs at hk
        · have := h₁.sizes path ls hls
          have := Option.some.inj hk
          omega
        · exact h₁.sizes p k hk
      · exact h₁

theorem ranged_perform {sha512 : List UInt8 → Hash} {m m' : Mount} {op : Op}
    (h : ∃ n, Ranged n m.ctx []) (hs : perform sha512 m op = some m') :
    ∃ n, Ranged n m'.ctx [] := by
  obtain ⟨n,h⟩ := h
  obtain ⟨env,r,rfl,hm⟩ | ⟨sys,path,rfl,hm⟩ | ⟨sys,path,size,rfl,hm | hm⟩ := perform_cases hs
  · rw [hm]
    exact ranged_write sha512 env r h
  · rw [hm]
    exact ⟨n,ranged_unlink path h⟩
  · rw [hm]
    exact ⟨n,h⟩
  · rw [hm]
    exact ⟨n,ranged_truncate path _ h⟩

theorem run_ranged {sha512 : List UInt8 → Hash} {ops : List Op} {m : Mount}
    (hr : Leads sha512 ops m) : Ranged m.ctx.nextBlockIndex m.ctx [] := by
  obtain ⟨n,h⟩ := exec_preserves (perform sha512) (fun m => ∃ n, Ranged n m.ctx [])
    (fun _ _ _ hi hs => ranged_perform hi hs) emptyMount m ops ⟨0,ranged_empty⟩ hr
  rw [h.counter]
  exact h

theorem ranged_inRange (h : Ranged n c []) (hn : n < 2^64) : InRange c where
  infos := fun a _ => ⟨Nat.lt_of_le_of_lt (h.indices a) hn,h.counts a⟩
  offsets := h.offsets
  sizes := h.sizes
  free := fun q hq => Nat.lt_of_le_of_lt (h.free q hq) hn

def pointee (c : Context) : Hash ⊕ BlockIndice → Option Ptr
  | .inl h => find c.hashToMaster h
  | .inr k => find c.fileToMaster k

structure Reloaded (c d : Context) : Prop where
  keys : ∀ k, (pointee d k).isSome = (pointee c k).isSome
  infos : ∀ k a b, pointee c k = some a → pointee d k = some b → b ∈ d.live ∧ d.cell b = c.cell a
  sharing : ∀ k₁ k₂, pointee d k₁ = pointee d k₂ ↔ pointee c k₁ = pointee c k₂
  fileToSizes : ∀ p, find d.fileToSizes p = find c.fileToSizes p
  freeBlockList : d.freeBlockList = c.freeBlockList

theorem pointee_held {k : Hash ⊕ BlockIndice} {a : Ptr} (h : pointee c k = some a) : Held c a := by
  cases k with
  | inl k => exact Or.inl ⟨k,h⟩
  | inr k => exact Or.inr ⟨k,h⟩

theorem pointee_renamed {ρ : Ptr → Ptr} {d : Context} (h : Renamed ρ c d) (k : Hash ⊕ BlockIndice) :
    pointee d k = (pointee c k).map ρ := by
  cases k with
  | inl k => exact h.hashToMaster k
  | inr k => exact h.fileToMaster k

theorem renamed_reloaded {ρ : Ptr → Ptr} {d : Context} (h : Renamed ρ c d) : Reloaded c d where
  keys := fun k => by rw [pointee_renamed h,Option.isSome_map]
  infos := by
    intro k a b ha hb
    rw [pointee_renamed h,ha] at hb
    cases hb
    exact ⟨(h.live _).mpr ⟨a,pointee_held ha,rfl⟩,h.infos a (pointee_held ha)⟩
  sharing := by
    intro k₁ k₂
    rw [pointee_renamed h,pointee_renamed h]
    cases h₁ : pointee c k₁ with
    | none => cases pointee c k₂ <;> simp
    | some a =>
      cases h₂ : pointee c k₂ with
      | none => simp
      | some b =>
        simp only [Option.map_some,Option.some.injEq]
        constructor
        · exact h.injective a b (pointee_held h₁) (pointee_held h₂)
        · rintro rfl
          rfl
  fileToSizes := h.fileToSizes
  freeBlockList := h.freeBlockList

/-- After every sequential run, unmount and mount bring the index back up to
the addresses of its objects, in whatever order the tables are walked. -/
theorem sequential_run_reloaded {sha512 : List UInt8 → Hash} (ops : List Op) (m : Mount)
    (hr : Leads sha512 ops m) (u : Unmounting) (i : Mounting)
    (hn : m.ctx.nextBlockIndex < 2^64) (hs : SmallTables u m.ctx) :
    Reloaded m.ctx (remount u i m.ctx) := by
  obtain ⟨ρ,hρ⟩ := remount_renamed u i (ranged_inRange (run_ranged hr) hn) hs
  exact renamed_reloaded hρ

section Samples

def completeEnv : Env := ⟨topAlloc,topAlloc_fresh,fun _ => .complete⟩

def entryOrder (κ ν : Type) : Listing κ ν := ⟨fun t => t.entries,fun _ => List.Perm.refl _⟩

def reverseOrder (κ ν : Type) : Listing κ ν := ⟨fun t => t.entries.reverse,fun _ => List.reverse_perm _⟩

def sampleUnmounting : Unmounting :=
  ⟨⟨entryOrder _ _,reverseOrder _ _,reverseOrder _ _,entryOrder _ _⟩,entryOrder _ _,fun _ => 0⟩

def sampleMounting : Mounting := ⟨⟨entryOrder _ _,reverseOrder _ _⟩,topAlloc,topAlloc_fresh⟩

def sharedThenUnlinked : List Op :=
  [.write completeEnv (fillReq fileA 65 0 2 two_blocks_fit blocks01_end),
    .write completeEnv (fillReq fileB 66 0 1 one_block_fits block0_ends),
    .write completeEnv (fillReq fileA 67 2 1 one_block_fits block2_ends),.unlink none fileB]

theorem sharedThenUnlinked_reached : ∃ m, Leads sampleSha512 sharedThenUnlinked m ∧
    m.ctx.nextBlockIndex < 2^64 ∧ SmallTables sampleUnmounting m.ctx ∧ m.ctx.freeBlockList = [1] ∧
    pointee m.ctx (.inr ⟨fileA,0⟩) = pointee m.ctx (.inl digestA) ∧
    pointee m.ctx (.inr ⟨fileA,2⟩) ≠ pointee m.ctx (.inl digestA) := by
  obtain ⟨m,hr,hp⟩ := exec_observe (perform sampleSha512)
    (fun m => m.ctx.nextBlockIndex < 2^64 ∧ SmallTables sampleUnmounting m.ctx ∧
      m.ctx.freeBlockList = [1] ∧ pointee m.ctx (.inr ⟨fileA,0⟩) = pointee m.ctx (.inl digestA) ∧
      pointee m.ctx (.inr ⟨fileA,2⟩) ≠ pointee m.ctx (.inl digestA)) emptyMount
    sharedThenUnlinked (by decide +kernel)
  exact ⟨m,hr,of_decide_eq_true hp⟩

end Samples

theorem sequential_run_reloaded_shared : ∃ m, Leads sampleSha512 sharedThenUnlinked m ∧
    m.ctx.nextBlockIndex < 2^64 ∧ SmallTables sampleUnmounting m.ctx ∧
    Reloaded m.ctx (remount sampleUnmounting sampleMounting m.ctx) ∧
    m.ctx.freeBlockList = [1] ∧
    pointee m.ctx (.inr ⟨fileA,0⟩) = pointee m.ctx (.inl digestA) ∧
    pointee m.ctx (.inr ⟨fileA,2⟩) ≠ pointee m.ctx (.inl digestA) := by
  obtain ⟨m,hr,hn,hs,hfree,hsame,hother⟩ := sharedThenUnlinked_reached
  exact ⟨m,hr,hn,hs,sequential_run_reloaded sharedThenUnlinked m hr sampleUnmounting sampleMounting
    hn hs,hfree,hsame,hother⟩

end ArchivalDedup.SequentialRun
