import ArchivalDedup.Library.Simulation
import ArchivalDedup.MappedHashes
import ArchivalDedup.ReadBlocks

/-!
# The store refines a plain table of blocks

`BlockStore` keeps the blocks of every path and a size, without sharing, slots
or counters. A sequential run of the file system answers every operation as it
does, as long as no counter wraps, no count outgrows its field at an unmount and
SHA-512 does not collide on the blocks of the run.
-/

set_option autoImplicit false

namespace ArchivalDedup.BlockRefinement
open ArchivalDedup.FiniteTable ArchivalDedup.ByteMap ArchivalDedup.ConsecutiveRun
open ArchivalDedup.MetaIndex ArchivalDedup.WriteDedup ArchivalDedup.ReadDedup
open ArchivalDedup.Passthrough ArchivalDedup.Ledger ArchivalDedup.FlushRuns
open ArchivalDedup.ReadBlocks ArchivalDedup.LedgerLoops ArchivalDedup.ReferenceSafety
open ArchivalDedup.Content ArchivalDedup.Extents ArchivalDedup.SequentialWrite
open ArchivalDedup.Remount ArchivalDedup.SequentialRun ArchivalDedup.RemountSafety
open ArchivalDedup.MappedHashes ArchivalDedup.Simulation ArchivalDedup.SlotAccounting

structure BlockStore where
  blocks : Path → ℕ → Option (List UInt8)
  size : Path → ℕ

def emptyStore : BlockStore := ⟨fun _ _ => none,fun _ => 0⟩

def BlockStore.write (s : BlockStore) (r : WriteReq) : BlockStore where
  blocks := fun p b =>
    if p = r.path ∧ r.startBlock ≤ b ∧ b < r.startBlock+r.numBlocks
    then some (r.block (b-r.startBlock)) else s.blocks p b
  size := Function.update s.size r.path (max (s.size r.path) (r.offset+r.buf.length))

def BlockStore.truncate (s : BlockStore) (path : Path) (size : ℕ) : BlockStore where
  blocks := fun p b => if p = path ∧ size ≤ b*blockSize then none else s.blocks p b
  size := Function.update s.size path size

def BlockStore.unlink (s : BlockStore) (path : Path) : BlockStore where
  blocks := fun p b => if p = path then none else s.blocks p b
  size := Function.update s.size path 0

def BlockStore.read (s : BlockStore) (r : ReadReq) : List UInt8 :=
  (presentRun (fun i => s.blocks r.path (r.startBlock+i)) r.numBlocks 0).flatten

inductive FsOp where
  | create (path : Path)
  | write (env : Env) (r : WriteReq)
  | read (r : ReadReq) (buf : Buffer)
  | truncate (path : Path) (size : ℤ)
  | unlink (path : Path)
  | getattr (path : Path)
  | remount (u : Unmounting) (i : Mounting)

inductive Result where
  | done (res : Except Errno Unit)
  | count (res : Except Errno ℕ)
  | data (res : Except Errno (List UInt8))
  deriving DecidableEq

def withoutFailure (env : Env) : Env := { env with io := fun _ => .complete }

def respond (sha512 : List UInt8 → Hash) (qsort : List BlockPair → List BlockPair) (m : Mount) :
    FsOp → Mount × Result
  | .create path => (xmpCreate path m,.done (.ok ()))
  | .write env r =>
    let t := xmpWrite sha512 (withoutFailure env) r m
    (t.1,.count t.2)
  | .read r buf => (m,.data (readResult (xmpRead qsort r m buf)))
  | .truncate path size =>
    let t := xmpTruncate none path size m
    (t.1,.done t.2)
  | .unlink path =>
    let t := xmpUnlink none path m
    (t.1,.done t.2)
  | .getattr path => (m,.count (xmpGetattr path m))
  | .remount u i => (⟨remount u i m.ctx,m.backing⟩,.done (.ok ()))

def referBy (write : BlockStore → WriteReq → BlockStore) (s : BlockStore) :
    FsOp → BlockStore × Result
  | .create _ => (s,.done (.ok ()))
  | .write _ r => (write s r,.count (.ok r.buf.length))
  | .read r _ => (s,.data (.ok (s.read r)))
  | .truncate path size => (s.truncate path size.toNat,.done (.ok ()))
  | .unlink path => (s.unlink path,.done (.ok ()))
  | .getattr path => (s,.count (.ok (s.size path)))
  | .remount _ _ => (s,.done (.ok ()))

def BlockStore.writeBytes (s : BlockStore) (r : WriteReq) : BlockStore :=
  if r.buf.length = 0 then s else s.write r

def refer : BlockStore → FsOp → BlockStore × Result := referBy BlockStore.writeBytes

def logicalSize (m : Mount) (path : Path) : ℕ := (find m.ctx.fileToSizes path).getD 0

/-- The requests in question: aligned, a truncation not above the logical size,
and attributes of files that exist. -/
def Regular (m : Mount) : FsOp → Prop
  | .write _ r => r.offset % blockSize = 0 ∧ r.buf.length % blockSize = 0
  | .read r _ => r.offset % blockSize = 0 ∧ 0 < r.size ∧ r.size % blockSize = 0
  | .truncate path size => 0 ≤ size ∧ size % blockSize = 0 ∧ size ≤ logicalSize m path
  | .getattr path => m.backing path ≠ none
  | _ => True

instance (m : Mount) (op : FsOp) : Decidable (Regular m op) :=
  match op with
  | .write _ r => inferInstanceAs (Decidable (r.offset % blockSize = 0 ∧ r.buf.length % blockSize = 0))
  | .read r _ =>
    inferInstanceAs (Decidable (r.offset % blockSize = 0 ∧ 0 < r.size ∧ r.size % blockSize = 0))
  | .truncate path size =>
    inferInstanceAs (Decidable (0 ≤ size ∧ size % blockSize = 0 ∧ size ≤ logicalSize m path))
  | .getattr path => inferInstanceAs (Decidable (m.backing path ≠ none))
  | .create _ | .unlink _ | .remount _ _ => isTrue trivial

/-- Counters and counts stay inside their fields. -/
def NoOverflow (sha512 : List UInt8 → Hash) (m : Mount) : FsOp → Prop
  | .write _ r => CallFits sha512 r m.ctx
  | .remount u _ => SmallTables u m.ctx
  | _ => True

instance (sha512 : List UInt8 → Hash) (m : Mount) (op : FsOp) :
    Decidable (NoOverflow sha512 m op) :=
  match op with
  | .write _ r => inferInstanceAs (Decidable (CallFits sha512 r m.ctx))
  | .remount u _ => inferInstanceAs (Decidable (SmallTables u m.ctx))
  | .create _ | .read _ _ | .truncate _ _ | .unlink _ | .getattr _ => isTrue trivial

def blocksOf : FsOp → List (List UInt8)
  | .write _ r => (List.range r.numBlocks).map r.block
  | _ => []

def CollisionFree (sha512 : List UInt8 → Hash) (ops : List FsOp) : Prop :=
  ∀ x ∈ ops.flatMap blocksOf, ∀ y ∈ ops.flatMap blocksOf, sha512 x = sha512 y → x = y

structure Refines (sha512 : List UInt8 → Hash) (known : List (List UInt8)) (m : Mount)
    (s : BlockStore) : Prop where
  seq : SeqInv m.ctx
  reach : Reaching m.ctx
  stored : Stored (fun h b => sha512 b = h ∧ b ∈ known) m.ctx
  covered : InsideSizes m.ctx
  hashes : ∀ k, mappedHash m.ctx k = (s.blocks k.path k.offset).map sha512
  blocks : ∀ p b x, s.blocks p b = some x → x ∈ known
  sizes : ∀ p, s.size p = logicalSize m p
  backing : ∀ p, find m.ctx.fileToSizes p = none → m.backing p = none ∨ m.backing p = some 0

section Steps

variable {sha512 : List UInt8 → Hash} {qsort : List BlockPair → List BlockPair}
variable {known : List (List UInt8)} {m : Mount} {s : BlockStore}

theorem refines_empty : Refines sha512 known emptyMount emptyStore where
  seq := seqInv_empty
  reach := Nat.le_refl 0
  stored := by
    intro h a hk
    simp [emptyMount,emptyContext] at hk
  covered := by
    intro path b a hk
    simp [emptyMount,emptyContext] at hk
  hashes := by
    intro k
    simp [mappedHash,emptyMount,emptyContext,emptyStore]
  blocks := by simp [emptyStore]
  sizes := by
    intro p
    simp [logicalSize,emptyMount,emptyContext,emptyStore]
  backing := fun _ _ => Or.inl rfl

theorem refines_create (path : Path) (h : Refines sha512 known m s) :
    Refines sha512 known (xmpCreate path m) s where
  seq := h.seq
  reach := h.reach
  stored := h.stored
  covered := h.covered
  hashes := h.hashes
  blocks := h.blocks
  sizes := h.sizes
  backing := by
    intro p hp
    by_cases heq : p = path
    · subst heq
      right
      simp only [xmpCreate,Function.update_self]
      rcases h.backing p hp with hb | hb <;> rw [hb] <;> rfl
    · simp only [xmpCreate,Function.update_of_ne heq]
      exact h.backing p hp

theorem refines_unlink (path : Path) (h : Refines sha512 known m s) :
    Refines sha512 known (xmpUnlink none path m).1 (s.unlink path) where
  seq := seqInv_unlink path h.seq
  reach := by
    have hr := ranged_unlink path h.seq.ranged
    have hf := unlinkIndex_file path m.ctx
    change (unlinkIndex path m.ctx).nextBlockIndex*blockSize ≤ (unlinkIndex path m.ctx).fileSize
    rw [hr.counter,congrArg MasterFile.fileSize hf]
    exact h.reach
  stored := stored_narrows (unlinkIndex_file path m.ctx) (narrows_unlinkIndex path m.ctx) h.stored
  covered := covered_unlinkIndex h.covered
  hashes := by
    intro k
    change mappedHash (unlinkIndex path m.ctx) k = _
    rw [unlinkIndex_hash h.covered]
    simp only [BlockStore.unlink]
    split_ifs
    · rfl
    · exact h.hashes k
  blocks := by
    intro p b x hx
    simp only [BlockStore.unlink] at hx
    split_ifs at hx
    exact h.blocks p b x hx
  sizes := by
    intro p
    change _ = (find (unlinkIndex path m.ctx).fileToSizes p).getD 0
    rw [unlinkIndex_sizes]
    by_cases hp : p = path
    · subst hp
      simp [BlockStore.unlink]
    · rw [if_neg hp]
      simp only [BlockStore.unlink,Function.update_of_ne hp]
      exact h.sizes p
  backing := by
    intro p hp
    by_cases heq : p = path
    · subst heq
      left
      simp [xmpUnlink]
    · change find (unlinkIndex path m.ctx).fileToSizes p = none at hp
      rw [unlinkIndex_sizes,if_neg heq] at hp
      simp only [xmpUnlink,Function.update_of_ne heq]
      exact h.backing p hp

theorem truncate_regular {path : Path} {size : ℤ} (hs : 0 ≤ size ∧ size % blockSize = 0) :
    xmpTruncate none path size m =
      (⟨truncateIndex path size.toNat m.ctx,
        Function.update m.backing path (some size.toNat)⟩,.ok ()) := by
  unfold xmpTruncate
  rw [if_neg]
  rintro (hneg | hmod)
  · omega
  · exact hmod hs.2

theorem refines_truncate {path : Path} {size : ℕ} (h : Refines sha512 known m s)
    (hs : size ≤ logicalSize m path) : Refines sha512 known
      ⟨truncateIndex path size m.ctx,Function.update m.backing path (some size)⟩
      (s.truncate path size) where
  seq := seqInv_truncate path size h.seq
  reach := by
    have hr := ranged_truncate path size h.seq.ranged
    have hf := truncateIndex_file path size m.ctx
    change (truncateIndex path size m.ctx).nextBlockIndex*blockSize ≤
      (truncateIndex path size m.ctx).fileSize
    rw [hr.counter,congrArg MasterFile.fileSize hf]
    exact h.reach
  stored := stored_narrows (truncateIndex_file path size m.ctx)
    (narrows_truncateIndex path size m.ctx) h.stored
  covered := covered_truncateIndex h.covered hs
  hashes := by
    intro k
    change mappedHash (truncateIndex path size m.ctx) k = _
    rw [truncateIndex_hash h.covered hs]
    simp only [BlockStore.truncate]
    split_ifs
    · rfl
    · exact h.hashes k
  blocks := by
    intro p b x hx
    simp only [BlockStore.truncate] at hx
    split_ifs at hx
    exact h.blocks p b x hx
  sizes := by
    intro p
    refine Eq.trans ?_ (truncateIndex_sizes hs p).1.symm
    by_cases hp : p = path
    · subst hp
      simp [BlockStore.truncate]
    · rw [if_neg hp]
      simp only [BlockStore.truncate,Function.update_of_ne hp]
      exact h.sizes p
  backing := by
    intro p hp
    have hnone := (truncateIndex_sizes hs p).2 hp
    by_cases heq : p = path
    · subst heq
      have hz : size = 0 := by
        rw [logicalSize,hnone] at hs
        exact Nat.le_zero.mp hs
      right
      simp [hz]
    · simp only [Function.update_of_ne heq]
      exact h.backing p hnone

theorem newEnd_aligned {r : WriteReq} (ho : r.offset % blockSize = 0)
    (hl : r.buf.length % blockSize = 0) : r.newEnd = r.offset+r.buf.length := by
  unfold WriteReq.newEnd WriteReq.startBlock WriteReq.numBlocks
  rw [Nat.add_mul,Nat.div_mul_cancel (Nat.dvd_of_mod_eq_zero ho),
    Nat.div_mul_cancel (Nat.dvd_of_mod_eq_zero hl)]

theorem refines_consolidate {r : WriteReq} {t : List PlanEntry × Context × Option Errno} {n : ℕ}
    (h : Refines sha512 known m s) (ho : r.offset % blockSize = 0)
    (hl : r.buf.length % blockSize = 0) (hk : ∀ b ∈ (List.range r.numBlocks).map r.block, b ∈ known)
    (ht : StagedWrite sha512 r m.ctx t) (hok : t.2.2 = none) (hr : Ranged n t.2.1 [])
    (hp : RangedPlan n t.1) (hseq : SeqInv (finishWrite r t).1) :
    Refines sha512 known ⟨(finishWrite r t).1,m.backing⟩ (s.write r) := by
  have hfinish : (finishWrite r t).1 =
      (consolidate r t.1 t.2.1).1.releaseSlots (consolidate r t.1 t.2.1).2 := by
    unfold finishWrite
    rw [hok]
  have hblock : ∀ i < r.numBlocks, r.block i ∈ known := fun i hi =>
    hk _ (List.mem_map.mpr ⟨i,List.mem_range.mpr hi,rfl⟩)
  have hsizes : ∀ p, find (finishWrite r t).1.fileToSizes p = if p = r.path then
      some (max (s.size r.path) (r.offset+r.buf.length)) else find m.ctx.fileToSizes p := by
    intro p
    rw [hfinish]
    change find (consolidate r t.1 t.2.1).1.fileToSizes p = _
    rw [consolidate_find,ht.planned.fileToSizes,newEnd_aligned ho hl,h.sizes r.path]
    rfl
  obtain ⟨hfile,hrange⟩ := finishWrite_store (r := r) hr hp
  exact
    { seq := hseq
      reach := by
        change (finishWrite r t).1.nextBlockIndex*blockSize ≤ (finishWrite r t).1.fileSize
        rw [hrange.counter,←hr.counter,congrArg MasterFile.fileSize hfile]
        have hnext := ht.next
        have hgrow := ht.grows
        rcases Nat.eq_or_lt_of_le hnext with heq | hlt
        · rw [←heq]
          exact h.reach.trans hgrow
        · have := ht.reached hok (t.2.1.nextBlockIndex-1) (by omega) (by omega)
          rwa [Nat.sub_add_cancel (by omega)] at this
      stored := by
        have hcons : Stored (fun h b => sha512 b = h ∧ b ∈ known) (consolidate r t.1 t.2.1).1 :=
          stored_consolidate ht.ledger ht.shape.1 (ht.flushed hok)
            (fun i hi => ⟨rfl,hblock i (ht.shape.2.2 ▸ hi)⟩)
            (stored_staged h.seq.ledger ht h.stored)
        rw [hfinish]
        intro k a hk
        exact hcons k a hk
      covered := by
        rw [hfinish]
        refine covered_consolidate ht.shape ?_
        intro path b a hb
        rw [ht.planned.fileToMaster] at hb
        rw [ht.planned.fileToSizes]
        exact h.covered path b a hb
      hashes := by
        intro k
        rw [hfinish]
        refine (consolidate_hash h.seq.ledger ht k).trans ?_
        simp only [BlockStore.write]
        split_ifs
        · rfl
        · exact h.hashes k
      blocks := by
        intro p b x hx
        simp only [BlockStore.write] at hx
        split_ifs at hx with hin
        · rw [←Option.some.inj hx]
          exact hblock _ (by omega)
        · exact h.blocks p b x hx
      sizes := by
        intro p
        change _ = (find (finishWrite r t).1.fileToSizes p).getD 0
        rw [hsizes]
        by_cases hp : p = r.path
        · subst hp
          simp [BlockStore.write]
        · rw [if_neg hp]
          simp only [BlockStore.write,Function.update_of_ne hp]
          exact h.sizes p
      backing := by
        intro p hp
        rw [hsizes] at hp
        split_ifs at hp
        exact h.backing p hp }

theorem refines_write (env : Env) {r : WriteReq} (h : Refines sha512 known m s)
    (ho : r.offset % blockSize = 0) (hl : r.buf.length % blockSize = 0)
    (hfit : CallFits sha512 r m.ctx)
    (hk : ∀ b ∈ (List.range r.numBlocks).map r.block, b ∈ known) :
    Refines sha512 known (xmpWrite sha512 (withoutFailure env) r m).1 (s.writeBytes r) ∧
      (xmpWrite sha512 (withoutFailure env) r m).2 = .ok r.buf.length := by
  have hseq := seqInv_write (withoutFailure env) h.seq hfit
  unfold xmpWrite BlockStore.writeBytes
  dsimp only
  by_cases hlen : r.buf.length = 0
  · have hw : writeDedup sha512 (withoutFailure env) r m.ctx = (m.ctx,.ok 0) := if_pos hlen
    rw [hw,if_pos hlen,hlen]
    exact ⟨h,rfl⟩
  · rw [if_neg hlen]
    have hpos : ¬ (r.numBlocks = 0 ∨ r.buf.length % blockSize ≠ 0) := by
      rintro (hn | hm)
      · have := Nat.div_mul_cancel (Nat.dvd_of_mod_eq_zero hl)
        rw [WriteReq.numBlocks] at hn
        rw [hn] at this
        omega
      · exact hm hl
    have hw : writeDedup sha512 (withoutFailure env) r m.ctx =
        finishWrite r (stageWrite sha512 (withoutFailure env) r m.ctx) := by
      unfold writeDedup
      rw [if_neg hlen,if_neg hpos]
    have ht := stageWrite_alone (withoutFailure env) h.seq.ledger (hfit hl)
    have hok : (stageWrite sha512 (withoutFailure env) r m.ctx).2.2 = none :=
      stageWrite_complete (fun _ => rfl) m.ctx
    obtain ⟨n,hr,hp⟩ := ranged_stage sha512 (withoutFailure env) r h.seq.ranged
    rw [hw] at hseq ⊢
    refine ⟨refines_consolidate h ho hl hk ht hok hr hp hseq,?_⟩
    unfold finishWrite
    rw [hok]
    have : r.numBlocks*blockSize = r.buf.length :=
      Nat.div_mul_cancel (Nat.dvd_of_mod_eq_zero hl)
    simp only [this]

theorem mapped_content (h : Refines sha512 known m s)
    (hinj : ∀ x ∈ known, ∀ y ∈ known, sha512 x = sha512 y → x = y) (path : Path) (b : ℕ) :
    s.blocks path b = (find m.ctx.fileToMaster ⟨path,b⟩).map
      (fun a => m.ctx.toMasterFile.block (m.ctx.cell a).masterBlockIndex) := by
  have hb := h.hashes ⟨path,b⟩
  cases hf : find m.ctx.fileToMaster ⟨path,b⟩ with
  | none =>
    rw [mappedHash,hf] at hb
    exact Option.map_eq_none_iff.mp hb.symm
  | some a =>
    rw [mappedHash,hf] at hb
    obtain ⟨x,hx,hash⟩ := Option.map_eq_some_iff.mp hb.symm
    obtain ⟨_,hp⟩ := mapped_published h.seq.ledger hf
    obtain ⟨hsha,hmem⟩ := h.stored _ a hp
    rw [hx,Option.map_some]
    exact congrArg some (hinj x (h.blocks path b x hx) _ hmem (hash.trans hsha.symm))

theorem refines_read (hq : ∀ l, (qsort l).Perm l) (h : Refines sha512 known m s)
    (hinj : ∀ x ∈ known, ∀ y ∈ known, sha512 x = sha512 y → x = y) (r : ReadReq) (buf : Buffer)
    (hpos : 0 < r.size) (ha : r.size % blockSize = 0) :
    readResult (xmpRead qsort r m buf) = .ok (s.read r) := by
  have hn : r.numBlocks ≠ 0 := by
    intro hz
    have := Nat.div_mul_cancel (Nat.dvd_of_mod_eq_zero ha)
    rw [ReadReq.numBlocks] at hz
    rw [hz] at this
    omega
  have hin : ∀ i q, lookupPair r m.ctx i = some q →
      (q.masterBlockIndex+1)*blockSize ≤ m.ctx.fileSize := by
    intro i q hi
    obtain ⟨a,hf,rfl⟩ := Option.map_eq_some_iff.mp hi
    obtain ⟨_,hp⟩ := mapped_published h.seq.ledger hf
    have hlt := ((idle_slots h.seq.ledger).2.2 a hp).1
    exact (Nat.mul_le_mul_right _ hlt).trans h.reach
  unfold xmpRead
  rw [readDedup_alone hq r m.ctx buf hn ha hin,←presentRun_map]
  unfold BlockStore.read
  have hsame : (fun j => (lookupPair r m.ctx j).map
      (fun q => m.ctx.toMasterFile.block q.masterBlockIndex)) =
      fun j => s.blocks r.path (r.startBlock+j) := by
    funext j
    rw [mapped_content h hinj,lookupPair,Context.lookupByFileBlock]
    cases find m.ctx.fileToMaster ⟨r.path,r.startBlock+j⟩ <;> rfl
  rw [hsame]

theorem refines_getattr {path : Path} (h : Refines sha512 known m s) (hb : m.backing path ≠ none) :
    xmpGetattr path m = .ok (s.size path) := by
  obtain ⟨len,hlen⟩ := Option.ne_none_iff_exists'.mp hb
  unfold xmpGetattr
  rw [hlen,h.sizes,logicalSize]
  cases hf : find m.ctx.fileToSizes path with
  | some n => rfl
  | none =>
    rcases h.backing path hf with hz | hz
    · exact absurd hz hb
    · rw [Option.some.inj (hlen.symm.trans hz),Option.getD_none]
      exact congrArg Except.ok Option.getD_none

theorem stored_remount {good : Hash → List UInt8 → Prop} {c : Context} (u : Unmounting)
    (i : Mounting) (h : SeqInv c) (hs : Stored good c) (ht : SmallTables u c) :
    Stored good (remount u i c) := by
  obtain ⟨ρ,hρ⟩ := remount_renamed u i (ranged_inRange h.ranged (ledger_next h.ledger ht)) ht
  intro x a ha
  rw [hρ.hashToMaster] at ha
  obtain ⟨b,hb,rfl⟩ := Option.map_eq_some_iff.mp ha
  rw [hρ.infos b (Or.inl ⟨x,hb⟩)]
  exact hs x b hb

theorem refines_remount {u : Unmounting} {i : Mounting} (h : Refines sha512 known m s)
    (hs : SmallTables u m.ctx) : Refines sha512 known ⟨remount u i m.ctx,m.backing⟩ s := by
  have hn := ledger_next h.seq.ledger hs
  have hnext := remount_next u i h.seq h.reach
  obtain ⟨ρ,hρ⟩ := remount_renamed u i (ranged_inRange h.seq.ranged hn) hs
  have hfind : ∀ p, find (remount u i m.ctx).fileToSizes p = find m.ctx.fileToSizes p :=
    hρ.fileToSizes
  exact
    { seq := seqInv_remount u i h.seq h.reach hn hs
      reach := by
        change (remount u i m.ctx).nextBlockIndex*blockSize ≤ m.ctx.fileSize
        rw [hnext]
        exact h.reach
      stored := stored_remount u i h.seq h.stored hs
      covered := by
        intro path b x hb
        rw [hρ.fileToMaster] at hb
        obtain ⟨a,ha,_⟩ := Option.map_eq_some_iff.mp hb
        rw [hfind]
        exact h.covered path b a ha
      hashes := by
        intro k
        rw [←h.hashes k]
        simp only [mappedHash,hρ.fileToMaster,Option.map_map]
        refine Option.map_congr ?_
        intro a ha
        rw [Function.comp_apply,hρ.infos a (Or.inr ⟨k,ha⟩)]
      blocks := h.blocks
      sizes := by
        intro p
        simp only [logicalSize,hfind]
        exact h.sizes p
      backing := by
        intro p hp
        rw [hfind] at hp
        exact h.backing p hp }

theorem refines_respond (hq : ∀ l, (qsort l).Perm l)
    (hinj : ∀ x ∈ known, ∀ y ∈ known, sha512 x = sha512 y → x = y) (m : Mount) (s : BlockStore)
    (op : FsOp) (h : Refines sha512 known m s) (hk : ∀ b ∈ blocksOf op, b ∈ known)
    (hc : Regular m op ∧ NoOverflow sha512 m op) :
    Refines sha512 known (respond sha512 qsort m op).1 (refer s op).1 ∧
      (respond sha512 qsort m op).2 = (refer s op).2 := by
  obtain ⟨hreg,hfit⟩ := hc
  cases op with
  | create path => exact ⟨refines_create path h,rfl⟩
  | write env r =>
    obtain ⟨hw,hres⟩ := refines_write env h hreg.1 hreg.2 hfit hk
    exact ⟨hw,congrArg Result.count hres⟩
  | read r buf => exact ⟨h,congrArg Result.data (refines_read hq h hinj r buf hreg.2.1 hreg.2.2)⟩
  | truncate path size =>
    obtain ⟨hneg,hmod,hle⟩ := hreg
    simp only [respond,truncate_regular ⟨hneg,hmod⟩]
    exact ⟨refines_truncate h (by omega),rfl⟩
  | unlink path => exact ⟨refines_unlink path h,rfl⟩
  | getattr path => exact ⟨h,congrArg Result.count (refines_getattr h hreg)⟩
  | remount u i => exact ⟨refines_remount h hfit,rfl⟩

end Steps

/-- Every sequential run answers as the plain store does. -/
theorem regular_run_refines {sha512 : List UInt8 → Hash} {qsort : List BlockPair → List BlockPair}
    (hq : ∀ l, (qsort l).Perm l) (ops : List FsOp) (hinj : CollisionFree sha512 ops)
    (hd : Throughout (respond sha512 qsort) Regular emptyMount ops)
    (hc : Throughout (respond sha512 qsort) (NoOverflow sha512) emptyMount ops) :
    answers (respond sha512 qsort) emptyMount ops = answers refer emptyStore ops :=
  answers_eq (refines_respond hq hinj) ops
    (fun op hop _ hb => List.mem_flatMap.mpr ⟨op,hop,hb⟩) refines_empty (throughout_and hd hc)

section Samples

theorem fill_block {path : Path} {byte : UInt8} {i n j : ℕ} (h₁ : n*blockSize < 2^31)
    (h₂ : i*blockSize+n*blockSize < 2^63) (hj : j < n) :
    (fillReq path byte i n h₁ h₂).block j = List.replicate blockSize byte := by
  have hle : (j+1)*blockSize ≤ n*blockSize := Nat.mul_le_mul_right _ hj
  rw [Nat.succ_mul] at hle
  simp only [WriteReq.block,fillReq,List.drop_replicate,List.take_replicate]
  rw [Nat.min_eq_left (by omega)]

def Uniform (op : FsOp) : Prop :=
  ∀ x ∈ blocksOf op, ∃ byte ∈ ([65,66,67] : List UInt8), x = List.replicate blockSize byte

theorem fill_numBlocks {path : Path} {byte : UInt8} {i n : ℕ} (h₁ : n*blockSize < 2^31)
    (h₂ : i*blockSize+n*blockSize < 2^63) : (fillReq path byte i n h₁ h₂).numBlocks = n := by
  simp [WriteReq.numBlocks,fillReq,Nat.mul_div_cancel _ blockSize_pos]

theorem uniform_fill (env : Env) {path : Path} {byte : UInt8} {i n : ℕ} (h₁ : n*blockSize < 2^31)
    (h₂ : i*blockSize+n*blockSize < 2^63) (hb : byte ∈ ([65,66,67] : List UInt8)) :
    Uniform (.write env (fillReq path byte i n h₁ h₂)) := by
  intro x hx
  obtain ⟨j,hj,rfl⟩ := List.mem_map.mp hx
  rw [fill_numBlocks] at hj
  exact ⟨byte,hb,fill_block h₁ h₂ (List.mem_range.mp hj)⟩

theorem sampleSha512_fill : ∀ b ∈ ([65,66,67] : List UInt8), ∀ b' ∈ ([65,66,67] : List UInt8),
    sampleSha512 (List.replicate blockSize b) = sampleSha512 (List.replicate blockSize b') →
    b = b' := by
  have hhead : ∀ b : UInt8, (List.replicate blockSize b).headD 0 = b := fun b => rfl
  simp only [sampleSha512,hhead]
  decide +kernel

theorem uniform_collisionFree {ops : List FsOp} (h : ∀ op ∈ ops, Uniform op) :
    CollisionFree sampleSha512 ops := by
  intro x hx y hy heq
  obtain ⟨op,hop,hx⟩ := List.mem_flatMap.mp hx
  obtain ⟨op',hop',hy⟩ := List.mem_flatMap.mp hy
  obtain ⟨b,hb,rfl⟩ := h op hop x hx
  obtain ⟨b',hb',rfl⟩ := h op' hop' y hy
  rw [sampleSha512_fill b hb b' hb' heq]

def sharedAndReloaded : List FsOp :=
  [.create fileA,.create fileB,
    .write completeEnv (fillReq fileA 65 0 2 two_blocks_fit blocks01_end),
    .write completeEnv (fillReq fileB 66 0 2 two_blocks_fit blocks01_end),
    .write completeEnv (fillReq fileA 66 1 1 one_block_fits block1_ends),
    .truncate fileB 4096,.remount sampleUnmounting sampleMounting,
    .write completeEnv (fillReq fileB 67 2 1 one_block_fits block2_ends),
    .read ⟨fileA,8192,0,by decide⟩ (fun _ => 0),.read ⟨fileB,12288,0,by decide⟩ (fun _ => 0),
    .getattr fileB,.unlink fileA,.read ⟨fileA,4096,0,by decide⟩ (fun _ => 0)]

theorem regular_run_refines_reloaded : CollisionFree sampleSha512 sharedAndReloaded ∧
    Throughout (respond sampleSha512 id) Regular emptyMount sharedAndReloaded ∧
    Throughout (respond sampleSha512 id) (NoOverflow sampleSha512) emptyMount sharedAndReloaded ∧
    answers (respond sampleSha512 id) emptyMount sharedAndReloaded =
      answers refer emptyStore sharedAndReloaded ∧
    (answers refer emptyStore sharedAndReloaded).drop 10 =
      [.count (.ok 12288),.done (.ok ()),.data (.ok [])] := by
  have hinj : CollisionFree sampleSha512 sharedAndReloaded := by
    refine uniform_collisionFree ?_
    have hnone : ∀ op, blocksOf op = [] → Uniform op := fun op h x hx => by simp [h] at hx
    simp only [sharedAndReloaded,List.forall_mem_cons]
    exact ⟨hnone _ rfl,hnone _ rfl,uniform_fill _ _ _ (by decide),uniform_fill _ _ _ (by decide),
      uniform_fill _ _ _ (by decide),hnone _ rfl,hnone _ rfl,uniform_fill _ _ _ (by decide),
      hnone _ rfl,hnone _ rfl,hnone _ rfl,hnone _ rfl,hnone _ rfl,by simp⟩
  have hd : Throughout (respond sampleSha512 id) Regular emptyMount sharedAndReloaded := by
    decide +kernel
  have hc : Throughout (respond sampleSha512 id) (NoOverflow sampleSha512) emptyMount
      sharedAndReloaded := by
    decide +kernel
  exact ⟨hinj,hd,hc,regular_run_refines (fun l => List.Perm.refl l) sharedAndReloaded hinj hd hc,
    by decide +kernel⟩

/-! ### A file table that outgrows its count -/

def equalBlocks (n : ℕ) : List FsOp := (List.range n).map (fun i => .write completeEnv (blockReq i))

def equalStore (n : ℕ) : BlockStore where
  blocks := fun p b => if p = fileA ∧ b < n then some (List.replicate blockSize 65) else none
  size := fun p => if p = fileA then n*blockSize else 0

theorem blockReq_numBlocks (i : ℕ) : (blockReq i).numBlocks = 1 := by
  simp [WriteReq.numBlocks,blockReq,Nat.div_self blockSize_pos]

theorem blockReq_block (i : ℕ) : (blockReq i).block 0 = List.replicate blockSize 65 := by
  simp [WriteReq.block,blockReq]

theorem equalBlocks_blocks {n : ℕ} {op : FsOp} (hop : op ∈ equalBlocks n) (x : List UInt8)
    (hx : x ∈ blocksOf op) : x = List.replicate blockSize 65 := by
  obtain ⟨i,_,rfl⟩ := List.mem_map.mp hop
  obtain ⟨j,hj,rfl⟩ := List.mem_map.mp hx
  rw [blockReq_numBlocks,List.mem_range,Nat.lt_one_iff] at hj
  rw [hj,blockReq_block]

theorem equalStore_zero : equalStore 0 = emptyStore := by
  simp [equalStore,emptyStore]

theorem equalStore_succ {n : ℕ} (hn : n < 2^40) :
    (equalStore n).write (blockReq n) = equalStore (n+1) := by
  have hpath : (blockReq n).path = fileA := rfl
  have hend := newEnd_aligned (r := blockReq n) (Nat.mul_mod_left ..)
    (by simp [blockReq])
  rw [blockReq_end hn] at hend
  have hb : ((equalStore n).write (blockReq n)).blocks = (equalStore (n+1)).blocks := by
    funext p b
    simp only [BlockStore.write,equalStore,hpath,blockReq_start hn,blockReq_numBlocks]
    split_ifs with h₁ h₂ h₃ h₄
    · obtain ⟨_,hlo,hhi⟩ := h₁
      rw [show b-n = 0 by omega,blockReq_block]
    · exact absurd ⟨h₁.1,h₁.2.2⟩ h₂
    · rfl
    · exact absurd ⟨h₃.1,Nat.lt_succ_of_lt h₃.2⟩ h₄
    · next h₅ =>
      obtain ⟨hp,hlt⟩ := h₅
      exact absurd ⟨hp,Nat.le_of_not_lt (fun h => h₃ ⟨hp,h⟩),hlt⟩ h₁
    · rfl
  have hs : ((equalStore n).write (blockReq n)).size = (equalStore (n+1)).size := by
    funext p
    by_cases hp : p = fileA
    · subst hp
      simp only [BlockStore.write,equalStore,hpath,Function.update_self,if_true,←hend]
      rw [Nat.max_eq_right (Nat.mul_le_mul_right _ (Nat.le_succ n))]
    · simp only [BlockStore.write,equalStore,hpath,Function.update_of_ne hp,if_neg hp]
  cases hw : (equalStore n).write (blockReq n)
  simp_all only [equalStore]

theorem filled_entries {t : Table BlockIndice Ptr} {n : ℕ}
    (h : ∀ p b, find t ⟨p,b⟩ = none ↔ ¬ (p = fileA ∧ b < n)) : t.entries.length = n := by
  have hn : ((List.range n).map (fun b => (⟨fileA,b⟩ : BlockIndice))).Nodup :=
    List.nodup_range.map (fun a b hab => congrArg BlockIndice.offset hab)
  refine (entries_length hn ?_).trans (by simp)
  rintro ⟨p,b⟩
  rw [Ne,h p b,not_not]
  simp [and_comm,eq_comm]

theorem equalStore_entries {m : Mount} {known : List (List UInt8)} {n : ℕ}
    (h : Refines sampleSha512 known m (equalStore n)) :
    m.ctx.fileToMaster.entries.length = n := by
  refine filled_entries ?_
  intro p b
  rw [←Option.map_eq_none_iff,←mappedHash,h.hashes ⟨p,b⟩]
  simp [equalStore]

theorem equalBlocks_succ (n : ℕ) :
    equalBlocks (n+1) = equalBlocks n++[.write completeEnv (blockReq n)] := by
  simp [equalBlocks,List.range_succ]

theorem equalBlocks_reference {n : ℕ} (hn : n < 2^40) :
    final (referBy BlockStore.write) emptyStore (equalBlocks n) = equalStore n := by
  induction n with
  | zero => exact equalStore_zero.symm
  | succ n ih =>
    rw [equalBlocks_succ,final_append,ih (by omega)]
    exact equalStore_succ (by omega)

theorem equalBlocks_refines {n : ℕ} (hn : n < 2^32) :
    Refines sampleSha512 [List.replicate blockSize 65]
      (final (respond sampleSha512 id) emptyMount (equalBlocks n)) (equalStore n) := by
  induction n with
  | zero =>
    rw [equalStore_zero]
    exact refines_empty
  | succ n ih =>
    have h := ih (by omega)
    rw [equalBlocks_succ,final_append,←equalStore_succ (by omega)]
    have hfit : CallFits sampleSha512 (blockReq n)
        (final (respond sampleSha512 id) emptyMount (equalBlocks n)).ctx := by
      refine callFits_of_few h.seq.ledger ?_
      rw [equalStore_entries h,blockReq_numBlocks,refcountMod]
      exact hn
    have hlen : (blockReq n).buf.length ≠ 0 := by
      simp [blockReq,Nat.ne_of_gt blockSize_pos]
    obtain ⟨hw,_⟩ := refines_write completeEnv h (Nat.mul_mod_left ..) (by simp [blockReq])
      hfit (fun b hb => List.mem_singleton.mpr (equalBlocks_blocks
        (List.mem_map.mpr ⟨n,List.mem_range.mpr (Nat.lt_succ_self n),rfl⟩) b hb))
    rw [BlockStore.writeBytes,if_neg hlen] at hw
    exact hw

def firstBlock : ReadReq := ⟨fileA,4096,0,by decide⟩

/-- After the writes, a reload and a read of the first block. Irreducible, so
that 2^31 writes are never unrolled. -/
@[irreducible] def outgrown (n : ℕ) : List FsOp :=
  equalBlocks n++[.remount sampleUnmounting sampleMounting,.read firstBlock (fun _ => 0)]

theorem outgrown_regular (n : ℕ) :
    Throughout (respond sampleSha512 id) Regular emptyMount (outgrown n) := by
  refine throughout_of_forall _ ?_
  intro op hop m
  rw [outgrown] at hop
  rcases List.mem_append.mp hop with hop | hop
  · obtain ⟨i,_,rfl⟩ := List.mem_map.mp hop
    exact ⟨Nat.mul_mod_left ..,by simp [blockReq]⟩
  · rcases List.mem_cons.mp hop with rfl | hop
    · trivial
    · rw [List.mem_singleton.mp hop]
      exact ⟨rfl,by decide,by decide⟩

theorem outgrown_collisionFree (n : ℕ) : CollisionFree sampleSha512 (outgrown n) := by
  refine uniform_collisionFree ?_
  intro op hop x hx
  rw [outgrown] at hop
  rcases List.mem_append.mp hop with hop | hop
  · exact ⟨65,by decide,equalBlocks_blocks hop x hx⟩
  · rcases List.mem_cons.mp hop with rfl | hop
    · simp [blocksOf] at hx
    · rw [List.mem_singleton.mp hop] at hx
      simp [blocksOf] at hx

theorem equalStore_read {n : ℕ} (hn : 0 < n) :
    (equalStore n).read firstBlock = List.replicate blockSize 65 := by
  have hnum : firstBlock.numBlocks = 1 := rfl
  have hfirst : (equalStore n).blocks firstBlock.path (firstBlock.startBlock+0) =
      some (List.replicate blockSize 65) := if_pos ⟨rfl,hn⟩
  rw [BlockStore.read,hnum]
  simp only [presentRun,hfirst,List.flatten_cons,List.flatten_nil,List.append_nil]

theorem outgrown_diverges {n : ℕ} (h₁ : 2^31 ≤ n) (h₂ : n < 2^32) :
    answers (respond sampleSha512 id) emptyMount (outgrown n) ≠
      answers (referBy BlockStore.write) emptyStore (outgrown n) := by
  have h := equalBlocks_refines h₂
  have hlost := remount_lost sampleUnmounting sampleMounting
    (by rw [equalStore_entries h]; exact h₁) (by rw [equalStore_entries h]; exact h₂) ⟨fileA,0⟩
  intro heq
  rw [outgrown,answers_append,answers_append,equalBlocks_reference (by omega)] at heq
  have htail := List.append_inj_right heq (by rw [answers_length,answers_length])
  generalize final (respond sampleSha512 id) emptyMount (equalBlocks n) = m at hlost htail
  have hcode : readResult (xmpRead id firstBlock
      ⟨remount sampleUnmounting sampleMounting m.ctx,m.backing⟩ (fun _ => 0)) = .ok [] := by
    refine readDedup_absent id firstBlock _ _ (by decide) (by decide) ?_
    rw [lookupPair,Context.lookupByFileBlock]
    exact congrArg (Option.map _) hlost
  have hread := (List.cons.inj (List.cons.inj htail).2).1
  simp only [respond,referBy] at hread
  rw [hcode] at hread
  rw [equalStore_read (by omega)] at hread
  have hdata := congrArg List.length (Except.ok.inj (Result.data.inj hread))
  rw [List.length_nil,List.length_replicate] at hdata
  exact absurd hdata (by decide)

def emptyBeyondEnd : List FsOp :=
  [.create fileA,.write completeEnv ⟨fileA,[],4096,by decide,by decide⟩,.getattr fileA]

/-- Where the size goes up even for a write of nothing, and where counts have
no bound, the reference and the store part. -/
theorem raised_and_unbounded_diverge :
    (CollisionFree sampleSha512 emptyBeyondEnd ∧
      Throughout (respond sampleSha512 id) Regular emptyMount emptyBeyondEnd ∧
      answers (respond sampleSha512 id) emptyMount emptyBeyondEnd ≠
        answers (referBy BlockStore.write) emptyStore emptyBeyondEnd) ∧
    CollisionFree sampleSha512 (outgrown (2^31)) ∧
    Throughout (respond sampleSha512 id) Regular emptyMount (outgrown (2^31)) ∧
    answers (respond sampleSha512 id) emptyMount (outgrown (2^31)) ≠
      answers (referBy BlockStore.write) emptyStore (outgrown (2^31)) := by
  refine ⟨⟨uniform_collisionFree ?_,by decide +kernel,by decide +kernel⟩,
    outgrown_collisionFree _,outgrown_regular _,outgrown_diverges (Nat.le_refl _) (by decide)⟩
  simp [emptyBeyondEnd,Uniform,blocksOf,WriteReq.numBlocks]

end Samples

end ArchivalDedup.BlockRefinement
