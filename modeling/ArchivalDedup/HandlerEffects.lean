import ArchivalDedup.WriteShape
import ArchivalDedup.BlockRefinement

/-!
# What a handler leaves behind

Each result compares the mount before one call with the mount after it, from
every state: what a removal leaves when the underlying call fails, what a
truncation leaves, and what `rename` and an opening with O_TRUNC leave of
metadata that they never look at.
-/

set_option autoImplicit false

namespace ArchivalDedup.HandlerEffects
open ArchivalDedup.FiniteTable ArchivalDedup.ByteMap ArchivalDedup.MetaIndex
open ArchivalDedup.WriteDedup ArchivalDedup.ReadDedup ArchivalDedup.Passthrough
open ArchivalDedup.ReadBlocks ArchivalDedup.ReferenceSafety ArchivalDedup.Content
open ArchivalDedup.Extents ArchivalDedup.MappedHashes ArchivalDedup.SequentialRun
open ArchivalDedup.BlockRefinement ArchivalDedup.Simulation ArchivalDedup.WriteShape
open ArchivalDedup.LoopFrames

section Failures

/-- The index is as it was, and so is every read and every size reported. -/
structure Kept (m m' : Mount) : Prop where
  fileToMaster : m'.ctx.fileToMaster = m.ctx.fileToMaster
  hashToMaster : m'.ctx.hashToMaster = m.ctx.hashToMaster
  fileToSizes : m'.ctx.fileToSizes = m.ctx.fileToSizes
  refcounts : ∀ a, (m'.ctx.cell a).refcount = (m.ctx.cell a).refcount
  freeBlockList : m'.ctx.freeBlockList = m.ctx.freeBlockList
  reads : ∀ qsort r buf, xmpRead qsort r m' buf = xmpRead qsort r m buf
  attrs : ∀ path, xmpGetattr path m' = xmpGetattr path m

theorem kept_refl (m : Mount) : Kept m m :=
  ⟨rfl,rfl,rfl,fun _ => rfl,rfl,fun _ _ _ => rfl,fun _ => rfl⟩

def AtomicOnError (call : Mount → Mount × Except Errno Unit) (m : Mount) : Prop :=
  ∀ err, (call m).2 = .error err → Kept m (call m).1

theorem unlinkIndex_unsized {path : Path} {c : Context} (h : find c.fileToSizes path = none) :
    unlinkIndex path c = c := by
  rw [unlinkIndex,unlinkExtent,h]
  rfl

theorem truncateIndex_above {path : Path} {size : ℕ} {c : Context}
    (h : ∀ ls, find c.fileToSizes path = some ls → ls ≤ size) : truncateIndex path size c = c := by
  have hnone : truncateExtent path size c = none := by
    unfold truncateExtent
    cases hs : find c.fileToSizes path with
    | none => rfl
    | some ls => exact if_neg (Nat.not_lt.mpr (h ls hs))
  rw [truncateIndex,hnone]

theorem truncateIndex_shrunk {path : Path} {size ls : ℕ} {c : Context}
    (h : find c.fileToSizes path = some ls) (hlt : size < ls) :
    find (truncateIndex path size c).fileToSizes path = some size := by
  have hsome : truncateExtent path size c = some (blockCount size,blockCount ls) := by
    simp only [truncateExtent,h,if_pos hlt]
  have hkept : find (removeBlocksDedupBatch path (blockCount size) (blockCount ls) c).fileToSizes
      path = some ls := by rw [removeBatch_sizes,h]
  rw [truncateIndex,hsome]
  simp only [shrinkSize,hkept,if_pos hlt,find_insert,if_true]

theorem unlink_atomic_iff (sys : Option Errno) (path : Path) (m : Mount) :
    AtomicOnError (xmpUnlink sys path) m ↔
      sys = none ∨ find m.ctx.fileToSizes path = none := by
  cases sys with
  | none =>
    refine iff_of_true ?_ (Or.inl rfl)
    intro err herr
    cases herr
  | some err =>
    constructor
    · intro h
      have hsizes := (h err rfl).fileToSizes
      have hgone : find (unlinkIndex path m.ctx).fileToSizes path = none := by
        rw [unlinkIndex_sizes,if_pos rfl]
      refine Or.inr ?_
      rw [←hsizes]
      exact hgone
    · rintro (h | h)
      · cases h
      · intro _ _
        change Kept m ⟨unlinkIndex path m.ctx,m.backing⟩
        rw [unlinkIndex_unsized h]
        exact kept_refl m

theorem truncate_atomic_iff (sys : Option Errno) (path : Path) (size : ℤ) (m : Mount) :
    AtomicOnError (xmpTruncate sys path size) m ↔ (size < 0 ∨ size % blockSize ≠ 0) ∨ sys = none ∨
      ∀ ls, find m.ctx.fileToSizes path = some ls → (ls : ℤ) ≤ size := by
  by_cases hrej : size < 0 ∨ size % blockSize ≠ 0
  · refine iff_of_true ?_ (Or.inl hrej)
    intro err _
    unfold xmpTruncate
    rw [if_pos hrej]
    exact kept_refl m
  · have hpos : 0 ≤ size := by
      by_contra hneg
      exact hrej (Or.inl (by omega))
    cases sys with
    | none =>
      refine iff_of_true ?_ (Or.inr (Or.inl rfl))
      intro err herr
      rw [xmpTruncate,if_neg hrej] at herr
      cases herr
    | some err =>
      have hcall : xmpTruncate (some err) path size m =
          (⟨truncateIndex path size.toNat m.ctx,m.backing⟩,.error err) := by
        rw [xmpTruncate,if_neg hrej]
      constructor
      · intro h
        have hsizes : (truncateIndex path size.toNat m.ctx).fileToSizes = m.ctx.fileToSizes := by
          have := (h err (by rw [hcall])).fileToSizes
          rwa [hcall] at this
        refine Or.inr (Or.inr ?_)
        intro ls hls
        by_contra hlt
        have hnew : find (truncateIndex path size.toNat m.ctx).fileToSizes path =
            some size.toNat := truncateIndex_shrunk hls (by omega)
        rw [hsizes,hls] at hnew
        have : ls = size.toNat := Option.some.inj hnew
        omega
      · rintro (h | h | h)
        · exact absurd h hrej
        · cases h
        · intro _ _
          have hsame : truncateIndex path size.toNat m.ctx = m.ctx :=
            truncateIndex_above (fun ls hls => by
              have := h ls hls
              omega)
          rw [hcall,hsame]
          exact kept_refl m

/-- The metadata is gone before the underlying call is made: a failure is
harmless when there was none to remove. -/
theorem failed_removal_keeps_iff (sys : Option Errno) (path : Path) (m : Mount) :
    (AtomicOnError (xmpUnlink sys path) m ↔ sys = none ∨ find m.ctx.fileToSizes path = none) ∧
    ∀ size : ℤ, AtomicOnError (xmpTruncate sys path size) m ↔
      (size < 0 ∨ size % blockSize ≠ 0) ∨ sys = none ∨
        ∀ ls, find m.ctx.fileToSizes path = some ls → (ls : ℤ) ≤ size :=
  ⟨unlink_atomic_iff sys path m,fun size => truncate_atomic_iff sys path size m⟩

def oneBlockFile : List FsOp :=
  [.create fileA,.write completeEnv (fillReq fileA 65 0 1 one_block_fits block0_ends)]

def oneBlockMount : Mount := final (respond sampleSha512 id) emptyMount oneBlockFile

theorem oneBlock_size : xmpGetattr fileA oneBlockMount = .ok 4096 := by decide +kernel

/-- EPERM from the underlying call, after the file has lost its block. -/
theorem failed_removal_loses_block :
    ¬ AtomicOnError (xmpUnlink (some (.other 1)) fileA) oneBlockMount ∧
    ¬ AtomicOnError (xmpTruncate (some (.other 1)) fileA 0) oneBlockMount := by
  refine ⟨?_,?_⟩
  · intro h
    have hattr := (h (.other 1) rfl).attrs fileA
    have hgone : xmpGetattr fileA (xmpUnlink (some (.other 1)) fileA oneBlockMount).1 = .ok 0 := by
      decide +kernel
    rw [hgone,oneBlock_size] at hattr
    cases hattr
  · intro h
    have hattr := (h (.other 1) rfl).attrs fileA
    have hgone : xmpGetattr fileA (xmpTruncate (some (.other 1)) fileA 0 oneBlockMount).1 =
        .ok 0 := by decide +kernel
    rw [hgone,oneBlock_size] at hattr
    cases hattr

end Failures

section Truncation

theorem truncateIndex_blocks {path : Path} {size ls : ℕ} {c : Context}
    (h : find c.fileToSizes path = some ls) (k : BlockIndice) :
    find (truncateIndex path size c).fileToMaster k =
      if k.path = path ∧ blockCount size ≤ k.offset ∧ k.offset < blockCount ls then none
      else find c.fileToMaster k := by
  by_cases hlt : size < ls
  · have hsome : truncateExtent path size c = some (blockCount size,blockCount ls) := by
      simp only [truncateExtent,h,if_pos hlt]
    have hkeep : ∀ d : Context, (shrinkSize path size d).fileToMaster = d.fileToMaster := by
      intro d
      unfold shrinkSize
      split
      · rfl
      · split_ifs <;> rfl
    rw [truncateIndex,hsome]
    dsimp only
    rw [hkeep]
    refine (removeBlocks_find path _ _ c [] k).trans ?_
    have hiff : (k.path = path ∧ blockCount size ≤ k.offset ∧
        k.offset < blockCount size+(blockCount ls-blockCount size)) ↔
        (k.path = path ∧ blockCount size ≤ k.offset ∧ k.offset < blockCount ls) := by
      constructor <;> rintro ⟨h₁,h₂,h₃⟩ <;> exact ⟨h₁,h₂,by omega⟩
    simp only [hiff]
  · have hle : blockCount ls ≤ blockCount size :=
      Nat.div_le_div_right (by omega)
    have hsame : truncateIndex path size c = c := truncateIndex_above (fun l hl => by
      rw [h] at hl
      have : ls = l := Option.some.inj hl
      omega)
    rw [hsame,if_neg (by omega)]

theorem truncateIndex_data (path : Path) (size : ℕ) (c : Context) :
    (∀ a, ((truncateIndex path size c).cell a).masterBlockIndex = (c.cell a).masterBlockIndex) ∧
      (truncateIndex path size c).toMasterFile = c.toMasterFile := by
  have hkeep : ∀ d : Context, (shrinkSize path size d).cell = d.cell ∧
      (shrinkSize path size d).toMasterFile = d.toMasterFile := by
    intro d
    unfold shrinkSize
    split
    · exact ⟨rfl,rfl⟩
    · split_ifs <;> exact ⟨rfl,rfl⟩
  unfold truncateIndex
  split
  · exact ⟨fun _ => rfl,rfl⟩
  · refine ⟨?_,?_⟩
    · intro a
      rw [(hkeep _).1]
      exact (frame_removeBlocks path _ _ c []).slot a
    · rw [(hkeep _).2]
      exact (frame_removeBlocks path _ _ c []).toMasterFile

def blockRead (path : Path) (b : ℕ) : ReadReq := ⟨path,blockSize,b*blockSize,by decide⟩

/-- A file of size `ls` before has size `size` now. -/
structure Resized (path : Path) (ls size : ℕ) (m m' : Mount) : Prop where
  attr : xmpGetattr path m' = .ok size
  below : ∀ qsort r buf, r.path = path → r.offset+r.size ≤ min ls size →
    xmpRead qsort r m' buf = xmpRead qsort r m buf
  zeros : ∀ qsort b buf, ls ≤ b*blockSize → b*blockSize < size →
    readResult (xmpRead qsort (blockRead path b) m' buf) = .ok (List.replicate blockSize 0)
  unmapped : ∀ b, size ≤ b*blockSize → find m'.ctx.fileToMaster ⟨path,b⟩ = none

theorem truncate_below {path : Path} {size ls : ℕ} {c : Context}
    (h : find c.fileToSizes path = some ls) (qsort : List BlockPair → List BlockPair)
    (r : ReadReq) (buf : Buffer) (hr : r.offset+r.size ≤ size) :
    readDedup qsort r (truncateIndex path size c) buf = readDedup qsort r c buf := by
  obtain ⟨hslots,hfile⟩ := truncateIndex_data path size c
  refine readDedup_congr qsort rfl hfile ?_ buf
  intro i hi
  have hin : r.startBlock+i < blockCount size := by
    refine (lt_blockCount _ _).mpr ?_
    calc (r.startBlock+i)*blockSize < (r.startBlock+r.numBlocks)*blockSize :=
          Nat.mul_lt_mul_of_pos_right (Nat.add_lt_add_left hi _) blockSize_pos
      _ = r.offset/blockSize*blockSize+r.size/blockSize*blockSize := Nat.add_mul ..
      _ ≤ r.offset+r.size := Nat.add_le_add (Nat.div_mul_le_self ..) (Nat.div_mul_le_self ..)
      _ ≤ size := hr
  have hfind : find (truncateIndex path size c).fileToMaster ⟨r.path,r.startBlock+i⟩ =
      find c.fileToMaster ⟨r.path,r.startBlock+i⟩ := by
    rw [truncateIndex_blocks h,if_neg]
    rintro ⟨_,hle,_⟩
    exact Nat.not_le.mpr hin hle
  simp only [lookupPair,Context.lookupByFileBlock,hfind,hslots]

end Truncation

section Renaming

/-- How many blocks of a path are mapped to an object. -/
def holdings (c : Context) (path : Path) (a : Ptr) : ℕ :=
  c.fileToMaster.entries.countP (fun e => e.1.path = path ∧ e.2 = a)

theorem holdings_eq_zero (c : Context) (path : Path) :
    (∀ a, holdings c path a = 0) ↔ ∀ b, find c.fileToMaster ⟨path,b⟩ = none := by
  constructor
  · intro h b
    cases hb : find c.fileToMaster ⟨path,b⟩ with
    | none => rfl
    | some a =>
      have hmem := (mem_entries_iff c.fileToMaster ⟨path,b⟩ a).mpr hb
      have := List.countP_eq_zero.mp (h a) _ hmem
      simp at this
  · intro h a
    refine List.countP_eq_zero.mpr ?_
    rintro ⟨k,x⟩ hmem
    have hk := (mem_entries_iff c.fileToMaster k x).mp hmem
    simp only [decide_eq_true_eq,not_and]
    rintro rfl _
    rw [h k.offset] at hk
    cases hk

/-- What stood under `src` stands under `dst`, nothing is left under `src`, and
the references of the old `dst` are gone. -/
structure Carried (src dst : Path) (m m' : Mount) : Prop where
  reads : ∀ qsort size offset fits buf, xmpRead qsort ⟨dst,size,offset,fits⟩ m' buf =
    xmpRead qsort ⟨src,size,offset,fits⟩ m buf
  attr : xmpGetattr dst m' = xmpGetattr src m
  unmapped : ∀ b, find m'.ctx.fileToMaster ⟨src,b⟩ = none
  unsized : find m'.ctx.fileToSizes src = none
  released : ∀ a, (m'.ctx.cell a).refcount+holdings m.ctx dst a = (m.ctx.cell a).refcount

theorem xmpRename_ok {sys : Option Errno} {src dst : Path} {flags : ℕ} {m : Mount}
    (h : (xmpRename sys src dst flags m).2 = .ok ()) : ∃ len, m.backing src = some len ∧
      (xmpRename sys src dst flags m).1 =
        ⟨m.ctx,Function.update (Function.update m.backing src none) dst (some len)⟩ := by
  unfold xmpRename at h ⊢
  split_ifs at h ⊢
  cases sys with
  | some err => cases h
  | none =>
    cases hb : m.backing src with
    | none =>
      rw [hb] at h
      cases h
    | some len => exact ⟨len,rfl,rfl⟩

/-- A rename that returns 0 carries the data over when neither name has any: the
index is not touched, only the backing file moves. -/
theorem rename_carries_iff (sys : Option Errno) (src dst : Path) (m : Mount)
    (h : (xmpRename sys src dst 0 m).2 = .ok ()) :
    Carried src dst m (xmpRename sys src dst 0 m).1 ↔
      (∀ b, find m.ctx.fileToMaster ⟨src,b⟩ = none) ∧ find m.ctx.fileToSizes src = none ∧
      (∀ b, find m.ctx.fileToMaster ⟨dst,b⟩ = none) ∧
      (find m.ctx.fileToSizes dst = none ∨ find m.ctx.fileToSizes dst = m.backing src) := by
  obtain ⟨len,hlen,hcall⟩ := xmpRename_ok h
  have hsrc : xmpGetattr src m = .ok ((find m.ctx.fileToSizes src).getD len) := by
    simp only [xmpGetattr,hlen]
  have hdst : xmpGetattr dst ⟨m.ctx,Function.update (Function.update m.backing src none) dst
      (some len)⟩ = .ok ((find m.ctx.fileToSizes dst).getD len) := by
    simp only [xmpGetattr,Function.update_self]
  rw [hcall]
  constructor
  · intro hc
    have hunsized := hc.unsized
    dsimp only at hunsized
    refine ⟨hc.unmapped,hunsized,?_,?_⟩
    · refine (holdings_eq_zero m.ctx dst).mp ?_
      intro a
      have := hc.released a
      dsimp only at this
      omega
    · have hattr := hc.attr
      rw [hsrc,hdst,hunsized] at hattr
      cases hd : find m.ctx.fileToSizes dst with
      | none => exact Or.inl rfl
      | some n =>
        rw [hd] at hattr
        have : n = len := Except.ok.inj hattr
        exact Or.inr (by rw [hlen,this])
  · rintro ⟨hs,hsize,hd,hdsize⟩
    refine ⟨?_,?_,hs,hsize,?_⟩
    · intro qsort size offset fits buf
      change readDedup qsort ⟨dst,size,offset,fits⟩ m.ctx buf =
        readDedup qsort ⟨src,size,offset,fits⟩ m.ctx buf
      apply readDedup_congr
      · rfl
      · rfl
      · intro i _
        simp only [lookupPair,Context.lookupByFileBlock,hs,hd]
    · rw [hsrc,hdst,hsize]
      rcases hdsize with hz | hz
      · rw [hz]
      · rw [hz,hlen]
        rfl
    · intro a
      rw [(holdings_eq_zero m.ctx dst).mpr hd a]
      rfl

def unwrittenMount : Mount := final (respond sampleSha512 id) emptyMount [.create fileA]

theorem rename_carries_unwritten : (xmpRename none fileA fileB 0 unwrittenMount).2 = .ok () ∧
    Carried fileA fileB unwrittenMount (xmpRename none fileA fileB 0 unwrittenMount).1 := by
  have hok : (xmpRename none fileA fileB 0 unwrittenMount).2 = .ok () := by decide
  exact ⟨hok,(rename_carries_iff none fileA fileB unwrittenMount hok).mpr
    ⟨fun _ => rfl,rfl,fun _ => rfl,Or.inl rfl⟩⟩

/-- The block stays under the old name: the new one has size 0. -/
theorem renamed_file_is_empty : fileA ≠ fileB ∧
    (xmpRename none fileA fileB 0 oneBlockMount).2 = .ok () ∧
    ¬ Carried fileA fileB oneBlockMount (xmpRename none fileA fileB 0 oneBlockMount).1 := by
  refine ⟨by decide,by decide +kernel,?_⟩
  intro h
  have hattr : xmpGetattr fileB (xmpRename none fileA fileB 0 oneBlockMount).1 = .ok 0 := by
    decide +kernel
  have hsize := hattr.symm.trans h.attr
  rw [oneBlock_size] at hsize
  cases hsize

end Renaming

section Opening

/-- The index is as after a truncation to zero, and a completed write at the
start makes a file of its own length. -/
structure Emptied (path : Path) (m m' : Mount) : Prop where
  fileToSizes : ∀ p, find m'.ctx.fileToSizes p =
    find (xmpTruncate none path 0 m).1.ctx.fileToSizes p
  fileToMaster : ∀ k, find m'.ctx.fileToMaster k =
    find (xmpTruncate none path 0 m).1.ctx.fileToMaster k
  refcounts : ∀ a, (m'.ctx.cell a).refcount =
    ((xmpTruncate none path 0 m).1.ctx.cell a).refcount
  attr : xmpGetattr path m' = .ok 0
  unmapped : ∀ b, find m'.ctx.fileToMaster ⟨path,b⟩ = none
  rewritten : ∀ sha512 env r, r.path = path → r.offset = 0 → Completes env r →
    xmpGetattr path (xmpWrite sha512 env r m').1 = .ok r.buf.length ∧
    ∀ b, find (xmpWrite sha512 env r m').1.ctx.fileToMaster ⟨path,b⟩ ≠ none ↔ b < r.numBlocks

theorem rewritten_empty {sha512 : List UInt8 → Hash} {env : Env} {r : WriteReq} {m : Mount}
    (hc : Completes env r) (ho : r.offset = 0) (hb : m.backing r.path = some 0)
    (hs : find m.ctx.fileToSizes r.path = none ∨ find m.ctx.fileToSizes r.path = some 0)
    (hf : ∀ b, find m.ctx.fileToMaster ⟨r.path,b⟩ = none) :
    xmpGetattr r.path (xmpWrite sha512 env r m).1 = .ok r.buf.length ∧
    ∀ b, find (xmpWrite sha512 env r m).1.ctx.fileToMaster ⟨r.path,b⟩ ≠ none ↔
      b < r.numBlocks := by
  have hstart : r.startBlock = 0 := by simp [WriteReq.startBlock,ho]
  have hend : r.newEnd = r.buf.length := by
    rw [WriteReq.newEnd,hstart,Nat.zero_add]
    exact Nat.div_mul_cancel (Nat.dvd_of_mod_eq_zero hc.aligned)
  have hzero : (find m.ctx.fileToSizes r.path).getD 0 = 0 := by
    rcases hs with h | h <;> rw [h] <;> rfl
  refine ⟨?_,?_⟩
  · have hsize : find (writeDedup sha512 env r m.ctx).1.fileToSizes r.path =
        some r.buf.length := by
      rw [writeDedup_sizes hc,if_pos rfl,hzero,hend,Nat.zero_max]
    simp only [xmpGetattr,xmpWrite,hb,hsize,Option.getD_some]
  · intro b
    dsimp only [xmpWrite]
    rw [ne_eq,writeDedup_keys hc,hf b,hstart]
    simp

theorem emptied_iff {path : Path} {m m' : Mount} (hctx : m'.ctx = m.ctx)
    (hb : m'.backing path = some 0) : Emptied path m m' ↔
      (find m.ctx.fileToSizes path = none ∨ find m.ctx.fileToSizes path = some 0) ∧
        ∀ b, find m.ctx.fileToMaster ⟨path,b⟩ = none := by
  have hattr : xmpGetattr path m' = .ok ((find m.ctx.fileToSizes path).getD 0) := by
    simp only [xmpGetattr,hb,hctx]
  constructor
  · intro h
    refine ⟨?_,?_⟩
    · have hsize := hattr.symm.trans h.attr
      cases hs : find m.ctx.fileToSizes path with
      | none => exact Or.inl rfl
      | some n =>
        rw [hs] at hsize
        exact Or.inr (congrArg some (Except.ok.inj hsize))
    · intro b
      rw [←hctx]
      exact h.unmapped b
  · rintro ⟨hs,hf⟩
    have hsame : (xmpTruncate none path 0 m).1.ctx = m.ctx := by
      change truncateIndex path 0 m.ctx = m.ctx
      refine truncateIndex_above ?_
      intro ls hls
      rcases hs with h | h <;> rw [h] at hls
      · cases hls
      · exact (Option.some.inj hls).ge
    refine ⟨?_,?_,?_,?_,?_,?_⟩
    · intro p
      rw [hsame,hctx]
    · intro k
      rw [hsame,hctx]
    · intro a
      rw [hsame,hctx]
    · rw [hattr]
      rcases hs with h | h <;> rw [h] <;> rfl
    · intro b
      rw [hctx]
      exact hf b
    · rintro sha512 env r rfl ho hc
      exact rewritten_empty hc ho hb (by rwa [hctx]) (by rwa [hctx])

theorem xmpOpen_trunc {sys : Option Errno} {path : Path} {m : Mount}
    (h : (xmpOpen sys true path m).2 = .ok ()) :
    (xmpOpen sys true path m).1.ctx = m.ctx ∧
      (xmpOpen sys true path m).1.backing path = some 0 := by
  unfold xmpOpen at h ⊢
  cases sys with
  | some err => cases h
  | none =>
    cases hb : m.backing path with
    | none =>
      rw [hb] at h
      cases h
    | some len => exact ⟨rfl,Function.update_self ..⟩

theorem xmpCreateFlags_trunc {sys : Option Errno} {path : Path} {m : Mount}
    (h : (xmpCreateFlags sys true path m).2 = .ok ()) :
    (xmpCreateFlags sys true path m).1.ctx = m.ctx ∧
      (xmpCreateFlags sys true path m).1.backing path = some 0 := by
  unfold xmpCreateFlags at h ⊢
  cases sys with
  | some err => cases h
  | none => exact ⟨rfl,Function.update_self ..⟩

/-- An opening or a creation with O_TRUNC empties a file that had nothing in
the index, and no other. -/
theorem open_trunc_empties_iff (sys : Option Errno) (path : Path) (m : Mount) :
    ((xmpOpen sys true path m).2 = .ok () → (Emptied path m (xmpOpen sys true path m).1 ↔
      (find m.ctx.fileToSizes path = none ∨ find m.ctx.fileToSizes path = some 0) ∧
        ∀ b, find m.ctx.fileToMaster ⟨path,b⟩ = none)) ∧
    ((xmpCreateFlags sys true path m).2 = .ok () →
      (Emptied path m (xmpCreateFlags sys true path m).1 ↔
        (find m.ctx.fileToSizes path = none ∨ find m.ctx.fileToSizes path = some 0) ∧
          ∀ b, find m.ctx.fileToMaster ⟨path,b⟩ = none)) := by
  refine ⟨?_,?_⟩
  · intro h
    exact emptied_iff (xmpOpen_trunc h).1 (xmpOpen_trunc h).2
  · intro h
    exact emptied_iff (xmpCreateFlags_trunc h).1 (xmpCreateFlags_trunc h).2

theorem open_trunc_empties_unwritten :
    (xmpOpen none true fileA unwrittenMount).2 = .ok () ∧
    Emptied fileA unwrittenMount (xmpOpen none true fileA unwrittenMount).1 ∧
    (xmpCreateFlags none true fileA unwrittenMount).2 = .ok () ∧
    Emptied fileA unwrittenMount (xmpCreateFlags none true fileA unwrittenMount).1 := by
  have hopen : (xmpOpen none true fileA unwrittenMount).2 = .ok () := by decide
  have hcreate : (xmpCreateFlags none true fileA unwrittenMount).2 = .ok () := by decide
  obtain ⟨h₁,h₂⟩ := open_trunc_empties_iff none fileA unwrittenMount
  exact ⟨hopen,(h₁ hopen).mpr ⟨Or.inl rfl,fun _ => rfl⟩,
    hcreate,(h₂ hcreate).mpr ⟨Or.inl rfl,fun _ => rfl⟩⟩

/-- The block survives both calls, and the size of the file with it. -/
theorem opened_file_keeps_block :
    (xmpOpen none true fileA oneBlockMount).2 = .ok () ∧
    ¬ Emptied fileA oneBlockMount (xmpOpen none true fileA oneBlockMount).1 ∧
    (xmpCreateFlags none true fileA oneBlockMount).2 = .ok () ∧
    ¬ Emptied fileA oneBlockMount (xmpCreateFlags none true fileA oneBlockMount).1 := by
  refine ⟨by decide +kernel,?_,by decide +kernel,?_⟩
  · intro h
    have hattr : xmpGetattr fileA (xmpOpen none true fileA oneBlockMount).1 = .ok 4096 := by
      decide +kernel
    have hsize := hattr.symm.trans h.attr
    cases hsize
  · intro h
    have hattr : xmpGetattr fileA (xmpCreateFlags none true fileA oneBlockMount).1 =
        .ok 4096 := by decide +kernel
    have hsize := hattr.symm.trans h.attr
    cases hsize

end Opening

end ArchivalDedup.HandlerEffects
