import ArchivalDedup.WriteDedup
import ArchivalDedup.ReadDedup

/-!
# The FUSE handlers that touch the index

`unlink` and `truncate` read the logical size, remove blocks, change the size
and call the backing file system in separate critical sections; each is a
function of its own. `backing` is the length of the file that the underlying
file system keeps under a path, if there is one: block data never goes there.
-/

set_option autoImplicit false

namespace ArchivalDedup.Passthrough
open ArchivalDedup.FiniteTable ArchivalDedup.MetaIndex ArchivalDedup.WriteDedup
open ArchivalDedup.ReadDedup

def removeBlock (path : Path) (blockIndex : ℕ) (c : Context) (slots : List ℕ) : Context × List ℕ :=
  match c.lookupByFileBlock path blockIndex with
  | none => (c,slots)
  | some info => (c.removeFileBlock path blockIndex).dropReference slots info

/-- The critical section of `remove_blocks_dedup_batch`: `n` blocks from `i`. -/
def removeBlocks (path : Path) : ℕ → ℕ → Context → List ℕ → Context × List ℕ
  | 0, _, c, slots => (c,slots)
  | n+1, i, c, slots =>
    let t := removeBlock path i c slots
    removeBlocks path n (i+1) t.1 t.2

def removeBlocksDedupBatch (path : Path) (startBlock endBlock : ℕ) (c : Context) : Context :=
  let t := removeBlocks path (endBlock-startBlock) startBlock c []
  t.1.releaseSlots t.2

def blockCount (size : ℕ) : ℕ := (size+blockSize-1)/blockSize

theorem blockCount_mul (n : ℕ) : blockCount (n*blockSize) = n := by
  unfold blockCount blockSize
  omega

/-- First section of `xmp_unlink`: how many blocks to release, if any. -/
def unlinkExtent (path : Path) (c : Context) : Option ℕ :=
  (find c.fileToSizes path).map blockCount

def dropSize (path : Path) (c : Context) : Context :=
  { c with fileToSizes := c.fileToSizes.erase path }

/-- First section of `xmp_truncate`: the block range to release, if any. -/
def truncateExtent (path : Path) (size : ℕ) (c : Context) : Option (ℕ × ℕ) :=
  match find c.fileToSizes path with
  | none => none
  | some logicalSize =>
    if size < logicalSize then some (blockCount size,blockCount logicalSize) else none

def shrinkSize (path : Path) (size : ℕ) (c : Context) : Context :=
  match find c.fileToSizes path with
  | none => c
  | some ls =>
    if size < ls then { c with fileToSizes := c.fileToSizes.insert path size } else c

structure Mount where
  ctx : Context
  backing : Path → Option ℕ

def emptyMount : Mount := ⟨emptyContext,fun _ => none⟩

def unlinkIndex (path : Path) (c : Context) : Context :=
  match unlinkExtent path c with
  | none => c
  | some numBlocks => dropSize path (removeBlocksDedupBatch path 0 numBlocks c)

/-- `sys` is what the underlying `unlink` reports. -/
def xmpUnlink (sys : Option Errno) (path : Path) (m : Mount) : Mount × Except Errno Unit :=
  let c := unlinkIndex path m.ctx
  match sys with
  | some err => (⟨c,m.backing⟩,.error err)
  | none => (⟨c,Function.update m.backing path none⟩,.ok ())

def truncateIndex (path : Path) (size : ℕ) (c : Context) : Context :=
  match truncateExtent path size c with
  | none => c
  | some (newBlockCount,oldBlockCount) =>
      shrinkSize path size (removeBlocksDedupBatch path newBlockCount oldBlockCount c)

/-- `size` is an `off_t`; `sys` is what `truncate` or `ftruncate` reports. -/
def xmpTruncate (sys : Option Errno) (path : Path) (size : ℤ) (m : Mount) :
    Mount × Except Errno Unit :=
  if size < 0 ∨ size % blockSize ≠ 0 then (m,.error .eopnotsupp)
  else
    let c := truncateIndex path size.toNat m.ctx
    match sys with
    | some err => (⟨c,m.backing⟩,.error err)
    | none => (⟨c,Function.update m.backing path (some size.toNat)⟩,.ok ())

/-- `lstat` fails on a missing file (ENOENT is 2); otherwise the size on
record, if there is one, replaces the length of the backing file. -/
def xmpGetattr (path : Path) (m : Mount) : Except Errno ℕ :=
  match m.backing path with
  | none => .error (.other 2)
  | some len => .ok ((find m.ctx.fileToSizes path).getD len)

/-- Creation without truncation: an existing backing file stays as it is. -/
def xmpCreate (path : Path) (m : Mount) : Mount :=
  { m with backing := Function.update m.backing path (some ((m.backing path).getD 0)) }

/-- `rename` moves the backing file over whatever stood under the new name; it
fails when there is none under the old one. -/
def xmpRename (sys : Option Errno) (src dst : Path) (flags : ℕ) (m : Mount) :
    Mount × Except Errno Unit :=
  if flags ≠ 0 then (m,.error .einval)
  else
    match sys, m.backing src with
    | some err, _ => (m,.error err)
    | none, none => (m,.error (.other 2))
    | none, some len =>
      (⟨m.ctx,Function.update (Function.update m.backing src none) dst (some len)⟩,.ok ())

/-- `open(path, fi->flags)`; `trunc` is O_TRUNC. -/
def xmpOpen (sys : Option Errno) (trunc : Bool) (path : Path) (m : Mount) :
    Mount × Except Errno Unit :=
  match sys, m.backing path with
  | some err, _ => (m,.error err)
  | none, none => (m,.error (.other 2))
  | none, some len =>
    (⟨m.ctx,Function.update m.backing path (some (if trunc then 0 else len))⟩,.ok ())

/-- `open(path, fi->flags, mode)` with O_CREAT; `xmpCreate` is the case that
succeeds without O_TRUNC. -/
def xmpCreateFlags (sys : Option Errno) (trunc : Bool) (path : Path) (m : Mount) :
    Mount × Except Errno Unit :=
  match sys with
  | some err => (m,.error err)
  | none =>
    (⟨m.ctx,Function.update m.backing path
      (some (if trunc then 0 else (m.backing path).getD 0))⟩,.ok ())

def xmpWrite (sha512 : List UInt8 → Hash) (env : Env) (r : WriteReq) (m : Mount) :
    Mount × Except Errno ℕ :=
  let t := writeDedup sha512 env r m.ctx
  (⟨t.1,m.backing⟩,t.2)

def xmpRead (qsort : List BlockPair → List BlockPair) (r : ReadReq) (m : Mount) (buf : Buffer) :
    Buffer × Except Errno ℕ :=
  readDedup qsort r m.ctx buf

end ArchivalDedup.Passthrough
