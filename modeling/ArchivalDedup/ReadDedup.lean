import ArchivalDedup.Library.ConsecutiveRun
import ArchivalDedup.MetaIndex

/-!
# The phases of `read_dedup`

Slot numbers are copied under the read lock; sorting, grouping and the
`pread`s run without any lock. The output buffer is the caller's memory: a
read changes the blocks it places and nothing else.
-/

set_option autoImplicit false

namespace ArchivalDedup.ReadDedup
open ArchivalDedup.ByteMap ArchivalDedup.ConsecutiveRun ArchivalDedup.MetaIndex

structure BlockPair where
  logicalIdx : ℕ
  masterBlockIndex : ℕ
  deriving DecidableEq

/-- A request as the kernel hands it over: the byte count fits the `int` that
is returned. -/
structure ReadReq where
  path : Path
  size : ℕ
  offset : ℕ
  fits : size < 2^31
  deriving DecidableEq

def ReadReq.numBlocks (r : ReadReq) : ℕ := r.size/blockSize

def ReadReq.startBlock (r : ReadReq) : ℕ := r.offset/blockSize

abbrev Buffer := ℕ → UInt8

def lookupPair (r : ReadReq) (c : Context) (i : ℕ) : Option BlockPair :=
  (c.lookupByFileBlock r.path (r.startBlock+i)).map (fun info => ⟨i,(c.cell info).masterBlockIndex⟩)

/-- Phase 1: the first missing block is taken for the end of the file. -/
def lookupPairs (r : ReadReq) (c : Context) : ℕ → ℕ → List BlockPair
  | 0, _ => []
  | n+1, i =>
    match lookupPair r c i with
    | none => []
    | some p => p::lookupPairs r c n (i+1)

def insertBack (tmp : BlockPair) : List BlockPair → List BlockPair
  | [] => [tmp]
  | x::xs =>
    if x.masterBlockIndex ≤ tmp.masterBlockIndex then tmp::x::xs else x::insertBack tmp xs

def insertionSort (pairs : List BlockPair) : List BlockPair :=
  (pairs.foldl (fun acc tmp => insertBack tmp acc) []).reverse

def insertionSortThreshold : ℕ := 32

/-- Phase 2. `qsort` may order equal keys in any way. -/
def sortPairs (qsort : List BlockPair → List BlockPair) (pairs : List BlockPair) : List BlockPair :=
  if pairs.length ≤ insertionSortThreshold then insertionSort pairs else qsort pairs

/-- Phase 3: the length of the group that starts the remaining pairs. -/
def groupLen : List BlockPair → ℕ
  | [] => 0
  | p::ps => consecutive (fun q => some q.masterBlockIndex) p.masterBlockIndex ps+1

/-- `pread` returns the bytes that lie inside the file. -/
def pread (f : MasterFile) (off len : ℕ) : List UInt8 :=
  slice f.bytes off (min len (f.fileSize-off))

/-- Phase 5: blocks are copied out of the shared buffer one by one. -/
def scatter (masterBuf : List UInt8) (minMaster : ℕ) : List BlockPair → Buffer → Buffer
  | [], buf => buf
  | q::qs, buf =>
    scatter masterBuf minMaster qs (splice buf (q.logicalIdx*blockSize)
      ((masterBuf.drop ((q.masterBlockIndex-minMaster)*blockSize)).take blockSize))

/-- Phase 4: one `pread` per group, straight into the output for a group of one,
for slots below 2^52. `WordRead` has the products that wrap. -/
def readGroup (f : MasterFile) (group : List BlockPair) (buf : Buffer) : Buffer × Option Errno :=
  match group with
  | [] => (buf,none)
  | [p] =>
    let res := pread f (p.masterBlockIndex*blockSize) blockSize
    (splice buf (p.logicalIdx*blockSize) res,if res.length = blockSize then none else some .eio)
  | p::q::ps =>
    let size := (p::q::ps).length*blockSize
    let res := pread f (p.masterBlockIndex*blockSize) size
    if res.length = size then (scatter res p.masterBlockIndex (p::q::ps) buf,none)
    else (buf,some .eio)

def readGroups (f : MasterFile) : ℕ → List BlockPair → Buffer → Buffer × Option Errno
  | 0, _, buf => (buf,none)
  | fuel+1, rest, buf =>
    if rest = [] then (buf,none)
    else
      match readGroup f (rest.take (groupLen rest)) buf with
      | (buf',none) => readGroups f fuel (rest.drop (groupLen rest)) buf'
      | (buf',some err) => (buf',some err)

def readPairs (qsort : List BlockPair → List BlockPair) (f : MasterFile) (pairs : List BlockPair)
    (buf : Buffer) : Buffer × Except Errno ℕ :=
  let t := readGroups f pairs.length (sortPairs qsort pairs) buf
  match t.2 with
  | some err => (t.1,.error err)
  | none => (t.1,.ok (pairs.length*blockSize))

def readDedup (qsort : List BlockPair → List BlockPair) (r : ReadReq) (c : Context) (buf : Buffer) :
    Buffer × Except Errno ℕ :=
  if r.numBlocks = 0 ∨ r.size % blockSize ≠ 0 then (buf,.error .eopnotsupp)
  else
    let pairs := lookupPairs r c r.numBlocks 0
    if pairs = [] then (buf,.ok 0) else readPairs qsort c.toMasterFile pairs buf

end ArchivalDedup.ReadDedup
