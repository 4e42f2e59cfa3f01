import Mathlib.Algebra.Order.Ring.Nat
import Mathlib.Data.Finset.Basic
import Mathlib.Logic.Function.Basic
import ArchivalDedup.Library.FiniteTable
import ArchivalDedup.Library.ByteMap

/-!
# The metadata index, the heap of `MasterInfo` objects and the master file

`Index` holds the two tables of pointers, the free list and the logical
sizes. The `MasterInfo` objects live in a heap of their own: `cell` keeps the
last contents of every address, `live` the addresses that are allocated and
not freed. Nothing stops the allocator from handing a freed address out again.
The reference counter has 32 bits and wraps.
-/

set_option autoImplicit false

namespace ArchivalDedup.MetaIndex
open ArchivalDedup.FiniteTable ArchivalDedup.ByteMap

def blockSize : ℕ := 4096

def hashSize : ℕ := 64

theorem blockSize_pos : 0 < blockSize := by decide

structure Hash where
  bytes : List UInt8
  length_bytes : bytes.length = hashSize
  deriving DecidableEq

instance : Inhabited Hash := ⟨⟨List.replicate hashSize 0,List.length_replicate⟩⟩

/-- A C string. Its encoding in a table file carries an `int` length, which
no path that the kernel hands over comes near. -/
structure Path where
  chars : List UInt8
  noNul : 0 ∉ chars
  fits : chars.length+13 < 2^31
  deriving DecidableEq

abbrev Ptr := ℕ

@[ext] structure MasterInfo where
  hash : Hash
  masterBlockIndex : ℕ
  refcount : ℕ
  deriving DecidableEq, Inhabited

structure BlockIndice where
  path : Path
  offset : ℕ
  deriving DecidableEq

structure Index where
  hashToMaster : Table Hash Ptr
  fileToMaster : Table BlockIndice Ptr
  freeBlockList : List ℕ
  fileToSizes : Table Path ℕ

structure Heap where
  cell : Ptr → MasterInfo
  live : Finset Ptr

structure MasterFile where
  bytes : ℕ → UInt8
  fileSize : ℕ

/-- What the operations share: the index with its heap, the master file and
the append counter. -/
structure Context extends Index, Heap, MasterFile where
  nextBlockIndex : ℕ

def emptyContext : Context where
  hashToMaster := ∅
  fileToMaster := ∅
  freeBlockList := []
  fileToSizes := ∅
  cell := fun _ => default
  live := ∅
  bytes := fun _ => 0
  fileSize := 0
  nextBlockIndex := 0

inductive Errno where
  | eopnotsupp
  | eio
  | einval
  | other (code : ℕ)
  deriving DecidableEq, Repr

def refcountMod : ℕ := 2^32

def Context.lookupByFileBlock (c : Context) (file : Path) (blockIndex : ℕ) : Option Ptr :=
  find c.fileToMaster ⟨file,blockIndex⟩

def Context.insertFileBlock (c : Context) (file : Path) (blockIndex : ℕ) (info : Ptr) : Context :=
  { c with fileToMaster := c.fileToMaster.insert ⟨file,blockIndex⟩ info }

def Context.removeFileBlock (c : Context) (file : Path) (blockIndex : ℕ) : Context :=
  { c with fileToMaster := c.fileToMaster.erase ⟨file,blockIndex⟩ }

def Context.lookupByHash (c : Context) (hash : Hash) : Option Ptr := find c.hashToMaster hash

def Context.insertHash (c : Context) (hash : Hash) (info : Ptr) : Context :=
  { c with hashToMaster := c.hashToMaster.insert hash info }

def Context.removeHash (c : Context) (hash : Hash) : Context :=
  { c with hashToMaster := c.hashToMaster.erase hash }

/-- `malloc` returned address `a`, and the caller initialised the object. -/
def Context.malloc (c : Context) (a : Ptr) (info : MasterInfo) : Context :=
  { c with cell := Function.update c.cell a info, live := insert a c.live }

/-- The contents of a freed object stay what they were. -/
def Context.free (c : Context) (a : Ptr) : Context := { c with live := c.live.erase a }

def Context.setRefcount (c : Context) (a : Ptr) (n : ℕ) : Context :=
  { c with cell := Function.update c.cell a { c.cell a with refcount := n } }

/-- `__atomic_fetch_add(&info->refcount, 1, ...)`. -/
def Context.fetchAdd (c : Context) (a : Ptr) : Context :=
  c.setRefcount a (((c.cell a).refcount+1) % refcountMod)

def Context.fetchSub (c : Context) (a : Ptr) : Context :=
  c.setRefcount a (((c.cell a).refcount+(refcountMod-1)) % refcountMod)

def Context.setMasterBlockIndex (c : Context) (a : Ptr) (slot : ℕ) : Context :=
  { c with cell := Function.update c.cell a { c.cell a with masterBlockIndex := slot } }

/-- `g_slist_concat(slots, index->free_block_list)` under the free-list mutex. -/
def Context.releaseSlots (c : Context) (slots : List ℕ) : Context :=
  { c with freeBlockList := slots++c.freeBlockList }

/-- The decrement that overwrite, rollback and both removals share: when the
old value was 1 the slot is handed back and the object leaves the index. -/
def Context.dropReference (c : Context) (slots : List ℕ) (info : Ptr) : Context × List ℕ :=
  if (c.cell info).refcount = 1 then
    (((c.fetchSub info).removeHash (c.cell info).hash).free info,
      (c.cell info).masterBlockIndex::slots)
  else (c.fetchSub info,slots)

def MasterFile.block (f : MasterFile) (slot : ℕ) : List UInt8 :=
  slice f.bytes (slot*blockSize) blockSize

/-- Bytes written at an offset; a hole left before them reads as zeros. -/
def MasterFile.write (f : MasterFile) (off : ℕ) (bytes : List UInt8) : MasterFile where
  bytes := splice f.bytes off bytes
  fileSize := if bytes = [] then f.fileSize else max f.fileSize (off+bytes.length)

@[simp] theorem setRefcount_hash (c : Context) (a : Ptr) (n : ℕ) (b : Ptr) :
    ((c.setRefcount a n).cell b).hash = (c.cell b).hash := by
  by_cases h : b = a
  · subst h
    simp [Context.setRefcount]
  · simp [Context.setRefcount,h]

@[simp] theorem setRefcount_masterBlockIndex (c : Context) (a : Ptr) (n : ℕ) (b : Ptr) :
    ((c.setRefcount a n).cell b).masterBlockIndex = (c.cell b).masterBlockIndex := by
  by_cases h : b = a
  · subst h
    simp [Context.setRefcount]
  · simp [Context.setRefcount,h]

theorem setRefcount_refcount (c : Context) (a : Ptr) (n : ℕ) (b : Ptr) :
    ((c.setRefcount a n).cell b).refcount = if b = a then n else (c.cell b).refcount := by
  by_cases h : b = a
  · subst h
    simp [Context.setRefcount]
  · simp [Context.setRefcount,h]

@[simp] theorem setRefcount_index (c : Context) (a : Ptr) (n : ℕ) :
    (c.setRefcount a n).toIndex = c.toIndex := rfl

@[simp] theorem setRefcount_live (c : Context) (a : Ptr) (n : ℕ) :
    (c.setRefcount a n).live = c.live := rfl

end ArchivalDedup.MetaIndex
