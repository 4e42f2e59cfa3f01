import ArchivalDedup.Library.ConsecutiveRun
import ArchivalDedup.MetaIndex

/-!
# The three passes of `write_dedup`

Every pass is a function of the shared context and of the plan, cut where the
source takes or drops a lock: pass 1 block by block, the drain of the free
list, the reservation by append, one `pwrite` per run, the consolidation, and
the three sections of the rollback. `writeDedup` composes them for a call that
runs alone; the interleaved system uses the same pieces.
-/

set_option autoImplicit false

namespace ArchivalDedup.WriteDedup
open ArchivalDedup.FiniteTable ArchivalDedup.ConsecutiveRun ArchivalDedup.MetaIndex

inductive PlanKind where
  | hit
  | miss
  deriving DecidableEq, Repr

/-- `payload` is the offset of the block inside the caller's buffer. -/
structure PlanEntry where
  kind : PlanKind
  logicalBlk : ℕ
  masterBlk : ℕ
  payload : ℕ
  hash : Hash
  info : Ptr
  deriving DecidableEq

/-- A request as the kernel hands it over: the byte count fits the `int` that
is returned, and the end of the range is an `off_t`. -/
structure WriteReq where
  path : Path
  buf : List UInt8
  offset : ℕ
  fits : buf.length < 2^31
  inRange : offset+buf.length < 2^63

def WriteReq.numBlocks (r : WriteReq) : ℕ := r.buf.length/blockSize

def WriteReq.startBlock (r : WriteReq) : ℕ := r.offset/blockSize

def WriteReq.block (r : WriteReq) (i : ℕ) : List UInt8 := (r.buf.drop (i*blockSize)).take blockSize

/-- The loop state of pass 1. The loop index is the length of the plan. -/
structure Pass1 where
  plan : List PlanEntry
  pendingHashes : Table Hash Ptr

def Pass1.start : Pass1 := ⟨[],∅⟩

/-- The index is asked first, then the MISSes of the same batch. -/
def existingInfo (c : Context) (p : Pass1) (h : Hash) : Option Ptr :=
  (c.lookupByHash h).or (find p.pendingHashes h)

def newEntry (kind : PlanKind) (r : WriteReq) (i : ℕ) (h : Hash) (info : Ptr) : PlanEntry :=
  ⟨kind,r.startBlock+i,0,i*blockSize,h,info⟩

/-- One iteration of pass 1; `a` is the address that `g_new` returns in the
MISS branch. -/
def pass1Block (sha512 : List UInt8 → Hash) (r : WriteReq) (a : Ptr) (c : Context) (p : Pass1) :
    Context × Pass1 :=
  let i := p.plan.length
  let h := sha512 (r.block i)
  match existingInfo c p h with
  | some existing =>
      (c.fetchAdd existing,⟨p.plan++[newEntry .hit r i h existing],p.pendingHashes⟩)
  | none =>
      (c.malloc a ⟨h,0,1⟩,⟨p.plan++[newEntry .miss r i h a],p.pendingHashes.insert h a⟩)

theorem pass1Block_hit {sha512 : List UInt8 → Hash} {r : WriteReq} {c : Context} {p : Pass1}
    {b : Ptr} (a : Ptr) (h : existingInfo c p (sha512 (r.block p.plan.length)) = some b) :
    pass1Block sha512 r a c p = (c.fetchAdd b,
      ⟨p.plan++[newEntry .hit r p.plan.length (sha512 (r.block p.plan.length)) b],
        p.pendingHashes⟩) := by
  simp only [pass1Block,h]

theorem pass1Block_miss {sha512 : List UInt8 → Hash} {r : WriteReq} {c : Context} {p : Pass1}
    (a : Ptr) (h : existingInfo c p (sha512 (r.block p.plan.length)) = none) :
    pass1Block sha512 r a c p = (c.malloc a ⟨sha512 (r.block p.plan.length),0,1⟩,
      ⟨p.plan++[newEntry .miss r p.plan.length (sha512 (r.block p.plan.length)) a],
        p.pendingHashes.insert (sha512 (r.block p.plan.length)) a⟩) := by
  simp only [pass1Block,h]

def missCount (plan : List PlanEntry) : ℕ := plan.countP (fun e => e.kind = .miss)

/-- First half of `allocate_batch_storage_first`: slots from the head of the
free list, under its mutex. -/
def drainFreeList (n : ℕ) (c : Context) : List ℕ × Context :=
  (c.freeBlockList.take n,{ c with freeBlockList := c.freeBlockList.drop n })

/-- Second half: the remainder is reserved by one `fetch_add`. -/
def appendSlots (n : ℕ) (taken : List ℕ) (c : Context) : List ℕ × Context :=
  (taken++(List.range (n-taken.length)).map (c.nextBlockIndex+·),
    { c with nextBlockIndex := c.nextBlockIndex+(n-taken.length) })

def allocateBatchStorageFirst (n : ℕ) (c : Context) : List ℕ × Context :=
  let t := drainFreeList n c
  appendSlots n t.1 t.2

def assignSlots : List PlanEntry → List ℕ → Context → List PlanEntry × Context
  | [], _, c => ([],c)
  | e::es, slots, c =>
    match e.kind, slots with
    | .miss, m::ms =>
        let t := assignSlots es ms (c.setMasterBlockIndex e.info m)
        ({ e with masterBlk := m }::t.1,t.2)
    | _, _ =>
        let t := assignSlots es slots c
        (e::t.1,t.2)

theorem assignSlots_hit {e : PlanEntry} (es : List PlanEntry) (slots : List ℕ) (c : Context)
    (he : e.kind = .hit) : assignSlots (e::es) slots c =
      (e::(assignSlots es slots c).1,(assignSlots es slots c).2) := by
  simp only [assignSlots,he]

theorem assignSlots_miss {e : PlanEntry} (es : List PlanEntry) (m : ℕ) (ms : List ℕ) (c : Context)
    (he : e.kind = .miss) : assignSlots (e::es) (m::ms) c =
      ({ e with masterBlk := m }::(assignSlots es ms (c.setMasterBlockIndex e.info m)).1,
        (assignSlots es ms (c.setMasterBlockIndex e.info m)).2) := by
  simp only [assignSlots,he]

theorem assignSlots_none (plan : List PlanEntry) (c : Context) : assignSlots plan [] c = (plan,c) := by
  induction plan with
  | nil => rfl
  | cons e es ih => simp [assignSlots,ih]

def missSlot (e : PlanEntry) : Option ℕ :=
  match e.kind with
  | .miss => some e.masterBlk
  | .hit => none

/-- The next run of `flush_plan`: how many HITs are skipped, the MISS that
starts the run and the run's length. -/
def nextRun (rest : List PlanEntry) : Option (ℕ × PlanEntry × ℕ) :=
  let skip := (rest.takeWhile (fun e => e.kind = .hit)).length
  match rest.drop skip with
  | [] => none
  | e::es => some (skip,e,consecutive missSlot e.masterBlk es+1)

/-- What a `pwrite` does: everything, a strict part of it, or an error; the
bytes a failed call left behind lie inside its own range. -/
inductive PwriteResult where
  | complete
  | short (written : List UInt8)
  | error (code : ℕ) (written : List UInt8)

/-- One `pwrite`, for a run that an `off_t` reaches; `WordFlush` has the others. -/
def pwriteRun (r : WriteReq) (e : PlanEntry) (len : ℕ) (res : PwriteResult) (f : MasterFile) :
    MasterFile × Option Errno :=
  let off := e.masterBlk*blockSize
  let size := len*blockSize
  match res with
  | .complete => (f.write off ((r.buf.drop e.payload).take size),none)
  | .short w => (f.write off (w.take (size-1)),some .eio)
  | .error code w => (f.write off (w.take size),some (.other code))

/-- `flush_plan` from the entries not yet visited; `j` counts the `pwrite`s. -/
def flushRest (r : WriteReq) (io : ℕ → PwriteResult) :
    ℕ → ℕ → List PlanEntry → MasterFile → MasterFile × Option Errno
  | 0, _, _, f => (f,none)
  | fuel+1, j, rest, f =>
    match nextRun rest with
    | none => (f,none)
    | some (skip,e,len) =>
      match pwriteRun r e len (io j) f with
      | (f',none) => flushRest r io fuel (j+1) (rest.drop (skip+len)) f'
      | (f',some err) => (f',some err)

def flushPlan (r : WriteReq) (io : ℕ → PwriteResult) (plan : List PlanEntry) (f : MasterFile) :
    MasterFile × Option Errno :=
  flushRest r io plan.length 0 plan f

/-- First loop of pass 3, with the double check. A HIT entry keeps its pointer
even when the pending object it shares has just been freed. -/
def publishEntry (c : Context) (slots : List ℕ) (e : PlanEntry) : Context × List ℕ × PlanEntry :=
  match e.kind with
  | .hit => (c,slots,e)
  | .miss =>
    match c.lookupByHash (c.cell e.info).hash with
    | some winner => ((c.free e.info).fetchAdd winner,e.masterBlk::slots,{ e with info := winner })
    | none => (c.insertHash (c.cell e.info).hash e.info,slots,e)

def publishPlan : List PlanEntry → Context → List ℕ → Context × List ℕ × List PlanEntry
  | [], c, slots => (c,slots,[])
  | e::es, c, slots =>
    let t := publishEntry c slots e
    let u := publishPlan es t.1 t.2.1
    (u.1,u.2.1,t.2.2::u.2.2)

/-- Second loop of pass 3: the old mapping of the block is released, then the
new one is inserted. -/
def mapEntry (path : Path) (c : Context) (slots : List ℕ) (e : PlanEntry) : Context × List ℕ :=
  match c.lookupByFileBlock path e.logicalBlk with
  | some old =>
    let t := c.dropReference slots old
    (t.1.insertFileBlock path e.logicalBlk e.info,t.2)
  | none => (c.insertFileBlock path e.logicalBlk e.info,slots)

def mapPlan (path : Path) : List PlanEntry → Context → List ℕ → Context × List ℕ
  | [], c, slots => (c,slots)
  | e::es, c, slots =>
    let t := mapEntry path c slots e
    mapPlan path es t.1 t.2

def growSize (c : Context) (path : Path) (newEnd : ℕ) : Context :=
  match find c.fileToSizes path with
  | none => { c with fileToSizes := c.fileToSizes.insert path newEnd }
  | some size =>
    if newEnd > size then { c with fileToSizes := c.fileToSizes.insert path newEnd } else c

def WriteReq.newEnd (r : WriteReq) : ℕ := (r.startBlock+r.numBlocks)*blockSize

/-- Pass 3, one critical section under the write lock. The slots to release
are returned for the concatenation that follows the section. -/
def consolidate (r : WriteReq) (plan : List PlanEntry) (c : Context) : Context × List ℕ :=
  let t := publishPlan plan c []
  let u := mapPlan r.path t.2.2 t.1 t.2.1
  (growSize u.1 r.path r.newEnd,u.2)

/-- First section of the rollback: HIT increments are taken back. -/
def rollbackHits : List PlanEntry → Context → List ℕ → Context × List ℕ
  | [], c, slots => (c,slots)
  | e::es, c, slots =>
    match e.kind with
    | .hit =>
      let t := c.dropReference slots e.info
      rollbackHits es t.1 t.2
    | .miss => rollbackHits es c slots

/-- Last section: the slot of every MISS returns to the free list and its
pending object is freed. -/
def rollbackMisses : List PlanEntry → Context → Context
  | [], c => c
  | e::es, c =>
    match e.kind with
    | .miss => rollbackMisses es ((c.releaseSlots [e.masterBlk]).free e.info)
    | .hit => rollbackMisses es c

def rollbackAllocations (plan : List PlanEntry) (c : Context) : Context :=
  let t := rollbackHits plan c []
  rollbackMisses plan (t.1.releaseSlots t.2)

/-- What the environment answers during one call: the addresses `malloc`
picks, never an allocated one, and the outcome of each `pwrite`. -/
structure Env where
  alloc : Finset Ptr → Ptr
  alloc_fresh : ∀ s, alloc s ∉ s
  io : ℕ → PwriteResult

def pass1 (sha512 : List UInt8 → Hash) (env : Env) (r : WriteReq) :
    ℕ → Context → Pass1 → Context × Pass1
  | 0, c, p => (c,p)
  | n+1, c, p =>
    let t := pass1Block sha512 r (env.alloc c.live) c p
    pass1 sha512 env r n t.1 t.2

def allocateAndFlush (env : Env) (r : WriteReq) (plan : List PlanEntry) (c : Context) :
    List PlanEntry × Context × Option Errno :=
  if 0 < missCount plan then
    let s := allocateBatchStorageFirst (missCount plan) c
    let t := assignSlots plan s.1 s.2
    let u := flushPlan r env.io t.1 t.2.toMasterFile
    (t.1,{ t.2 with toMasterFile := u.1 },u.2)
  else (plan,c,none)

def stageWrite (sha512 : List UInt8 → Hash) (env : Env) (r : WriteReq) (c : Context) :
    List PlanEntry × Context × Option Errno :=
  let p := pass1 sha512 env r r.numBlocks c Pass1.start
  allocateAndFlush env r p.2.plan p.1

def finishWrite (r : WriteReq) (t : List PlanEntry × Context × Option Errno) :
    Context × Except Errno ℕ :=
  match t.2.2 with
  | some err => (rollbackAllocations t.1 t.2.1,.error err)
  | none =>
    let u := consolidate r t.1 t.2.1
    (u.1.releaseSlots u.2,.ok (r.numBlocks*blockSize))

def writeDedup (sha512 : List UInt8 → Hash) (env : Env) (r : WriteReq) (c : Context) :
    Context × Except Errno ℕ :=
  if r.buf.length = 0 then (c,.ok 0)
  else if r.numBlocks = 0 ∨ r.buf.length % blockSize ≠ 0 then (c,.error .eopnotsupp)
  else finishWrite r (stageWrite sha512 env r c)

end ArchivalDedup.WriteDedup
