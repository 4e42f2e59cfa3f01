import ArchivalDedup.Library.Interleaving
import ArchivalDedup.Passthrough

/-!
# Interleaved operations

Any number of calls is in flight. A call is a stage: where it stands between
two points at which it takes or drops a lock, with its local variables. One
step advances one call by one critical section, by one `pwrite` or `pread`, by
one atomic addition, or by one block of a loop that runs under the read lock.
A section under the write lock waits until no call is inside such a loop.
-/

set_option autoImplicit false

namespace ArchivalDedup.Threads
open ArchivalDedup.FiniteTable ArchivalDedup.MetaIndex ArchivalDedup.WriteDedup
open ArchivalDedup.ReadDedup ArchivalDedup.Passthrough ArchivalDedup.Interleaving

inductive Stage where
  | pass1 (r : WriteReq) (p : Pass1)
  | drain (r : WriteReq) (plan : List PlanEntry)
  | append (r : WriteReq) (plan : List PlanEntry) (taken : List ℕ)
  | flush (r : WriteReq) (plan : List PlanEntry) (i : ℕ)
  | consolidate (r : WriteReq) (plan : List PlanEntry)
  | release (slots : List ℕ) (res : ℕ)
  | rollbackHits (plan : List PlanEntry) (err : Errno)
  | rollbackConcat (plan : List PlanEntry) (slots : List ℕ) (err : Errno)
  | rollbackMisses (plan : List PlanEntry) (err : Errno)
  | unlinkSize (path : Path)
  | unlinkRemove (path : Path) (numBlocks : ℕ)
  | unlinkConcat (path : Path) (slots : List ℕ)
  | unlinkDropSize (path : Path)
  | unlinkBacking (path : Path)
  | truncateSize (path : Path) (size : ℕ)
  | truncateRemove (path : Path) (size newBlockCount oldBlockCount : ℕ)
  | truncateConcat (path : Path) (size : ℕ) (slots : List ℕ)
  | truncateShrink (path : Path) (size : ℕ)
  | truncateBacking (path : Path) (size : ℕ)
  | readLookup (r : ReadReq) (pairs : List BlockPair) (buf : Buffer)
  | readGroups (r : ReadReq) (pairs : List BlockPair) (groupStart : ℕ) (buf : Buffer)
  | readDone (r : ReadReq) (pairs : List BlockPair) (groupStart : ℕ) (buf : Buffer)
      (res : Except Errno ℕ)
  | done (res : Except Errno ℕ)

inductive Call where
  | write (r : WriteReq)
  | unlink (path : Path)
  | truncate (path : Path) (size : ℤ)
  | read (r : ReadReq) (buf : Buffer)

/-- The argument checks, and the lock of the first section where it is held
across steps. -/
def Call.start : Call → Stage
  | .write r =>
    if r.buf.length = 0 then .done (.ok 0)
    else if r.numBlocks = 0 ∨ r.buf.length % blockSize ≠ 0 then .done (.error .eopnotsupp)
    else .pass1 r Pass1.start
  | .unlink path => .unlinkSize path
  | .truncate path size =>
    if size < 0 ∨ size % blockSize ≠ 0 then .done (.error .eopnotsupp)
    else .truncateSize path size.toNat
  | .read r buf =>
    if r.numBlocks = 0 ∨ r.size % blockSize ≠ 0 then .readDone r [] 0 buf (.error .eopnotsupp)
    else .readLookup r [] buf

/-- The stages that hold `metadata_rwlock` in read mode between steps. -/
def Stage.holdsRead : Stage → Bool
  | .pass1 .. => true
  | .readLookup .. => true
  | _ => false

/-- The stages whose next step is a section under the write lock. -/
def Stage.needsWrite : Stage → Bool
  | .consolidate .. => true
  | .rollbackHits .. => true
  | .unlinkRemove .. => true
  | .unlinkDropSize .. => true
  | .truncateRemove .. => true
  | .truncateShrink .. => true
  | _ => false

/-- What the environment decides in one step: the address `malloc` returns,
the outcome of a `pwrite` and the report of the backing file system. -/
structure Choice where
  addr : Ptr
  io : PwriteResult
  sys : Option Errno

def backingResult : Option Errno → Except Errno ℕ
  | some err => .error err
  | none => .ok 0

variable (sha512 : List UInt8 → Hash) (qsort : List BlockPair → List BlockPair)

/-- Leaving the lookup loop of a read drops the read lock. -/
def endLookup (r : ReadReq) (pairs : List BlockPair) (buf : Buffer) : Stage :=
  if pairs = [] then .readDone r [] 0 buf (.ok 0)
  else .readGroups r (sortPairs qsort pairs) 0 buf

def lookupStep (r : ReadReq) (pairs : List BlockPair) (buf : Buffer) (c : Context) : Stage :=
  if pairs.length < r.numBlocks then
    match lookupPair r c pairs.length with
    | some p => .readLookup r (pairs++[p]) buf
    | none => endLookup qsort r pairs buf
  else endLookup qsort r pairs buf

def readStep (r : ReadReq) (pairs : List BlockPair) (groupStart : ℕ) (buf : Buffer)
    (c : Context) : Stage :=
  let rest := pairs.drop groupStart
  if rest = [] then .readDone r pairs groupStart buf (.ok (pairs.length*blockSize))
  else
    match readGroup c.toMasterFile (rest.take (groupLen rest)) buf with
    | (buf',none) => .readGroups r pairs (groupStart+groupLen rest) buf'
    | (buf',some err) => .readDone r pairs groupStart buf' (.error err)

def flushStep (r : WriteReq) (plan : List PlanEntry) (i : ℕ) (io : PwriteResult) (c : Context) :
    Context × Stage :=
  match nextRun (plan.drop i) with
  | none => (c,.consolidate r plan)
  | some (skip,e,len) =>
    match pwriteRun r e len io c.toMasterFile with
    | (f,none) => ({ c with toMasterFile := f },.flush r plan (i+skip+len))
    | (f,some err) => ({ c with toMasterFile := f },.rollbackHits plan err)

def advance (ch : Choice) (c : Context) : Stage → Option (Context × Stage)
  | .pass1 r p =>
    if p.plan.length < r.numBlocks then
      if ch.addr ∈ c.live then none
      else
        let t := pass1Block sha512 r ch.addr c p
        some (t.1,.pass1 r t.2)
    else if 0 < missCount p.plan then some (c,.drain r p.plan)
    else some (c,.consolidate r p.plan)
  | .drain r plan =>
    let t := drainFreeList (missCount plan) c
    some (t.2,.append r plan t.1)
  | .append r plan taken =>
    let s := appendSlots (missCount plan) taken c
    let t := assignSlots plan s.1 s.2
    some (t.2,.flush r t.1 0)
  | .flush r plan i => some (flushStep r plan i ch.io c)
  | .consolidate r plan =>
    let t := WriteDedup.consolidate r plan c
    some (t.1,.release t.2 (r.numBlocks*blockSize))
  | .release slots res => some (c.releaseSlots slots,.done (.ok res))
  | .rollbackHits plan err =>
    let t := WriteDedup.rollbackHits plan c []
    some (t.1,.rollbackConcat plan t.2 err)
  | .rollbackConcat plan slots err => some (c.releaseSlots slots,.rollbackMisses plan err)
  | .rollbackMisses plan err => some (WriteDedup.rollbackMisses plan c,.done (.error err))
  | .unlinkSize path =>
    match unlinkExtent path c with
    | none => some (c,.unlinkBacking path)
    | some numBlocks => some (c,.unlinkRemove path numBlocks)
  | .unlinkRemove path numBlocks =>
    let t := removeBlocks path numBlocks 0 c []
    some (t.1,.unlinkConcat path t.2)
  | .unlinkConcat path slots => some (c.releaseSlots slots,.unlinkDropSize path)
  | .unlinkDropSize path => some (dropSize path c,.unlinkBacking path)
  | .unlinkBacking _ => some (c,.done (backingResult ch.sys))
  | .truncateSize path size =>
    match truncateExtent path size c with
    | none => some (c,.truncateBacking path size)
    | some (newBlockCount,oldBlockCount) =>
        some (c,.truncateRemove path size newBlockCount oldBlockCount)
  | .truncateRemove path size newBlockCount oldBlockCount =>
    let t := removeBlocks path (oldBlockCount-newBlockCount) newBlockCount c []
    some (t.1,.truncateConcat path size t.2)
  | .truncateConcat path size slots => some (c.releaseSlots slots,.truncateShrink path size)
  | .truncateShrink path size => some (shrinkSize path size c,.truncateBacking path size)
  | .truncateBacking _ _ => some (c,.done (backingResult ch.sys))
  | .readLookup r pairs buf => some (c,lookupStep qsort r pairs buf c)
  | .readGroups r pairs groupStart buf => some (c,readStep r pairs groupStart buf c)
  | .readDone .. => none
  | .done _ => none

structure System where
  ctx : Context
  procs : List Stage

def emptySystem : System := ⟨emptyContext,[]⟩

inductive Action where
  | call (k : Call)
  | step (i : ℕ) (ch : Choice)

def step (s : System) : Action → Option System
  | .call k => some ⟨s.ctx,s.procs++[k.start]⟩
  | .step i ch =>
    match s.procs[i]? with
    | none => none
    | some st =>
      if st.needsWrite && s.procs.any Stage.holdsRead then none
      else (advance sha512 qsort ch s.ctx st).map (fun t => ⟨t.1,s.procs.set i t.2⟩)

def Reaches (acts : List Action) (s : System) : Prop :=
  exec (step sha512 qsort) emptySystem acts = some s

def Stage.finished : Stage → Bool
  | .done _ => true
  | .readDone .. => true
  | _ => false

def Quiescent (s : System) : Prop := ∀ st ∈ s.procs, st.finished = true

/-- No call holds `metadata_rwlock`; sections under the write lock are single
steps, so only the read lock is ever held between steps. -/
def Unlocked (s : System) : Prop := ∀ st ∈ s.procs, st.holdsRead = false

theorem step_call_some {s t : System} {k : Call}
    (h : step sha512 qsort s (.call k) = some t) : t = ⟨s.ctx,s.procs++[k.start]⟩ :=
  (Option.some.inj h).symm

/-- What one step can do: some call advances, all others stay. -/
theorem step_step_some {s t : System} {i : ℕ} {ch : Choice}
    (h : step sha512 qsort s (.step i ch) = some t) :
    ∃ st d, s.procs[i]? = some st ∧ advance sha512 qsort ch s.ctx st = some d ∧
      t = ⟨d.1,s.procs.set i d.2⟩ ∧
      (st.needsWrite = true → ∀ q ∈ s.procs, q.holdsRead = false) := by
  simp only [step] at h
  split at h
  · cases h
  · next st hst =>
    split_ifs at h with hlock
    obtain ⟨d,hd,rfl⟩ := Option.map_eq_some_iff.mp h
    refine ⟨st,d,hst,hd,rfl,?_⟩
    intro hw q hq
    rw [Bool.and_eq_true,not_and_or] at hlock
    have hany := hlock.resolve_left (fun hn => hn hw)
    simpa using fun hh => hany (List.any_eq_true.mpr ⟨q,hq,hh⟩)

theorem step_last (c : Context) (l : List Stage) (st : Stage) (ch : Choice)
    (hl : ∀ q ∈ l, q.holdsRead = false) (hst : st.needsWrite = true → st.holdsRead = false) :
    step sha512 qsort ⟨c,l++[st]⟩ (.step l.length ch) =
      (advance sha512 qsort ch c st).map (fun t => ⟨t.1,l++[t.2]⟩) := by
  have hlock : (st.needsWrite && (l++[st]).any Stage.holdsRead) = false := by
    cases hw : st.needsWrite with
    | false => rfl
    | true =>
      simp only [Bool.true_and,List.any_eq_false]
      intro q hq
      rcases List.mem_append.mp hq with hq | hq
      · simp [hl q hq]
      · simp [List.mem_singleton.mp hq,hst hw]
  simp only [step,List.getElem?_concat_length,hlock,Bool.false_eq_true,if_false]
  simp

end ArchivalDedup.Threads
