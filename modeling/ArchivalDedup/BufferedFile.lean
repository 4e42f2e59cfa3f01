import Mathlib.Data.Int.Basic
import ArchivalDedup.Library.ByteMap
import ArchivalDedup.Persistence

/-!
# The buffered file under any outcome of a system call

`BufferedIOCtx` with its two loops, as the source has them: a buffer that is a
piece of memory with positions in it, a `pwrite` that may write a part or fail,
a `pread` that may deliver less than was asked for. Memory goes on behind the
buffer, so that a copy which does not fit has an effect. The unbuffered
functions of the same file format stand beside them.
-/

set_option autoImplicit false

namespace ArchivalDedup.BufferedFile
open ArchivalDedup.ByteMap ArchivalDedup.LittleEndian ArchivalDedup.Persistence

/-- `buffer` is the memory from the start of the allocation, which ends after
`bufferSize` bytes. -/
structure BufferedIOCtx where
  buffer : ℕ → UInt8
  bufferSize : ℕ
  bufferPos : ℕ
  bufferEnd : ℕ
  fileOffset : ℕ
  nonempty : 0 < bufferSize
  fits : bufferSize < 2^64

/-- What `malloc` returns holds anything. -/
def bufferedIoInit (memory : ℕ → UInt8) (bufferSize : ℕ) (hpos : 0 < bufferSize)
    (hfits : bufferSize < 2^64) : BufferedIOCtx :=
  ⟨memory,bufferSize,0,0,0,hpos,hfits⟩

def sizeSub (a b : ℕ) : ℕ := if b ≤ a then a-b else a+2^64-b

theorem sizeSub_le {a b : ℕ} (h : b ≤ a) : sizeSub a b = a-b := if_pos h

/-! ## Writing -/

inductive PwriteOutcome where
  | complete
  | short (n : ℕ)
  | failed
  deriving DecidableEq

/-- The value returned for `count` bytes; a short write is positive. -/
def PwriteOutcome.returned (count : ℕ) : PwriteOutcome → ℤ
  | .complete => count
  | .short n => max 1 (min n (count-1) : ℕ)
  | .failed => -1

/-- A hole before the offset reads as zeros. -/
def pwriteAt (file : Bytes) (off : ℕ) (data : Bytes) : Bytes :=
  if data.length = 0 then file
  else file.take off++List.replicate (off-file.length) 0++data++file.drop (off+data.length)

structure Output where
  ctx : BufferedIOCtx
  file : Bytes
  pwrites : ℕ

def flushWriteBuffer (out : PwriteOutcome) (s : Output) : Output :=
  if s.ctx.bufferPos = 0 then s
  else
    let written := out.returned s.ctx.bufferPos
    let file := pwriteAt s.file s.ctx.fileOffset (slice s.ctx.buffer 0 written.toNat)
    if written = s.ctx.bufferPos then
      ⟨{ s.ctx with fileOffset := s.ctx.fileOffset+s.ctx.bufferPos, bufferPos := 0 },file,
        s.pwrites+1⟩
    else if 0 < written then
      let remaining := s.ctx.bufferPos-written.toNat
      ⟨{ s.ctx with
          fileOffset := s.ctx.fileOffset+written.toNat
          buffer := splice s.ctx.buffer 0 (slice s.ctx.buffer written.toNat remaining)
          bufferPos := remaining },file,s.pwrites+1⟩
    else { s with pwrites := s.pwrites+1 }

/-- The first half of an iteration of `buffered_write`: a full buffer is flushed,
and what is then taken for free is the whole buffer. -/
def makeRoom (out : PwriteOutcome) (s : Output) : Output × ℕ :=
  let available := sizeSub s.ctx.bufferSize s.ctx.bufferPos
  if available = 0 then (flushWriteBuffer out s,s.ctx.bufferSize) else (s,available)

def copyIn (s : Output) (data : Bytes) : Output :=
  { s with ctx := { s.ctx with
      buffer := splice s.ctx.buffer s.ctx.bufferPos data
      bufferPos := s.ctx.bufferPos+data.length } }

def bufferedWriteLoop (io : ℕ → PwriteOutcome) : ℕ → Output → Bytes → Output
  | 0, s, _ => s
  | fuel+1, s, src =>
    if src.length = 0 then s
    else
      let t := makeRoom (io s.pwrites) s
      bufferedWriteLoop io fuel (copyIn t.1 (src.take t.2)) (src.drop t.2)

def bufferedWrite (io : ℕ → PwriteOutcome) (s : Output) (data : Bytes) : Output :=
  bufferedWriteLoop io data.length s data

def writeElemBuffered (io : ℕ → PwriteOutcome) (s : Output) (b : Bytes) : Output :=
  bufferedWrite io (bufferedWrite io s (leBytes 8 b.length)) b

def writeElem (t : Bytes × ℕ) (b : Bytes) : Bytes × ℕ :=
  (pwriteAt (pwriteAt t.1 t.2 (leBytes 8 b.length)) (t.2+8) b,t.2+8+b.length)

/-! ## Reading -/

/-- What a `pread` delivers of the `left` bytes behind the offset: something
whenever there is something, and never more than was asked for. -/
def preadCount (want left granted : ℕ) : ℕ :=
  if left = 0 then 0 else max 1 (min granted (min want left))

structure Input where
  ctx : BufferedIOCtx
  preads : ℕ

variable (file : Bytes) (grant : ℕ → ℕ)

def refillReadBuffer (s : Input) : Input × Bool :=
  let nread := preadCount s.ctx.bufferSize (file.length-s.ctx.fileOffset) (grant s.preads)
  if nread = 0 then ({ s with preads := s.preads+1 },false)
  else
    (⟨{ s.ctx with
        buffer := splice s.ctx.buffer 0 ((file.drop s.ctx.fileOffset).take nread)
        bufferEnd := nread
        bufferPos := 0
        fileOffset := s.ctx.fileOffset+nread },s.preads+1⟩,true)

def fetch (s : Input) : Input × Bool :=
  if s.ctx.bufferEnd-s.ctx.bufferPos = 0 then
    let t := refillReadBuffer file grant s
    (t.1,t.2 && decide (t.1.ctx.bufferEnd-t.1.ctx.bufferPos ≠ 0))
  else (s,true)

/-- The bytes are what was copied to `data`; `none` is FALSE, after which the
context stays as the failed call left it. -/
def bufferedReadLoop : ℕ → Input → ℕ → Input × Option Bytes
  | 0, s, size => (s,if size = 0 then some [] else none)
  | fuel+1, s, size =>
    if size = 0 then (s,some [])
    else
      match fetch file grant s with
      | (t,false) => (t,none)
      | (t,true) =>
        let n := min size (t.ctx.bufferEnd-t.ctx.bufferPos)
        let u := bufferedReadLoop fuel { t with ctx := { t.ctx with bufferPos := t.ctx.bufferPos+n } }
          (size-n)
        (u.1,u.2.map (slice t.ctx.buffer t.ctx.bufferPos n++·))

def bufferedRead (s : Input) (size : ℕ) : Input × Option Bytes :=
  bufferedReadLoop file grant size s size

section Elements

variable {α : Type} (decode : Bytes → Option α)

/-- For lengths that `malloc` serves; `ElementMemory` has those it refuses. -/
def readElemBuffered (s : Input) : Input × Option α :=
  match bufferedRead file grant s 8 with
  | (t,none) => (t,none)
  | (t,some size) =>
    match bufferedRead file grant t (leNat size) with
    | (u,none) => (u,none)
    | (u,some buf) => (u,decode buf)

/-- The unbuffered `read_elem` when `pread` delivers what there is; the first
component is the offset it leaves. -/
def readElem (off : ℕ) : ℕ × Option α :=
  let size := (file.drop off).take 8
  if size.length ≠ 8 then (off,none)
  else
    let buf := (file.drop (off+8)).take (leNat size)
    if buf.length ≠ leNat size then (off+8,none)
    else (off+8+leNat size,decode buf)

end Elements

end ArchivalDedup.BufferedFile
