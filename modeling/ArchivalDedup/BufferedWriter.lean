import ArchivalDedup.Library.Interleaving
import ArchivalDedup.BufferedFile

/-!
# What the buffered writer keeps

Any sequence of calls of `buffered_write`, then the final flush, with any outcome
of every `pwrite`. `buffered_write` takes the whole buffer for free after a flush,
also after one that wrote a part only, and the final flush is made once. The
writer keeps inside its buffer and loses nothing exactly in the runs where
neither of the two does harm.
-/

set_option autoImplicit false

namespace ArchivalDedup.BufferedWriter
open ArchivalDedup.ByteMap ArchivalDedup.Interleaving ArchivalDedup.Persistence
open ArchivalDedup.BufferedFile

/-! ## Flush and copy -/

/-- The file ends where the next `pwrite` starts. -/
def AtEnd (s : Output) : Prop := s.ctx.fileOffset = s.file.length

/-- The bytes in the file up to the offset, then the bytes in the buffer. -/
def stream (s : Output) : Bytes :=
  s.file.take s.ctx.fileOffset++slice s.ctx.buffer 0 s.ctx.bufferPos

def written (out : PwriteOutcome) (s : Output) : ℕ :=
  if s.ctx.bufferPos = 0 then 0 else (out.returned s.ctx.bufferPos).toNat

theorem stream_atEnd {s : Output} (h : AtEnd s) :
    stream s = s.file++slice s.ctx.buffer 0 s.ctx.bufferPos := by
  unfold stream
  rw [h,List.take_length]

theorem pwriteAt_end (file data : Bytes) : pwriteAt file file.length data = file++data := by
  unfold pwriteAt
  split_ifs with h
  · rw [List.length_eq_zero_iff.mp h,List.append_nil]
  · simp

theorem written_le (out : PwriteOutcome) (s : Output) : written out s ≤ s.ctx.bufferPos := by
  unfold written
  split_ifs with h
  · exact Nat.zero_le _
  · cases out with
    | complete => exact Nat.le_refl _
    | failed => exact Nat.zero_le _
    | short n =>
      simp only [PwriteOutcome.returned]
      omega

theorem written_complete (s : Output) : written .complete s = s.ctx.bufferPos := by
  unfold written
  split_ifs with h
  · exact h.symm
  · rfl

/-- What a flush does to the file and to the buffer. -/
structure FlushOutcome (out : PwriteOutcome) (s t : Output) : Prop where
  size : t.ctx.bufferSize = s.ctx.bufferSize
  pos : t.ctx.bufferPos = s.ctx.bufferPos-written out s
  file : t.file = s.file++slice s.ctx.buffer 0 (written out s)
  offset : t.ctx.fileOffset = s.ctx.fileOffset+written out s
  rest : slice t.ctx.buffer 0 t.ctx.bufferPos =
    slice s.ctx.buffer (written out s) (s.ctx.bufferPos-written out s)

theorem flush_spec (out : PwriteOutcome) {s : Output} (h : AtEnd s) :
    FlushOutcome out s (flushWriteBuffer out s) := by
  have hle := written_le out s
  unfold flushWriteBuffer
  by_cases hz : s.ctx.bufferPos = 0
  · have hw : written out s = 0 := if_pos hz
    rw [if_pos hz]
    exact ⟨rfl,by rw [hw]; rfl,by rw [hw]; simp [slice],by rw [hw]; rfl,by rw [hw]; rfl⟩
  · have hw : written out s = (out.returned s.ctx.bufferPos).toNat := if_neg hz
    rw [if_neg hz]
    dsimp only
    rw [←hw,h,pwriteAt_end]
    split_ifs with hall hsome
    · have hpos : written out s = s.ctx.bufferPos := by omega
      refine ⟨rfl,?_,rfl,?_,?_⟩
      · dsimp only
        omega
      · dsimp only
        rw [h,hpos]
      · dsimp only
        rw [hpos,Nat.sub_self]
        rfl
    · refine ⟨rfl,rfl,rfl,?_,?_⟩
      · dsimp only
        rw [h]
      · have := slice_splice_self s.ctx.buffer 0
          (slice s.ctx.buffer (written out s) (s.ctx.bufferPos-written out s))
        rwa [slice_length] at this
    · have hnone : written out s = 0 := by omega
      exact ⟨rfl,by rw [hnone]; rfl,by rw [hnone]; simp [slice],by rw [hnone]; rfl,
        by rw [hnone]; rfl⟩

theorem flush_atEnd {out : PwriteOutcome} {s t : Output} (h : AtEnd s) (hf : FlushOutcome out s t) :
    AtEnd t := by
  unfold AtEnd
  rw [hf.offset,hf.file,List.length_append,slice_length,h]

/-- Whatever a flush achieves, no byte of the stream is lost. -/
theorem flush_stream {out : PwriteOutcome} {s t : Output} (h : AtEnd s) (hf : FlushOutcome out s t) :
    stream t = stream s := by
  have hle := written_le out s
  have hsplit := slice_append s.ctx.buffer 0 (written out s) (s.ctx.bufferPos-written out s)
  rw [Nat.add_sub_cancel' hle,Nat.zero_add] at hsplit
  rw [stream_atEnd (flush_atEnd h hf),stream_atEnd h,hf.file,hf.rest,hsplit,List.append_assoc]

theorem copyIn_stream (s : Output) (data : Bytes) : stream (copyIn s data) = stream s++data := by
  have hold := slice_splice_disjoint s.ctx.buffer s.ctx.bufferPos data 0 s.ctx.bufferPos
    (Or.inl (by omega))
  have hnew := slice_splice_self s.ctx.buffer s.ctx.bufferPos data
  unfold stream copyIn
  dsimp only
  rw [slice_append,Nat.zero_add,hold,hnew,List.append_assoc]

theorem room_full {s : Output} (h : sizeSub s.ctx.bufferSize s.ctx.bufferPos = 0) :
    s.ctx.bufferSize ≤ s.ctx.bufferPos := by
  unfold sizeSub at h
  split_ifs at h <;> omega

theorem makeRoom_full {s : Output} (out : PwriteOutcome)
    (h : sizeSub s.ctx.bufferSize s.ctx.bufferPos = 0) :
    makeRoom out s = (flushWriteBuffer out s,s.ctx.bufferSize) := if_pos h

theorem makeRoom_free {s : Output} (out : PwriteOutcome)
    (h : sizeSub s.ctx.bufferSize s.ctx.bufferPos ≠ 0) :
    makeRoom out s = (s,sizeSub s.ctx.bufferSize s.ctx.bufferPos) := if_neg h

theorem makeRoom_keeps (out : PwriteOutcome) {s : Output} (h : AtEnd s) :
    AtEnd (makeRoom out s).1 ∧ stream (makeRoom out s).1 = stream s ∧
      (makeRoom out s).1.ctx.bufferSize = s.ctx.bufferSize := by
  by_cases hz : sizeSub s.ctx.bufferSize s.ctx.bufferPos = 0
  · have hf := flush_spec out h
    rw [makeRoom_full out hz]
    exact ⟨flush_atEnd h hf,flush_stream h hf,hf.size⟩
  · rw [makeRoom_free out hz]
    exact ⟨h,rfl,rfl⟩

theorem makeRoom_pos (out : PwriteOutcome) (s : Output) : 0 < (makeRoom out s).2 := by
  by_cases hz : sizeSub s.ctx.bufferSize s.ctx.bufferPos = 0
  · rw [makeRoom_full out hz]
    exact s.ctx.nonempty
  · rw [makeRoom_free out hz]
    exact Nat.pos_of_ne_zero hz

/-! ## Runs of the writer -/

/-- The writer with its history: what it was given, what it has copied, where to,
and whether some `pwrite` returned -1. `todo` is the rest of the current call. -/
structure Writing extends Output where
  todo : Bytes
  handed : Bytes
  accepted : Bytes
  copies : List (ℕ × ℕ)
  failed : Bool
  closed : Bool

/-- A call, one iteration of its loop, or the final flush, with the outcome of the
`pwrite` if there is one. -/
inductive WriterAct where
  | call (data : Bytes)
  | turn (out : PwriteOutcome)
  | finish (out : PwriteOutcome)

def sawFailure (s : Writing) (out : PwriteOutcome) (t : Output) : Bool :=
  s.failed || (decide (t.pwrites ≠ s.pwrites) && decide (out = .failed))

def turn (out : PwriteOutcome) (s : Writing) : Writing :=
  let t := makeRoom out s.toOutput
  let data := s.todo.take t.2
  { toOutput := copyIn t.1 data
    todo := s.todo.drop t.2
    handed := s.handed
    accepted := s.accepted++data
    copies := s.copies++[(t.1.ctx.bufferPos,data.length)]
    failed := sawFailure s out t.1
    closed := s.closed }

def writerStep (s : Writing) : WriterAct → Option Writing
  | .call data =>
    if s.todo = [] ∧ s.closed = false then some { s with todo := data, handed := s.handed++data }
    else none
  | .turn out => if s.todo = [] then none else some (turn out s)
  | .finish out =>
    let t := flushWriteBuffer out s.toOutput
    if s.todo = [] ∧ s.closed = false then
      some { s with toOutput := t, failed := sawFailure s out t, closed := true }
    else none

def startWriting (ctx : BufferedIOCtx) : Writing := ⟨⟨ctx,[],0⟩,[],[],[],[],false,false⟩

structure Base (s : Writing) : Prop where
  atEnd : AtEnd s.toOutput
  stream : stream s.toOutput = s.accepted
  handed : s.accepted++s.todo = s.handed
  idle : s.closed = true → s.todo = []
  overrun : s.closed = false → s.failed = true → ∃ t ∈ s.copies, s.ctx.bufferSize < t.1+t.2

structure Intact (s : Writing) : Prop where
  bounded : s.ctx.bufferPos ≤ s.ctx.bufferSize
  inside : ∀ t ∈ s.copies, t.1+t.2 ≤ s.ctx.bufferSize
  stream : stream s.toOutput = s.accepted
  complete : s.closed = true → s.failed = false → s.file = s.handed

/-- A `pwrite` that a full buffer needs makes room for what is copied next, and the
last one writes all or fails. -/
def Roomy (s : Writing) : WriterAct → Prop
  | .call _ => True
  | .turn out => s.ctx.bufferPos = s.ctx.bufferSize →
      min s.todo.length s.ctx.bufferSize ≤ written out s.toOutput
  | .finish out => written out s.toOutput = s.ctx.bufferPos ∨ out = .failed

instance (s : Writing) (a : WriterAct) : Decidable (Roomy s a) :=
  match a with
  | .call _ => isTrue trivial
  | .turn _ => inferInstanceAs (Decidable (_ → _))
  | .finish _ => inferInstanceAs (Decidable (_ ∨ _))

/-- All that a step can do. -/
theorem writerStep_cases {s t : Writing} {a : WriterAct} (h : writerStep s a = some t) :
    (∃ data, a = .call data ∧ s.todo = [] ∧ s.closed = false ∧
      t = { s with todo := data, handed := s.handed++data }) ∨
    (∃ out, a = .turn out ∧ s.todo ≠ [] ∧ t = turn out s) ∨
    ∃ out, a = .finish out ∧ s.todo = [] ∧ s.closed = false ∧
      t = { s with
        toOutput := flushWriteBuffer out s.toOutput
        failed := sawFailure s out (flushWriteBuffer out s.toOutput)
        closed := true } := by
  cases a with
  | call data =>
    simp only [writerStep] at h
    split_ifs at h with hc
    exact Or.inl ⟨data,rfl,hc.1,hc.2,(Option.some.inj h).symm⟩
  | turn out =>
    simp only [writerStep] at h
    split_ifs at h with hc
    exact Or.inr (Or.inl ⟨out,rfl,hc,(Option.some.inj h).symm⟩)
  | finish out =>
    simp only [writerStep] at h
    split_ifs at h with hc
    exact Or.inr (Or.inr ⟨out,rfl,hc.1,hc.2,(Option.some.inj h).symm⟩)

theorem base_start (ctx : BufferedIOCtx) (hp : ctx.bufferPos = 0) (ho : ctx.fileOffset = 0) :
    Base (startWriting ctx) where
  atEnd := ho
  stream := by simp [stream,startWriting,hp,slice]
  handed := rfl
  idle := fun _ => rfl
  overrun := by simp [startWriting]

theorem turn_overrun {s : Writing} {out : PwriteOutcome} (hb : Base s) (ht : s.todo ≠ [])
    (hf : (turn out s).failed = true) (hc : s.closed = false) :
    ∃ t ∈ (turn out s).copies, s.ctx.bufferSize < t.1+t.2 := by
  by_cases hs : s.failed = true
  · obtain ⟨t,hm,hlt⟩ := hb.overrun hc hs
    exact ⟨t,List.mem_append_left _ hm,hlt⟩
  · have hnew : (makeRoom out s.toOutput).1.pwrites ≠ s.pwrites ∧ out = .failed := by
      simpa [turn,sawFailure,hs] using hf
    have hz : sizeSub s.ctx.bufferSize s.ctx.bufferPos = 0 := by
      by_contra hz
      exact hnew.1 (by rw [makeRoom_free out hz])
    have hfull := room_full hz
    have hpos := s.ctx.nonempty
    have hlen := List.length_pos_of_ne_nil ht
    refine ⟨_,List.mem_append_right _ (List.mem_singleton_self _),?_⟩
    rw [makeRoom_full out hz,(flush_spec out hb.atEnd).pos,hnew.2]
    have hw : written .failed s.toOutput = 0 := by simp [written,PwriteOutcome.returned]
    dsimp only
    rw [hw,List.length_take]
    omega

theorem base_step {s t : Writing} {a : WriterAct} (hb : Base s) (h : writerStep s a = some t) :
    Base t := by
  obtain ⟨data,rfl,hd,hc,rfl⟩ | ⟨out,rfl,hd,rfl⟩ | ⟨out,rfl,hd,hc,rfl⟩ := writerStep_cases h
  · refine ⟨hb.atEnd,hb.stream,?_,fun hcl => absurd (hc.symm.trans hcl) (by decide),hb.overrun⟩
    have := hb.handed
    rw [hd,List.append_nil] at this
    exact congrArg (·++data) this
  · obtain ⟨hend,hstream,hsize⟩ := makeRoom_keeps out hb.atEnd
    refine ⟨hend,?_,?_,fun hcl => absurd (hb.idle hcl) hd,?_⟩
    · exact (copyIn_stream _ _).trans (congrArg (·++_) (hstream.trans hb.stream))
    · change (s.accepted++s.todo.take _)++s.todo.drop _ = s.handed
      rw [List.append_assoc,List.take_append_drop]
      exact hb.handed
    · intro hc hf
      obtain ⟨t,hm,hlt⟩ := turn_overrun hb hd hf hc
      exact ⟨t,hm,Nat.lt_of_le_of_lt (Nat.le_of_eq hsize) hlt⟩
  · have hf := flush_spec out hb.atEnd
    exact ⟨flush_atEnd hb.atEnd hf,(flush_stream hb.atEnd hf).trans hb.stream,hb.handed,
      fun _ => hd,fun hcl => absurd hcl (by simp)⟩

/-- One iteration keeps inside the buffer exactly when the flush, if there was
one, made room for the copy. -/
theorem turn_intact_iff {s : Writing} (out : PwriteOutcome) (hb : Base s) (hi : Intact s)
    (hd : s.todo ≠ []) (h : writerStep s (.turn out) = some (turn out s)) :
    Intact (turn out s) ↔ Roomy s (.turn out) := by
  have hsub := sizeSub_le hi.bounded
  have hbase := base_step hb h
  have hw := written_le out s.toOutput
  have hcopy : Intact (turn out s) ↔ (makeRoom out s.toOutput).1.ctx.bufferPos+
      (s.todo.take (makeRoom out s.toOutput).2).length ≤ s.ctx.bufferSize := by
    have hsize := (makeRoom_keeps out hb.atEnd).2.2
    constructor
    · intro ht
      have := ht.bounded
      exact le_of_le_of_eq this hsize
    · intro hle
      refine ⟨le_of_le_of_eq hle hsize.symm,?_,hbase.stream,?_⟩
      · intro t ht
        refine le_of_le_of_eq ?_ hsize.symm
        rcases List.mem_append.mp ht with ht | ht
        · exact hi.inside t ht
        · rw [List.mem_singleton.mp ht]
          exact hle
      · intro hcl
        exact absurd (hb.idle hcl) hd
  rw [hcopy]
  by_cases hz : sizeSub s.ctx.bufferSize s.ctx.bufferPos = 0
  · have hfull := room_full hz
    have hle := hi.bounded
    rw [makeRoom_full out hz,(flush_spec out hb.atEnd).pos]
    dsimp only [Roomy]
    rw [List.length_take]
    omega
  · rw [makeRoom_free out hz,hsub]
    dsimp only [Roomy]
    rw [List.length_take]
    omega

theorem finish_intact_iff {s t : Writing} (out : PwriteOutcome) (hb : Base s) (hi : Intact s)
    (hd : s.todo = []) (hc : s.closed = false) (h : writerStep s (.finish out) = some t) :
    Intact t ↔ Roomy s (.finish out) := by
  have hbase := base_step hb h
  have hw := written_le out s.toOutput
  have hf := flush_spec out hb.atEnd
  have hfalse : s.failed = false := by
    by_contra hs
    obtain ⟨k,hm,hlt⟩ := hb.overrun hc (by simpa using hs)
    exact absurd (hi.inside k hm) (by omega)
  have hhanded : s.file++slice s.ctx.buffer 0 s.ctx.bufferPos = s.handed := by
    rw [←stream_atEnd hb.atEnd,hb.stream,←hb.handed,hd,List.append_nil]
  obtain ⟨_,ha,_⟩ | ⟨_,ha,_⟩ | ⟨o,ha,_,_,rfl⟩ := writerStep_cases h
  · cases ha
  · cases ha
  · cases ha
    constructor
    · intro ht
      by_cases hout : out = .failed
      · exact Or.inr hout
      · left
        have hfile := ht.complete rfl (by simp [sawFailure,hfalse,hout])
        have hlen := congrArg List.length (hf.file.symm.trans (hfile.trans hhanded.symm))
        simp only [List.length_append,slice_length] at hlen
        omega
    · intro hr
      refine ⟨?_,?_,hbase.stream,?_⟩
      · have := hi.bounded
        exact Nat.le_trans (Nat.le_of_eq hf.pos) (Nat.le_trans (Nat.sub_le ..)
          (le_of_le_of_eq this hf.size.symm))
      · intro k hk
        exact le_of_le_of_eq (hi.inside k hk) hf.size.symm
      · intro _ hnot
        refine hf.file.trans ?_
        rcases hr with hr | hr
        · rw [hr]
          exact hhanded
        · subst hr
          -- a failure that is not seen is a flush of an empty buffer
          have hz : s.ctx.bufferPos = 0 := by
            by_contra hz
            have hsaw : sawFailure s .failed (flushWriteBuffer .failed s.toOutput) = true := by
              simp [sawFailure,flushWriteBuffer,hz,PwriteOutcome.returned]
            exact absurd (hnot.symm.trans hsaw) (by decide)
          have hz' : written .failed s.toOutput = s.ctx.bufferPos := by omega
          rw [hz']
          exact hhanded

theorem intact_step_iff {s t : Writing} {a : WriterAct} (hb : Base s) (hi : Intact s)
    (h : writerStep s a = some t) : Intact t ↔ Roomy s a := by
  obtain ⟨data,rfl,_,hc,rfl⟩ | ⟨out,rfl,hd,rfl⟩ | ⟨out,rfl,hd,hc,_⟩ := writerStep_cases h
  · refine iff_of_true ?_ trivial
    exact ⟨hi.bounded,hi.inside,hi.stream,fun hcl => absurd (hc.symm.trans hcl) (by decide)⟩
  · exact turn_intact_iff out hb hi hd h
  · exact finish_intact_iff out hb hi hd hc h

/-- What is kept between two steps, and in the middle of an iteration, when its
flush is done and its copy is not. -/
structure Sound (s : Writing) : Prop extends Intact s where
  flushed : ∀ out, (flushWriteBuffer out s.toOutput).ctx.bufferPos ≤ s.ctx.bufferSize ∧
    BufferedWriter.stream (flushWriteBuffer out s.toOutput) = s.accepted

theorem sound_iff {s : Writing} (hb : Base s) : Sound s ↔ Intact s := by
  refine ⟨fun h => h.toIntact,fun h => ⟨h,?_⟩⟩
  intro out
  have hf := flush_spec out hb.atEnd
  refine ⟨?_,(flush_stream hb.atEnd hf).trans hb.stream⟩
  rw [hf.pos]
  exact Nat.le_trans (Nat.sub_le ..) h.bounded

section Start

variable (memory : ℕ → UInt8) (bufferSize : ℕ) (hpos : 0 < bufferSize) (hfits : bufferSize < 2^64)

def newWriter : Writing := startWriting (bufferedIoInit memory bufferSize hpos hfits)

theorem base_new : Base (newWriter memory bufferSize hpos hfits) := base_start _ rfl rfl

theorem intact_new : Intact (newWriter memory bufferSize hpos hfits) where
  bounded := Nat.zero_le _
  inside := by simp [newWriter,startWriting]
  stream := (base_new memory bufferSize hpos hfits).stream
  complete := by simp [newWriter,startWriting]

/-- In every run the writer keeps inside its buffer, loses no byte that it has
accepted and ends with a complete file, exactly when every step of the run is
roomy. -/
theorem writer_sound_iff (acts : List WriterAct) (t : Writing)
    (hr : exec writerStep (newWriter memory bufferSize hpos hfits) acts = some t) :
    Along writerStep Sound (newWriter memory bufferSize hpos hfits) acts ↔
      Meets writerStep Roomy (newWriter memory bufferSize hpos hfits) acts := by
  have hb := base_new memory bufferSize hpos hfits
  refine along_iff_meets writerStep Roomy Base Sound (fun _ _ _ => base_step) ?_ _ t acts hb
    ((sound_iff hb).mpr (intact_new memory bufferSize hpos hfits)) hr
  intro s a t hs hi ht
  rw [sound_iff (base_step hs ht)]
  exact intact_step_iff hs hi.toIntact ht

def roomyRun : List WriterAct :=
  [.call [1,2,3,4,5,6],.turn .complete,.turn (.short 3),.finish .complete]

theorem writer_sound_short : ∃ t, exec writerStep (newWriter (fun _ => 0) 4 (by decide) (by decide))
    roomyRun = some t ∧ Along writerStep Sound (newWriter (fun _ => 0) 4 (by decide) (by decide))
      roomyRun ∧ t.copies = [(0,4),(1,2)] ∧ t.file = [1,2,3,4,5,6] := by
  obtain ⟨t,ht,hp⟩ := exec_observe writerStep
    (fun t => decide (t.copies = [(0,4),(1,2)] ∧ t.file = [1,2,3,4,5,6]))
    (newWriter (fun _ => 0) 4 (by decide) (by decide)) roomyRun (by decide +kernel)
  obtain ⟨hcopies,hfile⟩ := of_decide_eq_true hp
  refine ⟨t,ht,?_,hcopies,hfile⟩
  exact (writer_sound_iff (fun _ => 0) 4 (by decide) (by decide) roomyRun t ht).mpr
    (by decide +kernel)

/-- One byte leaves the full buffer of four, and two are copied behind the other
three; with the buffer of the source, the final flush writes two bytes of four. -/
theorem short_write_overruns :
    ¬ Along writerStep Sound (newWriter (fun _ => 0) 4 (by decide) (by decide))
        [.call [1,2,3,4,5,6],.turn .complete,.turn (.short 1)] ∧
    ¬ Along writerStep Sound (newWriter (fun _ => 0) Persistence.bufferSize (by decide) (by decide))
        [.call [1,0,0,0],.turn .complete,.finish (.short 2)] := by
  constructor
  · intro h
    obtain ⟨t,ht,hp⟩ := exec_observe writerStep
      (fun t => decide ((3,2) ∈ t.copies ∧ t.ctx.bufferSize = 4))
      (newWriter (fun _ => 0) 4 (by decide) (by decide))
      [.call [1,2,3,4,5,6],.turn .complete,.turn (.short 1)] (by decide +kernel)
    obtain ⟨hm,hsize⟩ := of_decide_eq_true hp
    have := (along_last writerStep h ht).inside (3,2) hm
    omega
  · intro h
    obtain ⟨t,ht,hp⟩ := exec_observe writerStep
      (fun t => decide (t.closed = true ∧ t.failed = false ∧ t.file = [1,0] ∧ t.handed = [1,0,0,0]))
      (newWriter (fun _ => 0) Persistence.bufferSize (by decide) (by decide))
      [.call [1,0,0,0],.turn .complete,.finish (.short 2)] (by decide +kernel)
    obtain ⟨hc,hf,hfile,hhanded⟩ := of_decide_eq_true hp
    have := (along_last writerStep h ht).complete hc hf
    rw [hfile,hhanded] at this
    exact absurd this (by decide)

end Start

/-! ## Whole calls -/

section Calls

variable (io : ℕ → PwriteOutcome)

theorem loop_run (fuel : ℕ) (s : Writing) (hf : s.todo.length ≤ fuel) :
    ∃ acts t, exec writerStep s acts = some t ∧ (∀ a ∈ acts, ∃ n, a = .turn (io n)) ∧
      t.toOutput = bufferedWriteLoop io fuel s.toOutput s.todo ∧ t.todo = [] ∧
      t.handed = s.handed ∧ t.closed = s.closed := by
  induction fuel generalizing s with
  | zero =>
    have ht : s.todo = [] := List.length_eq_zero_iff.mp (Nat.le_zero.mp hf)
    exact ⟨[],s,rfl,by simp,rfl,ht,rfl,rfl⟩
  | succ fuel ih =>
    by_cases ht : s.todo = []
    · refine ⟨[],s,rfl,by simp,?_,ht,rfl,rfl⟩
      simp [bufferedWriteLoop,ht]
    · have hroom := makeRoom_pos (io s.pwrites) s.toOutput
      have hstep : writerStep s (.turn (io s.pwrites)) = some (turn (io s.pwrites) s) := if_neg ht
      obtain ⟨acts,t,he,ha,ho,hd,hh,hc⟩ := ih (turn (io s.pwrites) s) (by
        change (s.todo.drop _).length ≤ fuel
        rw [List.length_drop]
        omega)
      refine ⟨.turn (io s.pwrites)::acts,t,?_,?_,?_,hd,hh,hc⟩
      · rw [exec,hstep]
        exact he
      · intro a hm
        rcases List.mem_cons.mp hm with rfl | hm
        · exact ⟨s.pwrites,rfl⟩
        · exact ha a hm
      · rw [ho,bufferedWriteLoop,if_neg (by simpa using ht)]
        rfl

theorem call_run (s : Writing) (data : Bytes) (ht : s.todo = []) (hc : s.closed = false) :
    ∃ acts t, exec writerStep s (.call data::acts) = some t ∧ (∀ a ∈ acts, ∃ n, a = .turn (io n)) ∧
      t.toOutput = bufferedWrite io s.toOutput data ∧ t.todo = [] ∧
      t.handed = s.handed++data ∧ t.closed = false := by
  have hstep : writerStep s (.call data) =
      some { s with todo := data, handed := s.handed++data } := if_pos ⟨ht,hc⟩
  obtain ⟨acts,t,he,ha,ho,hd,hh,hcl⟩ :=
    loop_run io data.length { s with todo := data, handed := s.handed++data } (Nat.le_refl _)
  refine ⟨acts,t,?_,ha,ho,hd,hh,hcl.trans hc⟩
  rw [exec,hstep]
  exact he

theorem calls_run (ds : List Bytes) (s : Writing) (ht : s.todo = []) (hc : s.closed = false) :
    ∃ acts t, exec writerStep s acts = some t ∧
      (∀ a ∈ acts, (∃ data, a = .call data) ∨ ∃ n, a = .turn (io n)) ∧
      t.toOutput = ds.foldl (bufferedWrite io) s.toOutput ∧ t.todo = [] ∧
      t.handed = s.handed++ds.flatten ∧ t.closed = false := by
  induction ds generalizing s with
  | nil => exact ⟨[],s,rfl,by simp,rfl,ht,by simp,hc⟩
  | cons data ds ih =>
    obtain ⟨acts,m,he,ha,ho,hd,hh,hcl⟩ := call_run io s data ht hc
    obtain ⟨acts',t,he',ha',ho',hd',hh',hcl'⟩ := ih m hd hcl
    refine ⟨.call data::(acts++acts'),t,?_,?_,?_,hd',?_,hcl'⟩
    · rw [←List.cons_append,exec_append,he]
      exact he'
    · intro a hm
      rcases List.mem_cons.mp hm with rfl | hm
      · exact Or.inl ⟨data,rfl⟩
      · rcases List.mem_append.mp hm with hm | hm
        · exact Or.inr (ha a hm)
        · exact ha' a hm
    · rw [ho',ho,List.foldl_cons]
    · rw [hh',hh,List.flatten_cons,List.append_assoc]

end Calls

theorem complete_file (memory : ℕ → UInt8) (bufferSize : ℕ) (hpos : 0 < bufferSize)
    (hfits : bufferSize < 2^64) (ds : List Bytes) :
    (flushWriteBuffer .complete (ds.foldl (bufferedWrite (fun _ => .complete))
      (newWriter memory bufferSize hpos hfits).toOutput)).file = ds.flatten := by
  obtain ⟨acts,t,he,_,ho,hd,hh,_⟩ := calls_run (fun _ => .complete) ds
    (newWriter memory bufferSize hpos hfits) rfl rfl
  have hb : Base t := exec_preserves writerStep Base (fun _ _ _ => base_step) _ t acts
    (base_new memory bufferSize hpos hfits) he
  rw [←ho,(flush_spec .complete hb.atEnd).file,written_complete,←stream_atEnd hb.atEnd,hb.stream]
  have := hb.handed
  rw [hd,List.append_nil,hh] at this
  exact this

end ArchivalDedup.BufferedWriter
