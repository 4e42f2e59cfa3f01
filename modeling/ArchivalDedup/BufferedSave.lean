import ArchivalDedup.BufferedLoad
import ArchivalDedup.CutFiles
import ArchivalDedup.Sessions

/-!
# Unmounting on a disk that may be full

The saves of `index_destroy` written out with the buffered writer as it is. The
last `pwrite` of each file may write a part or fail, which nobody notices; the
next mount then finds five files that each end somewhere. It shows no block and
no size that was not there, and it hands out no slot that is in use.
-/

set_option autoImplicit false

namespace ArchivalDedup.BufferedSave
open ArchivalDedup.FiniteTable ArchivalDedup.LittleEndian ArchivalDedup.MetaIndex
open ArchivalDedup.ByteMap ArchivalDedup.BufferedStream ArchivalDedup.ReadDedup
open ArchivalDedup.Persistence hiding readElemBuffered writeElemBuffered
open ArchivalDedup.BufferedFile ArchivalDedup.BufferedWriter ArchivalDedup.BufferedLoad
open ArchivalDedup.Remount ArchivalDedup.CutFiles ArchivalDedup.Ledger ArchivalDedup.Threads
open ArchivalDedup.ThreadLedger ArchivalDedup.ReferenceSafety ArchivalDedup.FailedWrite
open ArchivalDedup.RemountSafety ArchivalDedup.Interleaving ArchivalDedup.Linearization
open ArchivalDedup.MasterExtent ArchivalDedup.Sessions

variable {α κ ν : Type}

/-- What the writer finds in memory, and what the last `pwrite` of its file comes
to. Those before it are complete: one that is not makes the writer overrun its
buffer. -/
structure Storing where
  memory : ℕ → UInt8
  last : PwriteOutcome

def allComplete : ℕ → PwriteOutcome := fun _ => .complete

def saveAllBuffered (io : Storing) (saveOne : Output → α → Output) (n : ℕ) (xs : List α) : Bytes :=
  (flushWriteBuffer io.last (xs.foldl saveOne (bufferedWrite allComplete
    (newWriter io.memory Persistence.bufferSize bufferSize_pos bufferSize_fits).toOutput
      (leBytes 4 n)))).file

def gslistSaveBuffered (io : Storing) (encode : α → Bytes) (list : List α) : Bytes :=
  saveAllBuffered io (fun s a => writeElemBuffered allComplete s (encode a)) list.length list

def saveEntryBuffered (encodeKey : κ → Bytes) (encodeVal : ν → Bytes) (s : Output)
    (e : Sigma fun _ : κ => ν) : Output :=
  writeElemBuffered allComplete (writeElemBuffered allComplete s (encodeKey e.1)) (encodeVal e.2)

def ghashSaveBuffered (io : Storing) (order : Listing κ ν) (encodeKey : κ → Bytes)
    (encodeVal : ν → Bytes) (t : Table κ ν) : Bytes :=
  saveAllBuffered io (saveEntryBuffered encodeKey encodeVal) t.entries.length (order.list t)

def saveIndexedEntryBuffered [DecidableEq ν] (encodeKey : κ → Bytes) (valueToIndex : Table ν ℕ)
    (s : Output) (e : Sigma fun _ : κ => ν) : Output :=
  match (find valueToIndex e.2).getD 0 with
  | 0 => s
  | idx+1 => writeElemBuffered allComplete (writeElemBuffered allComplete s (encodeKey e.1))
      (encodeSizeElem idx)

structure SaveIO where
  hashToMaster : Storing
  fileToMaster : Storing
  values : Storing
  fileToSizes : Storing
  freeBlockList : Storing

def indexDestroyBuffered (io : SaveIO) (u : Unmounting) (c : Context) : IndexFiles :=
  let s := collectValues u.pair c.hashToMaster c.fileToMaster
  { pair :=
      { values := gslistSaveBuffered io.values (fun a => encodeMasterInfo (u.pad a) (c.cell a)) s.values
        table1 := saveAllBuffered io.hashToMaster (saveIndexedEntryBuffered encodeHash s.valueToIndex)
          c.hashToMaster.entries.length (u.pair.save1.list c.hashToMaster)
        table2 := saveAllBuffered io.fileToMaster
          (saveIndexedEntryBuffered encodeBlockIndice s.valueToIndex)
          c.fileToMaster.entries.length (u.pair.save2.list c.fileToMaster) }
    fileToSizes := ghashSaveBuffered io.fileToSizes u.sizes encodeStr encodeSize c.fileToSizes
    freeBlockList := gslistSaveBuffered io.freeBlockList encodeFreeBlock c.freeBlockList }

def SaveIO.Complete (io : SaveIO) : Prop :=
  io.hashToMaster.last = .complete ∧ io.fileToMaster.last = .complete ∧
    io.values.last = .complete ∧ io.fileToSizes.last = .complete ∧ io.freeBlockList.last = .complete

/-! ## The file that a save leaves -/

def Mirrors (s : Output) (w : Writer UInt8) : Prop := AtEnd s ∧ stream s = w.stream

theorem bufferedWriteLoop_stream (io : ℕ → PwriteOutcome) (fuel : ℕ) (s : Output) (data : Bytes)
    (hf : data.length ≤ fuel) (h : AtEnd s) : AtEnd (bufferedWriteLoop io fuel s data) ∧
      stream (bufferedWriteLoop io fuel s data) = stream s++data := by
  induction fuel generalizing s data with
  | zero =>
    have hd : data = [] := List.length_eq_zero_iff.mp (Nat.le_zero.mp hf)
    simp [bufferedWriteLoop,hd,h]
  | succ fuel ih =>
    unfold bufferedWriteLoop
    split_ifs with hd
    · rw [List.length_eq_zero_iff.mp hd,List.append_nil]
      exact ⟨h,rfl⟩
    · obtain ⟨hend,hsame,_⟩ := makeRoom_keeps (io s.pwrites) h
      have hpos := makeRoom_pos (io s.pwrites) s
      have hcopy : AtEnd (copyIn (makeRoom (io s.pwrites) s).1
          (data.take (makeRoom (io s.pwrites) s).2)) := hend
      obtain ⟨h₁,h₂⟩ := ih _ (data.drop (makeRoom (io s.pwrites) s).2)
        (by rw [List.length_drop]; omega) hcopy
      refine ⟨h₁,?_⟩
      rw [h₂,copyIn_stream,hsame,List.append_assoc,List.take_append_drop]

theorem mirrors_write {s : Output} {w : Writer UInt8} (h : Mirrors s w) (data : Bytes) :
    Mirrors (bufferedWrite allComplete s data) (w.write Persistence.bufferSize data) := by
  obtain ⟨h₁,h₂⟩ := bufferedWriteLoop_stream allComplete data.length s data (Nat.le_refl _) h.1
  exact ⟨h₁,by rw [stream_write _ bufferSize_pos,←h.2]; exact h₂⟩

theorem mirrors_elem {s : Output} {w : Writer UInt8} (h : Mirrors s w) (b : Bytes) :
    Mirrors (writeElemBuffered allComplete s b) (Persistence.writeElemBuffered w b) :=
  mirrors_write (mirrors_write h _) b

theorem mirrors_new (memory : ℕ → UInt8) :
    Mirrors (newWriter memory Persistence.bufferSize bufferSize_pos bufferSize_fits).toOutput
      Writer.create :=
  ⟨(base_new memory Persistence.bufferSize bufferSize_pos bufferSize_fits).atEnd,
    (base_new memory Persistence.bufferSize bufferSize_pos bufferSize_fits).stream⟩

theorem flushed_front {s : Output} {w : Writer UInt8} (h : Mirrors s w) (out : PwriteOutcome) :
    (flushWriteBuffer out s).file <+: w.flush.file ∧
      (out = .complete → (flushWriteBuffer out s).file = w.flush.file) := by
  have hfile := (flush_spec out h.1).file
  have hwhole : w.flush.file = s.file++slice s.ctx.buffer 0 s.ctx.bufferPos := by
    rw [file_flush,←h.2,stream_atEnd h.1]
  rw [hfile,hwhole]
  constructor
  · rw [List.prefix_append_right_inj]
    have hsplit := slice_append s.ctx.buffer 0 (written out s) (s.ctx.bufferPos-written out s)
    rw [Nat.add_sub_cancel' (written_le out s)] at hsplit
    rw [hsplit]
    exact List.prefix_append ..
  · intro hout
    rw [hout,written_complete]

variable {saveLow : Output → α → Output} {saveHigh : Writer UInt8 → α → Writer UInt8}

theorem save_front (h : ∀ s w x, Mirrors s w → Mirrors (saveLow s x) (saveHigh w x)) (io : Storing)
    (n : ℕ) (xs : List α) : saveAllBuffered io saveLow n xs <+: saveAll saveHigh n xs ∧
      (io.last = .complete → saveAllBuffered io saveLow n xs = saveAll saveHigh n xs) := by
  have hfold : ∀ (xs : List α) (s : Output) (w : Writer UInt8), Mirrors s w →
      Mirrors (xs.foldl saveLow s) (xs.foldl saveHigh w) := by
    intro xs
    induction xs with
    | nil => exact fun _ _ hm => hm
    | cons x xs ih => exact fun s w hm => ih _ _ (h s w x hm)
  exact flushed_front (hfold xs _ _ (mirrors_write (mirrors_new io.memory) (leBytes 4 n))) io.last

theorem mirrors_entry (encodeKey : κ → Bytes) (encodeVal : ν → Bytes) (s : Output)
    (w : Writer UInt8) (e : Sigma fun _ : κ => ν) (h : Mirrors s w) :
    Mirrors (saveEntryBuffered encodeKey encodeVal s e) (saveEntry encodeKey encodeVal w e) :=
  mirrors_elem (mirrors_elem h _) _

theorem mirrors_indexed [DecidableEq ν] (encodeKey : κ → Bytes) (valueToIndex : Table ν ℕ)
    (s : Output) (w : Writer UInt8) (e : Sigma fun _ : κ => ν) (h : Mirrors s w) :
    Mirrors (saveIndexedEntryBuffered encodeKey valueToIndex s e)
      (saveIndexedEntry encodeKey valueToIndex w e) := by
  unfold saveIndexedEntryBuffered saveIndexedEntry
  generalize (find valueToIndex e.2).getD 0 = position
  cases position with
  | zero => exact h
  | succ idx => exact mirrors_elem (mirrors_elem h _) _

theorem prefix_take {file whole : Bytes} (h : file <+: whole) : file = whole.take file.length :=
  List.prefix_iff_eq_take.mp h

def endsOf (f : IndexFiles) : Cuts where
  hashToMaster := f.pair.table1.length
  fileToMaster := f.pair.table2.length
  values := f.pair.values.length
  fileToSizes := f.fileToSizes.length
  freeBlockList := f.freeBlockList.length

theorem indexFiles_ext {f g : IndexFiles} (h₁ : f.pair.table1 = g.pair.table1)
    (h₂ : f.pair.table2 = g.pair.table2) (h₃ : f.pair.values = g.pair.values)
    (h₄ : f.fileToSizes = g.fileToSizes) (h₅ : f.freeBlockList = g.freeBlockList) : f = g := by
  obtain ⟨⟨_,_,_⟩,_,_⟩ := f
  obtain ⟨⟨_,_,_⟩,_,_⟩ := g
  simp only at h₁ h₂ h₃ h₄ h₅
  subst h₁ h₂ h₃ h₄ h₅
  rfl

/-- An unmount leaves the files that it is meant to leave, each cut where its last
`pwrite` stopped. -/
theorem saved_files (io : SaveIO) (u : Unmounting) (c : Context) :
    indexDestroyBuffered io u c =
        cutFiles (endsOf (indexDestroyBuffered io u c)) (indexDestroy u c) ∧
      (io.Complete → indexDestroyBuffered io u c = indexDestroy u c) := by
  set index := (collectValues u.pair c.hashToMaster c.fileToMaster).valueToIndex
  have h₁ := save_front (mirrors_indexed encodeHash index) io.hashToMaster
    c.hashToMaster.entries.length (u.pair.save1.list c.hashToMaster)
  have h₂ := save_front (mirrors_indexed encodeBlockIndice index) io.fileToMaster
    c.fileToMaster.entries.length (u.pair.save2.list c.fileToMaster)
  have h₃ := save_front (fun s w a h => mirrors_elem h (encodeMasterInfo (u.pad a) (c.cell a)))
    io.values (savedValues u c).length (savedValues u c)
  have h₄ := save_front (mirrors_entry encodeStr encodeSize) io.fileToSizes
    c.fileToSizes.entries.length (u.sizes.list c.fileToSizes)
  have h₅ := save_front (fun s w q h => mirrors_elem h (encodeFreeBlock q)) io.freeBlockList
    c.freeBlockList.length c.freeBlockList
  constructor
  · exact indexFiles_ext (prefix_take h₁.1) (prefix_take h₂.1) (prefix_take h₃.1)
      (prefix_take h₄.1) (prefix_take h₅.1)
  · rintro ⟨l₁,l₂,l₃,l₄,l₅⟩
    exact indexFiles_ext (h₁.2 l₁) (h₂.2 l₂) (h₃.2 l₃) (h₄.2 l₄) (h₅.2 l₅)

/-! ## The mount that follows -/

def xmpInitBuffered (io : LoadIO) (i : Mounting) (f : IndexFiles) (file : MasterFile) : Context where
  toIndex := (indexInitBuffered io i f).1
  toHeap := (indexInitBuffered io i f).2
  toMasterFile := file
  nextBlockIndex := file.fileSize/blockSize

theorem xmpInit_buffered (io : LoadIO) (i : Mounting) (f : IndexFiles) (file : MasterFile) :
    xmpInitBuffered io i f file = xmpInit i f file := by
  unfold xmpInitBuffered xmpInit
  rw [indexInit_short_reads]

def remountBuffered (out : SaveIO) (io : LoadIO) (u : Unmounting) (i : Mounting) (c : Context) :
    Context :=
  xmpInitBuffered io i (indexDestroyBuffered out u c) c.toMasterFile

variable {c : Context} {u : Unmounting} {i : Mounting}

theorem cutPtrs_live {cut : ℕ} {x : Ptr} (hx : x ∈ (cutPtrs u i c cut).2.live) :
    ∃ a, Held c a ∧ (cutPtrs u i c cut).2.cell x = c.cell a := by
  unfold cutPtrs at hx ⊢
  obtain ⟨_,_,_,hlive,_,hcell⟩ := mallocAll_spec i.alloc_fresh (((savedValues u c).map c.cell).take
    (min (restored (savedValues u c).length)
      (wholeCount (valueCode u c) (cut-4) (savedValues u c)))) emptyHeap
  have hmem := ((hlive x).mp hx).resolve_left (by simp [emptyHeap])
  obtain ⟨j,hj⟩ := List.mem_iff_getElem?.mp hmem
  have hin := List.mem_of_mem_take (List.mem_of_getElem? (hcell j x hj))
  obtain ⟨a,ha,heq⟩ := List.mem_map.mp hin
  exact ⟨a,(mem_savedValues u a).mp ha,heq.symm⟩

structure Salvaged (c d : Context) : Prop where
  blocks : ∀ p b x, (volume d).blocks p b = some x → (volume c).blocks p b = some x
  sizes : ∀ p n, (volume d).size p = some n → (volume c).size p = some n
  apart : AllocatesApart d

theorem cut_salvaged (h : Inv ∅ c []) (hr : InRange c) (hs : SmallTables u c)
    (hn : c.fileSize/blockSize = c.nextBlockIndex) (k : Cuts) :
    Salvaged c (xmpInit i (cutFiles k (indexDestroy u c)) c.toMasterFile) := by
  have hl := cut_loaded u i hr hs k
  obtain ⟨hd,hfree,hpub⟩ := idle_slots h
  constructor
  · intro p b x hx
    obtain ⟨y,hy,rfl⟩ := Option.map_eq_some_iff.mp hx
    obtain ⟨a,ha,_,hcell⟩ := hl.fileInfos ⟨p,b⟩ y hy
    simp only [volume,ha,Option.map_some]
    exact congrArg (fun m : MasterInfo => some (c.toMasterFile.block m.masterBlockIndex)) hcell.symm
  · exact hl.sizes
  · have hsub : ∀ q ∈ (indexInit i (cutFiles k (indexDestroy u c))).1.freeBlockList,
        q ∈ c.freeBlockList := fun q hq => hl.freePrefix.subset hq
    refine allocatesApart_of (hd.sublist hl.freePrefix.sublist) ?_ ?_
    · intro q hq
      exact Nat.lt_of_lt_of_eq (hfree q (hsub q hq)) hn.symm
    · intro x hx
      have hheap := (cut_tables u i hr k).2.2
      change x ∈ (indexInit i (cutFiles k (indexDestroy u c))).2.live at hx
      rw [hheap] at hx
      obtain ⟨a,ha,hcell⟩ := cutPtrs_live hx
      obtain ⟨hlt,hout⟩ := hpub a (held_published h ha).1
      change ((indexInit i (cutFiles k (indexDestroy u c))).2.cell x).masterBlockIndex <
        c.fileSize/blockSize ∧ ((indexInit i (cutFiles k (indexDestroy u c))).2.cell x).masterBlockIndex ∉
          (indexInit i (cutFiles k (indexDestroy u c))).1.freeBlockList
      rw [hheap,hcell,hn]
      exact ⟨hlt,fun hq => hout (hsub _ hq)⟩

variable {sha512 : List UInt8 → Hash} {qsort : List BlockPair → List BlockPair}

/-- After a clean run that filled its slots, an unmount may lose entries, when its
`pwrite`s do not complete, but the next mount shows nothing that was not there
and allocates no slot in use; and when they complete it shows all of it. -/
theorem failed_unmount_safe (acts : List Action) (s : System) (hr : Reaches sha512 qsort acts s)
    (hc : Meets (step sha512 qsort) (Clean sha512) emptySystem acts) (hq : Quiescent s)
    (hf : Reaching s.ctx) (u : Unmounting) (i : Mounting) (hs : SmallTables u s.ctx)
    (out : SaveIO) (io : LoadIO) :
    CutLoaded u s.ctx (endsOf (indexDestroyBuffered out u s.ctx))
        (indexInitBuffered io i (indexDestroyBuffered out u s.ctx)) ∧
      Salvaged s.ctx (remountBuffered out io u i s.ctx) ∧
      (out.Complete → volume (remountBuffered out io u i s.ctx) = volume s.ctx) := by
  have hidle : Idle s.ctx := idle_run idle_empty hc hr hq
  have hrange := idle_inRange hidle hs
  obtain ⟨hcut,hwhole⟩ := saved_files out u s.ctx
  unfold remountBuffered
  rw [xmpInit_buffered,indexInit_short_reads]
  refine ⟨?_,?_,?_⟩
  · have hl := cut_loaded u i hrange hs (endsOf (indexDestroyBuffered out u s.ctx))
    rwa [←hcut] at hl
  · rw [hcut]
    exact cut_salvaged hidle.ledger hrange hs (idle_next hidle hf) _
  · intro hout
    rw [hwhole hout]
    obtain ⟨ρ,hρ⟩ := remount_renamed u i hrange hs
    exact volume_renamed hρ rfl

def fullDisk : SaveIO where
  hashToMaster := ⟨fun _ => 0,.complete⟩
  fileToMaster := ⟨fun _ => 0,.complete⟩
  values := ⟨fun _ => 0,.complete⟩
  fileToSizes := ⟨fun _ => 0,.failed⟩
  freeBlockList := ⟨fun _ => 0,.short 7⟩

def threeBytes : Fetching := ⟨fun _ => 0,fun _ => 3⟩

def slowLoad : LoadIO := ⟨threeBytes,threeBytes,threeBytes,threeBytes,threeBytes⟩

theorem failed_unmount_settled : ∃ s, Reaches sampleSha512 id settledBlocks s ∧
    Meets (step sampleSha512 id) (Clean sampleSha512) emptySystem settledBlocks ∧ Quiescent s ∧
    Reaching s.ctx ∧ SmallTables SequentialRun.sampleUnmounting s.ctx ∧
    find s.ctx.fileToMaster ⟨fileB,0⟩ = some 0 ∧ Salvaged s.ctx (remountBuffered fullDisk slowLoad
      SequentialRun.sampleUnmounting SequentialRun.sampleMounting s.ctx) := by
  obtain ⟨s,hr,hp⟩ := exec_observe (step sampleSha512 id)
    (fun s => (∀ st ∈ s.procs, st.finished = true) ∧ Reaching s.ctx ∧
      SmallTables SequentialRun.sampleUnmounting s.ctx ∧
      find s.ctx.fileToMaster ⟨fileB,0⟩ = some 0) emptySystem settledBlocks (by decide +kernel)
  obtain ⟨hq,hf,hs,hk⟩ := of_decide_eq_true hp
  exact ⟨s,hr,settledBlocks_clean,hq,hf,hs,hk,(failed_unmount_safe settledBlocks s hr
    settledBlocks_clean hq hf SequentialRun.sampleUnmounting SequentialRun.sampleMounting hs fullDisk
    slowLoad).2.1⟩

end ArchivalDedup.BufferedSave
