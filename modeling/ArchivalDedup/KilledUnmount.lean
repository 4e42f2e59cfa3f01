import Mathlib.Tactic.IntervalCases
import ArchivalDedup.BufferedSave
import ArchivalDedup.SavedElements

/-!
# A process that is killed while it unmounts

`index_destroy` replaces five files one after another: both tables are emptied,
then the values are written, then each table, then the sizes, then the free list.
Every file is opened with `O_SYNC`, so a kill leaves what was written before it
and a part of the write it interrupts. Once the tables have been emptied the next
mount shows no wrong block. Until the free list is emptied it is the list of the
last mount, and a slot that was taken from it since is handed out again.
-/

set_option autoImplicit false

namespace ArchivalDedup.KilledUnmount
open ArchivalDedup.FiniteTable ArchivalDedup.MetaIndex ArchivalDedup.ReadDedup
open ArchivalDedup.Persistence ArchivalDedup.CutFiles
open ArchivalDedup.Remount ArchivalDedup.Ledger
open ArchivalDedup.Threads ArchivalDedup.ThreadLedger ArchivalDedup.ReferenceSafety
open ArchivalDedup.FailedWrite ArchivalDedup.RemountSafety ArchivalDedup.Interleaving
open ArchivalDedup.Linearization ArchivalDedup.MasterExtent ArchivalDedup.Sessions
open ArchivalDedup.BufferedSave ArchivalDedup.ElementDecoding ArchivalDedup.SavedElements

inductive IndexFile where
  | hashToMaster
  | fileToMaster
  | masterInfos
  | fileToSizes
  | freeBlockList
  deriving DecidableEq

abbrev Disk := IndexFile → Bytes

def Disk.files (d : Disk) : IndexFiles where
  pair := ⟨d .hashToMaster,d .fileToMaster,d .masterInfos⟩
  fileToSizes := d .fileToSizes
  freeBlockList := d .freeBlockList

/-- What a save does to a file: `open` with `O_TRUNC`, and the `pwrite`s up to the
flush. -/
inductive DiskOp where
  | truncate (f : IndexFile)
  | append (f : IndexFile) (bytes : Bytes)

def runOp (d : Disk) : DiskOp → Disk
  | .truncate f => Function.update d f []
  | .append f bytes => Function.update d f (d f++bytes)

def saved (u : Unmounting) (c : Context) : Disk
  | .hashToMaster => (indexDestroy u c).pair.table1
  | .fileToMaster => (indexDestroy u c).pair.table2
  | .masterInfos => (indexDestroy u c).pair.values
  | .fileToSizes => (indexDestroy u c).fileToSizes
  | .freeBlockList => (indexDestroy u c).freeBlockList

/-- `index_destroy` in its order: both tables are opened before the values are
saved and written after them. -/
def saveOps (new : Disk) : List DiskOp :=
  [.truncate .hashToMaster,.truncate .fileToMaster,
    .truncate .masterInfos,.append .masterInfos (new .masterInfos),
    .append .hashToMaster (new .hashToMaster),.append .fileToMaster (new .fileToMaster),
    .truncate .fileToSizes,.append .fileToSizes (new .fileToSizes),
    .truncate .freeBlockList,.append .freeBlockList (new .freeBlockList)]

/-- A kill after `n` operations, with `cut` bytes of a write in progress. -/
def killed (old : Disk) (ops : List DiskOp) (n cut : ℕ) : Disk :=
  let d := (ops.take n).foldl runOp old
  match ops[n]? with
  | some (.append f bytes) => runOp d (.append f (bytes.take cut))
  | _ => d

/-! ## The files that a kill leaves -/

def truncatedBy : IndexFile → ℕ
  | .hashToMaster => 1
  | .fileToMaster => 2
  | .masterInfos => 3
  | .fileToSizes => 7
  | .freeBlockList => 9

def writtenAt : IndexFile → ℕ
  | .hashToMaster => 4
  | .fileToMaster => 5
  | .masterInfos => 3
  | .fileToSizes => 7
  | .freeBlockList => 9

def keptBytes (new : Disk) (n cut : ℕ) (f : IndexFile) : ℕ :=
  if n < writtenAt f then 0 else if n = writtenAt f then cut else (new f).length

theorem killed_late (old new : Disk) {n : ℕ} (cut : ℕ) (hn : 10 ≤ n) :
    killed old (saveOps new) n cut = new := by
  have htake : (saveOps new).take n = saveOps new := List.take_of_length_le hn
  have hnone : (saveOps new)[n]? = none := List.getElem?_eq_none hn
  unfold killed
  rw [htake,hnone]
  funext f
  cases f <;> simp [saveOps,runOp,Function.update]

theorem killed_file (old new : Disk) (n cut : ℕ) (f : IndexFile) :
    killed old (saveOps new) n cut f =
      if n < truncatedBy f then old f else (new f).take (keptBytes new n cut f) := by
  by_cases hn : 10 ≤ n
  · have hlate : truncatedBy f ≤ n ∧ writtenAt f < n := by
      cases f <;> simp only [truncatedBy,writtenAt] <;> omega
    rw [killed_late old new cut hn,if_neg (by omega),keptBytes,if_neg (by omega),if_neg (by omega),
      List.take_length]
  · have hlt : n < 10 := by omega
    interval_cases n <;> cases f <;>
      simp [killed,saveOps,runOp,Function.update,truncatedBy,writtenAt,keptBytes]

section Files

variable (old new : Disk) {n : ℕ} (cut : ℕ) {f : IndexFile}

theorem killed_old (h : n < truncatedBy f) : killed old (saveOps new) n cut f = old f := by
  rw [killed_file,if_pos h]

theorem killed_new (h : truncatedBy f ≤ n) :
    killed old (saveOps new) n cut f = (new f).take (keptBytes new n cut f) := by
  rw [killed_file,if_neg (Nat.not_lt.mpr h)]

theorem killed_done (h : truncatedBy f ≤ n) (hw : writtenAt f < n) :
    killed old (saveOps new) n cut f = new f := by
  rw [killed_new old new cut h,keptBytes,if_neg (by omega),if_neg (by omega),List.take_length]

end Files

variable (old : Disk) {u : Unmounting} {i : Mounting} {c : Context} {n : ℕ} (cut : ℕ)

def cutsOf (new : Disk) (n cut : ℕ) : Cuts where
  hashToMaster := keptBytes new n cut .hashToMaster
  fileToMaster := keptBytes new n cut .fileToMaster
  values := keptBytes new n cut .masterInfos
  fileToSizes := keptBytes new n cut .fileToSizes
  freeBlockList := keptBytes new n cut .freeBlockList

theorem killed_pair (hn : 3 ≤ n) : (killed old (saveOps (saved u c)) n cut).files.pair =
    (cutFiles (cutsOf (saved u c) n cut) (indexDestroy u c)).pair := by
  have h₁ := killed_new old (saved u c) cut (f := .hashToMaster) ((by decide : 1 ≤ 3).trans hn)
  have h₂ := killed_new old (saved u c) cut (f := .fileToMaster) ((by decide : 2 ≤ 3).trans hn)
  have h₃ := killed_new old (saved u c) cut (f := .masterInfos) hn
  simp only [Disk.files,h₁,h₂,h₃]
  rfl

theorem killed_all (hn : 9 ≤ n) : (killed old (saveOps (saved u c)) n cut).files =
    cutFiles (cutsOf (saved u c) n cut) (indexDestroy u c) := by
  have hpair := killed_pair old (u := u) (c := c) cut ((by decide : 3 ≤ 9).trans hn)
  have h₄ := killed_new old (saved u c) cut (f := .fileToSizes) ((by decide : 7 ≤ 9).trans hn)
  have h₅ := killed_new old (saved u c) cut (f := .freeBlockList) hn
  exact indexFiles_ext (congrArg PairFiles.table1 hpair) (congrArg PairFiles.table2 hpair)
    (congrArg PairFiles.values hpair) h₄ h₅

theorem killed_whole (hn : 6 ≤ n) : (killed old (saveOps (saved u c)) n cut).files.pair =
    (indexDestroy u c).pair := by
  have h₁ := killed_done old (saved u c) cut (f := .hashToMaster) ((by decide : 1 ≤ 6).trans hn)
    ((by decide : 4 < 6).trans_le hn)
  have h₂ := killed_done old (saved u c) cut (f := .fileToMaster) ((by decide : 2 ≤ 6).trans hn)
    ((by decide : 5 < 6).trans_le hn)
  have h₃ := killed_done old (saved u c) cut (f := .masterInfos) ((by decide : 3 ≤ 6).trans hn)
    ((by decide : 3 < 6).trans_le hn)
  simp only [Disk.files,h₁,h₂,h₃]
  rfl

/-! ## The mount that follows -/

theorem pair_loaded {f g : IndexFiles} (h : f.pair = g.pair) :
    (indexInit i f).1.hashToMaster = (indexInit i g).1.hashToMaster ∧
    (indexInit i f).1.fileToMaster = (indexInit i g).1.fileToMaster ∧
    (indexInit i f).2 = (indexInit i g).2 := by
  obtain ⟨pair,_,_⟩ := f
  obtain ⟨pair',_,_⟩ := g
  cases h
  exact ⟨rfl,rfl,rfl⟩

theorem pair_blocks {f g : IndexFiles} (h : f.pair = g.pair) (file : MasterFile) :
    (volume (xmpInit i f file)).blocks = (volume (xmpInit i g file)).blocks := by
  obtain ⟨_,htable,hheap⟩ := pair_loaded (i := i) h
  funext p b
  simp only [volume,xmpInit]
  rw [htable,hheap]

theorem loadIndexed_empty {κ ν : Type} [DecidableEq κ] (order : Listing κ ℕ)
    (decodeKey : Bytes → Option κ) (values : List ν) : loadIndexed order decodeKey values [] = ∅ := by
  have hempty : ghashLoad decodeKey decodeSizeElem [] = ∅ := rfl
  have hnil : order.list ∅ = [] := List.perm_nil.mp (order.perm ∅)
  rw [loadIndexed,hempty,hnil]
  rfl

theorem allocated_free (h : AllocatesApart c) :
    ∀ q ∈ c.freeBlockList, ∀ x ∈ c.live, (c.cell x).masterBlockIndex ≠ q := by
  intro q hq
  refine (h [c.freeBlockList.length]).2 q ?_
  have htake : q ∈ c.freeBlockList.take c.freeBlockList.length := by rwa [List.take_length]
  exact List.mem_append_left _ (List.mem_append_left _ htake)

def remountKilled (old : Disk) (u : Unmounting) (i : Mounting) (n cut : ℕ) (c : Context) : Context :=
  xmpInit i (killed old (saveOps (saved u c)) n cut).files c.toMasterFile

/-- With both tables empty the mount shows nothing; later it shows what the cuts
have left. -/
theorem killed_blocks (h : Idle c) (hf : Reaching c) (hs : SmallTables u c) (hn : 2 ≤ n) :
    ∀ p b x, (volume (remountKilled old u i n cut c)).blocks p b = some x →
      (volume c).blocks p b = some x := by
  intro p b x hx
  by_cases h2 : n = 2
  · subst h2
    have hempty : (killed old (saveOps (saved u c)) 2 cut).files.pair.table2 = [] := rfl
    have hnone : (remountKilled old u i 2 cut c).fileToMaster = ∅ := by
      change loadIndexed i.pair.load2 Remount.decodeBlockIndice _
        (killed old (saveOps (saved u c)) 2 cut).files.pair.table2 = ∅
      rw [hempty]
      exact loadIndexed_empty _ _ _
    simp only [volume,hnone,find_empty,Option.map_none] at hx
    cases hx
  · have hblocks := pair_blocks (i := i) (killed_pair old (u := u) (c := c) cut
      (by omega : 3 ≤ n)) c.toMasterFile
    refine (cut_salvaged (i := i) h.ledger (idle_inRange h hs) hs (idle_next h hf)
      (cutsOf (saved u c) n cut)).blocks p b x ?_
    rw [←hblocks]
    exact hx

theorem killed_apart (h : Idle c) (hf : Reaching c) (hs : SmallTables u c) (hn : 3 ≤ n)
    (hd : (remountKilled old u i n cut c).freeBlockList.Nodup)
    (hlt : ∀ q ∈ (remountKilled old u i n cut c).freeBlockList, q < c.nextBlockIndex)
    (hfree : ∀ q ∈ (remountKilled old u i n cut c).freeBlockList, ∀ a, Published c a →
      (c.cell a).masterBlockIndex ≠ q) : AllocatesApart (remountKilled old u i n cut c) := by
  have hnext : (remountKilled old u i n cut c).nextBlockIndex = c.nextBlockIndex := idle_next h hf
  refine allocatesApart_of hd (by rwa [hnext]) ?_
  intro x hx
  have hheap : (remountKilled old u i n cut c).toHeap =
      (cutPtrs u i c (cutsOf (saved u c) n cut).values).2 :=
    (pair_loaded (killed_pair old cut hn)).2.2.trans
      (cut_tables u i (idle_inRange h hs) (cutsOf (saved u c) n cut)).2.2
  rw [hheap] at hx ⊢
  obtain ⟨a,ha,hcell⟩ := cutPtrs_live hx
  have hpub := (held_published h.ledger ha).1
  rw [hcell,hnext]
  exact ⟨((idle_slots h.ledger).2.2 a hpub).1,fun hq => hfree _ hq a hpub rfl⟩

theorem killed_live (h : Idle c) (hs : SmallTables u c) (hn : 6 ≤ n) {a : Ptr}
    (ha : Published c a) : ∃ x ∈ (remountKilled old u i n cut c).live,
      (remountKilled old u i n cut c).cell x = c.cell a := by
  obtain ⟨ρ,hρ⟩ := remount_renamed u i (idle_inRange h hs) hs
  have hheld : Held c a := Or.inl ⟨_,ha⟩
  have hheap : (remountKilled old u i n cut c).toHeap = (remount u i c).toHeap :=
    (pair_loaded (killed_whole old cut hn)).2.2
  refine ⟨ρ a,?_,?_⟩
  · rw [hheap]
    exact (hρ.live (ρ a)).mpr ⟨a,hheld,rfl⟩
  · rw [hheap]
    exact hρ.infos a hheld

/-! ## The files that are there -/

structure MountedFiles where
  ctx : Context
  files : Disk

/-- Before the first mount there are none; they are opened with `O_CREAT`. -/
def firstMount : MountedFiles := ⟨emptyContext,fun _ => []⟩

variable (sha512 : List UInt8 → Hash) (qsort : List BlockPair → List BlockPair)

def nextMount (m : MountedFiles) (x : Session) : Option MountedFiles :=
  (exec (step sha512 qsort) (mounted m.ctx) x.acts).map
    (fun s => ⟨remount x.unmounting x.mounting s.ctx,saved x.unmounting s.ctx⟩)

variable {sha512 qsort}

theorem nextMount_session {m m' : MountedFiles} {x : Session}
    (h : nextMount sha512 qsort m x = some m') : session sha512 qsort m.ctx x = some m'.ctx := by
  obtain ⟨s,he,rfl⟩ := Option.map_eq_some_iff.mp h
  rw [session,he,Option.map_some]

theorem mounts_sessions {m m' : MountedFiles} {xs : List Session}
    (h : exec (nextMount sha512 qsort) m xs = some m') :
    exec (session sha512 qsort) m.ctx xs = some m'.ctx := by
  induction xs generalizing m with
  | nil =>
    cases h
    rfl
  | cons x xs ih =>
    obtain ⟨k,hk,hrest⟩ := exec_cons_some _ h
    rw [exec,nextMount_session hk,Option.bind_some]
    exact ih hrest

/-- Every file is a front of one that an unmount wrote. -/
def AllLeft (d : Disk) : Prop := ∀ f, ∃ u c k, d f = (saved u c f).take k

theorem allLeft_files {d : Disk} (h : AllLeft d) : LeftOver d.files where
  hashToMaster := h .hashToMaster
  fileToMaster := h .fileToMaster
  masterInfos := h .masterInfos
  fileToSizes := h .fileToSizes
  freeBlockList := h .freeBlockList

theorem allLeft_saved (u : Unmounting) (c : Context) : AllLeft (saved u c) :=
  fun _ => ⟨u,c,_,(List.take_length ..).symm⟩

theorem allLeft_killed {old : Disk} (h : AllLeft old) (u : Unmounting) (c : Context) (n cut : ℕ) :
    AllLeft (killed old (saveOps (saved u c)) n cut) := by
  intro f
  by_cases hn : n < truncatedBy f
  · rw [killed_old old (saved u c) cut hn]
    exact h f
  · exact ⟨u,c,_,killed_new old (saved u c) cut (Nat.le_of_not_lt hn)⟩

/-- The files are left from an unmount, and the free list is the one mounted. -/
structure FilesInv (m : MountedFiles) : Prop where
  left : AllLeft m.files
  free : gslistLoad Remount.decodeFreeBlock (m.files .freeBlockList) = m.ctx.freeBlockList

theorem filesInv_first (u : Unmounting) : FilesInv firstMount :=
  ⟨fun _ => ⟨u,emptyContext,0,rfl⟩,rfl⟩

theorem filesInv_next {m m' : MountedFiles} {x : Session} (h : nextMount sha512 qsort m x = some m') :
    FilesInv m' := by
  obtain ⟨s,_,rfl⟩ := Option.map_eq_some_iff.mp h
  exact ⟨allLeft_saved x.unmounting s.ctx,rfl⟩

theorem filesInv_mounts (u : Unmounting) {m : MountedFiles} {xs : List Session}
    (h : exec (nextMount sha512 qsort) firstMount xs = some m) : FilesInv m :=
  exec_preserves (nextMount sha512 qsort) FilesInv (fun _ _ _ _ hs => filesInv_next hs) firstMount m
    xs (filesInv_first u) h

theorem run_next {acts : List Action} {s : System}
    (hc : Meets (step sha512 qsort) (Clean sha512) (mounted c) acts)
    (he : exec (step sha512 qsort) (mounted c) acts = some s) :
    c.nextBlockIndex ≤ s.ctx.nextBlockIndex := by
  refine exec_invariant (step sha512 qsort) (Clean sha512)
    (fun s => c.nextBlockIndex ≤ s.ctx.nextBlockIndex) ?_ (mounted c) s acts (Nat.le_refl _) hc he
  intro s a t hle _ hs
  cases a with
  | call k =>
    rw [step_call_some sha512 qsort hs]
    exact hle
  | step j ch =>
    obtain ⟨st,d,_,hd,rfl,_⟩ := step_step_some sha512 qsort hs
    exact hle.trans (advance_grows hd).1

/-- After any clean sessions the process is killed in the unmount of the last one,
which replaces the files of the one before. Every element that the next mount
decodes is one that an unmount wrote. Once both tables are emptied the mount shows
no wrong block; once the free list is emptied it allocates no slot in use either;
after the last write nothing is lost. In between, the free list is the one this
session was mounted with, and the mount is safe exactly when none of its slots is
in use. -/
theorem killed_unmount_safe (xs : List Session) (m : MountedFiles)
    (hx : exec (nextMount sha512 qsort) firstMount xs = some m)
    (hc : Meets (session sha512 qsort) (Settles sha512 qsort) emptyContext xs)
    (acts : List Action) (s : System) (he : exec (step sha512 qsort) (mounted m.ctx) acts = some s)
    (ha : Meets (step sha512 qsort) (Clean sha512) (mounted m.ctx) acts) (hq : Quiescent s)
    (hf : Reaching s.ctx) (u : Unmounting) (hs : SmallTables u s.ctx) (i : Mounting) (n cut : ℕ) :
    (∀ junk grant memory, ∀ call ∈ indexInitCalls junk grant memory
        (killed m.files (saveOps (saved u s.ctx)) n cut).files, ∀ junk',
      Confined junk' call.1 call.2 ∧
      (decodeCall junk' call.1 call.2).result.bind (valueOf call.1) = meaning call.1 call.2) ∧
    (2 ≤ n → ∀ p b x, (volume (remountKilled m.files u i n cut s.ctx)).blocks p b = some x →
      (volume s.ctx).blocks p b = some x) ∧
    (9 ≤ n → Salvaged s.ctx (remountKilled m.files u i n cut s.ctx)) ∧
    (10 ≤ n → volume (remountKilled m.files u i n cut s.ctx) = volume s.ctx) ∧
    (6 ≤ n → n < 9 → (AllocatesApart (remountKilled m.files u i n cut s.ctx) ↔
      ∀ q ∈ m.ctx.freeBlockList, ∀ a, Published s.ctx a → (s.ctx.cell a).masterBlockIndex ≠ q)) := by
  have hfirst : Idle m.ctx := exec_invariant (session sha512 qsort) (Settles sha512 qsort) Idle
    (fun _ _ _ hi hc hs => idle_session hi hc hs) emptyContext m.ctx xs idle_empty hc
    (mounts_sessions hx)
  have hfiles : FilesInv m := filesInv_mounts u hx
  have h : Idle s.ctx := idle_run hfirst ha he hq
  refine ⟨?_,killed_blocks m.files cut h hf hs,?_,?_,?_⟩
  · exact leftOver_decoded (allLeft_files (allLeft_killed hfiles.left u s.ctx n cut))
  · intro hn
    unfold remountKilled
    rw [killed_all m.files cut hn]
    exact cut_salvaged h.ledger (idle_inRange h hs) hs (idle_next h hf) _
  · intro hn
    obtain ⟨ρ,hρ⟩ := remount_renamed u i (idle_inRange h hs) hs
    unfold remountKilled
    rw [killed_late m.files (saved u s.ctx) cut hn]
    exact volume_renamed hρ rfl
  · intro hn hlt
    have hlist : (remountKilled m.files u i n cut s.ctx).freeBlockList = m.ctx.freeBlockList := by
      have hfile := killed_old m.files (saved u s.ctx) cut (f := .freeBlockList) hlt
      change gslistLoad Remount.decodeFreeBlock
        (killed m.files (saveOps (saved u s.ctx)) n cut .freeBlockList) = m.ctx.freeBlockList
      rw [hfile,hfiles.free]
    obtain ⟨hd,hbelow,_⟩ := idle_slots hfirst.ledger
    constructor
    · intro hapart q hq a hpub
      obtain ⟨x,hlive,hcell⟩ := killed_live m.files (i := i) cut h hs hn hpub
      rw [←hcell]
      exact allocated_free hapart q (by rwa [hlist]) x hlive
    · intro hfree
      refine killed_apart m.files cut h hf hs (by omega) (by rwa [hlist]) ?_ (by rwa [hlist])
      intro q hq'
      rw [hlist] at hq'
      exact (hbelow q hq').trans_le (run_next ha he)

def freedSlot : List Session :=
  [⟨settledBlocks,SequentialRun.sampleUnmounting,SequentialRun.sampleMounting⟩]

def takenSlot : List Action :=
  [.call (.write (fillReq fileA 66 0 1 one_block_fits block0_ends)),
    go 0 9,go 0 9,go 0 9,go 0 9,go 0 9,go 0 9,go 0 9,go 0 9]

/-- Killed before the free list is replaced, the store hands out slot 1 again. -/
theorem killed_unmount_taken : ∃ m s,
    exec (nextMount sampleSha512 id) firstMount freedSlot = some m ∧
    Meets (session sampleSha512 id) (Settles sampleSha512 id) emptyContext freedSlot ∧
    exec (step sampleSha512 id) (mounted m.ctx) takenSlot = some s ∧
    Meets (step sampleSha512 id) (Clean sampleSha512) (mounted m.ctx) takenSlot ∧ Quiescent s ∧
    Reaching s.ctx ∧ SmallTables SequentialRun.sampleUnmounting s.ctx ∧
    Salvaged s.ctx (remountKilled m.files
      SequentialRun.sampleUnmounting SequentialRun.sampleMounting 9 7 s.ctx) ∧
    ¬ AllocatesApart (remountKilled m.files
      SequentialRun.sampleUnmounting SequentialRun.sampleMounting 6 0 s.ctx) := by
  have hc : Meets (session sampleSha512 id) (Settles sampleSha512 id) emptyContext freedSlot := by
    decide +kernel
  obtain ⟨m,hx,hp⟩ := exec_observe (nextMount sampleSha512 id)
    (fun m => m.ctx.freeBlockList = [1] ∧
      Meets (step sampleSha512 id) (Clean sampleSha512) (mounted m.ctx) takenSlot ∧
      (exec (step sampleSha512 id) (mounted m.ctx) takenSlot).map (fun s => decide
        ((∀ st ∈ s.procs, st.finished = true) ∧ Reaching s.ctx ∧
          SmallTables SequentialRun.sampleUnmounting s.ctx ∧
          find s.ctx.hashToMaster (s.ctx.cell 9).hash = some 9 ∧
          (s.ctx.cell 9).masterBlockIndex = 1)) = some true) firstMount freedSlot
    (by decide +kernel)
  obtain ⟨hfree,ha,hrun⟩ := of_decide_eq_true hp
  obtain ⟨s,he,hend⟩ := Option.map_eq_some_iff.mp hrun
  obtain ⟨hq,hf,hs,hpub,hslot⟩ := of_decide_eq_true hend
  have hsafe := killed_unmount_safe freedSlot m hx hc takenSlot s he ha hq hf
    SequentialRun.sampleUnmounting hs SequentialRun.sampleMounting
  refine ⟨m,s,hx,hc,he,ha,hq,hf,hs,(hsafe 9 7).2.2.1 (by decide),?_⟩
  intro hapart
  refine ((hsafe 6 0).2.2.2.2 (by decide) (by decide)).mp hapart 1 ?_ 9 hpub hslot
  rw [hfree]
  exact List.mem_singleton.mpr rfl

end ArchivalDedup.KilledUnmount
