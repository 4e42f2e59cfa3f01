import ArchivalDedup.ReadBlocks
import ArchivalDedup.Content

/-!
# What a read returns while others write

A read copies slot numbers under the lock and issues its `pread`s afterwards.
As long as no `pwrite` goes to a slot that some read has looked up and not yet
read, every block that the read places is the content its file block was
mapped to when it was looked up.
-/

set_option autoImplicit false

namespace ArchivalDedup.ReadSnapshots
open ArchivalDedup.FiniteTable ArchivalDedup.MetaIndex ArchivalDedup.WriteDedup
open ArchivalDedup.ReadDedup ArchivalDedup.ReadBlocks ArchivalDedup.Passthrough
open ArchivalDedup.FlushRuns ArchivalDedup.LedgerPasses ArchivalDedup.LedgerLoops
open ArchivalDedup.Threads ArchivalDedup.ThreadLedger ArchivalDedup.ReferenceSafety
open ArchivalDedup.Content ArchivalDedup.Interleaving ArchivalDedup.LoopFrames

def nextPwrite : Stage → Option (ℕ × ℕ)
  | .flush _ plan i => (nextRun (plan.drop i)).map (fun t => (t.2.1.masterBlk,t.2.2))
  | _ => none

/-- The pairs whose slot has been looked up and not yet read. -/
def unread : Stage → List BlockPair
  | .readLookup _ pairs _ => pairs
  | .readGroups _ pairs groupStart _ => pairs.drop groupStart
  | _ => []

/-- The step writes no slot that a read in progress has yet to read. -/
def SparesReads (s : System) (a : Action) : Prop :=
  ∀ st ∈ stageOf s a, ∀ w ∈ nextPwrite st, ∀ q ∈ s.procs, ∀ p ∈ unread q,
    p.masterBlockIndex < w.1 ∨ w.1+w.2 ≤ p.masterBlockIndex

instance (s : System) (a : Action) : Decidable (SparesReads s a) :=
  inferInstanceAs (Decidable (∀ st ∈ stageOf s a, ∀ w ∈ nextPwrite st, ∀ q ∈ s.procs,
    ∀ p ∈ unread q, p.masterBlockIndex < w.1 ∨ w.1+w.2 ≤ p.masterBlockIndex))

def placed : Stage → List ℕ
  | .readGroups _ pairs groupStart _ => (pairs.take groupStart).map BlockPair.logicalIdx
  | .readDone _ pairs groupStart _ _ => (pairs.take groupStart).map BlockPair.logicalIdx
  | _ => []

def bufferOf : Stage → Buffer
  | .readLookup _ _ buf => buf
  | .readGroups _ _ _ buf => buf
  | .readDone _ _ _ buf _ => buf
  | _ => fun _ => 0

def resultOf : Stage → Option (Except Errno ℕ)
  | .readDone _ _ _ _ res => some res
  | .done res => some res
  | _ => none

def Snapshot (trace : System → Prop) (r : ReadReq) (i : ℕ) (bytes : List UInt8) : Prop :=
  ∃ u, trace u ∧ ∃ a, find u.ctx.fileToMaster ⟨r.path,r.startBlock+i⟩ = some a ∧
    bytes = u.ctx.toMasterFile.block (u.ctx.cell a).masterBlockIndex

theorem snapshot_mono {trace trace' : System → Prop} (h : ∀ u, trace u → trace' u) {r : ReadReq}
    {i : ℕ} {bytes : List UInt8} (hs : Snapshot trace r i bytes) : Snapshot trace' r i bytes := by
  obtain ⟨u,hu,hm⟩ := hs
  exact ⟨u,h u hu,hm⟩

/-- The pairs in hand are backed by snapshots: the placed ones by the buffer,
the unread ones by the master file. -/
def ReadOk (trace : System → Prop) (r₀ : ReadReq) (f : MasterFile) : Stage → Prop
  | .readLookup r pairs _ => r = r₀ ∧ pairs.map BlockPair.logicalIdx = List.range pairs.length ∧
      ∀ p ∈ pairs, Snapshot trace r₀ p.logicalIdx (f.block p.masterBlockIndex)
  | .readGroups r pairs g buf => r = r₀ ∧
      (pairs.map BlockPair.logicalIdx).Perm (List.range pairs.length) ∧
      (∀ p ∈ pairs.take g, Snapshot trace r₀ p.logicalIdx (outBlock buf p.logicalIdx)) ∧
      ∀ p ∈ pairs.drop g, Snapshot trace r₀ p.logicalIdx (f.block p.masterBlockIndex)
  | .readDone r pairs g buf res => r = r₀ ∧
      (pairs.map BlockPair.logicalIdx).Perm (List.range pairs.length) ∧
      (∀ p ∈ pairs.take g, Snapshot trace r₀ p.logicalIdx (outBlock buf p.logicalIdx)) ∧
      ∀ n, res = .ok n → pairs.length ≤ g ∧ n = pairs.length*blockSize
  | _ => False

variable {sha512 : List UInt8 → Hash} {qsort : List BlockPair → List BlockPair}
variable {c : Context} {ch : Choice} {trace : System → Prop} {r₀ : ReadReq}

theorem readOk_mono {trace' : System → Prop} (h : ∀ u, trace u → trace' u) {f : MasterFile}
    {st : Stage} (hs : ReadOk trace r₀ f st) : ReadOk trace' r₀ f st := by
  cases st with
  | readLookup r pairs buf => exact ⟨hs.1,hs.2.1,fun p hp => snapshot_mono h (hs.2.2 p hp)⟩
  | readGroups r pairs g buf =>
    exact ⟨hs.1,hs.2.1,fun p hp => snapshot_mono h (hs.2.2.1 p hp),
      fun p hp => snapshot_mono h (hs.2.2.2 p hp)⟩
  | readDone r pairs g buf res =>
    exact ⟨hs.1,hs.2.1,fun p hp => snapshot_mono h (hs.2.2.1 p hp),hs.2.2.2⟩
  | _ => exact hs

theorem readOk_file {f f' : MasterFile} {st : Stage}
    (h : ∀ p ∈ unread st, f'.block p.masterBlockIndex = f.block p.masterBlockIndex)
    (hs : ReadOk trace r₀ f st) : ReadOk trace r₀ f' st := by
  cases st with
  | readLookup r pairs buf =>
    refine ⟨hs.1,hs.2.1,?_⟩
    intro p hp
    rw [h p hp]
    exact hs.2.2 p hp
  | readGroups r pairs g buf =>
    refine ⟨hs.1,hs.2.1,hs.2.2.1,?_⟩
    intro p hp
    rw [h p hp]
    exact hs.2.2.2 p hp
  | _ => exact hs

theorem pass1Block_file (r : WriteReq) (a : Ptr) (c : Context) (p : Pass1) :
    (pass1Block sha512 r a c p).1.toMasterFile = c.toMasterFile := by
  unfold pass1Block
  dsimp only
  split <;> rfl

theorem advance_block {st : Stage} {d : Context × Stage} {q : ℕ}
    (hq : ∀ w ∈ nextPwrite st, q < w.1 ∨ w.1+w.2 ≤ q)
    (hd : advance sha512 qsort ch c st = some d) :
    d.1.toMasterFile.block q = c.toMasterFile.block q := by
  have hsame : ∀ {f : MasterFile}, f = c.toMasterFile → f.block q = c.toMasterFile.block q :=
    fun hf => congrArg (MasterFile.block · q) hf
  cases st with
  | pass1 r p =>
    simp only [advance] at hd
    split_ifs at hd
    · cases hd
      exact hsame (pass1Block_file r ch.addr c p)
    · cases hd
      rfl
    · cases hd
      rfl
  | append r plan taken =>
    cases hd
    exact hsame (assignSlots_frame plan _ _).2.2.1
  | flush r plan i =>
    cases hd
    unfold flushStep
    split
    · rfl
    · next skip e len hrun =>
      have hother := pwriteRun_other r e len ch.io c.toMasterFile
        (hq (e.masterBlk,len) (by simp [nextPwrite,hrun]))
      split
      · next f hf =>
        rw [hf] at hother
        exact hother
      · next f err hf =>
        rw [hf] at hother
        exact hother
  | consolidate r plan =>
    cases hd
    exact hsame (consolidate_file r plan c)
  | rollbackHits plan err =>
    cases hd
    exact hsame (frame_rollbackHits plan c []).toMasterFile
  | rollbackMisses plan err =>
    cases hd
    exact hsame (rollbackMisses_keeps plan c).2.2.2.2.1
  | unlinkSize path =>
    simp only [advance] at hd
    split at hd <;> cases hd <;> rfl
  | unlinkRemove path n =>
    cases hd
    exact hsame (frame_removeBlocks path n 0 c []).toMasterFile
  | truncateSize path size =>
    simp only [advance] at hd
    split at hd <;> cases hd <;> rfl
  | truncateRemove path size n m =>
    cases hd
    exact hsame (frame_removeBlocks path (m-n) n c []).toMasterFile
  | truncateShrink path size =>
    cases hd
    unfold shrinkSize
    split
    · rfl
    · split_ifs <;> rfl
  | readDone r pairs n buf res => cases hd
  | done res => cases hd
  | _ =>
    cases hd
    rfl

theorem readOk_endLookup (hq : ∀ l, (qsort l).Perm l) {f : MasterFile} {pairs : List BlockPair}
    {buf : Buffer} (hl : pairs.map BlockPair.logicalIdx = List.range pairs.length)
    (hs : ∀ p ∈ pairs, Snapshot trace r₀ p.logicalIdx (f.block p.masterBlockIndex)) :
    ReadOk trace r₀ f (endLookup qsort r₀ pairs buf) := by
  unfold endLookup
  split_ifs with hnil
  · refine ⟨rfl,List.Perm.refl _,by simp,?_⟩
    intro n hn
    cases hn
    exact ⟨Nat.le_refl 0,by simp⟩
  · have hperm := sortPairs_perm hq pairs
    refine ⟨rfl,?_,by simp,fun p hp => hs p (hperm.mem_iff.mp hp)⟩
    rw [hperm.length_eq,←hl]
    exact hperm.map _

/-- One step of a read: a lookup takes a snapshot of the present state, a
`pread` moves the snapshots of its group into the buffer. -/
theorem advance_readOk (hq : ∀ l, (qsort l).Perm l) {st : Stage} {d : Context × Stage}
    {procs : List Stage} (hnow : trace ⟨c,procs⟩) (hs : ReadOk trace r₀ c.toMasterFile st)
    (hd : advance sha512 qsort ch c st = some d) : ReadOk trace r₀ d.1.toMasterFile d.2 := by
  cases st with
  | readLookup r pairs buf =>
    cases hd
    obtain ⟨rfl,hl,hsnap⟩ := hs
    unfold lookupStep
    split
    · split
      · next p hp =>
        obtain ⟨a,ha,rfl⟩ := Option.map_eq_some_iff.mp hp
        refine ⟨rfl,?_,?_⟩
        · simp [hl,List.range_succ]
        · intro q hq'
          rcases List.mem_append.mp hq' with hq' | hq'
          · exact hsnap q hq'
          · rw [List.mem_singleton.mp hq']
            exact ⟨_,hnow,a,ha,rfl⟩
      · exact readOk_endLookup hq hl hsnap
    · exact readOk_endLookup hq hl hsnap
  | readGroups r pairs g buf =>
    cases hd
    obtain ⟨rfl,hperm,hplaced,hrest⟩ := hs
    simp only [readStep]
    split_ifs with hnil
    · refine ⟨rfl,hperm,hplaced,?_⟩
      intro n hn
      cases hn
      exact ⟨List.drop_eq_nil_iff.mp hnil,rfl⟩
    · have hnd : (pairs.map BlockPair.logicalIdx).Nodup := hperm.nodup_iff.mpr List.nodup_range
      have hdisj : ∀ p ∈ pairs.take g, ∀ q ∈ pairs.drop g, q.logicalIdx ≠ p.logicalIdx := by
        intro p hp q hq' he
        rw [←List.take_append_drop g pairs,List.map_append] at hnd
        exact List.disjoint_of_nodup_append hnd (List.mem_map.mpr ⟨p,hp,rfl⟩)
          (List.mem_map.mpr ⟨q,hq',he⟩)
      have hndrest : ((pairs.drop g).map BlockPair.logicalIdx).Nodup :=
        hnd.sublist ((List.drop_sublist g pairs).map _)
      have hkeep : ∀ p ∈ pairs.take g, Snapshot trace r p.logicalIdx
          (outBlock (readGroup c.toMasterFile ((pairs.drop g).take (groupLen (pairs.drop g))) buf).1
            p.logicalIdx) := by
        intro p hp
        rw [readGroup_other]
        · exact hplaced p hp
        · intro q hq'
          exact hdisj p hp q (List.mem_of_mem_take hq')
      cases hg : readGroup c.toMasterFile ((pairs.drop g).take (groupLen (pairs.drop g))) buf with
      | mk buf' err =>
        rw [hg] at hkeep
        cases err with
        | some err => exact ⟨rfl,hperm,hkeep,fun n hn => by cases hn⟩
        | none =>
          refine ⟨rfl,hperm,?_,?_⟩
          · intro p hp
            rw [List.take_add] at hp
            rcases List.mem_append.mp hp with hp | hp
            · exact hkeep p hp
            · obtain ⟨x,xs,hx⟩ := List.exists_cons_of_ne_nil hnil
              rw [hx] at hg hp hndrest
              rw [readGroup_placed hndrest hg p hp]
              exact hrest p (hx ▸ List.mem_of_mem_take hp)
          · intro p hp
            rw [←List.drop_drop] at hp
            exact hrest p (List.mem_of_mem_drop hp)
  | readDone r pairs g buf res => cases hd
  | _ => exact hs.elim

section Runs

variable (sha512 qsort)

def PassesThrough (s : System) (acts : List Action) (u : System) : Prop :=
  ∃ as, as <+: acts ∧ exec (step sha512 qsort) s as = some u

/-- At some instant of a read that starts in `s`, block `i` of its request was
mapped to these bytes. -/
def MappedDuring (s : System) (r : ReadReq) (buf : Buffer) (during : List Action) (i : ℕ)
    (bytes : List UInt8) : Prop :=
  ∃ as, as <+: during ∧ ∃ u a, exec (step sha512 qsort) s (.call (.read r buf)::as) = some u ∧
    find u.ctx.fileToMaster ⟨r.path,r.startBlock+i⟩ = some a ∧
    bytes = u.ctx.toMasterFile.block (u.ctx.cell a).masterBlockIndex

variable {sha512 qsort}

theorem passes_snoc {s u : System} {acts : List Action} (a : Action)
    (h : PassesThrough sha512 qsort s acts u) : PassesThrough sha512 qsort s (acts++[a]) u := by
  obtain ⟨as,hp,he⟩ := h
  exact ⟨as,hp.trans (List.prefix_append ..),he⟩

theorem start_readOk (trace : System → Prop) (f : MasterFile) (r : ReadReq) (buf : Buffer) :
    ReadOk trace r f (Call.read r buf).start := by
  simp only [Call.start]
  split_ifs
  · exact ⟨rfl,List.Perm.refl _,by simp,fun n hn => by cases hn⟩
  · exact ⟨rfl,rfl,by simp⟩

theorem step_readOk (hq : ∀ l, (qsort l).Perm l) {s t : System} {a : Action} {k : ℕ} {st : Stage}
    (hnow : trace s) (hk : s.procs[k]? = some st) (hok : ReadOk trace r₀ s.ctx.toMasterFile st)
    (hc : SparesReads s a) (hs : step sha512 qsort s a = some t) :
    ∃ st', t.procs[k]? = some st' ∧ ReadOk trace r₀ t.ctx.toMasterFile st' := by
  have hlt : k < s.procs.length := (List.getElem?_eq_some_iff.mp hk).1
  cases a with
  | call k' =>
    rw [step_call_some sha512 qsort hs]
    refine ⟨st,?_,hok⟩
    rw [List.getElem?_append_left hlt]
    exact hk
  | step i ch =>
    obtain ⟨q,d,hq',hd,rfl,_⟩ := step_step_some sha512 qsort hs
    by_cases hik : i = k
    · subst hik
      have : q = st := Option.some.inj (hq'.symm.trans hk)
      subst this
      refine ⟨d.2,?_,advance_readOk hq hnow hok hd⟩
      simp [hlt]
    · refine ⟨st,?_,?_⟩
      · rw [List.getElem?_set_ne hik]
        exact hk
      · refine readOk_file ?_ hok
        intro p hp
        exact advance_block (fun w hw => hc q hq' w hw st (List.mem_of_getElem? hk) p hp) hd

theorem exec_readOk (hq : ∀ l, (qsort l).Perm l) {s t : System} {k : ℕ} {st : Stage}
    (hk : s.procs[k]? = some st) (hok : ∀ f, ReadOk (fun _ => False) r₀ f st) (acts : List Action)
    (hc : Meets (step sha512 qsort) SparesReads s acts)
    (he : exec (step sha512 qsort) s acts = some t) :
    ∃ st', t.procs[k]? = some st' ∧
      ReadOk (PassesThrough sha512 qsort s acts) r₀ t.ctx.toMasterFile st' := by
  induction acts using List.reverseRecOn generalizing t with
  | nil =>
    cases he
    exact ⟨st,hk,readOk_mono (fun _ h => h.elim) (hok _)⟩
  | append_singleton as a ih =>
    obtain ⟨m,hm,ha⟩ := exec_snoc_some _ he
    obtain ⟨hc₁,hc₂⟩ := meets_append _ _ _ _ _ hc
    obtain ⟨st',hst',hok'⟩ := ih hc₁ hm
    have hnow : PassesThrough sha512 qsort s (as++[a]) m := ⟨as,List.prefix_append ..,hm⟩
    exact step_readOk hq hnow hst' (readOk_mono (fun u hu => passes_snoc a hu) hok') (hc₂ m hm).1 ha

/-- Every block that a read places was mapped to it at some instant of the read,
and a read that returns `n` bytes has placed all of their blocks. -/
theorem spared_blocks_mapped (hq : ∀ l, (qsort l).Perm l) (before during : List Action) (r : ReadReq)
    (buf : Buffer) (s t : System) (hs : Reaches sha512 qsort before s)
    (ht : exec (step sha512 qsort) s (.call (.read r buf)::during) = some t)
    (hc : Meets (step sha512 qsort) SparesReads emptySystem
      (before++.call (.read r buf)::during)) :
    ∃ st, t.procs[s.procs.length]? = some st ∧
      (∀ i ∈ placed st,
        MappedDuring sha512 qsort s r buf during i (outBlock (bufferOf st) i)) ∧
      ∀ n, resultOf st = some (.ok n) → ∀ i, i*blockSize < n → i ∈ placed st := by
  obtain ⟨m,hm,hdur⟩ := exec_cons_some _ ht
  have hcall := step_call_some sha512 qsort hm
  have hk : m.procs[s.procs.length]? = some (Call.read r buf).start := by
    rw [hcall]
    exact List.getElem?_concat_length
  have hc' := ((meets_append _ _ _ _ _ hc).2 s hs).2 m hm
  obtain ⟨st,hst,hok⟩ := exec_readOk hq hk (fun f => start_readOk _ f r buf) during hc' hdur
  have hsnap : ∀ {bytes : List UInt8} {i : ℕ},
      Snapshot (PassesThrough sha512 qsort m during) r i bytes →
        MappedDuring sha512 qsort s r buf during i bytes := by
    rintro bytes i ⟨u,⟨as,hp,he⟩,a,ha,hb⟩
    refine ⟨as,hp,u,a,?_,ha,hb⟩
    rw [exec,hm]
    exact he
  refine ⟨st,hst,?_⟩
  cases st with
  | readLookup r' pairs buf' =>
    constructor
    · intro i hi
      cases hi
    · intro n hn
      cases hn
  | readGroups r' pairs g buf' =>
    refine ⟨?_,fun n hn => by cases hn⟩
    intro i hi
    obtain ⟨p,hp,rfl⟩ := List.mem_map.mp hi
    exact hsnap (hok.2.2.1 p hp)
  | readDone r' pairs g buf' res =>
    obtain ⟨_,hperm,hplaced,hres⟩ := hok
    constructor
    · intro i hi
      obtain ⟨p,hp,rfl⟩ := List.mem_map.mp hi
      exact hsnap (hplaced p hp)
    · intro n hn i hi
      obtain ⟨hg,rfl⟩ := hres n (Option.some.inj hn)
      have hlt : i < pairs.length := Nat.lt_of_mul_lt_mul_right hi
      change i ∈ (pairs.take g).map BlockPair.logicalIdx
      rw [List.take_of_length_le hg]
      exact hperm.mem_iff.mpr (List.mem_range.mpr hlt)
  | _ => exact hok.elim

def storeA : List Action :=
  [.call (.write (fillReq fileA 65 0 1 one_block_fits block0_ends)),
    go 0 0,go 0 1,go 0 1,go 0 1,go 0 1,go 0 1,go 0 1,go 0 1]

theorem block_read_fits : 4096 < 2^31 := by decide

def readA : ReadReq := ⟨fileA,4096,0,block_read_fits⟩

def unlinkedMeanwhile : List Action :=
  [go 1 1,go 1 1,.call (.unlink fileA),go 2 1,go 2 1,go 2 1,go 2 1,go 2 1,go 1 1,go 1 1]

/-- Between the lookup of a read and its `pread` the file is unlinked and a
write of another file is handed the slot. -/
def reusedMeanwhile : List Action :=
  [go 1 1,go 1 1,.call (.unlink fileA),go 2 1,go 2 1,go 2 1,
    .call (.write (fillReq fileB 66 0 1 one_block_fits block0_ends)),
    go 3 1,go 3 2,go 3 2,go 3 2,go 3 2,go 1 2]

theorem reused_slot_read : ∃ s t st, Reaches sampleSha512 id storeA s ∧
    exec (step sampleSha512 id) s (.call (.read readA (fun _ => 0))::reusedMeanwhile) = some t ∧
    t.procs[s.procs.length]? = some st ∧ 0 ∈ placed st ∧
    ¬ MappedDuring sampleSha512 id s readA (fun _ => 0) reusedMeanwhile 0
      (outBlock (bufferOf st) 0) := by
  obtain ⟨t,hr,hp⟩ := exec_observe (step sampleSha512 id)
    (fun t => ∃ st ∈ t.procs[1]?, 0 ∈ placed st ∧ (outBlock (bufferOf st) 0).headD 0 = 66)
    emptySystem (storeA++.call (.read readA (fun _ => 0))::reusedMeanwhile) (by decide +kernel)
  obtain ⟨s,hs,hl⟩ := exec_observe (step sampleSha512 id)
    (fun s => s.procs.length = 1) emptySystem storeA (by decide +kernel)
  have hl := of_decide_eq_true hl
  rw [exec_append,hs] at hr
  obtain ⟨st,hst,h₀,hb⟩ := of_decide_eq_true hp
  refine ⟨s,t,st,hs,hr,by rw [hl]; exact hst,h₀,?_⟩
  -- while the read runs the block is mapped to the first content or not at all
  have hall : ∀ as ∈ reusedMeanwhile.inits,
      ∀ u ∈ exec (step sampleSha512 id) emptySystem
        (storeA++.call (.read readA (fun _ => 0))::as),
      ∀ a ∈ find u.ctx.fileToMaster ⟨fileA,0⟩,
        (u.ctx.toMasterFile.block (u.ctx.cell a).masterBlockIndex).headD 0 = 65 := by
    decide +kernel
  rintro ⟨as,hp,u,a,hu,ha,hbytes⟩
  have h65 := hall as ((List.mem_inits _ _).mpr hp) u (by rw [exec_append,hs]; exact hu) a ha
  rw [←hbytes,hb] at h65
  exact absurd h65 (by decide)

end Runs

end ArchivalDedup.ReadSnapshots
