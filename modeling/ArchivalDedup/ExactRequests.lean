import ArchivalDedup.BatchedRead
import ArchivalDedup.WriteShape
import ArchivalDedup.BlockRefinement

/-!
# Requests that do not start on a block boundary

Both calls turn a byte range into a block range by integer division and look at
the remainder of the size alone. The bytes of a file are read off the index and
the master file, and each call is compared with them.
-/

set_option autoImplicit false

namespace ArchivalDedup.ExactRequests
open ArchivalDedup.FiniteTable ArchivalDedup.ByteMap ArchivalDedup.ConsecutiveRun
open ArchivalDedup.MetaIndex ArchivalDedup.WriteDedup ArchivalDedup.ReadDedup
open ArchivalDedup.Ledger ArchivalDedup.Threads ArchivalDedup.ReadBlocks
open ArchivalDedup.ReferenceSafety ArchivalDedup.Content ArchivalDedup.SequentialWrite
open ArchivalDedup.SequentialRun ArchivalDedup.RemountSafety ArchivalDedup.MappedHashes
open ArchivalDedup.BatchedRead ArchivalDedup.WriteShape ArchivalDedup.Interleaving
open ArchivalDedup.SlotAccounting

variable {sha512 : List UInt8 → Hash} {qsort : List BlockPair → List BlockPair}
variable {known : List (List UInt8)} {c : Context} {ps qs : List Party}

section Contents

def blockContent (c : Context) (k : BlockIndice) : Option (List UInt8) :=
  (find c.fileToMaster k).map (fun a => c.toMasterFile.block (c.cell a).masterBlockIndex)

def fileByte (c : Context) (path : Path) (pos : ℕ) : Option UInt8 :=
  (blockContent c ⟨path,pos/blockSize⟩).bind (fun x => x[pos % blockSize]?)

/-- Every published slot holds one of the known blocks, under its own hash. -/
def Holds (sha512 : List UInt8 → Hash) (known : List (List UInt8)) (c : Context) : Prop :=
  Stored (fun h b => sha512 b = h ∧ b ∈ known) c

def DistinctHashes (sha512 : List UInt8 → Hash) (known : List (List UInt8)) : Prop :=
  ∀ x ∈ known, ∀ y ∈ known, sha512 x = sha512 y → x = y

theorem noCollision_nodup (h : (known.map sha512).Nodup) : DistinctHashes sha512 known :=
  fun _ hx _ hy hxy => List.inj_on_of_nodup_map h hx hy hxy

theorem blockContent_known (h : Inv ∅ c ps) (hs : Holds sha512 known c) {k : BlockIndice}
    {x : List UInt8} (hx : blockContent c k = some x) :
    mappedHash c k = some (sha512 x) ∧ x ∈ known := by
  obtain ⟨a,ha,rfl⟩ := Option.map_eq_some_iff.mp hx
  obtain ⟨_,hp⟩ := mapped_published h ha
  obtain ⟨hsha,hmem⟩ := hs _ a hp
  refine ⟨?_,hmem⟩
  rw [mappedHash,ha,Option.map_some,hsha]

theorem blockContent_none (c : Context) (k : BlockIndice) :
    blockContent c k = none ↔ mappedHash c k = none := by
  rw [blockContent,mappedHash,Option.map_eq_none_iff,Option.map_eq_none_iff]

theorem blockContent_of_hash (h : Inv ∅ c ps) (hs : Holds sha512 known c)
    (hinj : DistinctHashes sha512 known) {k : BlockIndice} {x : List UInt8} (hx : x ∈ known)
    (hk : mappedHash c k = some (sha512 x)) : blockContent c k = some x := by
  cases hb : blockContent c k with
  | none =>
    rw [(blockContent_none c k).mp hb] at hk
    cases hk
  | some y =>
    obtain ⟨hy,hmem⟩ := blockContent_known h hs hb
    rw [hk] at hy
    rw [hinj x hx y hmem (Option.some.inj hy)]

theorem blockContent_congr {d : Context} (h : Inv ∅ c ps) (hs : Holds sha512 known c)
    (h' : Inv ∅ d qs) (hs' : Holds sha512 known d) (hinj : DistinctHashes sha512 known)
    {k : BlockIndice} (hk : mappedHash d k = mappedHash c k) :
    blockContent d k = blockContent c k := by
  cases hb : blockContent c k with
  | none =>
    rw [blockContent_none,hk]
    exact (blockContent_none c k).mp hb
  | some x =>
    obtain ⟨hx,hmem⟩ := blockContent_known h hs hb
    exact blockContent_of_hash h' hs' hinj hmem (hk.trans hx)

end Contents

section Writes

variable {env : Env} {r : WriteReq}

theorem mappedHash_release (c : Context) (slots : List ℕ) (k : BlockIndice) :
    mappedHash (c.releaseSlots slots) k = mappedHash c k := rfl

theorem holds_written (h : Inv ∅ c ps) (hs : Holds sha512 known c)
    (hfit : FitsCounters sha512 r c) (hok : (stageWrite sha512 env r c).2.2 = none)
    (hk : ∀ i < r.numBlocks, r.block i ∈ known) (slots : List ℕ) :
    Holds sha512 known ((consolidate r (stageWrite sha512 env r c).1
      (stageWrite sha512 env r c).2.1).1.releaseSlots slots) := by
  have ht := stageWrite_alone env h hfit
  refine stored_release ?_
  refine stored_consolidate ht.ledger ht.shape.1 (ht.flushed hok) ?_ (stored_staged h ht hs)
  intro i hi
  rw [ht.shape.2.2] at hi
  exact ⟨rfl,hk i hi⟩

theorem blockContent_written (h : Inv ∅ c ps) (hs : Holds sha512 known c)
    (hinj : DistinctHashes sha512 known) (hfit : CallFits sha512 r c) {n : ℕ}
    (hres : (writeDedup sha512 env r c).2 = .ok n) (hn : 0 < n)
    (hk : ∀ i < r.numBlocks, r.block i ∈ known) (k : BlockIndice) :
    blockContent (writeDedup sha512 env r c).1 k =
      if k.path = r.path ∧ r.startBlock ≤ k.offset ∧ k.offset < r.startBlock+r.numBlocks
      then some (r.block (k.offset-r.startBlock)) else blockContent c k := by
  obtain ⟨hz,ha,hok⟩ := writeDedup_positive hres hn
  have hinv := inv_writeDedup env h hfit
  have hhash := consolidate_hash h (stageWrite_alone env h (hfit ha)) k
  rw [←mappedHash_release _ (consolidate r (stageWrite sha512 env r c).1
    (stageWrite sha512 env r c).2.1).2] at hhash
  rw [writeDedup_passed hz ha hok] at hinv ⊢
  have hholds := holds_written h hs (hfit ha) hok hk
    (consolidate r (stageWrite sha512 env r c).1 (stageWrite sha512 env r c).2.1).2
  split_ifs at hhash ⊢ with hin
  · exact blockContent_of_hash hinv hholds hinj (hk _ (by omega)) hhash
  · exact blockContent_congr h hs hinv hholds hinj hhash

theorem block_byte (r : WriteReq) (i : ℕ) {j : ℕ} (hj : j < blockSize) :
    (r.block i)[j]? = r.buf[i*blockSize+j]? := by
  rw [WriteReq.block,List.getElem?_take_of_lt hj,List.getElem?_drop]

theorem fileByte_written (h : Inv ∅ c ps) (hs : Holds sha512 known c)
    (hinj : DistinctHashes sha512 known) (hfit : CallFits sha512 r c) {n : ℕ}
    (hres : (writeDedup sha512 env r c).2 = .ok n) (hn : 0 < n)
    (hk : ∀ i < r.numBlocks, r.block i ∈ known) (ho : r.offset % blockSize = 0) (path : Path)
    (pos : ℕ) : fileByte (writeDedup sha512 env r c).1 path pos =
      if path = r.path ∧ r.offset ≤ pos ∧ pos < r.offset+r.buf.length
      then r.buf[pos-r.offset]? else fileByte c path pos := by
  have hlen := (writeDedup_positive hres hn).2.1
  have hiff : (r.startBlock ≤ pos/blockSize ∧ pos/blockSize < r.startBlock+r.numBlocks) ↔
      (r.offset ≤ pos ∧ pos < r.offset+r.buf.length) := by
    unfold WriteReq.startBlock WriteReq.numBlocks blockSize at *
    omega
  rw [fileByte,blockContent_written h hs hinj hfit hres hn hk]
  simp only [hiff]
  split_ifs with hin
  · rw [Option.bind_some,block_byte r _ (Nat.mod_lt pos blockSize_pos)]
    refine congrArg (fun i => r.buf[i]?) ?_
    obtain ⟨_,h₁,h₂⟩ := hin
    unfold WriteReq.startBlock blockSize at *
    omega
  · rfl

theorem flushRest_errno (r : WriteReq) (io : ℕ → PwriteResult) (fuel j : ℕ)
    (rest : List PlanEntry) (f : MasterFile) :
    (flushRest r io fuel j rest f).2 ≠ some .eopnotsupp := by
  induction fuel generalizing j rest f with
  | zero => exact fun h => by cases h
  | succ fuel ih =>
    unfold flushRest
    cases nextRun rest with
    | none => exact fun h => by cases h
    | some t =>
      obtain ⟨skip,e,len⟩ := t
      dsimp only
      cases io j with
      | complete => exact ih (j+1) _ _
      | short w => exact fun h => by cases h
      | error code w => exact fun h => by cases h

theorem writeDedup_accepted (ha : r.buf.length % blockSize = 0) :
    (writeDedup sha512 env r c).2 ≠ .error .eopnotsupp := by
  unfold writeDedup
  split_ifs with hz hrej
  · exact fun h => by cases h
  · rcases hrej with hb | hm
    · have := Nat.div_mul_cancel (Nat.dvd_of_mod_eq_zero ha)
      rw [WriteReq.numBlocks] at hb
      rw [hb] at this
      omega
    · exact absurd ha hm
  · intro h
    have herr : (stageWrite sha512 env r c).2.2 = some .eopnotsupp := by
      unfold finishWrite at h
      cases hs : (stageWrite sha512 env r c).2.2 with
      | none =>
        rw [hs] at h
        cases h
      | some err =>
        rw [hs] at h
        exact congrArg some (Except.error.inj h)
    unfold stageWrite allocateAndFlush at herr
    dsimp only at herr
    split_ifs at herr
    · exact flushRest_errno _ _ _ _ _ _ herr

/-- A positive count means that the bytes of the request are in place and all
others as before; a request off the block boundaries is rejected. -/
structure WriteExact (sha512 : List UInt8 → Hash) (env : Env) (r : WriteReq) (c : Context) :
    Prop where
  served : ∀ n, (writeDedup sha512 env r c).2 = .ok n → 0 < n → ∀ path pos,
    fileByte (writeDedup sha512 env r c).1 path pos =
      if path = r.path ∧ r.offset ≤ pos ∧ pos < r.offset+r.buf.length
      then r.buf[pos-r.offset]? else fileByte c path pos
  rejected : r.offset % blockSize ≠ 0 ∨ (r.offset+r.buf.length) % blockSize ≠ 0 →
    writeDedup sha512 env r c = (c,.error .eopnotsupp)

theorem write_exact_iff (h : Inv ∅ c ps) (hs : Holds sha512 known c)
    (hinj : DistinctHashes sha512 known) (hfit : CallFits sha512 r c)
    (hk : ∀ i < r.numBlocks, r.block i ∈ known) : WriteExact sha512 env r c ↔
      r.offset % blockSize = 0 ∨ r.buf.length % blockSize ≠ 0 := by
  constructor
  · intro hw
    by_contra hno
    rw [not_or,not_not] at hno
    have := hw.rejected (Or.inl hno.1)
    exact writeDedup_accepted hno.2 (congrArg Prod.snd this)
  · intro hcond
    refine ⟨?_,?_⟩
    · intro n hres hn path pos
      have hlen := (writeDedup_positive hres hn).2.1
      exact fileByte_written h hs hinj hfit hres hn hk
        (hcond.resolve_right (fun hne => hne hlen)) path pos
    · intro hoff
      have hlen : r.buf.length % blockSize ≠ 0 := by
        unfold blockSize at *
        omega
      unfold writeDedup
      rw [if_neg,if_pos (Or.inr hlen)]
      intro hz
      rw [hz] at hlen
      exact hlen rfl

end Writes

section Reads

variable {r : ReadReq}

/-- The bytes handed over are the bytes of the file from the offset on; a
request off the block boundaries is rejected. -/
structure ReadExact (qsort : List BlockPair → List BlockPair) (r : ReadReq) (c : Context)
    (buf : Buffer) : Prop where
  served : ∀ n, (readDedup qsort r c buf).2 = .ok n → ∀ i < n,
    fileByte c r.path (r.offset+i) = some ((readDedup qsort r c buf).1 i)
  rejected : r.offset % blockSize ≠ 0 ∨ (r.offset+r.size) % blockSize ≠ 0 →
    (readDedup qsort r c buf).2 = .error .eopnotsupp

theorem readDedup_placed (hq : ∀ l, (qsort l).Perm l) {buf : Buffer} {n : ℕ} (hpos : 0 < r.size)
    (hs : r.size % blockSize = 0) (h : (readDedup qsort r c buf).2 = .ok n) :
    n = (leadingSlots r c).length*blockSize ∧ ∀ i q, (leadingSlots r c)[i]? = some q →
      outBlock (readDedup qsort r c buf).1 i = c.toMasterFile.block q := by
  have hgroups := readDedup_groups qsort r c buf hpos hs
  obtain ⟨hres,hbuf⟩ := readGroups_leading (sortPairs_perm hq (lookupPairs r c r.numBlocks 0)) buf
  dsimp only at hgroups hres hbuf
  rw [hgroups] at h ⊢
  by_cases hin : Inside c.toMasterFile (leadingSlots r c)
  · rw [hres,if_pos hin] at h
    exact ⟨(Except.ok.inj h).symm,(hbuf hin).1⟩
  · rw [hres,if_neg hin] at h
    cases h

theorem readDedup_accepted (hpos : 0 < r.size) (hs : r.size % blockSize = 0) {buf : Buffer}
    (hq : ∀ l, (qsort l).Perm l) : (readDedup qsort r c buf).2 ≠ .error .eopnotsupp := by
  have hgroups := readDedup_groups qsort r c buf hpos hs
  obtain ⟨hres,_⟩ := readGroups_leading (sortPairs_perm hq (lookupPairs r c r.numBlocks 0)) buf
  dsimp only at hgroups hres
  rw [hgroups,hres]
  split_ifs <;> exact fun h => by cases h

theorem read_exact_iff (hq : ∀ l, (qsort l).Perm l) (r : ReadReq) (c : Context) (buf : Buffer) :
    ReadExact qsort r c buf ↔
      r.offset % blockSize = 0 ∨ r.size % blockSize ≠ 0 ∨ r.size = 0 := by
  constructor
  · intro hr
    by_contra hno
    rw [not_or,not_or,not_not] at hno
    obtain ⟨ho,hs,hz⟩ := hno
    exact readDedup_accepted (Nat.pos_of_ne_zero hz) hs hq (hr.rejected (Or.inl ho))
  · intro hcond
    by_cases hrej : r.numBlocks = 0 ∨ r.size % blockSize ≠ 0
    · have hres : readDedup qsort r c buf = (buf,.error .eopnotsupp) := by
        rw [readDedup,if_pos hrej]
      refine ⟨?_,fun _ => by rw [hres]⟩
      intro n h
      rw [hres] at h
      cases h
    · rw [not_or,not_not] at hrej
      obtain ⟨hb,hs⟩ := hrej
      have hpos : 0 < r.size := by
        refine Nat.pos_of_ne_zero ?_
        intro hz
        exact hb (by rw [ReadReq.numBlocks,hz]; rfl)
      have ho : r.offset % blockSize = 0 :=
        hcond.resolve_right (by rintro (h | h) <;> omega)
      refine ⟨?_,?_⟩
      · intro n hn i hi
        obtain ⟨hcount,hplaced⟩ := readDedup_placed hq hpos hs hn
        have hblk : i/blockSize < (leadingSlots r c).length := by
          rw [Nat.div_lt_iff_lt_mul blockSize_pos,←hcount]
          exact hi
        have hmod : i % blockSize < blockSize := Nat.mod_lt i blockSize_pos
        have hslot := List.getElem?_eq_getElem hblk
        have hout := hplaced _ _ hslot
        obtain ⟨a,ha,hmbi⟩ := Option.map_eq_some_iff.mp (presentRun_getElem hslot)
        have hkey : (r.offset+i)/blockSize = r.startBlock+(0+i/blockSize) := by
          unfold ReadReq.startBlock blockSize at *
          omega
        have hrem : (r.offset+i) % blockSize = i % blockSize := by
          unfold blockSize at *
          omega
        rw [fileByte,blockContent,hkey,hrem,ha,Option.map_some,Option.bind_some,hmbi,←hout]
        rw [outBlock,slice,List.getElem?_map,List.getElem?_range hmod,Option.map_some,
          Nat.div_add_mod']
      · intro hoff
        exfalso
        unfold blockSize at *
        omega

end Reads

section Runs

def knownBlocks (r : WriteReq) (c : Context) : List (List UInt8) :=
  valuesBy (fun a => c.toMasterFile.block (c.cell a).masterBlockIndex) c.hashToMaster++
    (List.range r.numBlocks).map r.block

theorem mem_knownBlocks {r : WriteReq} {b : List UInt8} : b ∈ knownBlocks r c ↔
    (∃ x a, find c.hashToMaster x = some a ∧
      c.toMasterFile.block (c.cell a).masterBlockIndex = b) ∨
    ∃ i < r.numBlocks, r.block i = b := by
  rw [knownBlocks,List.mem_append,mem_values_by]
  simp only [List.mem_map,List.mem_range]

theorem holds_known (r : WriteReq) (h : Stored (fun x b => sha512 b = x) c) :
    Holds sha512 (knownBlocks r c) c := by
  intro x a ha
  exact ⟨h x a ha,mem_knownBlocks.mpr (Or.inl ⟨x,a,ha,rfl⟩)⟩

/-- After every clean run, also with operations in progress, a call is rejected
or served to the byte when its offset is a multiple of the block size or its size
is not; a read also when its size is 0. -/
theorem exact_requests_iff (hq : ∀ l, (qsort l).Perm l) (acts : List Action) (s : System)
    (hr : Reaches sha512 qsort acts s)
    (hc : Meets (step sha512 qsort) (Clean sha512) emptySystem acts) :
    (∀ env r, CallFits sha512 r s.ctx → DistinctHashes sha512 (knownBlocks r s.ctx) →
      (WriteExact sha512 env r s.ctx ↔
        r.offset % blockSize = 0 ∨ r.buf.length % blockSize ≠ 0)) ∧
    ∀ r buf, ReadExact qsort r s.ctx buf ↔
      r.offset % blockSize = 0 ∨ r.size % blockSize ≠ 0 ∨ r.size = 0 := by
  obtain ⟨hsys,hcontent⟩ := clean_contentInv hr hc
  refine ⟨?_,fun r buf => read_exact_iff hq r s.ctx buf⟩
  intro env r hfit hinj
  refine write_exact_iff hsys.ledger (holds_known r hcontent.stored) hinj hfit ?_
  intro i hi
  exact mem_knownBlocks.mpr (Or.inr ⟨i,hi,rfl⟩)

def blockAt (offset : ℕ) (h : offset+4096 < 2^63) : WriteReq :=
  ⟨fileA,List.replicate 4096 66,offset,by rw [List.length_replicate]; decide,
    by rw [List.length_replicate]; exact h⟩

theorem blockAt_numBlocks (offset : ℕ) (h : offset+4096 < 2^63) :
    (blockAt offset h).numBlocks = 1 := by
  unfold WriteReq.numBlocks blockAt
  rw [List.length_replicate]
  rfl

def besideWrite : List Action :=
  fillRun 0++[.call (.write (fillReq fileB 66 0 1 one_block_fits block0_ends)),go 1 1]

theorem exact_requests_next_block : ∃ s, Reaches sampleSha512 id besideWrite s ∧
    Meets (step sampleSha512 id) (Clean sampleSha512) emptySystem besideWrite ∧ ¬ Quiescent s ∧
    CallFits sampleSha512 (blockAt 4096 (by decide)) s.ctx ∧
    DistinctHashes sampleSha512 (knownBlocks (blockAt 4096 (by decide)) s.ctx) ∧
    WriteExact sampleSha512 completeEnv (blockAt 4096 (by decide)) s.ctx ∧
    ReadExact id ⟨fileA,4096,0,by decide⟩ s.ctx (fun _ => 0) := by
  have hc : Meets (step sampleSha512 id) (Clean sampleSha512) emptySystem besideWrite := by
    decide +kernel
  obtain ⟨s,hr,hp⟩ := exec_observe (step sampleSha512 id)
    (fun s => ¬ (∀ st ∈ s.procs, st.finished = true) ∧
      CallFits sampleSha512 (blockAt 4096 (by decide)) s.ctx ∧
      s.ctx.hashToMaster.entries = [⟨digestA,0⟩] ∧
      sampleSha512 (s.ctx.toMasterFile.block (s.ctx.cell 0).masterBlockIndex) = digestA)
    emptySystem besideWrite (by decide +kernel)
  obtain ⟨hbusy,hfit,hentries,hsha⟩ := of_decide_eq_true hp
  have hinj : DistinctHashes sampleSha512 (knownBlocks (blockAt 4096 (by decide)) s.ctx) := by
    have hnew : sampleSha512 ((blockAt 4096 (by decide)).block 0) = digestB := by decide +kernel
    rw [knownBlocks,valuesBy,hentries,blockAt_numBlocks]
    refine noCollision_nodup ?_
    simp only [List.map_cons,List.map_nil,List.range_one,List.cons_append,List.nil_append,hsha,hnew]
    decide
  obtain ⟨hwrite,hread⟩ := exact_requests_iff (fun l => List.Perm.refl (id l)) besideWrite s hr hc
  exact ⟨s,hr,hc,hbusy,hfit,hinj,(hwrite completeEnv _ hfit hinj).mpr (Or.inl rfl),
    (hread _ _).mpr (Or.inl rfl)⟩

/-- A write of one block at offset 100 replaces block 0, bytes 0 to 99 included,
and a read at offset 100 hands over the file from byte 0 on. -/
theorem misplaced_requests : ∃ s, Reaches sampleSha512 id (fillRun 0) s ∧
    Meets (step sampleSha512 id) (Clean sampleSha512) emptySystem (fillRun 0) ∧ Quiescent s ∧
    (writeDedup sampleSha512 completeEnv (blockAt 100 (by decide)) s.ctx).2 = .ok 4096 ∧
    fileByte s.ctx fileA 0 = some 65 ∧
    fileByte (writeDedup sampleSha512 completeEnv (blockAt 100 (by decide)) s.ctx).1 fileA 0 =
      some 66 ∧
    ¬ WriteExact sampleSha512 completeEnv (blockAt 100 (by decide)) s.ctx ∧
    ¬ ReadExact id ⟨fileA,4096,100,by decide⟩ s.ctx (fun _ => 0) := by
  have hc : Meets (step sampleSha512 id) (Clean sampleSha512) emptySystem (fillRun 0) := by
    decide +kernel
  obtain ⟨s,hr,hp⟩ := exec_observe (step sampleSha512 id)
    (fun s => (∀ st ∈ s.procs, st.finished = true) ∧
      (writeDedup sampleSha512 completeEnv (blockAt 100 (by decide)) s.ctx).2 = .ok 4096 ∧
      fileByte s.ctx fileA 0 = some 65 ∧
      fileByte (writeDedup sampleSha512 completeEnv (blockAt 100 (by decide)) s.ctx).1 fileA 0 =
        some 66 ∧
      (readDedup id ⟨fileA,4096,100,by decide⟩ s.ctx (fun _ => 0)).2 = .ok 4096)
    emptySystem (fillRun 0) (by decide +kernel)
  obtain ⟨hquiet,hres,hbefore,hafter,hread⟩ := of_decide_eq_true hp
  refine ⟨s,hr,hc,hquiet,hres,hbefore,hafter,?_,?_⟩
  · intro h
    have := h.served 4096 hres (by decide) fileA 0
    rw [hafter,if_neg (by decide),hbefore] at this
    exact absurd this (by decide)
  · intro h
    have := h.rejected (Or.inl (by decide))
    rw [hread] at this
    cases this

end Runs

end ArchivalDedup.ExactRequests
