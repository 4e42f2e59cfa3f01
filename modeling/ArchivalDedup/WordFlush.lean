import ArchivalDedup.CoalescedFlush
import ArchivalDedup.WordOffsets

/-!
# Flushing with 64-bit offsets

The slots of a plan come from the free list and from the append counter, both of
them words. One `pwrite` per run leaves what one `pwrite` per MISS leaves, with
every payload in its slot, exactly when the allocator hands out different slots
whose ends an `off_t` can hold.
-/

set_option autoImplicit false

namespace ArchivalDedup.WordFlush
open ArchivalDedup.ByteMap ArchivalDedup.ConsecutiveRun ArchivalDedup.MetaIndex
open ArchivalDedup.WriteDedup ArchivalDedup.PlanShape ArchivalDedup.Ledger
open ArchivalDedup.LedgerMoves ArchivalDedup.LedgerPasses ArchivalDedup.FlushRuns
open ArchivalDedup.CoalescedFlush ArchivalDedup.ReferenceSafety ArchivalDedup.WordOffsets

/-- `allocate_batch_storage_first`: the free list of one context, the append counter
of another. -/
def allocatedWords (n : ℕ) (c₁ c₂ : Context) : List ℕ :=
  (drainFreeList n c₁).1++(List.range (n-(drainFreeList n c₁).1.length)).map
    (fun i => (c₂.nextBlockIndex+i) % 2^64)

def slottedWords (plan : List PlanEntry) (c₁ c₂ c₃ : Context) : List PlanEntry :=
  (assignSlots plan (allocatedWords (missCount plan) c₁ c₂) c₃).1

/-- `plan[i].master_blk == plan[i-1].master_blk+1` in 64 bits. -/
def nextRunWords (rest : List PlanEntry) : Option (ℕ × PlanEntry × ℕ) :=
  let skip := (rest.takeWhile (fun e => e.kind = .hit)).length
  match rest.drop skip with
  | [] => none
  | e::es => some (skip,e,consecutiveMod missSlot (2^64) e.masterBlk es+1)

/-- `pwrite` at `(off_t)master_blk*BLOCK_SIZE`: EINVAL for a negative offset, EFBIG
for a range that no file can hold. -/
def pwriteRunWords (r : WriteReq) (e : PlanEntry) (len : ℕ) (res : PwriteResult) (f : MasterFile) :
    MasterFile × Option Errno :=
  let size := len*blockSize
  match slotOffset e.masterBlk with
  | none => (f,some .einval)
  | some off =>
    if 2^63 ≤ off+size then (f,some (.other 27))
    else
      match res with
      | .complete => (f.write off ((r.buf.drop e.payload).take size),none)
      | .short w => (f.write off (w.take (size-1)),some .eio)
      | .error code w => (f.write off (w.take size),some (.other code))

def flushRestWords (r : WriteReq) (io : ℕ → PwriteResult) :
    ℕ → ℕ → List PlanEntry → MasterFile → MasterFile × Option Errno
  | 0, _, _, f => (f,none)
  | fuel+1, j, rest, f =>
    match nextRunWords rest with
    | none => (f,none)
    | some (skip,e,len) =>
      match pwriteRunWords r e len (io j) f with
      | (f',none) => flushRestWords r io fuel (j+1) (rest.drop (skip+len)) f'
      | (f',some err) => (f',some err)

def flushPlanWords (r : WriteReq) (io : ℕ → PwriteResult) (plan : List PlanEntry)
    (f : MasterFile) : MasterFile × Option Errno :=
  flushRestWords r io plan.length 0 plan f

def runsFromWords : ℕ → List PlanEntry → List (List PlanEntry)
  | 0, _ => []
  | fuel+1, rest =>
    match nextRunWords rest with
    | none => []
    | some (skip,_,len) => (rest.drop skip).take len::runsFromWords fuel (rest.drop (skip+len))

def runsWords (plan : List PlanEntry) : List (List PlanEntry) := runsFromWords plan.length plan

variable {sha512 : List UInt8 → Hash} {r : WriteReq} {plan : List PlanEntry} {f : MasterFile}

/-! ## Slots whose ends an `off_t` can hold -/

/-- The slot ends inside the range of an `off_t`. -/
def Addressable (q : ℕ) : Prop := (q+1)*blockSize < 2^63

instance (q : ℕ) : Decidable (Addressable q) := inferInstanceAs (Decidable ((q+1)*blockSize < 2^63))

theorem addressable_small {q : ℕ} (h : Addressable q) : q+1 < 2^64 := by
  unfold Addressable at h
  rw [mul_blockSize] at h
  omega

theorem nextRunWords_eq {rest : List PlanEntry} (h : ∀ q ∈ missSlots rest, Addressable q) :
    nextRunWords rest = nextRun rest := by
  induction rest with
  | nil => rfl
  | cons x xs ih =>
    cases hk : x.kind with
    | hit =>
      rw [missSlots_hit hk] at h
      have hskip : nextRunWords (x::xs) = (nextRunWords xs).map (fun t => (t.1+1,t.2)) := by
        simp only [nextRunWords,List.takeWhile_cons,hk,decide_true,if_true,List.length_cons,
          List.drop_succ_cons]
        split <;> rfl
      rw [hskip,nextRun_hit xs hk,ih h]
    | miss =>
      rw [missSlots_miss hk] at h
      have hrun : consecutiveMod missSlot (2^64) x.masterBlk xs =
          consecutive missSlot x.masterBlk xs := by
        refine consecutiveMod_eq _ _ (addressable_small (h _ (by simp))) ?_
        intro y hy n hn
        obtain ⟨hyk,rfl⟩ := missSlot_some.mp hn
        exact addressable_small (h _ (List.mem_cons_of_mem _ (mem_missSlots.mpr ⟨y,hy,hyk,rfl⟩)))
      rw [nextRun_miss xs hk,←hrun]
      simp [nextRunWords,hk]

theorem pwriteRunWords_eq (r : WriteReq) {e : PlanEntry} {len : ℕ} (res : PwriteResult)
    (f : MasterFile) (h : (e.masterBlk+len)*blockSize < 2^63) :
    pwriteRunWords r e len res f = pwriteRun r e len res f := by
  have hadd : (e.masterBlk+len)*blockSize = e.masterBlk*blockSize+len*blockSize := Nat.add_mul ..
  have hoff : slotOffset e.masterBlk = some (e.masterBlk*blockSize) := by
    rw [slotOffset,Nat.mod_eq_of_lt (by omega),if_pos (by omega)]
  have hfits : ¬ 2^63 ≤ e.masterBlk*blockSize+len*blockSize := by omega
  simp only [pwriteRunWords,hoff,if_neg hfits]
  cases res <;> rfl

theorem run_addressable {rest : List PlanEntry} {skip len : ℕ} {e : PlanEntry}
    (hrun : nextRun rest = some (skip,e,len)) (h : ∀ q ∈ missSlots rest, Addressable q) :
    (e.masterBlk+len)*blockSize < 2^63 := by
  obtain ⟨_,hpos,_,_,hslots⟩ := nextRun_some hrun
  obtain ⟨g,hg,hk,hs⟩ := hslots (len-1) (by omega)
  have hlast := h _ (mem_missSlots.mpr ⟨g,List.mem_of_getElem? hg,hk,rfl⟩)
  unfold Addressable at hlast
  rwa [hs,Nat.add_assoc,Nat.sub_add_cancel hpos] at hlast

theorem missSlots_drop {rest : List PlanEntry} {n q : ℕ} (h : q ∈ missSlots (rest.drop n)) :
    q ∈ missSlots rest := by
  obtain ⟨e,he,hk⟩ := mem_missSlots.mp h
  exact mem_missSlots.mpr ⟨e,List.mem_of_mem_drop he,hk⟩

theorem flushRestWords_eq (r : WriteReq) (io : ℕ → PwriteResult) (fuel j : ℕ)
    (rest : List PlanEntry) (f : MasterFile) (h : ∀ q ∈ missSlots rest, Addressable q) :
    flushRestWords r io fuel j rest f = flushRest r io fuel j rest f := by
  induction fuel generalizing j rest f with
  | zero => rfl
  | succ fuel ih =>
    rw [flushRestWords,flushRest,nextRunWords_eq h]
    cases hrun : nextRun rest with
    | none => rfl
    | some t =>
      obtain ⟨skip,e,len⟩ := t
      dsimp only
      rw [pwriteRunWords_eq r (io j) f (run_addressable hrun h)]
      generalize pwriteRun r e len (io j) f = t
      obtain ⟨f',err⟩ := t
      cases err with
      | none => exact ih (j+1) _ f' (fun q hq => h q (missSlots_drop hq))
      | some err => rfl

theorem runsFromWords_eq (fuel : ℕ) (rest : List PlanEntry)
    (h : ∀ q ∈ missSlots rest, Addressable q) : runsFromWords fuel rest = runsFrom fuel rest := by
  induction fuel generalizing rest with
  | zero => rfl
  | succ fuel ih =>
    rw [runsFromWords,runsFrom,nextRunWords_eq h]
    cases nextRun rest with
    | none => rfl
    | some t => exact congrArg _ (ih _ (fun q hq => h q (missSlots_drop hq)))

/-! ## No file grows beyond the largest offset -/

theorem pwriteRunWords_size (r : WriteReq) (e : PlanEntry) (len : ℕ) (res : PwriteResult)
    (hf : f.fileSize < 2^63) : (pwriteRunWords r e len res f).1.fileSize < 2^63 := by
  unfold pwriteRunWords
  dsimp only
  split
  · exact hf
  · next off _ =>
    have hbound : ∀ bytes : List UInt8, bytes.length ≤ len*blockSize →
        off+len*blockSize < 2^63 → (f.write off bytes).fileSize < 2^63 := by
      intro bytes hb hoff
      have := (write_fileSize f off bytes).2
      omega
    split_ifs with hoff
    · exact hf
    · cases res with
      | complete => exact hbound _ (List.length_take_le ..) (Nat.lt_of_not_le hoff)
      | short w =>
        refine hbound _ ?_ (Nat.lt_of_not_le hoff)
        have := List.length_take_le (len*blockSize-1) w
        omega
      | error code w => exact hbound _ (List.length_take_le ..) (Nat.lt_of_not_le hoff)

theorem flushRestWords_size (r : WriteReq) (io : ℕ → PwriteResult) (fuel j : ℕ)
    (rest : List PlanEntry) (hf : f.fileSize < 2^63) :
    (flushRestWords r io fuel j rest f).1.fileSize < 2^63 := by
  induction fuel generalizing j rest f with
  | zero => exact hf
  | succ fuel ih =>
    rw [flushRestWords]
    cases nextRunWords rest with
    | none => exact hf
    | some t =>
      obtain ⟨skip,e,len⟩ := t
      have hsize := pwriteRunWords_size r e len (io j) hf
      dsimp only
      generalize pwriteRunWords r e len (io j) f = t at hsize
      obtain ⟨f',err⟩ := t
      cases err with
      | none => exact ih (j+1) _ hsize
      | some err => exact hsize

/-! ## Flushing -/

structure FlushesSingly (r : WriteReq) (plan : List PlanEntry) (f : MasterFile) : Prop where
  complete : flushPlanWords r (fun _ => .complete) plan f = (flushSingly r plan f,none)
  held : ∀ (j : ℕ) (e : PlanEntry), plan[j]? = some e → e.kind = .miss →
    (e.masterBlk+1)*blockSize ≤ (flushPlanWords r (fun _ => .complete) plan f).1.fileSize ∧
    (flushPlanWords r (fun _ => .complete) plan f).1.block e.masterBlk = r.block j
  spared : ∀ pos, pos/blockSize ∉ missSlots plan →
    (flushPlanWords r (fun _ => .complete) plan f).1.bytes pos = f.bytes pos
  stopped : ∀ (io : ℕ → PwriteResult), ∀ j < (runsWords plan).length,
    (∀ k < j, io k = .complete) → io j ≠ .complete →
    (flushPlanWords r io plan f).2 ≠ none ∧
    (∀ io' : ℕ → PwriteResult, (∀ k ≤ j, io' k = io k) →
      flushPlanWords r io' plan f = flushPlanWords r io plan f) ∧
    ∀ pos, pos/blockSize ∉ missSlots ((runsWords plan).take (j+1)).flatten →
      (flushPlanWords r io plan f).1.bytes pos = f.bytes pos

theorem flushes_singly (hform : Formed sha512 r plan) (hlen : plan.length = r.numBlocks)
    (hnd : (missSlots plan).Nodup) (h : ∀ q ∈ missSlots plan, Addressable q) :
    FlushesSingly r plan f := by
  have heq : ∀ io, flushPlanWords r io plan f = flushPlan r io plan f :=
    fun io => flushRestWords_eq r io plan.length 0 plan f h
  have hall := flushPlan_singly hform hlen (fun _ => .complete) (fun _ => rfl) f
  have hspec := flushPlan_spec hform hlen hnd (fun _ => .complete) f
  have hruns : runsWords plan = runs plan := runsFromWords_eq plan.length plan h
  refine ⟨(heq _).trans hall,?_,?_,?_⟩
  · intro j e hj hk
    rw [heq]
    have hlt := (List.getElem?_eq_some_iff.mp hj).1
    have hnone : (flushPlan r (fun _ => .complete) plan f).2 = none := by rw [hall]
    exact ⟨hspec.reached hnone j e hlt hj hk,hspec.flushed hnone j e hlt hj hk⟩
  · intro pos hpos
    rw [heq]
    exact slice_aligned blockSize_pos pos (hspec.spares _ hpos)
  · intro io j hj hio hbad
    rw [hruns] at hj ⊢
    have hstop := flushRest_stops hform hlen plan.length 0 j 0 f (by rwa [List.drop_zero])
      (fun k hk => (Nat.zero_add k).symm ▸ hio k hk) ((Nat.zero_add j).symm ▸ hbad)
    simp only [List.drop_zero,Nat.zero_add] at hstop
    obtain ⟨h₁,h₂,h₃⟩ := hstop
    simp only [heq]
    exact ⟨h₁,h₂,fun pos hpos => slice_aligned blockSize_pos pos (h₃ _ hpos)⟩

theorem held_nodup (hform : Formed sha512 r plan) (hd : MissDistinct plan)
    (h : FlushesSingly r plan f) : (missSlots plan).Nodup := by
  have hhash : ∀ e ∈ plan, e.kind = .miss → e.hash = sha512
      ((flushPlanWords r (fun _ => .complete) plan f).1.block e.masterBlk) := by
    intro e he hk
    obtain ⟨j,hj⟩ := List.mem_iff_getElem?.mp he
    rw [(h.held j e hj hk).2]
    exact (hform j e hj).2.2
  refine List.pairwise_filterMap.mpr (hd.imp_of_mem ?_)
  intro e g he hg hne q hq q' hq' heq
  obtain ⟨hek,rfl⟩ := missSlot_some.mp hq
  obtain ⟨hgk,rfl⟩ := missSlot_some.mp hq'
  refine hne hek hgk ?_
  rw [hhash e he hek,hhash g hg hgk,heq]

theorem held_addressable (hf : f.fileSize < 2^63) (h : FlushesSingly r plan f) :
    ∀ q ∈ missSlots plan, Addressable q := by
  intro q hq
  obtain ⟨e,he,hk,rfl⟩ := mem_missSlots.mp hq
  obtain ⟨j,hj⟩ := List.mem_iff_getElem?.mp he
  exact Nat.lt_of_le_of_lt (h.held j e hj hk).1
    (flushRestWords_size r (fun _ => .complete) plan.length 0 plan hf)

theorem allocatedWords_length (n : ℕ) (c₁ c₂ : Context) : (allocatedWords n c₁ c₂).length = n := by
  simp [allocatedWords,drainFreeList]

theorem slottedWords_formed {p : Pass1} (hp : Pass1Run sha512 r p) (c₁ c₂ c₃ : Context) :
    Formed sha512 r (slottedWords p.plan c₁ c₂ c₃) ∧
      MissDistinct (slottedWords p.plan c₁ c₂ c₃) ∧
      (slottedWords p.plan c₁ c₂ c₃).length = p.plan.length := by
  have hu := assignSlots_unslotted p.plan (allocatedWords (missCount p.plan) c₁ c₂) c₃
  refine ⟨formed_unslotted hu (pass1Run_ok hp).formed,
    missDistinct_unslotted hu (pass1Run_ok hp).distinct,?_⟩
  have := congrArg List.length hu
  rwa [List.length_map,List.length_map] at this

/-- `flush_plan` on every plan that passes 1 and 1.5 build writes each MISS as on its
own exactly when the allocator handed out different slots with an addressable end. -/
theorem coalesced_flush_iff {p : Pass1} (hp : Pass1Run sha512 r p)
    (hlen : p.plan.length = r.numBlocks) (c₁ c₂ c₃ : Context) (f : MasterFile)
    (hf : f.fileSize < 2^63) :
    FlushesSingly r (slottedWords p.plan c₁ c₂ c₃) f ↔
      (allocatedWords (missCount p.plan) c₁ c₂).Nodup ∧
      ∀ q ∈ allocatedWords (missCount p.plan) c₁ c₂, Addressable q := by
  obtain ⟨hform,hd,hlen'⟩ := slottedWords_formed hp c₁ c₂ c₃
  have hslots : missSlots (slottedWords p.plan c₁ c₂ c₃) =
      allocatedWords (missCount p.plan) c₁ c₂ :=
    assignSlots_missSlots p.plan _ c₃ (allocatedWords_length _ c₁ c₂)
  rw [←hslots]
  constructor
  · intro h
    exact ⟨held_nodup hform hd h,held_addressable hf h⟩
  · rintro ⟨hnd,h⟩
    exact flushes_singly hform (hlen'.trans hlen) hnd h

section Samples

def threeBlocks : WriteReq :=
  ⟨fileA,List.replicate 4096 65++(List.replicate 4096 66++List.replicate 4096 67),0,
    by simp only [List.length_append,List.length_replicate]; decide,
    by simp only [List.length_append,List.length_replicate]; decide⟩

def threeMisses : Pass1 :=
  (pass1Block sampleSha512 threeBlocks 2 emptyContext
    (pass1Block sampleSha512 threeBlocks 1 emptyContext
      (pass1Block sampleSha512 threeBlocks 0 emptyContext Pass1.start).2).2).2

def twoFree : Context := { emptyContext with freeBlockList := [4,5], nextBlockIndex := 9 }

/-- Two free slots in a row, and an append counter further on: the first two MISSes
go out in one `pwrite`. -/
theorem coalesced_flush_three :
    missSlots (slottedWords threeMisses.plan twoFree twoFree emptyContext) = [4,5,9] ∧
    (runsWords (slottedWords threeMisses.plan twoFree twoFree emptyContext)).map List.length =
      [2,1] ∧
    FlushesSingly threeBlocks (slottedWords threeMisses.plan twoFree twoFree emptyContext)
      emptyContext.toMasterFile := by
  have hp : Pass1Run sampleSha512 threeBlocks threeMisses :=
    .block _ _ (.block _ _ (.block _ _ .start))
  have hlen : threeMisses.plan.length = threeBlocks.numBlocks := by decide +kernel
  have hslots : allocatedWords (missCount threeMisses.plan) twoFree twoFree = [4,5,9] := by
    decide +kernel
  refine ⟨by decide +kernel,by decide +kernel,(coalesced_flush_iff hp hlen twoFree twoFree
    emptyContext emptyContext.toMasterFile (by decide)).mpr ?_⟩
  rw [hslots]
  decide

def sameSlot : Context := { emptyContext with freeBlockList := [0] }

def twoBlocks : WriteReq :=
  ⟨fileA,List.replicate 4096 65++List.replicate 4096 66,0,
    by simp only [List.length_append,List.length_replicate]; decide,
    by simp only [List.length_append,List.length_replicate]; decide⟩

def twoMisses : Pass1 :=
  (pass1Block sampleSha512 twoBlocks 1 emptyContext
    (pass1Block sampleSha512 twoBlocks 0 emptyContext Pass1.start).2).2

/-- Both blocks go to slot 0, where the second overwrites the first. -/
theorem same_slot_flush :
    Pass1Run sampleSha512 twoBlocks twoMisses ∧ twoMisses.plan.length = twoBlocks.numBlocks ∧
    missSlots (slottedWords twoMisses.plan sameSlot sameSlot emptyContext) = [0,0] ∧
    ¬ FlushesSingly twoBlocks (slottedWords twoMisses.plan sameSlot sameSlot emptyContext)
      emptyContext.toMasterFile := by
  have hp : Pass1Run sampleSha512 twoBlocks twoMisses := .block _ _ (.block _ _ .start)
  have hslots : missSlots (slottedWords twoMisses.plan sameSlot sameSlot emptyContext) = [0,0] := by
    decide +kernel
  refine ⟨hp,by decide +kernel,hslots,?_⟩
  intro h
  obtain ⟨hform,hd,_⟩ := slottedWords_formed hp sameSlot sameSlot emptyContext
  have hnd := held_nodup hform hd h
  rw [hslots] at hnd
  exact absurd hnd (by decide)

end Samples

end ArchivalDedup.WordFlush
