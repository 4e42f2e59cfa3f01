import ArchivalDedup.BatchedRead
import ArchivalDedup.WordOffsets

/-!
# Batched reading with 64-bit offsets

`read_dedup` on any index and any size: slots are `uint64_t`, the offset of a group
is a product in 64 bits, and the byte count is cut to an `int`. Batched reading is
reading block by block as long as neither of the two wraps.
-/

set_option autoImplicit false

namespace ArchivalDedup.WordRead
open ArchivalDedup.FiniteTable ArchivalDedup.ByteMap ArchivalDedup.ConsecutiveRun
open ArchivalDedup.MetaIndex ArchivalDedup.ReadDedup ArchivalDedup.ReadBlocks
open ArchivalDedup.BatchedRead ArchivalDedup.WordOffsets

def lookupBlocks (path : Path) (startBlock : ℕ) (c : Context) : ℕ → ℕ → List BlockPair
  | 0, _ => []
  | n+1, i =>
    match c.lookupByFileBlock path (startBlock+i) with
    | none => []
    | some info => ⟨i,(c.cell info).masterBlockIndex⟩::lookupBlocks path startBlock c n (i+1)

/-- Phase 3: `pairs[i].master_block_index == pairs[i-1].master_block_index+1`. -/
def groupWords : List BlockPair → ℕ
  | [] => 0
  | p::ps => consecutiveMod (fun q => some q.masterBlockIndex) (2^64) p.masterBlockIndex ps+1

/-- Phases 4 and 5. A group whose `pread` is complete does not wrap, so that its
differences of slots are those of numbers. -/
def readGroupWords (f : MasterFile) (group : List BlockPair) (buf : Buffer) :
    Buffer × Option Errno :=
  match group with
  | [] => (buf,none)
  | [p] =>
    match preadSlot f p.masterBlockIndex blockSize with
    | none => (buf,some .eio)
    | some res =>
      (splice buf (p.logicalIdx*blockSize) res,if res.length = blockSize then none else some .eio)
  | p::q::ps =>
    let size := (p::q::ps).length*blockSize
    match preadSlot f p.masterBlockIndex size with
    | none => (buf,some .eio)
    | some res =>
      if res.length = size then (scatter res p.masterBlockIndex (p::q::ps) buf,none)
      else (buf,some .eio)

def readGroupsWords (f : MasterFile) : ℕ → List BlockPair → Buffer → Buffer × Option Errno
  | 0, _, buf => (buf,none)
  | fuel+1, rest, buf =>
    if rest = [] then (buf,none)
    else
      match readGroupWords f (rest.take (groupWords rest)) buf with
      | (buf',none) => readGroupsWords f fuel (rest.drop (groupWords rest)) buf'
      | (buf',some err) => (buf',some err)

def intOf (n : ℕ) : ℤ := (BitVec.ofNat 32 n).toInt

def readDedupWords (qsort : List BlockPair → List BlockPair) (path : Path) (size offset : ℕ)
    (c : Context) (buf : Buffer) : Buffer × Except Errno ℤ :=
  let numBlocks := size/blockSize
  if numBlocks = 0 ∨ size % blockSize ≠ 0 then (buf,.error .eopnotsupp)
  else
    let pairs := lookupBlocks path (offset/blockSize) c numBlocks 0
    if pairs = [] then (buf,.ok 0)
    else
      let t := readGroupsWords c.toMasterFile pairs.length (sortPairs qsort pairs) buf
      match t.2 with
      | some err => (t.1,.error err)
      | none => (t.1,.ok (intOf (pairs.length*blockSize)))

variable {f : MasterFile} {path : Path} {startBlock : ℕ} {c : Context}

theorem lookupBlocks_run (path : Path) (startBlock : ℕ) (c : Context) (n i : ℕ) :
    lookupBlocks path startBlock c n i = presentRun (fun i =>
      (c.lookupByFileBlock path (startBlock+i)).map
        (fun info => ⟨i,(c.cell info).masterBlockIndex⟩)) n i := by
  induction n generalizing i with
  | zero => rfl
  | succ n ih =>
    simp only [lookupBlocks,presentRun,ih]
    cases c.lookupByFileBlock path (startBlock+i) <;> rfl

theorem lookupBlocks_positions (path : Path) (startBlock : ℕ) (c : Context) (n : ℕ) :
    (lookupBlocks path startBlock c n 0).map BlockPair.logicalIdx =
      List.range (lookupBlocks path startBlock c n 0).length := by
  rw [lookupBlocks_run,List.range_eq_range']
  refine presentRun_positions BlockPair.logicalIdx ?_ n 0
  intro j q hj
  obtain ⟨a,_,rfl⟩ := Option.map_eq_some_iff.mp hj
  rfl

theorem groupWords_le (rest : List BlockPair) : groupWords rest ≤ rest.length := by
  cases rest with
  | nil => exact Nat.le_refl 0
  | cons p ps => exact Nat.succ_le_succ (consecutiveMod_le _ _ _ _)

theorem groupWords_pos (p : BlockPair) (ps : List BlockPair) : 0 < groupWords (p::ps) :=
  Nat.succ_pos _

theorem groupWords_slot (p : BlockPair) (ps : List BlockPair) {t : ℕ}
    (ht : t < groupWords (p::ps)) : ∃ q, (p::ps)[t]? = some q ∧
      wrapSlot q.masterBlockIndex = wrapSlot (p.masterBlockIndex+t) := by
  obtain ⟨n,hn,hmod⟩ := runMod_key (fun q : BlockPair => some q.masterBlockIndex) (2^64) p ps
    p.masterBlockIndex rfl t ht
  obtain ⟨q,hq,hqn⟩ := Option.bind_eq_some_iff.mp hn
  cases hqn
  exact ⟨q,hq,wrapSlot_congr hmod⟩

theorem groupWords_inside (hf : f.fileSize < 2^63) (p : BlockPair) (ps : List BlockPair) :
    (∀ q ∈ (p::ps).take (groupWords (p::ps)),
      (wrapSlot q.masterBlockIndex+1)*blockSize ≤ f.fileSize) ↔
      (wrapSlot p.masterBlockIndex+groupWords (p::ps))*blockSize ≤ f.fileSize := by
  rw [wrapped_stretch hf (groupWords_pos p ps)]
  constructor
  · intro h t ht
    obtain ⟨q,hq,hslot⟩ := groupWords_slot p ps ht
    rw [←hslot]
    exact h q (List.mem_of_getElem? (by rw [List.getElem?_take_of_lt ht]; exact hq))
  · intro h q hq
    obtain ⟨t,hget⟩ := List.mem_iff_getElem?.mp hq
    have ht : t < groupWords (p::ps) := by
      have := (List.getElem?_eq_some_iff.mp hget).1
      rw [List.length_take] at this
      omega
    rw [List.getElem?_take_of_lt ht] at hget
    obtain ⟨q',hq',hslot⟩ := groupWords_slot p ps ht
    cases hget.symm.trans hq'
    rw [hslot]
    exact h t ht

theorem take_group (p : BlockPair) (ps : List BlockPair) :
    ∃ qs, (p::ps).take (groupWords (p::ps)) = p::qs ∧ qs.length+1 = groupWords (p::ps) := by
  have hlen : ((p::ps).take (groupWords (p::ps))).length = groupWords (p::ps) :=
    List.length_take_of_le (groupWords_le _)
  refine ⟨ps.take (groupWords (p::ps)-1),?_,?_⟩
  · obtain ⟨n,hn⟩ := Nat.exists_eq_succ_of_ne_zero (groupWords_pos p ps).ne'
    rw [hn]
    rfl
  · have hle := groupWords_le (p::ps)
    have hpos := groupWords_pos p ps
    rw [List.length_cons] at hle
    rw [List.length_take]
    omega

theorem readGroupWords_result (hf : f.fileSize < 2^63) (p : BlockPair) (qs : List BlockPair)
    (buf : Buffer) : (readGroupWords f (p::qs) buf).2 =
      if (wrapSlot p.masterBlockIndex+(qs.length+1))*blockSize ≤ f.fileSize then none
      else some .eio := by
  have hfull := preadSlot_full p.masterBlockIndex hf (Nat.succ_pos qs.length)
  cases qs with
  | nil =>
    rw [List.length_nil,Nat.succ_eq_add_one,Nat.zero_add,Nat.one_mul] at hfull
    rw [List.length_nil,Nat.zero_add,readGroupWords]
    cases hres : preadSlot f p.masterBlockIndex blockSize with
    | none =>
      rw [hres,Option.map_none] at hfull
      rw [if_neg (fun h => absurd (hfull.mpr h) (Option.some_ne_none _).symm)]
    | some res =>
      rw [hres,Option.map_some,Option.some.injEq] at hfull
      simp only [hfull]
  | cons q qs =>
    rw [readGroupWords,List.length_cons (a := p)]
    cases hres : preadSlot f p.masterBlockIndex (((q::qs).length+1)*blockSize) with
    | none =>
      rw [hres,Option.map_none] at hfull
      rw [if_neg (fun h => absurd (hfull.mpr h) (Option.some_ne_none _).symm)]
    | some res =>
      rw [hres,Option.map_some,Option.some.injEq] at hfull
      simp only [hfull]
      split_ifs <;> rfl

theorem readGroupsWords_result (hf : f.fileSize < 2^63) (fuel : ℕ) (rest : List BlockPair)
    (buf : Buffer) (hfuel : rest.length ≤ fuel) : (readGroupsWords f fuel rest buf).2 =
      if Inside f (rest.map (fun q => wrapSlot q.masterBlockIndex)) then none
      else some .eio := by
  induction fuel generalizing rest buf with
  | zero =>
    have hr : rest = [] := List.length_eq_zero_iff.mp (by omega)
    subst hr
    rfl
  | succ fuel ih =>
    cases rest with
    | nil => rfl
    | cons p ps =>
      obtain ⟨qs,htake,hlen⟩ := take_group p ps
      have hresult := readGroupWords_result hf p qs buf
      rw [hlen] at hresult
      have hsplit : Inside f ((p::ps).map (fun q => wrapSlot q.masterBlockIndex)) ↔
          (wrapSlot p.masterBlockIndex+groupWords (p::ps))*blockSize ≤ f.fileSize ∧
          Inside f (((p::ps).drop (groupWords (p::ps))).map
            (fun q => wrapSlot q.masterBlockIndex)) := by
        rw [←groupWords_inside hf]
        unfold Inside
        rw [List.forall_mem_map,List.forall_mem_map,←List.forall_mem_append,List.take_append_drop]
      rw [readGroupsWords,if_neg (List.cons_ne_nil p ps),htake]
      generalize readGroupWords f (p::qs) buf = t at hresult ⊢
      obtain ⟨buf',err⟩ := t
      dsimp only at hresult
      by_cases hin : (wrapSlot p.masterBlockIndex+groupWords (p::ps))*blockSize ≤ f.fileSize
      · rw [if_pos hin] at hresult
        subst hresult
        refine (ih _ buf' ?_).trans ?_
        · have := groupWords_pos p ps
          simp only [List.length_drop,List.length_cons] at hfuel ⊢
          omega
        · simp only [hsplit,hin,true_and]
      · rw [if_neg hin] at hresult
        subst hresult
        rw [if_neg (fun h => hin (hsplit.mp h).1)]

/-! ## Below the bound -/

theorem groupWords_eq {rest : List BlockPair} (h : ∀ q ∈ rest, q.masterBlockIndex < 2^52) :
    groupWords rest = groupLen rest := by
  cases rest with
  | nil => rfl
  | cons p ps =>
    have hsmall : ∀ q ∈ p::ps, q.masterBlockIndex+1 < 2^64 := by
      intro q hq
      have := h q hq
      omega
    refine congrArg (·+1) (consecutiveMod_eq _ _ (hsmall p (by simp)) ?_)
    intro q hq n hn
    cases hn
    exact hsmall q (by simp [hq])

theorem readGroupWords_eq {p : BlockPair} (qs : List BlockPair)
    (h : p.masterBlockIndex*blockSize < 2^63) (buf : Buffer) :
    readGroupWords f (p::qs) buf = readGroup f (p::qs) buf := by
  cases qs with
  | nil => simp only [readGroupWords,readGroup,preadSlot_inside h]
  | cons q qs => simp only [readGroupWords,readGroup,preadSlot_inside h]

theorem readGroupsWords_eq (fuel : ℕ) (rest : List BlockPair) (buf : Buffer)
    (h : ∀ q ∈ rest, q.masterBlockIndex*blockSize < 2^63) :
    readGroupsWords f fuel rest buf = readGroups f fuel rest buf := by
  induction fuel generalizing rest buf with
  | zero => rfl
  | succ fuel ih =>
    cases rest with
    | nil => rfl
    | cons p ps =>
      obtain ⟨qs,htake,_⟩ := take_group p ps
      have hsmall : ∀ q ∈ p::ps, q.masterBlockIndex < 2^52 := by
        intro q hq
        have := h q hq
        rw [mul_blockSize] at this
        omega
      rw [readGroupsWords,readGroups,←groupWords_eq hsmall,htake,
        readGroupWords_eq qs (h p (by simp))]
      rw [if_neg (List.cons_ne_nil p ps),if_neg (List.cons_ne_nil p ps)]
      generalize readGroup f (p::qs) buf = t
      obtain ⟨buf',err⟩ := t
      cases err with
      | none => exact ih _ _ (fun q hq => h q (List.mem_of_mem_drop hq))
      | some err => rfl

theorem intOf_small {n : ℕ} (h : n < 2^31) : intOf n = n := by
  unfold intOf
  rw [BitVec.toInt_ofNat',Int.bmod_eq_of_le (by omega) (by omega)]

theorem intOf_large {n : ℕ} (h : 2^31 ≤ n) : intOf n ≠ n := by
  have := BitVec.toInt_lt (x := BitVec.ofNat 32 n)
  unfold intOf
  omega

theorem lookupBlocks_eq (r : ReadReq) (c : Context) (n i : ℕ) :
    lookupBlocks r.path r.startBlock c n i = lookupPairs r c n i := by
  induction n generalizing i with
  | zero => rfl
  | succ n ih =>
    simp only [lookupBlocks,lookupPairs,lookupPair,ih]
    cases c.lookupByFileBlock r.path (r.startBlock+i) <;> rfl

theorem lookupBlocks_length (path : Path) (startBlock : ℕ) (c : Context) (n i : ℕ) :
    (lookupBlocks path startBlock c n i).length ≤ n := by
  induction n generalizing i with
  | zero => exact Nat.le_refl 0
  | succ n ih =>
    unfold lookupBlocks
    split
    · exact Nat.zero_le _
    · exact Nat.succ_le_succ (ih (i+1))

/-- On slots that an `off_t` reaches this is the `read_dedup` of the other modules. -/
theorem readDedupWords_eq {qsort : List BlockPair → List BlockPair} (hq : ∀ l, (qsort l).Perm l)
    (r : ReadReq) (c : Context) (buf : Buffer)
    (h : ∀ q ∈ lookupPairs r c r.numBlocks 0, q.masterBlockIndex*blockSize < 2^63) :
    readDedupWords qsort r.path r.size r.offset c buf =
      ((readDedup qsort r c buf).1,(readDedup qsort r c buf).2.map Int.ofNat) := by
  have hpairs : lookupBlocks r.path (r.offset/blockSize) c (r.size/blockSize) 0 =
      lookupPairs r c r.numBlocks 0 := lookupBlocks_eq r c r.numBlocks 0
  have hlen : (lookupPairs r c r.numBlocks 0).length ≤ r.numBlocks := by
    rw [←hpairs]
    exact lookupBlocks_length _ _ c _ 0
  have hcount : (lookupPairs r c r.numBlocks 0).length*blockSize < 2^31 :=
    Nat.lt_of_le_of_lt ((Nat.mul_le_mul_right _ hlen).trans (Nat.div_mul_le_self ..)) r.fits
  have hgroups := readGroupsWords_eq (f := c.toMasterFile) (lookupPairs r c r.numBlocks 0).length
    (sortPairs qsort (lookupPairs r c r.numBlocks 0)) buf
    (fun q hm => h q ((sortPairs_perm hq _).mem_iff.mp hm))
  unfold readDedupWords readDedup
  dsimp only
  rw [hpairs]
  change (if r.numBlocks = 0 ∨ r.size % blockSize ≠ 0 then _ else _) = _
  split_ifs with hn hnil
  · rfl
  · rfl
  · unfold readPairs
    dsimp only
    rw [hgroups,intOf_small hcount]
    cases (readGroups c.toMasterFile (lookupPairs r c r.numBlocks 0).length
      (sortPairs qsort (lookupPairs r c r.numBlocks 0)) buf).2 <;> rfl

def mappedSlots (path : Path) (startBlock n : ℕ) (c : Context) : List ℕ :=
  presentRun (fun i => (find c.fileToMaster ⟨path,startBlock+i⟩).map
    (fun a => (c.cell a).masterBlockIndex)) n 0

theorem lookupBlocks_slots (path : Path) (startBlock n : ℕ) (c : Context) :
    (lookupBlocks path startBlock c n 0).map BlockPair.masterBlockIndex =
      mappedSlots path startBlock n c := by
  rw [lookupBlocks_run,←presentRun_map]
  unfold mappedSlots
  congr 1
  funext i
  rw [Option.map_map]
  rfl

structure BlockByBlock (qsort : List BlockPair → List BlockPair) (path : Path) (k offset : ℕ)
    (c : Context) (buf : Buffer) : Prop where
  outside : ¬ Inside c.toMasterFile (mappedSlots path (offset/blockSize) k c) →
    (readDedupWords qsort path (k*blockSize) offset c buf).2 = .error .eio
  inside : Inside c.toMasterFile (mappedSlots path (offset/blockSize) k c) →
    (readDedupWords qsort path (k*blockSize) offset c buf).2 =
      .ok (((mappedSlots path (offset/blockSize) k c).length*blockSize : ℕ) : ℤ) ∧
    (∀ i q, (mappedSlots path (offset/blockSize) k c)[i]? = some q →
      outBlock (readDedupWords qsort path (k*blockSize) offset c buf).1 i =
        c.toMasterFile.block q) ∧
    ∀ pos, (mappedSlots path (offset/blockSize) k c).length*blockSize ≤ pos →
      (readDedupWords qsort path (k*blockSize) offset c buf).1 pos = buf pos
  anyOrder : ∀ order, order.Perm (lookupBlocks path (offset/blockSize) c k 0) →
    (readGroupsWords c.toMasterFile order.length order buf).2 =
      (if Inside c.toMasterFile (mappedSlots path (offset/blockSize) k c) then none
        else some .eio) ∧
    (Inside c.toMasterFile (mappedSlots path (offset/blockSize) k c) →
      (readGroupsWords c.toMasterFile order.length order buf).1 =
        (readDedupWords qsort path (k*blockSize) offset c buf).1)

theorem readDedupWords_groups (qsort : List BlockPair → List BlockPair) (path : Path)
    {k : ℕ} (hk : 1 ≤ k) (offset : ℕ) (c : Context) (buf : Buffer) :
    let pairs := lookupBlocks path (offset/blockSize) c k 0
    let t := readGroupsWords c.toMasterFile pairs.length (sortPairs qsort pairs) buf
    readDedupWords qsort path (k*blockSize) offset c buf = (t.1,match t.2 with
      | some err => .error err
      | none => .ok (intOf (pairs.length*blockSize))) := by
  intro pairs t
  have hdiv : k*blockSize/blockSize = k := Nat.mul_div_cancel k blockSize_pos
  have hn : ¬ (k*blockSize/blockSize = 0 ∨ k*blockSize % blockSize ≠ 0) := by
    rw [hdiv,Nat.mul_mod_left]
    omega
  unfold readDedupWords
  rw [if_neg hn,hdiv]
  change (if pairs = [] then _ else _) = _
  split_ifs with hnil
  · have ht : t = (buf,none) := by
      simp only [t,hnil]
      rfl
    rw [ht,hnil]
    rfl
  · change (match t.2 with
      | some err => (t.1,Except.error err)
      | none => (t.1,Except.ok (intOf (pairs.length*blockSize)))) = _
    cases t.2 <;> rfl

theorem inside_small {slots : List ℕ} (hf : f.fileSize < 2^63) (h : Inside f slots) :
    ∀ q ∈ slots, q*blockSize < 2^63 ∧ q < 2^52 := by
  intro q hq
  have := h q hq
  rw [mul_blockSize] at this ⊢
  omega

theorem wrapped_inside {slots : List ℕ} (h : ∀ q ∈ slots, q < 2^52) :
    Inside f (slots.map wrapSlot) ↔ Inside f slots := by
  rw [List.map_congr_left (fun q hq => wrapSlot_small (h q hq)),List.map_id']

section Orders

variable {n : ℕ} {order : List BlockPair} (buf : Buffer)

theorem ordered_result (hf : f.fileSize < 2^63)
    (hperm : order.Perm (lookupBlocks path startBlock c n 0)) :
    (readGroupsWords f order.length order buf).2 =
      if Inside f ((mappedSlots path startBlock n c).map wrapSlot) then none else some .eio := by
  have hin : Inside f (order.map (fun q => wrapSlot q.masterBlockIndex)) ↔
      Inside f ((mappedSlots path startBlock n c).map wrapSlot) := by
    rw [←lookupBlocks_slots,List.map_map]
    exact inside_perm (hperm.map _)
  rw [readGroupsWords_result hf _ order buf (Nat.le_refl _)]
  simp only [hin]

theorem ordered_blocks (hf : f.fileSize < 2^63)
    (hperm : order.Perm (lookupBlocks path startBlock c n 0))
    (hin : Inside f (mappedSlots path startBlock n c)) :
    (∀ i q, (mappedSlots path startBlock n c)[i]? = some q →
      outBlock (readGroupsWords f order.length order buf).1 i = f.block q) ∧
    ∀ i, (mappedSlots path startBlock n c).length ≤ i →
      outBlock (readGroupsWords f order.length order buf).1 i = outBlock buf i := by
  have hslots : ∀ q ∈ order, q.masterBlockIndex*blockSize < 2^63 := by
    intro q hq
    refine (inside_small hf hin _ ?_).1
    rw [←lookupBlocks_slots]
    exact List.mem_map_of_mem (hperm.mem_iff.mp hq)
  have h := (readGroups_pairs (f := f) (lookupBlocks_positions path startBlock c n) hperm buf).2
  rw [lookupBlocks_slots] at h
  rw [readGroupsWords_eq _ order buf hslots,hperm.length_eq]
  exact h hin

end Orders

section Request

variable {qsort : List BlockPair → List BlockPair} {k offset : ℕ} (buf : Buffer)

theorem readDedupWords_buffer (path : Path) (offset : ℕ) (c : Context)
    (hq : ∀ l, (qsort l).Perm l) (hk : 1 ≤ k) :
    let order := sortPairs qsort (lookupBlocks path (offset/blockSize) c k 0)
    (readDedupWords qsort path (k*blockSize) offset c buf).1 =
      (readGroupsWords c.toMasterFile order.length order buf).1 := by
  intro order
  rw [readDedupWords_groups qsort path hk offset c buf,(sortPairs_perm hq _).length_eq]

theorem readDedupWords_result (path : Path) (offset : ℕ) (hq : ∀ l, (qsort l).Perm l) (hk : 1 ≤ k)
    (hf : c.fileSize < 2^63) :
    let slots := mappedSlots path (offset/blockSize) k c
    (readDedupWords qsort path (k*blockSize) offset c buf).2 =
      if Inside c.toMasterFile (slots.map wrapSlot) then .ok (intOf (slots.length*blockSize))
      else .error .eio := by
  intro slots
  have hperm := sortPairs_perm hq (lookupBlocks path (offset/blockSize) c k 0)
  have hlen : (lookupBlocks path (offset/blockSize) c k 0).length = slots.length := by
    rw [show slots = _ from (lookupBlocks_slots path _ k c).symm,List.length_map]
  have hresult := ordered_result (f := c.toMasterFile) buf hf hperm
  rw [hperm.length_eq] at hresult
  rw [readDedupWords_groups qsort path hk offset c buf,hresult,hlen]
  split_ifs <;> rfl

theorem blockByBlock_outside (hq : ∀ l, (qsort l).Perm l) (hk : 1 ≤ k) (hf : c.fileSize < 2^63)
    (h : ¬ Inside c.toMasterFile ((mappedSlots path (offset/blockSize) k c).map wrapSlot)) :
    BlockByBlock qsort path k offset c buf := by
  have hout : ¬ Inside c.toMasterFile (mappedSlots path (offset/blockSize) k c) := by
    intro hin
    exact h ((wrapped_inside (fun q hq => (inside_small hf hin q hq).2)).mpr hin)
  exact
    { outside := fun _ => by rw [readDedupWords_result buf path offset hq hk hf,if_neg h]
      inside := fun hin => absurd hin hout
      anyOrder := fun order hperm =>
        ⟨by rw [ordered_result buf hf hperm,if_neg h,if_neg hout],fun hin => absurd hin hout⟩ }

theorem blockByBlock_small (hq : ∀ l, (qsort l).Perm l) (hk : 1 ≤ k) (hf : c.fileSize < 2^63)
    (hslots : ∀ q ∈ mappedSlots path (offset/blockSize) k c, q < 2^52)
    (hcount : (mappedSlots path (offset/blockSize) k c).length < 2^19) :
    BlockByBlock qsort path k offset c buf := by
  have hperm := sortPairs_perm hq (lookupBlocks path (offset/blockSize) c k 0)
  have hresult := readDedupWords_result buf path offset hq hk hf
  have hbuffer := readDedupWords_buffer buf path offset c hq hk
  have hsmall : (mappedSlots path (offset/blockSize) k c).length*blockSize < 2^31 := by
    rw [mul_blockSize]
    omega
  dsimp only at hresult hbuffer
  rw [intOf_small hsmall] at hresult
  simp only [wrapped_inside hslots] at hresult
  refine ⟨?_,?_,?_⟩
  · intro hout
    rw [hresult,if_neg hout]
  · intro hin
    obtain ⟨hplaced,hrest⟩ := ordered_blocks buf hf hperm hin
    rw [hresult,if_pos hin,hbuffer]
    refine ⟨rfl,hplaced,?_⟩
    intro pos hle
    exact slice_aligned blockSize_pos pos
      (hrest (pos/blockSize) ((Nat.le_div_iff_mul_le blockSize_pos).mpr hle))
  · intro order hperm'
    rw [ordered_result buf hf hperm']
    simp only [wrapped_inside hslots,true_and]
    intro hin
    obtain ⟨hplaced,hrest⟩ := ordered_blocks buf hf hperm hin
    obtain ⟨hplaced',hrest'⟩ := ordered_blocks buf hf hperm' hin
    rw [hbuffer]
    refine outBlock_ext ?_
    intro i
    by_cases hi : i < (mappedSlots path (offset/blockSize) k c).length
    · have hget := List.getElem?_eq_getElem hi
      rw [hplaced' i _ hget,hplaced i _ hget]
    · rw [hrest' i (Nat.le_of_not_lt hi),hrest i (Nat.le_of_not_lt hi)]

theorem blockByBlock_unwrapped (hq : ∀ l, (qsort l).Perm l) (hk : 1 ≤ k) (hf : c.fileSize < 2^63)
    (h : Inside c.toMasterFile ((mappedSlots path (offset/blockSize) k c).map wrapSlot))
    (hall : BlockByBlock qsort path k offset c buf) :
    (∀ q ∈ mappedSlots path (offset/blockSize) k c, q < 2^52) ∧
      (mappedSlots path (offset/blockSize) k c).length < 2^19 := by
  have hresult := readDedupWords_result buf path offset hq hk hf
  dsimp only at hresult
  rw [if_pos h] at hresult
  by_cases hin : Inside c.toMasterFile (mappedSlots path (offset/blockSize) k c)
  · refine ⟨fun q hq => (inside_small hf hin q hq).2,?_⟩
    by_contra hcount
    have hint := Except.ok.inj (hresult.symm.trans (hall.inside hin).1)
    refine intOf_large ?_ hint
    rw [mul_blockSize]
    omega
  · have := hresult.symm.trans (hall.outside hin)
    cases this

end Request

/-- `read_dedup` alone reads block by block exactly when some offset leads out of
the file, or neither a slot nor the byte count wraps. -/
theorem batched_read_iff {qsort : List BlockPair → List BlockPair} (hq : ∀ l, (qsort l).Perm l)
    (path : Path) (k offset : ℕ) (hk : 1 ≤ k) (c : Context) (hf : c.fileSize < 2^63)
    (buf : Buffer) :
    BlockByBlock qsort path k offset c buf ↔
      (∃ q ∈ mappedSlots path (offset/blockSize) k c,
        c.fileSize < (wrapSlot q+1)*blockSize) ∨
      (∀ q ∈ mappedSlots path (offset/blockSize) k c, q < 2^52) ∧
        (mappedSlots path (offset/blockSize) k c).length < 2^19 := by
  have hout : (∃ q ∈ mappedSlots path (offset/blockSize) k c,
      c.fileSize < (wrapSlot q+1)*blockSize) ↔
      ¬ Inside c.toMasterFile ((mappedSlots path (offset/blockSize) k c).map wrapSlot) := by
    unfold Inside
    rw [List.forall_mem_map]
    simp only [not_forall,not_le,exists_prop]
  rw [hout]
  constructor
  · intro h
    by_cases hin : Inside c.toMasterFile
        ((mappedSlots path (offset/blockSize) k c).map wrapSlot)
    · exact Or.inr (blockByBlock_unwrapped buf hq hk hf hin h)
    · exact Or.inl hin
  · rintro (h | ⟨hslots,hcount⟩)
    · exact blockByBlock_outside buf hq hk hf h
    · exact blockByBlock_small buf hq hk hf hslots hcount

theorem batched_read_repeated :
    mappedSlots ⟨[47,97],slashA_noNul,slashA_fits⟩ 0 5 repeatedSlots = [1,2,1,0] ∧
    BlockByBlock id ⟨[47,97],slashA_noNul,slashA_fits⟩ 5 0 repeatedSlots (fun _ => 7) := by
  have hslots : mappedSlots ⟨[47,97],slashA_noNul,slashA_fits⟩ (0/blockSize) 5 repeatedSlots =
      [1,2,1,0] := by decide +kernel
  refine ⟨hslots,(batched_read_iff (fun l => List.Perm.refl (id l)) _ 5 0 (by decide)
    repeatedSlots (by decide) (fun _ => 7)).mpr (Or.inr ?_)⟩
  rw [hslots]
  decide

def farSlot : Context :=
  { emptyContext with
    fileToMaster := emptyContext.fileToMaster.insert ⟨⟨[47,97],slashA_noNul,slashA_fits⟩,0⟩ 1
    cell := fun _ => { (default : MasterInfo) with masterBlockIndex := 2^52 }
    fileSize := 4096 }

/-- The offset of slot 2^52 is 0: the read returns the block of slot 0. -/
theorem far_slot_read :
    mappedSlots ⟨[47,97],slashA_noNul,slashA_fits⟩ 0 1 farSlot = [2^52] ∧
    ¬ Inside farSlot.toMasterFile [2^52] ∧
    (readDedupWords id ⟨[47,97],slashA_noNul,slashA_fits⟩ 4096 0 farSlot (fun _ => 7)).2 =
      .ok 4096 ∧
    ¬ BlockByBlock id ⟨[47,97],slashA_noNul,slashA_fits⟩ 1 0 farSlot (fun _ => 7) := by
  have hslots : mappedSlots ⟨[47,97],slashA_noNul,slashA_fits⟩ (0/blockSize) 1 farSlot =
      [2^52] := by decide +kernel
  have hres : (readDedupWords id ⟨[47,97],slashA_noNul,slashA_fits⟩ (1*blockSize) 0 farSlot
      (fun _ => 7)).2 = .ok 4096 := by decide +kernel
  have hout : ¬ Inside farSlot.toMasterFile [2^52] := by decide
  refine ⟨hslots,hout,hres,?_⟩
  intro h
  have herr := h.outside (by rw [hslots]; exact hout)
  rw [hres] at herr
  cases herr

end ArchivalDedup.WordRead
