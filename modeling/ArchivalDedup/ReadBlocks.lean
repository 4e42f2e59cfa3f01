import ArchivalDedup.ReadDedup

/-!
# What the phases of a read place in the buffer

Sorting permutes the pairs, a group is a stretch of consecutive slots, and one
`pread` of the group puts each block at the position of its pair. Nothing
outside the positions of the group is touched, whatever the `pread` returns.
-/

set_option autoImplicit false

namespace ArchivalDedup.ReadBlocks
open ArchivalDedup.ByteMap ArchivalDedup.ConsecutiveRun ArchivalDedup.MetaIndex
open ArchivalDedup.ReadDedup

def outBlock (buf : Buffer) (i : ℕ) : List UInt8 := slice buf (i*blockSize) blockSize

theorem insertBack_perm (tmp : BlockPair) (l : List BlockPair) :
    (insertBack tmp l).Perm (tmp::l) := by
  induction l with
  | nil => exact List.Perm.refl _
  | cons x xs ih =>
    unfold insertBack
    split_ifs
    · exact List.Perm.refl _
    · exact (ih.cons x).trans (List.Perm.swap tmp x xs)

theorem insertionSort_perm (pairs : List BlockPair) : (insertionSort pairs).Perm pairs := by
  have hfold : ∀ l acc : List BlockPair,
      (l.foldl (fun acc tmp => insertBack tmp acc) acc).Perm (l++acc) := by
    intro l
    induction l with
    | nil => exact fun acc => List.Perm.refl acc
    | cons x xs ih =>
      intro acc
      refine (ih (insertBack x acc)).trans ?_
      exact ((insertBack_perm x acc).append_left xs).trans List.perm_middle
  unfold insertionSort
  refine (List.reverse_perm _).trans ?_
  simpa using hfold pairs []

theorem sortPairs_perm {qsort : List BlockPair → List BlockPair} (hq : ∀ l, (qsort l).Perm l)
    (pairs : List BlockPair) : (sortPairs qsort pairs).Perm pairs := by
  unfold sortPairs
  split_ifs
  · exact insertionSort_perm pairs
  · exact hq pairs

theorem groupLen_le (rest : List BlockPair) : groupLen rest ≤ rest.length := by
  cases rest with
  | nil => exact Nat.le_refl 0
  | cons p ps => exact Nat.succ_le_succ (consecutive_le _ _ _)

theorem groupLen_pos {rest : List BlockPair} (h : rest ≠ []) : 0 < groupLen rest := by
  cases rest with
  | nil => exact absurd rfl h
  | cons p ps => exact Nat.succ_pos _

theorem group_slots {p q : BlockPair} {ps : List BlockPair}
    (hq : q ∈ (p::ps).take (groupLen (p::ps))) :
    ∃ t < groupLen (p::ps), q.masterBlockIndex = p.masterBlockIndex+t := by
  obtain ⟨t,ht⟩ := List.mem_iff_getElem?.mp hq
  have hlt : t < groupLen (p::ps) := by
    have := (List.getElem?_eq_some_iff.mp ht).1
    rw [List.length_take] at this
    omega
  rw [List.getElem?_take_of_lt hlt] at ht
  have hkey := run_key (fun q : BlockPair => some q.masterBlockIndex) p ps p.masterBlockIndex rfl t hlt
  rw [ht] at hkey
  exact ⟨t,hlt,by simpa using hkey⟩

theorem outBlock_splice_other (buf : Buffer) (i j : ℕ) (bytes : List UInt8)
    (hb : bytes.length ≤ blockSize) (h : j ≠ i) :
    outBlock (splice buf (i*blockSize) bytes) j = outBlock buf j := by
  refine slice_splice_disjoint buf _ bytes _ _ ?_
  rcases Nat.lt_or_gt_of_ne h with hlt | hgt
  · left
    calc j*blockSize+blockSize = (j+1)*blockSize := (Nat.succ_mul ..).symm
      _ ≤ i*blockSize := Nat.mul_le_mul_right _ hlt
  · right
    calc i*blockSize+bytes.length ≤ i*blockSize+blockSize := by omega
      _ = (i+1)*blockSize := (Nat.succ_mul ..).symm
      _ ≤ j*blockSize := Nat.mul_le_mul_right _ hgt

theorem outBlock_splice_self (buf : Buffer) (i : ℕ) (bytes : List UInt8)
    (hb : bytes.length = blockSize) : outBlock (splice buf (i*blockSize) bytes) i = bytes := by
  unfold outBlock
  rw [←hb]
  exact slice_splice_self buf _ bytes

theorem scatter_other (masterBuf : List UInt8) (m : ℕ) (group : List BlockPair) (buf : Buffer)
    (i : ℕ) (h : ∀ q ∈ group, q.logicalIdx ≠ i) :
    outBlock (scatter masterBuf m group buf) i = outBlock buf i := by
  induction group generalizing buf with
  | nil => rfl
  | cons q qs ih =>
    simp only [scatter]
    rw [ih _ (fun x hx => h x (by simp [hx]))]
    exact outBlock_splice_other _ _ _ _ (List.length_take_le ..) (h q (by simp)).symm

theorem scatter_placed (f : MasterFile) (masterBuf : List UInt8) (m : ℕ) (group : List BlockPair)
    (buf : Buffer) (hn : (group.map BlockPair.logicalIdx).Nodup)
    (hb : ∀ q ∈ group, (masterBuf.drop ((q.masterBlockIndex-m)*blockSize)).take blockSize =
      f.block q.masterBlockIndex) :
    ∀ q ∈ group, outBlock (scatter masterBuf m group buf) q.logicalIdx =
      f.block q.masterBlockIndex := by
  induction group generalizing buf with
  | nil => simp
  | cons x xs ih =>
    obtain ⟨hx,hxs⟩ := List.nodup_cons.mp hn
    intro q hq
    simp only [scatter]
    rcases List.mem_cons.mp hq with rfl | hq
    · rw [scatter_other]
      · rw [hb q (by simp)]
        exact outBlock_splice_self _ _ _ (by simp [MasterFile.block])
      · intro y hy he
        exact hx (List.mem_map.mpr ⟨y,hy,he⟩)
    · exact ih _ hxs (fun y hy => hb y (by simp [hy])) q hq

theorem pread_full {f : MasterFile} {off len : ℕ} (h : (pread f off len).length = len) :
    pread f off len = slice f.bytes off len := by
  unfold pread at h ⊢
  rw [slice_length] at h
  rw [h]

theorem readGroup_other (f : MasterFile) (group : List BlockPair) (buf : Buffer) (i : ℕ)
    (h : ∀ q ∈ group, q.logicalIdx ≠ i) : outBlock (readGroup f group buf).1 i = outBlock buf i := by
  match group with
  | [] => rfl
  | [p] =>
    refine outBlock_splice_other _ _ _ _ ?_ (h p (by simp)).symm
    simp only [pread,slice_length]
    omega
  | p::q::ps =>
    simp only [readGroup]
    split_ifs
    · exact scatter_other _ _ _ _ _ h
    · rfl

theorem readGroup_placed {f : MasterFile} {p : BlockPair} {ps : List BlockPair} {buf buf' : Buffer}
    (hn : ((p::ps).map BlockPair.logicalIdx).Nodup)
    (h : readGroup f ((p::ps).take (groupLen (p::ps))) buf = (buf',none)) :
    ∀ q ∈ (p::ps).take (groupLen (p::ps)),
      outBlock buf' q.logicalIdx = f.block q.masterBlockIndex := by
  have hslots := fun q (hq : q ∈ (p::ps).take (groupLen (p::ps))) => group_slots hq
  have hlen : ((p::ps).take (groupLen (p::ps))).length = groupLen (p::ps) :=
    List.length_take_of_le (groupLen_le _)
  have hnd : (((p::ps).take (groupLen (p::ps))).map BlockPair.logicalIdx).Nodup :=
    hn.sublist ((List.take_sublist _ _).map _)
  have hhead : (p::ps).take (groupLen (p::ps)) = p::ps.take (groupLen (p::ps)-1) := by
    obtain ⟨n,hn⟩ := Nat.exists_eq_succ_of_ne_zero
      (Nat.ne_of_gt (groupLen_pos (List.cons_ne_nil p ps)))
    rw [hn]
    rfl
  generalize groupLen (p::ps) = n at h hslots hlen hnd hhead ⊢
  rw [hhead] at h hslots hlen hnd ⊢
  cases ht : ps.take (n-1) with
  | nil =>
    rw [ht] at h
    simp only [readGroup,Prod.mk.injEq] at h
    obtain ⟨hbuf,herr⟩ := h
    split_ifs at herr with hfull
    intro q hq
    have hqp : q = p := by simpa using hq
    subst hqp
    rw [←hbuf,outBlock_splice_self _ _ _ hfull,pread_full hfull]
    rfl
  | cons x xs =>
    rw [ht] at h hslots hlen hnd
    simp only [readGroup] at h
    split_ifs at h with hfull
    · cases h
      apply scatter_placed f _ _ _ _ hnd
      intro q hq
      obtain ⟨t,hlt,hs⟩ := hslots q hq
      rw [pread_full hfull,hs,Nat.add_sub_cancel_left,slice_sub]
      · unfold MasterFile.block
        rw [Nat.add_mul]
      · rw [hlen]
        calc t*blockSize+blockSize = (t+1)*blockSize := (Nat.succ_mul ..).symm
          _ ≤ n*blockSize := Nat.mul_le_mul_right _ hlt
    · cases h

theorem pread_length {f : MasterFile} {off len : ℕ} (h : off+len ≤ f.fileSize) :
    (pread f off len).length = len := by
  rw [pread,slice_length]
  omega

theorem pread_short {f : MasterFile} {off len : ℕ} (h : f.fileSize < off+len) (hlen : 0 < len) :
    (pread f off len).length ≠ len := by
  rw [pread,slice_length]
  omega

theorem group_inside (f : MasterFile) (p : BlockPair) (ps : List BlockPair) :
    (∀ q ∈ (p::ps).take (groupLen (p::ps)), (q.masterBlockIndex+1)*blockSize ≤ f.fileSize) ↔
      (p.masterBlockIndex+groupLen (p::ps))*blockSize ≤ f.fileSize := by
  have hpos := groupLen_pos (List.cons_ne_nil p ps)
  constructor
  · intro hin
    have hlt : groupLen (p::ps)-1 < groupLen (p::ps) := Nat.sub_lt hpos Nat.one_pos
    obtain ⟨q,hq,hslot⟩ := Option.bind_eq_some_iff.mp (run_key
      (fun q : BlockPair => some q.masterBlockIndex) p ps p.masterBlockIndex rfl
      (groupLen (p::ps)-1) hlt)
    have hmem : q ∈ (p::ps).take (groupLen (p::ps)) :=
      List.mem_of_getElem? (by rw [List.getElem?_take_of_lt hlt]; exact hq)
    have hlast := hin q hmem
    have : q.masterBlockIndex = p.masterBlockIndex+(groupLen (p::ps)-1) := by simpa using hslot
    rwa [this,Nat.add_assoc,Nat.sub_add_cancel hpos] at hlast
  · intro hend q hq
    obtain ⟨t,ht,hs⟩ := group_slots hq
    refine (Nat.mul_le_mul_right _ ?_).trans hend
    omega

theorem readGroup_result (f : MasterFile) (p : BlockPair) (ps : List BlockPair) (buf : Buffer) :
    (readGroup f ((p::ps).take (groupLen (p::ps))) buf).2 =
      if (p.masterBlockIndex+groupLen (p::ps))*blockSize ≤ f.fileSize then none
      else some .eio := by
  have hpos := groupLen_pos (List.cons_ne_nil p ps)
  have hlen : ((p::ps).take (groupLen (p::ps))).length = groupLen (p::ps) :=
    List.length_take_of_le (groupLen_le _)
  have hhead : (p::ps).take (groupLen (p::ps)) = p::ps.take (groupLen (p::ps)-1) := by
    obtain ⟨n,hn⟩ := Nat.exists_eq_succ_of_ne_zero (Nat.ne_of_gt hpos)
    rw [hn]
    rfl
  have hfull : ∀ n, 0 < n → ((pread f (p.masterBlockIndex*blockSize) (n*blockSize)).length =
      n*blockSize ↔ (p.masterBlockIndex+n)*blockSize ≤ f.fileSize) := by
    intro n hn
    rw [Nat.add_mul]
    constructor
    · intro h
      by_contra hlt
      exact pread_short (Nat.lt_of_not_le hlt) (Nat.mul_pos hn blockSize_pos) h
    · exact pread_length
  generalize groupLen (p::ps) = n at hlen hhead hpos ⊢
  rw [hhead] at hlen ⊢
  have hiff := hfull n hpos
  cases ht : ps.take (n-1) with
  | nil =>
    have hn : n = 1 := by simpa [ht] using hlen.symm
    subst hn
    rw [Nat.one_mul] at hiff
    simp only [readGroup,hiff]
  | cons x xs =>
    rw [ht] at hlen
    simp only [readGroup,hlen,hiff]
    split_ifs <;> rfl

theorem readGroup_complete {f : MasterFile} {p : BlockPair} {ps : List BlockPair} (buf : Buffer)
    (hin : ∀ q ∈ p::ps, (q.masterBlockIndex+1)*blockSize ≤ f.fileSize) :
    (readGroup f ((p::ps).take (groupLen (p::ps))) buf).2 = none := by
  rw [readGroup_result,if_pos]
  exact (group_inside f p ps).mp (fun q hq => hin q (List.mem_of_mem_take hq))

/-- All groups: no error, every pair's block in its place, the rest untouched. -/
theorem readGroups_spec {f : MasterFile} (fuel : ℕ) (rest : List BlockPair) (buf : Buffer)
    (hf : rest.length ≤ fuel) (hn : (rest.map BlockPair.logicalIdx).Nodup)
    (hin : ∀ q ∈ rest, (q.masterBlockIndex+1)*blockSize ≤ f.fileSize) :
    (readGroups f fuel rest buf).2 = none ∧
      (∀ q ∈ rest, outBlock (readGroups f fuel rest buf).1 q.logicalIdx =
        f.block q.masterBlockIndex) ∧
      ∀ i, (∀ q ∈ rest, q.logicalIdx ≠ i) →
        outBlock (readGroups f fuel rest buf).1 i = outBlock buf i := by
  induction fuel generalizing rest buf with
  | zero =>
    have hr : rest = [] := List.length_eq_zero_iff.mp (by omega)
    subst hr
    exact ⟨rfl,by simp,fun _ _ => rfl⟩
  | succ fuel ih =>
    cases rest with
    | nil => exact ⟨rfl,by simp,fun _ _ => rfl⟩
    | cons p ps =>
      set n := groupLen (p::ps) with hgroup
      have hpos : 0 < n := groupLen_pos (List.cons_ne_nil p ps)
      obtain ⟨buf',hbuf'⟩ : ∃ buf', readGroup f ((p::ps).take n) buf = (buf',none) :=
        ⟨_,Prod.ext rfl (readGroup_complete buf hin)⟩
      have hstep : readGroups f (fuel+1) (p::ps) buf = readGroups f fuel ((p::ps).drop n) buf' := by
        rw [readGroups,if_neg (List.cons_ne_nil p ps),←hgroup,hbuf']
      have hsplit : (((p::ps).take n).map BlockPair.logicalIdx++
          ((p::ps).drop n).map BlockPair.logicalIdx).Nodup := by
        rw [←List.map_append,List.take_append_drop]
        exact hn
      obtain ⟨h₁,h₂,h₃⟩ := ih ((p::ps).drop n) buf'
        (by
          simp only [List.length_drop,List.length_cons] at hf ⊢
          omega)
        hsplit.of_append_right (fun q hq => hin q (List.mem_of_mem_drop hq))
      rw [hstep]
      refine ⟨h₁,?_,?_⟩
      · intro q hq
        rw [←List.take_append_drop n (p::ps)] at hq
        rcases List.mem_append.mp hq with hq | hq
        · rw [h₃ q.logicalIdx]
          · exact readGroup_placed hn hbuf' q hq
          · intro x hx he
            exact List.disjoint_of_nodup_append hsplit (List.mem_map.mpr ⟨q,hq,rfl⟩)
              (List.mem_map.mpr ⟨x,hx,he⟩)
        · exact h₂ q hq
      · intro i hi
        rw [h₃ i (fun q hq => hi q (List.mem_of_mem_drop hq))]
        have := readGroup_other f ((p::ps).take n) buf i (fun q hq => hi q (List.mem_of_mem_take hq))
        rwa [hbuf'] at this

theorem lookupPairs_run (r : ReadReq) (c : Context) (n i : ℕ) :
    lookupPairs r c n i = presentRun (lookupPair r c) n i := by
  induction n generalizing i with
  | zero => rfl
  | succ n ih =>
    simp only [lookupPairs,presentRun,ih]
    cases lookupPair r c i <;> rfl

theorem lookupPairs_positions (r : ReadReq) (c : Context) (n : ℕ) :
    (lookupPairs r c n 0).map BlockPair.logicalIdx = List.range (lookupPairs r c n 0).length := by
  rw [lookupPairs_run,List.range_eq_range']
  refine presentRun_positions BlockPair.logicalIdx ?_ n 0
  intro j q hj
  obtain ⟨a,_,rfl⟩ := Option.map_eq_some_iff.mp hj
  rfl

theorem lookupPairs_congr {r r' : ReadReq} {c c' : Context} (n i : ℕ)
    (h : ∀ j < n, lookupPair r' c' (i+j) = lookupPair r c (i+j)) :
    lookupPairs r' c' n i = lookupPairs r c n i := by
  induction n generalizing i with
  | zero => rfl
  | succ n ih =>
    have hhead := h 0 (Nat.succ_pos n)
    have htail := ih (i+1) (fun j hj => by
      have := h (j+1) (Nat.succ_lt_succ hj)
      rwa [Nat.add_right_comm i 1 j])
    rw [Nat.add_zero] at hhead
    simp only [lookupPairs,hhead,htail]

theorem readDedup_congr {r r' : ReadReq} {c c' : Context}
    (qsort : List BlockPair → List BlockPair) (hs : r'.size = r.size)
    (hf : c'.toMasterFile = c.toMasterFile)
    (h : ∀ i < r.numBlocks, lookupPair r' c' i = lookupPair r c i) (buf : Buffer) :
    readDedup qsort r' c' buf = readDedup qsort r c buf := by
  have hn : r'.numBlocks = r.numBlocks := congrArg (·/blockSize) hs
  have hpairs : lookupPairs r' c' r.numBlocks 0 = lookupPairs r c r.numBlocks 0 :=
    lookupPairs_congr r.numBlocks 0 (by simpa only [Nat.zero_add] using h)
  simp only [readDedup,hs,hn,hf,hpairs]

def readResult (t : Buffer × Except Errno ℕ) : Except Errno (List UInt8) :=
  t.2.map (slice t.1 0)

theorem readDedup_absent (qsort : List BlockPair → List BlockPair) (r : ReadReq) (c : Context)
    (buf : Buffer) (hs : r.numBlocks ≠ 0) (ha : r.size % blockSize = 0)
    (h : lookupPair r c 0 = none) : readResult (readDedup qsort r c buf) = .ok [] := by
  have hnil : lookupPairs r c r.numBlocks 0 = [] := by
    obtain ⟨n,hn⟩ := Nat.exists_eq_succ_of_ne_zero hs
    rw [hn,lookupPairs,h]
  unfold readDedup
  rw [if_neg (by simp [hs,ha]),hnil]
  rfl

theorem readDedup_alone {qsort : List BlockPair → List BlockPair} (hq : ∀ l, (qsort l).Perm l)
    (r : ReadReq) (c : Context) (buf : Buffer) (hs : r.numBlocks ≠ 0) (ha : r.size % blockSize = 0)
    (hin : ∀ i q, lookupPair r c i = some q → (q.masterBlockIndex+1)*blockSize ≤ c.fileSize) :
    readResult (readDedup qsort r c buf) = .ok ((presentRun (lookupPair r c) r.numBlocks 0).map
      (fun q => c.toMasterFile.block q.masterBlockIndex)).flatten := by
  unfold readDedup
  rw [if_neg (by simp [hs,ha]),lookupPairs_run]
  set pairs := presentRun (lookupPair r c) r.numBlocks 0 with hpairs
  have hidx : pairs.map BlockPair.logicalIdx = List.range pairs.length := by
    rw [hpairs,←lookupPairs_run]
    exact lookupPairs_positions r c r.numBlocks
  have hperm := sortPairs_perm hq pairs
  have hn : ((sortPairs qsort pairs).map BlockPair.logicalIdx).Nodup := by
    rw [(hperm.map BlockPair.logicalIdx).nodup_iff,hidx]
    exact List.nodup_range
  obtain ⟨h₁,h₂,_⟩ := readGroups_spec (f := c.toMasterFile) pairs.length (sortPairs qsort pairs) buf
    hperm.length_eq.le hn (by
      intro q hq'
      obtain ⟨j,hj⟩ := presentRun_mem (hperm.mem_iff.mp hq')
      exact hin j q hj)
  simp only
  split_ifs with hnil
  · rw [hnil]
    rfl
  · simp only [readPairs,h₁,readResult,Except.map]
    rw [slice_pieces]
    have hout : (List.range pairs.length).map (outBlock (readGroups c.toMasterFile pairs.length
        (sortPairs qsort pairs) buf).1) =
        pairs.map (fun q => c.toMasterFile.block q.masterBlockIndex) := by
      rw [←hidx,List.map_map]
      apply List.map_congr_left
      intro q hq'
      rw [Function.comp_apply,h₂ q (hperm.mem_iff.mpr hq')]
    rw [←hout]
    rfl

end ArchivalDedup.ReadBlocks
