import ArchivalDedup.ReadBlocks

/-!
# Batched reading is reading block by block

A read collects the slots of the leading mapped blocks, orders them, and fetches
each stretch of consecutive slots at once. Whatever the index holds and however
the slots are ordered, it fails exactly when one of those slots reaches beyond
the master file, and otherwise leaves each block in its place.
-/

set_option autoImplicit false

namespace ArchivalDedup.BatchedRead
open ArchivalDedup.FiniteTable ArchivalDedup.ByteMap ArchivalDedup.ConsecutiveRun
open ArchivalDedup.MetaIndex ArchivalDedup.ReadDedup ArchivalDedup.ReadBlocks

def leadingSlots (r : ReadReq) (c : Context) : List ℕ :=
  presentRun (fun i => (find c.fileToMaster ⟨r.path,r.startBlock+i⟩).map
    (fun a => (c.cell a).masterBlockIndex)) r.numBlocks 0

/-- The master file holds each of the slots in full. -/
def Inside (f : MasterFile) (slots : List ℕ) : Prop := ∀ q ∈ slots, (q+1)*blockSize ≤ f.fileSize

instance (f : MasterFile) (slots : List ℕ) : Decidable (Inside f slots) :=
  inferInstanceAs (Decidable (∀ q ∈ slots, (q+1)*blockSize ≤ f.fileSize))

theorem inside_map (f : MasterFile) (pairs : List BlockPair) :
    Inside f (pairs.map BlockPair.masterBlockIndex) ↔
      ∀ q ∈ pairs, (q.masterBlockIndex+1)*blockSize ≤ f.fileSize := List.forall_mem_map

theorem inside_perm {f : MasterFile} {l l' : List ℕ} (h : l.Perm l') : Inside f l ↔ Inside f l' :=
  ⟨fun hi q hq => hi q (h.mem_iff.mpr hq),fun hi q hq => hi q (h.mem_iff.mp hq)⟩

theorem readGroups_result (f : MasterFile) (fuel : ℕ) (rest : List BlockPair) (buf : Buffer)
    (hf : rest.length ≤ fuel) : (readGroups f fuel rest buf).2 =
      if Inside f (rest.map BlockPair.masterBlockIndex) then none else some .eio := by
  induction fuel generalizing rest buf with
  | zero =>
    have hr : rest = [] := List.length_eq_zero_iff.mp (by omega)
    subst hr
    rfl
  | succ fuel ih =>
    cases rest with
    | nil => rfl
    | cons p ps =>
      have hpos := groupLen_pos (List.cons_ne_nil p ps)
      have hsplit : Inside f ((p::ps).map BlockPair.masterBlockIndex) ↔
          (p.masterBlockIndex+groupLen (p::ps))*blockSize ≤ f.fileSize ∧
          Inside f (((p::ps).drop (groupLen (p::ps))).map BlockPair.masterBlockIndex) := by
        rw [←group_inside,inside_map,inside_map,←List.forall_mem_append,List.take_append_drop]
      have hresult := readGroup_result f p ps buf
      rw [readGroups,if_neg (List.cons_ne_nil p ps)]
      generalize readGroup f ((p::ps).take (groupLen (p::ps))) buf = t at hresult ⊢
      obtain ⟨buf',err⟩ := t
      dsimp only at hresult
      by_cases hin : (p.masterBlockIndex+groupLen (p::ps))*blockSize ≤ f.fileSize
      · rw [if_pos hin] at hresult
        subst hresult
        refine (ih _ buf' ?_).trans ?_
        · simp only [List.length_drop,List.length_cons] at hf ⊢
          omega
        · simp only [hsplit,hin,true_and]
      · rw [if_neg hin] at hresult
        subst hresult
        rw [if_neg (fun h => hin (hsplit.mp h).1)]

theorem leadingSlots_pairs (r : ReadReq) (c : Context) :
    (lookupPairs r c r.numBlocks 0).map BlockPair.masterBlockIndex = leadingSlots r c := by
  rw [lookupPairs_run,←presentRun_map]
  unfold leadingSlots
  congr 1
  funext i
  rw [lookupPair,Option.map_map]
  rfl

theorem outBlock_ext {buf buf' : Buffer} (h : ∀ i, outBlock buf i = outBlock buf' i) :
    buf = buf' := by
  funext pos
  exact slice_aligned blockSize_pos pos (h (pos/blockSize))

/-- Pairs in any order: the outcome, and the buffer when all slots lie inside the file. -/
theorem readGroups_pairs {f : MasterFile} {pairs order : List BlockPair}
    (hpos : pairs.map BlockPair.logicalIdx = List.range pairs.length) (hperm : order.Perm pairs)
    (buf : Buffer) :
    let slots := pairs.map BlockPair.masterBlockIndex
    let t := readGroups f pairs.length order buf
    t.2 = (if Inside f slots then none else some .eio) ∧
      (Inside f slots →
        (∀ i q, slots[i]? = some q → outBlock t.1 i = f.block q) ∧
        ∀ i, slots.length ≤ i → outBlock t.1 i = outBlock buf i) := by
  intro slots t
  have hfuel : order.length ≤ pairs.length := hperm.length_eq.le
  have hin : Inside f (order.map BlockPair.masterBlockIndex) ↔ Inside f slots :=
    inside_perm (hperm.map _)
  have hnd : (order.map BlockPair.logicalIdx).Nodup := by
    rw [(hperm.map BlockPair.logicalIdx).nodup_iff,hpos]
    exact List.nodup_range
  have hidx : ∀ (i : ℕ) (p : BlockPair), pairs[i]? = some p → p.logicalIdx = i := by
    intro i p hp
    obtain ⟨hi,rfl⟩ := List.getElem?_eq_some_iff.mp hp
    have := congrArg (·[i]?) hpos
    simpa [hi] using this
  refine ⟨?_,?_⟩
  · rw [readGroups_result f _ order buf hfuel]
    simp only [hin]
  · intro hall
    obtain ⟨_,hplaced,hother⟩ := readGroups_spec pairs.length order buf hfuel hnd
      ((inside_map _ _).mp (hin.mpr hall))
    refine ⟨?_,?_⟩
    · intro i q hq
      rw [List.getElem?_map] at hq
      obtain ⟨p,hp,rfl⟩ := Option.map_eq_some_iff.mp hq
      have := hplaced p (hperm.mem_iff.mpr (List.mem_of_getElem? hp))
      rwa [hidx i p hp] at this
    · intro i hi
      rw [List.length_map] at hi
      refine hother i ?_
      intro p hp heq
      obtain ⟨j,hj⟩ := List.mem_iff_getElem?.mp (hperm.mem_iff.mp hp)
      have hjl : j < pairs.length := (List.getElem?_eq_some_iff.mp hj).1
      have := hidx j p hj
      omega

theorem readGroups_leading {r : ReadReq} {c : Context} {order : List BlockPair}
    (hperm : order.Perm (lookupPairs r c r.numBlocks 0)) (buf : Buffer) :
    let t := readGroups c.toMasterFile (leadingSlots r c).length order buf
    t.2 = (if Inside c.toMasterFile (leadingSlots r c) then none else some .eio) ∧
      (Inside c.toMasterFile (leadingSlots r c) →
        (∀ i q, (leadingSlots r c)[i]? = some q → outBlock t.1 i = c.toMasterFile.block q) ∧
        ∀ i, (leadingSlots r c).length ≤ i → outBlock t.1 i = outBlock buf i) := by
  have h := readGroups_pairs (lookupPairs_positions r c r.numBlocks) hperm buf (f := c.toMasterFile)
  rw [leadingSlots_pairs] at h
  have hlen : (leadingSlots r c).length = (lookupPairs r c r.numBlocks 0).length := by
    rw [←leadingSlots_pairs,List.length_map]
  dsimp only at h ⊢
  rw [hlen] at h ⊢
  exact h

theorem readDedup_groups (qsort : List BlockPair → List BlockPair) (r : ReadReq) (c : Context)
    (buf : Buffer) (hpos : 0 < r.size) (hs : r.size % blockSize = 0) :
    let t := readGroups c.toMasterFile (leadingSlots r c).length
      (sortPairs qsort (lookupPairs r c r.numBlocks 0)) buf
    readDedup qsort r c buf = (t.1,match t.2 with
      | some err => .error err
      | none => .ok ((leadingSlots r c).length*blockSize)) := by
  have hn : ¬ (r.numBlocks = 0 ∨ r.size % blockSize ≠ 0) := by
    rintro (hz | hm)
    · have := Nat.div_mul_cancel (Nat.dvd_of_mod_eq_zero hs)
      rw [ReadReq.numBlocks] at hz
      rw [hz] at this
      omega
    · exact hm hs
  have hlen : (leadingSlots r c).length = (lookupPairs r c r.numBlocks 0).length := by
    rw [←leadingSlots_pairs,List.length_map]
  unfold readDedup
  rw [if_neg hn,hlen]
  dsimp only
  split_ifs with hnil
  · rw [hnil]
    rfl
  · unfold readPairs
    cases hg : (readGroups c.toMasterFile (lookupPairs r c r.numBlocks 0).length
        (sortPairs qsort (lookupPairs r c r.numBlocks 0)) buf).2 with
    | some err => simp only [hg]
    | none => simp only [hg]

theorem slashA_noNul : (0 : UInt8) ∉ [47,97] := by decide

theorem slashA_fits : [(47 : UInt8),97].length+13 < 2^31 := by decide

def repeatedSlots : Context :=
  { emptyContext with
    fileToMaster :=
      (((emptyContext.fileToMaster.insert ⟨⟨[47,97],slashA_noNul,slashA_fits⟩,0⟩ 1).insert
        ⟨⟨[47,97],slashA_noNul,slashA_fits⟩,1⟩ 2).insert
        ⟨⟨[47,97],slashA_noNul,slashA_fits⟩,2⟩ 1).insert ⟨⟨[47,97],slashA_noNul,slashA_fits⟩,3⟩ 0
    cell := fun a => { (default : MasterInfo) with masterBlockIndex := a }
    fileSize := 12288 }

def repeatedReq : ReadReq := ⟨⟨[47,97],slashA_noNul,slashA_fits⟩,20480,0,by decide⟩

end ArchivalDedup.BatchedRead
