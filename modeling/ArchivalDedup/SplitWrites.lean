import ArchivalDedup.EqualWrites

/-!
# How writes are cut up and ordered

Two ways of writing the same blocks agree in the hashes they map, so they agree
in everything but slots and addresses, as long as the counters have room for each
call.
-/

set_option autoImplicit false

namespace ArchivalDedup.SplitWrites
open ArchivalDedup.FiniteTable ArchivalDedup.MetaIndex ArchivalDedup.WriteDedup
open ArchivalDedup.Passthrough ArchivalDedup.Ledger ArchivalDedup.ReferenceSafety
open ArchivalDedup.Content ArchivalDedup.SequentialWrite ArchivalDedup.SequentialRun
open ArchivalDedup.RemountSafety ArchivalDedup.MappedHashes ArchivalDedup.BlockRefinement
open ArchivalDedup.ExactRequests ArchivalDedup.Interleaving ArchivalDedup.SlotAccounting
open ArchivalDedup.SettledWrites ArchivalDedup.EqualWrites

variable {sha512 : List UInt8 → Hash} {known : List (List UInt8)} {c d : Context}
variable {env : Env} {r : WriteReq}

section Cuts

def firstBlocks (r : WriteReq) (k : ℕ) : WriteReq where
  path := r.path
  buf := r.buf.take (k*blockSize)
  offset := r.offset
  fits := (List.length_take_le' ..).trans_lt r.fits
  inRange := (Nat.add_le_add_left (List.length_take_le' ..) _).trans_lt r.inRange

def lastBlocks (r : WriteReq) (k : ℕ) (hk : k ≤ r.numBlocks) : WriteReq where
  path := r.path
  buf := r.buf.drop (k*blockSize)
  offset := r.offset+k*blockSize
  fits := by
    have := r.fits
    rw [List.length_drop]
    omega
  inRange := by
    have hmul : k*blockSize ≤ r.buf.length :=
      (Nat.mul_le_mul_right _ hk).trans (Nat.div_mul_le_self ..)
    have := r.inRange
    rw [List.length_drop]
    omega

variable {k : ℕ}

theorem firstBlocks_length (hk : k ≤ r.numBlocks) :
    (firstBlocks r k).buf.length = k*blockSize := by
  have hmul : k*blockSize ≤ r.buf.length :=
    (Nat.mul_le_mul_right _ hk).trans (Nat.div_mul_le_self ..)
  exact List.length_take_of_le hmul

theorem firstBlocks_numBlocks (hk : k ≤ r.numBlocks) : (firstBlocks r k).numBlocks = k := by
  rw [WriteReq.numBlocks,firstBlocks_length hk,Nat.mul_div_cancel _ blockSize_pos]

theorem firstBlocks_block {i : ℕ} (hi : i < k) : (firstBlocks r k).block i = r.block i := by
  have hle : blockSize ≤ k*blockSize-i*blockSize := by
    rw [←Nat.sub_mul]
    exact Nat.le_mul_of_pos_left _ (Nat.sub_pos_of_lt hi)
  change ((r.buf.take (k*blockSize)).drop (i*blockSize)).take blockSize = _
  rw [List.drop_take,List.take_take,Nat.min_eq_left hle]
  rfl

theorem lastBlocks_numBlocks (hk : k ≤ r.numBlocks) :
    (lastBlocks r k hk).numBlocks = r.numBlocks-k := by
  change (r.buf.drop (k*blockSize)).length/blockSize = r.buf.length/blockSize-k
  rw [List.length_drop,Nat.mul_comm k,Nat.sub_mul_div]

theorem lastBlocks_startBlock (hk : k ≤ r.numBlocks) :
    (lastBlocks r k hk).startBlock = r.startBlock+k :=
  Nat.add_mul_div_right _ _ blockSize_pos

theorem lastBlocks_block (hk : k ≤ r.numBlocks) (i : ℕ) :
    (lastBlocks r k hk).block i = r.block (k+i) := by
  change ((r.buf.drop (k*blockSize)).drop (i*blockSize)).take blockSize = _
  rw [List.drop_drop,←Nat.add_mul]
  rfl

theorem accepted_first (hk : k ≤ r.numBlocks) (hpos : 0 < k) : Accepted (firstBlocks r k) := by
  rw [Accepted,firstBlocks_length hk]
  exact ⟨Nat.ne_of_gt (Nat.mul_pos hpos blockSize_pos),Nat.mul_mod_left ..⟩

theorem accepted_last (hk : k ≤ r.numBlocks) (hlen : r.buf.length % blockSize = 0)
    (hlt : k < r.numBlocks) : Accepted (lastBlocks r k hk) := by
  have hnum := Nat.div_mul_cancel (Nat.dvd_of_mod_eq_zero hlen)
  have hrest : (lastBlocks r k hk).buf.length = (r.numBlocks-k)*blockSize := by
    change (r.buf.drop (k*blockSize)).length = _
    rw [List.length_drop,Nat.sub_mul,WriteReq.numBlocks,hnum]
  rw [Accepted,hrest]
  exact ⟨Nat.ne_of_gt (Nat.mul_pos (Nat.sub_pos_of_lt hlt) blockSize_pos),Nat.mul_mod_left ..⟩

theorem covers_first (hk : k ≤ r.numBlocks) (key : BlockIndice) : Touches (firstBlocks r k) key ↔
    key.path = r.path ∧ r.startBlock ≤ key.offset ∧ key.offset < r.startBlock+k := by
  unfold Touches
  rw [firstBlocks_numBlocks hk]
  rfl

theorem covers_last (hk : k ≤ r.numBlocks) (key : BlockIndice) :
    Touches (lastBlocks r k hk) key ↔ key.path = r.path ∧ r.startBlock+k ≤ key.offset ∧
      key.offset < r.startBlock+r.numBlocks := by
  unfold Touches
  rw [lastBlocks_numBlocks,lastBlocks_startBlock,Nat.add_assoc,Nat.add_sub_cancel' hk]
  rfl

theorem covers_cut (hk : k ≤ r.numBlocks) (key : BlockIndice) :
    Touches r key ↔ Touches (firstBlocks r k) key ∨ Touches (lastBlocks r k hk) key := by
  rw [covers_first hk,covers_last hk]
  constructor
  · rintro ⟨hp,hlo,hhi⟩
    by_cases hcut : key.offset < r.startBlock+k
    · exact Or.inl ⟨hp,hlo,hcut⟩
    · exact Or.inr ⟨hp,Nat.le_of_not_lt hcut,hhi⟩
  · rintro (⟨hp,hlo,hhi⟩ | ⟨hp,hlo,hhi⟩)
    · exact ⟨hp,hlo,by omega⟩
    · exact ⟨hp,by omega,hhi⟩

theorem storedCount_mapped (h : Inv ∅ c []) (x : Hash) : storedCount c x = mappedCount c x := by
  have hx := counters_mapped h x
  unfold storedCount
  cases hf : find c.hashToMaster x with
  | none =>
    rw [hf] at hx
    by_contra hne
    rw [if_neg (fun hz => hne hz.symm)] at hx
    cases hx
  | some a =>
    rw [hf,Option.map_some] at hx
    split_ifs at hx
    exact Option.some.inj hx

theorem mappedCount_write (h : ∀ key, mappedHash d key =
      if Touches r key then some (sha512 (r.block (key.offset-r.startBlock))) else mappedHash c key)
    (x : Hash) : mappedCount d x ≤ mappedCount c x+reqCount sha512 r x r.numBlocks := by
  have hsub : mappedKeys d x ⊆ mappedKeys c x++
      ((List.range r.numBlocks).filter (fun j => sha512 (r.block j) = x)).map
        (fun j => ⟨r.path,r.startBlock+j⟩) := by
    intro key hkey
    rw [mem_mappedKeys,h] at hkey
    rw [List.mem_append,mem_mappedKeys]
    split_ifs at hkey with hc
    · refine Or.inr (List.mem_map.mpr ⟨key.offset-r.startBlock,?_,?_⟩)
      · obtain ⟨_,hlo,hhi⟩ := hc
        exact List.mem_filter.mpr ⟨List.mem_range.mpr (by omega),
          decide_eq_true (Option.some.inj hkey)⟩
      · rw [Nat.add_sub_cancel' hc.2.1,←hc.1]
    · exact Or.inl hkey
  have hle := (List.subperm_of_subset (mappedKeys_nodup d x) hsub).length_le
  rw [List.length_append,List.length_map,mappedKeys_length,mappedKeys_length,
    ←List.countP_eq_length_filter] at hle
  exact hle

theorem reqCount_first (r : WriteReq) (k : ℕ) (x : Hash) :
    reqCount sha512 (firstBlocks r k) x k = reqCount sha512 r x k := by
  unfold reqCount
  apply List.countP_congr
  intro j hj
  rw [firstBlocks_block (List.mem_range.mp hj)]

theorem reqCount_last (sha512 : List UInt8 → Hash) (hk : k ≤ r.numBlocks) (x : Hash) :
    reqCount sha512 r x k+reqCount sha512 (lastBlocks r k hk) x (r.numBlocks-k) =
      reqCount sha512 r x r.numBlocks := by
  have hrange : List.range r.numBlocks = List.range k++(List.range (r.numBlocks-k)).map (k+·) := by
    rw [←List.range_add,Nat.add_sub_cancel' hk]
  unfold reqCount
  rw [hrange,List.countP_append,List.countP_map]
  refine congrArg _ (List.countP_congr ?_)
  intro j _
  rw [lastBlocks_block,Function.comp_apply]

theorem callFits_first (hk : k ≤ r.numBlocks) (hlen : r.buf.length % blockSize = 0)
    (hfit : CallFits sha512 r c) : CallFits sha512 (firstBlocks r k) c := by
  intro _ i hi
  rw [firstBlocks_numBlocks hk] at hi ⊢
  rw [firstBlocks_block hi,reqCount_first]
  have hroom := hfit hlen i (by omega)
  have hsum := reqCount_last sha512 hk (sha512 (r.block i))
  omega

theorem callFits_last (h : Inv ∅ c []) (h' : Inv ∅ d []) (hk : k ≤ r.numBlocks)
    (hlen : r.buf.length % blockSize = 0) (hfit : CallFits sha512 r c)
    (hd : ∀ key, mappedHash d key = if Touches (firstBlocks r k) key
      then some (sha512 ((firstBlocks r k).block (key.offset-(firstBlocks r k).startBlock)))
      else mappedHash c key) : CallFits sha512 (lastBlocks r k hk) d := by
  intro _ i hi
  rw [lastBlocks_numBlocks] at hi ⊢
  rw [lastBlocks_block,storedCount_mapped h']
  have hroom := hfit hlen (k+i) (by omega)
  have hsum := reqCount_last sha512 hk (sha512 (r.block (k+i)))
  have hadd := mappedCount_write hd (sha512 (r.block (k+i)))
  rw [firstBlocks_numBlocks hk,reqCount_first] at hadd
  rw [storedCount_mapped h] at hroom
  omega

theorem split_same {env₁ env₂ : Env} (hinj : DistinctHashes sha512 known)
    (h : Settled sha512 known c) (hb : ∀ i < r.numBlocks, r.block i ∈ known)
    (hlen : r.buf.length % blockSize = 0) (hk : k ≤ r.numBlocks) (hpos : 0 < k)
    (hlt : k < r.numBlocks) (hio : ∀ j, env.io j = .complete)
    (hio₁ : ∀ j, env₁.io j = .complete) (hio₂ : ∀ j, env₂.io j = .complete)
    (hfit : CallFits sha512 r c) :
    SameOutcome (writeDedup sha512 env r c).1
      (writeDedup sha512 env₂ (lastBlocks r k hk)
        (writeDedup sha512 env₁ (firstBlocks r k) c).1).1 := by
  have hacc : Accepted r := by
    refine ⟨?_,hlen⟩
    intro hz
    rw [WriteReq.numBlocks,hz] at hlt
    simp at hlt
  obtain ⟨hs,hh,hz⟩ := settled_write h hio hacc hfit hb
  obtain ⟨hs₁,hh₁,hz₁⟩ := settled_write h hio₁ (accepted_first hk hpos)
      (callFits_first hk hlen hfit) (by
    intro i hi
    rw [firstBlocks_numBlocks hk] at hi
    rw [firstBlocks_block hi]
    exact hb i (hi.trans hlt))
  obtain ⟨hs₂,hh₂,hz₂⟩ := settled_write hs₁ hio₂ (accepted_last hk hlen hlt)
      (callFits_last h.ledger hs₁.ledger hk hlen hfit hh₁) (by
    intro i hi
    rw [lastBlocks_numBlocks] at hi
    rw [lastBlocks_block]
    exact hb _ (by omega))
  refine settled_same hinj hs hs₂ ?_ ?_
  · intro key
    rw [hh,hh₂,hh₁]
    simp only [covers_cut hk key]
    by_cases h₂ : Touches (lastBlocks r k hk) key
    · have hc := (covers_last hk key).mp h₂
      rw [if_pos h₂,if_pos (Or.inr h₂),lastBlocks_block,lastBlocks_startBlock]
      congr 3
      omega
    · rw [if_neg h₂]
      by_cases h₁ : Touches (firstBlocks r k) key
      · have hc := (covers_first hk key).mp h₁
        rw [if_pos h₁,if_pos (Or.inl h₁)]
        refine congrArg (fun b => some (sha512 b)) (firstBlocks_block ?_)
        change key.offset-r.startBlock < k
        omega
      · rw [if_neg h₁,if_neg (fun h => h.elim h₁ h₂)]
  · intro p
    have hend : (lastBlocks r k hk).newEnd = r.newEnd := by
      rw [WriteReq.newEnd,lastBlocks_startBlock,lastBlocks_numBlocks,WriteReq.newEnd]
      congr 1
      omega
    have hend₁ : (firstBlocks r k).newEnd ≤ r.newEnd := by
      rw [WriteReq.newEnd,firstBlocks_numBlocks hk]
      exact Nat.mul_le_mul_right _ (Nat.add_le_add_left hk _)
    rw [hz,hz₂,hz₁,hz₁,hend]
    change (if p = r.path then some (max (Option.getD (if r.path = r.path then _ else _) 0) _)
      else if p = r.path then _ else _) = _
    rw [if_pos rfl]
    split_ifs
    · change some (max (max _ (firstBlocks r k).newEnd) r.newEnd) = _
      rw [max_assoc,max_eq_right hend₁]
      rfl
    · rfl

end Cuts

section Order

variable {s : WriteReq}

theorem write_same {env₁ env₂ : Env} (hinj : DistinctHashes sha512 known)
    (h : Settled sha512 known c) (hio₁ : ∀ j, env₁.io j = .complete)
    (hio₂ : ∀ j, env₂.io j = .complete) (hb : ∀ i < r.numBlocks, r.block i ∈ known)
    (hfit : CallFits sha512 r c) :
    SameOutcome (writeDedup sha512 env₁ r c).1 (writeDedup sha512 env₂ r c).1 := by
  by_cases ha : Accepted r
  · obtain ⟨hs₁,hh₁,hz₁⟩ := settled_write h hio₁ ha hfit hb
    obtain ⟨hs₂,hh₂,hz₂⟩ := settled_write h hio₂ ha hfit hb
    refine settled_same hinj hs₁ hs₂ ?_ ?_
    · intro k
      rw [hh₁,hh₂]
    · intro p
      rw [hz₁,hz₂]
  · rw [writeDedup_refused ha,writeDedup_refused ha]
    exact settled_same hinj h h (fun _ => rfl) (fun _ => rfl)

theorem order_same {env₁ env₂ env₃ env₄ : Env} (hinj : DistinctHashes sha512 known)
    (h : Settled sha512 known c) (hb : ∀ i < r.numBlocks, r.block i ∈ known)
    (hb' : ∀ i < s.numBlocks, s.block i ∈ known) (hdis : ∀ k, ¬ (Touches r k ∧ Touches s k))
    (hio₁ : ∀ j, env₁.io j = .complete) (hio₂ : ∀ j, env₂.io j = .complete)
    (hio₃ : ∀ j, env₃.io j = .complete) (hio₄ : ∀ j, env₄.io j = .complete)
    (hfit₁ : CallFits sha512 r c) (hfit₂ : CallFits sha512 s (writeDedup sha512 env₁ r c).1)
    (hfit₃ : CallFits sha512 s c) (hfit₄ : CallFits sha512 r (writeDedup sha512 env₃ s c).1) :
    SameOutcome (writeDedup sha512 env₂ s (writeDedup sha512 env₁ r c).1).1
      (writeDedup sha512 env₄ r (writeDedup sha512 env₃ s c).1).1 := by
  by_cases hr : Accepted r
  · obtain ⟨hs₁,hh₁,hz₁⟩ := settled_write h hio₁ hr hfit₁ hb
    by_cases hs : Accepted s
    · obtain ⟨hs₂,hh₂,hz₂⟩ := settled_write hs₁ hio₂ hs hfit₂ hb'
      obtain ⟨hs₃,hh₃,hz₃⟩ := settled_write h hio₃ hs hfit₃ hb'
      obtain ⟨hs₄,hh₄,hz₄⟩ := settled_write hs₃ hio₄ hr hfit₄ hb
      refine settled_same hinj hs₂ hs₄ ?_ ?_
      · intro k
        rw [hh₄,hh₃,hh₂,hh₁]
        by_cases hkr : Touches r k
        · rw [if_pos hkr,if_pos hkr,if_neg (fun hks => hdis k ⟨hkr,hks⟩)]
        · rw [if_neg hkr,if_neg hkr]
      · intro p
        rw [hz₄,hz₃,hz₃,hz₂,hz₁,hz₁]
        by_cases hpp : r.path = s.path
        · simp only [hpp,if_true,Option.getD_some]
          split_ifs
          · rw [max_right_comm]
          · rfl
        · have hpp' : s.path ≠ r.path := fun he => hpp he.symm
          simp only [hpp,hpp',if_false]
          by_cases hp : p = r.path
          · simp only [hp,hpp,if_true,if_false]
          · simp only [hp,if_false]
    · rw [writeDedup_refused hs,writeDedup_refused (r := s) hs]
      exact write_same hinj h hio₁ hio₄ hb hfit₁
  · rw [writeDedup_refused hr,writeDedup_refused (r := r) hr]
    exact write_same hinj h hio₂ hio₃ hb' hfit₃

def PairFits (sha512 : List UInt8 → Hash) (env : Env) (r s : WriteReq) (c : Context) : Prop :=
  CallFits sha512 r c ∧ CallFits sha512 s (writeDedup sha512 env r c).1

instance (env : Env) (r s : WriteReq) (c : Context) : Decidable (PairFits sha512 env r s c) :=
  inferInstanceAs (Decidable (CallFits sha512 r c ∧
    CallFits sha512 s (writeDedup sha512 env r c).1))

theorem holds_append (l : List (List UInt8)) (h : Holds sha512 known c) :
    Holds sha512 (known++l) c :=
  fun x a ha => ⟨(h x a ha).1,List.mem_append_left l (h x a ha).2⟩

/-- After every sequential run, remounts included, whose writes fit the counters:
a request that fits too may be cut in two anywhere, and two requests about
different blocks that fit in both orders may be exchanged. -/
theorem cut_and_order_agree (turns : List Turn) (m : Mount)
    (hr : exec (takeTurn sha512) emptyMount turns = some m)
    (hc : Meets (takeTurn sha512) (TurnFits sha512) emptyMount turns) :
    (∀ (r : WriteReq) (k : ℕ) (hk : k ≤ r.numBlocks) (env env₁ env₂ : Env),
      r.buf.length % blockSize = 0 → 0 < k → k < r.numBlocks →
      DistinctHashes sha512 (knownBlocks r m.ctx) → CallFits sha512 r m.ctx →
      SameOutcome (writeDedup sha512 (withoutFailure env) r m.ctx).1
        (writeDedup sha512 (withoutFailure env₂) (lastBlocks r k hk)
          (writeDedup sha512 (withoutFailure env₁) (firstBlocks r k) m.ctx).1).1) ∧
    ∀ (r s : WriteReq) (env₁ env₂ env₃ env₄ : Env), (∀ k, ¬ (Touches r k ∧ Touches s k)) →
      DistinctHashes sha512 (knownBlocks r m.ctx++(List.range s.numBlocks).map s.block) →
      PairFits sha512 (withoutFailure env₁) r s m.ctx →
      PairFits sha512 (withoutFailure env₃) s r m.ctx →
      SameOutcome
        (writeDedup sha512 (withoutFailure env₂) s
          (writeDedup sha512 (withoutFailure env₁) r m.ctx).1).1
        (writeDedup sha512 (withoutFailure env₄) r
          (writeDedup sha512 (withoutFailure env₃) s m.ctx).1).1 := by
  obtain ⟨hseq,haddr⟩ : SeqInv m.ctx ∧ Addressed sha512 m.ctx :=
    stored_run seqInv_empty stored_empty (fun _ _ _ _ => rfl) hr hc
  have hown : ∀ (r : WriteReq) (l : List (List UInt8)), ∀ i < r.numBlocks,
      r.block i ∈ knownBlocks r m.ctx++l := by
    intro r l i hi
    exact List.mem_append_left _ (mem_knownBlocks.mpr (Or.inr ⟨i,hi,rfl⟩))
  refine ⟨?_,?_⟩
  · intro r k hk env env₁ env₂ hlen hpos hlt hinj hfit
    have hown' := hown r []
    rw [List.append_nil] at hown'
    exact split_same hinj ⟨hseq.ledger,holds_known r haddr⟩ hown' hlen hk hpos hlt (fun _ => rfl)
      (fun _ => rfl) (fun _ => rfl) hfit
  · intro r s env₁ env₂ env₃ env₄ hdis hinj h₁ h₂
    refine order_same hinj ⟨hseq.ledger,holds_append _ (holds_known r haddr)⟩ (hown r _) ?_ hdis
      (fun _ => rfl) (fun _ => rfl) (fun _ => rfl) (fun _ => rfl) h₁.1 h₁.2 h₂.1 h₂.2
    intro i hi
    exact List.mem_append_right _ (List.mem_map.mpr ⟨i,List.mem_range.mpr hi,rfl⟩)

end Order

section Samples

def firstTwo : WriteReq := fillReq fileA 65 0 2 two_blocks_fit blocks01_end

theorem firstTwo_numBlocks : firstTwo.numBlocks = 2 := fill_numBlocks _ _

theorem firstTwo_cut : 1 < firstTwo.numBlocks := by
  rw [firstTwo_numBlocks]
  decide

theorem firstTwo_block {i : ℕ} (hi : i < 2) :
    firstTwo.block i = List.replicate blockSize 65 := fill_block _ _ hi

theorem firstTwo_length : firstTwo.buf.length % blockSize = 0 := by
  unfold firstTwo fillReq
  rw [List.length_replicate]
  rfl

theorem firstTwo_hash : ∀ i < firstTwo.numBlocks, sampleSha512 (firstTwo.block i) = digestA := by
  intro i hi
  rw [firstTwo_numBlocks] at hi
  rw [firstTwo_block hi]
  rfl

theorem rewrite_keeps {x : Hash} {a : Ptr} (env : Env) (ha : Accepted r) (hn : r.numBlocks = 1)
    (hb : sha512 (r.block 0) = x) (hx : find c.hashToMaster x = some a)
    (hm : find c.fileToMaster ⟨r.path,r.startBlock⟩ = some a)
    (hpos : 0 < (c.cell a).refcount) (hlt : (c.cell a).refcount < refcountMod) :
    find (writeDedup sha512 env r c).1.hashToMaster x = some a ∧
      ((writeDedup sha512 env r c).1.cell a).refcount = (c.cell a).refcount ∧
      ∀ k, find (writeDedup sha512 env r c).1.fileToMaster k = find c.fileToMaster k := by
  have hall : ∀ i < r.numBlocks, sha512 (r.block i) = x := by
    intro i hi
    rw [hn,Nat.lt_one_iff] at hi
    rw [hi,hb]
  have hold : (c.fetchAdd a).lookupByFileBlock r.path r.startBlock = some a := hm
  have hcount : ((c.fetchAdd a).cell a).refcount = ((c.cell a).refcount+1) % refcountMod := by
    simp [Context.fetchAdd,Context.setRefcount]
  have hone : ((c.fetchAdd a).cell a).refcount ≠ 1 := by
    rw [hcount]
    unfold refcountMod at *
    omega
  have hplan : mapPlan r.path (hitPlan r x a r.numBlocks)
      ((fun d : Context => d.fetchAdd a)^[r.numBlocks] c) [] =
      (((c.fetchAdd a).fetchSub a).insertFileBlock r.path r.startBlock a,[]) := by
    rw [hn,Function.iterate_one,hitPlan,List.range_one,List.map_singleton]
    simp only [mapPlan,mapEntry,newEntry,Nat.add_zero,hold,Context.dropReference,if_neg hone]
  rw [writeDedup_hits env ha hall hx,hplan]
  dsimp only [Context.releaseSlots]
  obtain ⟨hh,hf,hc,_⟩ := growSize_keeps
    (((c.fetchAdd a).fetchSub a).insertFileBlock r.path r.startBlock a) r.path r.newEnd
  rw [hh,hf,hc]
  refine ⟨hx,?_,?_⟩
  · change (((c.fetchAdd a).fetchSub a).cell a).refcount = _
    rw [Context.fetchSub,setRefcount_refcount,if_pos rfl,hcount]
    unfold refcountMod at *
    omega
  · intro k
    change find (c.fileToMaster.insert ⟨r.path,r.startBlock⟩ a) k = _
    rw [find_insert]
    split_ifs with hk
    · rw [hk,hm]
    · rfl

/-- Both blocks in one call: two increments wrap the counter to 1, and the
first of the old references is taken for the last. -/
theorem one_call_loses (env : Env) (h : EqualFilled (refcountMod-1) c) :
    find (writeDedup sampleSha512 env firstTwo c).1.hashToMaster digestA = none := by
  have hacc : Accepted firstTwo := by
    unfold Accepted firstTwo fillReq
    rw [List.length_replicate]
    decide
  have hcell : ((c.fetchAdd 1).fetchAdd 1).cell 1 = ⟨digestA,0,1⟩ := by
    simp [Context.fetchAdd,Context.setRefcount,h.cell,refcountMod]
  have hold : ((c.fetchAdd 1).fetchAdd 1).lookupByFileBlock fileA 0 = some 1 :=
    (h.mapped ⟨fileA,0⟩).trans (if_pos ⟨rfl,by decide⟩)
  have hplan : hitPlan firstTwo digestA 1 firstTwo.numBlocks =
      [newEntry .hit firstTwo 0 digestA 1,newEntry .hit firstTwo 1 digestA 1] := by
    rw [firstTwo_numBlocks]
    rfl
  have hfirst : (mapEntry fileA ((c.fetchAdd 1).fetchAdd 1) []
      (newEntry .hit firstTwo 0 digestA 1)).1.hashToMaster = c.hashToMaster.erase digestA := by
    have hblk : (newEntry .hit firstTwo 0 digestA 1).logicalBlk = 0 := rfl
    simp only [mapEntry,hblk,hold,Context.dropReference,hcell,if_true]
    rfl
  rw [writeDedup_hits env hacc firstTwo_hash h.published,hplan,firstTwo_numBlocks]
  dsimp only [Context.releaseSlots]
  rw [(growSize_keeps _ _ _).1]
  have hn := narrows_mapPlan fileA [newEntry .hit firstTwo 1 digestA 1]
    (mapEntry fileA ((c.fetchAdd 1).fetchAdd 1) [] (newEntry .hit firstTwo 0 digestA 1)).1
    (mapEntry fileA ((c.fetchAdd 1).fetchAdd 1) [] (newEntry .hit firstTwo 0 digestA 1)).2
  refine Option.eq_none_iff_forall_ne_some.mpr ?_
  intro a ha
  have := (hn digestA a ha).1
  rw [hfirst,find_erase,if_pos rfl] at this
  cases this

theorem two_calls_keep (env₁ env₂ : Env) (h : EqualFilled (refcountMod-1) c) :
    find (writeDedup sampleSha512 env₂ (lastBlocks firstTwo 1 firstTwo_cut.le)
      (writeDedup sampleSha512 env₁ (firstBlocks firstTwo 1) c).1).1.hashToMaster digestA =
      some 1 := by
  have hcell : (c.cell 1).refcount = refcountMod-1 := by
    rw [h.cell]
    rfl
  have hb₁ : sampleSha512 ((firstBlocks firstTwo 1).block 0) = digestA := by
    rw [firstBlocks_block Nat.one_pos]
    exact firstTwo_hash 0 firstTwo_cut.le
  have hb₂ : sampleSha512 ((lastBlocks firstTwo 1 firstTwo_cut.le).block 0) = digestA := by
    rw [lastBlocks_block]
    exact firstTwo_hash 1 firstTwo_cut
  have hn₂ : (lastBlocks firstTwo 1 firstTwo_cut.le).numBlocks = 1 := by
    rw [lastBlocks_numBlocks,firstTwo_numBlocks]
  obtain ⟨h₁,h₂,h₃⟩ := rewrite_keeps env₁ (accepted_first firstTwo_cut.le Nat.one_pos)
    (firstBlocks_numBlocks firstTwo_cut.le) hb₁ h.published
    ((h.mapped ⟨fileA,0⟩).trans (if_pos ⟨rfl,by decide⟩)) (by rw [hcell]; decide)
    (by rw [hcell]; decide)
  rw [←h₂] at hcell
  generalize (writeDedup sampleSha512 env₁ (firstBlocks firstTwo 1) c).1 = d at h₁ h₃ hcell ⊢
  have hmap : find d.fileToMaster ⟨fileA,(lastBlocks firstTwo 1 firstTwo_cut.le).startBlock⟩ =
      some 1 := by
    rw [lastBlocks_startBlock]
    exact (h₃ ⟨fileA,1⟩).trans ((h.mapped ⟨fileA,1⟩).trans (if_pos ⟨rfl,by decide⟩))
  exact (rewrite_keeps env₂ (accepted_last firstTwo_cut.le firstTwo_length firstTwo_cut) hn₂ hb₂ h₁
    hmap (by rw [hcell]; decide) (by rw [hcell]; decide)).1

/-- After 2^32-1 equal blocks, two more of them in one call or in two. -/
theorem cut_write_differs : ∃ m,
    exec (takeTurn sampleSha512) emptyMount ((equalWrites (refcountMod-1)).map .op) = some m ∧
    DistinctHashes sampleSha512 (knownBlocks firstTwo m.ctx) ∧
    ¬ SameOutcome (writeDedup sampleSha512 (withoutFailure completeEnv) firstTwo m.ctx).1
      (writeDedup sampleSha512 (withoutFailure completeEnv) (lastBlocks firstTwo 1 firstTwo_cut.le)
        (writeDedup sampleSha512 (withoutFailure completeEnv) (firstBlocks firstTwo 1)
          m.ctx).1).1 := by
  obtain ⟨m,hm,hf⟩ := equalFilled_run (refcountMod-2) (by decide)
  have hfull : EqualFilled (refcountMod-1) m.ctx := hf
  refine ⟨m,(exec_ops _ _).trans hm,fill_noCollision ?_,?_⟩
  · intro b hb
    refine ⟨65,by decide,?_⟩
    rcases equalFilled_known hfull hb with hb | ⟨i,hi,rfl⟩
    · exact hb
    · rw [firstTwo_numBlocks] at hi
      exact firstTwo_block hi
  · intro hsame
    have hcount := hsame.counters digestA
    rw [one_call_loses _ hfull,two_calls_keep _ _ hfull,Option.map_some,Option.map_none] at hcount
    exact Option.some_ne_none _ hcount

def overFirst : WriteReq := fillReq fileA 66 0 2 two_blocks_fit blocks01_end

def behindThem : WriteReq := fillReq fileA 65 2 1 one_block_fits block2_ends

theorem overFirst_numBlocks : overFirst.numBlocks = 2 := fill_numBlocks _ _

theorem overFirst_cut : 1 < overFirst.numBlocks := by
  rw [overFirst_numBlocks]
  decide

def oneBlockReloaded : List Turn :=
  [.op (.write completeEnv (blockReq 0)),.remount sampleUnmounting sampleMounting]

theorem reloaded_known {m : Mount} {b : List UInt8}
    (hm : exec (takeTurn sampleSha512) emptyMount oneBlockReloaded = some m)
    (hc : Meets (takeTurn sampleSha512) (TurnFits sampleSha512) emptyMount oneBlockReloaded)
    (hb : b ∈ knownBlocks r m.ctx) :
    b = List.replicate blockSize 65 ∨ ∃ i < r.numBlocks, r.block i = b := by
  have hown : ∀ t ∈ oneBlockReloaded, ∀ b ∈ turnBlocks t, b = List.replicate blockSize 65 := by
    intro t ht b hb
    rcases List.mem_cons.mp ht with rfl | ht
    · obtain ⟨j,hj,rfl⟩ := List.mem_map.mp hb
      rw [blockReq_numBlocks,List.mem_range,Nat.lt_one_iff] at hj
      rw [hj,blockReq_block]
    · rw [List.mem_singleton.mp ht] at hb
      cases hb
  obtain ⟨_,hs⟩ : SeqInv m.ctx ∧ Stored (fun _ b => b = List.replicate blockSize 65) m.ctx :=
    stored_run seqInv_empty stored_empty hown hm hc
  rcases mem_knownBlocks.mp hb with ⟨x,a,ha,rfl⟩ | hb
  · exact Or.inl (hs x a ha)
  · exact Or.inr hb

theorem cut_and_order_agree_overwritten : ∃ m,
    exec (takeTurn sampleSha512) emptyMount oneBlockReloaded = some m ∧
    Meets (takeTurn sampleSha512) (TurnFits sampleSha512) emptyMount oneBlockReloaded ∧
    CallFits sampleSha512 overFirst m.ctx ∧
    DistinctHashes sampleSha512
      (knownBlocks overFirst m.ctx++(List.range behindThem.numBlocks).map behindThem.block) ∧
    PairFits sampleSha512 (withoutFailure completeEnv) overFirst behindThem m.ctx ∧
    PairFits sampleSha512 (withoutFailure completeEnv) behindThem overFirst m.ctx ∧
    SameOutcome (writeDedup sampleSha512 (withoutFailure completeEnv) overFirst m.ctx).1
      (writeDedup sampleSha512 (withoutFailure completeEnv) (lastBlocks overFirst 1 overFirst_cut.le)
        (writeDedup sampleSha512 (withoutFailure completeEnv) (firstBlocks overFirst 1)
          m.ctx).1).1 ∧
    SameOutcome
      (writeDedup sampleSha512 (withoutFailure completeEnv) behindThem
        (writeDedup sampleSha512 (withoutFailure completeEnv) overFirst m.ctx).1).1
      (writeDedup sampleSha512 (withoutFailure completeEnv) overFirst
        (writeDedup sampleSha512 (withoutFailure completeEnv) behindThem m.ctx).1).1 := by
  have hc : Meets (takeTurn sampleSha512) (TurnFits sampleSha512) emptyMount oneBlockReloaded := by
    decide +kernel
  obtain ⟨m,hr,hp⟩ := exec_observe (takeTurn sampleSha512)
    (fun m => CallFits sampleSha512 overFirst m.ctx ∧
      PairFits sampleSha512 (withoutFailure completeEnv) overFirst behindThem m.ctx ∧
      PairFits sampleSha512 (withoutFailure completeEnv) behindThem overFirst m.ctx)
    emptyMount oneBlockReloaded (by decide +kernel)
  obtain ⟨hfit,hpair,hpair'⟩ := of_decide_eq_true hp
  have hown : ∀ b ∈ knownBlocks overFirst m.ctx, ∃ byte ∈ ([65,66,67] : List UInt8),
      b = List.replicate blockSize byte := by
    intro b hb
    rcases reloaded_known hr hc hb with hb | ⟨i,hi,rfl⟩
    · exact ⟨65,by decide,hb⟩
    · rw [overFirst_numBlocks] at hi
      exact ⟨66,by decide,fill_block _ _ hi⟩
  have hinj : DistinctHashes sampleSha512
      (knownBlocks overFirst m.ctx++(List.range behindThem.numBlocks).map behindThem.block) := by
    refine fill_noCollision ?_
    intro b hb
    rcases List.mem_append.mp hb with hb | hb
    · exact hown b hb
    · obtain ⟨i,hi,rfl⟩ := List.mem_map.mp hb
      have hn : behindThem.numBlocks = 1 := fill_numBlocks _ _
      rw [hn,List.mem_range] at hi
      exact ⟨65,by decide,fill_block _ _ hi⟩
  have hdis : ∀ k, ¬ (Touches overFirst k ∧ Touches behindThem k) := by
    rintro k ⟨⟨_,_,h₁⟩,⟨_,h₂,_⟩⟩
    rw [overFirst_numBlocks] at h₁
    exact Nat.not_lt_of_le h₂ h₁
  have hlen : overFirst.buf.length % blockSize = 0 := by
    rw [overFirst,fillReq,List.length_replicate]
    rfl
  obtain ⟨hcut,horder⟩ := cut_and_order_agree oneBlockReloaded m hr hc
  exact ⟨m,hr,hc,hfit,hinj,hpair,hpair',
    hcut overFirst 1 overFirst_cut.le completeEnv completeEnv completeEnv hlen Nat.one_pos
      overFirst_cut (fill_noCollision hown) hfit,
    horder overFirst behindThem completeEnv completeEnv completeEnv completeEnv hdis hinj hpair
      hpair'⟩

end Samples

end ArchivalDedup.SplitWrites
