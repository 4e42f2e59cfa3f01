import ArchivalDedup.SettledWrites

/-!
# Many writes of one content

A request whose blocks are all published takes references and nothing else. One
file filled with a single content has one object, whose 32-bit counter goes round
after 2^32 blocks.
-/

set_option autoImplicit false

namespace ArchivalDedup.EqualWrites
open ArchivalDedup.FiniteTable ArchivalDedup.MetaIndex ArchivalDedup.WriteDedup
open ArchivalDedup.Passthrough ArchivalDedup.Ledger ArchivalDedup.ReferenceSafety
open ArchivalDedup.SequentialWrite ArchivalDedup.SequentialRun ArchivalDedup.BlockRefinement
open ArchivalDedup.WriteShape ArchivalDedup.ExactRequests ArchivalDedup.Interleaving
open ArchivalDedup.SlotAccounting ArchivalDedup.SettledWrites

variable {sha512 : List UInt8 → Hash} {known : List (List UInt8)} {c : Context}
variable {r : WriteReq}

section Repeats

variable {x : Hash} {a : Ptr}

def hitPlan (r : WriteReq) (x : Hash) (a : Ptr) (n : ℕ) : List PlanEntry :=
  (List.range n).map (fun j => newEntry .hit r j x a)

theorem pass1_hits (env : Env) (hb : ∀ i < r.numBlocks, sha512 (r.block i) = x) (n : ℕ)
    {c : Context} {p : Pass1} (hn : p.plan.length+n = r.numBlocks)
    (hx : find c.hashToMaster x = some a) : pass1 sha512 env r n c p =
      ((fun d : Context => d.fetchAdd a)^[n] c,⟨p.plan++(List.range n).map
        (fun j => newEntry .hit r (p.plan.length+j) x a),p.pendingHashes⟩) := by
  induction n generalizing c p with
  | zero => rw [List.range_zero,List.map_nil,List.append_nil]; rfl
  | succ n ih =>
    have hex : existingInfo c p (sha512 (r.block p.plan.length)) = some a := by
      rw [hb _ (by omega),existingInfo,Context.lookupByHash,hx]
      rfl
    have hx' : find (c.fetchAdd a).hashToMaster x = some a := hx
    have hlen : (p.plan++[newEntry .hit r p.plan.length x a]).length+n = r.numBlocks := by
      rw [List.length_append,List.length_singleton]
      omega
    rw [pass1,pass1Block_hit _ hex,hb _ (by omega)]
    dsimp only
    rw [ih hlen hx',List.range_succ_eq_map,List.map_cons,List.map_map,
      List.append_assoc,List.singleton_append,Nat.add_zero]
    refine congrArg (fun l => (_,Pass1.mk (p.plan++_::l) p.pendingHashes)) ?_
    apply List.map_congr_left
    intro j _
    simp only [Function.comp_apply,List.length_append,List.length_singleton]
    congr 1
    omega

theorem publishPlan_hits (plan : List PlanEntry) (h : ∀ e ∈ plan, e.kind = .hit) (c : Context)
    (slots : List ℕ) : publishPlan plan c slots = (c,slots,plan) := by
  induction plan with
  | nil => rfl
  | cons e es ih =>
    have he : publishEntry c slots e = (c,slots,e) := by
      simp only [publishEntry,h e (List.mem_cons_self ..)]
    simp only [publishPlan,he,ih (fun m hm => h m (List.mem_cons_of_mem _ hm))]

theorem writeDedup_hits (env : Env) (ha : Accepted r)
    (hb : ∀ i < r.numBlocks, sha512 (r.block i) = x) (hx : find c.hashToMaster x = some a) :
    let u := mapPlan r.path (hitPlan r x a r.numBlocks)
      ((fun d : Context => d.fetchAdd a)^[r.numBlocks] c) []
    (writeDedup sha512 env r c).1 = (growSize u.1 r.path r.newEnd).releaseSlots u.2 := by
  intro u
  have hkind : ∀ e ∈ hitPlan r x a r.numBlocks, e.kind = .hit := by
    intro e he
    obtain ⟨j,_,rfl⟩ := List.mem_map.mp he
    rfl
  have hmiss : missCount (hitPlan r x a r.numBlocks) = 0 := by
    refine List.countP_eq_zero.mpr ?_
    intro e he
    rw [hkind e he]
    decide
  have hstage : stageWrite sha512 env r c = (hitPlan r x a r.numBlocks,
      (fun d : Context => d.fetchAdd a)^[r.numBlocks] c,none) := by
    unfold stageWrite
    rw [pass1_hits env hb r.numBlocks (Nat.zero_add _) hx]
    simp only [Pass1.start,List.nil_append,List.length_nil,Nat.zero_add]
    change allocateAndFlush env r (hitPlan r x a r.numBlocks) _ = _
    unfold allocateAndFlush
    rw [hmiss,if_neg (Nat.lt_irrefl 0)]
  rw [writeDedup_passed ha.1 ha.2 (by rw [hstage]),hstage]
  unfold consolidate
  rw [publishPlan_hits _ hkind]

/-- The first `n` blocks of one file, one write each, all with the same content.
Irreducible, so that 2^32 writes are never unrolled. -/
@[irreducible] def equalWrites (n : ℕ) : List Op :=
  (List.range n).map (fun i => .write completeEnv (blockReq i))

theorem equalWrites_one : equalWrites 1 = [.write completeEnv (blockReq 0)] := by
  simp only [equalWrites,List.range_one,List.map_singleton]

theorem equalWrites_succ (n : ℕ) :
    equalWrites (n+1) = equalWrites n++[.write completeEnv (blockReq n)] := by
  simp only [equalWrites,List.range_succ,List.map_append,List.map_cons,List.map_nil]

structure EqualFilled (n : ℕ) (c : Context) : Prop where
  indexed : c.hashToMaster.entries = [⟨digestA,1⟩]
  mapped : ∀ k, find c.fileToMaster k = if k.path = fileA ∧ k.offset < n then some 1 else none
  sized : find c.fileToSizes fileA = some (n*blockSize)
  cell : c.cell 1 = ⟨digestA,0,n % refcountMod⟩
  next : c.nextBlockIndex = 1
  unused : c.freeBlockList = []
  content : c.toMasterFile.block 0 = List.replicate blockSize 65

theorem EqualFilled.published {n : ℕ} (h : EqualFilled n c) :
    find c.hashToMaster digestA = some 1 :=
  (find_singleton _ _ _ h.indexed _).trans (if_pos rfl)

theorem blockReq_accepted (i : ℕ) : Accepted (blockReq i) := by
  have hlen : (blockReq i).buf.length = blockSize := List.length_replicate
  rw [Accepted,hlen]
  decide

theorem blockReq_hash (n : ℕ) : ∀ i < (blockReq n).numBlocks,
    sampleSha512 ((blockReq n).block i) = digestA := by
  intro i hi
  rw [blockReq_numBlocks,Nat.lt_one_iff] at hi
  rw [hi,blockReq_block]
  rfl

theorem equalFilled_write {n : ℕ} (env : Env) (h : EqualFilled n c) (hn : n < 2^40) :
    EqualFilled (n+1) (writeDedup sampleSha512 env (blockReq n) c).1 := by
  have hrun := writeDedup_hits env (blockReq_accepted n) (blockReq_hash n) h.published
  have hfresh : (c.fetchAdd 1).lookupByFileBlock fileA n = none :=
    (h.mapped ⟨fileA,n⟩).trans (if_neg (fun hin => Nat.lt_irrefl n hin.2))
  have hplan : mapPlan (blockReq n).path (hitPlan (blockReq n) digestA 1 (blockReq n).numBlocks)
      ((fun d : Context => d.fetchAdd 1)^[(blockReq n).numBlocks] c) [] =
      ((c.fetchAdd 1).insertFileBlock fileA n 1,[]) := by
    rw [blockReq_numBlocks,Function.iterate_one,hitPlan,List.range_one,List.map_singleton]
    simp only [mapPlan,mapEntry,newEntry,blockReq_start hn,Nat.add_zero]
    rw [show (blockReq n).path = fileA from rfl,hfresh]
  have hgrow : growSize ((c.fetchAdd 1).insertFileBlock fileA n 1) fileA ((n+1)*blockSize) =
      { (c.fetchAdd 1).insertFileBlock fileA n 1 with
        fileToSizes := c.fileToSizes.insert fileA ((n+1)*blockSize) } := by
    have hs : find ((c.fetchAdd 1).insertFileBlock fileA n 1).fileToSizes fileA =
        some (n*blockSize) := h.sized
    have hlt : (n+1)*blockSize > n*blockSize :=
      Nat.mul_lt_mul_of_pos_right (Nat.lt_succ_self n) blockSize_pos
    simp only [growSize,hs,if_pos hlt]
    rfl
  rw [hrun,hplan,blockReq_end hn]
  dsimp only
  rw [show (blockReq n).path = fileA from rfl,hgrow]
  refine ⟨h.indexed,?_,?_,?_,h.next,h.unused,h.content⟩
  · intro k
    change find (c.fileToMaster.insert ⟨fileA,n⟩ 1) k = _
    rw [find_insert,h.mapped]
    obtain ⟨p,b⟩ := k
    by_cases hp : p = fileA
    · simp only [hp,BlockIndice.mk.injEq,true_and]
      split_ifs <;> first | rfl | omega
    · simp only [hp,BlockIndice.mk.injEq,false_and,if_false]
  · change find (c.fileToSizes.insert fileA ((n+1)*blockSize)) fileA = _
    rw [find_insert,if_pos rfl]
  · change (c.fetchAdd 1).cell 1 = _
    simp [Context.fetchAdd,Context.setRefcount,h.cell]

theorem equalFilled_one :
    EqualFilled 1 (writeDedup sampleSha512 completeEnv (blockReq 0) emptyContext).1 := by
  have hown : ∀ i < (blockReq 0).numBlocks,
      (blockReq 0).block i ∈ [List.replicate blockSize 65] := by
    intro i hi
    rw [blockReq_numBlocks,Nat.lt_one_iff] at hi
    rw [hi,blockReq_block]
    exact List.mem_singleton_self _
  have hfit : CallFits sampleSha512 (blockReq 0) emptyContext := by decide +kernel
  have hio : ∀ j, completeEnv.io j = .complete := fun _ => rfl
  have hs := (settled_write ⟨inv_empty ∅,fun x a ha => by cases ha⟩ hio
    (blockReq_accepted 0) hfit hown).1.holds
  have hp : let c := (writeDedup sampleSha512 completeEnv (blockReq 0) emptyContext).1
      c.hashToMaster.entries = [⟨digestA,1⟩] ∧ c.fileToMaster.entries = [⟨⟨fileA,0⟩,1⟩] ∧
      c.fileToSizes.entries = [⟨fileA,4096⟩] ∧ c.cell 1 = ⟨digestA,0,1⟩ ∧
      c.nextBlockIndex = 1 ∧ c.freeBlockList = [] := by
    decide +kernel
  generalize (writeDedup sampleSha512 completeEnv (blockReq 0) emptyContext).1 = c at hs hp
  obtain ⟨h₁,h₂,h₃,h₄,h₅,h₆⟩ := hp
  have hpub : find c.hashToMaster digestA = some 1 :=
    (find_singleton _ _ _ h₁ _).trans (if_pos rfl)
  refine ⟨h₁,?_,(find_singleton _ _ _ h₃ _).trans (if_pos rfl),h₄,h₅,h₆,?_⟩
  · rintro ⟨p,b⟩
    rw [find_singleton _ _ _ h₂]
    simp only [BlockIndice.mk.injEq,Nat.lt_one_iff]
  · have hmem := (hs digestA 1 hpub).2
    rw [h₄] at hmem
    exact List.mem_singleton.mp hmem

theorem equalFilled_run (n : ℕ) (hn : n < 2^40) : ∃ m,
    Leads sampleSha512 (equalWrites (n+1)) m ∧ EqualFilled (n+1) m.ctx := by
  have hstep : ∀ (i : ℕ) (m : Mount) (t : Context × Except Errno ℕ),
      writeDedup sampleSha512 completeEnv (blockReq i) m.ctx = t →
      exec (perform sampleSha512) m [.write completeEnv (blockReq i)] =
        some ⟨t.1,m.backing⟩ := by
    rintro i m _ rfl
    rfl
  induction n with
  | zero =>
    have h := equalFilled_one
    generalize ht : writeDedup sampleSha512 completeEnv (blockReq 0) emptyContext = t at h
    refine ⟨⟨t.1,emptyMount.backing⟩,?_,h⟩
    rw [Leads,equalWrites_one]
    exact hstep 0 emptyMount t ht
  | succ n ih =>
    obtain ⟨m,hm,hf⟩ := ih (by omega)
    have h := equalFilled_write completeEnv hf hn
    generalize ht : writeDedup sampleSha512 completeEnv (blockReq (n+1)) m.ctx = t at h
    refine ⟨⟨t.1,m.backing⟩,?_,h⟩
    rw [Leads,equalWrites_succ,exec_append,hm,Option.bind_some]
    exact hstep (n+1) m t ht

end Repeats

section Known

theorem equalFilled_known {n : ℕ} (h : EqualFilled n c) {b : List UInt8}
    (hb : b ∈ knownBlocks r c) :
    b = List.replicate blockSize 65 ∨ ∃ i < r.numBlocks, r.block i = b := by
  rcases mem_knownBlocks.mp hb with ⟨x,a,ha,rfl⟩ | hb
  · rw [find_singleton _ _ _ h.indexed] at ha
    split_ifs at ha
    rw [←Option.some.inj ha,h.cell]
    exact Or.inl h.content
  · exact Or.inr hb

theorem fill_noCollision (h : ∀ b ∈ known, ∃ byte ∈ ([65,66,67] : List UInt8),
    b = List.replicate blockSize byte) : DistinctHashes sampleSha512 known := by
  intro x hx y hy heq
  obtain ⟨b,hb,rfl⟩ := h x hx
  obtain ⟨b',hb',rfl⟩ := h y hy
  rw [sampleSha512_fill b hb b' hb' heq]

end Known

end ArchivalDedup.EqualWrites
