import Mathlib.Data.Finset.Lattice.Fold
import Mathlib.Order.Lattice.Nat
import ArchivalDedup.ThreadLedger

/-!
# References under every interleaving

A run is clean when no counter wraps and when no MISS loses its double check
while a HIT of the same batch shares its pending object. In a clean run every
mapping points to an allocated object that the index holds under its hash, and
the counters are exact.
-/

set_option autoImplicit false

namespace ArchivalDedup.ReferenceSafety
open ArchivalDedup.FiniteTable ArchivalDedup.MetaIndex ArchivalDedup.WriteDedup
open ArchivalDedup.PlanShape ArchivalDedup.Ledger ArchivalDedup.LedgerMoves
open ArchivalDedup.LedgerPasses ArchivalDedup.LedgerLoops ArchivalDedup.Threads ArchivalDedup.ThreadLedger
open ArchivalDedup.Interleaving

def releasing : Stage → List ℕ
  | .release slots _ => slots
  | .rollbackConcat _ slots _ => slots
  | .unlinkConcat _ slots => slots
  | .truncateConcat _ _ slots => slots
  | _ => []

/-- The slots handed to a write and neither published nor released. -/
def handed : Stage → List ℕ
  | .append _ _ taken => taken
  | .flush _ plan _ => missSlots plan
  | .consolidate _ plan => missSlots plan
  | .rollbackHits plan _ => missSlots plan
  | .rollbackConcat plan _ _ => missSlots plan
  | .rollbackMisses plan _ => missSlots plan
  | _ => []

/-- The plan of a write between its pass 1 and its pass 3 or rollback. -/
def inFlight : Stage → List PlanEntry
  | .drain _ plan => plan
  | .append _ plan _ => plan
  | .flush _ plan _ => plan
  | .consolidate _ plan => plan
  | .rollbackHits plan _ => plan
  | _ => []

def hitsOn (a : Ptr) (plan : List PlanEntry) : ℕ :=
  plan.countP (fun e => e.kind = .hit ∧ e.info = a)

def inFlightHits (s : System) (a : Ptr) : ℕ := (s.procs.map (fun st => hitsOn a (inFlight st))).sum

/-- A file block points to an allocated object, the one the index holds under
its hash, and nobody else has a claim on its slot. -/
def Indexed (s : System) (a : Ptr) : Prop :=
  a ∈ s.ctx.live ∧ find s.ctx.hashToMaster (s.ctx.cell a).hash = some a ∧
    (s.ctx.cell a).masterBlockIndex ∉ s.ctx.freeBlockList ∧
    ∀ st ∈ s.procs, (s.ctx.cell a).masterBlockIndex ∉ releasing st ∧
      (s.ctx.cell a).masterBlockIndex ∉ handed st

def NoDangling (s : System) : Prop := ∀ k a, find s.ctx.fileToMaster k = some a → Indexed s a

variable {sha512 : List UInt8 → Hash} {qsort : List ReadDedup.BlockPair → List ReadDedup.BlockPair}

/-- The step neither wraps a counter nor frees a pending object that a HIT of
its batch shares. -/
def Clean (sha512 : List UInt8 → Hash) (s : System) (a : Action) : Prop :=
  NoWrap sha512 s a ∧ LosersBy ∅ s a

instance (s : System) (a : Action) : Decidable (Clean sha512 s a) :=
  inferInstanceAs (Decidable ((∀ st ∈ stageOf s a, ∀ b ∈ increments sha512 s.ctx st,
    (s.ctx.cell b).refcount+1 < refcountMod) ∧
      ∀ st ∈ stageOf s a, ∀ b ∈ sharedLosers s.ctx st, False))

theorem clean_run {acts : List Action} {s : System} (hr : Reaches sha512 qsort acts s)
    (hc : Meets (step sha512 qsort) (Clean sha512) emptySystem acts) : SysInv sha512 ∅ s :=
  exec_invariant (step sha512 qsort) (Clean sha512) (SysInv sha512 ∅)
    (fun _ _ _ hi hc hs => sysInv_step hi hc.1 hc.2 (by simp) hs) emptySystem s acts
    (sysInv_empty ∅) hc hr

theorem missSlots_misses (plan : List PlanEntry) : missSlots (misses plan) = missSlots plan := by
  induction plan with
  | nil => rfl
  | cons e es ih =>
    cases hk : e.kind with
    | hit => rw [misses_hit es hk,missSlots_hit hk,ih]
    | miss => rw [misses_miss es hk,missSlots_miss hk,missSlots_miss hk,ih]

theorem party_slots (st : Stage) : (party st).slots = releasing st++handed st := by
  cases st <;> simp [party,Party.slots,releasing,handed,missSlots_misses] <;> rfl

theorem mapped_published {c : Context} {ps : List Party} {k : BlockIndice} {a : Ptr}
    (h : Inv ∅ c ps) (hk : find c.fileToMaster k = some a) : a ∈ c.live ∧ Published c a := by
  have ho : 0 < occurrences c.fileToMaster a := (occurrences_pos _ _).mpr ⟨k,hk⟩
  have hl : a ∈ c.live := by
    by_contra hn
    rcases h.stale a hn with hz | ⟨hz,_⟩
    · have := hz
      simp only [refs] at this
      omega
    · exact hz
  refine ⟨hl,?_⟩
  rcases h.owned a hl with hp | ⟨_,hz⟩
  · exact hp
  · omega

theorem published_slot_mem {c : Context} {a : Ptr} (h : Published c a) :
    (c.cell a).masterBlockIndex ∈ publishedSlots c :=
  (mem_values_by _ _ _).mpr ⟨_,a,h,rfl⟩

theorem slots_nodup {Z : Set Ptr} {c : Context} {ps : List Party} (h : Inv Z c ps) :
    (c.freeBlockList++ps.flatMap Party.slots++publishedSlots c).Nodup :=
  h.slots.nodup_iff.mpr List.nodup_range

theorem published_slot_unclaimed {Z : Set Ptr} {c : Context} {ps : List Party} {a : Ptr}
    (h : Inv Z c ps) (hp : Published c a) : (c.cell a).masterBlockIndex ∉ c.freeBlockList ∧
      ∀ p ∈ ps, (c.cell a).masterBlockIndex ∉ p.slots := by
  have hm := published_slot_mem hp
  have hd := List.disjoint_of_nodup_append (slots_nodup h)
  refine ⟨?_,?_⟩
  · intro hf
    exact hd (List.mem_append_left _ hf) hm
  · intro p hp hf
    exact hd (List.mem_append_right _ (List.mem_flatMap.mpr ⟨p,hp,hf⟩)) hm

theorem indexed_of_published {Z : Set Ptr} {s : System} {a : Ptr} (h : SysInv sha512 Z s)
    (hp : Published s.ctx a) : Indexed s a := by
  obtain ⟨hfree,hslots⟩ := published_slot_unclaimed h.ledger hp
  refine ⟨(h.ledger.keyed _ _ hp).2.1,hp,hfree,?_⟩
  intro st hst
  have := hslots (party st) (List.mem_map.mpr ⟨st,hst,rfl⟩)
  rw [party_slots,List.mem_append,not_or] at this
  exact this

/-- In every clean run no mapping dangles. -/
theorem clean_run_no_dangling (acts : List Action) (s : System)
    (hr : Reaches sha512 qsort acts s)
    (hc : Meets (step sha512 qsort) (Clean sha512) emptySystem acts) : NoDangling s := by
  have hi := clean_run hr hc
  intro k a hk
  exact indexed_of_published hi (mapped_published hi.ledger hk).2

section Samples

def digestA : Hash :=
  ⟨[11,15,109,25,116,168,107,185,241,213,13,64,74,120,13,0,
    141,215,208,88,131,40,107,164,86,50,94,145,163,129,212,75,
    94,142,39,224,251,1,244,60,253,161,19,45,102,195,99,185,
    19,28,33,50,232,238,0,89,73,183,35,127,106,252,156,220],rfl⟩

def digestB : Hash :=
  ⟨[33,253,127,229,220,243,245,128,81,157,24,41,218,43,39,159,
    108,191,87,236,221,177,187,13,120,37,121,82,191,119,126,3,
    122,25,228,165,11,255,113,60,158,130,17,163,106,151,49,238,
    160,173,249,117,247,58,64,170,39,3,200,17,149,253,22,206],rfl⟩

def digestC : Hash :=
  ⟨[55,198,21,22,226,147,78,151,238,154,8,29,12,228,39,254,
    81,164,35,254,249,193,173,55,119,70,49,197,2,219,4,33,
    155,207,145,187,42,48,79,163,104,245,158,153,64,104,44,17,
    76,164,178,139,239,153,13,87,170,131,11,242,230,116,253,46],rfl⟩

/-- SHA-512 on blocks that repeat one of the bytes 65, 66 and 67. -/
def sampleSha512 (block : List UInt8) : Hash :=
  if block.headD 0 = 65 then digestA else if block.headD 0 = 66 then digestB else digestC

def fileA : Path := ⟨[47,97],by decide,by decide⟩

def fileB : Path := ⟨[47,98],by decide,by decide⟩

def fillReq (path : Path) (byte : UInt8) (i n : ℕ) (h₁ : n*blockSize < 2^31)
    (h₂ : i*blockSize+n*blockSize < 2^63) : WriteReq :=
  ⟨path,List.replicate (n*blockSize) byte,i*blockSize,by simpa using h₁,by simpa using h₂⟩

theorem one_block_fits : 1*blockSize < 2^31 := by decide

theorem two_blocks_fit : 2*blockSize < 2^31 := by decide

theorem block0_ends : 0*blockSize+1*blockSize < 2^63 := by decide

theorem block1_ends : 1*blockSize+1*blockSize < 2^63 := by decide

theorem block2_ends : 2*blockSize+1*blockSize < 2^63 := by decide

theorem blocks01_end : 0*blockSize+2*blockSize < 2^63 := by decide

def topAlloc (s : Finset Ptr) : Ptr := s.sup id+1

theorem topAlloc_fresh (s : Finset Ptr) : topAlloc s ∉ s :=
  fun hs => Nat.not_succ_le_self _ (Finset.le_sup (f := id) hs)

def go (i : ℕ) (a : Ptr) : Action := .step i ⟨a,.complete,none⟩

end Samples

def sharedBlocks : List Action :=
  [.call (.write (fillReq fileA 65 0 2 two_blocks_fit blocks01_end)),
    .call (.write (fillReq fileB 65 0 1 one_block_fits block0_ends)),
    go 0 0,go 1 1,go 0 2,go 0 2,go 1 2,go 0 2,go 0 2,go 0 2,go 0 2,go 0 2,
    go 1 2,go 1 2,go 1 2,go 1 2,go 1 2,.call (.unlink fileA),go 2 2,go 2 2]

theorem clean_run_no_dangling_shared : Meets (step sampleSha512 id) (Clean sampleSha512)
    emptySystem sharedBlocks ∧ ∃ s, Reaches sampleSha512 id sharedBlocks s ∧ NoDangling s ∧
      find s.ctx.fileToMaster ⟨fileB,0⟩ = some 0 := by
  have hc : Meets (step sampleSha512 id) (Clean sampleSha512) emptySystem sharedBlocks := by
    decide +kernel
  obtain ⟨s,hr,hp⟩ := exec_observe (step sampleSha512 id)
    (fun s => find s.ctx.fileToMaster ⟨fileB,0⟩ = some 0) emptySystem sharedBlocks
    (by decide +kernel)
  exact ⟨hc,s,hr,clean_run_no_dangling sharedBlocks s hr hc,of_decide_eq_true hp⟩

/-- A batch of two equal blocks is planned; another write of the same content
runs from start to end; then the batch goes on and loses its double check. -/
def lostDoubleCheck : List Action :=
  [.call (.write (fillReq fileA 65 0 2 two_blocks_fit blocks01_end)),go 0 0,go 0 1,go 0 1,
    .call (.write (fillReq fileB 65 0 1 one_block_fits block0_ends)),
    go 1 1,go 1 2,go 1 2,go 1 2,go 1 2,go 1 2,go 1 2,go 1 2,
    go 0 2,go 0 2,go 0 2,go 0 2,go 0 2]

theorem lost_double_check_dangles :
    ∃ s, Reaches sampleSha512 id lostDoubleCheck s ∧ ¬ NoDangling s := by
  obtain ⟨s,hr,hp⟩ := exec_observe (step sampleSha512 id)
    (fun s => find s.ctx.fileToMaster ⟨fileA,1⟩ = some 0 ∧ 0 ∉ s.ctx.live) emptySystem
    lostDoubleCheck (by decide +kernel)
  obtain ⟨hk,hl⟩ := of_decide_eq_true hp
  exact ⟨s,hr,fun h => hl (h _ 0 hk).1⟩

def references (s : System) : ℕ :=
  s.ctx.fileToMaster.entries.length+(s.procs.map (fun st => (party st).plan.length)).sum

/-- The step leads to a state with fewer than 2^32 references. -/
def FewAfter (sha512 : List UInt8 → Hash)
    (qsort : List ReadDedup.BlockPair → List ReadDedup.BlockPair) (s : System) (a : Action) : Prop :=
  ∀ t ∈ step sha512 qsort s a, references t < refcountMod

instance (s : System) (a : Action) : Decidable (LosersBy ∅ s a ∧ FewAfter sha512 qsort s a) :=
  inferInstanceAs (Decidable ((∀ st ∈ stageOf s a, ∀ b ∈ sharedLosers s.ctx st, False) ∧
    ∀ t ∈ step sha512 qsort s a, references t < refcountMod))

def Exact (s : System) : Prop :=
  ∀ h a, find s.ctx.hashToMaster h = some a →
    (s.ctx.cell a).refcount = occurrences s.ctx.fileToMaster a+inFlightHits s a ∧
      1 ≤ (s.ctx.cell a).refcount ∧ (Quiescent s → 1 ≤ occurrences s.ctx.fileToMaster a)

theorem heldRefs_le (procs : List Stage) (a : Ptr) :
    heldRefs (procs.map party) a ≤ (procs.map (fun st => (party st).plan.length)).sum := by
  induction procs with
  | nil => exact Nat.le_refl 0
  | cons st procs ih =>
    have : planRefs (party st).plan a ≤ (party st).plan.length := List.countP_le_length
    simp only [List.map_cons,heldRefs_cons,List.sum_cons]
    omega

theorem refs_le (s : System) (a : Ptr) : refs s.ctx (s.procs.map party) a ≤ references s :=
  Nat.add_le_add (occurrences_le _ _) (heldRefs_le _ _)

theorem references_set {s : System} {i : ℕ} {st : Stage} (q : Stage) (c : Context)
    (hst : s.procs[i]? = some st) (hf : c.fileToMaster = s.ctx.fileToMaster) :
    references ⟨c,s.procs.set i q⟩+(party st).plan.length =
      references s+(party q).plan.length := by
  obtain ⟨h₁,h₂⟩ := set_perm s.procs i st q hst
  have e₁ := (h₁.map (fun st => (party st).plan.length)).sum_eq
  have e₂ := (h₂.map (fun st => (party st).plan.length)).sum_eq
  simp only [List.map_cons,List.sum_cons] at e₁ e₂
  simp only [references,hf,e₁,e₂]
  omega

theorem winner_refs_lt {s : System} {i : ℕ} {r : WriteReq} {plan : List PlanEntry}
    (h : Inv ∅ s.ctx (s.procs.map party)) (hst : s.procs[i]? = some (.consolidate r plan))
    {e : PlanEntry} {w : Ptr} (he : e ∈ plan) (hk : e.kind = .miss)
    (hw : find s.ctx.hashToMaster e.hash = some w) :
    refs s.ctx (s.procs.map party) w < references s := by
  obtain ⟨hp,_⟩ := set_perm s.procs i _ (Stage.done (.ok 0)) hst
  have hheld := heldRefs_perm (hp.map party) w
  have hlen := (hp.map (fun st => (party st).plan.length)).sum_eq
  have hne : e.info ≠ w := by
    intro hi
    have hm : party (.consolidate r plan) ∈ s.procs.map party :=
      List.mem_map_of_mem (List.mem_of_getElem? hst)
    have hz := (h.keyed _ _ hw).2.2
    exact (heldMisses_zero _ _).mp hz _ hm e he hk hi
  have hlt : planRefs (party (.consolidate r plan)).plan w <
      (party (.consolidate r plan)).plan.length := by
    change planRefs plan w < plan.length
    have hle : planRefs plan w ≤ plan.length := List.countP_le_length
    refine Nat.lt_of_le_of_ne hle ?_
    intro heq
    have := List.countP_eq_length.mp heq e he
    exact hne (of_decide_eq_true this)
  have hrest := heldRefs_le (s.procs.eraseIdx i) w
  have ho := occurrences_le s.ctx.fileToMaster w
  simp only [List.map_cons,heldRefs_cons,List.sum_cons] at hheld hlen
  simp only [refs,references]
  omega

theorem noWrap_of_few {s t : System} {a : Action} (h : SysInv sha512 ∅ s)
    (hf : references s < refcountMod) (hs : step sha512 qsort s a = some t)
    (ht : references t < refcountMod) : NoWrap sha512 s a := by
  cases a with
  | call k => simp [NoWrap,stageOf]
  | step i ch =>
    obtain ⟨st,d,hst,hd,rfl,_⟩ := step_step_some sha512 qsort hs
    intro st' hst' b hb
    have : st' = st := Option.some.inj (hst'.symm.trans hst)
    subst this
    have hok := h.staged st' (List.mem_of_getElem? hst)
    obtain ⟨hp,_⟩ := set_perm s.procs i st' d.2 hst
    have hi : Inv ∅ s.ctx (party st'::(s.procs.eraseIdx i).map party) :=
      inv_perm (hp.map party) h.ledger
    cases st' with
    | pass1 r p =>
      simp only [increments] at hb
      split_ifs at hb with hlen
      · have hx := Option.mem_toList.mp hb
        have hl := existing_live hi hok.1 hx
        simp only [advance,hlen,if_true] at hd
        split_ifs at hd with hfresh
        cases hd
        have hc := h.ledger.counted b hl
        have hle := refs_le s b
        have hset := references_set (Stage.pass1 r (pass1Block sha512 r ch.addr s.ctx p).2)
          (pass1Block sha512 r ch.addr s.ctx p).1 hst (by rw [pass1Block_hit _ hx]; rfl)
        simp only [party,pass1Block_length] at hset
        simp only at ht
        omega
      · cases hb
    | consolidate r plan =>
      obtain ⟨e,he,hw⟩ := List.mem_filterMap.mp hb
      obtain ⟨he,hk⟩ := List.mem_filter.mp he
      have hlt := winner_refs_lt h.ledger hst he (of_decide_eq_true hk) hw
      have hc := h.ledger.counted b (h.ledger.keyed _ _ hw).2.1
      omega
    | _ => cases hb

theorem few_run {acts : List Action} {s : System} (hr : Reaches sha512 qsort acts s)
    (hc : Meets (step sha512 qsort)
      (fun s a => LosersBy ∅ s a ∧ FewAfter sha512 qsort s a) emptySystem acts) :
    SysInv sha512 ∅ s := by
  have hrun := exec_invariant (step sha512 qsort)
    (fun s a => LosersBy ∅ s a ∧ FewAfter sha512 qsort s a)
    (fun s => SysInv sha512 ∅ s ∧ references s < refcountMod) ?_ emptySystem s acts
    ⟨sysInv_empty ∅,by decide⟩ hc hr
  · exact hrun.1
  · intro s a t ⟨hi,hf⟩ ⟨hl,hfew⟩ hs
    have ht := hfew t hs
    exact ⟨sysInv_step hi (noWrap_of_few hi hf hs ht) hl (by simp) hs,ht⟩

theorem party_hits {st : Stage} (a : Ptr) (hl : st.holdsRead = false)
    (hm : planMisses (party st).plan a = 0) : planRefs (party st).plan a = hitsOn a (inFlight st) := by
  have hplan : ∀ plan, planMisses plan a = 0 → planRefs plan a = hitsOn a plan := by
    intro plan hz
    refine List.countP_congr ?_
    intro e he
    have := (planMisses_zero plan a).mp hz e he
    cases hk : e.kind with
    | hit => simp
    | miss => simp [this hk]
  have hdone : ∀ plan, planMisses (misses plan) a = 0 → planRefs (misses plan) a = 0 := by
    intro plan hz
    rw [planRefs_zero]
    intro e he
    exact (planMisses_zero _ a).mp hz e he (of_decide_eq_true (List.mem_filter.mp he).2)
  cases st with
  | pass1 r p => cases hl
  | rollbackConcat plan slots err => exact hdone plan hm
  | rollbackMisses plan err => exact hdone plan hm
  | _ => exact hplan _ hm

theorem heldRefs_hits {s : System} {a : Ptr} (hu : Unlocked s)
    (hm : heldMisses (s.procs.map party) a = 0) :
    heldRefs (s.procs.map party) a = inFlightHits s a := by
  have hall : ∀ procs : List Stage, (∀ st ∈ procs, st.holdsRead = false) →
      heldMisses (procs.map party) a = 0 →
      heldRefs (procs.map party) a = (procs.map (fun st => hitsOn a (inFlight st))).sum := by
    intro procs hp hz
    induction procs with
    | nil => rfl
    | cons st procs ih =>
      simp only [List.map_cons,heldMisses_cons,Nat.add_eq_zero_iff] at hz
      simp only [List.map_cons,heldRefs_cons,List.sum_cons]
      rw [party_hits a (hp st (by simp)) hz.1,ih (fun q hq => hp q (by simp [hq])) hz.2]
  exact hall s.procs hu hm

theorem quiescent_unlocked {s : System} (h : Quiescent s) : Unlocked s := by
  intro st hst
  have := h st hst
  cases st <;> first | rfl | cases this

theorem quiescent_hits {s : System} (h : Quiescent s) (a : Ptr) : inFlightHits s a = 0 := by
  refine List.sum_eq_zero ?_
  intro n hn
  obtain ⟨st,hst,rfl⟩ := List.mem_map.mp hn
  have := h st hst
  cases st <;> first | rfl | cases this

/-- While fewer than 2^32 references exist and no shared pending object is
freed, the counters are exact whenever nobody holds the lock. -/
theorem few_run_exact (acts : List Action) (s : System) (hr : Reaches sha512 qsort acts s)
    (hc : Meets (step sha512 qsort)
      (fun s a => LosersBy ∅ s a ∧ FewAfter sha512 qsort s a) emptySystem acts)
    (hu : Unlocked s) : Exact s := by
  have hi := (few_run hr hc).ledger
  intro k a hk
  obtain ⟨hh,hl,hm⟩ := hi.keyed k a hk
  have hcount := hi.counted a hl
  have hpos := hi.positive a hl
  have hhits := heldRefs_hits hu hm
  simp only [refs,hhits] at hcount hpos
  refine ⟨hcount,by omega,?_⟩
  intro hq
  rw [quiescent_hits hq a] at hpos
  exact hpos

theorem few_run_exact_shared : ∃ s, Reaches sampleSha512 id sharedBlocks s ∧
    Meets (step sampleSha512 id)
      (fun s a => LosersBy ∅ s a ∧ FewAfter sampleSha512 id s a) emptySystem sharedBlocks ∧
    Unlocked s ∧ Exact s ∧ find s.ctx.hashToMaster digestA = some 0 := by
  have hc : Meets (step sampleSha512 id)
      (fun s a => LosersBy ∅ s a ∧ FewAfter sampleSha512 id s a) emptySystem sharedBlocks := by
    decide +kernel
  obtain ⟨s,hr,hp⟩ := exec_observe (step sampleSha512 id)
    (fun s => (∀ st ∈ s.procs, st.holdsRead = false) ∧
      find s.ctx.hashToMaster digestA = some 0) emptySystem sharedBlocks (by decide +kernel)
  obtain ⟨hu,hk⟩ := of_decide_eq_true hp
  exact ⟨s,hr,hc,hu,few_run_exact sharedBlocks s hr hc hu,hk⟩

/-- After the lost double check another write is handed the freed address. -/
def reusedAddress : List Action :=
  lostDoubleCheck++[go 0 2,
    .call (.write (fillReq fileB 66 1 1 one_block_fits block1_ends)),
    go 2 0,go 2 2,go 2 2,go 2 2,go 2 2,go 2 2,go 2 2,go 2 2]

theorem reused_address_miscounted : ∃ s, Reaches sampleSha512 id reusedAddress s ∧
    (∀ as, as <+: reusedAddress → ∀ t, Reaches sampleSha512 id as t → references t < 2^32) ∧
    Unlocked s ∧ ¬ Exact s := by
  obtain ⟨s,hr,hp⟩ := exec_observe (step sampleSha512 id)
    (fun s => (∀ st ∈ s.procs, st.holdsRead = false) ∧
      find s.ctx.hashToMaster digestB = some 0 ∧ (s.ctx.cell 0).refcount = 1 ∧
      occurrences s.ctx.fileToMaster 0 = 2) emptySystem reusedAddress (by decide +kernel)
  obtain ⟨hu,hk,hc,ho⟩ := of_decide_eq_true hp
  have hfew : ∀ as ∈ reusedAddress.inits, ∀ t ∈ exec (step sampleSha512 id) emptySystem as,
      references t < 2^32 := by decide +kernel
  refine ⟨s,hr,fun as has t ht => hfew as ((List.mem_inits _ _).mpr has) t ht,hu,?_⟩
  intro h
  have := (h _ 0 hk).1
  omega

end ArchivalDedup.ReferenceSafety
