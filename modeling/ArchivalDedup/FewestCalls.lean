import Mathlib.Data.Finset.Sort
import Mathlib.Order.Interval.Finset.Nat
import ArchivalDedup.Library.LinkedCover
import ArchivalDedup.BatchedRead
import ArchivalDedup.CoalescedFlush

/-!
# How many calls the batching of I/O needs

`flush_plan` joins MISSes on consecutive slots into one `pwrite`, `read_dedup`
joins consecutive slots into one `pread`. The first needs as few calls as there
can be when every block goes to its own slot and to no other; the second as few
as there can be when exactly the slots of the request are read, and one more for
every slot that the request maps again.
-/

set_option autoImplicit false

namespace ArchivalDedup.FewestCalls
open ArchivalDedup.ConsecutiveRun ArchivalDedup.LinkedCover ArchivalDedup.MetaIndex
open ArchivalDedup.WriteDedup ArchivalDedup.ReadDedup ArchivalDedup.FlushRuns
open ArchivalDedup.CoalescedFlush ArchivalDedup.ReadBlocks ArchivalDedup.BatchedRead

/-! ## Writing -/

variable {plan : List PlanEntry}

/-- Calls of `pwrite`, each from a block of the buffer on and for a number of
blocks: all of them MISSes, on slots that count up, and no MISS left out. -/
structure Writes (plan : List PlanEntry) (calls : List (ℕ × ℕ)) : Prop where
  own : ∀ w ∈ calls, ∃ slot, ∀ t < w.2, ∃ e, plan[w.1+t]? = some e ∧ e.kind = .miss ∧
    e.masterBlk = slot+t
  all : ∀ i e, plan[i]? = some e → e.kind = .miss → ∃ w ∈ calls, w.1 ≤ i ∧ i < w.1+w.2

def missCells (plan : List PlanEntry) : Finset ℕ :=
  (Finset.range plan.length).filter (fun i => ∃ e ∈ plan[i]?, e.kind = .miss)

def nextSlot (plan : List PlanEntry) (i j : ℕ) : Prop :=
  j = i+1 ∧ ∃ e ∈ plan[i]?, ∃ f ∈ plan[j]?, f.masterBlk = e.masterBlk+1

instance (plan : List PlanEntry) : DecidableRel (nextSlot plan) := fun i j =>
  inferInstanceAs (Decidable (j = i+1 ∧ ∃ e ∈ plan[i]?, ∃ f ∈ plan[j]?, f.masterBlk = e.masterBlk+1))

theorem mem_missCells {i : ℕ} :
    i ∈ missCells plan ↔ ∃ e, plan[i]? = some e ∧ e.kind = .miss := by
  simp only [missCells,Finset.mem_filter,Finset.mem_range,Option.mem_def]
  constructor
  · exact fun h => h.2
  · rintro ⟨e,he,hk⟩
    exact ⟨(List.getElem?_eq_some_iff.mp he).1,e,he,hk⟩

/-- A call as a part of the plan. -/
def callPart (w : ℕ × ℕ) : ℕ × Finset ℕ := (w.1,Finset.Ico w.1 (w.1+w.2))

theorem writes_covers {calls : List (ℕ × ℕ)} (h : Writes plan calls) :
    Covers (nextSlot plan) (missCells plan) (calls.map callPart) := by
  constructor
  · intro p hp y hy
    obtain ⟨w,hw,rfl⟩ := List.mem_map.mp hp
    obtain ⟨slot,hslot⟩ := h.own w hw
    obtain ⟨hle,hlt⟩ := Finset.mem_Ico.mp hy
    by_cases hy0 : y = w.1
    · exact Or.inl hy0
    · refine Or.inr ⟨y-1,Finset.mem_Ico.mpr ⟨by omega,by omega⟩,by omega,?_⟩
      obtain ⟨e,he,_,hes⟩ := hslot (y-1-w.1) (by omega)
      obtain ⟨f,hf,_,hfs⟩ := hslot (y-w.1) (by omega)
      rw [show w.1+(y-1-w.1) = y-1 by omega] at he
      rw [show w.1+(y-w.1) = y by omega] at hf
      exact ⟨e,he,f,hf,by omega⟩
  · intro p hp y hy
    obtain ⟨w,hw,rfl⟩ := List.mem_map.mp hp
    obtain ⟨slot,hslot⟩ := h.own w hw
    obtain ⟨hle,hlt⟩ := Finset.mem_Ico.mp hy
    obtain ⟨e,he,hk,_⟩ := hslot (y-w.1) (by omega)
    rw [show w.1+(y-w.1) = y by omega] at he
    exact mem_missCells.mpr ⟨e,he,hk⟩
  · intro y hy
    obtain ⟨e,he,hk⟩ := mem_missCells.mp hy
    obtain ⟨w,hw,hle,hlt⟩ := h.all y e he hk
    exact ⟨callPart w,List.mem_map_of_mem hw,Finset.mem_Ico.mpr ⟨hle,hlt⟩⟩

def runBounds : ℕ → ℕ → List PlanEntry → List (ℕ × ℕ)
  | 0, _, _ => []
  | fuel+1, i, rest =>
    match nextRun rest with
    | none => []
    | some (skip,_,len) => (i+skip,len)::runBounds fuel (i+skip+len) (rest.drop (skip+len))

theorem runBounds_length (fuel i : ℕ) (rest : List PlanEntry) :
    (runBounds fuel i rest).length = (runsFrom fuel rest).length := by
  induction fuel generalizing i rest with
  | zero => rfl
  | succ fuel ih =>
    simp only [runBounds,runsFrom]
    cases nextRun rest with
    | none => rfl
    | some x => simp only [List.length_cons,ih]

theorem nextRun_stops {rest : List PlanEntry} {skip len : ℕ} {e g : PlanEntry}
    (h : nextRun rest = some (skip,e,len)) (hg : rest[skip+len]? = some g) (hk : g.kind = .miss) :
    g.masterBlk ≠ e.masterBlk+len := by
  induction rest generalizing skip with
  | nil => cases h
  | cons x xs ih =>
    cases hx : x.kind with
    | hit =>
      rw [nextRun_hit xs hx] at h
      obtain ⟨⟨skip',e',len'⟩,h',heq⟩ := Option.map_eq_some_iff.mp h
      cases heq
      refine ih h' ?_
      rwa [show skip'+1+len = skip'+len+1 by omega,List.getElem?_cons_succ] at hg
    | miss =>
      rw [nextRun_miss xs hx] at h
      obtain ⟨rfl,rfl,rfl⟩ : 0 = skip ∧ x = e ∧ consecutive missSlot x.masterBlk xs+1 = len := by
        simpa using h
      intro heq
      refine consecutive_stop missSlot x.masterBlk xs ?_
      rw [Nat.zero_add,List.getElem?_cons_succ] at hg
      rw [hg,Option.bind_some,missSlot_some]
      exact ⟨hk,by omega⟩

/-- The runs from position `i` on start at heads, in order, and contain every MISS
from there on. -/
structure Bounds (plan : List PlanEntry) (i : ℕ) (calls : List (ℕ × ℕ)) : Prop where
  own : ∀ w ∈ calls, ∃ slot, ∀ t < w.2, ∃ e, plan[w.1+t]? = some e ∧ e.kind = .miss ∧
    e.masterBlk = slot+t
  all : ∀ j e, i ≤ j → plan[j]? = some e → e.kind = .miss → ∃ w ∈ calls, w.1 ≤ j ∧ j < w.1+w.2
  from_i : ∀ w ∈ calls, i ≤ w.1
  first : ∀ w ∈ calls, w.1 ∈ heads (nextSlot plan) (missCells plan)
  ordered : calls.Pairwise (fun v w => v.1 < w.1)

theorem bounds_end {i : ℕ} (h : ∀ e ∈ plan.drop i, e.kind = .hit) : Bounds plan i [] := by
  refine ⟨by simp,?_,by simp,by simp,List.Pairwise.nil⟩
  intro j e hij hj hk
  have hmem : e ∈ plan.drop i := by
    refine List.mem_of_getElem? (i := j-i) ?_
    rwa [drop_getElem,show i+(j-i) = j by omega]
  rw [h e hmem] at hk
  cases hk

section NextRun

variable {i skip len : ℕ} {e : PlanEntry} (hn : nextRun (plan.drop i) = some (skip,e,len))
include hn

theorem run_own : ∀ t < len, ∃ g, plan[i+skip+t]? = some g ∧ g.kind = .miss ∧
    g.masterBlk = e.masterBlk+t := by
  intro t ht
  obtain ⟨_,_,_,_,hrun⟩ := nextRun_some hn
  obtain ⟨g,hg,hgk⟩ := hrun t ht
  rw [drop_getElem,show i+(skip+t) = i+skip+t by omega] at hg
  exact ⟨g,hg,hgk⟩

theorem run_skips : ∀ t < skip, i+t ∉ missCells plan := by
  intro t ht hm
  obtain ⟨hhit,_⟩ := nextRun_some hn
  obtain ⟨g,hg,hgk⟩ := mem_missCells.mp hm
  rw [hhit t ht g (by rw [drop_getElem]; exact hg)] at hgk
  cases hgk

theorem run_head (hs : ∀ x ∈ missCells plan, i ∈ missCells plan → ¬ nextSlot plan x i) :
    i+skip ∈ heads (nextSlot plan) (missCells plan) := by
  obtain ⟨_,hpos,_⟩ := nextRun_some hn
  obtain ⟨g,hg,hgk,_⟩ := run_own hn 0 hpos
  have hcell : i+skip ∈ missCells plan := mem_missCells.mpr ⟨g,hg,hgk⟩
  refine Finset.mem_filter.mpr ⟨hcell,?_⟩
  intro x hx hnext
  by_cases hz : skip = 0
  · subst hz
    exact hs x hx hcell hnext
  · have hx' : x = i+(skip-1) := by
      have := hnext.1
      omega
    exact run_skips hn (skip-1) (by omega) (hx' ▸ hx)

/-- The next run cannot continue this one. -/
theorem run_breaks : ∀ x ∈ missCells plan, i+skip+len ∈ missCells plan →
    ¬ nextSlot plan x (i+skip+len) := by
  intro x hx hm hnext
  obtain ⟨_,hpos,_⟩ := nextRun_some hn
  obtain ⟨g,hg,hgk⟩ := mem_missCells.mp hm
  obtain ⟨hx',e',he',g',hg',hslot⟩ := hnext
  cases hg.symm.trans hg'
  obtain ⟨last,hlast,_,hls⟩ := run_own hn (len-1) (by omega)
  rw [show i+skip+(len-1) = x by omega] at hlast
  cases hlast.symm.trans he'
  refine nextRun_stops hn (g := g) ?_ hgk (by omega)
  rwa [drop_getElem,show i+(skip+len) = i+skip+len by omega]

theorem bounds_cons {calls : List (ℕ × ℕ)}
    (hs : ∀ x ∈ missCells plan, i ∈ missCells plan → ¬ nextSlot plan x i)
    (h : Bounds plan (i+skip+len) calls) : Bounds plan i ((i+skip,len)::calls) := by
  obtain ⟨_,hpos,_⟩ := nextRun_some hn
  constructor
  · intro w hw
    rcases List.mem_cons.mp hw with rfl | hw
    · exact ⟨e.masterBlk,run_own hn⟩
    · exact h.own w hw
  · intro j g hij hj hk
    by_cases hlt : j < i+skip
    · exact absurd (mem_missCells.mpr ⟨g,hj,hk⟩)
        (by rw [show j = i+(j-i) by omega]; exact run_skips hn (j-i) (by omega))
    · by_cases hin : j < i+skip+len
      · exact ⟨(i+skip,len),List.mem_cons_self ..,by omega,hin⟩
      · obtain ⟨w,hw,hj'⟩ := h.all j g (by omega) hj hk
        exact ⟨w,List.mem_cons_of_mem _ hw,hj'⟩
  · intro w hw
    rcases List.mem_cons.mp hw with rfl | hw
    · exact Nat.le_add_right i skip
    · have := h.from_i w hw
      omega
  · intro w hw
    rcases List.mem_cons.mp hw with rfl | hw
    · exact run_head hn hs
    · exact h.first w hw
  · refine List.pairwise_cons.mpr ⟨?_,h.ordered⟩
    intro w hw
    have := h.from_i w hw
    simp only
    omega

end NextRun

theorem runBounds_bounds (fuel i : ℕ) (hf : plan.length ≤ i+fuel)
    (hs : ∀ x ∈ missCells plan, i ∈ missCells plan → ¬ nextSlot plan x i) :
    Bounds plan i (runBounds fuel i (plan.drop i)) := by
  induction fuel generalizing i with
  | zero =>
    refine bounds_end ?_
    rw [List.drop_eq_nil_of_le (by omega)]
    simp
  | succ fuel ih =>
    simp only [runBounds]
    cases hn : nextRun (plan.drop i) with
    | none => exact bounds_end (nextRun_none hn)
    | some x =>
      obtain ⟨skip,e,len⟩ := x
      obtain ⟨_,hpos,_⟩ := nextRun_some hn
      have hrest := ih (i+skip+len) (by omega) (run_breaks hn)
      simp only [List.drop_drop,show i+(skip+len) = i+skip+len by omega]
      exact bounds_cons hn hs hrest

/-- `flush_plan` succeeds exactly when each of its runs is written in full, one
`pwrite` for each. -/
theorem flushRest_succeeds (r : WriteReq) (io : ℕ → PwriteResult) (fuel j : ℕ)
    (rest : List PlanEntry) (f : MasterFile) : (flushRest r io fuel j rest f).2 = none ↔
      ∀ k < (runsFrom fuel rest).length, io (j+k) = .complete := by
  induction fuel generalizing j rest f with
  | zero => simp [flushRest,runsFrom]
  | succ fuel ih =>
    simp only [flushRest,runsFrom]
    cases nextRun rest with
    | none => simp
    | some x =>
      obtain ⟨skip,e,len⟩ := x
      simp only [List.length_cons]
      have hshift : (∀ k < (runsFrom fuel (rest.drop (skip+len))).length+1, io (j+k) = .complete) ↔
          io j = .complete ∧
            ∀ k < (runsFrom fuel (rest.drop (skip+len))).length, io (j+1+k) = .complete := by
        constructor
        · intro h
          refine ⟨h 0 (Nat.succ_pos _),?_⟩
          intro k hk
          rw [show j+1+k = j+(k+1) by omega]
          exact h (k+1) (by omega)
        · rintro ⟨h₀,h⟩ k hk
          cases k with
          | zero => exact h₀
          | succ k =>
            rw [show j+(k+1) = j+1+k by omega]
            exact h k (by omega)
      rw [hshift]
      cases hio : io j with
      | complete =>
        simp only [pwriteRun,true_and]
        exact ih (j+1) _ _
      | short w => simp [pwriteRun]
      | error code w => simp [pwriteRun]

/-- `flush_plan` makes the fewest calls of `pwrite` that write every MISS of the
plan to its slot and nothing else. -/
theorem flush_fewest_pwrites (r : WriteReq) (plan : List PlanEntry) :
    (∀ io f, (flushPlan r io plan f).2 = none ↔ ∀ k < (runs plan).length, io k = .complete) ∧
    (∃ calls, Writes plan calls ∧ calls.length = (runs plan).length) ∧
    ∀ calls, Writes plan calls → (runs plan).length ≤ calls.length := by
  have hb : Bounds plan 0 (runBounds plan.length 0 (plan.drop 0)) := by
    refine runBounds_bounds plan.length 0 (by omega) ?_
    intro x _ _ hn
    have := hn.1
    omega
  rw [List.drop_zero] at hb
  have hlen := runBounds_length plan.length 0 plan
  refine ⟨?_,⟨_,⟨hb.own,fun i e hi hk => hb.all i e (Nat.zero_le i) hi hk⟩,hlen⟩,?_⟩
  · intro io f
    have h := flushRest_succeeds r io plan.length 0 plan f
    simp only [Nat.zero_add] at h
    exact h
  · intro calls hw
    have hnodup : (((runBounds plan.length 0 plan).map callPart).map Prod.fst).Nodup := by
      rw [List.map_map]
      exact List.pairwise_map.mpr (hb.ordered.imp (fun h => Nat.ne_of_lt h))
    have hheads : ∀ p ∈ (runBounds plan.length 0 plan).map callPart,
        p.1 ∈ heads (nextSlot plan) (missCells plan) := by
      intro p hp
      obtain ⟨w,hw,rfl⟩ := List.mem_map.mp hp
      exact hb.first w hw
    have h₁ := length_of_heads hnodup hheads
    have h₂ := card_heads_le (writes_covers hw)
    rw [List.length_map] at h₁ h₂
    calc (runs plan).length = (runBounds plan.length 0 plan).length := hlen.symm
      _ ≤ (heads (nextSlot plan) (missCells plan)).card := h₁
      _ ≤ calls.length := h₂

/-! ## Reading -/

/-- Calls of `pread`, each from a slot on and for a number of slots: all of them
slots of the request, and no slot left out. -/
structure Reads (slots : List ℕ) (calls : List (ℕ × ℕ)) : Prop where
  own : ∀ w ∈ calls, ∀ t < w.2, w.1+t ∈ slots
  all : ∀ q ∈ slots, ∃ w ∈ calls, w.1 ≤ q ∧ q < w.1+w.2

theorem reads_covers {slots : List ℕ} {calls : List (ℕ × ℕ)} (h : Reads slots calls) :
    Covers (fun x y => y = x+1) slots.toFinset (calls.map callPart) := by
  constructor
  · intro p hp y hy
    obtain ⟨w,hw,rfl⟩ := List.mem_map.mp hp
    obtain ⟨hle,hlt⟩ := Finset.mem_Ico.mp hy
    by_cases hy0 : y = w.1
    · exact Or.inl hy0
    · exact Or.inr ⟨y-1,Finset.mem_Ico.mpr ⟨by omega,by omega⟩,by omega⟩
  · intro p hp y hy
    obtain ⟨w,hw,rfl⟩ := List.mem_map.mp hp
    obtain ⟨hle,hlt⟩ := Finset.mem_Ico.mp hy
    have := h.own w hw (y-w.1) (by omega)
    rw [show w.1+(y-w.1) = y by omega] at this
    exact List.mem_toFinset.mpr this
  · intro y hy
    obtain ⟨w,hw,hin⟩ := h.all y (List.mem_toFinset.mp hy)
    exact ⟨callPart w,List.mem_map_of_mem hw,Finset.mem_Ico.mpr hin⟩

theorem stretches_reads {slots xs : List ℕ} (h : ∀ q, q ∈ xs ↔ q ∈ slots) :
    Reads slots (stretches id xs.length xs) := by
  have hmem := fun q => mem_stretches id (Nat.le_refl xs.length) q
  simp only [List.map_id] at hmem
  constructor
  · intro w hw t ht
    exact (h _).mp ((hmem _).mp ⟨w,hw,by omega,by omega⟩)
  · intro q hq
    exact (hmem q).mpr ((h q).mpr hq)

theorem insertBack_sorted (tmp : BlockPair) {l : List BlockPair}
    (h : l.Pairwise (fun x y => y.masterBlockIndex ≤ x.masterBlockIndex)) :
    (insertBack tmp l).Pairwise (fun x y => y.masterBlockIndex ≤ x.masterBlockIndex) := by
  induction l with
  | nil => exact List.pairwise_singleton _ _
  | cons x xs ih =>
    obtain ⟨hx,hxs⟩ := List.pairwise_cons.mp h
    simp only [insertBack]
    split_ifs with hle
    · refine List.pairwise_cons.mpr ⟨?_,h⟩
      intro y hy
      rcases List.mem_cons.mp hy with rfl | hy
      · exact hle
      · exact (hx y hy).trans hle
    · refine List.pairwise_cons.mpr ⟨?_,ih hxs⟩
      intro y hy
      rcases List.mem_cons.mp ((insertBack_perm tmp xs).mem_iff.mp hy) with rfl | hy
      · omega
      · exact hx y hy

theorem insertionSort_sorted (pairs : List BlockPair) : (insertionSort pairs).Pairwise
    (fun x y => x.masterBlockIndex ≤ y.masterBlockIndex) := by
  have hfold : ∀ l acc : List BlockPair,
      acc.Pairwise (fun x y => y.masterBlockIndex ≤ x.masterBlockIndex) →
      (l.foldl (fun acc tmp => insertBack tmp acc) acc).Pairwise
        (fun x y => y.masterBlockIndex ≤ x.masterBlockIndex) := by
    intro l
    induction l with
    | nil => exact fun _ h => h
    | cons x xs ih => exact fun acc h => ih _ (insertBack_sorted x h)
  exact List.pairwise_reverse.mpr (hfold pairs [] List.Pairwise.nil)

def groups : ℕ → List BlockPair → List (List BlockPair)
  | 0, _ => []
  | fuel+1, rest =>
    if rest = [] then []
    else rest.take (groupLen rest)::groups fuel (rest.drop (groupLen rest))

def readEach (f : MasterFile) : List (List BlockPair) → Buffer → Buffer × Option Errno
  | [], buf => (buf,none)
  | g::gs, buf =>
    match readGroup f g buf with
    | (buf',none) => readEach f gs buf'
    | (buf',some err) => (buf',some err)

theorem readGroups_each (f : MasterFile) (fuel : ℕ) (rest : List BlockPair) (buf : Buffer) :
    readGroups f fuel rest buf = readEach f (groups fuel rest) buf := by
  induction fuel generalizing rest buf with
  | zero => rfl
  | succ fuel ih =>
    simp only [readGroups,groups]
    split_ifs with hnil
    · rfl
    · simp only [readEach]
      rcases readGroup f (rest.take (groupLen rest)) buf with ⟨buf',err⟩
      cases err with
      | none => exact ih _ buf'
      | some err => rfl

theorem groups_length (fuel : ℕ) (rest : List BlockPair) :
    (groups fuel rest).length = (stretches BlockPair.masterBlockIndex fuel rest).length := by
  induction fuel generalizing rest with
  | zero => rfl
  | succ fuel ih =>
    cases rest with
    | nil => rfl
    | cons p ps =>
      rw [groups,if_neg (List.cons_ne_nil p ps)]
      simp only [stretches,List.length_cons,ih,groupLen,List.drop_succ_cons]

theorem sortPairs_sorted {qsort : List BlockPair → List BlockPair}
    (hs : ∀ l, (qsort l).Pairwise (fun x y => x.masterBlockIndex ≤ y.masterBlockIndex))
    (pairs : List BlockPair) :
    ((sortPairs qsort pairs).map BlockPair.masterBlockIndex).Pairwise (· ≤ ·) := by
  refine List.pairwise_map.mpr ?_
  unfold sortPairs
  split_ifs
  · exact insertionSort_sorted pairs
  · exact hs pairs

def preadGroups (qsort : List BlockPair → List BlockPair) (pairs : List BlockPair) :
    List (List BlockPair) := groups pairs.length (sortPairs qsort pairs)

/-- `read_dedup` makes as many calls of `pread` as are needed to read exactly the
slots of the request, and one more for every block whose slot the request has
already mapped. -/
theorem read_fewest_preads {qsort : List BlockPair → List BlockPair}
    (hq : ∀ l, (qsort l).Perm l)
    (hs : ∀ l, (qsort l).Pairwise (fun x y => x.masterBlockIndex ≤ y.masterBlockIndex))
    (r : ReadReq) (c : Context) :
    let pairs := lookupPairs r c r.numBlocks 0
    let slots := leadingSlots r c
    (∀ f buf, readPairs qsort f pairs buf =
      match readEach f (preadGroups qsort pairs) buf with
      | (buf',some err) => (buf',.error err)
      | (buf',none) => (buf',.ok (pairs.length*blockSize))) ∧
    ∃ fewest, Reads slots fewest ∧ (∀ calls, Reads slots calls → fewest.length ≤ calls.length) ∧
      (preadGroups qsort pairs).length+slots.toFinset.card = fewest.length+slots.length := by
  intro pairs slots
  have hperm : ((sortPairs qsort pairs).map BlockPair.masterBlockIndex).Perm slots := by
    rw [show slots = pairs.map BlockPair.masterBlockIndex from (leadingSlots_pairs r c).symm]
    exact (sortPairs_perm hq pairs).map _
  have hlen : (sortPairs qsort pairs).length = pairs.length := (sortPairs_perm hq pairs).length_eq
  have hslots : slots.length = pairs.length := by
    rw [←hlen,←hperm.length_eq,List.length_map]
  have horder := breaks_sorted BlockPair.masterBlockIndex (sortPairs_sorted hs pairs)
  rw [List.toFinset_eq_of_perm _ _ hperm,hlen] at horder
  -- the distinct slots in order need one call for every start of a stretch
  have hmem : ∀ q, q ∈ slots.toFinset.sort (· ≤ ·) ↔ q ∈ slots := by
    intro q
    rw [Finset.mem_sort,List.mem_toFinset]
  have hsorted : ((slots.toFinset.sort (· ≤ ·)).map id).Pairwise (· ≤ ·) := by
    rw [List.map_id]
    exact Finset.pairwise_sort _ _
  have hdistinct := breaks_sorted id hsorted
  rw [List.map_id,Finset.sort_toFinset,Finset.length_sort] at hdistinct
  refine ⟨?_,_,stretches_reads hmem,?_,?_⟩
  · intro f buf
    simp only [readPairs,readGroups_each,preadGroups]
    rcases readEach f (groups pairs.length (sortPairs qsort pairs)) buf with ⟨buf',err⟩
    cases err <;> rfl
  · intro calls hcalls
    have hlow : (starts slots.toFinset).card ≤ (calls.map callPart).length :=
      card_heads_le (reads_covers hcalls)
    rw [List.length_map] at hlow
    rw [stretches_length id (Nat.le_refl _)]
    omega
  · rw [preadGroups,groups_length,stretches_length _ hlen.le,stretches_length id (Nat.le_refl _)]
    omega

/-- The slots 1, 2, 1 and 0 take two calls, where one would do. -/
theorem read_fewest_preads_repeated :
    (preadGroups insertionSort (lookupPairs repeatedReq repeatedSlots 5 0)).length = 2 ∧
    ∃ fewest, Reads [1,2,1,0] fewest ∧ fewest.length = 1 ∧
      ∀ calls, Reads [1,2,1,0] calls → fewest.length ≤ calls.length := by
  have hslots : leadingSlots repeatedReq repeatedSlots = [1,2,1,0] := by decide +kernel
  have hcalls : (preadGroups insertionSort (lookupPairs repeatedReq repeatedSlots 5 0)).length = 2 := by
    decide +kernel
  obtain ⟨_,fewest,hreads,hmin,hcount⟩ := read_fewest_preads insertionSort_perm insertionSort_sorted
    repeatedReq repeatedSlots
  rw [hslots] at hreads hmin hcount
  rw [show repeatedReq.numBlocks = 5 by decide,hcalls] at hcount
  have hcard : [1,2,1,0].toFinset.card = 3 := by decide
  rw [hcard] at hcount
  simp only [List.length_cons,List.length_nil] at hcount
  exact ⟨hcalls,fewest,hreads,by omega,hmin⟩

end ArchivalDedup.FewestCalls
