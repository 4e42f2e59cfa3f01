import ArchivalDedup.Library.Descent
import ArchivalDedup.AtomicCalls

/-!
# No call waits forever for another

The only wait is for the read lock, and whoever holds it can go on: there is
always a call that can take a step, whatever the environment answers. Every
step uses up some of the work that is left to its call, so a call takes no more
steps than its request has blocks, up to a constant factor.
-/

set_option autoImplicit false

namespace ArchivalDedup.Progress
open ArchivalDedup.FiniteTable ArchivalDedup.MetaIndex ArchivalDedup.WriteDedup
open ArchivalDedup.ReadDedup ArchivalDedup.ReadBlocks ArchivalDedup.Passthrough
open ArchivalDedup.PlanShape ArchivalDedup.FlushRuns ArchivalDedup.Threads
open ArchivalDedup.ReferenceSafety
open ArchivalDedup.ReadSnapshots ArchivalDedup.Interleaving ArchivalDedup.AtomicCalls

/-- A bound on the steps that a stage has still to take. -/
def work : Stage → ℕ
  | .pass1 r p => (r.numBlocks-p.plan.length)+max r.numBlocks p.plan.length+7
  | .drain _ plan => plan.length+6
  | .append _ plan _ => plan.length+5
  | .flush _ plan i => (plan.length-i)+4
  | .consolidate _ _ => 2
  | .release _ _ => 1
  | .rollbackHits _ _ => 3
  | .rollbackConcat _ _ _ => 2
  | .rollbackMisses _ _ => 1
  | .unlinkSize _ => 5
  | .unlinkRemove _ _ => 4
  | .unlinkConcat _ _ => 3
  | .unlinkDropSize _ => 2
  | .unlinkBacking _ => 1
  | .truncateSize _ _ => 5
  | .truncateRemove _ _ _ _ => 4
  | .truncateConcat _ _ _ => 3
  | .truncateShrink _ _ => 2
  | .truncateBacking _ _ => 1
  | .readLookup r pairs _ => (r.numBlocks-pairs.length)+max r.numBlocks pairs.length+2
  | .readGroups _ pairs groupStart _ => (pairs.length-groupStart)+1
  | .readDone _ _ _ _ _ => 0
  | .done _ => 0

def Call.work : Call → ℕ
  | .write r => 2*r.numBlocks+7
  | .unlink _ => 5
  | .truncate _ _ => 5
  | .read r _ => 2*r.numBlocks+2

variable {sha512 : List UInt8 → Hash} {qsort : List BlockPair → List BlockPair}
variable {c : Context} {ch : Choice}

theorem start_work (k : Call) : work k.start ≤ Call.work k := by
  cases k with
  | write r =>
    simp only [Call.start]
    split_ifs
    · exact Nat.zero_le _
    · exact Nat.zero_le _
    · simp only [work,Pass1.start,Call.work,List.length_nil]
      omega
  | unlink path => exact Nat.le_refl 5
  | truncate path size =>
    simp only [Call.start]
    split_ifs
    · exact Nat.zero_le _
    · exact Nat.le_refl 5
  | read r buf =>
    simp only [Call.start]
    split_ifs
    · exact Nat.zero_le _
    · simp only [work,Call.work,List.length_nil]
      omega

theorem flushStep_work (r : WriteReq) (plan : List PlanEntry) (i : ℕ) (io : PwriteResult)
    (c : Context) : work (flushStep r plan i io c).2 < work (.flush r plan i) := by
  unfold flushStep
  split
  · simp only [work]
    omega
  · next skip e len hrun =>
    obtain ⟨_,hlen,hfit,_,_⟩ := nextRun_some hrun
    rw [List.length_drop] at hfit
    split
    · simp only [work]
      omega
    · simp only [work]
      omega

theorem endLookup_work (hq : ∀ l, (qsort l).Perm l) (r : ReadReq) (pairs : List BlockPair)
    (buf : Buffer) : work (endLookup qsort r pairs buf) ≤ pairs.length+1 := by
  unfold endLookup
  split_ifs
  · exact Nat.zero_le _
  · simp only [work,(sortPairs_perm hq pairs).length_eq]
    omega

theorem lookupStep_work (hq : ∀ l, (qsort l).Perm l) (r : ReadReq) (pairs : List BlockPair)
    (buf : Buffer) (c : Context) :
    work (lookupStep qsort r pairs buf c) < work (.readLookup r pairs buf) := by
  have hend : work (endLookup qsort r pairs buf) < work (.readLookup r pairs buf) := by
    refine Nat.lt_of_le_of_lt (endLookup_work hq r pairs buf) ?_
    simp only [work]
    omega
  unfold lookupStep
  split_ifs with hlt
  · split
    · simp only [work,List.length_append,List.length_singleton]
      omega
    · exact hend
  · exact hend

theorem readStep_work (r : ReadReq) (pairs : List BlockPair) (g : ℕ) (buf : Buffer) (c : Context) :
    work (readStep r pairs g buf c) < work (.readGroups r pairs g buf) := by
  simp only [readStep]
  split_ifs with hnil
  · simp only [work]
    omega
  · have hpos := groupLen_pos hnil
    have hlt : g < pairs.length := by
      by_contra hge
      exact hnil (List.drop_eq_nil_iff.mpr (Nat.le_of_not_lt hge))
    split
    · simp only [work]
      omega
    · simp only [work]
      omega

/-- Every step takes its call nearer to its return. -/
theorem advance_work (hq : ∀ l, (qsort l).Perm l) {st : Stage} {t : Context × Stage}
    (ht : advance sha512 qsort ch c st = some t) : work t.2 < work st := by
  cases st with
  | pass1 r p =>
    simp only [advance] at ht
    split_ifs at ht with h₁ h₂ h₃
    · cases ht
      simp only [work,pass1Block_length]
      omega
    · cases ht
      simp only [work]
      omega
    · cases ht
      simp only [work]
      omega
  | append r plan taken =>
    cases ht
    have hlen := congrArg List.length (assignSlots_unslotted plan
      (appendSlots (missCount plan) taken c).1 (appendSlots (missCount plan) taken c).2)
    rw [List.length_map,List.length_map] at hlen
    simp only [work,hlen]
    omega
  | flush r plan i =>
    cases ht
    exact flushStep_work r plan i ch.io c
  | unlinkSize path =>
    simp only [advance] at ht
    split at ht <;> cases ht <;> simp [work]
  | truncateSize path size =>
    simp only [advance] at ht
    split at ht <;> cases ht <;> simp [work]
  | readLookup r pairs buf =>
    cases ht
    exact lookupStep_work hq r pairs buf c
  | readGroups r pairs g buf =>
    cases ht
    exact readStep_work r pairs g buf c
  | readDone r pairs g buf res => cases ht
  | done res => cases ht
  | _ =>
    cases ht
    simp [work]

/-! ## Somebody can always go on -/

theorem advance_some {st : Stage} (hf : st.finished = false) (ha : ch.addr ∉ c.live) :
    ∃ t, advance sha512 qsort ch c st = some t := by
  cases st with
  | pass1 r p =>
    simp only [advance,if_neg ha]
    split_ifs
    · exact ⟨_,rfl⟩
    · exact ⟨_,rfl⟩
    · exact ⟨_,rfl⟩
  | unlinkSize path =>
    simp only [advance]
    split <;> exact ⟨_,rfl⟩
  | truncateSize path size =>
    simp only [advance]
    split <;> exact ⟨_,rfl⟩
  | readDone r pairs g buf res => cases hf
  | done res => cases hf
  | _ => exact ⟨_,rfl⟩

theorem step_enabled {s : System} {i : ℕ} {st : Stage} (hi : s.procs[i]? = some st)
    (hf : st.finished = false) (ha : ch.addr ∉ s.ctx.live)
    (hw : st.needsWrite = true → ∀ q ∈ s.procs, q.holdsRead = false) :
    ∃ t, step sha512 qsort s (.step i ch) = some t := by
  obtain ⟨d,hd⟩ := @advance_some sha512 qsort s.ctx ch st hf ha
  refine ⟨⟨d.1,s.procs.set i d.2⟩,?_⟩
  have hlock : (st.needsWrite && s.procs.any Stage.holdsRead) = false := by
    cases hn : st.needsWrite with
    | false => rfl
    | true =>
      rw [Bool.true_and,List.any_eq_false]
      intro q hq
      simp [hw hn q hq]
  simp only [step,hi,hlock,hd,Bool.false_eq_true,if_false,Option.map_some]

theorem reader_not_finished {st : Stage} (h : st.holdsRead = true) :
    st.finished = false ∧ st.needsWrite = false := by
  cases st <;> first | exact ⟨rfl,rfl⟩ | cases h

/-- As long as a call has not returned some call can take its next step, for
every outcome of its I/O: the system does not deadlock. -/
theorem unfinished_moves (s : System) (ch : Choice) (ha : ch.addr ∉ s.ctx.live)
    (hn : ¬ Quiescent s) : ∃ i t, step sha512 qsort s (.step i ch) = some t := by
  by_cases hread : ∃ q ∈ s.procs, q.holdsRead = true
  · -- whoever holds the read lock needs no further lock
    obtain ⟨q,hq,hh⟩ := hread
    obtain ⟨i,hi⟩ := List.mem_iff_getElem?.mp hq
    obtain ⟨hf,hw⟩ := reader_not_finished hh
    exact ⟨i,step_enabled hi hf ha (fun h => by rw [hw] at h; cases h)⟩
  · obtain ⟨st,himp⟩ := not_forall.mp hn
    obtain ⟨hst,hf⟩ := Classical.not_imp.mp himp
    obtain ⟨i,hi⟩ := List.mem_iff_getElem?.mp hst
    refine ⟨i,step_enabled hi (by simpa using hf) ha ?_⟩
    intro _ q hq
    cases hh : q.holdsRead with
    | false => rfl
    | true => exact absurd ⟨q,hq,hh⟩ hread

/-! ## Nobody goes on for ever -/

def remaining (s : System) : ℕ := (s.procs.map work).sum

def Internal : Action → Prop
  | .call _ => False
  | .step _ _ => True

theorem step_remaining (hq : ∀ l, (qsort l).Perm l) (s : System) (a : Action) (t : System)
    (ha : Internal a) (hs : step sha512 qsort s a = some t) : remaining t < remaining s := by
  cases a with
  | call k => exact ha.elim
  | step i ch =>
    obtain ⟨st,d,hst,hd,rfl,_⟩ := step_step_some sha512 qsort hs
    obtain ⟨h₁,h₂⟩ := sum_parties work s.procs i st d.2 hst
    have hlt := advance_work hq hd
    simp only [remaining,h₁,h₂]
    omega

/-- Left to themselves the calls in flight all return: a run without new calls
has at most as many steps as there is work left, it can be continued, for every
outcome of the I/O, as long as a call has not returned, and some such run ends
with all calls returned. -/
theorem calls_in_flight_return (hq : ∀ l, (qsort l).Perm l) (s : System) :
    (∀ as t, (∀ a ∈ as, Internal a) → exec (step sha512 qsort) s as = some t →
      as.length ≤ remaining s ∧ (¬ Quiescent t → ∀ ch : Choice, ch.addr ∉ t.ctx.live →
        ∃ i u, step sha512 qsort t (.step i ch) = some u)) ∧
    ∃ as t, (∀ a ∈ as, Internal a) ∧ exec (step sha512 qsort) s as = some t ∧ Quiescent t := by
  constructor
  · intro as t has he
    have hlen := Descent.length_le (step sha512 qsort) Internal remaining (step_remaining hq) as s t
      has he
    exact ⟨by omega,fun hn ch ha => unfinished_moves t ch ha hn⟩
  · refine Descent.exists_final (step sha512 qsort) Internal remaining Quiescent
      (step_remaining hq) ?_ s
    intro t hn
    obtain ⟨i,u,hu⟩ := unfinished_moves t ⟨topAlloc t.ctx.live,.complete,none⟩
      (topAlloc_fresh t.ctx.live) hn
    exact ⟨.step i ⟨topAlloc t.ctx.live,.complete,none⟩,u,trivial,hu⟩

/-- The run of two writes that share their blocks, continued to its end. -/
theorem calls_in_flight_return_shared : ∃ s, Reaches sampleSha512 id sharedBlocks s ∧
    ¬ Quiescent s ∧ ∃ as t, (∀ a ∈ as, Internal a) ∧
      exec (step sampleSha512 id) s as = some t ∧ as.length ≤ 5 ∧ Quiescent t := by
  obtain ⟨s,hr,hp⟩ := exec_observe (step sampleSha512 id)
    (fun s => (¬ ∀ st ∈ s.procs, st.finished = true) ∧ (s.procs.map work).sum = 5) emptySystem
    sharedBlocks (by decide +kernel)
  obtain ⟨hn,hw⟩ := of_decide_eq_true hp
  obtain ⟨hall,as,t,has,he,ht⟩ :=
    @calls_in_flight_return sampleSha512 id (fun l => List.Perm.refl (id l)) s
  refine ⟨s,hr,hn,as,t,has,he,?_,ht⟩
  have := (hall as t has he).1
  rwa [remaining,hw] at this

def stepsOf (i : ℕ) (acts : List Action) : ℕ :=
  acts.countP (fun
    | .call _ => false
    | .step j _ => j = i)

theorem stepsOf_call (i : ℕ) (acts : List Action) (k : Call) :
    stepsOf i (acts++[.call k]) = stepsOf i acts := by
  simp [stepsOf]

theorem stepsOf_step (i : ℕ) (acts : List Action) (j : ℕ) (ch : Choice) :
    stepsOf i (acts++[.step j ch]) = stepsOf i acts+if j = i then 1 else 0 := by
  simp [stepsOf,List.countP_cons]

structure Paced (acts : List Action) (s : System) : Prop where
  count : s.procs.length = (callsOf acts).length
  fresh : ∀ i, s.procs.length ≤ i → stepsOf i acts = 0
  paced : ∀ i k st, (callsOf acts)[i]? = some k → s.procs[i]? = some st →
    stepsOf i acts+work st ≤ Call.work k

theorem paced_call {acts : List Action} {s : System} (k : Call) (h : Paced acts s) :
    Paced (acts++[.call k]) ⟨s.ctx,s.procs++[k.start]⟩ := by
  refine ⟨by rw [callsOf_call]; simp [h.count],?_,?_⟩
  · intro i hi
    rw [stepsOf_call]
    simp only [List.length_append,List.length_singleton] at hi
    exact h.fresh i (by omega)
  · intro i k' st hk hst
    rw [stepsOf_call]
    rcases known_or_new h.count hk hst with ⟨hk,hst⟩ | ⟨rfl,rfl,rfl⟩
    · exact h.paced i k' st hk hst
    · rw [h.fresh _ (Nat.le_refl _),Nat.zero_add]
      exact start_work k'

theorem paced_step (hq : ∀ l, (qsort l).Perm l) {acts : List Action} {s : System} {j : ℕ}
    {st : Stage} {t : Context × Stage} (h : Paced acts s) (hst : s.procs[j]? = some st)
    (ht : advance sha512 qsort ch s.ctx st = some t) :
    Paced (acts++[.step j ch]) ⟨t.1,s.procs.set j t.2⟩ := by
  have hj : j < s.procs.length := (List.getElem?_eq_some_iff.mp hst).1
  refine ⟨by rw [callsOf_step]; simp [h.count],?_,?_⟩
  · intro i hi
    rw [List.length_set] at hi
    rw [stepsOf_step,if_neg (by omega),h.fresh i hi]
  · intro i k q hk hq'
    rw [callsOf_step] at hk
    rw [stepsOf_step]
    by_cases hij : j = i
    · subst hij
      rw [List.getElem?_set_self hj] at hq'
      cases hq'
      have := h.paced j k st hk hst
      have := advance_work hq ht
      rw [if_pos rfl]
      omega
    · rw [List.getElem?_set_ne hij] at hq'
      rw [if_neg hij]
      exact h.paced i k q hk hq'

theorem paced_run (hq : ∀ l, (qsort l).Perm l) {acts : List Action} {s : System}
    (hr : Reaches sha512 qsort acts s) : Paced acts s := by
  induction acts using List.reverseRecOn generalizing s with
  | nil =>
    cases hr
    exact ⟨rfl,fun _ _ => rfl,by simp [callsOf]⟩
  | append_singleton as a ih =>
    obtain ⟨m,hm,hs⟩ := exec_snoc_some _ hr
    cases a with
    | call k =>
      rw [step_call_some sha512 qsort hs]
      exact paced_call k (ih hm)
    | step j ch =>
      obtain ⟨st,t,hst,ht,rfl,_⟩ := step_step_some sha512 qsort hs
      exact paced_step hq (ih hm) hst ht

/-- However the calls interleave and however their I/O ends, a call takes no
more steps than `Call.work`, which is linear in the blocks of its own request. -/
theorem call_steps_bounded (hq : ∀ l, (qsort l).Perm l) (acts : List Action) (s : System)
    (hr : Reaches sha512 qsort acts s) (i : ℕ) (k : Call) (hk : (callsOf acts)[i]? = some k) :
    stepsOf i acts ≤ Call.work k := by
  have h := paced_run hq hr
  have hi : i < s.procs.length := by
    rw [h.count]
    exact (List.getElem?_eq_some_iff.mp hk).1
  have := h.paced i k _ hk (List.getElem?_eq_getElem hi)
  omega

theorem call_steps_bounded_stored : ∃ s, Reaches sampleSha512 id storeA s ∧
    stepsOf 0 storeA = 8 ∧
    stepsOf 0 storeA ≤ Call.work (.write (fillReq fileA 65 0 1 one_block_fits block0_ends)) := by
  obtain ⟨s,hr,_⟩ := exec_observe (step sampleSha512 id) (fun _ => true) emptySystem storeA
    (by decide +kernel)
  exact ⟨s,hr,by decide,call_steps_bounded (fun l => List.Perm.refl (id l)) storeA s hr 0 _ rfl⟩

end ArchivalDedup.Progress
