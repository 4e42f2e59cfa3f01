import ArchivalDedup.FlushRuns
import ArchivalDedup.ReferenceSafety

/-!
# Coalesced flushing is one `pwrite` per MISS

A run is written from the payload of its first entry only. In a plan that
passes 1 and 1.5 build, neighbouring entries have neighbouring payloads, so one
`pwrite` of the run leaves what one `pwrite` for each of its MISSes would leave.
-/

set_option autoImplicit false

namespace ArchivalDedup.CoalescedFlush
open ArchivalDedup.ByteMap ArchivalDedup.MetaIndex ArchivalDedup.WriteDedup
open ArchivalDedup.PlanShape ArchivalDedup.Ledger ArchivalDedup.LedgerPasses
open ArchivalDedup.ThreadLedger ArchivalDedup.FlushRuns ArchivalDedup.ReferenceSafety

variable {sha512 : List UInt8 → Hash} {r : WriteReq} {plan : List PlanEntry}

/-- The loop states of pass 1. Between two blocks other threads may run, so
every block meets a context of its own. -/
inductive Pass1Run (sha512 : List UInt8 → Hash) (r : WriteReq) : Pass1 → Prop where
  | start : Pass1Run sha512 r Pass1.start
  | block (c : Context) (a : Ptr) {p : Pass1} :
      Pass1Run sha512 r p → Pass1Run sha512 r (pass1Block sha512 r a c p).2

def flushSingly (r : WriteReq) : List PlanEntry → MasterFile → MasterFile
  | [], f => f
  | e::es, f =>
    match e.kind with
    | .miss => flushSingly r es (f.write (e.masterBlk*blockSize)
        ((r.buf.drop e.payload).take blockSize))
    | .hit => flushSingly r es f

def runsFrom : ℕ → List PlanEntry → List (List PlanEntry)
  | 0, _ => []
  | fuel+1, rest =>
    match nextRun rest with
    | none => []
    | some (skip,_,len) => (rest.drop skip).take len::runsFrom fuel (rest.drop (skip+len))

def runs (plan : List PlanEntry) : List (List PlanEntry) := runsFrom plan.length plan

theorem write_nil (f : MasterFile) (off : ℕ) : f.write off [] = f := by
  unfold MasterFile.write
  rw [splice_nil,if_pos rfl]

theorem write_append (f : MasterFile) (off : ℕ) (xs ys : List UInt8) :
    f.write off (xs++ys) = (f.write off xs).write (off+xs.length) ys := by
  by_cases hx : xs = []
  · subst hx
    rw [write_nil]
    rfl
  · by_cases hy : ys = []
    · subst hy
      rw [write_nil,List.append_nil]
    · simp only [MasterFile.write,splice_append,if_neg hy,List.append_eq_nil_iff,hx,
        false_and,if_false,List.length_append,MasterFile.mk.injEq,true_and]
      omega

theorem flushSingly_append (xs ys : List PlanEntry) (f : MasterFile) :
    flushSingly r (xs++ys) f = flushSingly r ys (flushSingly r xs f) := by
  induction xs generalizing f with
  | nil => rfl
  | cons e es ih =>
    cases hk : e.kind with
    | hit => simp only [List.cons_append,flushSingly,hk,ih]
    | miss => simp only [List.cons_append,flushSingly,hk,ih]

theorem flushSingly_hits (xs : List PlanEntry) (f : MasterFile) (h : ∀ e ∈ xs, e.kind = .hit) :
    flushSingly r xs f = f := by
  induction xs generalizing f with
  | nil => rfl
  | cons e es ih =>
    simp only [flushSingly,h e (by simp)]
    exact ih f (fun g hg => h g (by simp [hg]))

/-- The entries stand for consecutive blocks of the buffer and for consecutive
slots. -/
def Adjoining (r : WriteReq) (slot pay : ℕ) (xs : List PlanEntry) : Prop :=
  (∀ t g, xs[t]? = some g → g.kind = .miss ∧ g.masterBlk = slot+t ∧ g.payload = pay+t*blockSize) ∧
    pay+xs.length*blockSize ≤ r.buf.length

theorem flushSingly_adjoining {slot pay : ℕ} {xs : List PlanEntry} (f : MasterFile)
    (h : Adjoining r slot pay xs) : flushSingly r xs f =
      f.write (slot*blockSize) ((r.buf.drop pay).take (xs.length*blockSize)) := by
  induction xs generalizing slot pay f with
  | nil => rw [List.length_nil,Nat.zero_mul,List.take_zero,write_nil,flushSingly]
  | cons e es ih =>
    obtain ⟨hent,hlen⟩ := h
    obtain ⟨hk,hs,hp⟩ := hent 0 e rfl
    rw [List.length_cons,Nat.succ_mul] at hlen
    have hrest : Adjoining r (slot+1) (pay+blockSize) es := by
      refine ⟨?_,by omega⟩
      intro t g hg
      obtain ⟨h₁,h₂,h₃⟩ := hent (t+1) g (by simpa using hg)
      rw [Nat.succ_mul] at h₃
      exact ⟨h₁,by omega,by omega⟩
    have hsplit : (r.buf.drop pay).take ((es.length+1)*blockSize) =
        (r.buf.drop pay).take blockSize++
          (r.buf.drop (pay+blockSize)).take (es.length*blockSize) := by
      rw [Nat.succ_mul,Nat.add_comm (es.length*blockSize),List.take_add,List.drop_drop]
    have hfirst : ((r.buf.drop pay).take blockSize).length = blockSize := by
      rw [List.length_take,List.length_drop]
      omega
    rw [Nat.add_zero] at hs
    rw [Nat.zero_mul,Nat.add_zero] at hp
    simp only [flushSingly,hk,hs,hp,List.length_cons]
    rw [ih _ hrest,hsplit,write_append,hfirst,Nat.succ_mul]

section Runs

variable {i skip len : ℕ} {e : PlanEntry}

theorem run_adjoining (hform : Formed sha512 r plan) (hlen : plan.length = r.numBlocks)
    (h : nextRun (plan.drop i) = some (skip,e,len)) :
    Adjoining r e.masterBlk e.payload (((plan.drop i).drop skip).take len) ∧
      (((plan.drop i).drop skip).take len).length = len := by
  obtain ⟨_,_,hle,hstart,hrun⟩ := nextRun_some h
  rw [List.length_drop] at hle
  rw [drop_getElem] at hstart
  obtain ⟨_,hpay,_⟩ := hform _ e hstart
  have hlength : (((plan.drop i).drop skip).take len).length = len := by
    rw [List.length_take,List.length_drop,List.length_drop]
    omega
  refine ⟨⟨?_,?_⟩,hlength⟩
  · intro t g hg
    have ht : t < len := by
      have := (List.getElem?_eq_some_iff.mp hg).1
      omega
    rw [List.getElem?_take_of_lt ht,List.getElem?_drop] at hg
    obtain ⟨g',hg',hk,hs⟩ := hrun t ht
    rw [hg] at hg'
    cases hg'
    rw [drop_getElem] at hg
    obtain ⟨_,hp,_⟩ := hform _ g hg
    refine ⟨hk,hs,?_⟩
    rw [hp,hpay,←Nat.add_assoc,Nat.add_mul (i+skip)]
  · rw [hlength,hpay,←Nat.add_mul]
    refine (Nat.mul_le_mul_right _ ?_).trans (Nat.div_mul_le_self r.buf.length blockSize)
    change i+skip+len ≤ r.numBlocks
    omega

theorem flushSingly_run (hform : Formed sha512 r plan) (hlen : plan.length = r.numBlocks)
    (h : nextRun (plan.drop i) = some (skip,e,len)) (f : MasterFile) :
    flushSingly r (((plan.drop i).drop skip).take len) f =
      f.write (e.masterBlk*blockSize) ((r.buf.drop e.payload).take (len*blockSize)) := by
  obtain ⟨hadj,hl⟩ := run_adjoining hform hlen h
  rw [flushSingly_adjoining f hadj,hl]

theorem flushSingly_next (hform : Formed sha512 r plan) (hlen : plan.length = r.numBlocks)
    (h : nextRun (plan.drop i) = some (skip,e,len)) (f : MasterFile) :
    flushSingly r (plan.drop i) f = flushSingly r (plan.drop (i+skip+len))
      (f.write (e.masterBlk*blockSize) ((r.buf.drop e.payload).take (len*blockSize))) := by
  obtain ⟨hhits,_,_,_,_⟩ := nextRun_some h
  have hskip : flushSingly r ((plan.drop i).take skip) f = f := by
    refine flushSingly_hits _ f ?_
    intro g hg
    obtain ⟨t,ht⟩ := List.mem_iff_getElem?.mp hg
    have hlt : t < skip := by
      have := (List.getElem?_eq_some_iff.mp ht).1
      rw [List.length_take] at this
      omega
    rw [List.getElem?_take_of_lt hlt] at ht
    exact hhits t hlt g ht
  have hsplit : plan.drop i = (plan.drop i).take skip++
      (((plan.drop i).drop skip).take len++plan.drop (i+skip+len)) := by
    rw [←List.drop_drop,←List.drop_drop,List.take_append_drop,List.take_append_drop]
  rw [hsplit,flushSingly_append,hskip,flushSingly_append,flushSingly_run hform hlen h]

theorem flushRest_singly (hform : Formed sha512 r plan) (hlen : plan.length = r.numBlocks)
    {io : ℕ → PwriteResult} (hio : ∀ j, io j = .complete) (fuel j i : ℕ) (f : MasterFile)
    (hfuel : plan.length-i ≤ fuel) :
    flushRest r io fuel j (plan.drop i) f = (flushSingly r (plan.drop i) f,none) := by
  induction fuel generalizing j i f with
  | zero =>
    rw [List.drop_eq_nil_iff.mpr (by omega)]
    rfl
  | succ fuel ih =>
    unfold flushRest
    cases hrun : nextRun (plan.drop i) with
    | none => rw [flushSingly_hits _ f (nextRun_none hrun)]
    | some t =>
      obtain ⟨skip,e,len⟩ := t
      obtain ⟨_,hpos,_,_,_⟩ := nextRun_some hrun
      rw [flushSingly_next hform hlen hrun,hio j]
      simp only [pwriteRun]
      rw [List.drop_drop,←Nat.add_assoc]
      exact ih (j+1) (i+skip+len) _ (by omega)

theorem run_other (hform : Formed sha512 r plan) (hlen : plan.length = r.numBlocks)
    (h : nextRun (plan.drop i) = some (skip,e,len)) {q : ℕ}
    (hq : q ∉ missSlots (((plan.drop i).drop skip).take len)) :
    q < e.masterBlk ∨ e.masterBlk+len ≤ q := by
  obtain ⟨⟨hent,_⟩,hl⟩ := run_adjoining hform hlen h
  by_contra hin
  have hlt : q-e.masterBlk < (((plan.drop i).drop skip).take len).length := by omega
  obtain ⟨hk,hs,_⟩ := hent _ _ (List.getElem?_eq_getElem hlt)
  exact hq (mem_missSlots.mpr ⟨_,List.getElem_mem hlt,hk,by omega⟩)

theorem pwriteRun_failed (r : WriteReq) (e : PlanEntry) (len : ℕ) {res : PwriteResult}
    (hres : res ≠ .complete) (f : MasterFile) : ∃ f' err, pwriteRun r e len res f = (f',some err) := by
  cases res with
  | complete => exact absurd rfl hres
  | short w => exact ⟨_,_,rfl⟩
  | error code w => exact ⟨_,_,rfl⟩

/-- The first `n` runs complete and the next one not: the flush ends there, and
changes only slots of the runs so far. -/
theorem flushRest_stops (hform : Formed sha512 r plan) (hlen : plan.length = r.numBlocks)
    {io : ℕ → PwriteResult} (fuel j n i : ℕ) (f : MasterFile)
    (hn : n < (runsFrom fuel (plan.drop i)).length) (hio : ∀ k < n, io (j+k) = .complete)
    (hbad : io (j+n) ≠ .complete) : (flushRest r io fuel j (plan.drop i) f).2 ≠ none ∧
      (∀ io' : ℕ → PwriteResult, (∀ k ≤ n, io' (j+k) = io (j+k)) →
        flushRest r io' fuel j (plan.drop i) f = flushRest r io fuel j (plan.drop i) f) ∧
      ∀ q ∉ missSlots ((runsFrom fuel (plan.drop i)).take (n+1)).flatten,
        (flushRest r io fuel j (plan.drop i) f).1.block q = f.block q := by
  induction fuel generalizing j n i f with
  | zero => simp [runsFrom] at hn
  | succ fuel ih =>
    cases hrun : nextRun (plan.drop i) with
    | none =>
      simp only [runsFrom,hrun] at hn
      exact absurd hn (Nat.not_lt_zero n)
    | some t =>
      obtain ⟨skip,e,len⟩ := t
      have hruns : runsFrom (fuel+1) (plan.drop i) = ((plan.drop i).drop skip).take len::
          runsFrom fuel (plan.drop (i+skip+len)) := by
        simp only [runsFrom,hrun,List.drop_drop,←Nat.add_assoc]
      rw [hruns] at hn ⊢
      cases n with
      | zero =>
        rw [Nat.add_zero] at hbad
        obtain ⟨f',err,hw⟩ := pwriteRun_failed r e len hbad f
        have hflush : ∀ io' : ℕ → PwriteResult, io' j = io j →
            flushRest r io' (fuel+1) j (plan.drop i) f = (f',some err) := by
          intro io' heq
          simp only [flushRest,hrun,heq,hw]
        refine ⟨?_,?_,?_⟩
        · rw [hflush io rfl]
          simp
        · intro io' hsame
          rw [hflush io rfl,hflush io' (hsame 0 (Nat.le_refl 0))]
        · intro q hq
          rw [hflush io rfl]
          have hother := pwriteRun_other r e len (io j) f
            (run_other hform hlen hrun (by simpa using hq))
          rwa [hw] at hother
      | succ n =>
        have hfirst : io j = .complete := hio 0 (Nat.succ_pos n)
        set f' := f.write (e.masterBlk*blockSize) ((r.buf.drop e.payload).take (len*blockSize))
          with hf'
        have hflush : ∀ io' : ℕ → PwriteResult, io' j = io j →
            flushRest r io' (fuel+1) j (plan.drop i) f =
              flushRest r io' fuel (j+1) (plan.drop (i+skip+len)) f' := by
          intro io' heq
          simp only [flushRest,hrun,heq,hfirst,pwriteRun,List.drop_drop,←Nat.add_assoc,hf']
        have hshift : ∀ k, j+(k+1) = j+1+k := by omega
        obtain ⟨h₁,h₂,h₃⟩ := ih (j+1) n (i+skip+len) f' (by simpa using hn)
          (fun k hk => hshift k ▸ hio (k+1) (by omega)) (hshift n ▸ hbad)
        rw [hflush io rfl]
        refine ⟨h₁,?_,?_⟩
        · intro io' hsame
          rw [hflush io' (hsame 0 (by omega))]
          exact h₂ io' (fun k hk => hshift k ▸ hsame (k+1) (by omega))
        · intro q hq
          rw [List.take_succ_cons,List.flatten_cons,missSlots,List.filterMap_append,
            List.mem_append,not_or] at hq
          rw [h₃ q hq.2]
          have hother := pwriteRun_other r e len .complete f (run_other hform hlen hrun hq.1)
          exact hother

end Runs

theorem pass1Run_ok {p : Pass1} (h : Pass1Run sha512 r p) : Pass1Ok sha512 r p := by
  induction h with
  | start => exact pass1_start
  | block c a _ ih => exact pass1Block_ok a ih

theorem flushPlan_singly (hform : Formed sha512 r plan) (hlen : plan.length = r.numBlocks)
    (io : ℕ → PwriteResult) (hio : ∀ j, io j = .complete) (f : MasterFile) :
    flushPlan r io plan f = (flushSingly r plan f,none) := by
  have h := flushRest_singly hform hlen hio plan.length 0 0 f (by omega)
  rwa [List.drop_zero] at h

end ArchivalDedup.CoalescedFlush
