import ArchivalDedup.PlanShape
import ArchivalDedup.LedgerMoves

/-!
# The runs that `flush_plan` writes

A run starts at the first MISS not yet visited and goes on while the slots
count up. A `pwrite` changes the slots of its own run at most, and a complete
one leaves in each of them the block of the request that belongs there.
-/

set_option autoImplicit false

namespace ArchivalDedup.FlushRuns
open ArchivalDedup.ByteMap ArchivalDedup.ConsecutiveRun ArchivalDedup.MetaIndex
open ArchivalDedup.WriteDedup ArchivalDedup.PlanShape ArchivalDedup.Ledger
open ArchivalDedup.LedgerMoves

variable {sha512 : List UInt8 → Hash} {r : WriteReq} {plan : List PlanEntry}

/-- The MISSes before index `i` hold their block of the request. -/
def Flushed (f : MasterFile) (r : WriteReq) (plan : List PlanEntry) (i : ℕ) : Prop :=
  ∀ j e, j < i → plan[j]? = some e → e.kind = .miss → f.block e.masterBlk = r.block j

def Reached (f : MasterFile) (plan : List PlanEntry) (i : ℕ) : Prop :=
  ∀ j e, j < i → plan[j]? = some e → e.kind = .miss → (e.masterBlk+1)*blockSize ≤ f.fileSize

theorem missSlot_some {e : PlanEntry} {m : ℕ} :
    missSlot e = some m ↔ e.kind = .miss ∧ e.masterBlk = m := by
  unfold missSlot
  cases hk : e.kind <;> simp

theorem mem_missSlots {m : ℕ} :
    m ∈ missSlots plan ↔ ∃ e ∈ plan, e.kind = .miss ∧ e.masterBlk = m := by
  simp [missSlots,missSlot_some]

theorem missSlots_distinct (h : (missSlots plan).Nodup) {i j : ℕ} {e f : PlanEntry}
    (hi : plan[i]? = some e) (hj : plan[j]? = some f) (he : e.kind = .miss) (hf : f.kind = .miss)
    (hs : e.masterBlk = f.masterBlk) : i = j := by
  induction plan generalizing i j with
  | nil => simp at hi
  | cons m ms ih =>
    have hms : (missSlots ms).Nodup := by
      cases hk : m.kind with
      | hit => rwa [missSlots_hit hk] at h
      | miss =>
        rw [missSlots_miss hk] at h
        exact (List.nodup_cons.mp h).2
    have hhead : ∀ {k : ℕ} {g : PlanEntry}, ms[k]? = some g → g.kind = .miss → m.kind = .miss →
        m.masterBlk ≠ g.masterBlk := by
      intro k g hg hgk hmk heq
      rw [missSlots_miss hmk] at h
      exact (List.nodup_cons.mp h).1 (mem_missSlots.mpr ⟨g,List.mem_of_getElem? hg,hgk,heq.symm⟩)
    cases i with
    | zero =>
      cases j with
      | zero => rfl
      | succ j =>
        have hm : m = e := by simpa using hi
        exact absurd hs (hm ▸ hhead (by simpa using hj) hf (hm ▸ he))
    | succ i =>
      cases j with
      | zero =>
        have hm : m = f := by simpa using hj
        exact absurd hs.symm (hm ▸ hhead (by simpa using hi) he (hm ▸ hf))
      | succ j => exact congrArg (·+1) (ih hms (by simpa using hi) (by simpa using hj))

theorem nextRun_hit {e : PlanEntry} (es : List PlanEntry) (he : e.kind = .hit) :
    nextRun (e::es) = (nextRun es).map (fun t => (t.1+1,t.2)) := by
  simp only [nextRun,List.takeWhile_cons,he,decide_true,if_true,List.length_cons,
    List.drop_succ_cons]
  split <;> rfl

theorem nextRun_miss {e : PlanEntry} (es : List PlanEntry) (he : e.kind = .miss) :
    nextRun (e::es) = some (0,e,consecutive missSlot e.masterBlk es+1) := by
  simp [nextRun,he]

/-- What the next run is: HITs up to its start, then MISSes on slots that
count up. -/
theorem nextRun_some {rest : List PlanEntry} {skip len : ℕ} {e : PlanEntry}
    (h : nextRun rest = some (skip,e,len)) :
    (∀ t < skip, ∀ g, rest[t]? = some g → g.kind = .hit) ∧ 0 < len ∧ skip+len ≤ rest.length ∧
      rest[skip]? = some e ∧
      ∀ t < len, ∃ g, rest[skip+t]? = some g ∧ g.kind = .miss ∧ g.masterBlk = e.masterBlk+t := by
  induction rest generalizing skip with
  | nil => cases h
  | cons x xs ih =>
    cases hk : x.kind with
    | hit =>
      rw [nextRun_hit xs hk] at h
      obtain ⟨⟨skip',e',len'⟩,h',heq⟩ := Option.map_eq_some_iff.mp h
      cases heq
      obtain ⟨h₁,h₂,h₃,h₄,h₅⟩ := ih h'
      refine ⟨?_,h₂,?_,?_,?_⟩
      · intro t ht g hg
        cases t with
        | zero =>
          have hx : x = g := by simpa using hg
          exact hx ▸ hk
        | succ t => exact h₁ t (by omega) g (by simpa using hg)
      · simp only [List.length_cons]
        omega
      · simpa using h₄
      · intro t ht
        have := h₅ t ht
        rwa [show skip'+1+t = skip'+t+1 by omega,List.getElem?_cons_succ]
    | miss =>
      rw [nextRun_miss xs hk] at h
      obtain ⟨rfl,rfl,rfl⟩ : 0 = skip ∧ x = e ∧ consecutive missSlot x.masterBlk xs+1 = len := by
        simpa using h
      have hle := consecutive_le missSlot x.masterBlk xs
      refine ⟨?_,Nat.succ_pos _,?_,rfl,?_⟩
      · intro t ht
        omega
      · simp only [List.length_cons]
        omega
      · intro t ht
        have hrun := run_key missSlot x xs x.masterBlk (missSlot_some.mpr ⟨hk,rfl⟩) t ht
        obtain ⟨g,hg,hgk⟩ := Option.bind_eq_some_iff.mp hrun
        rw [Nat.zero_add]
        exact ⟨g,hg,missSlot_some.mp hgk⟩

theorem nextRun_none {rest : List PlanEntry} (h : nextRun rest = none) :
    ∀ e ∈ rest, e.kind = .hit := by
  induction rest with
  | nil => simp
  | cons x xs ih =>
    cases hk : x.kind with
    | hit =>
      rw [nextRun_hit xs hk,Option.map_eq_none_iff] at h
      intro e he
      rcases List.mem_cons.mp he with rfl | he
      · exact hk
      · exact ih h e he
    | miss =>
      rw [nextRun_miss xs hk] at h
      cases h

theorem block_write_other (f : MasterFile) (slot len : ℕ) (bytes : List UInt8) {q : ℕ}
    (hb : bytes.length ≤ len*blockSize) (hq : q < slot ∨ slot+len ≤ q) :
    (f.write (slot*blockSize) bytes).block q = f.block q := by
  refine slice_splice_disjoint f.bytes _ bytes _ _ ?_
  rcases hq with hq | hq
  · left
    calc q*blockSize+blockSize = (q+1)*blockSize := (Nat.succ_mul q blockSize).symm
      _ ≤ slot*blockSize := Nat.mul_le_mul_right _ hq
  · right
    calc slot*blockSize+bytes.length ≤ slot*blockSize+len*blockSize := by omega
      _ = (slot+len)*blockSize := (Nat.add_mul ..).symm
      _ ≤ q*blockSize := Nat.mul_le_mul_right _ hq

theorem block_write_own (f : MasterFile) (slot t : ℕ) (bytes : List UInt8)
    (hb : (t+1)*blockSize ≤ bytes.length) : (f.write (slot*blockSize) bytes).block (slot+t) =
      (bytes.drop (t*blockSize)).take blockSize := by
  unfold MasterFile.block MasterFile.write
  rw [Nat.add_mul]
  refine slice_splice_inside f.bytes _ bytes _ _ ?_
  calc t*blockSize+blockSize = (t+1)*blockSize := (Nat.succ_mul t blockSize).symm
    _ ≤ bytes.length := hb

theorem pwriteRun_other (r : WriteReq) (e : PlanEntry) (len : ℕ) (res : PwriteResult)
    (f : MasterFile) {q : ℕ} (hq : q < e.masterBlk ∨ e.masterBlk+len ≤ q) :
    (pwriteRun r e len res f).1.block q = f.block q := by
  cases res with
  | complete => exact block_write_other f _ len _ (List.length_take_le ..) hq
  | short w =>
    refine block_write_other f _ len _ ?_ hq
    have := List.length_take_le (len*blockSize-1) w
    omega
  | error code w => exact block_write_other f _ len _ (List.length_take_le ..) hq

theorem pwriteRun_complete {r : WriteReq} {e : PlanEntry} {len : ℕ} {res : PwriteResult}
    {f f' : MasterFile} (h : pwriteRun r e len res f = (f',none)) :
    f' = f.write (e.masterBlk*blockSize) ((r.buf.drop e.payload).take (len*blockSize)) := by
  cases res <;> cases h
  rfl

theorem pwriteRun_own {r : WriteReq} {e : PlanEntry} {len i t : ℕ} {f : MasterFile}
    (hp : e.payload = i*blockSize) (ht : t < len) (hlen : (i+len)*blockSize ≤ r.buf.length) :
    (f.write (e.masterBlk*blockSize) ((r.buf.drop e.payload).take (len*blockSize))).block
      (e.masterBlk+t) = r.block (i+t) := by
  have hle : (t+1)*blockSize ≤ len*blockSize := Nat.mul_le_mul_right _ ht
  have hadd : (i+len)*blockSize = i*blockSize+len*blockSize := Nat.add_mul ..
  rw [block_write_own]
  · rw [hp,List.drop_take,List.drop_drop,List.take_take,WriteReq.block,←Nat.add_mul]
    congr 1
    have hs : (t+1)*blockSize = t*blockSize+blockSize := Nat.succ_mul ..
    omega
  · simp only [List.length_take,List.length_drop,hp]
    omega

theorem write_fileSize (f : MasterFile) (off : ℕ) (bytes : List UInt8) :
    f.fileSize ≤ (f.write off bytes).fileSize ∧
      (f.write off bytes).fileSize ≤ max f.fileSize (off+bytes.length) := by
  unfold MasterFile.write
  dsimp only
  split_ifs <;> omega

theorem pwriteRun_fileSize (r : WriteReq) (e : PlanEntry) (len : ℕ) (res : PwriteResult)
    (f : MasterFile) : f.fileSize ≤ (pwriteRun r e len res f).1.fileSize ∧
      (pwriteRun r e len res f).1.fileSize ≤ max f.fileSize ((e.masterBlk+len)*blockSize) := by
  have hbound : ∀ bytes : List UInt8, bytes.length ≤ len*blockSize →
      f.fileSize ≤ (f.write (e.masterBlk*blockSize) bytes).fileSize ∧
        (f.write (e.masterBlk*blockSize) bytes).fileSize ≤
          max f.fileSize ((e.masterBlk+len)*blockSize) := by
    intro bytes hb
    obtain ⟨h₁,h₂⟩ := write_fileSize f (e.masterBlk*blockSize) bytes
    have hadd : (e.masterBlk+len)*blockSize = e.masterBlk*blockSize+len*blockSize := Nat.add_mul ..
    omega
  cases res with
  | complete => exact hbound _ (List.length_take_le ..)
  | short w =>
    apply hbound
    have := List.length_take_le (len*blockSize-1) w
    omega
  | error code w => exact hbound _ (List.length_take_le ..)

section Plan

variable {i skip len : ℕ} {e : PlanEntry}

theorem drop_getElem {t : ℕ} : (plan.drop i)[t]? = plan[i+t]? := List.getElem?_drop

theorem run_slot (h : nextRun (plan.drop i) = some (skip,e,len)) {q : ℕ}
    (hq : ¬ (q < e.masterBlk ∨ e.masterBlk+len ≤ q)) : ∃ g, plan[i+skip+(q-e.masterBlk)]? = some g ∧
      g.kind = .miss ∧ g.masterBlk = q := by
  obtain ⟨_,_,_,_,hrun⟩ := nextRun_some h
  obtain ⟨g,hg,hk,hs⟩ := hrun (q-e.masterBlk) (by omega)
  rw [drop_getElem,←Nat.add_assoc] at hg
  exact ⟨g,hg,hk,by omega⟩

theorem pwriteRun_spares (h : nextRun (plan.drop i) = some (skip,e,len)) (res : PwriteResult)
    (f : MasterFile) {q : ℕ} (hq : q ∉ missSlots plan) :
    (pwriteRun r e len res f).1.block q = f.block q := by
  apply pwriteRun_other
  by_contra hin
  obtain ⟨g,hg,hk,hs⟩ := run_slot h hin
  exact hq (mem_missSlots.mpr ⟨g,List.mem_of_getElem? hg,hk,hs⟩)

/-- One complete `pwrite` extends the flushed part of the plan by its run. -/
theorem flushed_run (hform : Formed sha512 r plan) (hlen : plan.length = r.numBlocks)
    (hnd : (missSlots plan).Nodup) (h : nextRun (plan.drop i) = some (skip,e,len)) {f f' : MasterFile}
    {res : PwriteResult} (hw : pwriteRun r e len res f = (f',none)) (hf : Flushed f r plan i) :
    Flushed f' r plan (i+skip+len) := by
  obtain ⟨hhits,hpos,hle,hstart,hrun⟩ := nextRun_some h
  rw [drop_getElem] at hstart
  obtain ⟨_,hpay,_⟩ := hform _ e hstart
  have hend : (i+skip+len)*blockSize ≤ r.buf.length := by
    have : i+skip+len ≤ r.numBlocks := by
      rw [List.length_drop] at hle
      omega
    exact (Nat.mul_le_mul_right _ this).trans (Nat.div_mul_le_self _ _)
  intro j g hj hg hk
  by_cases hin : i+skip ≤ j
  · obtain ⟨g',hg',hk',hs'⟩ := hrun (j-(i+skip)) (by omega)
    rw [drop_getElem,show i+(skip+(j-(i+skip))) = j by omega,hg] at hg'
    cases hg'
    rw [hs',pwriteRun_complete hw,pwriteRun_own hpay (by omega) hend]
    congr 1
    omega
  · by_cases hji : j < i
    · have hother := pwriteRun_other r e len res f (q := g.masterBlk) (by
        by_contra hq
        obtain ⟨m,hm,hmk,hms⟩ := run_slot h hq
        have := missSlots_distinct hnd hg hm hk hmk hms.symm
        omega)
      rw [hw] at hother
      rw [hother]
      exact hf j g hji hg hk
    · have := hhits (j-i) (by omega) g (by rw [drop_getElem,show i+(j-i) = j by omega]; exact hg)
      rw [this] at hk
      cases hk

theorem reached_run (hform : Formed sha512 r plan) (hlen : plan.length = r.numBlocks)
    (h : nextRun (plan.drop i) = some (skip,e,len)) {f f' : MasterFile} {res : PwriteResult}
    (hw : pwriteRun r e len res f = (f',none)) (hf : Reached f plan i) :
    Reached f' plan (i+skip+len) := by
  obtain ⟨hhits,hpos,hle,hstart,hrun⟩ := nextRun_some h
  rw [drop_getElem] at hstart
  obtain ⟨_,hpay,_⟩ := hform _ e hstart
  have hgrow := (pwriteRun_fileSize r e len res f).1
  rw [hw] at hgrow
  have hbytes : ((r.buf.drop e.payload).take (len*blockSize)).length = len*blockSize := by
    have hend : (i+skip+len)*blockSize ≤ r.buf.length := by
      have : i+skip+len ≤ r.numBlocks := by
        rw [List.length_drop] at hle
        omega
      exact (Nat.mul_le_mul_right _ this).trans (Nat.div_mul_le_self _ _)
    have hadd : (i+skip+len)*blockSize = (i+skip)*blockSize+len*blockSize := Nat.add_mul ..
    rw [List.length_take,List.length_drop,hpay]
    omega
  have hreach : (e.masterBlk+len)*blockSize ≤ f'.fileSize := by
    rw [pwriteRun_complete hw]
    unfold MasterFile.write
    dsimp only
    rw [if_neg]
    · have hadd : (e.masterBlk+len)*blockSize = e.masterBlk*blockSize+len*blockSize :=
        Nat.add_mul ..
      rw [hbytes]
      omega
    · intro hnil
      rw [hnil] at hbytes
      have := Nat.mul_pos hpos blockSize_pos
      simp only [List.length_nil] at hbytes
      omega
  intro j g hj hg hk
  by_cases hin : i+skip ≤ j
  · obtain ⟨g',hg',hk',hs'⟩ := hrun (j-(i+skip)) (by omega)
    rw [drop_getElem,show i+(skip+(j-(i+skip))) = j by omega,hg] at hg'
    cases hg'
    exact (Nat.mul_le_mul_right _ (by omega)).trans hreach
  · by_cases hji : j < i
    · exact (hf j g hji hg hk).trans hgrow
    · have := hhits (j-i) (by omega) g (by rw [drop_getElem,show i+(j-i) = j by omega]; exact hg)
      rw [this] at hk
      cases hk

theorem miss_before (h : nextRun (plan.drop i) = none) {j : ℕ} {g : PlanEntry}
    (hg : plan[j]? = some g) (hk : g.kind = .miss) : j < i := by
  by_contra hji
  have hmem : g ∈ plan.drop i := by
    refine List.mem_of_getElem? (i := j-i) ?_
    rw [drop_getElem,show i+(j-i) = j by omega]
    exact hg
  rw [nextRun_none h g hmem] at hk
  cases hk

theorem reached_end (h : nextRun (plan.drop i) = none) {f : MasterFile} (hf : Reached f plan i) :
    Reached f plan plan.length := by
  intro j g _ hg hk
  exact hf j g (miss_before h hg hk) hg hk

theorem flushed_end (h : nextRun (plan.drop i) = none) {f : MasterFile} (hf : Flushed f r plan i) :
    Flushed f r plan plan.length := by
  intro j g _ hg hk
  exact hf j g (miss_before h hg hk) hg hk

/-- What `flush_plan` does to the file, from entry `i` on. -/
structure FlushSpec (r : WriteReq) (plan : List PlanEntry) (f : MasterFile)
    (t : MasterFile × Option Errno) : Prop where
  spares : ∀ q ∉ missSlots plan, t.1.block q = f.block q
  flushed : t.2 = none → Flushed t.1 r plan plan.length
  reached : t.2 = none → Reached t.1 plan plan.length
  grows : f.fileSize ≤ t.1.fileSize
  within : ∀ n, (∀ q ∈ missSlots plan, q < n) → t.1.fileSize ≤ max f.fileSize (n*blockSize)

theorem flushRest_spec (hform : Formed sha512 r plan) (hlen : plan.length = r.numBlocks)
    (hnd : (missSlots plan).Nodup) (io : ℕ → PwriteResult) (fuel j i : ℕ) (f : MasterFile)
    (hfuel : plan.length-i ≤ fuel) (hf : Flushed f r plan i) (hr : Reached f plan i) :
    FlushSpec r plan f (flushRest r io fuel j (plan.drop i) f) := by
  induction fuel generalizing j i f with
  | zero =>
    have hnil : plan.drop i = [] := List.drop_eq_nil_iff.mpr (by omega)
    have hnone : nextRun (plan.drop i) = none := by
      rw [hnil]
      rfl
    exact
      { spares := fun _ _ => rfl
        flushed := fun _ => flushed_end hnone hf
        reached := fun _ => reached_end hnone hr
        grows := Nat.le_refl _
        within := fun _ _ => Nat.le_max_left .. }
  | succ fuel ih =>
    unfold flushRest
    cases hrun : nextRun (plan.drop i) with
    | none =>
      exact
        { spares := fun _ _ => rfl
          flushed := fun _ => flushed_end hrun hf
          reached := fun _ => reached_end hrun hr
          grows := Nat.le_refl _
          within := fun _ _ => Nat.le_max_left .. }
    | some t =>
      obtain ⟨skip,e,len⟩ := t
      have hspare := fun q hq => pwriteRun_spares (r := r) hrun (io j) f (q := q) hq
      obtain ⟨hgrow,hsize⟩ := pwriteRun_fileSize r e len (io j) f
      obtain ⟨_,hpos,_,_,hslots⟩ := nextRun_some hrun
      have hwithin : ∀ n, (∀ q ∈ missSlots plan, q < n) →
          (pwriteRun r e len (io j) f).1.fileSize ≤ max f.fileSize (n*blockSize) := by
        intro n hn
        obtain ⟨g,hg,hk,hs⟩ := hslots (len-1) (by omega)
        have hlast : g.masterBlk < n :=
          hn _ (mem_missSlots.mpr ⟨g,List.mem_of_mem_drop (List.mem_of_getElem? hg),hk,rfl⟩)
        have hmul : (e.masterBlk+len)*blockSize ≤ n*blockSize :=
          Nat.mul_le_mul_right _ (by omega)
        omega
      simp only
      cases hw : pwriteRun r e len (io j) f with
      | mk f' err =>
        rw [hw] at hspare hgrow hsize hwithin
        cases err with
        | some err =>
          exact
            { spares := hspare
              flushed := fun h => by cases h
              reached := fun h => by cases h
              grows := hgrow
              within := hwithin }
        | none =>
          rw [List.drop_drop,←Nat.add_assoc]
          have hnext := ih (j+1) (i+skip+len) f' (by omega) (flushed_run hform hlen hnd hrun hw hf)
            (reached_run hform hlen hrun hw hr)
          exact
            { spares := fun q hq => (hnext.spares q hq).trans (hspare q hq)
              flushed := hnext.flushed
              reached := hnext.reached
              grows := hgrow.trans hnext.grows
              within := fun n hn =>
                (hnext.within n hn).trans (max_le (hwithin n hn) (Nat.le_max_right ..)) }

theorem flushPlan_spec (hform : Formed sha512 r plan) (hlen : plan.length = r.numBlocks)
    (hnd : (missSlots plan).Nodup) (io : ℕ → PwriteResult) (f : MasterFile) :
    FlushSpec r plan f (flushPlan r io plan f) := by
  have h := flushRest_spec hform hlen hnd io plan.length 0 0 f (by omega)
    (fun j e hj => absurd hj (Nat.not_lt_zero j)) (fun j e hj => absurd hj (Nat.not_lt_zero j))
  rwa [List.drop_zero] at h

theorem flushPlan_complete (r : WriteReq) {io : ℕ → PwriteResult} (h : ∀ j, io j = .complete)
    (plan : List PlanEntry) (f : MasterFile) : (flushPlan r io plan f).2 = none := by
  have hrest : ∀ fuel j rest f, (flushRest r io fuel j rest f).2 = none := by
    intro fuel
    induction fuel with
    | zero => exact fun _ _ _ => rfl
    | succ fuel ih =>
      intro j rest f
      unfold flushRest
      cases nextRun rest with
      | none => rfl
      | some t => exact h j ▸ ih (j+1) _ _
  exact hrest plan.length 0 plan f

end Plan

end ArchivalDedup.FlushRuns
