import ArchivalDedup.LedgerLoops
import ArchivalDedup.Threads

/-!
# The ledger of an interleaved run

Each stage is a party of the ledger. One step of one call keeps the balance
when no counter wraps, when `malloc` avoids the addresses in `Z`, and when the
objects that a lost double check leaves behind are in `Z`. Two kinds of runs
meet this: runs without such a loss, with `Z` empty, and runs that never reuse
an address, with `Z` the addresses handed out so far.
-/

set_option autoImplicit false

namespace ArchivalDedup.ThreadLedger
open ArchivalDedup.FiniteTable ArchivalDedup.MetaIndex ArchivalDedup.WriteDedup
open ArchivalDedup.Passthrough ArchivalDedup.PlanShape ArchivalDedup.Ledger
open ArchivalDedup.LedgerMoves ArchivalDedup.LedgerPublication ArchivalDedup.LedgerPasses
open ArchivalDedup.LedgerLoops ArchivalDedup.ReadDedup ArchivalDedup.Threads
open ArchivalDedup.Interleaving

def party : Stage → Party
  | .pass1 _ p => ⟨p.plan,[],false⟩
  | .drain _ plan => ⟨plan,[],false⟩
  | .append _ plan taken => ⟨plan,taken,false⟩
  | .flush _ plan _ => ⟨plan,[],true⟩
  | .consolidate _ plan => ⟨plan,[],true⟩
  | .release slots _ => ⟨[],slots,true⟩
  | .rollbackHits plan _ => ⟨plan,[],true⟩
  | .rollbackConcat plan slots _ => ⟨misses plan,slots,true⟩
  | .rollbackMisses plan _ => ⟨misses plan,[],true⟩
  | .unlinkConcat _ slots => ⟨[],slots,true⟩
  | .truncateConcat _ _ slots => ⟨[],slots,true⟩
  | _ => ⟨[],[],true⟩

def PlanOk (sha512 : List UInt8 → Hash) (r : WriteReq) (plan : List PlanEntry) : Prop :=
  Formed sha512 r plan ∧ MissDistinct plan ∧ plan.length = r.numBlocks

def StageOk (sha512 : List UInt8 → Hash) : Stage → Prop
  | .pass1 r p => Pass1Ok sha512 r p ∧ p.plan.length ≤ r.numBlocks
  | .drain r plan => PlanOk sha512 r plan
  | .append r plan taken => PlanOk sha512 r plan ∧ taken.length ≤ missCount plan
  | .flush r plan _ => PlanOk sha512 r plan
  | .consolidate r plan => PlanOk sha512 r plan
  | _ => True

def winners (c : Context) (plan : List PlanEntry) : List Ptr :=
  (plan.filter (fun e => e.kind = .miss)).filterMap (fun e => find c.hashToMaster e.hash)

/-- The objects whose counter the next step increments. -/
def increments (sha512 : List UInt8 → Hash) (c : Context) : Stage → List Ptr
  | .pass1 r p =>
    if p.plan.length < r.numBlocks then
      (existingInfo c p (sha512 (r.block p.plan.length))).toList
    else []
  | .consolidate _ plan => winners c plan
  | _ => []

/-- The pending objects that the next step frees after a lost double check and
that a HIT of the same batch shares. -/
def sharedLosers (c : Context) : Stage → List Ptr
  | .consolidate _ plan =>
    (plan.filter (fun e => e.kind = .miss ∧ find c.hashToMaster e.hash ≠ none ∧
      ∃ m ∈ plan, m.kind = .hit ∧ m.info = e.info)).map PlanEntry.info
  | _ => []

/-- No increment of the next step wraps a reference counter. -/
def RoomAt (sha512 : List UInt8 → Hash) (c : Context) (st : Stage) : Prop :=
  ∀ b ∈ increments sha512 c st, (c.cell b).refcount+1 < refcountMod

def LosersAt (Z : Set Ptr) (c : Context) (st : Stage) : Prop := ∀ a ∈ sharedLosers c st, a ∈ Z

def mallocAt (sha512 : List UInt8 → Hash) (ch : Choice) (c : Context) : Stage → Option Ptr
  | .pass1 r p =>
    if p.plan.length < r.numBlocks ∧
        existingInfo c p (sha512 (r.block p.plan.length)) = none then some ch.addr else none
  | _ => none

variable {sha512 : List UInt8 → Hash} {qsort : List BlockPair → List BlockPair}
variable {Z : Set Ptr} {c : Context} {ps : List Party} {ch : Choice}

theorem winnerRoom_of {r : WriteReq} {plan : List PlanEntry}
    (h : RoomAt sha512 c (.consolidate r plan)) : WinnerRoom c plan := by
  intro e he hk w hw
  refine h w (List.mem_filterMap.mpr ⟨e,?_,hw⟩)
  exact List.mem_filter.mpr ⟨he,decide_eq_true hk⟩

theorem losersIn_of {r : WriteReq} {plan : List PlanEntry}
    (h : LosersAt Z c (.consolidate r plan)) : LosersIn Z c plan plan := by
  intro e he hk hf hm
  refine h e.info (List.mem_map.mpr ⟨e,?_,rfl⟩)
  exact List.mem_filter.mpr ⟨he,decide_eq_true ⟨hk,hf,hm⟩⟩

theorem start_party (k : Call) : party k.start = ⟨[],[],false⟩ ∨ party k.start = ⟨[],[],true⟩ := by
  cases k with
  | write r =>
    simp only [Call.start]
    split_ifs
    · exact Or.inr rfl
    · exact Or.inr rfl
    · exact Or.inl rfl
  | unlink path => exact Or.inr rfl
  | truncate path size =>
    simp only [Call.start]
    split_ifs <;> exact Or.inr rfl
  | read r buf =>
    simp only [Call.start]
    split_ifs <;> exact Or.inr rfl

theorem start_ok (k : Call) : StageOk sha512 k.start := by
  cases k with
  | write r =>
    simp only [Call.start]
    split_ifs
    · trivial
    · trivial
    · exact ⟨pass1_start,Nat.zero_le _⟩
  | unlink path => trivial
  | truncate path size =>
    simp only [Call.start]
    split_ifs <;> trivial
  | read r buf =>
    simp only [Call.start]
    split_ifs <;> trivial

theorem inv_idle (b : Bool) : Inv Z c (⟨[],[],b⟩::ps) ↔ Inv Z c ps := by
  have hs : Party.slots ⟨[],[],b⟩ = [] := by cases b <;> rfl
  constructor
  · intro h
    exact
      { counted := fun a ha => by simpa [refs] using h.counted a ha
        bounded := h.bounded
        positive := fun a ha => by simpa [refs] using h.positive a ha
        keyed := fun k a hk => by simpa using h.keyed k a hk
        owned := fun a ha => by simpa using h.owned a ha
        single := fun a => by simpa using h.single a
        pending := fun p hp => h.pending p (by simp [hp])
        shared := fun p hp => h.shared p (by simp [hp])
        stale := fun a ha => by simpa [refs] using h.stale a ha
        slots := by simpa [hs] using h.slots }
  · intro h
    exact
      { counted := fun a ha => by simpa [refs] using h.counted a ha
        bounded := h.bounded
        positive := fun a ha => by simpa [refs] using h.positive a ha
        keyed := fun k a hk => by simpa using h.keyed k a hk
        owned := fun a ha => by simpa using h.owned a ha
        single := fun a => by simpa using h.single a
        pending := by
          intro p hp e he
          rcases List.mem_cons.mp hp with rfl | hp
          · cases he
          · exact h.pending p hp e he
        shared := by
          intro p hp e he
          rcases List.mem_cons.mp hp with rfl | hp
          · cases he
          · exact h.shared p hp e he
        stale := fun a ha => by simpa [refs] using h.stale a ha
        slots := by simpa [hs] using h.slots }

theorem inv_unmissed {plan : List PlanEntry} (h : Inv Z c (⟨plan,[],false⟩::ps))
    (hn : missCount plan = 0) : Inv Z c (⟨plan,[],true⟩::ps) := by
  have h₁ := inv_assign h (by simpa using hn.symm)
  rwa [assignSlots_none] at h₁

theorem appendSlots_length {n : ℕ} (taken : List ℕ) (c : Context) (h : taken.length ≤ n) :
    (appendSlots n taken c).1.length = n := by
  simp [appendSlots]
  omega

theorem planOk_assign {r : WriteReq} {plan : List PlanEntry} (slots : List ℕ) (c : Context)
    (h : PlanOk sha512 r plan) : PlanOk sha512 r (assignSlots plan slots c).1 := by
  have hu := assignSlots_unslotted plan slots c
  refine ⟨formed_unslotted hu h.1,missDistinct_unslotted hu h.2.1,?_⟩
  have := congrArg List.length hu
  simpa using this.trans (by simpa using h.2.2)

theorem endLookup_ok (r : ReadReq) (pairs : List BlockPair) (buf : Buffer) :
    StageOk sha512 (endLookup qsort r pairs buf) := by
  unfold endLookup
  split_ifs <;> trivial

theorem advance_ok {st : Stage} {d : Context × Stage} (hok : StageOk sha512 st)
    (hs : advance sha512 qsort ch c st = some d) : StageOk sha512 d.2 := by
  cases st with
  | pass1 r p =>
    simp only [advance] at hs
    split_ifs at hs with h₁ h₂ h₃
    · cases hs
      refine ⟨pass1Block_ok _ hok.1,?_⟩
      rw [pass1Block_length]
      omega
    · cases hs
      exact ⟨hok.1.formed,hok.1.distinct,by have := hok.2; omega⟩
    · cases hs
      exact ⟨hok.1.formed,hok.1.distinct,by have := hok.2; omega⟩
  | drain r plan =>
    cases hs
    exact ⟨hok,by simp [drainFreeList]⟩
  | append r plan taken =>
    cases hs
    exact planOk_assign _ _ hok.1
  | flush r plan i =>
    cases hs
    unfold flushStep
    split
    · exact hok
    · split
      · exact hok
      · trivial
  | consolidate r plan =>
    cases hs
    trivial
  | unlinkSize path =>
    simp only [advance] at hs
    split at hs <;> cases hs <;> trivial
  | truncateSize path size =>
    simp only [advance] at hs
    split at hs <;> cases hs <;> trivial
  | readLookup r pairs buf =>
    cases hs
    unfold lookupStep
    split
    · split
      · trivial
      · exact endLookup_ok r pairs buf
    · exact endLookup_ok r pairs buf
  | readGroups r pairs groupStart buf =>
    cases hs
    simp only [readStep]
    split_ifs
    · trivial
    · split <;> trivial
  | readDone r pairs groupStart buf res => cases hs
  | done res => cases hs
  | _ =>
    cases hs
    trivial

theorem flushStep_party {r : WriteReq} {plan : List PlanEntry} {i : ℕ} {io : PwriteResult}
    (h : Inv Z c (⟨plan,[],true⟩::ps)) :
    Inv Z (flushStep r plan i io c).1 (party (flushStep r plan i io c).2::ps) := by
  unfold flushStep
  split
  · exact h
  · split
    · exact inv_file _ h
    · exact inv_file _ h

theorem endLookup_party (r : ReadReq) (pairs : List BlockPair) (buf : Buffer) :
    party (endLookup qsort r pairs buf) = ⟨[],[],true⟩ := by
  unfold endLookup
  split_ifs <;> rfl

theorem lookupStep_party (r : ReadReq) (pairs : List BlockPair) (buf : Buffer) (c : Context) :
    party (lookupStep qsort r pairs buf c) = ⟨[],[],true⟩ := by
  unfold lookupStep
  split
  · split
    · rfl
    · exact endLookup_party r pairs buf
  · exact endLookup_party r pairs buf

theorem readStep_party (r : ReadReq) (pairs : List BlockPair) (n : ℕ) (buf : Buffer) (c : Context) :
    party (readStep r pairs n buf c) = ⟨[],[],true⟩ := by
  simp only [readStep]
  split
  · rfl
  · split <;> rfl

/-- One step of one call keeps the ledger balanced. -/
theorem advance_inv {st : Stage} {d : Context × Stage} (h : Inv Z c (party st::ps))
    (hok : StageOk sha512 st) (hroom : RoomAt sha512 c st) (hlose : LosersAt Z c st)
    (hz : ∀ x, mallocAt sha512 ch c st = some x → x ∉ Z)
    (hs : advance sha512 qsort ch c st = some d) : Inv Z d.1 (party d.2::ps) := by
  cases st with
  | pass1 r p =>
    simp only [advance] at hs
    split_ifs at hs with h₁ h₂ h₃
    · cases hs
      exact inv_pass1Block h hok.1 h₂ (fun hn => hz ch.addr (if_pos ⟨h₁,hn⟩))
        (fun b hb => hroom b (by simp [increments,h₁,hb]))
    · cases hs
      exact h
    · cases hs
      exact inv_unmissed h (by omega)
  | drain r plan =>
    cases hs
    exact inv_drain (missCount plan) h
  | append r plan taken =>
    cases hs
    exact inv_assign (inv_append (missCount plan) h) (appendSlots_length _ c hok.2)
  | flush r plan i =>
    cases hs
    exact flushStep_party h
  | consolidate r plan =>
    cases hs
    exact inv_consolidate h hok.2.1 (winnerRoom_of hroom) (losersIn_of hlose)
  | release slots res =>
    cases hs
    exact inv_release h
  | rollbackHits plan err =>
    cases hs
    have h₁ := inv_rollbackHits plan [] (by simpa [party] using h)
    rwa [List.append_nil] at h₁
  | rollbackConcat plan slots err =>
    cases hs
    exact inv_release h
  | rollbackMisses plan err =>
    cases hs
    exact inv_rollbackMisses h
  | unlinkSize path =>
    simp only [advance] at hs
    split at hs <;> cases hs <;> exact h
  | unlinkRemove path n =>
    cases hs
    exact inv_removeBlocks n 0 h
  | unlinkConcat path slots =>
    cases hs
    exact inv_release h
  | unlinkDropSize path =>
    cases hs
    exact inv_sizes _ h
  | truncateSize path size =>
    simp only [advance] at hs
    split at hs <;> cases hs <;> exact h
  | truncateRemove path size n m =>
    cases hs
    exact inv_removeBlocks (m-n) n h
  | truncateConcat path size slots =>
    cases hs
    exact inv_release h
  | truncateShrink path size =>
    cases hs
    unfold shrinkSize
    split
    · exact h
    · split_ifs
      · exact inv_sizes _ h
      · exact h
  | readLookup r pairs buf =>
    cases hs
    rw [lookupStep_party]
    exact h
  | readGroups r pairs n buf =>
    cases hs
    rw [readStep_party]
    exact h
  | readDone r pairs n buf res => cases hs
  | done res => cases hs
  | unlinkBacking path =>
    cases hs
    exact h
  | truncateBacking path size =>
    cases hs
    exact h

structure SysInv (sha512 : List UInt8 → Hash) (Z : Set Ptr) (s : System) : Prop where
  ledger : Inv Z s.ctx (s.procs.map party)
  staged : ∀ st ∈ s.procs, StageOk sha512 st

def stageOf (s : System) : Action → Option Stage
  | .call _ => none
  | .step i _ => s.procs[i]?

def NoWrap (sha512 : List UInt8 → Hash) (s : System) (a : Action) : Prop :=
  ∀ st ∈ stageOf s a, RoomAt sha512 s.ctx st

def LosersBy (Z : Set Ptr) (s : System) (a : Action) : Prop :=
  ∀ st ∈ stageOf s a, LosersAt Z s.ctx st

def mallocBy (sha512 : List UInt8 → Hash) (s : System) : Action → Option Ptr
  | .call _ => none
  | .step i ch => (s.procs[i]?).bind (mallocAt sha512 ch s.ctx)

theorem sysInv_empty (Z : Set Ptr) : SysInv sha512 Z emptySystem :=
  ⟨inv_empty Z,by simp [emptySystem]⟩

theorem sysInv_call {s : System} (k : Call) (h : SysInv sha512 Z s) :
    SysInv sha512 Z ⟨s.ctx,s.procs++[k.start]⟩ := by
  refine ⟨?_,?_⟩
  · have hi : Inv Z s.ctx (party k.start::s.procs.map party) := by
      rcases start_party k with hp | hp
      · rw [hp]
        exact (inv_idle false).mpr h.ledger
      · rw [hp]
        exact (inv_idle true).mpr h.ledger
    refine inv_perm ?_ hi
    rw [List.map_append]
    exact (List.perm_append_singleton _ _).symm
  · intro st hst
    rcases List.mem_append.mp hst with hst | hst
    · exact h.staged st hst
    · rw [List.mem_singleton.mp hst]
      exact start_ok k

theorem sysInv_step {s t : System} {a : Action} (h : SysInv sha512 Z s)
    (hw : NoWrap sha512 s a) (hl : LosersBy Z s a)
    (hz : ∀ x, mallocBy sha512 s a = some x → x ∉ Z)
    (hs : step sha512 qsort s a = some t) : SysInv sha512 Z t := by
  cases a with
  | call k =>
    rw [step_call_some sha512 qsort hs]
    exact sysInv_call k h
  | step i ch =>
    obtain ⟨st,d,hst,hd,rfl,_⟩ := step_step_some sha512 qsort hs
    have hmem := List.mem_of_getElem? hst
    obtain ⟨hp,hp'⟩ := set_perm s.procs i st d.2 hst
    have hi : Inv Z s.ctx (party st::(s.procs.eraseIdx i).map party) :=
      inv_perm (hp.map party) h.ledger
    have hi' := advance_inv hi (h.staged st hmem) (hw st hst) (hl st hst)
      (fun x hx => hz x (by simpa [mallocBy,hst] using hx)) hd
    refine ⟨inv_perm (hp'.map party).symm hi',?_⟩
    intro q hq
    rcases mem_set_cases hq with rfl | hq
    · exact advance_ok (h.staged st hmem) hd
    · exact h.staged q hq

end ArchivalDedup.ThreadLedger
