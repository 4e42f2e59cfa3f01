import ArchivalDedup.Linearization
import ArchivalDedup.MasterExtent

/-!
# Many mounts, one after another

A session is all that happens between a mount and the next one: calls that
interleave, the unmount once they have returned, and the mount that reads the
five files again. Over any number of clean sessions whose master file covers
what they reserved, the volume is what the effects of all of them give.
-/

set_option autoImplicit false

namespace ArchivalDedup.Sessions
open ArchivalDedup.FiniteTable ArchivalDedup.MetaIndex ArchivalDedup.WriteDedup
open ArchivalDedup.ReadDedup ArchivalDedup.Ledger ArchivalDedup.Threads ArchivalDedup.ThreadLedger
open ArchivalDedup.ReferenceSafety ArchivalDedup.Content ArchivalDedup.Extents
open ArchivalDedup.FailedWrite ArchivalDedup.Remount ArchivalDedup.SequentialRun ArchivalDedup.MappedHashes
open ArchivalDedup.RemountSafety ArchivalDedup.Interleaving ArchivalDedup.EffectTrace
open ArchivalDedup.Linearization ArchivalDedup.MasterExtent ArchivalDedup.BlockRefinement
open ArchivalDedup.LoopFrames

structure Session where
  acts : List Action
  unmounting : Unmounting
  mounting : Mounting

def mounted (c : Context) : System := ⟨c,[]⟩

variable (sha512 : List UInt8 → Hash) (qsort : List BlockPair → List BlockPair)

def session (c : Context) (x : Session) : Option Context :=
  (exec (step sha512 qsort) (mounted c) x.acts).map
    (fun s => remount x.unmounting x.mounting s.ctx)

def sessionEffects (c : Context) (x : Session) : List (ℕ × Effect) :=
  trace (step sha512 qsort) effectBy (mounted c) x.acts

/-- The effects of all sessions, from the first mount of an empty store on. -/
def lifetimeEffects (xs : List Session) : List (List (ℕ × Effect)) :=
  trace (session sha512 qsort) (fun c x => some (sessionEffects sha512 qsort c x)) emptyContext xs

def applyAll (v : Volume) (es : List (ℕ × Effect)) : Volume := es.foldl Volume.applyBy v

/-- A session is clean, and ends with every call returned, every reserved slot
in the master file and tables whose sizes fit the counts in their files. -/
structure Settles (c : Context) (x : Session) : Prop where
  clean : Meets (step sha512 qsort) (Clean sha512) (mounted c) x.acts
  ending : ∀ s, exec (step sha512 qsort) (mounted c) x.acts = some s →
    (∀ st ∈ s.procs, st.finished = true) ∧ Reaching s.ctx ∧ SmallTables x.unmounting s.ctx

instance (c : Context) (x : Session) : Decidable (Settles sha512 qsort c x) :=
  match h : exec (step sha512 qsort) (mounted c) x.acts with
  | none => decidable_of_iff (Meets (step sha512 qsort) (Clean sha512) (mounted c) x.acts)
      ⟨fun hc => ⟨hc,fun s hs => absurd (h.symm.trans hs) (Option.some_ne_none s).symm⟩,
        fun hs => hs.clean⟩
  | some s => decidable_of_iff (Meets (step sha512 qsort) (Clean sha512) (mounted c) x.acts ∧
      (∀ st ∈ s.procs, st.finished = true) ∧ Reaching s.ctx ∧ SmallTables x.unmounting s.ctx)
      ⟨fun hc => ⟨hc.1,fun _ hs => Option.some.inj (h.symm.trans hs) ▸ hc.2⟩,
        fun hs => ⟨hs.clean,hs.ending s h⟩⟩

variable {sha512 qsort} {c d : Context} {known : List (List UInt8)}

/-! ## What the files of the index can hold -/

/-- Block numbers and sizes fit the types they are saved as. -/
def Bounded (c : Context) : Prop :=
  (∀ k a, find c.fileToMaster k = some a → k.offset < 2^64) ∧
    ∀ p n, find c.fileToSizes p = some n → n < 2^64

theorem bounded_empty : Bounded emptyContext := by simp [Bounded,emptyContext]

theorem bounded_consolidate {r : WriteReq} {plan : List PlanEntry} (hok : PlanOk sha512 r plan)
    (h : Bounded c) : Bounded (WriteDedup.consolidate r plan c).1 := by
  obtain ⟨hlast,hend⟩ := request_blocks r
  constructor
  · rintro ⟨p,b⟩ a hk
    by_cases hin : p = r.path ∧ r.startBlock ≤ b ∧ b < r.startBlock+r.numBlocks
    · simp only
      omega
    · rw [consolidate_outside hok c hin] at hk
      exact h.1 _ a hk
  · intro p n hn
    rw [consolidate_find] at hn
    split_ifs at hn
    · cases hs : find c.fileToSizes r.path with
      | none =>
        rw [hs,Option.getD_none] at hn
        have := Option.some.inj hn
        omega
      | some k =>
        have hk := h.2 _ k hs
        rw [hs,Option.getD_some] at hn
        have := Option.some.inj hn
        omega
    · exact h.2 p n hn

theorem bounded_removeBlocks (path : Path) (n i : ℕ) (slots : List ℕ) (h : Bounded c) :
    Bounded (Passthrough.removeBlocks path n i c slots).1 := by
  constructor
  · intro k a hk
    rw [removeBlocks_find] at hk
    split_ifs at hk
    exact h.1 k a hk
  · intro p m hm
    rw [(frame_removeBlocks path n i c slots).fileToSizes] at hm
    exact h.2 p m hm

theorem advance_bounded {st : Stage} {t : Context × Stage} {ps : List Party} {ch : Choice}
    {Z : Set Ptr} (hi : Inv Z c (party st::ps)) (hok : StageOk sha512 st) (h : Bounded c)
    (hs : advance sha512 qsort ch c st = some t) : Bounded t.1 := by
  have hquiet : effect st = none → Bounded t.1 := by
    intro hn
    obtain ⟨hf,hz⟩ := (advance_moves hi hs).tables hn
    unfold Bounded
    rw [hf,hz]
    exact h
  cases st with
  | consolidate r plan =>
    cases hs
    exact bounded_consolidate hok h
  | unlinkRemove path n =>
    cases hs
    exact bounded_removeBlocks path n 0 [] h
  | truncateRemove path size n m =>
    cases hs
    exact bounded_removeBlocks path (m-n) n [] h
  | unlinkDropSize path =>
    cases hs
    refine ⟨h.1,?_⟩
    intro p n hn
    change find (c.fileToSizes.erase path) p = some n at hn
    rw [find_erase] at hn
    split_ifs at hn
    exact h.2 p n hn
  | truncateShrink path size =>
    cases hs
    constructor
    · intro k a hk
      refine h.1 k a (Eq.trans ?_ hk)
      unfold Passthrough.shrinkSize
      split
      · rfl
      · split_ifs <;> rfl
    · intro p n hn
      rw [shrinkSize_find] at hn
      split_ifs at hn
      · obtain ⟨k,hk,rfl⟩ := Option.map_eq_some_iff.mp hn
        exact (Nat.min_le_right size k).trans_lt (h.2 _ k hk)
      · exact h.2 p n hn
  | _ => exact hquiet rfl

theorem bounded_step {s t : System} {a : Action} (h : SysInv sha512 ∅ s)
    (hs : step sha512 qsort s a = some t) (hb : Bounded s.ctx) : Bounded t.ctx := by
  cases a with
  | call k =>
    rw [step_call_some sha512 qsort hs]
    exact hb
  | step i ch =>
    obtain ⟨st,d,hst,hd,rfl,_⟩ := step_step_some sha512 qsort hs
    obtain ⟨hp,_⟩ := set_perm s.procs i st d.2 hst
    exact advance_bounded (inv_perm (hp.map party) h.ledger) (h.staged st (List.mem_of_getElem? hst))
      hb hd

theorem clean_bounded {acts : List Action} {s t : System} (h : SysInv sha512 ∅ s)
    (hb : Bounded s.ctx) (hc : Meets (step sha512 qsort) (Clean sha512) s acts)
    (he : exec (step sha512 qsort) s acts = some t) : Bounded t.ctx :=
  (exec_invariant (step sha512 qsort) (Clean sha512)
    (fun s => SysInv sha512 ∅ s ∧ Bounded s.ctx)
    (fun _ _ _ hi hc hs => ⟨sysInv_step hi.1 hc.1 hc.2 (by simp) hs,bounded_step hi.1 hs hi.2⟩)
    s t acts ⟨h,hb⟩ hc he).2

theorem ledger_inRange {u : Unmounting} (h : Inv ∅ c []) (hb : Bounded c)
    (hs : SmallTables u c) : InRange c where
  infos := by
    intro a ha
    have hlt := ((idle_slots h).2.2 a (held_published h ha).1).1
    exact ⟨hlt.trans (ledger_next h hs),h.bounded a⟩
  offsets := hb.1
  sizes := hb.2
  free := fun q hq => ((idle_slots h).2.1 q hq).trans (ledger_next h hs)

/-! ## One session -/

structure Idle (c : Context) : Prop where
  ledger : Inv ∅ c []
  within : c.fileSize ≤ c.nextBlockIndex*blockSize
  bounded : Bounded c

theorem idle_empty : Idle emptyContext := ⟨inv_empty ∅,Nat.le_refl 0,bounded_empty⟩

theorem idle_mounted (h : Idle c) : SysInv sha512 ∅ (mounted c) := ⟨h.ledger,by simp [mounted]⟩

theorem idle_run {acts : List Action} {s : System} (h : Idle c)
    (hc : Meets (step sha512 qsort) (Clean sha512) (mounted c) acts)
    (he : exec (step sha512 qsort) (mounted c) acts = some s) (hq : Quiescent s) : Idle s.ctx where
  ledger := quiescent_ledger (exec_invariant (step sha512 qsort) (Clean sha512) (SysInv sha512 ∅)
    (fun _ _ _ hi hc hs => sysInv_step hi hc.1 hc.2 (by simp) hs) (mounted c) s acts
    (idle_mounted h) hc he) hq
  within := clean_within (idle_mounted h) h.within hc he
  bounded := clean_bounded (idle_mounted h) h.bounded hc he

theorem idle_next (h : Idle c) (hr : Reaching c) : c.fileSize/blockSize = c.nextBlockIndex := by
  rw [Nat.le_antisymm h.within hr,Nat.mul_div_cancel _ blockSize_pos]

theorem idle_inRange {u : Unmounting} (h : Idle c) (hs : SmallTables u c) : InRange c :=
  ledger_inRange h.ledger h.bounded hs

theorem idle_remount {u : Unmounting} (i : Mounting) (h : Idle c) (hr : Reaching c)
    (hs : SmallTables u c) : Idle (remount u i c) := by
  obtain ⟨ρ,hρ⟩ := remount_renamed u i (idle_inRange h hs) hs
  have hnext : (remount u i c).nextBlockIndex = c.nextBlockIndex := idle_next h hr
  refine ⟨inv_renamed h.ledger hρ hnext,?_,?_,?_⟩
  · rw [hnext]
    exact h.within
  · intro k x hk
    rw [hρ.fileToMaster] at hk
    obtain ⟨a,ha,_⟩ := Option.map_eq_some_iff.mp hk
    exact h.bounded.1 k a ha
  · intro p n hp
    rw [hρ.fileToSizes] at hp
    exact h.bounded.2 p n hp

theorem idle_session {x : Session} (h : Idle c) (hc : Settles sha512 qsort c x)
    (hs : session sha512 qsort c x = some d) : Idle d := by
  obtain ⟨s,he,rfl⟩ := Option.map_eq_some_iff.mp hs
  obtain ⟨hq,hr,hsmall⟩ := hc.ending s he
  exact idle_remount x.mounting (idle_run h hc.clean he hq) hr hsmall

structure Fresh (sha512 : List UInt8 → Hash) (known : List (List UInt8)) (c : Context) : Prop where
  linear : LinearInv sha512 known (mounted c)
  within : c.fileSize ≤ c.nextBlockIndex*blockSize
  bounded : Bounded c

theorem fresh_empty : Fresh sha512 known emptyContext :=
  ⟨linear_empty,Nat.le_refl 0,bounded_empty⟩

theorem fresh_idle (h : Fresh sha512 known c) : Idle c :=
  ⟨quiescent_ledger h.linear.sys (by simp [Quiescent,mounted]),h.within,h.bounded⟩

theorem volume_renamed {ρ : Ptr → Ptr} (hρ : Renamed ρ c d)
    (hf : d.toMasterFile = c.toMasterFile) : volume d = volume c := by
  apply Volume.ext
  · funext p b
    simp only [volume,hρ.fileToMaster,hf]
    cases hk : find c.fileToMaster ⟨p,b⟩ with
    | none => simp only [Option.map_none]
    | some a => simp only [Option.map_some,hρ.infos a (Or.inr ⟨_,hk⟩)]
  · funext p
    exact hρ.fileToSizes p

theorem stored_renamed {good : Hash → List UInt8 → Prop} {ρ : Ptr → Ptr} (hρ : Renamed ρ c d)
    (hf : d.toMasterFile = c.toMasterFile) (h : Stored good c) : Stored good d := by
  intro k x hk
  rw [hρ.hashToMaster] at hk
  obtain ⟨a,ha,rfl⟩ := Option.map_eq_some_iff.mp hk
  rw [hf,hρ.infos a (Or.inl ⟨k,ha⟩)]
  exact h k a ha

/-- Unmount and mount start the next session with the volume of the last. -/
theorem fresh_remount {s : System} (u : Unmounting) (i : Mounting)
    (h : LinearInv sha512 known s) (hi : Idle s.ctx) (hr : Reaching s.ctx)
    (hs : SmallTables u s.ctx) :
    Fresh sha512 known (remount u i s.ctx) ∧ volume (remount u i s.ctx) = volume s.ctx := by
  obtain ⟨ρ,hρ⟩ := remount_renamed u i (idle_inRange hi hs) hs
  have hfile : (remount u i s.ctx).toMasterFile = s.ctx.toMasterFile := rfl
  have hidle := idle_remount i hi hr hs
  exact ⟨⟨⟨idle_mounted hidle,
    ⟨stored_renamed hρ hfile h.content.stored,by simp [mounted]⟩,
    stored_renamed hρ hfile h.stored,by simp [mounted],by simp [mounted]⟩,hidle.within,
    hidle.bounded⟩,volume_renamed hρ hfile⟩

theorem session_fresh (hinj : ∀ x ∈ known, ∀ y ∈ known, sha512 x = sha512 y → x = y)
    {x : Session} (h : Fresh sha512 known c) (hc : Settles sha512 qsort c x)
    (hk : ∀ a ∈ x.acts, HandsOver known a) (hs : session sha512 qsort c x = some d) :
    Fresh sha512 known d ∧ volume d = applyAll (volume c) (sessionEffects sha512 qsort c x) := by
  obtain ⟨s,he,rfl⟩ := Option.map_eq_some_iff.mp hs
  obtain ⟨hq,hr,hsmall⟩ := hc.ending s he
  obtain ⟨hlin,hvol⟩ := linear_exec hinj h.linear hc.clean hk he
  obtain ⟨hfresh,hsame⟩ := fresh_remount x.unmounting x.mounting hlin
    (idle_run (fresh_idle h) hc.clean he hq) hr hsmall
  exact ⟨hfresh,hsame.trans hvol⟩

/-! ## All sessions -/

/-- Whatever the interleavings and however often the store is mounted anew, the
files are what the effects of all sessions give in their order, and no slot in
use is handed out again. -/
theorem sessions_volume (xs : List Session) (c : Context)
    (hr : exec (session sha512 qsort) emptyContext xs = some c)
    (hc : Meets (session sha512 qsort) (Settles sha512 qsort) emptyContext xs)
    (hinj : NoCollision sha512 (xs.flatMap Session.acts)) :
    volume c = (lifetimeEffects sha512 qsort xs).foldl applyAll emptyVolume ∧ AllocatesApart c := by
  have hhanded : ∀ x ∈ xs, ∀ a ∈ x.acts, HandsOver (writtenBlocks (xs.flatMap Session.acts)) a :=
    fun x hx a ha => writtenBlocks_handed _ a (List.mem_flatMap.mpr ⟨x,hx,ha⟩)
  have hmeets := meets_and _ hc (meets_of_forall (session sha512 qsort)
    (fun _ x => ∀ a ∈ x.acts, HandsOver (writtenBlocks (xs.flatMap Session.acts)) a) emptyContext xs
    (fun x hx _ => hhanded x hx))
  have hfresh := exec_invariant (session sha512 qsort) _
    (Fresh sha512 (writtenBlocks (xs.flatMap Session.acts)))
    (fun _ _ _ hi hc hs => (session_fresh hinj hi hc.1 hc.2 hs).1) emptyContext c xs fresh_empty
    hmeets hr
  refine ⟨?_,inv_allocatesApart hfresh.linear.sys.ledger⟩
  rw [←volume_empty]
  exact view_trace (session sha512 qsort) (fun c x => some (sessionEffects sha512 qsort c x)) _
    (Fresh sha512 (writtenBlocks (xs.flatMap Session.acts))) volume applyAll
    (fun _ _ _ hi hc hs => session_fresh hinj hi hc.1 hc.2 hs) emptyContext c xs fresh_empty
    hmeets hr

def threeMounts : List Session :=
  [⟨settledBlocks,sampleUnmounting,sampleMounting⟩,
    ⟨[.call (.write (fillReq fileA 65 0 1 one_block_fits block0_ends)),.call (.unlink fileB),
      go 0 9,go 1 9,go 0 9,go 1 9,go 1 9,go 0 9,go 1 9,go 0 9,go 1 9],sampleUnmounting,sampleMounting⟩,
    ⟨[],sampleUnmounting,sampleMounting⟩]

theorem threeMounts_uniform {b : List UInt8}
    (hb : b ∈ writtenBlocks (threeMounts.flatMap Session.acts)) : b = List.replicate blockSize 65 := by
  simp only [writtenBlocks,threeMounts,settledBlocks,sharedBlocks,go,List.flatMap_cons,
    List.flatMap_nil,List.append_nil,List.nil_append,List.cons_append,List.mem_append,List.mem_map,
    List.mem_range,fill_numBlocks] at hb
  rcases hb with ⟨i,hi,rfl⟩ | ⟨i,hi,rfl⟩ | ⟨i,hi,rfl⟩
  · exact fill_block two_blocks_fit blocks01_end hi
  · exact fill_block one_block_fits block0_ends hi
  · exact fill_block one_block_fits block0_ends hi

theorem threeMounts_noCollision : NoCollision sampleSha512 (threeMounts.flatMap Session.acts) := by
  intro x hx y hy _
  rw [threeMounts_uniform hx,threeMounts_uniform hy]

theorem sessions_volume_three : ∃ c,
    exec (session sampleSha512 id) emptyContext threeMounts = some c ∧
    Meets (session sampleSha512 id) (Settles sampleSha512 id) emptyContext threeMounts ∧
    NoCollision sampleSha512 (threeMounts.flatMap Session.acts) ∧
    volume c = (lifetimeEffects sampleSha512 id threeMounts).foldl applyAll emptyVolume ∧
    (volume c).size fileA = some blockSize ∧ (volume c).size fileB = none := by
  have hc : Meets (session sampleSha512 id) (Settles sampleSha512 id) emptyContext threeMounts := by
    decide +kernel
  obtain ⟨c,hr,hp⟩ := exec_observe (session sampleSha512 id)
    (fun c => find c.fileToSizes fileA = some blockSize ∧ find c.fileToSizes fileB = none)
    emptyContext threeMounts (by decide +kernel)
  obtain ⟨hA,hB⟩ := of_decide_eq_true hp
  exact ⟨c,hr,hc,threeMounts_noCollision,
    (sessions_volume threeMounts c hr hc threeMounts_noCollision).1,hA,hB⟩

end ArchivalDedup.Sessions
