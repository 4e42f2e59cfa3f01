import ArchivalDedup.LockedSections
import ArchivalDedup.ThreadLedger

/-!
# The ledger between the turns of a section

The ledger of references and slots is balanced at every turn of every section,
not only between sections, and the locks exclude each other as they should.
-/

set_option autoImplicit false

namespace ArchivalDedup.SectionLedger
open ArchivalDedup.FiniteTable ArchivalDedup.MetaIndex ArchivalDedup.WriteDedup
open ArchivalDedup.ReadDedup ArchivalDedup.Passthrough ArchivalDedup.PlanShape ArchivalDedup.Ledger
open ArchivalDedup.LedgerMoves ArchivalDedup.LedgerPublication ArchivalDedup.LedgerPasses
open ArchivalDedup.LedgerLoops ArchivalDedup.Threads ArchivalDedup.ThreadLedger
open ArchivalDedup.Interleaving ArchivalDedup.LockedSections

variable {sha512 : List UInt8 → Hash} {qsort : List BlockPair → List BlockPair}
variable {Z : Set Ptr} {c d : Context} {ps : List Party} {ch : Choice}

/-! ## One turn -/

def sectionParty : Section → Party
  | .removing _ _ _ _ slots => ⟨[],slots,true⟩
  | .publishing _ done rest slots => ⟨rest++done.reverse.map asHit,slots,true⟩
  | .mapping _ rest slots => ⟨rest.map asHit,slots,true⟩
  | .reverting done rest slots _ => ⟨rest++misses done,slots,true⟩
  | .draining _ plan taken => ⟨plan,taken,false⟩
  | .discarding rest _ => ⟨misses rest,[],true⟩

def placeParty : Place → Party
  | .outside st => party st
  | .inside sec => sectionParty sec

def SectionOk (sha512 : List UInt8 → Hash) (Z : Set Ptr) (c : Context) : Section → Prop
  | .publishing _ done rest _ => MissDistinct rest ∧ WinnerRoom c rest ∧
      LosersIn Z c (rest++done.reverse.map asHit) rest
  | .draining r plan taken => PlanOk sha512 r plan ∧ taken.length ≤ missCount plan
  | _ => True

def PlaceOk (sha512 : List UInt8 → Hash) (Z : Set Ptr) (c : Context) : Place → Prop
  | .outside st => StageOk sha512 st
  | .inside sec => SectionOk sha512 Z c sec

theorem turn_publishing {r : WriteReq} {done rest : List PlanEntry} {slots : List ℕ}
    (h : Inv Z c (sectionParty (.publishing r done rest slots)::ps))
    (hok : SectionOk sha512 Z c (.publishing r done rest slots)) :
    Inv Z (turn c (.publishing r done rest slots)).1
      (placeParty (turn c (.publishing r done rest slots)).2::ps) ∧
    PlaceOk sha512 Z (turn c (.publishing r done rest slots)).1
      (turn c (.publishing r done rest slots)).2 := by
  cases rest with
  | nil => exact ⟨inv_replan ((List.reverse_perm done).map asHit) h,trivial⟩
  | cons e es =>
    obtain ⟨hd,hroom,hz⟩ := hok
    obtain ⟨h₁,hroom',hz'⟩ := inv_publishEntry_rest es (done.reverse.map asHit) h hd hroom hz
    have hdone : (done++[(publishEntry c slots e).2.2]).reverse.map asHit =
        asHit (publishEntry c slots e).2.2::done.reverse.map asHit := by simp
    refine ⟨?_,(List.pairwise_cons.mp hd).2,hroom',?_⟩
    · simp only [turn,placeParty,sectionParty,hdone]
      exact h₁
    · rw [hdone]
      exact hz'

theorem turn_mapping {r : WriteReq} {rest : List PlanEntry} {slots : List ℕ}
    (h : Inv Z c (sectionParty (.mapping r rest slots)::ps)) :
    Inv Z (turn c (.mapping r rest slots)).1 (placeParty (turn c (.mapping r rest slots)).2::ps) ∧
    PlaceOk sha512 Z (turn c (.mapping r rest slots)).1 (turn c (.mapping r rest slots)).2 := by
  cases rest with
  | nil => exact ⟨inv_growSize _ _ h,trivial⟩
  | cons e es =>
    have hall : ∀ m ∈ es.map asHit, m.kind = .hit := by
      intro m hm
      obtain ⟨f,_,rfl⟩ := List.mem_map.mp hm
      rfl
    exact ⟨inv_mapEntry r.path (e := asHit e) h rfl hall,trivial⟩

theorem turn_reverting {done rest : List PlanEntry} {slots : List ℕ} {err : Errno}
    (h : Inv Z c (sectionParty (.reverting done rest slots err)::ps)) :
    Inv Z (turn c (.reverting done rest slots err)).1
      (placeParty (turn c (.reverting done rest slots err)).2::ps) ∧
    PlaceOk sha512 Z (turn c (.reverting done rest slots err)).1
      (turn c (.reverting done rest slots err)).2 := by
  cases rest with
  | nil => exact ⟨h,trivial⟩
  | cons e es =>
    have happ : misses (done++[e]) = misses done++misses [e] := List.filter_append ..
    cases hk : e.kind with
    | hit =>
      simp only [turn,hk]
      refine ⟨?_,trivial⟩
      simp only [placeParty,sectionParty,happ,misses_hit [] hk]
      rw [show misses done++misses [] = misses done from List.append_nil _]
      exact inv_drop h hk
    | miss =>
      simp only [turn,hk]
      refine ⟨?_,trivial⟩
      simp only [placeParty,sectionParty,happ,misses_miss [] hk]
      refine inv_replan ?_ h
      rw [←List.append_assoc]
      exact (List.perm_append_singleton e (es++misses done)).symm

theorem turn_draining {r : WriteReq} {plan : List PlanEntry} {taken : List ℕ}
    (h : Inv Z c (sectionParty (.draining r plan taken)::ps))
    (hok : SectionOk sha512 Z c (.draining r plan taken)) :
    Inv Z (turn c (.draining r plan taken)).1
      (placeParty (turn c (.draining r plan taken)).2::ps) ∧
    PlaceOk sha512 Z (turn c (.draining r plan taken)).1 (turn c (.draining r plan taken)).2 := by
  simp only [turn]
  split_ifs with hn
  · cases hl : c.freeBlockList with
    | nil => exact ⟨h,hok⟩
    | cons q l =>
      refine ⟨inv_slots h rfl rfl rfl ?_,hok.1,by simp; omega⟩
      have hs := h.slots
      rw [hl] at hs
      simp only [sectionParty,List.flatMap_cons,Party.slots,Bool.false_eq_true,if_false,
        List.append_nil] at hs
      refine List.Perm.trans ?_ hs
      refine List.Perm.append_right _ ?_
      change (l++(taken++[q]++ps.flatMap Party.slots)).Perm (q::l++(taken++ps.flatMap Party.slots))
      have hmid := @List.perm_middle _ q (l++taken) (ps.flatMap Party.slots)
      simpa only [List.append_assoc,List.cons_append,List.nil_append] using hmid
  · exact ⟨h,hok⟩

theorem turn_discarding {rest : List PlanEntry} {err : Errno}
    (h : Inv Z c (sectionParty (.discarding rest err)::ps)) :
    Inv Z (turn c (.discarding rest err)).1 (placeParty (turn c (.discarding rest err)).2::ps) ∧
    PlaceOk sha512 Z (turn c (.discarding rest err)).1 (turn c (.discarding rest err)).2 := by
  cases rest with
  | nil => exact ⟨h,trivial⟩
  | cons e es =>
    cases hk : e.kind with
    | hit =>
      simp only [turn,hk]
      simp only [sectionParty,misses_hit es hk] at h
      exact ⟨h,trivial⟩
    | miss =>
      simp only [turn,hk]
      simp only [sectionParty,misses_miss es hk] at h
      refine ⟨inv_discard h hk (fun m hm hi => ?_),trivial⟩
      have hmk : m.kind = .miss := by simpa using (List.mem_filter.mp hm).2
      have hs := h.single e.info
      have hp : 0 < planMisses (misses es) e.info := by
        rw [Nat.pos_iff_ne_zero,Ne,planMisses_zero]
        exact fun hz => hz m hm hmk hi
      simp only [heldMisses_cons,planMisses_cons,hk,true_and,if_true] at hs
      omega

theorem turn_inv {sec : Section} (h : Inv Z c (sectionParty sec::ps))
    (hok : SectionOk sha512 Z c sec) :
    Inv Z (turn c sec).1 (placeParty (turn c sec).2::ps) ∧
      PlaceOk sha512 Z (turn c sec).1 (turn c sec).2 := by
  cases sec with
  | removing path size n i slots =>
    cases n with
    | zero =>
      cases size with
      | none => exact ⟨h,trivial⟩
      | some size => exact ⟨h,trivial⟩
    | succ n => exact ⟨inv_removeBlock i h,trivial⟩
  | publishing r done rest slots => exact turn_publishing h hok
  | mapping r rest slots => exact turn_mapping h
  | reverting done rest slots err => exact turn_reverting h
  | draining r plan taken => exact turn_draining h hok
  | discarding rest err => exact turn_discarding h

theorem opens_inv {st : Stage} {sec : Section} (ho : opens st = some sec)
    (h : Inv Z c (party st::ps)) (hok : StageOk sha512 st) (hroom : RoomAt sha512 c st)
    (hlose : LosersAt Z c st) : Inv Z c (sectionParty sec::ps) ∧ SectionOk sha512 Z c sec := by
  cases st with
  | drain r plan =>
    cases ho
    exact ⟨h,hok,by simp⟩
  | consolidate r plan =>
    cases ho
    have hplan : plan++([] : List PlanEntry).reverse.map asHit = plan := by simp
    refine ⟨?_,hok.2.1,winnerRoom_of hroom,?_⟩
    · simp only [sectionParty,hplan]
      exact h
    · rw [hplan]
      exact losersIn_of hlose
  | rollbackHits plan err =>
    cases ho
    have hplan : plan++misses [] = plan := by simp [misses]
    refine ⟨?_,trivial⟩
    simp only [sectionParty,hplan]
    exact h
  | rollbackMisses plan err =>
    cases ho
    exact ⟨h,trivial⟩
  | unlinkRemove path n =>
    cases ho
    exact ⟨h,trivial⟩
  | truncateRemove path size n m =>
    cases ho
    exact ⟨h,trivial⟩
  | _ => cases ho

theorem proceed_inv {st : Stage} {u : Context × Place} (h : Inv Z c (party st::ps))
    (hok : StageOk sha512 st) (hroom : RoomAt sha512 c st) (hlose : LosersAt Z c st)
    (hz : ∀ x, mallocAt sha512 ch c st = some x → x ∉ Z)
    (hp : proceed sha512 qsort ch c st = some u) :
    Inv Z u.1 (placeParty u.2::ps) ∧ PlaceOk sha512 Z u.1 u.2 := by
  rcases proceed_cases hp with ⟨sec,ho,rfl⟩ | ⟨_,v,hv,rfl⟩
  · exact opens_inv ho h hok hroom hlose
  · exact ⟨advance_inv h hok hroom hlose hz hv,advance_ok hok hv⟩

/-! ## What other calls leave alone -/

def SameChecks (c d : Context) : Prop :=
  d.hashToMaster = c.hashToMaster ∧ ∀ a, (d.cell a).refcount = (c.cell a).refcount

theorem sameChecks_refl (c : Context) : SameChecks c c := ⟨rfl,fun _ => rfl⟩

theorem sectionOk_same {sec : Section} (h : SameChecks c d) (hok : SectionOk sha512 Z c sec) :
    SectionOk sha512 Z d sec := by
  cases sec with
  | publishing r done rest slots =>
    obtain ⟨hd,hroom,hz⟩ := hok
    refine ⟨hd,?_,?_⟩
    · intro e he hk w hw
      rw [h.1] at hw
      rw [h.2]
      exact hroom e he hk w hw
    · intro e he hk hn
      rw [h.1] at hn
      exact hz e he hk hn
  | draining r plan taken => exact hok
  | _ => trivial

theorem assignSlots_checks (plan : List PlanEntry) (slots : List ℕ) (c : Context) :
    SameChecks c (assignSlots plan slots c).2 := by
  obtain ⟨hix,_,_,_⟩ := assignSlots_frame plan slots c
  refine ⟨congrArg Index.hashToMaster hix,?_⟩
  intro a
  exact (assignSlots_cell plan slots c a).2.1

theorem advance_checks {st : Stage} {u : Context × Stage} (ho : opens st = none)
    (hw : st.needsWrite = false) (hr : st.holdsRead = false)
    (hs : advance sha512 qsort ch c st = some u) : SameChecks c u.1 := by
  cases st with
  | append r plan taken =>
    cases hs
    exact assignSlots_checks plan _ _
  | flush r plan i =>
    cases hs
    unfold flushStep
    split
    · exact sameChecks_refl c
    · split <;> exact ⟨rfl,fun _ => rfl⟩
  | unlinkSize path =>
    simp only [advance] at hs
    split at hs <;> cases hs <;> exact sameChecks_refl c
  | truncateSize path size =>
    simp only [advance] at hs
    split at hs <;> cases hs <;> exact sameChecks_refl c
  | release slots res =>
    cases hs
    exact ⟨rfl,fun _ => rfl⟩
  | rollbackConcat plan slots err =>
    cases hs
    exact ⟨rfl,fun _ => rfl⟩
  | unlinkConcat path slots =>
    cases hs
    exact ⟨rfl,fun _ => rfl⟩
  | unlinkBacking path =>
    cases hs
    exact sameChecks_refl c
  | truncateConcat path size slots =>
    cases hs
    exact ⟨rfl,fun _ => rfl⟩
  | truncateBacking path size =>
    cases hs
    exact sameChecks_refl c
  | readGroups r pairs n buf =>
    cases hs
    exact sameChecks_refl c
  | pass1 r p => cases hr
  | readLookup r pairs buf => cases hr
  | unlinkDropSize path => cases hw
  | truncateShrink path size => cases hw
  | readDone r pairs n buf res => cases hs
  | done res => cases hs
  | _ => cases ho

theorem turn_checks {sec : Section} (hw : sec.holdsWrite = false) :
    SameChecks c (turn c sec).1 := by
  cases sec with
  | draining r plan taken =>
    simp only [turn]
    split_ifs
    · split <;> exact ⟨rfl,fun _ => rfl⟩
    · exact sameChecks_refl c
  | discarding rest err =>
    cases rest with
    | nil => exact sameChecks_refl c
    | cons e es =>
      simp only [turn]
      split <;> exact ⟨rfl,fun _ => rfl⟩
  | _ => cases hw

/-! ## Locks -/

/-- What two calls may hold at the same time. -/
structure Compatible (p q : Place) : Prop where
  writers : p.holdsWrite = true → q.holdsWrite = false
  reader : p.holdsWrite = true → q.holdsRead = false
  writer : q.holdsWrite = true → p.holdsRead = false
  mutex : p.holdsMutex = true → q.holdsMutex = false

theorem compatible_symm {p q : Place} (h : Compatible p q) : Compatible q p where
  writers hq := by
    by_contra hp
    rw [h.writers (Bool.eq_true_of_not_eq_false hp)] at hq
    cases hq
  reader := h.writer
  writer := h.reader
  mutex hq := by
    by_contra hp
    rw [h.mutex (Bool.eq_true_of_not_eq_false hp)] at hq
    cases hq

theorem compatible_mono {p p' q : Place} (hw : p'.holdsWrite = true → p.holdsWrite = true)
    (hr : p'.holdsRead = true → p.holdsRead = true) (hm : p'.holdsMutex = true → p.holdsMutex = true)
    (h : Compatible p q) : Compatible p' q where
  writers hp := h.writers (hw hp)
  reader hp := h.reader (hw hp)
  writer hq := by
    by_contra hp
    have := hr (Bool.eq_true_of_not_eq_false hp)
    rw [h.writer hq] at this
    cases this
  mutex hp := h.mutex (hm hp)

theorem advance_holdsRead {st : Stage} {u : Context × Stage}
    (hs : advance sha512 qsort ch c st = some u) (hr : u.2.holdsRead = true) :
    st.holdsRead = true := by
  cases st with
  | pass1 r p => rfl
  | readLookup r pairs buf => rfl
  | flush r plan i =>
    cases hs
    unfold flushStep at hr
    split at hr
    · cases hr
    · split at hr <;> cases hr
  | unlinkSize path =>
    simp only [advance] at hs
    split at hs <;> cases hs <;> cases hr
  | truncateSize path size =>
    simp only [advance] at hs
    split at hs <;> cases hs <;> cases hr
  | readGroups r pairs n buf =>
    cases hs
    simp only [readStep] at hr
    split at hr
    · cases hr
    · split at hr <;> cases hr
  | _ => cases hs <;> cases hr

def turnsLeft : Section → ℕ
  | .removing _ _ n _ _ => n
  | .publishing _ done rest _ => 2*rest.length+done.length+1
  | .mapping _ rest _ => rest.length
  | .reverting _ rest _ _ => rest.length
  | .draining _ plan taken => missCount plan-taken.length
  | .discarding rest _ => rest.length

theorem turn_cases (c : Context) (sec : Section) :
    (∃ st, (turn c sec).2 = .outside st ∧ st.holdsRead = false) ∨
    (∃ sec', (turn c sec).2 = .inside sec' ∧ sec'.holdsWrite = sec.holdsWrite ∧
      turnsLeft sec' < turnsLeft sec) := by
  cases sec with
  | removing path size n i slots =>
    cases n with
    | zero =>
      cases size with
      | none => exact Or.inl ⟨_,rfl,rfl⟩
      | some size => exact Or.inl ⟨_,rfl,rfl⟩
    | succ n => exact Or.inr ⟨_,rfl,rfl,Nat.lt_succ_self n⟩
  | publishing r done rest slots =>
    cases rest with
    | nil => exact Or.inr ⟨_,rfl,rfl,by simp [turnsLeft]⟩
    | cons e es => exact Or.inr ⟨_,rfl,rfl,by simp [turnsLeft]; omega⟩
  | mapping r rest slots =>
    cases rest with
    | nil => exact Or.inl ⟨_,rfl,rfl⟩
    | cons e es => exact Or.inr ⟨_,rfl,rfl,Nat.lt_succ_self es.length⟩
  | reverting done rest slots err =>
    cases rest with
    | nil => exact Or.inl ⟨_,rfl,rfl⟩
    | cons e es =>
      simp only [turn]
      split <;> exact Or.inr ⟨_,rfl,rfl,Nat.lt_succ_self es.length⟩
  | draining r plan taken =>
    simp only [turn]
    split_ifs with hn
    · split
      · exact Or.inl ⟨_,rfl,rfl⟩
      · exact Or.inr ⟨_,rfl,rfl,by simp [turnsLeft]; omega⟩
    · exact Or.inl ⟨_,rfl,rfl⟩
  | discarding rest err =>
    cases rest with
    | nil => exact Or.inl ⟨_,rfl,rfl⟩
    | cons e es =>
      simp only [turn]
      split <;> exact Or.inr ⟨_,rfl,rfl,Nat.lt_succ_self es.length⟩

theorem turn_holds (c : Context) (sec : Section) :
    ((turn c sec).2.holdsRead = true → Place.holdsRead (.inside sec) = true) ∧
    ((turn c sec).2.holdsWrite = true → Place.holdsWrite (.inside sec) = true) ∧
    ((turn c sec).2.holdsMutex = true → Place.holdsMutex (.inside sec) = true) := by
  rcases turn_cases c sec with ⟨st,hst,hr⟩ | ⟨sec',hsec,hw,_⟩
  · rw [hst]
    refine ⟨?_,(fun h => by cases h),(fun h => by cases h)⟩
    intro h
    rw [Place.holdsRead,hr] at h
    cases h
  · rw [hsec]
    simp only [Place.holdsWrite,Place.holdsMutex,hw]
    exact ⟨(fun h => by cases h),id,id⟩

theorem turn_compatible (c : Context) {sec : Section} {q : Place}
    (h : Compatible (.inside sec) q) : Compatible (turn c sec).2 q := by
  obtain ⟨hr,hw,hm⟩ := turn_holds c sec
  exact compatible_mono hw hr hm h

theorem opens_locks {st : Stage} {sec : Section} (ho : opens st = some sec) :
    (sec.holdsWrite = true ∧ st.needsWrite = true) ∨
    (sec.holdsWrite = false ∧ takesMutex st = true) := by
  cases st with
  | drain r plan =>
    cases ho
    exact Or.inr ⟨rfl,rfl⟩
  | rollbackMisses plan err =>
    cases ho
    exact Or.inr ⟨rfl,rfl⟩
  | consolidate r plan =>
    cases ho
    exact Or.inl ⟨rfl,rfl⟩
  | rollbackHits plan err =>
    cases ho
    exact Or.inl ⟨rfl,rfl⟩
  | unlinkRemove path n =>
    cases ho
    exact Or.inl ⟨rfl,rfl⟩
  | truncateRemove path size n m =>
    cases ho
    exact Or.inl ⟨rfl,rfl⟩
  | _ => cases ho

theorem proceed_compatible {st : Stage} {u : Context × Place} {places : List Place} {q : Place}
    (hg : Granted places st) (hq : q ∈ places) (hc : Compatible (.outside st) q)
    (hp : proceed sha512 qsort ch c st = some u) : Compatible u.2 q := by
  rcases proceed_cases hp with ⟨sec,ho,rfl⟩ | ⟨_,v,hv,rfl⟩
  · rcases opens_locks ho with ⟨hw,hn⟩ | ⟨hw,hm⟩
    · obtain ⟨hr,hww⟩ := hg.write hn q hq
      refine ⟨fun _ => hww,fun _ => hr,fun _ => rfl,fun h => ?_⟩
      rw [Place.holdsMutex,hw] at h
      cases h
    · have hout : Place.holdsWrite (.inside sec) ≠ true := by
        rw [Place.holdsWrite,hw]
        exact Bool.false_ne_true
      exact ⟨fun h => absurd h hout,fun h => absurd h hout,fun _ => rfl,fun _ => hg.mutex hm q hq⟩
  · refine compatible_mono (fun h => by cases h) ?_ (fun h => by cases h) hc
    intro h
    exact advance_holdsRead hv h

/-! ## Every state of a run -/

structure LockedInv (sha512 : List UInt8 → Hash) (Z : Set Ptr) (s : Locked) : Prop where
  ledger : Inv Z s.ctx (s.places.map placeParty)
  placed : ∀ p ∈ s.places, PlaceOk sha512 Z s.ctx p
  exclusive : s.places.Pairwise Compatible

def stageAt (s : Locked) : Move → Option Stage
  | .step i _ =>
    match s.places[i]? with
    | some (.outside st) => some st
    | _ => none
  | _ => none

/-- The step neither wraps a counter nor loses a double check on an object that a
HIT of its batch shares. -/
def LockedClean (sha512 : List UInt8 → Hash) (s : Locked) (m : Move) : Prop :=
  ∀ st ∈ stageAt s m, RoomAt sha512 s.ctx st ∧ LosersAt ∅ s.ctx st

instance (s : Locked) (m : Move) : Decidable (LockedClean sha512 s m) :=
  inferInstanceAs (Decidable (∀ st ∈ stageAt s m, (∀ b ∈ increments sha512 s.ctx st,
    (s.ctx.cell b).refcount+1 < refcountMod) ∧ ∀ b ∈ sharedLosers s.ctx st, False))

theorem lockedInv_empty : LockedInv sha512 Z emptyLocked :=
  ⟨inv_empty Z,by simp [emptyLocked],by simp [emptyLocked]⟩

theorem exclusive_others {places : List Place} {i : ℕ} {p : Place}
    (h : places.Pairwise Compatible) (hp : places[i]? = some p) :
    (∀ q ∈ places.eraseIdx i, Compatible p q) ∧ (places.eraseIdx i).Pairwise Compatible := by
  obtain ⟨hperm,_⟩ := set_perm places i p p hp
  exact List.pairwise_cons.mp (hperm.pairwise h (fun hx => compatible_symm hx))

theorem exclusive_set {places : List Place} {i : ℕ} {p p' : Place}
    (h : places.Pairwise Compatible) (hp : places[i]? = some p)
    (hc : ∀ q ∈ places.eraseIdx i, Compatible p' q) : (places.set i p').Pairwise Compatible := by
  obtain ⟨_,hperm⟩ := set_perm places i p p' hp
  have hall := List.pairwise_cons.mpr ⟨hc,(exclusive_others h hp).2⟩
  exact hperm.symm.pairwise hall (fun hx => compatible_symm hx)

theorem lockedInv_set {s : Locked} {i : ℕ} {p p' : Place} {d : Context} (h : LockedInv sha512 Z s)
    (hp : s.places[i]? = some p)
    (hinv : Inv Z s.ctx (placeParty p::(s.places.eraseIdx i).map placeParty) → PlaceOk sha512 Z s.ctx p →
      Inv Z d (placeParty p'::(s.places.eraseIdx i).map placeParty) ∧ PlaceOk sha512 Z d p')
    (hc : ∀ q ∈ s.places.eraseIdx i, Compatible p q → Compatible p' q)
    (hsame : ∀ sec, .inside sec ∈ s.places.eraseIdx i → SectionOk sha512 Z s.ctx sec →
      SectionOk sha512 Z d sec) : LockedInv sha512 Z ⟨d,s.places.set i p'⟩ := by
  obtain ⟨hperm,hperm'⟩ := set_perm s.places i p p' hp
  obtain ⟨hi,hok⟩ := hinv (inv_perm (hperm.map placeParty) h.ledger)
    (h.placed p (List.mem_of_getElem? hp))
  refine ⟨inv_perm (hperm'.map placeParty).symm hi,?_,?_⟩
  · intro q hq
    rcases List.mem_cons.mp (hperm'.mem_iff.mp hq) with rfl | hq
    · exact hok
    · have hold := h.placed q (hperm.mem_iff.mpr (List.mem_cons_of_mem p hq))
      cases q with
      | outside st => exact hold
      | inside sec => exact hsame sec hq hold
  · refine exclusive_set h.exclusive hp ?_
    intro q hq
    exact hc q hq ((exclusive_others h.exclusive hp).1 q hq)

theorem sectionOk_mutex {sec : Section} (hw : sec.holdsWrite = false)
    (hok : SectionOk sha512 Z c sec) : SectionOk sha512 Z d sec := by
  cases sec with
  | draining r plan taken => exact hok
  | discarding rest err => trivial
  | _ => cases hw

theorem lockedInv_step {s t : Locked} {i : ℕ} (h : LockedInv sha512 Z s)
    (hc : ∀ st ∈ stageAt s (.step i ch), RoomAt sha512 s.ctx st ∧ LosersAt Z s.ctx st)
    (hz : ∀ st ∈ stageAt s (.step i ch), ∀ x, mallocAt sha512 ch s.ctx st = some x → x ∉ Z)
    (hs : move sha512 qsort s (.step i ch) = some t) : LockedInv sha512 Z t := by
  obtain ⟨st,u,hst,hg,hu,rfl⟩ := move_step hs
  have hat : st ∈ stageAt s (.step i ch) := by simp [stageAt,hst]
  have herase : ∀ q ∈ s.places.eraseIdx i, q ∈ s.places := fun q hq => List.mem_of_mem_eraseIdx hq
  refine lockedInv_set h hst ?_ ?_ ?_
  · intro hi hok
    exact proceed_inv hi hok (hc st hat).1 (hc st hat).2 (hz st hat) hu
  · intro q hq hcomp
    exact proceed_compatible hg (herase q hq) hcomp hu
  · intro sec hsec hok
    by_cases hw : sec.holdsWrite = true
    · -- a writer is inside: the step takes `metadata_rwlock` in no mode
      refine sectionOk_same ?_ hok
      rcases proceed_cases hu with ⟨sec',_,rfl⟩ | ⟨ho,v,hv,rfl⟩
      · exact sameChecks_refl s.ctx
      · refine advance_checks ho ?_ ?_ hv
        · by_contra hn
          have := (hg.write (Bool.eq_true_of_not_eq_false hn) _ (herase _ hsec)).2
          rw [Place.holdsWrite,hw] at this
          cases this
        · exact ((exclusive_others h.exclusive hst).1 _ hsec).writer hw
    · exact sectionOk_mutex (Bool.eq_false_of_not_eq_true hw) hok

theorem lockedInv_turn {s t : Locked} {i : ℕ} (h : LockedInv sha512 Z s)
    (hs : move sha512 qsort s (.turn i) = some t) : LockedInv sha512 Z t := by
  obtain ⟨sec,hsec,rfl⟩ := move_turn hs
  refine lockedInv_set h hsec turn_inv (fun q _ hcomp => turn_compatible s.ctx hcomp) ?_
  intro sec' hsec' hok
  by_cases hw : sec'.holdsWrite = true
  · have hcomp := (exclusive_others h.exclusive hsec).1 _ hsec'
    refine sectionOk_same (turn_checks ?_) hok
    exact (compatible_symm hcomp).writers hw
  · exact sectionOk_mutex (Bool.eq_false_of_not_eq_true hw) hok

theorem lockedInv_call {s t : Locked} {k : Call} (h : LockedInv sha512 Z s)
    (hs : move sha512 qsort s (.call k) = some t) : LockedInv sha512 Z t := by
  obtain ⟨ha,rfl⟩ := move_call hs
  have hi : Inv Z s.ctx (party k.start::s.places.map placeParty) := by
    rcases start_party k with hp | hp
    · rw [hp]
      exact (inv_idle false).mpr h.ledger
    · rw [hp]
      exact (inv_idle true).mpr h.ledger
  refine ⟨inv_perm ?_ hi,?_,?_⟩
  · rw [List.map_append]
    exact (List.perm_append_singleton _ _).symm
  · intro p hp
    rcases List.mem_append.mp hp with hp | hp
    · exact h.placed p hp
    · rw [List.mem_singleton.mp hp]
      exact start_ok k
  · rw [List.pairwise_append]
    refine ⟨h.exclusive,List.pairwise_singleton _ _,?_⟩
    intro p hp q hq
    rw [List.mem_singleton.mp hq]
    refine ⟨fun _ => rfl,?_,(fun hw => by cases hw),fun _ => rfl⟩
    intro hw
    by_contra hr
    have := ha (Bool.eq_true_of_not_eq_false hr) p hp
    rw [this] at hw
    cases hw

theorem lockedInv_move {s t : Locked} {m : Move} (h : LockedInv sha512 ∅ s)
    (hc : LockedClean sha512 s m) (hs : move sha512 qsort s m = some t) :
    LockedInv sha512 ∅ t := by
  cases m with
  | call k => exact lockedInv_call h hs
  | step i ch => exact lockedInv_step h hc (fun _ _ _ _ => Set.notMem_empty _) hs
  | turn i => exact lockedInv_turn h hs

end ArchivalDedup.SectionLedger
