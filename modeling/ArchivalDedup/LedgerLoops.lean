import ArchivalDedup.LedgerPasses
import ArchivalDedup.Passthrough

/-!
# Consolidation, rollback and removal keep the ledger balanced

The loops under the write lock, followed entry by entry. The condition on the
first loop of pass 3 is the one the double check needs: where a winner is
found for a MISS that HITs of the same batch share, the pending object is left
behind in `Z`.
-/

set_option autoImplicit false

namespace ArchivalDedup.LedgerLoops
open ArchivalDedup.FiniteTable ArchivalDedup.MetaIndex ArchivalDedup.WriteDedup
open ArchivalDedup.Passthrough ArchivalDedup.PlanShape ArchivalDedup.Ledger
open ArchivalDedup.LedgerMoves ArchivalDedup.LedgerPublication ArchivalDedup.LedgerPasses

variable {Z : Set Ptr} {c : Context} {plan : List PlanEntry} {extra : List ℕ} {assigned : Bool}
  {ps : List Party}

/-- No increment of a winner's counter wraps. -/
def WinnerRoom (c : Context) (plan : List PlanEntry) : Prop :=
  ∀ e ∈ plan, e.kind = .miss → ∀ w, find c.hashToMaster e.hash = some w →
    (c.cell w).refcount+1 < refcountMod

/-- A MISS whose content has been published meanwhile shares its pending
object with no HIT of the batch, unless the object is in `Z`. -/
def LosersIn (Z : Set Ptr) (c : Context) (plan rest : List PlanEntry) : Prop :=
  ∀ e ∈ rest, e.kind = .miss → find c.hashToMaster e.hash ≠ none →
    (∃ m ∈ plan, m.kind = .hit ∧ m.info = e.info) → e.info ∈ Z

theorem publishEntry_hit {e : PlanEntry} (c : Context) (slots : List ℕ) (he : e.kind = .hit) :
    publishEntry c slots e = (c,slots,e) := by
  simp only [publishEntry,he]

theorem publishEntry_win {e : PlanEntry} {c : Context} (slots : List ℕ) (he : e.kind = .miss)
    (hh : (c.cell e.info).hash = e.hash) (hn : find c.hashToMaster e.hash = none) :
    publishEntry c slots e = (c.insertHash e.hash e.info,slots,e) := by
  simp only [publishEntry,he,hh,Context.lookupByHash,hn]

theorem publishEntry_lose {e : PlanEntry} {c : Context} {w : Ptr} (slots : List ℕ)
    (he : e.kind = .miss) (hh : (c.cell e.info).hash = e.hash)
    (hn : find c.hashToMaster e.hash = some w) : publishEntry c slots e =
      ((c.free e.info).fetchAdd w,e.masterBlk::slots,{ e with info := w }) := by
  simp only [publishEntry,he,hh,Context.lookupByHash,hn]

/-- One iteration: the entry is a plain reference afterwards, lookups of other
hashes and the counters behind them are as before. -/
theorem inv_publishEntry {e : PlanEntry} (h : Inv Z c (⟨e::plan,extra,true⟩::ps))
    (hroom : WinnerRoom c [e]) (hz : LosersIn Z c plan [e]) :
    Inv Z (publishEntry c extra e).1
      (⟨asHit (publishEntry c extra e).2.2::plan,(publishEntry c extra e).2.1,true⟩::ps) ∧
    (e.kind = .miss → (publishEntry c extra e).2.2.info ∈ c.live ∧
      Published (publishEntry c extra e).1 (publishEntry c extra e).2.2.info) ∧
    (∀ k, (e.kind = .miss → k ≠ e.hash) →
      find (publishEntry c extra e).1.hashToMaster k = find c.hashToMaster k) ∧
    (∀ k w, (e.kind = .miss → k ≠ e.hash) → find c.hashToMaster k = some w →
      ((publishEntry c extra e).1.cell w).refcount = (c.cell w).refcount) := by
  cases hk : e.kind with
  | hit =>
    rw [publishEntry_hit c extra hk]
    have hself : asHit e = e := by
      cases e
      simp_all [asHit]
    rw [hself]
    exact ⟨h,(fun hh => by cases hh),fun _ _ => rfl,fun _ _ _ _ => rfl⟩
  | miss =>
    obtain ⟨hl,hh,_⟩ := h.pending _ (List.mem_cons_self ..) e (List.mem_cons_self ..) hk
    cases hn : find c.hashToMaster e.hash with
    | none =>
      rw [publishEntry_win extra hk hh hn]
      refine ⟨inv_publish h hk hn,fun _ => ⟨hl,?_⟩,?_,fun _ _ _ _ => rfl⟩
      · change find (c.hashToMaster.insert e.hash e.info) (c.cell e.info).hash = some e.info
        rw [find_insert,if_pos hh]
      · intro k hne
        change find (c.hashToMaster.insert e.hash e.info) k = _
        rw [find_insert,if_neg (hne rfl)]
    | some w =>
      rw [publishEntry_lose extra hk hh hn]
      have hone : e ∈ [e] := List.mem_singleton.mpr rfl
      obtain ⟨hwh,hwl,_⟩ := h.keyed _ _ hn
      have hmiss : ∀ m ∈ plan, m.info = e.info → m.kind = .hit := by
        intro m hm hi
        by_contra hmk
        have hmk : m.kind = .miss := by
          cases hx : m.kind with
          | hit => exact absurd hx hmk
          | miss => rfl
        have hs := h.single e.info
        have hp : 0 < planMisses plan e.info := by
          rw [Nat.pos_iff_ne_zero,Ne,planMisses_zero]
          exact fun hz => hz m hm hmk hi
        simp only [heldMisses_cons,planMisses_cons,hk,true_and,if_true] at hs
        omega
      refine ⟨inv_lose h hk hn (hroom e hone hk w hn) ?_,fun _ => ⟨hwl,?_⟩,fun _ _ => rfl,?_⟩
      · rintro ⟨m,hm,hi⟩
        exact hz e hone hk (by simp [hn]) ⟨m,hm,hmiss m hm hi,hi⟩
      · change find c.hashToMaster (((c.free e.info).fetchAdd w).cell w).hash = some w
        rw [show (((c.free e.info).fetchAdd w).cell w).hash = e.hash from
          (setRefcount_hash _ _ _ w).trans hwh]
        exact hn
      · intro k v hne hv
        have hvw : v ≠ w := by
          intro hvw
          subst hvw
          exact hne rfl ((h.keyed k v hv).1.symm.trans hwh)
        rw [fetchAdd_refcount,if_neg hvw]
        rfl

theorem inv_publishEntry_rest {e : PlanEntry} (es done : List PlanEntry)
    (h : Inv Z c (⟨e::es++done,extra,true⟩::ps)) (hd : MissDistinct (e::es))
    (hroom : WinnerRoom c (e::es)) (hz : LosersIn Z c (e::es++done) (e::es)) :
    Inv Z (publishEntry c extra e).1
      (⟨es++asHit (publishEntry c extra e).2.2::done,(publishEntry c extra e).2.1,true⟩::ps) ∧
    WinnerRoom (publishEntry c extra e).1 es ∧
    LosersIn Z (publishEntry c extra e).1 (es++asHit (publishEntry c extra e).2.2::done) es := by
  obtain ⟨hde,_⟩ := List.pairwise_cons.mp hd
  have hz₀ : LosersIn Z c (es++done) [e] := by
    intro f hf hk hn hex
    have hf' := List.mem_singleton.mp hf
    subst hf'
    obtain ⟨m,hm,hmk⟩ := hex
    exact hz f (List.mem_cons_self ..) hk hn ⟨m,List.mem_cons_of_mem _ hm,hmk⟩
  have hroom₀ : WinnerRoom c [e] := by
    intro f hf
    have hf' := List.mem_singleton.mp hf
    subst hf'
    exact hroom f (List.mem_cons_self ..)
  obtain ⟨h₁,h₂,h₃,h₄⟩ := inv_publishEntry (e := e) h hroom₀ hz₀
  set t := publishEntry c extra e with ht
  have hperm : (asHit t.2.2::(es++done)).Perm (es++asHit t.2.2::done) := List.perm_middle.symm
  have h₅ : Inv Z t.1 (⟨es++asHit t.2.2::done,t.2.1,true⟩::ps) := inv_replan hperm h₁
  have hne : ∀ f ∈ es, f.kind = .miss → e.kind = .miss → f.hash ≠ e.hash :=
    fun f hf hk hek => (hde f hf hek hk).symm
  refine ⟨h₅,?_,?_⟩
  · intro f hf hk w hw
    rw [h₃ _ (hne f hf hk)] at hw
    rw [h₄ _ w (hne f hf hk) hw]
    exact hroom f (List.mem_cons_of_mem _ hf) hk w hw
  · intro f hf hk hn hex
    rw [h₃ _ (hne f hf hk)] at hn
    obtain ⟨m,hm,hmk,hmi⟩ := hex
    apply hz f (List.mem_cons_of_mem _ hf) hk hn
    rcases List.mem_append.mp hm with hm | hm
    · exact ⟨m,by simp [hm],hmk,hmi⟩
    · rcases List.mem_cons.mp hm with hm | hm
      · cases hek : e.kind with
        | hit =>
          have hte : t = (c,extra,e) := publishEntry_hit c extra hek
          refine ⟨e,by simp,hek,?_⟩
          rw [← hmi,hm,hte]
          rfl
        | miss =>
          have hpub := (h₂ hek).2
          have hnp := (others_clear h₅ (e := f) (by simp [hf]) hk).2.2
          rw [← hmi,hm] at hnp
          exact absurd hpub hnp
      · exact ⟨m,by simp [hm],hmk,hmi⟩

theorem inv_publishPlan (rest done : List PlanEntry)
    (h : Inv Z c (⟨rest++done,extra,true⟩::ps)) (hd : MissDistinct rest)
    (hroom : WinnerRoom c rest) (hz : LosersIn Z c (rest++done) rest) :
    Inv Z (publishPlan rest c extra).1
      (⟨(publishPlan rest c extra).2.2.map asHit++done,(publishPlan rest c extra).2.1,true⟩::ps) := by
  induction rest generalizing c extra done with
  | nil => exact h
  | cons e es ih =>
    obtain ⟨h₁,hroom',hz'⟩ := inv_publishEntry_rest es done h hd hroom hz
    set t := publishEntry c extra e with ht
    have h₂ := ih (asHit t.2.2::done) h₁ (List.pairwise_cons.mp hd).2 hroom' hz'
    simp only [publishPlan,← ht]
    have hperm' : ((publishPlan es t.1 t.2.1).2.2.map asHit++asHit t.2.2::done).Perm
        ((t.2.2::(publishPlan es t.1 t.2.1).2.2).map asHit++done) := by
      simp
    exact inv_replan hperm' h₂

theorem dropReference_fileToMaster (c : Context) (t : Table BlockIndice Ptr) (slots : List ℕ)
    (a : Ptr) : ({ c with fileToMaster := t }).dropReference slots a =
      ({ (c.dropReference slots a).1 with fileToMaster := t },(c.dropReference slots a).2) := by
  unfold Context.dropReference
  split_ifs <;> rfl

theorem dropReference_keeps (c : Context) (slots : List ℕ) (a : Ptr) :
    (c.dropReference slots a).1.fileToMaster = c.fileToMaster ∧
    (c.dropReference slots a).1.fileToSizes = c.fileToSizes := by
  unfold Context.dropReference
  split_ifs <;> exact ⟨rfl,rfl⟩

def heldEntry (a : Ptr) : PlanEntry := ⟨.hit,0,0,0,default,a⟩

theorem mapEntry_new {path : Path} {c : Context} {e : PlanEntry} (slots : List ℕ)
    (h : find c.fileToMaster ⟨path,e.logicalBlk⟩ = none) :
    mapEntry path c slots e = (c.insertFileBlock path e.logicalBlk e.info,slots) := by
  simp only [mapEntry,Context.lookupByFileBlock,h]

theorem mapEntry_old {path : Path} {c : Context} {e : PlanEntry} {old : Ptr} (slots : List ℕ)
    (h : find c.fileToMaster ⟨path,e.logicalBlk⟩ = some old) :
    mapEntry path c slots e =
      ((c.dropReference slots old).1.insertFileBlock path e.logicalBlk e.info,
        (c.dropReference slots old).2) := by
  simp only [mapEntry,Context.lookupByFileBlock,h]

theorem inv_mapEntry (path : Path) {e : PlanEntry} (h : Inv Z c (⟨e::plan,extra,assigned⟩::ps))
    (he : e.kind = .hit) (hall : ∀ m ∈ plan, m.kind = .hit) :
    Inv Z (mapEntry path c extra e).1 (⟨plan,(mapEntry path c extra e).2,assigned⟩::ps) := by
  cases hk : find c.fileToMaster ⟨path,e.logicalBlk⟩ with
  | none =>
    rw [mapEntry_new extra hk]
    exact inv_map h he hk hall
  | some old =>
    -- unmap, drop and map again: the decrement itself never looks at the mappings
    have h₁ := inv_unmap (e := heldEntry old) h rfl hk
    have h₂ := inv_drop h₁ rfl
    rw [dropReference_fileToMaster] at h₂
    have h₃ := inv_map (k := ⟨path,e.logicalBlk⟩) h₂ he (AList.lookup_erase _ _) hall
    simp only [insert_erase] at h₃
    rw [mapEntry_old extra hk,Context.insertFileBlock,(dropReference_keeps c extra old).1]
    exact h₃

theorem inv_mapPlan (path : Path) (h : Inv Z c (⟨plan.map asHit,extra,assigned⟩::ps)) :
    Inv Z (mapPlan path plan c extra).1 (⟨[],(mapPlan path plan c extra).2,assigned⟩::ps) := by
  induction plan generalizing c extra with
  | nil => exact h
  | cons e es ih =>
    have hall : ∀ m ∈ es.map asHit, m.kind = .hit := by
      intro m hm
      obtain ⟨f,_,rfl⟩ := List.mem_map.mp hm
      rfl
    exact ih (inv_mapEntry path (e := asHit e) h rfl hall)

theorem inv_sizes (t : Table Path ℕ) (h : Inv Z c ps) : Inv Z { c with fileToSizes := t } ps :=
  ⟨h.counted,h.bounded,h.positive,h.keyed,h.owned,h.single,h.pending,h.shared,h.stale,h.slots⟩

theorem inv_file (f : MasterFile) (h : Inv Z c ps) : Inv Z { c with toMasterFile := f } ps :=
  ⟨h.counted,h.bounded,h.positive,h.keyed,h.owned,h.single,h.pending,h.shared,h.stale,h.slots⟩

theorem inv_growSize (path : Path) (n : ℕ) (h : Inv Z c ps) : Inv Z (growSize c path n) ps := by
  unfold growSize
  split
  · exact inv_sizes _ h
  · split_ifs
    · exact inv_sizes _ h
    · exact h

theorem inv_consolidate {r : WriteReq} (h : Inv Z c (⟨plan,[],true⟩::ps)) (hd : MissDistinct plan)
    (hroom : WinnerRoom c plan) (hz : LosersIn Z c plan plan) :
    Inv Z (consolidate r plan c).1 (⟨[],(consolidate r plan c).2,true⟩::ps) := by
  have h₁ := inv_publishPlan plan [] (by simpa using h) hd hroom
    (by simpa using hz)
  rw [List.append_nil] at h₁
  exact inv_growSize _ _ (inv_mapPlan r.path h₁)

def misses (plan : List PlanEntry) : List PlanEntry := plan.filter (fun e => e.kind = .miss)

theorem misses_hit {e : PlanEntry} (es : List PlanEntry) (he : e.kind = .hit) :
    misses (e::es) = misses es := by
  simp [misses,he]

theorem misses_miss {e : PlanEntry} (es : List PlanEntry) (he : e.kind = .miss) :
    misses (e::es) = e::misses es := by
  simp [misses,he]

theorem inv_rollbackHits (rest done : List PlanEntry)
    (h : Inv Z c (⟨rest++done,extra,true⟩::ps)) :
    Inv Z (rollbackHits rest c extra).1
      (⟨misses rest++done,(rollbackHits rest c extra).2,true⟩::ps) := by
  induction rest generalizing c extra done with
  | nil => exact h
  | cons e es ih =>
    cases hk : e.kind with
    | hit =>
      simp only [rollbackHits,hk,misses_hit es hk]
      exact ih done (inv_drop h hk)
    | miss =>
      simp only [rollbackHits,hk,misses_miss es hk]
      have hperm : (e::(es++done)).Perm (es++e::done) := List.perm_middle.symm
      have hperm' : (misses es++e::done).Perm (e::misses es++done) := List.perm_middle
      exact inv_replan hperm' (ih (e::done) (inv_replan hperm h))

theorem inv_rollbackMisses (h : Inv Z c (⟨misses plan,extra,true⟩::ps)) :
    Inv Z (rollbackMisses plan c) (⟨[],extra,true⟩::ps) := by
  induction plan generalizing c with
  | nil => exact h
  | cons e es ih =>
    cases hk : e.kind with
    | hit =>
      rw [misses_hit es hk] at h
      simp only [rollbackMisses,hk]
      exact ih h
    | miss =>
      rw [misses_miss es hk] at h
      simp only [rollbackMisses,hk]
      apply ih
      apply inv_discard h hk
      intro m hm hi
      have hmk : m.kind = .miss := by simpa using (List.mem_filter.mp hm).2
      have hs := h.single e.info
      have hp : 0 < planMisses (misses es) e.info := by
        rw [Nat.pos_iff_ne_zero,Ne,planMisses_zero]
        exact fun hz => hz m hm hmk hi
      simp only [heldMisses_cons,planMisses_cons,hk,true_and,if_true] at hs
      omega

theorem inv_removeBlock {path : Path} (i : ℕ) (h : Inv Z c (⟨[],extra,assigned⟩::ps)) :
    Inv Z (removeBlock path i c extra).1 (⟨[],(removeBlock path i c extra).2,assigned⟩::ps) := by
  unfold removeBlock Context.lookupByFileBlock
  cases hk : find c.fileToMaster ⟨path,i⟩ with
  | none => exact h
  | some info => exact inv_drop (inv_unmap (e := heldEntry info) h rfl hk) rfl

theorem inv_removeBlocks {path : Path} (n i : ℕ) (h : Inv Z c (⟨[],extra,assigned⟩::ps)) :
    Inv Z (removeBlocks path n i c extra).1
      (⟨[],(removeBlocks path n i c extra).2,assigned⟩::ps) := by
  induction n generalizing i c extra with
  | zero => exact h
  | succ n ih => exact ih (i+1) (inv_removeBlock i h)

end ArchivalDedup.LedgerLoops
