import ArchivalDedup.LedgerMoves

/-!
# Moves between the plan, the mappings and the index

A reference moves from a mapping into the hand of an operation and back, and a
pending object is published, given up for a winner, or discarded by rollback.
-/

set_option autoImplicit false

namespace ArchivalDedup.LedgerPublication
open ArchivalDedup.FiniteTable ArchivalDedup.MetaIndex ArchivalDedup.WriteDedup
open ArchivalDedup.Ledger ArchivalDedup.LedgerMoves

variable {Z : Set Ptr} {c : Context} {plan : List PlanEntry} {extra : List ℕ} {assigned : Bool}
  {ps : List Party} {e : PlanEntry}

/-- A mapping is taken out of `file_to_master`; its reference stays in hand. -/
theorem inv_unmap {k : BlockIndice} (h : Inv Z c (⟨plan,extra,assigned⟩::ps)) (he : e.kind = .hit)
    (hk : find c.fileToMaster k = some e.info) :
    Inv Z { c with fileToMaster := c.fileToMaster.erase k } (⟨e::plan,extra,assigned⟩::ps) := by
  have ho := occurrences_erase c.fileToMaster k e.info
  have hr : ∀ a, refs { c with fileToMaster := c.fileToMaster.erase k }
      (⟨e::plan,extra,assigned⟩::ps) a = refs c (⟨plan,extra,assigned⟩::ps) a := by
    intro a
    have := ho a hk
    simp only [refs,heldRefs_cons,planRefs_cons]
    omega
  have hm : ∀ a, heldMisses (⟨e::plan,extra,assigned⟩::ps) a =
      heldMisses (⟨plan,extra,assigned⟩::ps) a := by
    intro a
    simp [he]
  exact
    { counted := fun a ha => by rw [hr]; exact h.counted a ha
      bounded := h.bounded
      positive := fun a ha => by rw [hr]; exact h.positive a ha
      keyed := fun j a hj => by rw [hm]; exact h.keyed j a hj
      owned := by
        intro a ha
        rw [hm]
        refine (h.owned a ha).imp id (fun hp => ⟨hp.1,?_⟩)
        have := ho a hk
        have := hp.2
        change occurrences (c.fileToMaster.erase k) a = 0
        omega
      single := fun a => by rw [hm]; exact h.single a
      pending := by
        intro p hp m hmem hmk
        obtain ⟨q,hq,hmq,has⟩ := mem_hit_cons he hp hmem hmk
        rw [←has]
        exact h.pending q hq m hmq hmk
      shared := by
        intro p hp m hmem hlm
        rcases List.mem_cons.mp hp with rfl | hp
        · rcases List.mem_cons.mp hmem with rfl | hmem
          · rcases h.owned _ hlm with hpub | ⟨_,hz⟩
            · exact Or.inl hpub
            · have := (occurrences_pos c.fileToMaster m.info).mpr ⟨k,hk⟩
              omega
          · exact miss_cons e (h.shared _ (List.mem_cons_self ..) m hmem hlm)
        · exact h.shared p (by simp [hp]) m hmem hlm
      stale := fun a ha => by rw [hr]; exact h.stale a ha
      slots := by
        rw [hit_slots he]
        exact h.slots }

/-- A reference in hand becomes the mapping of a block that has none. The
party has no pending object left, so what it maps is indexed or freed. -/
theorem inv_map {k : BlockIndice} (h : Inv Z c (⟨e::plan,extra,assigned⟩::ps))
    (he : e.kind = .hit) (hk : find c.fileToMaster k = none) (hall : ∀ m ∈ plan, m.kind = .hit) :
    Inv Z { c with fileToMaster := c.fileToMaster.insert k e.info }
      (⟨plan,extra,assigned⟩::ps) := by
  have ho : ∀ a, occurrences (c.fileToMaster.insert k e.info) a =
      occurrences c.fileToMaster a+if e.info = a then 1 else 0 := by
    intro a
    rw [occurrences_insert,erase_absent _ _ hk]
  have hr : ∀ a, refs { c with fileToMaster := c.fileToMaster.insert k e.info }
      (⟨plan,extra,assigned⟩::ps) a = refs c (⟨e::plan,extra,assigned⟩::ps) a := by
    intro a
    have := ho a
    simp only [refs,heldRefs_cons,planRefs_cons]
    omega
  have hm : ∀ a, heldMisses (⟨plan,extra,assigned⟩::ps) a =
      heldMisses (⟨e::plan,extra,assigned⟩::ps) a := by
    intro a
    simp [he]
  have hpub : e.info ∈ c.live → Published c e.info := by
    intro hl
    rcases h.shared _ (List.mem_cons_self ..) e (List.mem_cons_self ..) hl with hp | ⟨m,hmem,hmk,_⟩
    · exact hp
    · rcases List.mem_cons.mp hmem with rfl | hmem
      · rw [he] at hmk
        cases hmk
      · rw [hall m hmem] at hmk
        cases hmk
  exact
    { counted := fun a ha => by rw [hr]; exact h.counted a ha
      bounded := h.bounded
      positive := fun a ha => by rw [hr]; exact h.positive a ha
      keyed := fun j a hj => by rw [hm]; exact h.keyed j a hj
      owned := by
        intro a ha
        rw [hm]
        rcases h.owned a ha with hp | ⟨h₁,h₂⟩
        · exact Or.inl hp
        · by_cases hi : e.info = a
          · exact Or.inl (hi ▸ hpub (hi ▸ ha))
          · refine Or.inr ⟨h₁,?_⟩
            change occurrences (c.fileToMaster.insert k e.info) a = 0
            rw [ho,h₂,if_neg hi]
      single := fun a => by rw [hm]; exact h.single a
      pending := by
        intro p hp m hmem hmk
        have hold := pending_rest h hp hmem hmk
        exact hold
      shared := by
        intro p hp m hmem hlm
        rcases shared_rest h hp hmem hlm with hs | hs | ⟨hk,_⟩
        · exact Or.inl hs
        · exact Or.inr hs
        · rw [he] at hk
          cases hk
      stale := fun a ha => by rw [hr]; exact h.stale a ha
      slots := by
        rw [←hit_slots he]
        exact h.slots }

theorem inv_release (h : Inv Z c (⟨plan,extra,assigned⟩::ps)) :
    Inv Z (c.releaseSlots extra) (⟨plan,[],assigned⟩::ps) :=
  { counted := h.counted
    bounded := h.bounded
    positive := h.positive
    keyed := h.keyed
    owned := h.owned
    single := h.single
    pending := by
      intro p hp m hmem hmk
      rcases List.mem_cons.mp hp with rfl | hp
      · exact h.pending _ (List.mem_cons_self ..) m hmem hmk
      · exact h.pending p (by simp [hp]) m hmem hmk
    shared := by
      intro p hp m hmem hlm
      rcases List.mem_cons.mp hp with rfl | hp
      · exact h.shared _ (List.mem_cons_self ..) m hmem hlm
      · exact h.shared p (by simp [hp]) m hmem hlm
    stale := h.stale
    slots := by
      have hs := h.slots
      simp only [List.flatMap_cons,Party.slots,List.append_assoc] at hs
      simp only [Context.releaseSlots,List.flatMap_cons,Party.slots,List.append_assoc,
        List.nil_append]
      refine List.Perm.trans ?_ hs
      simp only [← List.append_assoc]
      exact ((List.perm_append_comm.append_right _).append_right _).append_right _ }

/-! ## Publication -/

def asHit (e : PlanEntry) : PlanEntry := { e with kind := .hit }

section Publish

theorem publish_misses (plan : List PlanEntry) (extra : List ℕ) (ps : List Party)
    (he : e.kind = .miss) (a : Ptr) : heldMisses (⟨e::plan,extra,true⟩::ps) a =
    heldMisses (⟨asHit e::plan,extra,true⟩::ps) a+if e.info = a then 1 else 0 := by
  simp only [heldMisses_cons,planMisses_cons,he,asHit,true_and]
  simp
  omega

variable (he : e.kind = .miss) (h : Inv Z c (⟨e::plan,extra,true⟩::ps))
include he h

theorem publish_single : heldMisses (⟨asHit e::plan,extra,true⟩::ps) e.info = 0 := by
  have h₁ := publish_misses plan extra ps he e.info
  have h₂ := h.single e.info
  rw [if_pos rfl] at h₁
  omega

theorem publish_self : Published (c.insertHash e.hash e.info) e.info := by
  obtain ⟨_,hh,_⟩ := h.pending _ (List.mem_cons_self ..) e (List.mem_cons_self ..) he
  exact (find_insert c.hashToMaster _ _ _).trans (if_pos hh)

variable (hn : find c.hashToMaster e.hash = none)
include hn

omit he h in
theorem publish_published {a : Ptr} (hp : Published c a) :
    Published (c.insertHash e.hash e.info) a := by
  refine (find_insert c.hashToMaster _ _ _).trans ((if_neg ?_).trans hp)
  intro hk
  change (c.cell a).hash = e.hash at hk
  rw [Published,hk,hn] at hp
  cases hp

omit hn in
theorem publish_keyed : ∀ k a, find (c.insertHash e.hash e.info).hashToMaster k = some a →
    ((c.insertHash e.hash e.info).cell a).hash = k ∧ a ∈ (c.insertHash e.hash e.info).live ∧
      heldMisses (⟨asHit e::plan,extra,true⟩::ps) a = 0 := by
  obtain ⟨hl,hh,_⟩ := h.pending _ (List.mem_cons_self ..) e (List.mem_cons_self ..) he
  intro k a hk
  rw [show find (c.insertHash e.hash e.info).hashToMaster k =
    if k = e.hash then some e.info else find c.hashToMaster k from
      find_insert c.hashToMaster k _ _] at hk
  split_ifs at hk with hkey
  · cases hk
    exact ⟨hh.trans hkey.symm,hl,publish_single he h⟩
  · obtain ⟨h₁,h₂,h₃⟩ := h.keyed k a hk
    have := publish_misses plan extra ps he a
    exact ⟨h₁,h₂,by omega⟩

theorem publish_owned : ∀ a ∈ (c.insertHash e.hash e.info).live,
    Published (c.insertHash e.hash e.info) a ∨
      (heldMisses (⟨asHit e::plan,extra,true⟩::ps) a = 1 ∧
        occurrences (c.insertHash e.hash e.info).fileToMaster a = 0) := by
  intro a ha
  by_cases hi : e.info = a
  · exact Or.inl (hi ▸ publish_self he h)
  · have h₁ := publish_misses plan extra ps he a
    rw [if_neg hi] at h₁
    exact (h.owned a ha).imp (publish_published hn) (fun hp => ⟨by omega,hp.2⟩)

theorem publish_shared : ∀ p ∈ (⟨asHit e::plan,extra,true⟩::ps : List Party), ∀ m ∈ p.plan,
    m.info ∈ (c.insertHash e.hash e.info).live →
      Published (c.insertHash e.hash e.info) m.info ∨
        ∃ x ∈ p.plan, x.kind = .miss ∧ x.info = m.info := by
  intro p hp m hmem hlm
  rcases List.mem_cons.mp hp with rfl | hp
  · rcases List.mem_cons.mp hmem with rfl | hmem
    · exact Or.inl (publish_self he h)
    · rcases shared_rest (p := ⟨plan,extra,true⟩) h (List.mem_cons_self ..) hmem hlm with
        hs | ⟨x,hx,hk⟩ | ⟨_,hi⟩
      · exact Or.inl (publish_published hn hs)
      · exact Or.inr ⟨x,List.mem_cons_of_mem _ hx,hk⟩
      · exact Or.inl (hi ▸ publish_self he h)
  · exact (h.shared p (List.mem_cons_of_mem _ hp) m hmem hlm).imp (publish_published hn) id

theorem publish_slots : ((c.insertHash e.hash e.info).freeBlockList++
    (⟨asHit e::plan,extra,true⟩::ps : List Party).flatMap Party.slots++
      publishedSlots (c.insertHash e.hash e.info)).Perm (List.range c.nextBlockIndex) := by
  obtain ⟨_,_,hb⟩ := h.pending _ (List.mem_cons_self ..) e (List.mem_cons_self ..) he
  have hps : publishedSlots (c.insertHash e.hash e.info) = e.masterBlk::publishedSlots c := by
    have h₁ := values_by_insert (fun a => (c.cell a).masterBlockIndex) c.hashToMaster
      e.hash e.info hn
    simp only [hb rfl] at h₁
    exact h₁
  have hs := h.slots
  simp only [List.flatMap_cons,Party.slots,if_true,missSlots_miss he] at hs
  rw [hps]
  simp only [List.flatMap_cons,Party.slots,if_true,
    missSlots_hit (show (asHit e).kind = .hit from rfl)]
  refine List.Perm.trans ?_ hs
  change (c.freeBlockList++(extra++missSlots plan++ps.flatMap Party.slots)++_).Perm _
  simp only [List.append_assoc]
  refine List.Perm.append_left _ (List.Perm.append_left _ ?_)
  have hmid := @List.perm_middle _ e.masterBlk
    (missSlots plan++ps.flatMap Party.slots) (publishedSlots c)
  simpa only [List.append_assoc,List.cons_append] using hmid

end Publish

/-- The pending object enters `hash_to_master`; its count already includes
the HITs of the same batch. -/
theorem inv_publish (h : Inv Z c (⟨e::plan,extra,true⟩::ps)) (he : e.kind = .miss)
    (hn : find c.hashToMaster e.hash = none) :
    Inv Z (c.insertHash e.hash e.info) (⟨asHit e::plan,extra,true⟩::ps) := by
  have hr : ∀ a, refs (c.insertHash e.hash e.info) (⟨asHit e::plan,extra,true⟩::ps) a =
      refs c (⟨e::plan,extra,true⟩::ps) a := by
    intro a
    simp [refs,Context.insertHash,asHit]
  exact
    { counted := fun a ha => by rw [hr]; exact h.counted a ha
      bounded := h.bounded
      positive := fun a ha => by rw [hr]; exact h.positive a ha
      keyed := publish_keyed he h
      owned := publish_owned he h hn
      single := by
        intro a
        have := publish_misses plan extra ps he a
        have := h.single a
        omega
      pending := by
        intro p hp m hmem hk
        obtain ⟨q,hq,hmq,has⟩ := mem_hit_cons rfl hp hmem hk
        have hold := pending_rest h hq hmq hk
        rw [has] at hold
        exact hold
      shared := publish_shared he h hn
      stale := fun a ha => by rw [hr]; exact h.stale a ha
      slots := publish_slots he h hn }

/-! ## Pending objects that are freed -/

section Pending

variable {w : Ptr} (h : Inv Z c (⟨e::plan,extra,true⟩::ps)) (he : e.kind = .miss)
include h he

theorem pending_misses {e' : PlanEntry} (extra' : List ℕ) (he' : e'.kind = .hit) (a : Ptr) :
    heldMisses (⟨e::plan,extra,true⟩::ps) a =
        heldMisses (⟨plan,extra',true⟩::ps) a+(if e.info = a then 1 else 0) ∧
    heldMisses (⟨e'::plan,extra',true⟩::ps) a = heldMisses (⟨plan,extra',true⟩::ps) a ∧
    heldMisses (⟨plan,extra',true⟩::ps) e.info = 0 := by
  have hone := h.single e.info
  have hm : ∀ a, heldMisses (⟨e::plan,extra,true⟩::ps) a =
      heldMisses (⟨plan,extra',true⟩::ps) a+if e.info = a then 1 else 0 := by
    intro a
    simp only [heldMisses_cons,planMisses_cons,he,true_and]
    omega
  rw [hm,if_pos rfl] at hone
  exact ⟨hm a,by simp [he'],by omega⟩

theorem pending_indexed (k : Hash) (a : Ptr) (hk : find c.hashToMaster k = some a) :
    find c.hashToMaster k = some a ∧ a ≠ e.info := by
  refine ⟨hk,?_⟩
  rintro rfl
  refine (others_clear h (List.mem_cons_self ..) he).2.2 ?_
  rw [Published,(h.keyed k _ hk).1]
  exact hk

/-! ### The loser of the double check -/

abbrev toWinner (e : PlanEntry) (w : Ptr) : PlanEntry := { e with kind := .hit, info := w }

section Lose

variable (hn : find c.hashToMaster e.hash = some w)
include hn

omit he in
theorem lose_winner (hnp : ¬ Published c e.info) (hh : (c.cell e.info).hash = e.hash) :
    w ≠ e.info ∧ Published c w := by
  refine ⟨?_,?_⟩
  · rintro rfl
    exact hnp (by rw [Published,hh]; exact hn)
  · rw [Published,(h.keyed _ _ hn).1]
    exact hn

omit h he hn in
theorem lose_count (hw : (c.cell w).refcount+1 < refcountMod) (a : Ptr) :
    (((c.free e.info).fetchAdd w).cell a).refcount =
      (c.cell a).refcount+if w = a then 1 else 0 := by
  rw [fetchAdd_refcount]
  by_cases ha : a = w
  · subst ha
    simpa [Context.free] using Nat.mod_eq_of_lt hw
  · simp [ha,Ne.symm ha,Context.free]

theorem lose_frees (hw : (c.cell w).refcount+1 < refcountMod) :
    Frees e.info (fun a => if w = a then 1 else 0) c ((c.free e.info).fetchAdd w)
      (⟨e::plan,extra,true⟩::ps) (⟨toWinner e w::plan,e.masterBlk::extra,true⟩::ps) := by
  obtain ⟨_,hh,_⟩ := h.pending _ (List.mem_cons_self ..) e (List.mem_cons_self ..) he
  have hnp := (others_clear h (List.mem_cons_self ..) he).2.2
  have hm := pending_misses h he (e.masterBlk::extra) (show (toWinner e w).kind = .hit from rfl)
  have hhash : ∀ a, (((c.free e.info).fetchAdd w).cell a).hash = (c.cell a).hash :=
    fun a => setRefcount_hash _ _ _ a
  exact
    { live := fun a => Finset.mem_erase
      hash := hhash
      slot := fun a => setRefcount_masterBlockIndex _ _ _ a
      count := fun a _ => lose_count hw a
      held := by
        intro a ha
        change occurrences c.fileToMaster a+_ = occurrences c.fileToMaster a+_+_
        simp only [heldRefs_cons,planRefs_cons,if_neg (Ne.symm ha)]
        omega
      misses := by
        intro a ha
        rw [(hm a).2.1,(hm a).1,if_neg (Ne.symm ha),Nat.add_zero]
      released := (hm e.info).2.1.trans (hm e.info).2.2
      indexed := fun k a hk => pending_indexed h he k a hk
      published := by
        intro a _ hp
        rw [Published,hhash]
        exact hp
      fileToMaster := rfl
      gained := fun a ha => if_neg (fun hwa : w = a => ha (hwa ▸ (h.keyed _ _ hn).2.1)) }

theorem lose_stale (hw : (c.cell w).refcount+1 < refcountMod)
    (hz : (∃ m ∈ plan, m.info = e.info) → e.info ∈ Z) :
    refs ((c.free e.info).fetchAdd w) (⟨toWinner e w::plan,e.masterBlk::extra,true⟩::ps) e.info = 0 ∨
      (e.info ∈ Z ∧ refs ((c.free e.info).fetchAdd w)
        (⟨toWinner e w::plan,e.masterBlk::extra,true⟩::ps) e.info <
          (((c.free e.info).fetchAdd w).cell e.info).refcount) := by
  obtain ⟨hl,hh,_⟩ := h.pending _ (List.mem_cons_self ..) e (List.mem_cons_self ..) he
  obtain ⟨hother,hfile,hnp⟩ := others_clear h (List.mem_cons_self ..) he
  have hne := (lose_winner h hn hnp hh).1
  have hr : refs c (⟨e::plan,extra,true⟩::ps) e.info =
      refs ((c.free e.info).fetchAdd w) (⟨toWinner e w::plan,e.masterBlk::extra,true⟩::ps) e.info+
        1 := by
    change occurrences c.fileToMaster e.info+_ = occurrences c.fileToMaster e.info+_+1
    simp only [heldRefs_cons,planRefs_cons,if_neg hne,if_true]
    omega
  by_cases hex : ∃ m ∈ plan, m.info = e.info
  · refine Or.inr ⟨hz hex,?_⟩
    rw [lose_count hw,if_neg hne,h.counted _ hl,hr]
    omega
  · left
    have hplan : planRefs plan e.info = 0 :=
      (planRefs_zero _ _).mpr (fun m hm hi => hex ⟨m,hm,hi⟩)
    change occurrences c.fileToMaster e.info+_ = 0
    simp only [heldRefs_cons,planRefs_cons,if_neg hne]
    omega

omit hn in
theorem lose_slots : (((c.free e.info).fetchAdd w).freeBlockList++
    (⟨toWinner e w::plan,e.masterBlk::extra,true⟩::ps : List Party).flatMap Party.slots++
      publishedSlots ((c.free e.info).fetchAdd w)).Perm (List.range c.nextBlockIndex) := by
  have hps : publishedSlots ((c.free e.info).fetchAdd w) = publishedSlots c := by
    apply values_by_congr
    intro k a _
    exact setRefcount_masterBlockIndex _ _ _ a
  rw [hps]
  have hs := h.slots
  simp only [List.flatMap_cons,Party.slots,if_true,missSlots_miss he] at hs
  simp only [List.flatMap_cons,Party.slots,if_true,
    missSlots_hit (show (toWinner e w).kind = .hit from rfl)]
  refine List.Perm.trans ?_ hs
  change (c.freeBlockList++(e.masterBlk::extra++missSlots plan++ps.flatMap Party.slots)++_).Perm _
  simp only [List.append_assoc,List.cons_append]
  exact List.Perm.append_left _ List.perm_middle.symm

/-- The double check finds a winner: the pending object is freed, its slot is
to be released and the reference moves over to the winner. HITs of the same
batch on the freed object are not redirected. -/
theorem inv_lose (hw : (c.cell w).refcount+1 < refcountMod)
    (hz : (∃ m ∈ plan, m.info = e.info) → e.info ∈ Z) :
    Inv Z ((c.free e.info).fetchAdd w)
      (⟨{ e with kind := .hit, info := w }::plan,e.masterBlk::extra,true⟩::ps) := by
  obtain ⟨_,hh,_⟩ := h.pending _ (List.mem_cons_self ..) e (List.mem_cons_self ..) he
  have hnp := (others_clear h (List.mem_cons_self ..) he).2.2
  have f := lose_frees h he hn hw
  exact
    { counted := frees_counted f h
      bounded := by
        intro a
        rw [lose_count hw]
        have := h.bounded a
        split_ifs with ha
        · subst ha
          exact hw
        · omega
      positive := frees_positive f h
      keyed := frees_keyed f h
      owned := frees_owned f h
      single := frees_single f h
      pending := by
        intro p hp m hm hk
        obtain ⟨q,hq,hmq,has⟩ := mem_hit_cons rfl hp hm hk
        have hold := pending_rest h hq hmq hk
        rw [has] at hold
        exact frees_pending f hp hm hk hold
      shared := by
        intro p hp m hmem hlm
        obtain ⟨hme,hlm⟩ := (f.live _).mp hlm
        rcases List.mem_cons.mp hp with rfl | hp
        · rcases List.mem_cons.mp hmem with rfl | hmem
          · exact Or.inl (f.published w hme (lose_winner h hn hnp hh).2)
          · rcases shared_rest (p := ⟨plan,extra,true⟩) h (List.mem_cons_self ..) hmem hlm with
              hs | ⟨x,hx,hk⟩ | ⟨_,hi⟩
            · exact Or.inl (f.published _ hme hs)
            · exact Or.inr ⟨x,List.mem_cons_of_mem _ hx,hk⟩
            · exact absurd hi.symm hme
        · exact (h.shared p (List.mem_cons_of_mem _ hp) m hmem hlm).imp (f.published _ hme) id
      stale := frees_stale f h (lose_stale h he hn hw hz)
      slots := lose_slots h he }

end Lose

/-! ### Rollback of a MISS -/

theorem discard_frees : Frees e.info (fun _ => 0) c ((c.releaseSlots [e.masterBlk]).free e.info)
    (⟨e::plan,extra,true⟩::ps) (⟨plan,extra,true⟩::ps) := by
  have hm := pending_misses h he extra (show (toWinner e e.info).kind = .hit from rfl)
  exact
    { live := fun a => Finset.mem_erase
      hash := fun _ => rfl
      slot := fun _ => rfl
      count := fun _ _ => rfl
      held := by
        intro a ha
        change occurrences c.fileToMaster a+_ = occurrences c.fileToMaster a+_
        simp only [heldRefs_cons,planRefs_cons,if_neg (Ne.symm ha)]
        omega
      misses := by
        intro a ha
        rw [(hm a).1,if_neg (Ne.symm ha),Nat.add_zero]
      released := (hm e.info).2.2
      indexed := fun k a hk => pending_indexed h he k a hk
      published := fun _ _ hp => hp
      fileToMaster := rfl
      gained := fun _ _ => rfl }

/-- Rollback of a MISS: the slot goes back to the free list and the pending
object, which nothing else refers to by now, is freed. -/
theorem inv_discard (hex : ∀ m ∈ plan, m.info ≠ e.info) :
    Inv Z ((c.releaseSlots [e.masterBlk]).free e.info) (⟨plan,extra,true⟩::ps) := by
  obtain ⟨hother,hfile,_⟩ := others_clear h (List.mem_cons_self ..) he
  have f := discard_frees h he
  have hfree : ∀ p ∈ (⟨plan,extra,true⟩::ps : List Party), ∀ m ∈ p.plan, m.info ≠ e.info := by
    intro p hp m hmem
    rcases List.mem_cons.mp hp with rfl | hp
    · exact hex m hmem
    · exact (heldRefs_zero _ _).mp hother p hp m hmem
  exact
    { counted := frees_counted f h
      bounded := h.bounded
      positive := frees_positive f h
      keyed := frees_keyed f h
      owned := frees_owned f h
      single := frees_single f h
      pending := fun p hp m hm hk => frees_pending f hp hm hk (pending_rest h hp hm hk)
      shared := by
        intro p hp m hmem hlm
        rcases shared_rest h hp hmem ((f.live _).mp hlm).2 with hs | hs | ⟨_,hi⟩
        · exact Or.inl hs
        · exact Or.inr hs
        · exact absurd hi.symm (hfree p hp m hmem)
      stale := by
        have hplan : planRefs plan e.info = 0 := (planRefs_zero _ _).mpr hex
        refine frees_stale f h (Or.inl ?_)
        change occurrences c.fileToMaster e.info+_ = 0
        simp only [heldRefs_cons]
        omega
      slots := by
        have hs := h.slots
        simp only [List.flatMap_cons,Party.slots,if_true,missSlots_miss he] at hs
        refine List.Perm.trans ?_ hs
        change ((e.masterBlk::c.freeBlockList)++(Party.slots ⟨plan,extra,true⟩++
          ps.flatMap Party.slots)++publishedSlots c).Perm _
        simp only [Party.slots,if_true,List.append_assoc,List.cons_append]
        have hmid := @List.perm_middle _ e.masterBlk (c.freeBlockList++extra)
          (missSlots plan++(ps.flatMap Party.slots++publishedSlots c))
        simpa only [List.append_assoc] using hmid.symm }

end Pending

end ArchivalDedup.LedgerPublication
