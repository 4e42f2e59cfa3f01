import ArchivalDedup.Ledger

/-!
# The moves of a reference and of a slot

Each lemma follows one elementary action of an operation: a reference is
taken, dropped, moved between a mapping and a plan entry, or a pending object
is created, published, given up for a winner or discarded. The passes are
sequences of these moves.
-/

set_option autoImplicit false

namespace ArchivalDedup.LedgerMoves
open ArchivalDedup.FiniteTable ArchivalDedup.MetaIndex ArchivalDedup.WriteDedup
open ArchivalDedup.Ledger

variable {Z : Set Ptr} {c : Context} {plan : List PlanEntry} {extra : List ℕ} {assigned : Bool}
  {ps : List Party} {e : PlanEntry}

theorem fetchAdd_refcount (c : Context) (a b : Ptr) :
    ((c.fetchAdd a).cell b).refcount =
      if b = a then ((c.cell a).refcount+1) % refcountMod else (c.cell b).refcount :=
  setRefcount_refcount c a _ b

theorem fetchSub_refcount (c : Context) (a b : Ptr) :
    ((c.fetchSub a).cell b).refcount =
      if b = a then ((c.cell a).refcount+(refcountMod-1)) % refcountMod
      else (c.cell b).refcount :=
  setRefcount_refcount c a _ b

theorem pred_mod {n : ℕ} (h₀ : 0 < n) (h : n < refcountMod) :
    (n+(refcountMod-1)) % refcountMod = n-1 := by
  have hm : refcountMod = 2^32 := rfl
  rw [show n+(refcountMod-1) = n-1+refcountMod by omega,Nat.add_mod_right,
    Nat.mod_eq_of_lt (by omega)]

theorem missSlots_hit (he : e.kind = .hit) : missSlots (e::plan) = missSlots plan := by
  simp [missSlots,missSlot,he]

theorem missSlots_miss (he : e.kind = .miss) :
    missSlots (e::plan) = e.masterBlk::missSlots plan := by
  simp [missSlots,missSlot,he]

section Entries

variable {e' m : PlanEntry} {p : Party} {extra' : List ℕ}

theorem pending_rest (h : Inv Z c (⟨e::plan,extra,assigned⟩::ps))
    (hp : p ∈ (⟨plan,extra',assigned⟩::ps : List Party)) (hm : m ∈ p.plan) (hk : m.kind = .miss) :
    m.info ∈ c.live ∧ (c.cell m.info).hash = m.hash ∧
      (p.assigned = true → (c.cell m.info).masterBlockIndex = m.masterBlk) := by
  rcases List.mem_cons.mp hp with rfl | hp
  · exact h.pending _ (List.mem_cons_self ..) m (List.mem_cons_of_mem _ hm) hk
  · exact h.pending p (List.mem_cons_of_mem _ hp) m hm hk

theorem shared_rest (h : Inv Z c (⟨e::plan,extra,assigned⟩::ps))
    (hp : p ∈ (⟨plan,extra',assigned⟩::ps : List Party)) (hm : m ∈ p.plan) (hl : m.info ∈ c.live) :
    Published c m.info ∨ (∃ x ∈ p.plan, x.kind = .miss ∧ x.info = m.info) ∨
      (e.kind = .miss ∧ e.info = m.info) := by
  rcases List.mem_cons.mp hp with rfl | hp
  · rcases h.shared _ (List.mem_cons_self ..) m (List.mem_cons_of_mem _ hm) hl with hs | ⟨x,hx,hk⟩
    · exact Or.inl hs
    · rcases List.mem_cons.mp hx with rfl | hx
      · exact Or.inr (Or.inr hk)
      · exact Or.inr (Or.inl ⟨x,hx,hk⟩)
  · exact (h.shared p (List.mem_cons_of_mem _ hp) m hm hl).imp id Or.inl

theorem mem_hit_cons (he : e'.kind = .hit)
    (hp : p ∈ (⟨e'::plan,extra,assigned⟩::ps : List Party)) (hm : m ∈ p.plan)
    (hk : m.kind = .miss) : ∃ q ∈ (⟨plan,extra,assigned⟩::ps : List Party),
      m ∈ q.plan ∧ q.assigned = p.assigned := by
  rcases List.mem_cons.mp hp with rfl | hp
  · rcases List.mem_cons.mp hm with rfl | hm
    · rw [he] at hk
      cases hk
    · exact ⟨_,List.mem_cons_self ..,hm,rfl⟩
  · exact ⟨p,List.mem_cons_of_mem _ hp,hm,rfl⟩

theorem miss_cons {P : Prop} {q : PlanEntry → Prop} {plan : List PlanEntry} (e : PlanEntry)
    (h : P ∨ ∃ m ∈ plan, q m) : P ∨ ∃ m ∈ e::plan, q m := by
  rcases h with hp | ⟨m,hm,hq⟩
  · exact Or.inl hp
  · exact Or.inr ⟨m,List.mem_cons_of_mem _ hm,hq⟩

end Entries

section Hit

variable (he : e.kind = .hit)

theorem hit_refs (c : Context) (ps : List Party) (a : Ptr) :
    refs (c.fetchAdd e.info) (⟨e::plan,extra,assigned⟩::ps) a =
      refs c (⟨plan,extra,assigned⟩::ps) a+if e.info = a then 1 else 0 := by
  simp only [refs,Context.fetchAdd,setRefcount_index,heldRefs_cons,planRefs_cons]
  omega

include he in
theorem hit_misses (ps : List Party) (a : Ptr) : heldMisses (⟨e::plan,extra,assigned⟩::ps) a =
    heldMisses (⟨plan,extra,assigned⟩::ps) a := by
  simp [he]

theorem fetchAdd_count {b : Ptr} (hw : (c.cell b).refcount+1 < refcountMod) (a : Ptr) :
    ((c.fetchAdd b).cell a).refcount = (c.cell a).refcount+if b = a then 1 else 0 := by
  rw [fetchAdd_refcount]
  by_cases ha : a = b
  · subst ha
    simp [Nat.mod_eq_of_lt hw]
  · simp [ha,Ne.symm ha]

theorem fetchAdd_slots (c : Context) (b : Ptr) :
    publishedSlots (c.fetchAdd b) = publishedSlots c := by
  apply values_by_congr
  intro k a _
  simp [Context.fetchAdd]

theorem fetchSub_slots (c : Context) (b : Ptr) :
    publishedSlots (c.fetchSub b) = publishedSlots c := by
  apply values_by_congr
  intro k a _
  simp [Context.fetchSub]

include he in
/-- An entry that is a HIT holds no slot. -/
theorem hit_slots (ps : List Party) :
    (⟨e::plan,extra,assigned⟩::ps : List Party).flatMap Party.slots =
      (⟨plan,extra,assigned⟩::ps : List Party).flatMap Party.slots := by
  simp only [List.flatMap_cons,Party.slots,missSlots_hit he]

/-- A HIT takes one more reference to an indexed or own pending object. -/
theorem inv_hit (h : Inv Z c (⟨plan,extra,assigned⟩::ps)) (he : e.kind = .hit)
    (hl : e.info ∈ c.live)
    (hs : Published c e.info ∨ ∃ m ∈ plan, m.kind = .miss ∧ m.info = e.info)
    (hw : (c.cell e.info).refcount+1 < refcountMod) :
    Inv Z (c.fetchAdd e.info) (⟨e::plan,extra,assigned⟩::ps) := by
  have hpub : ∀ a, Published (c.fetchAdd e.info) a ↔ Published c a := by
    intro a
    simp [Published,Context.fetchAdd]
  exact
    { counted := fun a ha => by rw [fetchAdd_count hw,hit_refs,h.counted a ha]
      bounded := by
        intro a
        rw [fetchAdd_count hw]
        have := h.bounded a
        split_ifs with ha
        · subst ha
          exact hw
        · omega
      positive := fun a ha => by
        rw [hit_refs]
        have := h.positive a ha
        omega
      keyed := fun k a hk => by
        obtain ⟨h₁,h₂,h₃⟩ := h.keyed k a hk
        exact ⟨by simpa [Context.fetchAdd] using h₁,h₂,by rw [hit_misses he]; exact h₃⟩
      owned := fun a ha => by
        rw [hpub,hit_misses he]
        exact h.owned a ha
      single := fun a => by rw [hit_misses he]; exact h.single a
      pending := by
        intro p hp m hmem hk
        simp only [Context.fetchAdd,setRefcount_hash,setRefcount_masterBlockIndex,setRefcount_live]
        obtain ⟨q,hq,hmq,has⟩ := mem_hit_cons he hp hmem hk
        rw [←has]
        exact h.pending q hq m hmq hk
      shared := by
        intro p hp m hmem hlm
        rw [hpub]
        rcases List.mem_cons.mp hp with rfl | hp
        · rcases List.mem_cons.mp hmem with rfl | hmem
          · exact miss_cons _ hs
          · exact miss_cons e (h.shared _ (List.mem_cons_self ..) m hmem hlm)
        · exact h.shared p (by simp [hp]) m hmem hlm
      stale := by
        intro a ha
        have hne : e.info ≠ a := fun hh => ha (hh ▸ hl)
        rw [hit_refs,fetchAdd_count hw,if_neg hne]
        exact h.stale a ha
      slots := by
        rw [fetchAdd_slots,hit_slots he]
        exact h.slots }

end Hit

/-! ## A new pending object -/

section Miss

abbrev withPending (c : Context) (e : PlanEntry) : Context := c.malloc e.info ⟨e.hash,0,1⟩

theorem withPending_refs (a : Ptr) : refs (withPending c e) (⟨e::plan,extra,false⟩::ps) a =
    refs c (⟨plan,extra,false⟩::ps) a+if e.info = a then 1 else 0 := by
  simp only [refs,Context.malloc,heldRefs_cons,planRefs_cons]
  omega

theorem withPending_misses (he : e.kind = .miss) (a : Ptr) :
    heldMisses (⟨e::plan,extra,false⟩::ps) a =
      heldMisses (⟨plan,extra,false⟩::ps) a+if e.info = a then 1 else 0 := by
  simp only [heldMisses_cons,planMisses_cons,he,true_and]
  omega

theorem withPending_live (a : Ptr) : a ∈ (withPending c e).live ↔ a = e.info ∨ a ∈ c.live := by
  simp [Context.malloc]

theorem withPending_self : (withPending c e).cell e.info = ⟨e.hash,0,1⟩ := by
  simp [Context.malloc]

variable (h : Inv Z c (⟨plan,extra,false⟩::ps)) (hl : e.info ∉ c.live)

include hl in
theorem withPending_cell {a : Ptr} (ha : a ∈ c.live) :
    (withPending c e).cell a = c.cell a ∧ e.info ≠ a := by
  have hne : a ≠ e.info := fun hh => hl (hh ▸ ha)
  exact ⟨by simp [Context.malloc,hne],hne.symm⟩

include hl in
theorem withPending_published {a : Ptr} (ha : a ∈ c.live) (hp : Published c a) :
    Published (withPending c e) a := by
  unfold Published
  rw [(withPending_cell hl ha).1]
  exact hp

include h hl

theorem unreferenced (hz : e.info ∉ Z) : occurrences c.fileToMaster e.info = 0 ∧
    heldRefs (⟨plan,extra,false⟩::ps) e.info = 0 ∧
    heldMisses (⟨plan,extra,false⟩::ps) e.info = 0 := by
  have hr : refs c (⟨plan,extra,false⟩::ps) e.info = 0 :=
    (h.stale e.info hl).resolve_right (fun hh => hz hh.1)
  have hle := heldMisses_le (⟨plan,extra,false⟩::ps) e.info
  unfold refs at hr
  exact ⟨by omega,by omega,by omega⟩

theorem withPending_owned (he : e.kind = .miss) (hz : e.info ∉ Z) :
    ∀ a ∈ (withPending c e).live, Published (withPending c e) a ∨
      (heldMisses (⟨e::plan,extra,false⟩::ps) a = 1 ∧
        occurrences (withPending c e).fileToMaster a = 0) := by
  obtain ⟨ho,_,hm⟩ := unreferenced h hl hz
  intro a ha
  rw [withPending_misses he]
  rcases (withPending_live a).mp ha with rfl | ha
  · exact Or.inr ⟨by simp [hm],ho⟩
  · rcases h.owned a ha with hp | hp
    · exact Or.inl (withPending_published hl ha hp)
    · right
      rwa [if_neg (withPending_cell hl ha).2]

theorem withPending_pending : ∀ p ∈ (⟨e::plan,extra,false⟩::ps : List Party), ∀ m ∈ p.plan,
    m.kind = .miss → m.info ∈ (withPending c e).live ∧
      ((withPending c e).cell m.info).hash = m.hash ∧
      (p.assigned = true → ((withPending c e).cell m.info).masterBlockIndex = m.masterBlk) := by
  have hold : ∀ q ∈ (⟨plan,extra,false⟩::ps : List Party), ∀ m ∈ q.plan, m.kind = .miss →
      m.info ∈ (withPending c e).live ∧ ((withPending c e).cell m.info).hash = m.hash ∧
      (q.assigned = true → ((withPending c e).cell m.info).masterBlockIndex = m.masterBlk) := by
    intro q hq m hm hk
    obtain ⟨h₁,h₂,h₃⟩ := h.pending q hq m hm hk
    rw [(withPending_cell hl h₁).1]
    exact ⟨(withPending_live _).mpr (Or.inr h₁),h₂,h₃⟩
  intro p hp m hmem hk
  rcases List.mem_cons.mp hp with rfl | hp
  · rcases List.mem_cons.mp hmem with rfl | hmem
    · rw [withPending_self]
      exact ⟨(withPending_live _).mpr (Or.inl rfl),rfl,by simp⟩
    · exact hold ⟨plan,extra,false⟩ (List.mem_cons_self ..) m hmem hk
  · exact hold p (List.mem_cons_of_mem _ hp) m hmem hk

theorem withPending_shared (he : e.kind = .miss) (hz : e.info ∉ Z) :
    ∀ p ∈ (⟨e::plan,extra,false⟩::ps : List Party), ∀ m ∈ p.plan,
      m.info ∈ (withPending c e).live → Published (withPending c e) m.info ∨
        ∃ x ∈ p.plan, x.kind = .miss ∧ x.info = m.info := by
  have hold : ∀ q ∈ (⟨plan,extra,false⟩::ps : List Party), ∀ m ∈ q.plan,
      m.info ∈ (withPending c e).live → Published (withPending c e) m.info ∨
        ∃ x ∈ q.plan, x.kind = .miss ∧ x.info = m.info := by
    intro q hq m hm hlm
    have hmi : m.info ≠ e.info := (heldRefs_zero _ _).mp (unreferenced h hl hz).2.1 q hq m hm
    have hml : m.info ∈ c.live := ((withPending_live _).mp hlm).resolve_left hmi
    exact (h.shared q hq m hm hml).imp (withPending_published hl hml) id
  intro p hp m hmem hlm
  rcases List.mem_cons.mp hp with rfl | hp
  · rcases List.mem_cons.mp hmem with rfl | hmem
    · exact Or.inr ⟨m,List.mem_cons_self ..,he,rfl⟩
    · exact miss_cons e (hold ⟨plan,extra,false⟩ (List.mem_cons_self ..) m hmem hlm)
  · exact hold p (List.mem_cons_of_mem _ hp) m hmem hlm

/-- A MISS creates a pending object at an address nothing refers to. -/
theorem inv_miss (he : e.kind = .miss) (hz : e.info ∉ Z) :
    Inv Z (c.malloc e.info ⟨e.hash,0,1⟩) (⟨e::plan,extra,false⟩::ps) := by
  obtain ⟨ho,hr₀,hm₀⟩ := unreferenced h hl hz
  exact
    { counted := by
        intro a ha
        rw [withPending_refs]
        rcases (withPending_live a).mp ha with rfl | ha
        · simp [withPending_self,refs,ho,hr₀]
        · obtain ⟨hcell,hne⟩ := withPending_cell hl ha
          rw [hcell,if_neg hne]
          exact h.counted a ha
      bounded := by
        intro a
        by_cases ha : a = e.info
        · rw [ha,withPending_self]
          exact (by decide : 1 < refcountMod)
        · rw [show (withPending c e).cell a = c.cell a by simp [Context.malloc,ha]]
          exact h.bounded a
      positive := by
        intro a ha
        rw [withPending_refs]
        rcases (withPending_live a).mp ha with rfl | ha
        · simp
        · have := h.positive a ha
          omega
      keyed := by
        intro k a hk
        obtain ⟨h₁,h₂,h₃⟩ := h.keyed k a hk
        obtain ⟨hcell,hne⟩ := withPending_cell hl h₂
        exact ⟨by rw [hcell]; exact h₁,(withPending_live a).mpr (Or.inr h₂),
          by rw [withPending_misses he,h₃,if_neg hne]⟩
      owned := withPending_owned h hl he hz
      single := by
        intro a
        rw [withPending_misses he]
        split_ifs with ha
        · rw [←ha]
          omega
        · exact h.single a
      pending := withPending_pending h hl
      shared := withPending_shared h hl he hz
      stale := by
        intro a ha
        rw [withPending_live,not_or] at ha
        rw [withPending_refs,if_neg (Ne.symm ha.1),
          show (withPending c e).cell a = c.cell a by simp [Context.malloc,ha.1]]
        exact h.stale a ha.2
      slots := by
        have hps : publishedSlots (withPending c e) = publishedSlots c := by
          apply values_by_congr
          intro k a hk
          rw [(withPending_cell hl (h.keyed k a hk).2.1).1]
        change (c.freeBlockList++_++publishedSlots (withPending c e)).Perm _
        rw [hps]
        exact h.slots }

end Miss

section DropMore

variable (h : Inv Z c (⟨e::plan,extra,assigned⟩::ps)) (hn : (c.cell e.info).refcount ≠ 1)

theorem dropMore_refs (c : Context) (ps : List Party) (a : Ptr) :
    refs c (⟨e::plan,extra,assigned⟩::ps) a =
      refs (c.fetchSub e.info) (⟨plan,extra,assigned⟩::ps) a+if e.info = a then 1 else 0 := by
  simp only [refs,Context.fetchSub,setRefcount_index,heldRefs_cons,planRefs_cons]
  omega

include h hn

theorem dropMore_shared : 2 ≤ (c.cell e.info).refcount := by
  have hpos : 0 < refs c (⟨e::plan,extra,assigned⟩::ps) e.info := by
    rw [dropMore_refs,if_pos rfl]
    exact Nat.succ_pos _
  by_cases hl : e.info ∈ c.live
  · have := h.counted _ hl
    omega
  · rcases h.stale _ hl with hs | ⟨_,hs⟩
    · omega
    · omega

theorem dropMore_count (a : Ptr) : (c.cell a).refcount =
    ((c.fetchSub e.info).cell a).refcount+if e.info = a then 1 else 0 := by
  have hbig := dropMore_shared h hn
  rw [fetchSub_refcount,pred_mod (by omega) (h.bounded _)]
  by_cases ha : a = e.info
  · subst ha
    simp
    omega
  · simp [ha,Ne.symm ha]

theorem inv_drop_more (he : e.kind = .hit) :
    Inv Z (c.fetchSub e.info) (⟨plan,extra,assigned⟩::ps) := by
  have hpub : ∀ a, Published (c.fetchSub e.info) a ↔ Published c a := by
    intro a
    simp [Published,Context.fetchSub]
  have hm : ∀ a, heldMisses (⟨plan,extra,assigned⟩::ps) a =
      heldMisses (⟨e::plan,extra,assigned⟩::ps) a := fun a => (hit_misses he ps a).symm
  exact
    { counted := by
        intro a ha
        have h₁ := h.counted a ha
        rw [dropMore_count h hn,dropMore_refs] at h₁
        omega
      bounded := by
        intro a
        have h₁ := h.bounded a
        rw [dropMore_count h hn] at h₁
        omega
      positive := by
        intro a ha
        have h₁ := h.counted a ha
        have h₂ := h.positive a ha
        rw [dropMore_refs] at h₁ h₂
        by_cases hi : e.info = a
        · subst hi
          simp only [if_true] at h₁
          omega
        · simpa [hi] using h₂
      keyed := fun k a hk => by
        obtain ⟨h₁,h₂,h₃⟩ := h.keyed k a hk
        exact ⟨by simpa [Context.fetchSub] using h₁,h₂,by rw [hm]; exact h₃⟩
      owned := fun a ha => by
        rw [hpub,hm]
        exact h.owned a ha
      single := fun a => by rw [hm]; exact h.single a
      pending := by
        intro p hp m hmem hk
        simp only [Context.fetchSub,setRefcount_hash,setRefcount_masterBlockIndex,setRefcount_live]
        exact pending_rest h hp hmem hk
      shared := by
        intro p hp m hmem hlm
        rw [hpub]
        rcases shared_rest h hp hmem hlm with hs | hs | ⟨hk,_⟩
        · exact Or.inl hs
        · exact Or.inr hs
        · rw [he] at hk
          cases hk
      stale := by
        intro a ha
        rcases h.stale a ha with hs | ⟨hz,hs⟩
        · rw [dropMore_refs] at hs
          exact Or.inl (by omega)
        · rw [dropMore_refs,dropMore_count h hn] at hs
          exact Or.inr ⟨hz,by omega⟩
      slots := by
        rw [fetchSub_slots,←hit_slots he]
        exact h.slots }

end DropMore

/-! ## Objects that are freed -/

/-- A step that frees `x` and takes references of others over as it counts them. -/
structure Frees (x : Ptr) (gain : Ptr → ℕ) (c d : Context) (ps qs : List Party) : Prop where
  live : ∀ a, a ∈ d.live ↔ a ≠ x ∧ a ∈ c.live
  hash : ∀ a, (d.cell a).hash = (c.cell a).hash
  slot : ∀ a, (d.cell a).masterBlockIndex = (c.cell a).masterBlockIndex
  count : ∀ a, a ≠ x → (d.cell a).refcount = (c.cell a).refcount+gain a
  held : ∀ a, a ≠ x → refs d qs a = refs c ps a+gain a
  misses : ∀ a, a ≠ x → heldMisses qs a = heldMisses ps a
  released : heldMisses qs x = 0
  indexed : ∀ k a, find d.hashToMaster k = some a → find c.hashToMaster k = some a ∧ a ≠ x
  published : ∀ a, a ≠ x → Published c a → Published d a
  fileToMaster : d.fileToMaster = c.fileToMaster
  gained : ∀ a, a ∉ c.live → gain a = 0

section Frees

variable {x : Ptr} {gain : Ptr → ℕ} {d : Context} {ps qs : List Party}
  (f : Frees x gain c d ps qs) (h : Inv Z c ps)
include f h

theorem frees_counted : ∀ a ∈ d.live, (d.cell a).refcount = refs d qs a := by
  intro a ha
  obtain ⟨hne,ha⟩ := (f.live a).mp ha
  rw [f.count a hne,f.held a hne,h.counted a ha]

theorem frees_positive : ∀ a ∈ d.live, 0 < refs d qs a := by
  intro a ha
  obtain ⟨hne,ha⟩ := (f.live a).mp ha
  have := h.positive a ha
  rw [f.held a hne]
  omega

theorem frees_keyed : ∀ k a, find d.hashToMaster k = some a →
    (d.cell a).hash = k ∧ a ∈ d.live ∧ heldMisses qs a = 0 := by
  intro k a hk
  obtain ⟨hk,hne⟩ := f.indexed k a hk
  obtain ⟨h₁,h₂,h₃⟩ := h.keyed k a hk
  exact ⟨(f.hash a).trans h₁,(f.live a).mpr ⟨hne,h₂⟩,(f.misses a hne).trans h₃⟩

theorem frees_owned : ∀ a ∈ d.live, Published d a ∨
    (heldMisses qs a = 1 ∧ occurrences d.fileToMaster a = 0) := by
  intro a ha
  obtain ⟨hne,ha⟩ := (f.live a).mp ha
  rw [f.misses a hne,f.fileToMaster]
  exact (h.owned a ha).imp (f.published a hne) id

theorem frees_single : ∀ a, heldMisses qs a ≤ 1 := by
  intro a
  by_cases hne : a = x
  · rw [hne,f.released]
    exact Nat.zero_le 1
  · rw [f.misses a hne]
    exact h.single a

omit h in
theorem frees_pending {p : Party} {m : PlanEntry} (hp : p ∈ qs) (hm : m ∈ p.plan)
    (hk : m.kind = .miss) (hold : m.info ∈ c.live ∧ (c.cell m.info).hash = m.hash ∧
      (p.assigned = true → (c.cell m.info).masterBlockIndex = m.masterBlk)) :
    m.info ∈ d.live ∧ (d.cell m.info).hash = m.hash ∧
      (p.assigned = true → (d.cell m.info).masterBlockIndex = m.masterBlk) := by
  rw [f.live,f.hash,f.slot]
  exact ⟨⟨(heldMisses_zero _ _).mp f.released p hp m hm hk,hold.1⟩,hold.2⟩

theorem frees_stale (hx : refs d qs x = 0 ∨ (x ∈ Z ∧ refs d qs x < (d.cell x).refcount)) :
    ∀ a, a ∉ d.live → refs d qs a = 0 ∨ (a ∈ Z ∧ refs d qs a < (d.cell a).refcount) := by
  intro a ha
  by_cases hne : a = x
  · rw [hne]
    exact hx
  · have hal : a ∉ c.live := fun hh => ha ((f.live a).mpr ⟨hne,hh⟩)
    rw [f.held a hne,f.count a hne,f.gained a hal]
    exact h.stale a hal

end Frees

abbrev dropLast (c : Context) (a : Ptr) : Context :=
  ((c.fetchSub a).removeHash (c.cell a).hash).free a

section DropLast

variable (h : Inv Z c (⟨e::plan,extra,assigned⟩::ps)) (he : e.kind = .hit)
  (hn : (c.cell e.info).refcount = 1)
include h hn

theorem dropLast_live : e.info ∈ c.live ∧ refs c (⟨e::plan,extra,assigned⟩::ps) e.info = 1 := by
  have hl : e.info ∈ c.live := by
    by_contra hl
    have hpos : 0 < refs c (⟨e::plan,extra,assigned⟩::ps) e.info := by
      simp only [refs,heldRefs_cons,planRefs_cons,if_true]
      omega
    rcases h.stale _ hl with hs | ⟨_,hs⟩
    · omega
    · omega
  exact ⟨hl,by rw [←h.counted _ hl,hn]⟩

theorem dropLast_refs : occurrences c.fileToMaster e.info = 0 ∧
    heldRefs (⟨plan,(c.cell e.info).masterBlockIndex::extra,assigned⟩::ps) e.info = 0 := by
  have hone := (dropLast_live h hn).2
  simp only [refs,heldRefs_cons,planRefs_cons,if_true] at hone ⊢
  exact ⟨by omega,by omega⟩

include he

theorem dropLast_published : Published c e.info := by
  rcases h.owned _ (dropLast_live h hn).1 with hp | ⟨hp,_⟩
  · exact hp
  · have hle := heldMisses_le
      (⟨plan,(c.cell e.info).masterBlockIndex::extra,assigned⟩::ps) e.info
    have hz := (dropLast_refs h hn).2
    have hm : heldMisses (⟨e::plan,extra,assigned⟩::ps) e.info = heldMisses
        (⟨plan,(c.cell e.info).masterBlockIndex::extra,assigned⟩::ps) e.info := by simp [he]
    omega

theorem dropLast_frees : Frees e.info (fun _ => 0) c (dropLast c e.info)
    (⟨e::plan,extra,assigned⟩::ps)
    (⟨plan,(c.cell e.info).masterBlockIndex::extra,assigned⟩::ps) := by
  have hpub₀ := dropLast_published h he hn
  have hfind : ∀ k, find (dropLast c e.info).hashToMaster k =
      if k = (c.cell e.info).hash then none else find c.hashToMaster k :=
    fun k => find_erase c.hashToMaster k _
  have hhash : ∀ a, ((dropLast c e.info).cell a).hash = (c.cell a).hash :=
    fun a => setRefcount_hash c _ _ a
  have hm : ∀ a, heldMisses (⟨plan,(c.cell e.info).masterBlockIndex::extra,assigned⟩::ps) a =
      heldMisses (⟨e::plan,extra,assigned⟩::ps) a := by
    intro a
    simp [he]
  exact
    { live := fun a => Finset.mem_erase
      hash := hhash
      slot := fun a => setRefcount_masterBlockIndex c _ _ a
      count := fun a ha => (fetchSub_refcount c e.info a).trans (if_neg ha)
      held := by
        intro a ha
        change occurrences c.fileToMaster a+_ = occurrences c.fileToMaster a+_
        simp only [heldRefs_cons,planRefs_cons,if_neg (Ne.symm ha)]
        omega
      misses := fun a _ => hm a
      released := by
        have hle := heldMisses_le
          (⟨plan,(c.cell e.info).masterBlockIndex::extra,assigned⟩::ps) e.info
        have hz := (dropLast_refs h hn).2
        omega
      indexed := by
        intro k a hk
        rw [hfind] at hk
        split_ifs at hk with hkey
        exact ⟨hk,fun hh => hkey (by rw [←(h.keyed k a hk).1,hh])⟩
      published := by
        intro a ha hp
        unfold Published
        rw [hhash,hfind,if_neg]
        · exact hp
        · intro hk
          rw [Published,hk] at hp
          exact ha (Option.some.inj (hp.symm.trans hpub₀))
      fileToMaster := rfl
      gained := fun _ _ => rfl }

theorem dropLast_slots : ((dropLast c e.info).freeBlockList++
    (⟨plan,(c.cell e.info).masterBlockIndex::extra,assigned⟩::ps : List Party).flatMap Party.slots++
      publishedSlots (dropLast c e.info)).Perm (List.range c.nextBlockIndex) := by
  have hps : (publishedSlots c).Perm
      ((c.cell e.info).masterBlockIndex::publishedSlots (dropLast c e.info)) := by
    have h₁ := values_by_erase (fun a => (c.cell a).masterBlockIndex) c.hashToMaster _ _
      (dropLast_published h he hn)
    refine h₁.trans (List.Perm.of_eq ?_)
    congr 1
    apply values_by_congr
    intro k a _
    exact (setRefcount_masterBlockIndex c _ _ a).symm
  refine List.Perm.trans ?_ h.slots
  have hsl : Party.slots ⟨plan,(c.cell e.info).masterBlockIndex::extra,assigned⟩ =
      (c.cell e.info).masterBlockIndex::Party.slots ⟨e::plan,extra,assigned⟩ := by
    simp [Party.slots,missSlots_hit he]
  simp only [List.flatMap_cons,hsl,List.cons_append,List.append_assoc]
  refine List.Perm.append_left c.freeBlockList ?_
  refine List.Perm.trans ?_ ((hps.symm.append_left _).append_left _)
  have hmid := @List.perm_middle _ (c.cell e.info).masterBlockIndex
    (Party.slots ⟨e::plan,extra,assigned⟩++ps.flatMap Party.slots)
    (publishedSlots (dropLast c e.info))
  simpa only [List.append_assoc] using hmid.symm

/-- Dropping the last reference takes the object out of the index. -/
theorem inv_drop_last : Inv Z (dropLast c e.info)
    (⟨plan,(c.cell e.info).masterBlockIndex::extra,assigned⟩::ps) := by
  have f := dropLast_frees h he hn
  obtain ⟨ho,hz⟩ := dropLast_refs h hn
  exact
    { counted := frees_counted f h
      bounded := by
        intro a
        by_cases ha : a = e.info
        · subst ha
          change ((c.fetchSub e.info).cell e.info).refcount < _
          rw [fetchSub_refcount,if_pos rfl]
          exact Nat.mod_lt _ (by decide)
        · rw [f.count a ha]
          exact h.bounded a
      positive := frees_positive f h
      keyed := frees_keyed f h
      owned := frees_owned f h
      single := frees_single f h
      pending := fun p hp m hm hk => frees_pending f hp hm hk (pending_rest h hp hm hk)
      shared := by
        intro p hp m hmem hlm
        rcases shared_rest h hp hmem ((f.live _).mp hlm).2 with hs | hs | ⟨hk,_⟩
        · exact Or.inl (f.published _ ((heldRefs_zero _ _).mp hz p hp m hmem) hs)
        · exact Or.inr hs
        · rw [he] at hk
          cases hk
      stale := by
        refine frees_stale f h (Or.inl ?_)
        change occurrences c.fileToMaster e.info+_ = 0
        omega
      slots := dropLast_slots h he hn }

end DropLast

/-- The shared decrement, applied to a reference that the party holds. -/
theorem inv_drop (h : Inv Z c (⟨e::plan,extra,assigned⟩::ps)) (he : e.kind = .hit) :
    Inv Z (c.dropReference extra e.info).1
      (⟨plan,(c.dropReference extra e.info).2,assigned⟩::ps) := by
  unfold Context.dropReference
  split_ifs with hn
  · exact inv_drop_last h he hn
  · exact inv_drop_more h hn he

end ArchivalDedup.LedgerMoves
