import ArchivalDedup.Threads

/-!
# Critical sections turn by turn

In `Threads` a loop under the write lock or under the free-list mutex is one
step. Here such a loop is entered when its lock is free, runs one turn at a
time while other calls go on, and leaves with the lock. The locks are held by
the places where the calls stand. A call that starts under the read lock enters
when it has obtained it; before that it has touched nothing that is shared.
-/

set_option autoImplicit false

namespace ArchivalDedup.LockedSections
open ArchivalDedup.FiniteTable ArchivalDedup.MetaIndex ArchivalDedup.WriteDedup
open ArchivalDedup.ReadDedup ArchivalDedup.Passthrough ArchivalDedup.Threads
open ArchivalDedup.Interleaving

/-- The local variables of a call inside a loop under a lock. -/
inductive Section where
  /-- `remove_blocks_dedup_batch`, for `unlink` or for `truncate` to a size. -/
  | removing (path : Path) (size : Option ℕ) (n i : ℕ) (slots : List ℕ)
  /-- The double check of pass 3. -/
  | publishing (r : WriteReq) (done rest : List PlanEntry) (slots : List ℕ)
  /-- The second loop of pass 3, and the size after it. -/
  | mapping (r : WriteReq) (rest : List PlanEntry) (slots : List ℕ)
  /-- The HITs of `rollback_allocations`. -/
  | reverting (done rest : List PlanEntry) (slots : List ℕ) (err : Errno)
  /-- The free list in `allocate_batch_storage_first`. -/
  | draining (r : WriteReq) (plan : List PlanEntry) (taken : List ℕ)
  /-- The MISSes of `rollback_allocations`. -/
  | discarding (rest : List PlanEntry) (err : Errno)

/-- Where a call stands: at a stage, or inside a section. -/
inductive Place where
  | outside (st : Stage)
  | inside (sec : Section)

def removed (path : Path) (slots : List ℕ) : Option ℕ → Stage
  | none => .unlinkConcat path slots
  | some size => .truncateConcat path size slots

/-- One turn of a loop, or leaving it. -/
def turn (c : Context) : Section → Context × Place
  | .removing path size 0 _ slots => (c,.outside (removed path slots size))
  | .removing path size (n+1) i slots =>
    let t := removeBlock path i c slots
    (t.1,.inside (.removing path size n (i+1) t.2))
  | .publishing r done [] slots => (c,.inside (.mapping r done slots))
  | .publishing r done (e::es) slots =>
    let t := publishEntry c slots e
    (t.1,.inside (.publishing r (done++[t.2.2]) es t.2.1))
  | .mapping r [] slots =>
    (growSize c r.path r.newEnd,.outside (.release slots (r.numBlocks*blockSize)))
  | .mapping r (e::es) slots =>
    let t := mapEntry r.path c slots e
    (t.1,.inside (.mapping r es t.2))
  | .reverting done [] slots err => (c,.outside (.rollbackConcat done slots err))
  | .reverting done (e::es) slots err =>
    match e.kind with
    | .hit =>
      let t := c.dropReference slots e.info
      (t.1,.inside (.reverting (done++[e]) es t.2 err))
    | .miss => (c,.inside (.reverting (done++[e]) es slots err))
  | .draining r plan taken =>
    if taken.length < missCount plan then
      match c.freeBlockList with
      | [] => (c,.outside (.append r plan taken))
      | q::l => ({ c with freeBlockList := l },.inside (.draining r plan (taken++[q])))
    else (c,.outside (.append r plan taken))
  | .discarding [] err => (c,.outside (.done (.error err)))
  | .discarding (e::es) err =>
    match e.kind with
    | .miss => ((c.releaseSlots [e.masterBlk]).free e.info,.inside (.discarding es err))
    | .hit => (c,.inside (.discarding es err))

/-- The loop that the next step of a stage enters. -/
def opens : Stage → Option Section
  | .drain r plan => some (.draining r plan [])
  | .consolidate r plan => some (.publishing r [] plan [])
  | .rollbackHits plan err => some (.reverting [] plan [] err)
  | .rollbackMisses plan err => some (.discarding plan err)
  | .unlinkRemove path numBlocks => some (.removing path none numBlocks 0 [])
  | .truncateRemove path size newBlockCount oldBlockCount =>
    some (.removing path (some size) (oldBlockCount-newBlockCount) newBlockCount [])
  | _ => none

/-- The other sections hold `freelist_mutex`. -/
def Section.holdsWrite : Section → Bool
  | .draining .. => false
  | .discarding .. => false
  | _ => true

def Place.holdsRead : Place → Bool
  | .outside st => st.holdsRead
  | .inside _ => false

def Place.holdsWrite : Place → Bool
  | .outside _ => false
  | .inside sec => sec.holdsWrite

def Place.holdsMutex : Place → Bool
  | .outside _ => false
  | .inside sec => !sec.holdsWrite

/-- The stages whose next step is one lookup under the read lock. -/
def takesRead : Stage → Bool
  | .unlinkSize .. => true
  | .truncateSize .. => true
  | _ => false

/-- The stages whose next step takes `freelist_mutex`: an empty list of slots is
released without it. -/
def takesMutex : Stage → Bool
  | .drain .. => true
  | .rollbackMisses .. => true
  | .release slots _ => !slots.isEmpty
  | .rollbackConcat _ slots _ => !slots.isEmpty
  | .unlinkConcat _ slots => !slots.isEmpty
  | .truncateConcat _ _ slots => !slots.isEmpty
  | _ => false

structure Locked where
  ctx : Context
  places : List Place

def emptyLocked : Locked := ⟨emptyContext,[]⟩

/-- The locks that the next step of a stage takes are free. -/
structure Granted (places : List Place) (st : Stage) : Prop where
  write : st.needsWrite = true → ∀ p ∈ places, p.holdsRead = false ∧ p.holdsWrite = false
  read : takesRead st = true → ∀ p ∈ places, p.holdsWrite = false
  mutex : takesMutex st = true → ∀ p ∈ places, p.holdsMutex = false

instance (places : List Place) (st : Stage) : Decidable (Granted places st) :=
  decidable_of_iff ((st.needsWrite = true → ∀ p ∈ places, p.holdsRead = false ∧ p.holdsWrite = false) ∧
    (takesRead st = true → ∀ p ∈ places, p.holdsWrite = false) ∧
    (takesMutex st = true → ∀ p ∈ places, p.holdsMutex = false))
    ⟨fun h => ⟨h.1,h.2.1,h.2.2⟩,fun h => ⟨h.write,h.read,h.mutex⟩⟩

/-- The read lock is free for a call that starts with it. -/
def Admitted (places : List Place) (k : Call) : Prop :=
  k.start.holdsRead = true → ∀ p ∈ places, p.holdsWrite = false

instance (places : List Place) (k : Call) : Decidable (Admitted places k) :=
  inferInstanceAs (Decidable (k.start.holdsRead = true → ∀ p ∈ places, p.holdsWrite = false))

inductive Move where
  | call (k : Call)
  /-- A step between sections, or the entry into one. -/
  | step (i : ℕ) (ch : Choice)
  /-- A turn inside a section. -/
  | turn (i : ℕ)

variable (sha512 : List UInt8 → Hash) (qsort : List BlockPair → List BlockPair)

def proceed (ch : Choice) (c : Context) (st : Stage) : Option (Context × Place) :=
  match opens st with
  | some sec => some (c,.inside sec)
  | none => (advance sha512 qsort ch c st).map (fun t => (t.1,.outside t.2))

def move (s : Locked) : Move → Option Locked
  | .call k => if Admitted s.places k then some ⟨s.ctx,s.places++[.outside k.start]⟩ else none
  | .step i ch =>
    match s.places[i]? with
    | some (.outside st) =>
      if Granted s.places st then
        (proceed sha512 qsort ch s.ctx st).map (fun t => ⟨t.1,s.places.set i t.2⟩)
      else none
    | _ => none
  | .turn i =>
    match s.places[i]? with
    | some (.inside sec) => some ⟨(turn s.ctx sec).1,s.places.set i (turn s.ctx sec).2⟩
    | _ => none

/-- The action of `Threads` that a move stands for; turns belong to the step that
entered their section. -/
def Move.action : Move → Option Action
  | .call k => some (.call k)
  | .step i ch => some (.step i ch)
  | .turn _ => none

def Quiet : Move → Prop
  | .turn _ => True
  | _ => False

/-! ## What a move can do -/

variable {sha512 qsort} {s t : Locked} {i : ℕ} {ch : Choice}

theorem move_call {k : Call} (h : move sha512 qsort s (.call k) = some t) :
    Admitted s.places k ∧ t = ⟨s.ctx,s.places++[.outside k.start]⟩ := by
  simp only [move] at h
  split_ifs at h with ha
  exact ⟨ha,(Option.some.inj h).symm⟩

theorem move_step (h : move sha512 qsort s (.step i ch) = some t) :
    ∃ st d, s.places[i]? = some (.outside st) ∧ Granted s.places st ∧
      proceed sha512 qsort ch s.ctx st = some d ∧ t = ⟨d.1,s.places.set i d.2⟩ := by
  simp only [move] at h
  split at h
  · next st hst =>
    split_ifs at h with hg
    obtain ⟨d,hd,rfl⟩ := Option.map_eq_some_iff.mp h
    exact ⟨st,d,hst,hg,hd,rfl⟩
  · cases h

theorem move_turn (h : move sha512 qsort s (.turn i) = some t) :
    ∃ sec, s.places[i]? = some (.inside sec) ∧
      t = ⟨(turn s.ctx sec).1,s.places.set i (turn s.ctx sec).2⟩ := by
  simp only [move] at h
  split at h
  · next sec hsec => exact ⟨sec,hsec,(Option.some.inj h).symm⟩
  · cases h

theorem proceed_cases {c : Context} {st : Stage} {d : Context × Place}
    (h : proceed sha512 qsort ch c st = some d) :
    (∃ sec, opens st = some sec ∧ d = (c,.inside sec)) ∨
    (opens st = none ∧ ∃ u, advance sha512 qsort ch c st = some u ∧ d = (u.1,.outside u.2)) := by
  unfold proceed at h
  cases ho : opens st with
  | some sec =>
    rw [ho] at h
    exact Or.inl ⟨sec,rfl,(Option.some.inj h).symm⟩
  | none =>
    rw [ho] at h
    obtain ⟨u,hu,rfl⟩ := Option.map_eq_some_iff.mp h
    exact Or.inr ⟨rfl,u,hu,rfl⟩

/-! ## A section that nothing interrupts -/

/-- The turns of a section lead from its first context to its last. -/
inductive Runs : Context → Section → Context → Stage → Prop where
  | leave {c : Context} {sec : Section} {d : Context} {st : Stage}
      (h : turn c sec = (d,.outside st)) : Runs c sec d st
  | more {c c' : Context} {sec sec' : Section} {d : Context} {st : Stage}
      (h : turn c sec = (c',.inside sec')) (rest : Runs c' sec' d st) : Runs c sec d st

theorem runs_removing (path : Path) (size : Option ℕ) (n i : ℕ) (c : Context) (slots : List ℕ) :
    Runs c (.removing path size n i slots) (removeBlocks path n i c slots).1
      (removed path (removeBlocks path n i c slots).2 size) := by
  induction n generalizing i c slots with
  | zero => exact .leave rfl
  | succ n ih => exact .more rfl (ih (i+1) _ _)

theorem runs_mapping (r : WriteReq) (plan : List PlanEntry) (c : Context) (slots : List ℕ) :
    Runs c (.mapping r plan slots) (growSize (mapPlan r.path plan c slots).1 r.path r.newEnd)
      (.release (mapPlan r.path plan c slots).2 (r.numBlocks*blockSize)) := by
  induction plan generalizing c slots with
  | nil => exact .leave rfl
  | cons e es ih => exact .more rfl (ih _ _)

theorem runs_publishing (r : WriteReq) (done plan : List PlanEntry) (c : Context)
    (slots : List ℕ) {d : Context} {st : Stage}
    (h : Runs (publishPlan plan c slots).1
      (.mapping r (done++(publishPlan plan c slots).2.2) (publishPlan plan c slots).2.1) d st) :
    Runs c (.publishing r done plan slots) d st := by
  induction plan generalizing done c slots with
  | nil =>
    refine .more rfl ?_
    rwa [publishPlan,List.append_nil] at h
  | cons e es ih =>
    refine .more rfl (ih _ _ _ ?_)
    rw [List.append_assoc]
    exact h

theorem runs_reverting (done plan : List PlanEntry) (c : Context) (slots : List ℕ) (err : Errno) :
    Runs c (.reverting done plan slots err) (rollbackHits plan c slots).1
      (.rollbackConcat (done++plan) (rollbackHits plan c slots).2 err) := by
  induction plan generalizing done c slots with
  | nil =>
    rw [List.append_nil]
    exact .leave rfl
  | cons e es ih =>
    have hplan : done++e::es = (done++[e])++es := by simp
    rw [hplan]
    cases hk : e.kind with
    | hit =>
      simp only [rollbackHits,hk]
      exact .more (by simp only [turn,hk]) (ih (done++[e]) _ _)
    | miss =>
      simp only [rollbackHits,hk]
      exact .more (by simp only [turn,hk]) (ih (done++[e]) _ _)

theorem runs_discarding (plan : List PlanEntry) (c : Context) (err : Errno) :
    Runs c (.discarding plan err) (rollbackMisses plan c) (.done (.error err)) := by
  induction plan generalizing c with
  | nil => exact .leave rfl
  | cons e es ih =>
    cases hk : e.kind with
    | miss =>
      simp only [rollbackMisses,hk]
      exact .more (by simp only [turn,hk]) (ih _)
    | hit =>
      simp only [rollbackMisses,hk]
      exact .more (by simp only [turn,hk]) (ih _)

theorem runs_draining (r : WriteReq) (plan : List PlanEntry) (n : ℕ) (taken : List ℕ) (c : Context)
    (hn : taken.length+n = missCount plan) :
    Runs c (.draining r plan taken) (drainFreeList n c).2
      (.append r plan (taken++(drainFreeList n c).1)) := by
  induction n generalizing taken c with
  | zero =>
    refine .leave ?_
    simp only [turn,drainFreeList]
    rw [if_neg (by omega)]
    simp
  | succ n ih =>
    cases hl : c.freeBlockList with
    | nil =>
      have hsame : { c with freeBlockList := ([] : List ℕ) } = c := by rw [←hl]
      refine .leave ?_
      simp only [turn,drainFreeList,hl,List.take_nil,List.drop_nil,List.append_nil]
      rw [if_pos (by omega),hsame]
    | cons q l =>
      have hturn : turn c (.draining r plan taken) =
          ({ c with freeBlockList := l },.inside (.draining r plan (taken++[q]))) := by
        simp only [turn,hl]
        rw [if_pos (by omega)]
      have hrest := ih (taken++[q]) { c with freeBlockList := l } (by simp; omega)
      refine .more hturn ?_
      simpa [drainFreeList,hl] using hrest

/-- Run without interruption, a section does what the step of `Threads` does. -/
theorem runs_opened {c : Context} {st : Stage} {sec : Section} (ho : opens st = some sec) :
    ∃ u, advance sha512 qsort ch c st = some u ∧ Runs c sec u.1 u.2 := by
  cases st with
  | drain r plan =>
    cases ho
    have h := runs_draining r plan (missCount plan) [] c (by simp)
    rw [List.nil_append] at h
    exact ⟨_,rfl,h⟩
  | consolidate r plan =>
    cases ho
    have h := runs_mapping r (publishPlan plan c []).2.2 (publishPlan plan c []).1
      (publishPlan plan c []).2.1
    exact ⟨_,rfl,runs_publishing r [] plan c [] h⟩
  | rollbackHits plan err =>
    cases ho
    exact ⟨_,rfl,runs_reverting [] plan c [] err⟩
  | rollbackMisses plan err =>
    cases ho
    exact ⟨_,rfl,runs_discarding plan c err⟩
  | unlinkRemove path n =>
    cases ho
    exact ⟨_,rfl,runs_removing path none n 0 c []⟩
  | truncateRemove path size n m =>
    cases ho
    exact ⟨_,rfl,runs_removing path (some size) (m-n) n c []⟩
  | _ => cases ho

theorem runs_exec {c d : Context} {sec : Section} {st : Stage} (h : Runs c sec d st)
    (ps : List Place) (hi : i < ps.length) :
    ∃ bs, (∀ b ∈ bs, Quiet b) ∧ exec (move sha512 qsort) ⟨c,ps.set i (.inside sec)⟩ bs =
      some ⟨d,ps.set i (.outside st)⟩ := by
  induction h with
  | @leave c sec d st h =>
    refine ⟨[.turn i],by simp [Quiet],?_⟩
    simp only [exec,move,List.getElem?_set_self hi,h,Option.bind_some,List.set_set]
  | @more c c' sec sec' d st h _ ih =>
    obtain ⟨bs,hbs,he⟩ := ih
    refine ⟨.turn i::bs,?_,?_⟩
    · intro b hb
      rcases List.mem_cons.mp hb with rfl | hb
      · trivial
      · exact hbs b hb
    · simp only [exec,move,List.getElem?_set_self hi,h,Option.bind_some,List.set_set]
      exact he

end ArchivalDedup.LockedSections
