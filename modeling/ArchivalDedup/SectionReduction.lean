import ArchivalDedup.Library.Reduction
import ArchivalDedup.ReferenceSafety
import ArchivalDedup.SectionMoves

/-!
# Sections are atomic

The locks keep two sections with the same tables apart, so a turn of a section
can be exchanged with whatever another call does next. Hence every run in which
the loops under the locks are interleaved with other calls is a run of
`Threads`, and every run of `Threads` is one with the locks.
-/

set_option autoImplicit false

namespace ArchivalDedup.SectionReduction
open ArchivalDedup.FiniteTable ArchivalDedup.MetaIndex ArchivalDedup.WriteDedup
open ArchivalDedup.ReadDedup ArchivalDedup.Ledger ArchivalDedup.Threads ArchivalDedup.ThreadLedger
open ArchivalDedup.ReferenceSafety ArchivalDedup.Interleaving ArchivalDedup.Reduction
open ArchivalDedup.LockedSections ArchivalDedup.SectionLedger ArchivalDedup.SectionMoves

variable {sha512 : List UInt8 → Hash} {qsort : List BlockPair → List BlockPair}
variable {c d : Context} {ch : Choice}

/-! ## Exchange of moves -/

theorem mem_others {places : List Place} {i j : ℕ} {p : Place} (hij : i ≠ j)
    (hp : places[i]? = some p) : p ∈ places.eraseIdx j :=
  List.mem_eraseIdx_iff_getElem?.mpr ⟨i,hij,hp⟩

theorem dropped_apart {s : Locked} {i j : ℕ} {sec : Section} {st : Stage}
    (h : LockedInv sha512 ∅ s) (hij : i ≠ j) (hsec : s.places[i]? = some (.inside sec))
    (hst : s.places[j]? = some (.outside st)) {e : PlanEntry} (he : e ∈ (party st).plan)
    (hk : e.kind = .miss) : dropped s.ctx sec ≠ some e.info := by
  obtain ⟨hperm,_⟩ := set_perm s.places j _ (.outside st) hst
  have hinv := inv_perm (hperm.map placeParty) h.ledger
  obtain ⟨hheld,hocc,_⟩ := others_clear hinv he hk
  have hmap : ∀ k, find s.ctx.fileToMaster k ≠ some e.info := by
    intro k hf
    have := (occurrences_pos s.ctx.fileToMaster e.info).mpr ⟨k,hf⟩
    omega
  intro hdrop
  cases sec with
  | removing path size n m slots =>
    cases n with
    | zero => cases hdrop
    | succ n => exact hmap _ hdrop
  | mapping r rest slots =>
    cases rest with
    | nil => cases hdrop
    | cons f fs => exact hmap _ hdrop
  | reverting done rest slots err =>
    cases rest with
    | nil => cases hdrop
    | cons f fs =>
      have hmem := List.mem_map_of_mem (f := placeParty) (mem_others hij hsec)
      exact (heldRefs_zero _ _).mp hheld _ hmem f (by simp [placeParty,sectionParty])
        (Option.some.inj hdrop)
  | publishing r done rest slots => cases hdrop
  | draining r plan taken => cases hdrop
  | discarding rest err => cases hdrop

theorem discarded_live {s : Locked} {i : ℕ} {sec : Section} (h : LockedInv sha512 ∅ s)
    (hsec : s.places[i]? = some (.inside sec)) {e : PlanEntry} (he : e ∈ (sectionParty sec).plan)
    (hk : e.kind = .miss) : e.info ∈ s.ctx.live :=
  (h.ledger.pending _ (List.mem_map_of_mem (List.mem_of_getElem? hsec)) e he hk).1

theorem holds_set {f : Place → Bool} {places : List Place} {i : ℕ} {p p' : Place}
    (hp : places[i]? = some p) (hf : f p' = true → f p = true) (h : ∀ q ∈ places, f q = false) :
    ∀ q ∈ places.set i p', f q = false := by
  intro q hq
  rcases mem_set_cases hq with rfl | hq
  · have hold := h p (List.mem_of_getElem? hp)
    by_contra hn
    rw [hf (Bool.eq_true_of_not_eq_false hn)] at hold
    cases hold
  · exact h q hq

theorem granted_turn {s : Locked} {i : ℕ} {sec : Section} {st : Stage}
    (hsec : s.places[i]? = some (.inside sec)) (hg : Granted s.places st) :
    Granted (s.places.set i (turn s.ctx sec).2) st := by
  obtain ⟨hr,hw,hm⟩ := turn_holds s.ctx sec
  constructor
  · intro hn q hq
    exact ⟨holds_set hsec hr (fun p hp => (hg.write hn p hp).1) q hq,
      holds_set hsec hw (fun p hp => (hg.write hn p hp).2) q hq⟩
  · intro hn
    exact holds_set hsec hw (hg.read hn)
  · intro hn
    exact holds_set hsec hm (hg.mutex hn)

theorem proceed_beside {s : Locked} {i j : ℕ} {sec : Section} {st : Stage} {u : Context × Place}
    (h : LockedInv sha512 ∅ s) (hij : i ≠ j) (hsec : s.places[i]? = some (.inside sec))
    (hst : s.places[j]? = some (.outside st)) (hg : Granted s.places st)
    (hu : proceed sha512 qsort ch s.ctx st = some u) :
    ∃ v, proceed sha512 qsort ch (turn s.ctx sec).1 st = some (v,u.2) ∧
      turn u.1 sec = (v,(turn s.ctx sec).2) := by
  have hmem := List.mem_of_getElem? hsec
  have hcomp := (exclusive_others h.exclusive hst).1 _ (mem_others hij hsec)
  rcases proceed_cases hu with ⟨sec',ho,rfl⟩ | ⟨ho,w,hw,rfl⟩
  · refine ⟨(turn s.ctx sec).1,?_,rfl⟩
    simp only [proceed,ho]
  · have hlift : ∀ v, advance sha512 qsort ch (turn s.ctx sec).1 st = some (v,w.2) →
        proceed sha512 qsort ch (turn s.ctx sec).1 st = some (v,.outside w.2) := by
      intro v hv
      simp only [proceed,ho,hv,Option.map_some]
    by_cases hlock : sec.holdsWrite = true
    · have hnw : st.needsWrite = false := by
        by_contra hn
        have hfree := (hg.write (Bool.eq_true_of_not_eq_false hn) _ hmem).2
        rw [Place.holdsWrite,hlock] at hfree
        cases hfree
      have hnr : takesRead st = false := by
        by_contra hn
        have hfree := hg.read (Bool.eq_true_of_not_eq_false hn) _ hmem
        rw [Place.holdsWrite,hlock] at hfree
        cases hfree
      obtain ⟨v,hv,ht⟩ := step_beside_writer hlock ho hnw (hcomp.writer hlock) hnr
        (fun e he hk => dropped_apart h hij hsec hst he hk) hw
      exact ⟨v,hlift v hv,ht⟩
    · have hlock := Bool.eq_false_of_not_eq_true hlock
      have hnm : takesMutex st = false := by
        by_contra hn
        have hfree := hg.mutex (Bool.eq_true_of_not_eq_false hn) _ hmem
        rw [Place.holdsMutex,hlock] at hfree
        cases hfree
      obtain ⟨v,hv,ht⟩ := step_beside_mutex hlock ho hnm
        (fun e he hk => discarded_live h hsec he hk) hw
      exact ⟨v,hlift v hv,ht⟩

theorem turns_beside {s : Locked} {i j : ℕ} {sec sec' : Section} (h : LockedInv sha512 ∅ s)
    (hij : i ≠ j) (hsec : s.places[i]? = some (.inside sec))
    (hsec' : s.places[j]? = some (.inside sec')) :
    ∃ v, turn (turn s.ctx sec).1 sec' = (v,(turn s.ctx sec').2) ∧
      turn (turn s.ctx sec').1 sec = (v,(turn s.ctx sec).2) := by
  have hcomp := (exclusive_others h.exclusive hsec').1 _ (mem_others hij hsec)
  cases hw : sec.holdsWrite with
  | true => exact turn_beside_turn hw ((compatible_symm hcomp).writers hw) s.ctx
  | false =>
    have hw' : sec'.holdsWrite = true := by
      by_contra hn
      have hn := Bool.eq_false_of_not_eq_true hn
      have hfree := (compatible_symm hcomp).mutex (by rw [Place.holdsMutex,hw]; rfl)
      rw [Place.holdsMutex,hn] at hfree
      cases hfree
    obtain ⟨v,h₁,h₂⟩ := turn_beside_turn hw' hw s.ctx
    exact ⟨v,h₂,h₁⟩

theorem move_step_of {s : Locked} {i : ℕ} {st : Stage} {u : Context × Place}
    (hst : s.places[i]? = some (.outside st)) (hg : Granted s.places st)
    (hu : proceed sha512 qsort ch s.ctx st = some u) :
    move sha512 qsort s (.step i ch) = some ⟨u.1,s.places.set i u.2⟩ := by
  simp only [move,hst,if_pos hg,hu,Option.map_some]

theorem move_turn_of {s : Locked} {i : ℕ} {sec : Section}
    (hsec : s.places[i]? = some (.inside sec)) : move sha512 qsort s (.turn i) =
      some ⟨(turn s.ctx sec).1,s.places.set i (turn s.ctx sec).2⟩ := by
  simp only [move,hsec]

/-- A turn and the move of another call lead to the same state in either order. -/
theorem turn_square {s t u : Locked} {i : ℕ} {a : Move} (h : LockedInv sha512 ∅ s)
    (hne : .turn i ≠ a) (ht : move sha512 qsort s (.turn i) = some t)
    (hu : move sha512 qsort s a = some u) :
    ∃ v, move sha512 qsort t a = some v ∧ move sha512 qsort u (.turn i) = some v := by
  obtain ⟨sec,hsec,rfl⟩ := move_turn ht
  cases a with
  | call k =>
    obtain ⟨ha,rfl⟩ := move_call hu
    have hi : i < s.places.length := (List.getElem?_eq_some_iff.mp hsec).1
    have hadm : Admitted (s.places.set i (turn s.ctx sec).2) k :=
      fun hr => holds_set hsec (turn_holds s.ctx sec).2.1 (ha hr)
    refine ⟨_,if_pos hadm,?_⟩
    rw [move_turn_of (by rw [List.getElem?_append_left hi]; exact hsec),List.set_append_left i _ hi]
  | step j ch =>
    obtain ⟨st,w,hst,hg,hw,rfl⟩ := move_step hu
    have hij : i ≠ j := by
      rintro rfl
      cases hsec.symm.trans hst
    obtain ⟨v,hv,hturn⟩ := proceed_beside h hij hsec hst hg hw
    have hstay : (s.places.set i (turn s.ctx sec).2)[j]? = some (.outside st) := by
      rw [List.getElem?_set_ne hij]
      exact hst
    have hinside : (Locked.mk w.1 (s.places.set j w.2)).places[i]? = some (.inside sec) := by
      rw [List.getElem?_set_ne hij.symm]
      exact hsec
    refine ⟨_,move_step_of hstay (granted_turn hsec hg) hv,?_⟩
    rw [move_turn_of hinside]
    simp only [hturn]
    rw [List.set_comm _ _ hij.symm]
  | turn j =>
    obtain ⟨sec',hsec',rfl⟩ := move_turn hu
    have hij : i ≠ j := fun heq => hne (congrArg Move.turn heq)
    obtain ⟨v,h₁,h₂⟩ := turns_beside h hij hsec hsec'
    have hstay : (Locked.mk (turn s.ctx sec).1 (s.places.set i (turn s.ctx sec).2)).places[j]? =
        some (.inside sec') := by
      rw [List.getElem?_set_ne hij]
      exact hsec'
    have hinside : (Locked.mk (turn s.ctx sec').1 (s.places.set j (turn s.ctx sec').2)).places[i]? =
        some (.inside sec) := by
      rw [List.getElem?_set_ne hij.symm]
      exact hsec
    refine ⟨_,move_turn_of hstay,?_⟩
    rw [move_turn_of hinside]
    simp only [h₁,h₂]
    rw [List.set_comm _ _ hij.symm]

theorem clean_same {st : Stage} (h : SameChecks c d)
    (hc : RoomAt sha512 c st ∧ LosersAt ∅ c st) : RoomAt sha512 d st ∧ LosersAt ∅ d st := by
  have hex : ∀ p k, existingInfo d p k = existingInfo c p k := by
    intro p k
    simp only [existingInfo,Context.lookupByHash,h.1]
  have hinc : increments sha512 d st = increments sha512 c st := by
    cases st with
    | pass1 r p => simp only [increments,hex]
    | consolidate r plan => simp only [increments,winners,h.1]
    | _ => rfl
  have hlose : sharedLosers d st = sharedLosers c st := by
    cases st with
    | consolidate r plan => simp only [sharedLosers,h.1]
    | _ => rfl
  constructor
  · intro b hb
    rw [hinc] at hb
    rw [h.2]
    exact hc.1 b hb
  · intro b hb
    rw [hlose] at hb
    exact hc.2 b hb

theorem clean_unlocked {st : Stage} (hw : st.needsWrite = false) (hr : st.holdsRead = false) :
    RoomAt sha512 c st ∧ LosersAt ∅ c st := by
  cases st with
  | pass1 r p => cases hr
  | consolidate r plan => cases hw
  | _ => exact ⟨fun _ hb => absurd hb List.not_mem_nil,fun _ hb => absurd hb List.not_mem_nil⟩

theorem clean_beside {s t u : Locked} {i : ℕ} {a : Move} (h : LockedInv sha512 ∅ s)
    (hc : LockedClean sha512 s a) (ht : move sha512 qsort s (.turn i) = some t)
    (hu : move sha512 qsort s a = some u) : LockedClean sha512 t a := by
  obtain ⟨sec,hsec,rfl⟩ := move_turn ht
  cases a with
  | call k => exact fun st hst => by cases hst
  | turn j => exact fun st hst => by cases hst
  | step j ch =>
    obtain ⟨st,w,hst,hg,hw,rfl⟩ := move_step hu
    have hij : i ≠ j := by
      rintro rfl
      cases hsec.symm.trans hst
    have hat : stageAt ⟨(turn s.ctx sec).1,s.places.set i (turn s.ctx sec).2⟩ (.step j ch) = some st := by
      simp only [stageAt,List.getElem?_set_ne hij,hst]
    intro st' hst'
    cases hat.symm.trans hst'
    have hold := hc st (by simp [stageAt,hst])
    cases hlock : sec.holdsWrite with
    | false => exact clean_same (turn_checks hlock) hold
    | true =>
      refine clean_unlocked ?_ ?_
      · by_contra hn
        have hfree := (hg.write (Bool.eq_true_of_not_eq_false hn) _ (List.mem_of_getElem? hsec)).2
        rw [Place.holdsWrite,hlock] at hfree
        cases hfree
      · exact ((exclusive_others h.exclusive hst).1 _ (mem_others hij hsec)).writer hlock

theorem turns_exchangeable :
    Exchangeable (move sha512 qsort) Quiet (LockedClean sha512) (LockedInv sha512 ∅) where
  admits s b hb := by
    cases b with
    | turn i => exact fun st hst => by cases hst
    | call k => cases hb
    | step i ch => cases hb
  keeps s a t hi hc hs := lockedInv_move hi hc hs
  stable s b a t u hi hb _ hc ht hu := by
    cases b with
    | turn i => exact clean_beside hi hc ht hu
    | call k => cases hb
    | step i ch => cases hb
  square s b a t u hi hb hne _ ht hu := by
    cases b with
    | turn i => exact turn_square hi hne ht hu
    | call k => cases hb
    | step i ch => cases hb

/-! ## Runs -/

/-- The state of `Threads` at which all sections are finished. -/
def SameSystem (n : Locked) (x : System) : Prop :=
  n.ctx = x.ctx ∧ n.places = x.procs.map Place.outside

theorem agrees_settled {n : Locked} {x : System} (h : SameSystem n x) :
    Resting (move sha512 qsort) Quiet n := by
  intro b hb
  cases b with
  | call k => cases hb
  | step i ch => cases hb
  | turn i =>
    simp only [move,h.2,List.getElem?_map]
    cases x.procs[i]? <;> rfl

def turnsAt : Place → ℕ
  | .outside _ => 0
  | .inside sec => turnsLeft sec+1

def pendingTurns (s : Locked) : ℕ := (s.places.map turnsAt).sum

theorem turn_descends {s t : Locked} {a : Move} (ha : Quiet a)
    (hs : move sha512 qsort s a = some t) : pendingTurns t < pendingTurns s := by
  cases a with
  | call k => cases ha
  | step i ch => cases ha
  | turn i =>
    obtain ⟨sec,hsec,rfl⟩ := move_turn hs
    obtain ⟨h₁,h₂⟩ := sum_parties turnsAt s.places i _ (turn s.ctx sec).2 hsec
    simp only [pendingTurns]
    rw [h₁,h₂]
    rcases turn_cases s.ctx sec with ⟨st,hst,_⟩ | ⟨sec',hsec',_,hlt⟩
    · rw [hst]
      simp only [turnsAt]
      omega
    · rw [hsec']
      simp only [turnsAt]
      omega

/-- Entered from a state without open sections and run to its end, a section does
the step of `Threads`. -/
theorem opened_settles {n : Locked} {x : System} {i : ℕ} {st : Stage} {u : Context × Place}
    (hag : SameSystem n x) (hst : x.procs[i]? = some st)
    (hu : proceed sha512 qsort ch n.ctx st = some u) :
    ∃ v, advance sha512 qsort ch x.ctx st = some v ∧
      SettlesTo (move sha512 qsort) Quiet ⟨u.1,n.places.set i u.2⟩
        ⟨v.1,n.places.set i (.outside v.2)⟩ := by
  have hi : i < n.places.length := by
    rw [hag.2,List.length_map]
    exact (List.getElem?_eq_some_iff.mp hst).1
  have hdone : ∀ v : Context × Stage, Resting (move sha512 qsort) Quiet
      ⟨v.1,n.places.set i (.outside v.2)⟩ := by
    intro v
    refine agrees_settled (x := ⟨v.1,x.procs.set i v.2⟩) ⟨rfl,?_⟩
    rw [hag.2,List.map_set]
  rw [←hag.1]
  rcases proceed_cases hu with ⟨sec,ho,rfl⟩ | ⟨_,v,hv,rfl⟩
  · obtain ⟨v,hv,hruns⟩ := @runs_opened sha512 qsort ch n.ctx st sec ho
    exact ⟨v,hv,runs_exec hruns n.places hi,hdone v⟩
  · exact ⟨v,hv,settlesTo_self (hdone v)⟩

theorem threads_follow : CoarseFollows (move sha512 qsort) Quiet (LockedClean sha512) (LockedInv sha512 ∅)
    (step sha512 qsort) (Clean sha512) Move.action SameSystem := by
  intro n a w m x hi hag hset ha hc hw hm
  have hiw := lockedInv_move hi hc hw
  cases a with
  | turn i => exact absurd trivial ha
  | call k =>
    obtain ⟨_,rfl⟩ := move_call hw
    have hagw : SameSystem ⟨n.ctx,n.places++[.outside k.start]⟩ ⟨x.ctx,x.procs++[k.start]⟩ := by
      refine ⟨hag.1,?_⟩
      rw [hag.2,List.map_append]
      rfl
    have hmw := settled_settlesTo (agrees_settled hagw) hm
    subst hmw
    have hadm : Clean sha512 x (.call k) :=
      ⟨(fun st hst => by cases hst),(fun st hst => by cases hst)⟩
    exact ⟨_,rfl,⟨hadm,fun _ _ => trivial⟩,hagw⟩
  | step i ch =>
    obtain ⟨st,u,hst,hg,hu,rfl⟩ := move_step hw
    have hst' : x.procs[i]? = some st := by
      rw [hag.2,List.getElem?_map] at hst
      obtain ⟨q,hq,hqst⟩ := Option.map_eq_some_iff.mp hst
      cases hqst
      exact hq
    obtain ⟨v,hv,hsettles⟩ := opened_settles hag hst' hu
    have hmv := settlesTo_unique turns_exchangeable hiw hm hsettles
    subst hmv
    have hlock : (st.needsWrite && x.procs.any Stage.holdsRead) = false := by
      cases hn : st.needsWrite with
      | false => rfl
      | true =>
        simp only [Bool.true_and,List.any_eq_false]
        intro q hq hr
        have hmem : Place.outside q ∈ n.places := by
          rw [hag.2]
          exact List.mem_map_of_mem hq
        have hfree := (hg.write hn _ hmem).1
        rw [Place.holdsRead,hr] at hfree
        cases hfree
    have hstep : step sha512 qsort x (.step i ch) = some ⟨v.1,x.procs.set i v.2⟩ := by
      simp only [step,hst',hlock,Bool.false_eq_true,if_false,hv,Option.map_some]
    refine ⟨⟨v.1,x.procs.set i v.2⟩,?_,⟨?_,fun _ _ => trivial⟩,rfl,?_⟩
    · simp only [Move.action,Option.toList_some,exec,hstep,Option.bind_some]
    · obtain ⟨hroom,hlose⟩ := hc st (by simp [stageAt,hst])
      rw [hag.1] at hroom hlose
      constructor
      · intro q hq
        cases hst'.symm.trans hq
        exact hroom
      · intro q hq
        cases hst'.symm.trans hq
        exact hlose
    · rw [hag.2,List.map_set]

/-- The loops under the locks may be taken for single steps: a clean run in which
they are interleaved with other calls, with its turns left out, is a clean run
of `Threads`, to the state at which the open sections are finished. -/
theorem locked_run_atomic (ms : List Move) (s : Locked)
    (hr : exec (move sha512 qsort) emptyLocked ms = some s)
    (hc : Meets (move sha512 qsort) (LockedClean sha512) emptyLocked ms) :
    ∃ x m, Reaches sha512 qsort (ms.filterMap Move.action) x ∧
      Meets (step sha512 qsort) (Clean sha512) emptySystem (ms.filterMap Move.action) ∧
      SettlesTo (move sha512 qsort) Quiet s m ∧ SameSystem m x ∧
      ((∀ p ∈ s.places, ∃ st, p = .outside st) → SameSystem s x) := by
  have hempty : SameSystem emptyLocked emptySystem := ⟨rfl,rfl⟩
  obtain ⟨m,x,hm,hx,hclean,hag⟩ := coarse_run pendingTurns turns_exchangeable
    (fun _ _ _ ha hs => turn_descends ha hs) (fun a ha => by cases a <;> first | rfl | cases ha)
    threads_follow ms emptyLocked s emptyLocked emptySystem lockedInv_empty
    (settlesTo_self (agrees_settled hempty)) hempty hc hr
  refine ⟨x,m,hx,hclean,hm,hag,?_⟩
  intro hout
  have hset : Resting (move sha512 qsort) Quiet s := by
    intro b hb
    cases b with
    | call k => cases hb
    | step i ch => cases hb
    | turn i =>
      simp only [move]
      split
      · next sec hsec =>
        obtain ⟨st,hst⟩ := hout _ (List.mem_of_getElem? hsec)
        cases hst
      · rfl
  rw [←settled_settlesTo hset hm]
  exact hag

def on (i : ℕ) (a : Ptr) : Move := .step i ⟨a,.complete,none⟩

def overlappingPass3 : List Move :=
  [.call (.write (fillReq fileA 65 0 2 two_blocks_fit blocks01_end)),
    on 0 0,on 0 1,on 0 1,on 0 1,.turn 0,on 0 1,on 0 1,on 0 1,
    .call (.write (fillReq fileB 66 0 1 one_block_fits block0_ends)),on 1 1,on 1 2,
    on 0 2,.turn 0,on 1 2,.turn 0,.turn 1,.turn 0,on 1 2,.turn 0,on 1 2,.turn 0]

theorem locked_run_atomic_overlapping : ∃ s x m,
    exec (move sampleSha512 id) emptyLocked overlappingPass3 = some s ∧
    Meets (move sampleSha512 id) (LockedClean sampleSha512) emptyLocked overlappingPass3 ∧
    s.places.any Place.holdsWrite = true ∧ find s.ctx.fileToSizes fileA = none ∧
    Reaches sampleSha512 id (overlappingPass3.filterMap Move.action) x ∧
    SettlesTo (move sampleSha512 id) Quiet s m ∧ SameSystem m x := by
  have hc : Meets (move sampleSha512 id) (LockedClean sampleSha512) emptyLocked
      overlappingPass3 := by
    decide +kernel
  obtain ⟨s,hr,hp⟩ := exec_observe (move sampleSha512 id)
    (fun s => s.places.any Place.holdsWrite = true ∧ find s.ctx.fileToSizes fileA = none)
    emptyLocked overlappingPass3 (by decide +kernel)
  obtain ⟨hw,hf⟩ := of_decide_eq_true hp
  obtain ⟨x,m,hx,_,hm,hag,_⟩ := locked_run_atomic overlappingPass3 s hr hc
  exact ⟨s,x,m,hr,hc,hw,hf,hx,hm,hag⟩

/-- The locks stop no run of `Threads`. -/
theorem threads_run_locked (acts : List Action) (x : System) (hr : Reaches sha512 qsort acts x) :
    ∃ ms s, exec (move sha512 qsort) emptyLocked ms = some s ∧ ms.filterMap Move.action = acts ∧
      SameSystem s x := by
  induction acts using List.reverseRecOn generalizing x with
  | nil =>
    cases hr
    exact ⟨[],emptyLocked,rfl,rfl,rfl,rfl⟩
  | append_singleton as a ih =>
    obtain ⟨y,hy,ha⟩ := exec_snoc_some _ hr
    obtain ⟨ms,s,hs,hms,hag⟩ := ih y hy
    have hout : ∀ p ∈ s.places, p.holdsWrite = false ∧ p.holdsMutex = false := by
      intro p hp
      rw [hag.2] at hp
      obtain ⟨st,_,rfl⟩ := List.mem_map.mp hp
      exact ⟨rfl,rfl⟩
    cases a with
    | call k =>
      rw [step_call_some sha512 qsort ha]
      refine ⟨ms++[.call k],⟨s.ctx,s.places++[.outside k.start]⟩,?_,?_,hag.1,?_⟩
      · have hadm : Admitted s.places k := fun _ p hp => (hout p hp).1
        rw [exec_append,hs]
        simp only [Option.bind_some,exec,move,if_pos hadm]
      · rw [List.filterMap_append,hms]
        rfl
      · rw [hag.2,List.map_append]
        rfl
    | step i ch =>
      obtain ⟨st,d,hst,hd,rfl,hlock⟩ := step_step_some sha512 qsort ha
      have hplace : s.places[i]? = some (.outside st) := by
        rw [hag.2,List.getElem?_map,hst]
        rfl
      have hg : Granted s.places st := by
        refine ⟨?_,fun _ p hp => (hout p hp).1,fun _ p hp => (hout p hp).2⟩
        intro hw p hp
        refine ⟨?_,(hout p hp).1⟩
        rw [hag.2] at hp
        obtain ⟨q,hq,rfl⟩ := List.mem_map.mp hp
        exact hlock hw q hq
      rw [←hag.1] at hd
      have hu : ∃ u, proceed sha512 qsort ch s.ctx st = some u := by
        unfold proceed
        cases opens st with
        | some sec => exact ⟨_,rfl⟩
        | none => exact ⟨_,by rw [hd]; rfl⟩
      obtain ⟨u,hu⟩ := hu
      obtain ⟨v,hv,⟨bs,hbs,he⟩,_⟩ := opened_settles hag hst hu
      rw [←hag.1] at hv
      cases hd.symm.trans hv
      refine ⟨ms++.step i ch::bs,⟨d.1,s.places.set i (.outside d.2)⟩,?_,?_,rfl,?_⟩
      · rw [exec_append,hs]
        simp only [Option.bind_some,exec,move_step_of hplace hg hu]
        exact he
      · have hnone : bs.filterMap Move.action = [] := by
          rw [List.filterMap_eq_nil_iff]
          intro b hb
          cases b with
          | turn j => rfl
          | call k => exact (hbs _ hb).elim
          | step j ch => exact (hbs _ hb).elim
        rw [List.filterMap_append,hms,List.filterMap_cons,hnone]
        rfl
      · rw [hag.2,List.map_set]

theorem threads_run_locked_shared : ∃ x ms s, Reaches sampleSha512 id sharedBlocks x ∧
    exec (move sampleSha512 id) emptyLocked ms = some s ∧
    ms.filterMap Move.action = sharedBlocks ∧ SameSystem s x := by
  obtain ⟨x,hr,_⟩ := exec_observe (step sampleSha512 id) (fun _ => true) emptySystem sharedBlocks
    (by decide +kernel)
  obtain ⟨ms,s,hs,hms,hag⟩ := threads_run_locked sharedBlocks x hr
  exact ⟨x,ms,s,hr,hs,hms,hag⟩

/-- At every turn of every section the locks exclude each other, the counters are
exact, no block is mapped to a freed object and every slot has one holder. -/
theorem locked_run_balanced (ms : List Move) (s : Locked)
    (hr : exec (move sha512 qsort) emptyLocked ms = some s)
    (hc : Meets (move sha512 qsort) (LockedClean sha512) emptyLocked ms) :
    s.places.Pairwise Compatible ∧
    (∀ a ∈ s.ctx.live, (s.ctx.cell a).refcount = refs s.ctx (s.places.map placeParty) a) ∧
    (∀ k a, find s.ctx.fileToMaster k = some a → a ∈ s.ctx.live) ∧
    (s.ctx.freeBlockList++(s.places.map placeParty).flatMap Party.slots++publishedSlots s.ctx).Perm
      (List.range s.ctx.nextBlockIndex) := by
  have h : LockedInv sha512 ∅ s := exec_invariant (move sha512 qsort) (LockedClean sha512)
    (LockedInv sha512 ∅) (fun _ _ _ hi hc hs => lockedInv_move hi hc hs) emptyLocked s ms
    lockedInv_empty hc hr
  refine ⟨h.exclusive,h.ledger.counted,?_,h.ledger.slots⟩
  intro k a hk
  by_contra hl
  have hocc := (occurrences_pos s.ctx.fileToMaster a).mpr ⟨k,hk⟩
  rcases h.ledger.stale a hl with hz | ⟨hz,_⟩
  · unfold refs at hz
    omega
  · exact hz

theorem locked_run_balanced_overlapping : ∃ s,
    exec (move sampleSha512 id) emptyLocked overlappingPass3 = some s ∧
    Meets (move sampleSha512 id) (LockedClean sampleSha512) emptyLocked overlappingPass3 ∧
    s.places.any Place.holdsWrite = true ∧ find s.ctx.fileToMaster ⟨fileA,1⟩ = some 0 ∧
    0 ∈ s.ctx.live ∧ (s.ctx.cell 0).refcount = refs s.ctx (s.places.map placeParty) 0 := by
  have hc : Meets (move sampleSha512 id) (LockedClean sampleSha512) emptyLocked
      overlappingPass3 := by
    decide +kernel
  obtain ⟨s,hr,hp⟩ := exec_observe (move sampleSha512 id)
    (fun s => s.places.any Place.holdsWrite = true ∧ find s.ctx.fileToMaster ⟨fileA,1⟩ = some 0)
    emptyLocked overlappingPass3 (by decide +kernel)
  obtain ⟨hw,hk⟩ := of_decide_eq_true hp
  obtain ⟨_,hcount,hlive,_⟩ := locked_run_balanced overlappingPass3 s hr hc
  exact ⟨s,hr,hc,hw,hk,hlive _ 0 hk,hcount 0 (hlive _ 0 hk)⟩

end ArchivalDedup.SectionReduction
