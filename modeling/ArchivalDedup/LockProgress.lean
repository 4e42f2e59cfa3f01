import ArchivalDedup.Progress
import ArchivalDedup.SectionReduction

/-!
# The locks do not deadlock

A loop under one of the locks takes no other lock, and neither does a call that
holds the read lock. So as long as a call has not returned there is one whose next
move no lock holds back. Every move uses up work: between the sections as in
`Progress`, inside a section a turn of its loop. The calls in flight come to their
returns under every schedule.
-/

set_option autoImplicit false

namespace ArchivalDedup.LockProgress
open ArchivalDedup.MetaIndex ArchivalDedup.WriteDedup ArchivalDedup.ReadDedup
open ArchivalDedup.Threads ArchivalDedup.Interleaving ArchivalDedup.Progress
open ArchivalDedup.LockedSections ArchivalDedup.AtomicCalls ArchivalDedup.ReferenceSafety
open ArchivalDedup.SectionLedger ArchivalDedup.SectionReduction

def workBehind : Section → ℕ
  | .removing .. => 3
  | .publishing .. => 1
  | .mapping .. => 1
  | .reverting .. => 2
  | .draining _ plan _ => plan.length+5
  | .discarding .. => 0

def behind : Place → ℕ
  | .outside st => work st
  | .inside sec => workBehind sec

def placeWork : Place → ℕ
  | .outside st => 2*work st
  | .inside sec => 2*workBehind sec+1

theorem opens_work {st : Stage} {sec : Section} (h : opens st = some sec) :
    2*workBehind sec+1 < 2*work st := by
  cases st <;> cases h <;> simp only [workBehind,work] <;> omega

theorem turn_behind (c : Context) (sec : Section) : behind (turn c sec).2 = workBehind sec := by
  cases sec with
  | removing path size n i slots => cases n <;> cases size <;> rfl
  | publishing r done rest slots => cases rest <;> rfl
  | mapping r rest slots => cases rest <;> rfl
  | reverting done rest slots err =>
    cases rest with
    | nil => rfl
    | cons e es =>
      simp only [turn]
      split <;> rfl
  | draining r plan taken =>
    simp only [turn]
    split_ifs
    · split <;> rfl
    · rfl
  | discarding rest err =>
    cases rest with
    | nil => rfl
    | cons e es =>
      simp only [turn]
      split <;> rfl

theorem turn_lowers (c : Context) (sec : Section) :
    placeWork (turn c sec).2 < placeWork (.inside sec) ∨
    placeWork (turn c sec).2 = placeWork (.inside sec) ∧
      turnsAt (turn c sec).2 < turnsAt (.inside sec) := by
  have hwork := turn_behind c sec
  rcases turn_cases c sec with ⟨st,hst,_⟩ | ⟨sec',hsec',_,hlt⟩
  · left
    rw [hst] at hwork ⊢
    rw [placeWork,placeWork,←hwork]
    exact Nat.lt_succ_self _
  · right
    rw [hsec'] at hwork ⊢
    rw [placeWork,placeWork,←hwork]
    exact ⟨rfl,Nat.succ_lt_succ hlt⟩

/-! ## Every move uses up work -/

variable {sha512 : List UInt8 → Hash} {qsort : List BlockPair → List BlockPair}
variable {s t : Locked}

def NoNewCall : Move → Prop
  | .call _ => False
  | .step _ _ => True
  | .turn _ => True

/-- The work of all calls, and among equals the turns left to those in a section. -/
def ahead (s : Locked) : ℕ × ℕ := ((s.places.map placeWork).sum,(s.places.map turnsAt).sum)

def LexBelow : ℕ × ℕ → ℕ × ℕ → Prop := Prod.Lex (· < ·) (· < ·)

theorem below_wellFounded : WellFounded LexBelow :=
  WellFounded.prod_lex Nat.lt_wfRel.wf Nat.lt_wfRel.wf

theorem ahead_set {i : ℕ} {p q : Place} (hi : s.places[i]? = some p) (c : Context)
    (h : placeWork q < placeWork p ∨ placeWork q = placeWork p ∧ turnsAt q < turnsAt p) :
    LexBelow (ahead ⟨c,s.places.set i q⟩) (ahead s) := by
  obtain ⟨w₁,w₂⟩ := sum_parties placeWork s.places i p q hi
  obtain ⟨t₁,t₂⟩ := sum_parties turnsAt s.places i p q hi
  unfold ahead
  rw [w₁,w₂,t₁,t₂]
  rcases h with hlt | ⟨heq,hlt⟩
  · exact Prod.Lex.left _ _ (Nat.add_lt_add_right hlt _)
  · rw [heq]
    exact Prod.Lex.right _ (Nat.add_lt_add_right hlt _)

theorem move_descends (hq : ∀ l, (qsort l).Perm l) {m : Move} (hm : NoNewCall m)
    (h : move sha512 qsort s m = some t) : LexBelow (ahead t) (ahead s) := by
  cases m with
  | call k => exact hm.elim
  | step i ch =>
    obtain ⟨st,d,hi,_,hd,rfl⟩ := move_step h
    apply ahead_set hi
    obtain ⟨sec,ho,rfl⟩ | ⟨_,u,hu,rfl⟩ := proceed_cases hd
    · exact Or.inl (opens_work ho)
    · have hlt := advance_work hq hu
      exact Or.inl (Nat.mul_lt_mul_of_pos_left hlt Nat.two_pos)
  | turn i =>
    obtain ⟨sec,hi,rfl⟩ := move_turn h
    exact ahead_set hi _ (turn_lowers s.ctx sec)

/-! ## Somebody is not held back -/

def Returned : Place → Prop
  | .outside st => st.finished = true
  | .inside _ => False

def AllReturned (s : Locked) : Prop := ∀ p ∈ s.places, Returned p

theorem proceed_some {ch : Choice} {st : Stage} (hf : st.finished = false)
    (ha : ch.addr ∉ s.ctx.live) : ∃ d, proceed sha512 qsort ch s.ctx st = some d := by
  unfold proceed
  cases ho : opens st with
  | some sec => exact ⟨_,rfl⟩
  | none =>
    obtain ⟨u,hu⟩ := @advance_some sha512 qsort s.ctx ch st hf ha
    exact ⟨(u.1,.outside u.2),by simp only [hu,Option.map_some]⟩

theorem step_granted {ch : Choice} {i : ℕ} {st : Stage} (hi : s.places[i]? = some (.outside st))
    (hf : st.finished = false) (ha : ch.addr ∉ s.ctx.live) (hg : Granted s.places st) :
    ∃ t, move sha512 qsort s (.step i ch) = some t := by
  obtain ⟨d,hd⟩ := @proceed_some sha512 qsort s ch st hf ha
  exact ⟨⟨d.1,s.places.set i d.2⟩,by simp only [move,hi,if_pos hg,hd,Option.map_some]⟩

theorem reader_granted {st : Stage} (h : st.holdsRead = true) (places : List Place) :
    Granted places st := by
  cases st with
  | pass1 r p => exact ⟨by simp [Stage.needsWrite],by simp [takesRead],by simp [takesMutex]⟩
  | readLookup r pairs buf =>
    exact ⟨by simp [Stage.needsWrite],by simp [takesRead],by simp [takesMutex]⟩
  | _ => cases h

theorem idle_granted (hin : ∀ p ∈ s.places, ∀ sec, p ≠ .inside sec)
    (hread : ∀ p ∈ s.places, p.holdsRead = false) (st : Stage) : Granted s.places st := by
  have hfree : ∀ p ∈ s.places, p.holdsWrite = false ∧ p.holdsMutex = false := by
    intro p hp
    cases p with
    | outside st => exact ⟨rfl,rfl⟩
    | inside sec => exact absurd rfl (hin _ hp sec)
  exact ⟨fun _ p hp => ⟨hread p hp,(hfree p hp).1⟩,fun _ p hp => (hfree p hp).1,
    fun _ p hp => (hfree p hp).2⟩

theorem some_move (s : Locked) (ch : Choice) (ha : ch.addr ∉ s.ctx.live) (hn : ¬ AllReturned s) :
    ∃ i t, move sha512 qsort s (.turn i) = some t ∨ move sha512 qsort s (.step i ch) = some t := by
  by_cases hin : ∃ p ∈ s.places, ∃ sec, p = .inside sec
  · -- a turn waits for nobody
    obtain ⟨p,hp,sec,rfl⟩ := hin
    obtain ⟨i,hi⟩ := List.mem_iff_getElem?.mp hp
    exact ⟨i,_,Or.inl (by simp only [move,hi]; rfl)⟩
  by_cases hread : ∃ p ∈ s.places, p.holdsRead = true
  · obtain ⟨p,hp,hh⟩ := hread
    obtain ⟨i,hi⟩ := List.mem_iff_getElem?.mp hp
    cases p with
    | inside sec => cases hh
    | outside st =>
      obtain ⟨t,ht⟩ := @step_granted sha512 qsort s ch i st hi (reader_not_finished hh).1 ha
        (reader_granted hh s.places)
      exact ⟨i,t,Or.inr ht⟩
  · obtain ⟨p,himp⟩ := not_forall.mp hn
    obtain ⟨hp,hf⟩ := Classical.not_imp.mp himp
    obtain ⟨i,hi⟩ := List.mem_iff_getElem?.mp hp
    have hidle : ∀ st, Granted s.places st := by
      apply idle_granted
      · intro q hq sec he
        exact hin ⟨q,hq,sec,he⟩
      · intro q hq
        cases hh : q.holdsRead with
        | false => rfl
        | true => exact absurd ⟨q,hq,hh⟩ hread
    cases p with
    | inside sec => exact absurd ⟨_,hp,sec,rfl⟩ hin
    | outside st =>
      have hf' : st.finished = false := by simpa [Returned] using hf
      obtain ⟨t,ht⟩ := @step_granted sha512 qsort s ch i st hi hf' ha (hidle st)
      exact ⟨i,t,Or.inr ht⟩

/-- With the locks and every turn of every loop written out, the calls in flight
return: no run without new calls is infinite, it can be continued, for every outcome
of the I/O, as long as a call has not returned, and some such run ends with all calls
returned. -/
theorem locked_calls_return (hq : ∀ l, (qsort l).Perm l) :
    WellFounded (Descent.Follows (move sha512 qsort) NoNewCall) ∧
    ∀ s : Locked,
      (¬ AllReturned s → ∀ ch : Choice, ch.addr ∉ s.ctx.live → ∃ i t,
        move sha512 qsort s (.turn i) = some t ∨ move sha512 qsort s (.step i ch) = some t) ∧
      ∃ ms t, (∀ m ∈ ms, NoNewCall m) ∧ exec (move sha512 qsort) s ms = some t ∧ AllReturned t := by
  have hwf : WellFounded (Descent.Follows (move sha512 qsort) NoNewCall) := by
    apply Subrelation.wf (r := InvImage LexBelow ahead)
    · rintro t s ⟨m,hm,h⟩
      exact move_descends hq hm h
    · exact InvImage.wf ahead below_wellFounded
  refine ⟨hwf,?_⟩
  intro s
  refine ⟨fun hn ch ha => some_move s ch ha hn,?_⟩
  apply Descent.final_of_wellFounded (move sha512 qsort) NoNewCall AllReturned hwf
  intro s hn
  obtain ⟨i,t,ht | ht⟩ := @some_move sha512 qsort s ⟨topAlloc s.ctx.live,.complete,none⟩
    (topAlloc_fresh s.ctx.live) hn
  · exact ⟨.turn i,t,trivial,ht⟩
  · exact ⟨.step i _,t,trivial,ht⟩

/-- A write in the middle of its pass 3, and another that waits for the lock. -/
theorem locked_calls_return_overlapping : ∃ s,
    exec (move sampleSha512 id) emptyLocked overlappingPass3 = some s ∧ ¬ AllReturned s ∧
    ∃ ms t, (∀ m ∈ ms, NoNewCall m) ∧ exec (move sampleSha512 id) s ms = some t ∧
      AllReturned t := by
  obtain ⟨s,hr,hw⟩ := exec_observe (move sampleSha512 id)
    (fun s => s.places.any Place.holdsWrite) emptyLocked overlappingPass3 (by decide +kernel)
  obtain ⟨p,hp,hh⟩ := List.any_eq_true.mp hw
  refine ⟨s,hr,?_,((@locked_calls_return sampleSha512 id (fun l => List.Perm.refl (id l))).2 s).2⟩
  intro hall
  have hret := hall p hp
  cases p with
  | outside st => cases hh
  | inside sec => exact hret

end ArchivalDedup.LockProgress
