import Mathlib.Data.List.Basic
import Mathlib.Tactic.Common

/-!
# Buffered streams

A writer collects what it is given in a buffer of fixed capacity and appends
the buffer to its file when it is full; a reader fetches its file a buffer at a
time. Both loops are those of a C library that copies what fits and goes on.
The rules say that the buffer cannot be seen: writing appends to the stream,
reading takes from its front.
-/

set_option autoImplicit false

namespace ArchivalDedup.BufferedStream

universe u v w
variable {β : Type u} (cap : ℕ)

structure Writer (β : Type u) where
  file : List β
  buffer : List β

def Writer.create : Writer β := ⟨[],[]⟩

def Writer.flush (w : Writer β) : Writer β := ⟨w.file++w.buffer,[]⟩

def Writer.stream (w : Writer β) : List β := w.file++w.buffer

def Writer.writeLoop : ℕ → Writer β → List β → Writer β
  | 0, w, _ => w
  | fuel+1, w, data =>
    if data.length = 0 then w
    else
      let w' := if cap-w.buffer.length = 0 then w.flush else w
      let available := cap-w'.buffer.length
      writeLoop fuel ⟨w'.file,w'.buffer++data.take available⟩ (data.drop available)

def Writer.write (w : Writer β) (data : List β) : Writer β := w.writeLoop cap data.length data

@[simp] theorem stream_create : (Writer.create : Writer β).stream = [] := rfl

@[simp] theorem stream_flush (w : Writer β) : w.flush.stream = w.stream := by
  simp [Writer.flush,Writer.stream]

theorem file_flush (w : Writer β) : w.flush.file = w.stream := rfl

theorem stream_writeLoop (hcap : 0 < cap) (fuel : ℕ) (w : Writer β) (data : List β)
    (hf : data.length ≤ fuel) : (w.writeLoop cap fuel data).stream = w.stream++data := by
  induction fuel generalizing w data with
  | zero =>
    have hd : data = [] := List.length_eq_zero_iff.mp (by omega)
    simp [Writer.writeLoop,hd]
  | succ fuel ih =>
    by_cases hd : data.length = 0
    · have hnil := List.length_eq_zero_iff.mp hd
      simp [Writer.writeLoop,hnil]
    · simp only [Writer.writeLoop,if_neg hd]
      set w' := if cap-w.buffer.length = 0 then w.flush else w with hw
      have hstream : w'.stream = w.stream := by
        rw [hw]
        split_ifs
        · exact stream_flush w
        · rfl
      have hroom : 0 < cap-w'.buffer.length := by
        rw [hw]
        split_ifs with h
        · exact hcap
        · omega
      rw [ih _ _ (by rw [List.length_drop]; omega)]
      rw [←hstream]
      simp only [Writer.stream,List.append_assoc,List.take_append_drop]

theorem stream_write (hcap : 0 < cap) (w : Writer β) (data : List β) :
    (w.write cap data).stream = w.stream++data :=
  stream_writeLoop cap hcap data.length w data (Nat.le_refl _)

structure Reader (β : Type u) where
  buffer : List β
  rest : List β

def Reader.create (file : List β) : Reader β := ⟨[],file⟩

def Reader.stream (r : Reader β) : List β := r.buffer++r.rest

def Reader.refill (r : Reader β) : Option (Reader β) :=
  if (r.rest.take cap).length = 0 then none else some ⟨r.rest.take cap,r.rest.drop cap⟩

def Reader.readLoop : ℕ → Reader β → ℕ → Option (List β × Reader β)
  | 0, r, size => if size = 0 then some ([],r) else none
  | fuel+1, r, size =>
    if size = 0 then some ([],r)
    else
      match if r.buffer.length = 0 then r.refill cap else some r with
      | none => none
      | some r' =>
        let n := min size r'.buffer.length
        (readLoop fuel ⟨r'.buffer.drop n,r'.rest⟩ (size-n)).map
          (fun t => (r'.buffer.take n++t.1,t.2))

def Reader.read (r : Reader β) (size : ℕ) : Option (List β × Reader β) := r.readLoop cap size size

theorem stream_refill (hcap : 0 < cap) (r : Reader β) (h : r.buffer.length = 0)
    (hr : 0 < r.stream.length) : ∃ r', r.refill cap = some r' ∧ r'.stream = r.stream ∧
      0 < r'.buffer.length := by
  have hnil : r.buffer = [] := List.length_eq_zero_iff.mp h
  have hrest : 0 < r.rest.length := by simpa [Reader.stream,hnil] using hr
  have hlen : 0 < (r.rest.take cap).length := by
    rw [List.length_take]
    omega
  refine ⟨⟨r.rest.take cap,r.rest.drop cap⟩,if_neg (by omega),?_,hlen⟩
  simp [Reader.stream,hnil]

theorem stream_readLoop (hcap : 0 < cap) (fuel : ℕ) (r : Reader β) (data tail : List β)
    (hf : data.length ≤ fuel) (hs : r.stream = data++tail) :
    ∃ r', r.readLoop cap fuel data.length = some (data,r') ∧ r'.stream = tail := by
  induction fuel generalizing r data with
  | zero =>
    have hd : data = [] := List.length_eq_zero_iff.mp (by omega)
    subst hd
    exact ⟨r,rfl,hs⟩
  | succ fuel ih =>
    by_cases hd : data.length = 0
    · have hnil := List.length_eq_zero_iff.mp hd
      subst hnil
      exact ⟨r,rfl,hs⟩
    · obtain ⟨r₁,hr₁,hs₁,hpos⟩ : ∃ r₁, (if r.buffer.length = 0 then r.refill cap else some r) =
          some r₁ ∧ r₁.stream = r.stream ∧ 0 < r₁.buffer.length := by
        by_cases hb : r.buffer.length = 0
        · rw [if_pos hb]
          exact stream_refill cap hcap r hb (by rw [hs,List.length_append]; omega)
        · exact ⟨r,if_neg hb,rfl,by omega⟩
      set n := min data.length r₁.buffer.length with hn
      have heq : r₁.buffer++r₁.rest = data++tail := hs₁.trans hs
      have htake : r₁.buffer.take n = data.take n := by
        have := congrArg (List.take n) heq
        rwa [List.take_append_of_le_length (by omega),List.take_append_of_le_length (by omega)] at this
      have hdrop : r₁.buffer.drop n++r₁.rest = data.drop n++tail := by
        have := congrArg (List.drop n) heq
        rwa [List.drop_append_of_le_length (by omega),List.drop_append_of_le_length (by omega)] at this
      obtain ⟨r₂,hr₂,hs₂⟩ := ih ⟨r₁.buffer.drop n,r₁.rest⟩ (data.drop n)
        (by rw [List.length_drop]; omega) hdrop
      refine ⟨r₂,?_,hs₂⟩
      rw [List.length_drop] at hr₂
      simp only [Reader.readLoop,if_neg hd,hr₁,←hn,hr₂,Option.map_some,htake,
        List.take_append_drop]

theorem stream_read (hcap : 0 < cap) (r : Reader β) (data tail : List β)
    (hs : r.stream = data++tail) :
    ∃ r', r.read cap data.length = some (data,r') ∧ r'.stream = tail :=
  stream_readLoop cap hcap data.length r data tail (Nat.le_refl _) hs

theorem refill_keeps {r r' : Reader β} (h : r.buffer.length = 0) (hr : r.refill cap = some r') :
    r'.stream = r.stream := by
  have hnil : r.buffer = [] := List.length_eq_zero_iff.mp h
  unfold Reader.refill at hr
  split_ifs at hr
  cases hr
  simp [Reader.stream,hnil]

theorem readLoop_short (fuel : ℕ) (r : Reader β) (size : ℕ) (h : r.stream.length < size) :
    r.readLoop cap fuel size = none := by
  induction fuel generalizing r size with
  | zero => exact if_neg (by omega)
  | succ fuel ih =>
    rw [Reader.readLoop,if_neg (by omega)]
    cases hr : if r.buffer.length = 0 then r.refill cap else some r with
    | none => rfl
    | some r' =>
      have hs : r'.stream = r.stream := by
        split_ifs at hr with hb
        · exact refill_keeps cap hb hr
        · cases hr
          rfl
      have hlen : r'.buffer.length+r'.rest.length < size := by
        rw [←List.length_append]
        exact Nat.lt_of_le_of_lt (Nat.le_of_eq (congrArg List.length hs)) h
      dsimp only
      rw [ih _ _ (by
        simp only [Reader.stream,List.length_append,List.length_drop]
        omega)]
      rfl

theorem read_short (r : Reader β) (size : ℕ) (h : r.stream.length < size) :
    r.read cap size = none := readLoop_short cap size r size h

section Sequences

variable {α : Type v} {γ : Type w}

def readMany (readOne : Reader β → Option (γ × Reader β)) : ℕ → Reader β → List γ
  | 0, _ => []
  | n+1, r =>
    match readOne r with
    | none => []
    | some (x,r') => x::readMany readOne n r'

/-- From the code of `a` at the front of the stream the reader recovers `f a`
and moves past it. -/
def Recovers (readOne : Reader β → Option (γ × Reader β)) (enc : α → List β) (f : α → γ) (a : α) :
    Prop :=
  ∀ (r : Reader β) (tail : List β), r.stream = enc a++tail →
    ∃ r', readOne r = some (f a,r') ∧ r'.stream = tail

/-- What was written element after element is read back, as far as the count
goes. -/
theorem readMany_recovers {readOne : Reader β → Option (γ × Reader β)} {enc : α → List β}
    {f : α → γ} (xs : List α) (hx : ∀ x ∈ xs, Recovers readOne enc f x) (n : ℕ)
    (hn : n ≤ xs.length) (r : Reader β) (tail : List β) (hs : r.stream = xs.flatMap enc++tail) :
    readMany readOne n r = (xs.map f).take n := by
  induction xs generalizing n r with
  | nil =>
    have hz : n = 0 := by simpa using hn
    subst hz
    rfl
  | cons x xs ih =>
    cases n with
    | zero => rfl
    | succ n =>
      obtain ⟨r',hr',hs'⟩ := hx x (by simp) r (xs.flatMap enc++tail)
        (by rw [hs,List.flatMap_cons,List.append_assoc])
      simp only [readMany,hr',List.map_cons,List.take_succ_cons]
      rw [ih (fun y hy => hx y (by simp [hy])) n (by simpa using hn) r' hs']

/-- The code of `a` cut short cannot be read. -/
def Stops (readOne : Reader β → Option (γ × Reader β)) (enc : α → List β) (a : α) : Prop :=
  ∀ (r : Reader β) (k : ℕ), k < (enc a).length → r.stream = (enc a).take k → readOne r = none

/-- How many of the elements lie completely before a cut. -/
def wholeCount (enc : α → List β) : ℕ → List α → ℕ
  | _, [] => 0
  | k, x::xs => if (enc x).length ≤ k then wholeCount enc (k-(enc x).length) xs+1 else 0

theorem wholeCount_iff (enc : α → List β) (k : ℕ) (xs : List α) (i : ℕ) :
    i < wholeCount enc k xs ↔ i < xs.length ∧ ((xs.take (i+1)).flatMap enc).length ≤ k := by
  induction xs generalizing k i with
  | nil => simp [wholeCount]
  | cons x xs ih =>
    rw [wholeCount,List.take_succ_cons,List.flatMap_cons,List.length_append,List.length_cons]
    cases i with
    | zero =>
      simp only [List.take_zero,List.flatMap_nil,List.length_nil]
      split_ifs <;> omega
    | succ i =>
      have := ih (k-(enc x).length) i
      split_ifs <;> omega

theorem readMany_cut {readOne : Reader β → Option (γ × Reader β)} {enc : α → List β} {f : α → γ}
    (xs : List α) (hx : ∀ x ∈ xs, Recovers readOne enc f x ∧ Stops readOne enc x) (n k : ℕ)
    (hn : n ≤ xs.length) (r : Reader β) (hs : r.stream = (xs.flatMap enc).take k) :
    readMany readOne n r = (xs.map f).take (min n (wholeCount enc k xs)) := by
  induction xs generalizing n k r with
  | nil =>
    have hz : n = 0 := by simpa using hn
    subst hz
    rfl
  | cons x xs ih =>
    cases n with
    | zero => simp [readMany]
    | succ n =>
      obtain ⟨hrec,hstop⟩ := hx x (by simp)
      rw [List.flatMap_cons,List.take_append] at hs
      rw [wholeCount,readMany]
      by_cases hk : (enc x).length ≤ k
      · rw [List.take_of_length_le hk] at hs
        obtain ⟨r',hr',hs'⟩ := hrec r _ hs
        have hih := ih (fun y hy => hx y (by simp [hy])) n (k-(enc x).length) (by simpa using hn) r' hs'
        rw [hr',if_pos hk]
        dsimp only
        rw [hih,Nat.succ_min_succ,List.map_cons,List.take_succ_cons]
      · rw [Nat.sub_eq_zero_of_le (by omega),List.take_zero,List.append_nil] at hs
        rw [hstop r k (by omega) hs,if_neg hk,Nat.min_zero]
        rfl

end Sequences

end ArchivalDedup.BufferedStream
