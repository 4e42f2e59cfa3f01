import Mathlib.Data.List.Basic
import Mathlib.Tactic.Common

/-!
# Maximal runs of consecutive numbers

A list whose elements may carry a number is scanned from the left for as long
as the numbers continue the count. Elements without a number end the run. The
same for a partial sequence: its values up to the first that is missing.
-/

set_option autoImplicit false

namespace ArchivalDedup.ConsecutiveRun

universe u
variable {α : Type u} (key : α → Option ℕ)

/-- How many of the next elements continue the count after `prev`. -/
def consecutive : ℕ → List α → ℕ
  | _, [] => 0
  | prev, x::xs => if key x = some (prev+1) then consecutive (prev+1) xs+1 else 0

theorem consecutive_le (prev : ℕ) (xs : List α) : consecutive key prev xs ≤ xs.length := by
  induction xs generalizing prev with
  | nil => simp [consecutive]
  | cons x xs ih =>
    have := ih (prev+1)
    simp only [consecutive,List.length_cons]
    split_ifs <;> omega

theorem consecutive_key (prev : ℕ) (xs : List α) (i : ℕ) (h : i < consecutive key prev xs) :
    xs[i]?.bind key = some (prev+1+i) := by
  induction xs generalizing prev i with
  | nil => simp [consecutive] at h
  | cons x xs ih =>
    simp only [consecutive] at h
    split_ifs at h with hx
    · cases i with
      | zero => simpa using hx
      | succ i =>
        have := ih (prev+1) i (by omega)
        simpa [Nat.add_comm,Nat.add_left_comm] using this
    · omega

theorem consecutive_stop (prev : ℕ) (xs : List α) :
    xs[consecutive key prev xs]?.bind key ≠ some (prev+1+consecutive key prev xs) := by
  induction xs generalizing prev with
  | nil => simp
  | cons x xs ih =>
    by_cases hx : key x = some (prev+1)
    · have := ih (prev+1)
      simp only [consecutive,if_pos hx,List.getElem?_cons_succ]
      rwa [show prev+1+(consecutive key (prev+1) xs+1) = prev+1+1+consecutive key (prev+1) xs by omega]
    · simp [consecutive,hx]

theorem run_key (x : α) (xs : List α) (k : ℕ) (hx : key x = some k) (i : ℕ)
    (h : i < consecutive key k xs+1) : (x::xs)[i]?.bind key = some (k+i) := by
  cases i with
  | zero => simpa using hx
  | succ i =>
    have := consecutive_key key k xs i (by omega)
    simpa [Nat.add_comm,Nat.add_left_comm,Nat.add_assoc] using this

section Modulo

variable (m : ℕ)

def consecutiveMod : ℕ → List α → ℕ
  | _, [] => 0
  | prev, x::xs => if key x = some ((prev+1) % m) then consecutiveMod ((prev+1) % m) xs+1 else 0

theorem consecutiveMod_le (prev : ℕ) (xs : List α) : consecutiveMod key m prev xs ≤ xs.length := by
  induction xs generalizing prev with
  | nil => simp [consecutiveMod]
  | cons x xs ih =>
    have := ih ((prev+1) % m)
    simp only [consecutiveMod,List.length_cons]
    split_ifs <;> omega

theorem consecutiveMod_key (prev : ℕ) (xs : List α) (i : ℕ) (h : i < consecutiveMod key m prev xs) :
    xs[i]?.bind key = some ((prev+1+i) % m) := by
  induction xs generalizing prev i with
  | nil => simp [consecutiveMod] at h
  | cons x xs ih =>
    simp only [consecutiveMod] at h
    split_ifs at h with hx
    · cases i with
      | zero => simpa using hx
      | succ i =>
        have := ih ((prev+1) % m) i (by omega)
        rw [List.getElem?_cons_succ,this,Nat.add_assoc,Nat.mod_add_mod]
        congr 2
        omega
    · omega

theorem runMod_key (x : α) (xs : List α) (k : ℕ) (hx : key x = some k) (i : ℕ)
    (h : i < consecutiveMod key m k xs+1) :
    ∃ n, (x::xs)[i]?.bind key = some n ∧ n % m = (k+i) % m := by
  cases i with
  | zero => exact ⟨k,by simpa using hx,rfl⟩
  | succ i =>
    refine ⟨(k+1+i) % m,?_,?_⟩
    · rw [List.getElem?_cons_succ]
      exact consecutiveMod_key key m k xs i (by omega)
    · rw [Nat.mod_mod,Nat.add_assoc,Nat.add_comm 1 i]

theorem consecutiveMod_eq {prev : ℕ} {xs : List α} (hp : prev+1 < m)
    (h : ∀ x ∈ xs, ∀ n ∈ key x, n+1 < m) : consecutiveMod key m prev xs = consecutive key prev xs := by
  induction xs generalizing prev with
  | nil => rfl
  | cons x xs ih =>
    rw [consecutiveMod,consecutive,Nat.mod_eq_of_lt hp]
    split_ifs with hx
    · rw [ih (h x (by simp) _ hx) (fun y hy => h y (by simp [hy]))]
    · rfl

end Modulo

section Stretches

variable (num : α → ℕ)

/-- The maximal stretches of a list, each as its first number and its length. -/
def stretches : ℕ → List α → List (ℕ × ℕ)
  | 0, _ => []
  | _+1, [] => []
  | fuel+1, x::xs =>
    let len := consecutive (fun y => some (num y)) (num x) xs
    (num x,len+1)::stretches fuel (xs.drop len)

def breaks : List α → ℕ
  | [] => 0
  | x::xs => breaks xs+if xs.head?.map num = some (num x+1) then 0 else 1

theorem breaks_run (x : α) (xs : List α) : breaks num (x::xs) =
    breaks num (xs.drop (consecutive (fun y => some (num y)) (num x) xs))+1 := by
  induction xs generalizing x with
  | nil => simp [breaks,consecutive]
  | cons y ys ih =>
    by_cases hy : num y = num x+1
    · simp only [consecutive,hy,↓reduceIte,List.drop_succ_cons]
      rw [breaks,if_pos (by simp [hy]),ih y,hy]
    · simp [breaks,consecutive,hy]

theorem stretches_length {fuel : ℕ} {xs : List α} (hf : xs.length ≤ fuel) :
    (stretches num fuel xs).length = breaks num xs := by
  induction fuel generalizing xs with
  | zero =>
    have hr : xs = [] := List.length_eq_zero_iff.mp (by omega)
    subst hr
    rfl
  | succ fuel ih =>
    cases xs with
    | nil => rfl
    | cons x xs =>
      rw [breaks_run,stretches,List.length_cons,ih]
      rw [List.length_drop]
      rw [List.length_cons] at hf
      omega

theorem mem_stretches {fuel : ℕ} {xs : List α} (hf : xs.length ≤ fuel) (q : ℕ) :
    (∃ w ∈ stretches num fuel xs, w.1 ≤ q ∧ q < w.1+w.2) ↔ q ∈ xs.map num := by
  induction fuel generalizing xs with
  | zero =>
    have hr : xs = [] := List.length_eq_zero_iff.mp (by omega)
    subst hr
    simp [stretches]
  | succ fuel ih =>
    cases xs with
    | nil => simp [stretches]
    | cons x xs =>
      have hrun := run_key (fun y => some (num y)) x xs (num x) rfl
      have hle := consecutive_le (fun y => some (num y)) (num x) xs
      simp only [stretches]
      generalize consecutive (fun y => some (num y)) (num x) xs = n at hrun hle ⊢
      have hrest : (xs.drop n).length ≤ fuel := by
        rw [List.length_drop]
        rw [List.length_cons] at hf
        omega
      have hsplit : x::xs = (x::xs).take (n+1)++xs.drop n := by
        rw [List.take_succ_cons,List.cons_append,List.take_append_drop]
      rw [hsplit,List.map_append,List.mem_append,←ih hrest]
      simp only [List.exists_mem_cons_iff]
      refine or_congr_left ?_
      constructor
      · rintro ⟨hlo,hhi⟩
        obtain ⟨y,hy,hq⟩ := Option.bind_eq_some_iff.mp (hrun (q-num x) (by omega))
        refine List.mem_map.mpr ⟨y,?_,?_⟩
        · refine List.mem_of_getElem? (i := q-num x) ?_
          rw [List.getElem?_take_of_lt (by omega)]
          exact hy
        · have hnum : num y = num x+(q-num x) := Option.some.inj hq
          omega
      · intro hq
        obtain ⟨y,hy,rfl⟩ := List.mem_map.mp hq
        obtain ⟨t,ht⟩ := List.mem_iff_getElem?.mp hy
        have hlt : t < n+1 := by
          have := (List.getElem?_eq_some_iff.mp ht).1
          rw [List.length_take] at this
          omega
        rw [List.getElem?_take_of_lt hlt] at ht
        have hnum := hrun t hlt
        rw [ht,Option.bind_some,Option.some.injEq] at hnum
        omega

end Stretches

section Present

variable {β : Type u} {γ : Type u}

def presentRun (f : ℕ → Option β) : ℕ → ℕ → List β
  | 0, _ => []
  | n+1, i =>
    match f i with
    | none => []
    | some x => x::presentRun f n (i+1)

theorem presentRun_map (f : ℕ → Option β) (g : β → γ) (n i : ℕ) :
    presentRun (fun j => (f j).map g) n i = (presentRun f n i).map g := by
  induction n generalizing i with
  | zero => rfl
  | succ n ih =>
    simp only [presentRun]
    cases f i with
    | none => rfl
    | some x => simp only [Option.map_some,List.map_cons,ih]

theorem presentRun_mem {f : ℕ → Option β} {n i : ℕ} {x : β} (h : x ∈ presentRun f n i) :
    ∃ j, f j = some x := by
  induction n generalizing i with
  | zero => cases h
  | succ n ih =>
    simp only [presentRun] at h
    cases hf : f i with
    | none => simp [hf] at h
    | some y =>
      rw [hf] at h
      rcases List.mem_cons.mp h with rfl | h
      · exact ⟨i,hf⟩
      · exact ih h

theorem presentRun_getElem {f : ℕ → Option β} {n i j : ℕ} {x : β}
    (h : (presentRun f n i)[j]? = some x) : f (i+j) = some x := by
  induction n generalizing i j with
  | zero => cases h
  | succ n ih =>
    simp only [presentRun] at h
    cases hf : f i with
    | none =>
      rw [hf] at h
      cases h
    | some y =>
      rw [hf] at h
      cases j with
      | zero => exact hf.trans h
      | succ j =>
        have := ih h
        rwa [Nat.add_right_comm i 1 j] at this

theorem presentRun_positions {f : ℕ → Option β} (pos : β → ℕ) (h : ∀ j x, f j = some x → pos x = j)
    (n i : ℕ) : (presentRun f n i).map pos = List.range' i (presentRun f n i).length := by
  induction n generalizing i with
  | zero => rfl
  | succ n ih =>
    simp only [presentRun]
    cases hf : f i with
    | none => rfl
    | some x => simp only [List.map_cons,List.length_cons,List.range'_succ,h i x hf,ih]

theorem presentRun_length (f : ℕ → Option β) {n k : ℕ} (i : ℕ) (hk : k ≤ n) :
    (presentRun f n i).length = k ↔ (∀ j < k, f (i+j) ≠ none) ∧ (k < n → f (i+k) = none) := by
  induction n generalizing i k with
  | zero =>
    have hz : k = 0 := by omega
    subst hz
    simp [presentRun]
  | succ n ih =>
    simp only [presentRun]
    cases hf : f i with
    | none =>
      constructor
      · intro h
        have hz : k = 0 := h.symm
        subst hz
        exact ⟨by simp,fun _ => hf⟩
      · rintro ⟨h,_⟩
        cases k with
        | zero => rfl
        | succ k => exact absurd hf (h 0 (Nat.succ_pos k))
    | some x =>
      cases k with
      | zero =>
        refine iff_of_false (Nat.succ_ne_zero _) ?_
        rintro ⟨_,h⟩
        have hnone : f i = none := h (Nat.succ_pos n)
        rw [hf] at hnone
        cases hnone
      | succ k =>
        have hrest := ih (i+1) (Nat.le_of_succ_le_succ hk)
        have hadd : ∀ j, i+1+j = i+(j+1) := fun j => by omega
        simp only [List.length_cons,Nat.add_right_cancel_iff,hrest,hadd,Nat.add_lt_add_iff_right]
        refine and_congr_left' ?_
        constructor
        · intro h j hj
          cases j with
          | zero =>
            rw [Nat.add_zero,hf]
            exact Option.some_ne_none x
          | succ j => exact h j (Nat.lt_of_succ_lt_succ hj)
        · intro h j hj
          exact h (j+1) (Nat.succ_lt_succ hj)

end Present

end ArchivalDedup.ConsecutiveRun
