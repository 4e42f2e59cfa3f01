import Mathlib.Data.List.Basic
import Mathlib.Tactic.Common

/-!
# Slices and overwrites of a flat memory

A memory assigns a cell to every address. `splice` overwrites a stretch of
consecutive addresses with a list, `slice` reads a stretch back as a list.
The three rules say what is read after an overwrite: the list itself, the
old cells of any disjoint stretch, and the matching part of the list when the
stretch lies inside the overwritten one.
-/

set_option autoImplicit false

namespace ArchivalDedup.ByteMap

universe u
variable {α : Type u}

def splice (m : ℕ → α) (off : ℕ) (bytes : List α) : ℕ → α :=
  fun i => if off ≤ i then (bytes[i-off]?).getD (m i) else m i

def slice (m : ℕ → α) (off len : ℕ) : List α := (List.range len).map (fun i => m (off+i))

@[simp] theorem slice_length (m : ℕ → α) (off len : ℕ) : (slice m off len).length = len := by
  simp [slice]

theorem slice_congr (m m' : ℕ → α) (off len : ℕ)
    (h : ∀ i, off ≤ i → i < off+len → m i = m' i) : slice m off len = slice m' off len := by
  apply List.map_congr_left
  intro i hi
  have := List.mem_range.mp hi
  exact h (off+i) (by omega) (by omega)

theorem slice_cell {m m' : ℕ → α} {off len : ℕ} (h : slice m off len = slice m' off len) {i : ℕ}
    (hi : i < len) : m (off+i) = m' (off+i) := by
  have := congrArg (·[i]?) h
  simpa [slice,hi] using this

theorem slice_aligned {m m' : ℕ → α} {len : ℕ} (hlen : 0 < len) (pos : ℕ)
    (h : slice m (pos/len*len) len = slice m' (pos/len*len) len) : m pos = m' pos := by
  have := slice_cell h (Nat.mod_lt pos hlen)
  rwa [Nat.div_add_mod'] at this

theorem splice_outside (m : ℕ → α) (off : ℕ) (bytes : List α) (i : ℕ)
    (h : i < off ∨ off+bytes.length ≤ i) : splice m off bytes i = m i := by
  unfold splice
  split_ifs with hi
  · rw [List.getElem?_eq_none (by omega)]
    rfl
  · rfl

theorem splice_inside (m : ℕ → α) (off : ℕ) (bytes : List α) (i : ℕ) (h : i < bytes.length) :
    splice m off bytes (off+i) = bytes[i] := by
  unfold splice
  rw [if_pos (by omega),Nat.add_sub_cancel_left,List.getElem?_eq_getElem h]
  rfl

theorem splice_nil (m : ℕ → α) (off : ℕ) : splice m off [] = m := by
  funext i
  exact splice_outside m off [] i (by simp; omega)

theorem splice_append (m : ℕ → α) (off : ℕ) (xs ys : List α) :
    splice m off (xs++ys) = splice (splice m off xs) (off+xs.length) ys := by
  funext i
  unfold splice
  by_cases h₁ : off+xs.length ≤ i
  · rw [if_pos (by omega),if_pos h₁,List.getElem?_append_right (by omega),if_pos (by omega),
      List.getElem?_eq_none (l := xs) (by omega),Nat.sub_sub]
    rfl
  · rw [if_neg h₁]
    by_cases h₂ : off ≤ i
    · rw [if_pos h₂,if_pos h₂,List.getElem?_append_left (by omega)]
    · rw [if_neg h₂,if_neg h₂]

theorem slice_splice_disjoint (m : ℕ → α) (off : ℕ) (bytes : List α) (o len : ℕ)
    (h : o+len ≤ off ∨ off+bytes.length ≤ o) : slice (splice m off bytes) o len = slice m o len := by
  apply slice_congr
  intro i h₁ h₂
  exact splice_outside m off bytes i (by omega)

theorem slice_splice_inside (m : ℕ → α) (off : ℕ) (bytes : List α) (d len : ℕ)
    (h : d+len ≤ bytes.length) :
    slice (splice m off bytes) (off+d) len = (bytes.drop d).take len := by
  apply List.ext_getElem
  · simp
    omega
  · intro i h₁ h₂
    have hi : i < len := by simpa using h₁
    simp only [slice,List.getElem_map,List.getElem_range,List.getElem_take,List.getElem_drop]
    rw [Nat.add_assoc,splice_inside m off bytes (d+i) (by omega)]

theorem slice_splice_self (m : ℕ → α) (off : ℕ) (bytes : List α) :
    slice (splice m off bytes) off bytes.length = bytes := by
  have h := slice_splice_inside m off bytes 0 bytes.length (by simp)
  simpa using h

theorem slice_sub (m : ℕ → α) (off len d k : ℕ) (h : d+k ≤ len) :
    ((slice m off len).drop d).take k = slice m (off+d) k := by
  apply List.ext_getElem
  · simp
    omega
  · intro i h₁ h₂
    simp [slice,Nat.add_assoc]

theorem slice_append (m : ℕ → α) (off a b : ℕ) :
    slice m off (a+b) = slice m off a++slice m (off+a) b := by
  unfold slice
  rw [List.range_add,List.map_append,List.map_map]
  refine congrArg _ (List.map_congr_left ?_)
  intro i _
  simp only [Function.comp_apply,Nat.add_assoc]

/-- A stretch of `k` pieces of equal length, piece by piece. -/
theorem slice_pieces (m : ℕ → α) (k len : ℕ) :
    slice m 0 (k*len) = ((List.range k).map (fun j => slice m (j*len) len)).flatten := by
  induction k with
  | zero => simp [slice]
  | succ k ih =>
    rw [Nat.succ_mul,slice_append,ih,List.range_succ,List.map_append,List.flatten_append,Nat.zero_add]
    simp

end ArchivalDedup.ByteMap
