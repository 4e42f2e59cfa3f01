import ArchivalDedup.ReadBlocks

/-!
# The offsets of slots in 64 bits

The source multiplies the number of a slot by the block size in 64 bits and hands
the product over as an `off_t`. From slot 2^51 on the product is negative or
belongs to another slot. The model of the operations counts slots without a bound;
here stands what the machine word makes of them.
-/

set_option autoImplicit false

namespace ArchivalDedup.WordOffsets
open ArchivalDedup.ByteMap ArchivalDedup.MetaIndex ArchivalDedup.ReadDedup
open ArchivalDedup.ReadBlocks

/-- `slot*BLOCK_SIZE` as an `off_t`, unless it is negative. -/
def slotOffset (slot : ℕ) : Option ℕ :=
  if slot*blockSize % 2^64 < 2^63 then some (slot*blockSize % 2^64) else none

/-- The slot whose offset is the 64-bit product for this one. -/
def wrapSlot (slot : ℕ) : ℕ := slot % 2^52

theorem wrapSlot_lt (slot : ℕ) : wrapSlot slot < 2^52 := Nat.mod_lt _ (by decide)

theorem wrapSlot_small {slot : ℕ} (h : slot < 2^52) : wrapSlot slot = slot := Nat.mod_eq_of_lt h

theorem mul_blockSize (n : ℕ) : n*blockSize = 4096*n := Nat.mul_comm n 4096

theorem product_wraps (slot : ℕ) : slot*blockSize % 2^64 = wrapSlot slot*blockSize :=
  Nat.mul_mod_mul_right blockSize slot (2^52)

theorem slotOffset_eq (slot : ℕ) : slotOffset slot =
    if wrapSlot slot*blockSize < 2^63 then some (wrapSlot slot*blockSize) else none := by
  rw [slotOffset,product_wraps]

theorem wrapSlot_add {slot t : ℕ} (h : wrapSlot slot+t < 2^52) :
    wrapSlot (slot+t) = wrapSlot slot+t := by
  unfold wrapSlot at h ⊢
  rw [Nat.add_mod,Nat.mod_eq_of_lt (show t < 2^52 by omega),Nat.mod_eq_of_lt h]

theorem wrapSlot_congr {q q' : ℕ} (h : q % 2^64 = q' % 2^64) : wrapSlot q = wrapSlot q' := by
  have hdvd : 2^52 ∣ 2^64 := by decide
  unfold wrapSlot
  rw [←Nat.mod_mod_of_dvd q hdvd,h,Nat.mod_mod_of_dvd q' hdvd]

/-- A stretch of slots lies inside a file at the wrapped offset of its first slot
exactly when each of its slots does at its own. -/
theorem wrapped_stretch {size slot n : ℕ} (hsize : size < 2^63) (hn : 0 < n) :
    (wrapSlot slot+n)*blockSize ≤ size ↔ ∀ t < n, (wrapSlot (slot+t)+1)*blockSize ≤ size := by
  have hw := wrapSlot_lt slot
  have hadd : ∀ t, wrapSlot slot+t < 2^52 → wrapSlot (slot+t) = wrapSlot slot+t :=
    fun _ => wrapSlot_add
  simp only [mul_blockSize]
  generalize wrapSlot slot = w at hw hadd ⊢
  constructor
  · intro h t ht
    rw [hadd t (by omega)]
    omega
  · intro h
    by_cases hcross : w+n ≤ 2^52
    · have hlast := h (n-1) (by omega)
      rw [hadd (n-1) (by omega)] at hlast
      omega
    · have hlast := h (2^52-1-w) (by omega)
      rw [hadd (2^52-1-w) (by omega)] at hlast
      omega

/-- `pread` at the offset of a slot; a negative offset is an error. -/
def preadSlot (f : MasterFile) (slot len : ℕ) : Option (List UInt8) :=
  (slotOffset slot).map (fun off => pread f off len)

theorem preadSlot_full {f : MasterFile} (slot : ℕ) {n : ℕ} (hf : f.fileSize < 2^63) (hn : 0 < n) :
    ((preadSlot f slot (n*blockSize)).map List.length = some (n*blockSize)) ↔
      (wrapSlot slot+n)*blockSize ≤ f.fileSize := by
  rw [preadSlot,slotOffset_eq,Nat.add_mul]
  have hpos := Nat.mul_pos hn blockSize_pos
  split_ifs with hoff
  · rw [Option.map_some,Option.map_some,Option.some.injEq]
    constructor
    · intro h
      by_contra hlt
      exact pread_short (Nat.lt_of_not_le hlt) hpos h
    · exact pread_length
  · simp only [Option.map_none,reduceCtorEq,false_iff]
    omega

theorem preadSlot_inside {f : MasterFile} {slot len : ℕ} (h : slot*blockSize < 2^63) :
    preadSlot f slot len = some (pread f (slot*blockSize) len) := by
  have hslot : slot < 2^52 := by
    unfold blockSize at h
    omega
  rw [preadSlot,slotOffset_eq,wrapSlot_small hslot,if_pos h,Option.map_some]

end ArchivalDedup.WordOffsets
