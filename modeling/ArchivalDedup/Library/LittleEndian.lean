import Mathlib.Data.Nat.Basic
import Mathlib.Algebra.Order.Ring.Nat
import Mathlib.Tactic.Common

/-!
# Little-endian numbers

A number of fixed width as its bytes, least significant first. What does not
fit the width is lost, as in a conversion to a narrower C type.
-/

set_option autoImplicit false

namespace ArchivalDedup.LittleEndian

def leBytes : ℕ → ℕ → List UInt8
  | 0, _ => []
  | width+1, n => UInt8.ofNat n::leBytes width (n/256)

def leNat : List UInt8 → ℕ
  | [] => 0
  | b::bs => b.toNat+256*leNat bs

@[simp] theorem leBytes_length (width n : ℕ) : (leBytes width n).length = width := by
  induction width generalizing n with
  | zero => rfl
  | succ width ih => simp [leBytes,ih]

theorem leNat_leBytes (width n : ℕ) : leNat (leBytes width n) = n % 256^width := by
  induction width generalizing n with
  | zero => simp [leBytes,leNat,Nat.mod_one]
  | succ width ih =>
    have hb : (UInt8.ofNat n).toNat = n % 256 := by simp
    rw [leBytes,leNat,ih,hb,pow_succ,Nat.mul_comm _ 256,Nat.mod_mul]

theorem leNat_leBytes_of_lt {width n : ℕ} (h : n < 256^width) : leNat (leBytes width n) = n := by
  rw [leNat_leBytes,Nat.mod_eq_of_lt h]

end ArchivalDedup.LittleEndian
