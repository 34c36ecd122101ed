import Mathlib.Data.Finite.Defs
import Mathlib.Data.Fintype.EquivFin

/-!
# Permutations of the 64-bit words

The steps that mixing functions are made of: an addition, a multiplication by a word
with an inverse, and an xor with the word itself shifted to the right. None of them
identifies two words, so each permutes all words.
-/
namespace CMVBT.WordPermutation

theorem finite_uint64 : Finite UInt64 :=
  Finite.of_injective UInt64.toFin (fun _ _ h => UInt64.toFin_inj.mp h)

theorem bijective_of_injective {f : UInt64 → UInt64} (h : Function.Injective f) :
    Function.Bijective f := by
  have := finite_uint64
  exact Finite.injective_iff_bijective.mp h

theorem add_bijective (c : UInt64) : Function.Bijective (fun x => x + c) :=
  bijective_of_injective (fun _ _ h => UInt64.add_right_inj c |>.mp (by simpa using h))

/-- A word with an inverse cancels. -/
theorem mul_bijective {c d : UInt64} (h : c * d = 1) : Function.Bijective (fun x => x * c) := by
  apply bijective_of_injective
  intro x y hxy
  have hd : x * c * d = y * c * d := congrArg (· * d) hxy
  rwa [UInt64.mul_assoc, UInt64.mul_assoc, h, UInt64.mul_one, UInt64.mul_one] at hd

/-- A word that a shift does not change has no bits. -/
theorem eq_zero_of_shift {x s : UInt64} (hs : s.toNat % 64 ≠ 0) (h : x >>> s = x) : x = 0 := by
  have hnat := congrArg UInt64.toNat h
  rw [UInt64.toNat_shiftRight, Nat.shiftRight_eq_div_pow] at hnat
  have hpow : 2 ≤ 2 ^ (s.toNat % 64) := Nat.le_self_pow hs 2
  apply UInt64.toNat_inj.mp
  by_contra hne
  have hpos : 0 < x.toNat := Nat.pos_of_ne_zero hne
  exact absurd hnat (Nat.div_lt_self hpos hpow).ne

/-- The xor of two words with the same image is a word that the shift does not change. -/
theorem xorShift_bijective {s : UInt64} (hs : s.toNat % 64 ≠ 0) :
    Function.Bijective (fun x : UInt64 => x ^^^ (x >>> s)) := by
  apply bijective_of_injective
  intro x y hxy
  have hsame : x ^^^ (x >>> s) = y ^^^ (y >>> s) := hxy
  have hshift : (x ^^^ y) >>> s = x ^^^ y := by
    calc (x ^^^ y) >>> s
        = x >>> s ^^^ y >>> s := UInt64.shiftRight_xor
      _ = x ^^^ (x ^^^ x >>> s) ^^^ y >>> s := by
          rw [← UInt64.xor_assoc x x, UInt64.xor_self, UInt64.zero_xor]
      _ = x ^^^ (y ^^^ y >>> s) ^^^ y >>> s := by rw [hsame]
      _ = x ^^^ y := by
          rw [UInt64.xor_assoc, UInt64.xor_assoc, UInt64.xor_self, UInt64.xor_zero]
  exact UInt64.xor_eq_zero_iff.mp (eq_zero_of_shift hs hshift)

end CMVBT.WordPermutation
