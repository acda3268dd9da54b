import Mathlib.Data.Nat.Bitwise
import Mathlib.Tactic.Linarith

namespace AsterCore.Sniffer

/-- `decodeQUICPacketNumber`. No sum leaves the range of `int64`, and the low bits are replaced in 64-bit words. -/
def decodeQUICPacketNumber (length : Nat) (largest truncated : Int) : Int :=
  let expected := largest + 1
  let window : Int := 2 ^ (length * 8)
  let halfWindow := window / 2
  let mask := window - 1
  let candidate := ((BitVec.ofInt 64 expected &&& ~~~BitVec.ofInt 64 mask) ||| BitVec.ofInt 64 truncated).toInt
  if candidate ≤ expected - halfWindow ∧ candidate < 2 ^ 62 - window then candidate + window
  else if candidate > expected + halfWindow ∧ candidate ≥ window then candidate - window
  else candidate

theorem high_bits {k : Nat} (e : BitVec 64) {m : BitVec 64} (hm : m.toNat = 2 ^ k - 1) :
    (e &&& ~~~m).toNat = 2 ^ k * (e.toNat / 2 ^ k) := by
  refine Nat.eq_of_testBit_eq fun i => ?_
  have hb : 64 ≤ i → e.toNat.testBit i = false := fun hi => by rw [BitVec.testBit_toNat, BitVec.getLsbD_of_ge e i hi]
  rw [BitVec.testBit_toNat, BitVec.getLsbD_and, BitVec.getLsbD_not, ← BitVec.testBit_toNat, ← BitVec.testBit_toNat m, hm,
    Nat.testBit_two_pow_sub_one, Nat.testBit_two_pow_mul, Nat.testBit_div_two_pow]
  by_cases hi : i < k
  · simp [hi]
  · rw [Nat.sub_add_cancel (by omega)]
    grind

theorem candidate_eq {k e t : Nat} (hk : 2 ^ k ≤ 2 ^ 62) (he : e < 2 ^ 62) (ht : t < 2 ^ k) :
    ((BitVec.ofInt 64 e &&& ~~~BitVec.ofInt 64 (2 ^ k - 1)) ||| BitVec.ofInt 64 t).toInt = e - e % 2 ^ k + t := by
  have hm : (2 : Int) ^ k - 1 = (2 ^ k - 1 : Nat) := by
    rw [Nat.cast_sub Nat.one_le_two_pow]
    rfl
  have hn : ∀ n < 2 ^ 63, (BitVec.ofNat 64 n).toNat = n := fun n h => by rw [BitVec.toNat_ofNat, Nat.mod_eq_of_lt (by omega)]
  have hd := Nat.mod_add_div e (2 ^ k)
  have hc : ((BitVec.ofInt 64 e &&& ~~~BitVec.ofInt 64 (2 ^ k - 1)) ||| BitVec.ofInt 64 t).toNat = 2 ^ k * (e / 2 ^ k) + t := by
    rw [hm, BitVec.ofInt_natCast, BitVec.ofInt_natCast, BitVec.ofInt_natCast, BitVec.toNat_or,
      high_bits _ (hn _ (by omega)), hn e (by omega), hn t (by omega), Nat.two_pow_add_eq_or_of_lt ht]
  have hz : ((e % 2 ^ k : Nat) : Int) = e % 2 ^ k := by rw [Int.natCast_mod, Nat.cast_pow]; rfl
  rw [BitVec.toInt_eq_toNat_of_lt (by omega), hc, Nat.cast_add, ← hz]
  omega

theorem nearest {w h e n c : Int} (hw : w = 2 * h) (hh : 0 < h) (hc : c = e - e % w + n % w) (low : e - h < n) (high : n ≤ e + h)
    (hn : 0 ≤ n) (hn' : n < 2 ^ 62) :
    (if c ≤ e - h ∧ c < 2 ^ 62 - w then c + w else if c > e + h ∧ c ≥ w then c - w else c) = n := by
  have hd : n = c + w * (n / w - e / w) := by
    have := Int.mul_ediv_add_emod n w
    have := Int.mul_ediv_add_emod e w
    rw [mul_sub]
    omega
  have := Int.emod_nonneg n (show w ≠ 0 by omega)
  have := Int.emod_lt_of_pos n (show 0 < w by omega)
  have := Int.emod_nonneg e (show w ≠ 0 by omega)
  have := Int.emod_lt_of_pos e (show 0 < w by omega)
  generalize n / w - e / w = d at hd
  have above : -2 < d := by nlinarith
  have below : d < 2 := by nlinarith
  obtain rfl | rfl | rfl : d = -1 ∨ d = 0 ∨ d = 1 := by omega
  all_goals split_ifs <;> omega

/-- A packet number within half a window of the expected one is recovered from its low bytes. -/
theorem decode_truncated {length : Nat} (hl : 1 ≤ length) (hl' : length ≤ 4) {largest pn : Int} (hg : -1 ≤ largest)
    (hg' : largest ≤ 2 ^ 62 - 2) (hp : 0 ≤ pn) (hp' : pn < 2 ^ 62) (low : largest + 1 - 2 ^ (8 * length - 1) < pn)
    (high : pn ≤ largest + 1 + 2 ^ (8 * length - 1)) :
    decodeQUICPacketNumber length largest (pn % 2 ^ (8 * length)) = pn := by
  obtain ⟨e, he⟩ := Int.eq_ofNat_of_zero_le (show 0 ≤ largest + 1 by omega)
  obtain ⟨n, rfl⟩ := Int.eq_ofNat_of_zero_le hp
  have hw : (2 : Int) ^ (8 * length) = 2 * 2 ^ (8 * length - 1) := by rw [← pow_succ', Nat.sub_add_cancel (by omega)]
  have hh : (2 : Int) ^ (8 * length) / 2 = 2 ^ (8 * length - 1) := by omega
  have ht : n % 2 ^ (8 * length) < 2 ^ (8 * length) := Nat.mod_lt _ (by positivity)
  have hk : 2 ^ (8 * length) ≤ 2 ^ 62 := Nat.pow_le_pow_right (by decide) (by omega)
  have hc := candidate_eq hk (by omega : e < 2 ^ 62) ht
  rw [Int.natCast_mod, Int.natCast_pow] at hc
  unfold decodeQUICPacketNumber
  simp only [Nat.mul_comm length, he, hh]
  exact nearest hw (by positivity) hc (he ▸ low) (he ▸ high) hp hp'

/-- The example of RFC 9000, A.3. -/
theorem decode_truncated_example : decodeQUICPacketNumber 2 0xa82f30ea (0xa82f9b32 % 2 ^ (8 * 2)) = 0xa82f9b32 :=
  decode_truncated (by decide) (by decide) (by decide) (by decide) (by decide) (by decide) (by decide) (by decide)

end AsterCore.Sniffer
