/-!
# Capped — counts that stop at the largest word

Quantities, powers and held counts are 64-bit words.  A sum or a decimal numeral too large for a
word is the largest word.
-/

namespace Reachability.Capped

/-- The largest word. -/
def cap : Nat := 0xFFFFFFFFFFFFFFFF

/-- `n`, or the largest word if `n` is larger. -/
def ofNat (n : Nat) : UInt64 := UInt64.ofNat (min n cap)

/-- The sum, capped. -/
def add (a b : UInt64) : UInt64 := ofNat (a.toNat + b.toNat)

/-- The sum of a list, capped. -/
def sum : List UInt64 → UInt64
  | [] => 0
  | a :: rest => add a (sum rest)

theorem toNat_ofNat (n : Nat) : (ofNat n).toNat = min n cap := by
  simp only [ofNat, UInt64.toNat_ofNat']
  exact Nat.mod_eq_of_lt (by simp only [cap]; omega)

theorem toNat_le_cap (a : UInt64) : a.toNat ≤ cap := by
  have := a.toNat_lt; simp only [cap]; omega

theorem ofNat_toNat (a : UInt64) : ofNat a.toNat = a := by
  apply UInt64.toNat.inj
  rw [toNat_ofNat]
  exact Nat.min_eq_left (toNat_le_cap a)

theorem toNat_add (a b : UInt64) : (add a b).toNat = min (a.toNat + b.toNat) cap :=
  toNat_ofNat _

/-- Capping at each step of a sum is capping its exact value. -/
theorem toNat_sum (as : List UInt64) :
    (sum as).toNat = min (as.foldr (fun a n => a.toNat + n) 0) cap := by
  induction as with
  | nil => rfl
  | cons a rest ih =>
    simp only [sum, toNat_add, ih, List.foldr_cons]
    omega

end Reachability.Capped
