/-!
# Big-endian numbers

Every number and length on the wire stands with its most significant byte first.  `bigEndian k n`
writes the last `k` base-256 digits of `n`; `ofBigEndian` reads any number of digits.
-/

namespace MessagePack

/-- The last `k` base-256 digits of `n`, the most significant first. -/
def bigEndian : Nat → Nat → List UInt8
  | 0, _ => []
  | k + 1, n => bigEndian k (n / 256) ++ [UInt8.ofNat n]

/-- The number whose base-256 digits are `bytes`, the most significant first. -/
def ofBigEndian (bytes : List UInt8) : Nat :=
  bytes.foldl (fun acc b => acc * 256 + b.toNat) 0

@[simp] theorem length_bigEndian (k n : Nat) : (bigEndian k n).length = k := by
  induction k generalizing n with
  | zero => rfl
  | succ k ih => rw [bigEndian, List.length_append, ih, List.length_singleton]

end MessagePack
