/-!
# Signed machine words

Sizes are counted in signed 64-bit words.  A number outside their range wraps around; inside it
`wrap` changes nothing.
-/

namespace WireSchema.Number

/-- The signed 64-bit word that agrees with a number up to multiples of `2 ^ 64`. -/
def wrap (n : Int) : Int := n.bmod 0x10000000000000000

theorem wrap_of_inRange {n : Int} (low : -0x8000000000000000 ≤ n) (high : n < 0x8000000000000000) :
    wrap n = n := by
  unfold wrap
  rw [Int.bmod_def]
  omega

end WireSchema.Number
