/-!
# Machine words

Slots, offsets and sizes are 64-bit two's complement words. They are kept as integers, so that
ordinary arithmetic applies wherever nothing overflows, and `Word.wrap` brings a sum or difference
back into the range of a word where it can leave it.

* `Word.wrap_eq_self` — a value that already fits is unchanged.
-/

namespace Outliner.Word

/-- The largest word. -/
def max : Int := 0x7fffffffffffffff

/-- The smallest word. -/
def min : Int := -0x8000000000000000

/-- The word congruent to `x` modulo `2 ^ 64`. -/
def wrap (x : Int) : Int :=
  (x + 0x8000000000000000) % 0x10000000000000000 - 0x8000000000000000

/-- A value that fits a word is its own wrapped form. -/
theorem wrap_eq_self {x : Int} (lower : min ≤ x) (upper : x ≤ max) : wrap x = x := by
  unfold min at lower
  unfold max at upper
  unfold wrap
  omega

end Outliner.Word
