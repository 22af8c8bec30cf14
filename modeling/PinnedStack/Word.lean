/-!
# Signed 64-bit words

* `word?` — the word that stands for a whole number, if there is one.
-/

namespace PinnedStack

/-- The signed 64-bit word of a number; a number out of range has none. -/
def word? (n : Int) : Option Int64 :=
  if Int64.minValue.toInt ≤ n ∧ n ≤ Int64.maxValue.toInt then some (Int64.ofInt n) else none

theorem word?_toInt (v : Int64) : word? v.toInt = some v := by
  have h : Int64.minValue.toInt ≤ v.toInt ∧ v.toInt ≤ Int64.maxValue.toInt :=
    ⟨Int64.minValue_le_toInt v, Int64.toInt_le v⟩
  rw [word?, if_pos h, Int64.ofInt_toInt]

theorem toInt_of_word? {n : Int} {v : Int64} (h : word? n = some v) : v.toInt = n := by
  unfold word? at h
  split at h
  · rename_i range
    obtain rfl := Option.some.inj h
    have low : Int64.minValue.toInt = -2 ^ 63 := rfl
    have high : Int64.maxValue.toInt = 2 ^ 63 - 1 := rfl
    exact Int64.toInt_ofInt_of_le (by omega) (by omega)
  · cases h

end PinnedStack
