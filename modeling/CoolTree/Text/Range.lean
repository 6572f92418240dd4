/-!
# Ranges of code points

A character class is a list of ranges of code points in ascending order. A code point is looked up
from the left, and the search ends at the first range that starts above it.
-/

namespace CoolTree.Text

/-- First and last code point of a range. -/
abbrev Range := Nat × Nat

namespace Range

def covers : List Range → Nat → Bool
  | [], _ => false
  | (first, last) :: rest, n =>
    if n < first then false else n ≤ last || covers rest n

theorem exists_of_covers {ranges : List Range} {n : Nat} (h : covers ranges n = true) :
    ∃ r ∈ ranges, r.1 ≤ n ∧ n ≤ r.2 := by
  induction ranges with
  | nil => simp [covers] at h
  | cons r rest ih =>
      obtain ⟨first, last⟩ := r
      by_cases low : n < first
      · simp [covers, low] at h
      · by_cases high : n ≤ last
        · exact ⟨(first, last), by simp, by omega, high⟩
        · have inside : covers rest n = true := by simpa [covers, low, high] using h
          obtain ⟨r, member, bounds⟩ := ih inside
          exact ⟨r, by simp [member], bounds⟩

end Range

end CoolTree.Text
