/-!
# Machine words

Numbers that are counted up in 32 bits run out after the last word. Counting
past it is not wrapped around: there is no next word.
-/

namespace AppendLowering.Word

/-- The word after `word`. There is none after the last one. -/
def next? (word : UInt32) : Option UInt32 :=
  if word.toNat + 1 < UInt32.size then some (word + 1) else none

theorem next?_eq_some_iff {word next : UInt32} :
    next? word = some next ↔ next.toNat = word.toNat + 1 := by
  have hsum : (word + 1).toNat = (word.toNat + 1) % UInt32.size := UInt32.toNat_add word 1
  have hnext := next.toNat_lt_size
  unfold next?
  split
  · next hroom =>
      rw [Nat.mod_eq_of_lt hroom] at hsum
      rw [Option.some.injEq, ← UInt32.toNat_inj, hsum, eq_comm]
  · next hfull =>
      constructor
      · intro h
        cases h
      · intro h
        omega

theorem next?_eq_none_iff {word : UInt32} :
    next? word = none ↔ word.toNat + 1 = UInt32.size := by
  have hword := word.toNat_lt_size
  simp only [next?, ite_eq_right_iff, reduceCtorEq, imp_false]
  omega

end AppendLowering.Word
