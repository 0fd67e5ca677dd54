import Reckoner.Decimal.Shortest
import Reckoner.Proofs.Binary64.Words

/-!
# Decimals that read back

Every decimal that stands for a finite number in print rounds to the word of that number.
-/
namespace Reckoner.Decimal

open Binary64 (unitsPerOne wordOfUnits wordOfUnits_mul_mul)

/-- A whole number of ones is read without rounding it first. -/
theorem toWord_whole (n : Nat) : toWord ⟨n, 0⟩ = wordOfUnits (n * unitsPerOne) 1 := rfl

theorem Grid.toWord_of_hit? {g : Grid} {units word : Nat} {d : Decimal}
    (h : g.hit? units word = some d) : d.toWord = word := by
  simp only [hit?] at h
  split at h
  case isTrue hbelow =>
    split at h
    case isTrue habove =>
      obtain rfl := Option.some.inj h
      exact habove.1
    case isFalse =>
      obtain rfl := Option.some.inj h
      exact hbelow
  case isFalse =>
    split at h
    case isTrue habove =>
      obtain rfl := Option.some.inj h
      exact habove
    case isFalse => cases h

theorem wordOfUnits_fives_twos (units n : Nat) :
    wordOfUnits (units * Nat.pow 5 n * Nat.pow 2 n) (Nat.pow 10 n) = wordOfUnits units 1 := by
  have htens : Nat.pow 5 n * Nat.pow 2 n = Nat.pow 10 n := (Nat.mul_pow 5 2 n).symm
  have hpos : 0 < Nat.pow 10 n := Nat.pow_pos (by decide)
  calc wordOfUnits (units * Nat.pow 5 n * Nat.pow 2 n) (Nat.pow 10 n)
      = wordOfUnits (units * Nat.pow 10 n) (1 * Nat.pow 10 n) := by
        rw [Nat.mul_assoc, htens, Nat.one_mul]
    _ = wordOfUnits units 1 := wordOfUnits_mul_mul hpos units 1

theorem toWord_exact (units : Nat) : (exact units).toWord = wordOfUnits units 1 := by
  unfold exact toWord denominator Binary64.nearestWord unitsPerOne
  generalize 1074 = n
  exact wordOfUnits_fives_twos units n

/-- The shortest decimal reads back. -/
theorem toWord_shortest (units : Nat) : (shortest units).toWord = wordOfUnits units 1 := by
  simp only [shortest]
  cases h : (grids (digits (units / unitsPerOne)).length).findSome?
      (·.hit? units (wordOfUnits units 1)) with
  | none => exact toWord_exact units
  | some d =>
    obtain ⟨g, -, hhit⟩ := List.exists_of_findSome?_eq_some h
    exact Grid.toWord_of_hit? hhit

end Reckoner.Decimal
