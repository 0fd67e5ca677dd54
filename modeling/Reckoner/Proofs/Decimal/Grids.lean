import Mathlib
import Reckoner.Proofs.Binary64.Interval
import Reckoner.Proofs.Decimal.Shortest
import Reckoner.Proofs.Decimal.Value

/-!
# Grids of decimals

A grid holds the multiples of one power of ten. If any of them reads back as a number, the grid
answers with the closest one that does, and the shortest decimal is the answer of the coarsest grid
that has one. Main statement: `exists_isFirst`.
-/
namespace Reckoner.Decimal

open Binary64 (IsNearest infinityWord isNearest_valueOfWord unitsOfWord unitsPerOne
  unitsPerOne_pos valueOfWord)

theorem toWord_eq_iff {d : Decimal} {word : ℕ} : d.toWord = word ↔ IsNearest d.value word :=
  ⟨fun h => h ▸ d.isNearest_toWord, fun h => d.isNearest_toWord.unique h⟩

/-- A quotient lies between two whole numbers, and the remainder tells on which side of their
middle. -/
theorem cast_div_spec (num : ℕ) {den : ℕ} (hden : 0 < den) :
    ((num / den : ℕ) : ℚ) ≤ num / den ∧ (num : ℚ) / den < (num / den : ℕ) + 1 ∧
      (den ≤ 2 * (num % den) ↔ 2 * ((num / den : ℕ) : ℚ) + 1 ≤ 2 * (num / den)) := by
  have hpos : (0 : ℚ) < den := by exact_mod_cast hden
  have hsplit : (num : ℚ) = (num / den : ℕ) * den + (num % den : ℕ) := by
    exact_mod_cast (Nat.div_add_mod' num den).symm
  have hquotient : (num : ℚ) / den = (num / den : ℕ) + (num % den : ℕ) / den := by
    nth_rewrite 1 [hsplit]
    rw [add_div, mul_div_cancel_right₀ _ hpos.ne']
  have hless : ((num % den : ℕ) : ℚ) / den < 1 := by
    rw [div_lt_one hpos]
    exact_mod_cast Nat.mod_lt num hden
  have hmiddle : den ≤ 2 * (num % den) ↔ 1 ≤ 2 * (((num % den : ℕ) : ℚ) / den) := by
    rw [← mul_div_assoc, one_le_div hpos]
    exact_mod_cast Iff.rfl
  have hnonneg : (0 : ℚ) ≤ (num % den : ℕ) / den := by positivity
  rw [hquotient, hmiddle]
  refine ⟨by linarith, by linarith, ?_⟩
  constructor <;> intro h <;> linarith

namespace Grid

/-- The power of ten whose multiples the grid holds. -/
def exponent (g : Grid) : ℤ := g.zeros - g.places

def step (g : Grid) : ℚ := 10 ^ g.exponent

theorem step_pos (g : Grid) : 0 < g.step := zpow_pos (by norm_num) _

theorem step_eq_div (g : Grid) : g.step = 10 ^ g.zeros / 10 ^ g.places := by
  rw [step, exponent, zpow_sub₀ (by norm_num), zpow_natCast, zpow_natCast]

theorem value_point (g : Grid) (n : ℕ) : (g.point n).value = n * g.step := by
  rw [step_eq_div, value, denominator, point, Nat.pow_eq, Nat.pow_eq]
  push_cast
  exact mul_div_assoc _ _ _

/-- The number of the last grid point that is not above the given units. -/
def lower (g : Grid) (units : ℕ) : ℕ :=
  units * Nat.pow 10 g.places / (unitsPerOne * Nat.pow 10 g.zeros)

theorem hit?_eq (g : Grid) (units word : ℕ) : g.hit? units word =
    if (g.point (g.lower units)).toWord = word then
      if (g.point (g.lower units + 1)).toWord = word ∧ unitsPerOne * Nat.pow 10 g.zeros ≤
          2 * (units * Nat.pow 10 g.places % (unitsPerOne * Nat.pow 10 g.zeros)) then
        some (g.point (g.lower units + 1))
      else some (g.point (g.lower units))
    else if (g.point (g.lower units + 1)).toWord = word then some (g.point (g.lower units + 1))
    else none := rfl

section Neighbours

variable (g : Grid) (word : ℕ)

/-- Counted in steps, a number lies between its two neighbours on the grid, and from their middle on
it is nearer to the upper one. -/
theorem lower_spec :
    g.lower (unitsOfWord word) * g.step ≤ valueOfWord word ∧
      valueOfWord word < (g.lower (unitsOfWord word) + 1) * g.step ∧
      (unitsPerOne * Nat.pow 10 g.zeros ≤
          2 * (unitsOfWord word * Nat.pow 10 g.places % (unitsPerOne * Nat.pow 10 g.zeros)) ↔
        (2 * g.lower (unitsOfWord word) + 1) * g.step ≤ 2 * valueOfWord word) := by
  have hstep := g.step_pos
  have hpos : 0 < unitsPerOne * Nat.pow 10 g.zeros :=
    Nat.mul_pos (by exact_mod_cast unitsPerOne_pos) (Nat.pow_pos (by decide))
  have hsteps : valueOfWord word / g.step =
      (unitsOfWord word * Nat.pow 10 g.places : ℕ) / (unitsPerOne * Nat.pow 10 g.zeros : ℕ) := by
    rw [valueOfWord, step_eq_div, Nat.pow_eq, Nat.pow_eq, div_div_div_eq, Nat.cast_mul,
      Nat.cast_mul, Nat.cast_pow, Nat.cast_pow, Nat.cast_ofNat]
  obtain ⟨hlower, hupper, hmiddle⟩ :=
    cast_div_spec (unitsOfWord word * Nat.pow 10 g.places) hpos
  rw [← hsteps] at hlower hupper hmiddle
  rw [hmiddle, lower, ← le_div_iff₀ hstep, ← div_lt_iff₀ hstep, ← le_div_iff₀ hstep, mul_div_assoc]
  exact ⟨hlower, hupper, Iff.rfl⟩

theorem toWord_lower_iff : (g.point (g.lower (unitsOfWord word))).toWord = word ↔
    IsNearest (g.lower (unitsOfWord word) * g.step) word := by
  rw [toWord_eq_iff, value_point]

theorem toWord_upper_iff : (g.point (g.lower (unitsOfWord word) + 1)).toWord = word ↔
    IsNearest ((g.lower (unitsOfWord word) + 1) * g.step) word := by
  rw [toWord_eq_iff, value_point, Nat.cast_succ]

/-- What is known of the grid's answer: it reads back, it lies no more than a step above the number,
and of all points that read back it is the closest, the upper one from the middle. -/
structure IsHit (n : ℕ) : Prop where
  readsBack : IsNearest (n * g.step) word
  le_add_step : n * g.step ≤ valueOfWord word + g.step
  closest (k : ℕ) (hk : IsNearest (k * g.step) word) :
    |valueOfWord word - n * g.step| ≤ |valueOfWord word - k * g.step|
  upper (k : ℕ) (hk : IsNearest (k * g.step) word)
    (heq : |valueOfWord word - k * g.step| = |valueOfWord word - n * g.step|) : k ≤ n

variable {g word} {n k : ℕ}

theorem below_or_above (g : Grid) (word k : ℕ) :
    (k ≤ g.lower (unitsOfWord word) ∧
        |valueOfWord word - k * g.step| = valueOfWord word - k * g.step ∧
        k * g.step ≤ g.lower (unitsOfWord word) * g.step) ∨
      g.lower (unitsOfWord word) + 1 ≤ k ∧
        |valueOfWord word - k * g.step| = k * g.step - valueOfWord word ∧
        (g.lower (unitsOfWord word) + 1) * g.step ≤ k * g.step := by
  obtain ⟨hlower, hupper, -⟩ := g.lower_spec word
  have hstep := g.step_pos
  rcases Nat.lt_or_ge (g.lower (unitsOfWord word)) k with hlt | hge
  · right
    have hcast : ((g.lower (unitsOfWord word) : ℚ) + 1) * g.step ≤ k * g.step := by
      refine mul_le_mul_of_nonneg_right ?_ hstep.le
      exact_mod_cast hlt
    refine ⟨hlt, ?_, hcast⟩
    rw [abs_of_nonpos (by linarith), neg_sub]
  · left
    have hcast : (k : ℚ) * g.step ≤ g.lower (unitsOfWord word) * g.step := by
      refine mul_le_mul_of_nonneg_right ?_ hstep.le
      exact_mod_cast hge
    exact ⟨hge, abs_of_nonneg (by linarith), hcast⟩

variable (h : word < infinityWord)
include h

/-- If any point reads back, so does one of the neighbours. -/
theorem neighbour_of_point (hk : IsNearest (k * g.step) word) :
    k ≤ g.lower (unitsOfWord word) ∧ IsNearest (g.lower (unitsOfWord word) * g.step) word ∨
      g.lower (unitsOfWord word) + 1 ≤ k ∧
        IsNearest ((g.lower (unitsOfWord word) + 1) * g.step) word := by
  obtain ⟨hlower, hupper, -⟩ := g.lower_spec word
  have hvalue := isNearest_valueOfWord h
  rcases g.below_or_above word k with ⟨hle, -, hcast⟩ | ⟨hle, -, hcast⟩
  · exact .inl ⟨hle, hk.between hvalue hcast hlower⟩
  · exact .inr ⟨hle, hvalue.between hk hupper.le hcast⟩

theorem isHit_lower (hlower : IsNearest (g.lower (unitsOfWord word) * g.step) word)
    (hnearer : IsNearest ((g.lower (unitsOfWord word) + 1) * g.step) word →
      2 * valueOfWord word < (2 * g.lower (unitsOfWord word) + 1) * g.step) :
    g.IsHit word (g.lower (unitsOfWord word)) := by
  obtain ⟨hbelow, habove, -⟩ := g.lower_spec word
  have hstep := g.step_pos
  have hdistance := abs_of_nonneg (sub_nonneg.mpr hbelow)
  refine ⟨hlower, by linarith, fun k hk => ?_, fun k hk heq => ?_⟩
  · rw [hdistance]
    rcases g.below_or_above word k with ⟨-, hk', hcast⟩ | ⟨hle, hk', hcast⟩
    · rw [hk']
      linarith
    · have hupper := (neighbour_of_point h hk).resolve_left fun hk => by omega
      have := hnearer hupper.2
      rw [hk']
      linarith
  · rcases g.below_or_above word k with ⟨hle, -, -⟩ | ⟨hle, hk', hcast⟩
    · exact hle
    · have hupper := (neighbour_of_point h hk).resolve_left fun hk => by omega
      have := hnearer hupper.2
      rw [hk', hdistance] at heq
      linarith

theorem isHit_upper (hupper : IsNearest ((g.lower (unitsOfWord word) + 1) * g.step) word)
    (hnearer : IsNearest (g.lower (unitsOfWord word) * g.step) word →
      (2 * g.lower (unitsOfWord word) + 1) * g.step ≤ 2 * valueOfWord word) :
    g.IsHit word (g.lower (unitsOfWord word) + 1) := by
  obtain ⟨hbelow, habove, -⟩ := g.lower_spec word
  have hstep := g.step_pos
  have hdistance := abs_of_nonpos (sub_nonpos.mpr habove.le)
  have hcast : ((g.lower (unitsOfWord word) + 1 : ℕ) : ℚ) = g.lower (unitsOfWord word) + 1 :=
    Nat.cast_succ _
  refine ⟨?_, ?_, fun k hk => ?_, fun k hk heq => ?_⟩
  · rwa [hcast]
  · rw [hcast]
    linarith
  · rw [hcast, hdistance, neg_sub]
    rcases g.below_or_above word k with ⟨hle, hk', hcast'⟩ | ⟨-, hk', hcast'⟩
    · have hlower := (neighbour_of_point h hk).resolve_right fun hk => by omega
      have := hnearer hlower.2
      rw [hk']
      linarith
    · rw [hk']
      linarith
  · rw [hcast, hdistance, neg_sub] at heq
    rcases g.below_or_above word k with ⟨hle, -, -⟩ | ⟨-, hk', hcast'⟩
    · omega
    · rw [hk'] at heq
      have hsame : (k : ℚ) * g.step = (g.lower (unitsOfWord word) + 1) * g.step := by linarith
      have : (k : ℚ) = g.lower (unitsOfWord word) + 1 := mul_right_cancel₀ hstep.ne' hsame
      exact le_of_eq (by exact_mod_cast this)

theorem isHit_of_hit? {d : Decimal} (hhit : g.hit? (unitsOfWord word) word = some d) :
    ∃ n, d = g.point n ∧ g.IsHit word n := by
  obtain ⟨-, -, hmiddle⟩ := g.lower_spec word
  have hreads := g.toWord_lower_iff word
  have hreads' := g.toWord_upper_iff word
  rw [hit?_eq] at hhit
  split at hhit
  · next hlower =>
    split at hhit
    · next hboth =>
      obtain rfl := Option.some.inj hhit
      exact ⟨_, rfl, isHit_upper h (hreads'.mp hboth.1) fun _ => hmiddle.mp hboth.2⟩
    · next hone =>
      obtain rfl := Option.some.inj hhit
      refine ⟨_, rfl, isHit_lower h (hreads.mp hlower) fun hupper => not_le.mp fun hle => ?_⟩
      exact hone ⟨hreads'.mpr hupper, hmiddle.mpr hle⟩
  · next hlower =>
    split at hhit
    · next hupper =>
      obtain rfl := Option.some.inj hhit
      exact ⟨_, rfl, isHit_upper h (hreads'.mp hupper) fun hnone =>
        absurd (hreads.mpr hnone) hlower⟩
    · cases hhit

theorem not_isNearest_of_hit? (hhit : g.hit? (unitsOfWord word) word = none) (k : ℕ) :
    ¬ IsNearest (k * g.step) word := by
  intro hk
  rw [hit?_eq] at hhit
  rcases neighbour_of_point h hk with ⟨-, hlower⟩ | ⟨-, hupper⟩
  · rw [if_pos ((g.toWord_lower_iff word).mpr hlower)] at hhit
    split at hhit <;> cases hhit
  · split at hhit
    · split at hhit <;> cases hhit
    · rw [if_pos ((g.toWord_upper_iff word).mpr hupper)] at hhit
      cases hhit

end Neighbours

end Grid

section Order

theorem exponent_whole (zeros : ℕ) : (Grid.mk zeros 0).exponent = zeros := by
  simp [Grid.exponent]

theorem exponent_fraction (places : ℕ) : (Grid.mk 0 places).exponent = -places := by
  simp [Grid.exponent]

theorem pairwise_grids (size : ℕ) :
    (grids size).Pairwise fun coarse fine => fine.exponent < coarse.exponent := by
  refine List.pairwise_append.mpr ⟨?_, ?_, ?_⟩
  · rw [List.pairwise_map, List.pairwise_reverse]
    refine List.pairwise_lt_range.imp fun {a b} h => ?_
    rw [exponent_whole, exponent_whole]
    exact_mod_cast h
  · rw [List.pairwise_map]
    refine List.pairwise_lt_range.imp fun {a b} h => ?_
    rw [exponent_fraction, exponent_fraction]
    omega
  · intro coarse hcoarse fine hfine
    obtain ⟨zeros, -, rfl⟩ := List.mem_map.mp hcoarse
    obtain ⟨places, -, rfl⟩ := List.mem_map.mp hfine
    rw [exponent_whole, exponent_fraction]
    omega

theorem mem_grids_iff {size : ℕ} {g : Grid} :
    g ∈ grids size ↔ (g.places = 0 ∧ g.zeros ≤ size) ∨
      g.zeros = 0 ∧ 0 < g.places ∧ g.places ≤ 1074 := by
  obtain ⟨zeros, places⟩ := g
  simp only [grids, List.mem_append, List.mem_map, List.mem_reverse, List.mem_range, Grid.mk.injEq]
  constructor
  · rintro (⟨a, ha, rfl, rfl⟩ | ⟨a, ha, rfl, rfl⟩) <;> omega
  · rintro (⟨rfl, h⟩ | ⟨rfl, h, h'⟩)
    · exact .inl ⟨zeros, by omega, rfl, rfl⟩
    · exact .inr ⟨places - 1, by omega, rfl, by omega⟩

theorem neg_le_exponent {size : ℕ} {g : Grid} (h : g ∈ grids size) : -1074 ≤ g.exponent := by
  have := mem_grids_iff.mp h
  rw [Grid.exponent]
  omega

/-- The grids leave no power of ten out. -/
theorem exists_mem_grids {size : ℕ} {k : ℤ} (hlow : -1074 ≤ k) (hhigh : k ≤ size) :
    ∃ g ∈ grids size, g.exponent = k := by
  rcases le_or_gt 0 k with hk | hk
  · refine ⟨⟨k.toNat, 0⟩, mem_grids_iff.mpr (.inl ⟨rfl, by simp; omega⟩), ?_⟩
    rw [exponent_whole, Int.toNat_of_nonneg hk]
  · refine ⟨⟨0, (-k).toNat⟩, mem_grids_iff.mpr (.inr ⟨rfl, by simp; omega⟩), ?_⟩
    rw [exponent_fraction]
    omega

end Order

def wholeSize (word : ℕ) : ℕ := (digits (unitsOfWord word / unitsPerOne)).length

/-- The first grid with an answer, and the number of the point that it answers with. -/
structure IsFirst (word : ℕ) (g : Grid) (n : ℕ) : Prop where
  mem : g ∈ grids (wholeSize word)
  hit : g.IsHit word n
  first (k : ℤ) (hlt : g.exponent < k) (hle : k ≤ wholeSize word) (m : ℕ) :
    ¬ IsNearest (m * 10 ^ k) word

theorem valueOfWord_eq_fraction (word : ℕ) :
    valueOfWord word = (unitsOfWord word * 5 ^ 1074 : ℕ) * (Grid.mk 0 1074).step := by
  rw [Grid.step_eq_div, valueOfWord, Binary64.cast_unitsPerOne]
  generalize 1074 = n
  have htens : (10 : ℚ) ^ n = 5 ^ n * 2 ^ n := by
    rw [← mul_pow]
    norm_num
  rw [htens]
  push_cast
  field_simp

/-- The shortest decimal is the answer of the first grid that has one. -/
theorem exists_isFirst {word : ℕ} (h : word < infinityWord) :
    ∃ g n, shortest (unitsOfWord word) = g.point n ∧ IsFirst word g n := by
  have hword := Binary64.wordOfUnits_unitsOfWord h
  cases hfound : (grids (wholeSize word)).findSome? (·.hit? (unitsOfWord word) word) with
  | none =>
    -- The finest grid holds the exact value.
    have hfinest : (Grid.mk 0 1074).hit? (unitsOfWord word) word = none :=
      List.findSome?_eq_none_iff.mp hfound _ (mem_grids_iff.mpr (.inr ⟨rfl, by simp⟩))
    exfalso
    refine Grid.not_isNearest_of_hit? h hfinest (unitsOfWord word * 5 ^ 1074) ?_
    rw [← valueOfWord_eq_fraction]
    exact isNearest_valueOfWord h
  | some d =>
    have hshortest : shortest (unitsOfWord word) = d := by
      simp only [shortest, hword]
      rw [← wholeSize, hfound, Option.getD_some]
    obtain ⟨front, g, back, hgrids, hhit, hfront⟩ := List.findSome?_eq_some_iff.mp hfound
    obtain ⟨n, rfl, hn⟩ := Grid.isHit_of_hit? h hhit
    have hmem : g ∈ grids (wholeSize word) := by
      rw [hgrids]
      exact List.mem_append_right front List.mem_cons_self
    refine ⟨g, n, hshortest, hmem, hn, fun k hlt hle m hm => ?_⟩
    obtain ⟨coarse, hcoarse, rfl⟩ :=
      exists_mem_grids ((neg_le_exponent hmem).trans hlt.le) hle
    -- What is coarser than the first grid with an answer stands in front of it.
    have hfront' : coarse ∈ front := by
      have hpairwise := pairwise_grids (wholeSize word)
      rw [hgrids] at hcoarse hpairwise
      have hback := (List.pairwise_cons.mp (List.pairwise_append.mp hpairwise).2.1).1
      rcases List.mem_append.mp hcoarse with hmem | hmem
      · exact hmem
      · rcases List.mem_cons.mp hmem with rfl | hmem
        · exact absurd hlt (lt_irrefl _)
        · exact absurd (hback coarse hmem) (not_lt.mpr hlt.le)
    exact Grid.not_isNearest_of_hit? h (hfront coarse hfront') m hm

end Reckoner.Decimal
