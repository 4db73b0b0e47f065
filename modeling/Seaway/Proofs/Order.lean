import Mathlib
import Seaway.Binary64

/-!
# The order of doubles

Doubles compare as IEEE 754 prescribes: NaN is ordered with nothing, the two zeros are
equal, and every other pair is ordered one way or the other. The logical model of `Float`
compares unpacked values constructor by constructor; here that comparison is read as the
lexicographic comparison of an integer key (`rank`), so that the order laws follow by
linear arithmetic:

* `le_trans`, `lt_of_lt_of_le`, `le_of_lt`: the order is transitive;
* `le_total`, `le_of_not_lt`: once NaN is excluded it is total, and `¬ b < a` means `a ≤ b`;
* `minNum_le_of_left_le` and its companions: the NaN-ignoring minimum and maximum of
  `Real64` stay on the right side of any bound that one of their operands respects.
-/

namespace Seaway

namespace Real64

open Float.Model UnpackedFloat

/-! ## Rank keys -/

/-- Where an unpacked double stands among the doubles, as a key compared lexicographically:
the negative infinity, the negative finite values (exponent, then significand, both
reversed), the zeros of either sign, the positive finite values, the positive infinity.
NaN gets the key of zero; that it is ordered with nothing is recorded apart. -/
def unpackedRank : UnpackedFloat → Int × Int × Int
  | .infinity .negative => (0, 0, 0)
  | .finite .negative m e _ => (1, -e, -m)
  | .zero _ => (2, 0, 0)
  | .notANumber => (2, 0, 0)
  | .finite .positive m e _ => (3, e, m)
  | .infinity .positive => (4, 0, 0)

/-- The lexicographic order of rank keys. -/
def RankLE (k l : Int × Int × Int) : Prop :=
  k.1 < l.1 ∨ k.1 = l.1 ∧ (k.2.1 < l.2.1 ∨ k.2.1 = l.2.1 ∧ k.2.2 ≤ l.2.2)

/-- The strict lexicographic order of rank keys. -/
def RankLT (k l : Int × Int × Int) : Prop :=
  k.1 < l.1 ∨ k.1 = l.1 ∧ (k.2.1 < l.2.1 ∨ k.2.1 = l.2.1 ∧ k.2.2 < l.2.2)

/-- The model's `≤` on unpacked doubles is the order of their keys, off NaN. -/
theorem unpacked_le_iff (u v : UnpackedFloat) :
    u.le v = true ↔
      u.isNaN = false ∧ v.isNaN = false ∧ RankLE (unpackedRank u) (unpackedRank v) := by
  -- one case per pair of constructors and signs; a negative pair compares swapped
  rcases u with ⟨_ | _⟩ | _ | ⟨_ | _⟩ | ⟨_ | _, m, e, hm⟩ <;>
    rcases v with ⟨_ | _⟩ | _ | ⟨_ | _⟩ | ⟨_ | _, m', e', hm'⟩
  all_goals
    simp +decide [UnpackedFloat.le, UnpackedFloat.compare, unpackedRank, RankLE,
      UnpackedFloat.isNaN, Ordering.swap_then, Int.compare_swap, Nat.compare_swap,
      Ordering.isLE_then_iff_or, Int.compare_eq_lt, Nat.isLE_compare]
  all_goals omega

/-- The model's `<` on unpacked doubles is the strict order of their keys, off NaN. -/
theorem unpacked_lt_iff (u v : UnpackedFloat) :
    u.lt v = true ↔
      u.isNaN = false ∧ v.isNaN = false ∧ RankLT (unpackedRank u) (unpackedRank v) := by
  rcases u with ⟨_ | _⟩ | _ | ⟨_ | _⟩ | ⟨_ | _, m, e, hm⟩ <;>
    rcases v with ⟨_ | _⟩ | _ | ⟨_ | _⟩ | ⟨_ | _, m', e', hm'⟩
  all_goals
    simp +decide [UnpackedFloat.lt, UnpackedFloat.compare, unpackedRank, RankLT,
      UnpackedFloat.isNaN, Ordering.swap_then, Int.compare_swap, Nat.compare_swap,
      Ordering.then_eq_lt, Int.compare_eq_lt, Nat.compare_eq_lt]
  all_goals omega

instance : DecidableRel RankLE := fun k l =>
  inferInstanceAs (Decidable (k.1 < l.1 ∨ k.1 = l.1 ∧ (k.2.1 < l.2.1 ∨ k.2.1 = l.2.1 ∧ k.2.2 ≤ l.2.2)))

/-- The rank key of a double. -/
def rank (a : Float) : Int × Int × Int := unpackedRank a.toModel.unpack

theorem le_iff_rank {a b : Float} :
    a ≤ b ↔ a.isNaN = false ∧ b.isNaN = false ∧ RankLE (rank a) (rank b) := by
  show Float.le a b = true ↔ _
  simp only [Float.le, decide_eq_true_eq]
  exact unpacked_le_iff _ _

theorem lt_iff_rank {a b : Float} :
    a < b ↔ a.isNaN = false ∧ b.isNaN = false ∧ RankLT (rank a) (rank b) := by
  show Float.lt a b = true ↔ _
  simp only [Float.lt, decide_eq_true_eq]
  exact unpacked_lt_iff _ _

/-! ## Order laws -/

section Laws

variable {a b c x : Float}

theorem isNaN_left_of_le (h : a ≤ b) : a.isNaN = false := (le_iff_rank.1 h).1

theorem isNaN_right_of_le (h : a ≤ b) : b.isNaN = false := (le_iff_rank.1 h).2.1

theorem isNaN_left_of_lt (h : a < b) : a.isNaN = false := (lt_iff_rank.1 h).1

theorem isNaN_right_of_lt (h : a < b) : b.isNaN = false := (lt_iff_rank.1 h).2.1

theorem le_trans (hab : a ≤ b) (hbc : b ≤ c) : a ≤ c := by
  obtain ⟨ha, -, hab⟩ := le_iff_rank.1 hab
  obtain ⟨-, hc, hbc⟩ := le_iff_rank.1 hbc
  refine le_iff_rank.2 ⟨ha, hc, ?_⟩
  unfold RankLE at *
  omega

theorem lt_of_lt_of_le (hab : a < b) (hbc : b ≤ c) : a < c := by
  obtain ⟨ha, -, hab⟩ := lt_iff_rank.1 hab
  obtain ⟨-, hc, hbc⟩ := le_iff_rank.1 hbc
  refine lt_iff_rank.2 ⟨ha, hc, ?_⟩
  unfold RankLE RankLT at *
  omega

theorem lt_of_le_of_lt (hab : a ≤ b) (hbc : b < c) : a < c := by
  obtain ⟨ha, -, hab⟩ := le_iff_rank.1 hab
  obtain ⟨-, hc, hbc⟩ := lt_iff_rank.1 hbc
  refine lt_iff_rank.2 ⟨ha, hc, ?_⟩
  unfold RankLE RankLT at *
  omega

theorem le_of_lt (h : a < b) : a ≤ b := by
  obtain ⟨ha, hb, h⟩ := lt_iff_rank.1 h
  refine le_iff_rank.2 ⟨ha, hb, ?_⟩
  unfold RankLE RankLT at *
  omega

theorem not_lt_of_le (h : a ≤ b) : ¬b < a := by
  intro h'
  obtain ⟨-, -, h⟩ := le_iff_rank.1 h
  obtain ⟨-, -, h'⟩ := lt_iff_rank.1 h'
  unfold RankLE RankLT at *
  omega

/-- Two doubles neither of which is NaN are ordered one way or the other. -/
theorem le_total (ha : a.isNaN = false) (hb : b.isNaN = false) : a ≤ b ∨ b ≤ a := by
  simp only [le_iff_rank, ha, hb, true_and]
  unfold RankLE
  omega

/-- Off NaN, a double that the other is not below is at most the other. -/
theorem le_of_not_lt (ha : a.isNaN = false) (hb : b.isNaN = false) (h : ¬b < a) : a ≤ b := by
  simp only [lt_iff_rank, le_iff_rank, ha, hb, true_and] at h ⊢
  unfold RankLE RankLT at *
  omega

/-- Off NaN, a double that is not at most another is above it. -/
theorem lt_of_not_le (ha : a.isNaN = false) (hb : b.isNaN = false) (h : ¬a ≤ b) : b < a := by
  simp only [lt_iff_rank, le_iff_rank, ha, hb, true_and] at h ⊢
  unfold RankLE RankLT at *
  omega

theorem le_refl (ha : a.isNaN = false) : a ≤ a := (le_total ha ha).elim id id

/-- No double is below itself, NaN included. -/
theorem lt_irrefl (a : Float) : ¬a < a := fun h => not_lt_of_le (le_refl (isNaN_left_of_lt h)) h

/-- The negative infinity is below every double but NaN. -/
theorem negInf_le (ha : a.isNaN = false) : -inf ≤ a := by
  have hinf : (-inf).toModel.unpack = .infinity .negative := by rfl
  refine le_iff_rank.2 ⟨by rfl, ha, ?_⟩
  simp only [rank, hinf, unpackedRank, RankLE]
  rcases hu : a.toModel.unpack with ⟨_ | _⟩ | _ | ⟨_ | _⟩ | ⟨_ | _, m, e, hm⟩
  all_goals simp_all [Float.isNaN, Float.Model.isNaN, UnpackedFloat.isNaN]

end Laws

/-! ## Minimum, maximum and bounds -/

section Bounds

variable {a b c x : Float}

theorem minNum_le_of_left_le (h : a ≤ x) : minNum a b ≤ x := by
  unfold minNum
  rw [if_neg (ne_true_of_eq_false (isNaN_left_of_le h))]
  split
  · exact le_of_lt (lt_of_lt_of_le ‹b < a› h)
  · exact h

theorem minNum_le_of_right_le (h : b ≤ x) : minNum a b ≤ x := by
  unfold minNum
  split
  · exact h
  · split
    · exact h
    · -- `a` is no NaN and `b` is not below it, so `a ≤ b ≤ x`
      have ha : a.isNaN = false := by simpa using ‹¬a.isNaN = true›
      exact le_trans (le_of_not_lt ha (isNaN_left_of_le h) ‹¬b < a›) h

theorem le_maxNum_of_le_left (h : x ≤ a) : x ≤ maxNum a b := by
  unfold maxNum
  rw [if_neg (ne_true_of_eq_false (isNaN_right_of_le h))]
  split
  · exact le_trans h (le_of_lt ‹a < b›)
  · exact h

theorem le_maxNum_of_le_right (h : x ≤ b) : x ≤ maxNum a b := by
  unfold maxNum
  split
  · exact h
  · split
    · exact h
    · have ha : a.isNaN = false := by simpa using ‹¬a.isNaN = true›
      exact le_trans h (le_of_not_lt (isNaN_right_of_le h) ha ‹¬a < b›)

/-- The minimum of two doubles is one of them. -/
theorem minNum_eq_or (a b : Float) : minNum a b = a ∨ minNum a b = b := by
  unfold minNum
  split
  · exact .inr rfl
  · split
    · exact .inr rfl
    · exact .inl rfl

/-- The maximum of two doubles is one of them. -/
theorem maxNum_eq_or (a b : Float) : maxNum a b = a ∨ maxNum a b = b := by
  unfold maxNum
  split
  · exact .inr rfl
  · split
    · exact .inr rfl
    · exact .inl rfl

/-- A value raised to a bound that is no NaN is no NaN. -/
theorem atLeast_isNaN (hc : c.isNaN = false) : (atLeast x c).isNaN = false := by
  unfold atLeast
  split
  · exact isNaN_right_of_lt ‹c < x›
  · exact hc

end Bounds

end Real64

end Seaway
