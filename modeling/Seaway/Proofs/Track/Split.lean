import Mathlib
import Seaway.Proofs.Track.Derived
import Seaway.Decimal.Scaled

/-!
# The pieces of a cut track

Cutting a track by a segmentation rule keeps every row once and in order: the pieces,
appended one after another, are the track again, each is a run of consecutive rows that the
rule does not cut inside, and a piece starts exactly at the rows the rule cuts before: where
the time since the previous row is at least the largest gap, or the longitude moved by more
than the tolerance (`SegmentationRule.Cuts`). None of this depends on the rule's values: a
gap of zero or below, or a NaN tolerance, cuts by the same reading.

* `Track.concat_piecesAt`: the pieces between increasing rows strictly inside a track append
  to the track;
* `Track.splitWith_eq_piecesAt`: once no two consecutive times are more than `2 ^ 63 - 1`
  seconds apart, a split is the pieces at the rows the rule cuts, also when there are none;
* `Track.splitWith_partitions` puts these together with where the pieces start;
* `Track.splitMaxLength_pieces`: cutting into pieces of at most `m` rows gives the least
  number of pieces that can hold the track, all full but the last.
-/

namespace Seaway

namespace SegmentationRule

variable {r : SegmentationRule} {t : Track} {i : Nat}

/-- Whether a rule cuts before row `i`: the time since row `i - 1` is at least `maxDelta`, or
the longitude moved by more than the tolerance (a NaN step never does). -/
def Cuts (r : SegmentationRule) (t : Track) (i : Nat) : Prop :=
  r.maxDelta ≤ t.time.getD i 0 - t.time.getD (i - 1) 0 ∨
    r.lonJumpTolerance < (t.lon.getD i 0 - t.lon.getD (i - 1) 0).abs

instance (r : SegmentationRule) (t : Track) (i : Nat) : Decidable (r.Cuts t i) :=
  inferInstanceAs (Decidable (_ ∨ _))

/-- The rows after the first that a rule cuts before, in order. -/
def cutRows (r : SegmentationRule) (t : Track) : List Nat :=
  (List.range' 1 (t.size - 1)).filter fun i => decide (r.Cuts t i)

/-- On a row after the first of a valid track, once the seconds since the previous row fit,
the rule's test reads both rows and computes `Cuts`. -/
theorem cutsAt_eq_ok (hv : t.Valid) (hi₀ : 0 < i) (hi : i < t.size)
    (h₀ : 0 ≤ t.time.getD i 0 - t.time.getD (i - 1) 0)
    (h₁ : t.time.getD i 0 - t.time.getD (i - 1) 0 ≤ maxInt64) :
    r.cutsAt t i = .ok (decide (r.Cuts t i)) := by
  obtain ⟨ht, hx, -⟩ := hv.entry_eq_ok hi
  obtain ⟨ht', hx', -⟩ := hv.entry_eq_ok (show i - 1 < t.size by omega)
  simp only [cutsAt, subSize_eq_ok (show 1 ≤ i by omega), ht, ht', hx, hx',
    subInt64_eq_ok h₀ h₁, Bind.bind, Except.bind, pure, Except.pure]
  congr 1
  simp [Cuts]

theorem mem_cutRows : i ∈ r.cutRows t ↔ (0 < i ∧ i < t.size) ∧ r.Cuts t i := by
  simp only [cutRows, List.mem_filter, List.mem_range'_1, decide_eq_true_eq]
  constructor
  · rintro ⟨hi, hc⟩
    exact ⟨⟨hi.1, by omega⟩, hc⟩
  · rintro ⟨hi, hc⟩
    exact ⟨⟨hi.1, by omega⟩, hc⟩

theorem cutRows_sorted (r : SegmentationRule) (t : Track) : (r.cutRows t).Pairwise (· < ·) :=
  List.Pairwise.sublist List.filter_sublist List.pairwise_lt_range'

end SegmentationRule

namespace Track

variable {t : Track} {a b c : Nat}

/-- Tracks appended one after another as `extendFrom` appends them: the first one's vessel,
label and attributes, each column the columns in order, and the zone column when each of
them has one; no track for an empty list. -/
def concat : List Track → Option Track
  | [] => none
  | q :: rest => some (rest.foldl (fun acc u => acc.extendFrom u 0 u.size) q)

/-! ## Slices -/

@[simp] theorem size_slice (hb : b ≤ t.size) : (t.slice a b).size = b - a := by
  simp only [slice, size, Array.size_extract]
  simp only [size] at hb
  omega

theorem getD_extract {α : Type} (xs : Array α) (d : α) {j : Nat} (h : a + j < b) :
    (xs.extract a b).getD j d = xs.getD (a + j) d := by
  simp only [Array.getD_eq_getD_getElem?, Array.getElem?_extract]
  split
  · rfl
  · rw [Array.getElem?_eq_none (by omega)]

/-- The rows `[a, b)` followed by all of the rows `[b, c)` are the rows `[a, c)`. -/
theorem slice_extendFrom_slice (hab : a ≤ b) (hbc : b ≤ c) (hc : c ≤ t.size) :
    (t.slice a b).extendFrom (t.slice b c) 0 (t.slice b c).size = t.slice a c := by
  have hcol : ∀ {α : Type} (xs : Array α),
      xs.extract a b ++ (xs.extract b c).extract 0 (c - b) = xs.extract a c := by
    intro α xs
    rw [Array.extract_extract, Nat.add_zero, show min (b + (c - b)) c = c by omega,
      Array.extract_append_extract, show min a b = a by omega, show max b c = c by omega]
  rw [size_slice hc]
  simp only [slice, extendFrom, hcol]
  cases t.inZone <;> simp only [Option.map_none, Option.map_some, hcol]

/-- A rule cuts inside a slice where it cuts the track. -/
theorem cuts_slice {r : SegmentationRule} {j : Nat} (hj : 0 < j) (hab : a + j < b) :
    r.Cuts (t.slice a b) j ↔ r.Cuts t (a + j) := by
  have hprev : a + (j - 1) = a + j - 1 := by omega
  simp only [SegmentationRule.Cuts, slice, getD_extract _ _ hab,
    getD_extract _ _ (by omega : a + (j - 1) < b), hprev]

/-! ## Pieces between bounds -/

theorem piecesAt_eq_map (t : Track) (cuts : List Nat) :
    t.piecesAt cuts = ((0 :: cuts ++ [t.size]).zip (0 :: cuts ++ [t.size]).tail).map
      fun w => t.slice w.1 w.2 :=
  rfl

/-- Without cuts a valid track is its one piece. -/
theorem piecesAt_nil (hv : t.Valid) : t.piecesAt [] = [t] := by
  simp [piecesAt_eq_map, slice_all hv]

/-- Appending the slices between consecutive bounds of a non-decreasing list to the slice up
to its first bound gives the slice up to its last. -/
theorem foldl_extendFrom_slices {bs : List Nat} (hs : (b :: bs).Pairwise (· ≤ ·))
    (hc : ∀ x ∈ b :: bs, x ≤ t.size) (hab : a ≤ b) :
    (((b :: bs).zip bs).map fun w => t.slice w.1 w.2).foldl
        (fun acc u => acc.extendFrom u 0 u.size) (t.slice a b) =
      t.slice a ((b :: bs).getLast (List.cons_ne_nil b bs)) := by
  induction bs generalizing b with
  | nil => rfl
  | cons c bs ih =>
    have hbc : b ≤ c := List.rel_of_pairwise_cons hs List.mem_cons_self
    simp only [List.zip_cons_cons, List.map_cons, List.foldl_cons]
    rw [slice_extendFrom_slice hab hbc (hc c (by simp)), ih (List.Pairwise.of_cons hs)
      (fun x hx => hc x (List.mem_cons_of_mem b hx)) (Nat.le_trans hab hbc)]
    simp

/-- The pieces between increasing rows strictly inside a valid track append to the track. -/
theorem concat_piecesAt {cuts : List Nat} (hv : t.Valid) (hs : cuts.Pairwise (· < ·))
    (hc : ∀ c ∈ cuts, 0 < c ∧ c < t.size) : concat (t.piecesAt cuts) = some t := by
  obtain ⟨hbounds, hle⟩ := piecesAt_bounds hv hs hc
  obtain ⟨b, rest, hbr⟩ := List.exists_cons_of_ne_nil (List.concat_ne_nil t.size cuts)
  rw [List.cons_append, hbr] at hbounds hle
  have hlast : (b :: rest).getLast (List.cons_ne_nil b rest) = t.size := by
    simp only [← hbr, List.getLast_append_singleton]
  simp only [piecesAt, List.cons_append, hbr, List.tail_cons, List.zip_cons_cons, List.map_cons,
    concat]
  rw [foldl_extendFrom_slices ((List.Pairwise.of_cons hbounds).imp Nat.le_of_lt)
      (fun x hx => hle x (List.mem_cons_of_mem 0 hx)) (Nat.zero_le b), hlast, slice_all hv]

/-- Pieces between consecutive bounds of a non-decreasing list start, one after another, at
the bounds: the rows before the `k`-th piece are the `k`-th bound less the first. -/
theorem sum_take_sizes {l : List Nat} (hs : l.Pairwise (· ≤ ·)) (hle : ∀ x ∈ l, x ≤ t.size)
    {k : Nat} (hk : k < l.length) :
    ((((l.zip l.tail).map fun w => t.slice w.1 w.2).take k).map size).sum =
      l.getD k 0 - l.getD 0 0 := by
  induction l generalizing k with
  | nil => simp at hk
  | cons a l ih =>
    cases l with
    | nil =>
      obtain rfl : k = 0 := by simpa using hk
      simp
    | cons b rest =>
      cases k with
      | zero => simp
      | succ k =>
        -- the first piece has `b - a` rows, and the rest start from `b`
        have hab : a ≤ b := List.rel_of_pairwise_cons hs List.mem_cons_self
        have hbk : b ≤ (b :: rest).getD k 0 := by
          rcases k with _ | k
          · exact le_rfl
          · have hk' : k < rest.length := by simp at hk; omega
            rw [List.getD_cons_succ, List.getD_eq_getElem?_getD, List.getElem?_eq_getElem hk',
              Option.getD_some]
            exact List.rel_of_pairwise_cons (List.Pairwise.of_cons hs) (List.getElem_mem hk')
        have hrest := ih (List.Pairwise.of_cons hs) (fun x hx => hle x (List.mem_cons_of_mem a hx))
          (by simp at hk ⊢; omega : k < (b :: rest).length)
        simp only [List.tail_cons, List.zip_cons_cons, List.map_cons, List.take_succ_cons,
          List.sum_cons, List.getD_cons_succ, List.getD_cons_zero] at hrest ⊢
        rw [hrest, size_slice (hle b (by simp))]
        omega

/-- A row strictly between two consecutive bounds of an increasing list is no bound. -/
theorem not_mem_of_mem_zip_tail {l : List Nat} (hs : l.Pairwise (· < ·)) {w : Nat × Nat}
    (hw : w ∈ l.zip l.tail) {x : Nat} (hx₁ : w.1 < x) (hx₂ : x < w.2) : x ∉ l := by
  obtain ⟨m, hm, rfl⟩ := exists_of_mem_zip_tail hw
  intro hx
  obtain ⟨p, hp, rfl⟩ := List.getElem_of_mem hx
  have hsorted := List.pairwise_iff_getElem.1 hs
  -- the bound `x` comes after the `m`-th, so not before the `m + 1`-th
  have hmp : m < p := by
    by_contra hpm
    rcases Nat.eq_or_lt_of_le (Nat.le_of_not_lt hpm) with h | h
    · subst h
      exact Nat.lt_irrefl _ hx₁
    · exact Nat.lt_asymm hx₁ (hsorted _ _ hp (by omega) h)
  rcases Nat.eq_or_lt_of_le (Nat.succ_le_of_lt hmp) with h | h
  · subst h
    exact Nat.lt_irrefl _ hx₂
  · exact Nat.lt_asymm hx₂ (hsorted _ _ hm hp h)

/-- The pieces at increasing rows strictly inside a valid track start at those rows: a piece
after the first starts at row `i` exactly when `i` is one of them. -/
theorem piecesAt_starts {cuts : List Nat} (hv : t.Valid) (hs : cuts.Pairwise (· < ·))
    (hc : ∀ c ∈ cuts, 0 < c ∧ c < t.size) (i : Nat) :
    (∃ k, 0 < k ∧ k < (t.piecesAt cuts).length ∧
      (((t.piecesAt cuts).take k).map size).sum = i) ↔ i ∈ cuts := by
  obtain ⟨hbounds, hle⟩ := piecesAt_bounds hv hs hc
  have hlen : (t.piecesAt cuts).length = cuts.length + 1 := by simp [piecesAt_eq_map]
  -- the `k`-th piece starts at the `k`-th bound, which is the `(k - 1)`-th cut
  have hstart : ∀ k, 0 < k → k < cuts.length + 1 →
      (((t.piecesAt cuts).take k).map size).sum = cuts.getD (k - 1) 0 := by
    intro k hk₀ hk
    rw [piecesAt_eq_map, sum_take_sizes (hbounds.imp Nat.le_of_lt) hle
      (by simp; omega : k < (0 :: cuts ++ [t.size]).length)]
    obtain ⟨k, rfl⟩ : ∃ k', k = k' + 1 := ⟨k - 1, by omega⟩
    simp only [List.cons_append, List.getD_cons_succ, List.getD_cons_zero, Nat.sub_zero,
      Nat.add_sub_cancel]
    exact List.getD_append _ _ _ _ (by omega)
  rw [hlen, List.mem_iff_getElem]
  constructor
  · rintro ⟨k, hk₀, hk, rfl⟩
    refine ⟨k - 1, by omega, ?_⟩
    rw [hstart k hk₀ hk, List.getD_eq_getElem _ _ (by omega)]
  · rintro ⟨j, hj, rfl⟩
    refine ⟨j + 1, Nat.succ_pos j, by omega, ?_⟩
    rw [hstart (j + 1) (Nat.succ_pos j) (by omega), Nat.add_sub_cancel,
      List.getD_eq_getElem _ _ hj]

/-- A rule that cuts a valid track only at the rows `cuts` cuts no piece between them
inside. -/
theorem not_cuts_of_mem_piecesAt {r : SegmentationRule} {cuts : List Nat} (hv : t.Valid)
    (hs : cuts.Pairwise (· < ·)) (hc : ∀ c ∈ cuts, 0 < c ∧ c < t.size)
    (hcut : ∀ i, 0 < i → i < t.size → r.Cuts t i → i ∈ cuts) {q : Track}
    (hq : q ∈ t.piecesAt cuts) {j : Nat} (hj : 0 < j) (hjq : j < q.size) : ¬r.Cuts q j := by
  obtain ⟨hbounds, hle⟩ := piecesAt_bounds hv hs hc
  rw [piecesAt_eq_map, List.mem_map] at hq
  obtain ⟨w, hw, rfl⟩ := hq
  obtain ⟨hlt, hmem⟩ := lt_of_mem_zip_tail hbounds hw
  have hb := hle _ hmem
  rw [size_slice hb] at hjq
  rw [cuts_slice hj (by omega)]
  -- row `w.1 + j` lies strictly between two consecutive bounds, so it is no cut
  intro h
  have hin := hcut (w.1 + j) (by omega) (by omega) h
  exact not_mem_of_mem_zip_tail hbounds hw (by omega) (by omega)
    (List.mem_cons_of_mem 0 (List.mem_append_left [t.size] hin))

/-! ## Splitting by a rule -/

/-- Once no two consecutive times of a valid track are more than `2 ^ 63 - 1` seconds apart, a
split is the pieces at the rows the rule cuts; without cuts that is the track itself. -/
theorem splitWith_eq_piecesAt (hv : t.Valid)
    (hfit : ∀ i, 0 < i → i < t.size → t.time.getD i 0 - t.time.getD (i - 1) 0 ≤ maxInt64)
    (r : SegmentationRule) : t.splitWith r = .ok (t.piecesAt (r.cutRows t)) := by
  have hcuts : ((List.range t.size).drop 1).filterM (r.cutsAt t) = .ok (r.cutRows t) := by
    rw [range_drop_one]
    refine Except.filterM_eq_ok_filter fun i hi => ?_
    have hi' := List.mem_range'_1.1 hi
    exact SegmentationRule.cutsAt_eq_ok hv (by omega) (by omega)
      (Int.sub_nonneg.2 (hv.time_mono (Nat.sub_le i 1) (by omega))) (hfit i (by omega) (by omega))
  rw [splitWith_eq_of_filterM hv hcuts]
  split
  · rename_i h
    rw [List.isEmpty_iff.1 h, piecesAt_nil hv]
  · rfl

/-- **The pieces of a split partition the track.** Let a valid track have no two consecutive
times more than `2 ^ 63 - 1` seconds apart. Cutting it by any rule succeeds and gives the
pieces at the rows the rule cuts, even when it cuts none. The pieces, appended one after
another, are the track; each is non-empty, with the track's vessel, label and attributes, and
a zone column when the track has one; a piece after the first starts at row `i` exactly when
the rule cuts before row `i`; and the rule cuts no piece inside. -/
theorem splitWith_partitions (hv : t.Valid)
    (hfit : ∀ i, 0 < i → i < t.size → t.time.getD i 0 - t.time.getD (i - 1) 0 ≤ maxInt64)
    (r : SegmentationRule) :
    ∃ pieces, t.splitWith r = .ok pieces ∧ pieces = t.piecesAt (r.cutRows t) ∧
      concat pieces = some t ∧
      (∀ q ∈ pieces, 0 < q.size ∧ q.mmsi = t.mmsi ∧ q.label = t.label ∧ q.info = t.info ∧
        q.inZone.isSome = t.inZone.isSome) ∧
      (∀ i, 0 < i → i < t.size →
        ((∃ k, 0 < k ∧ k < pieces.length ∧ ((pieces.take k).map size).sum = i) ↔
          r.Cuts t i)) ∧
      ∀ q ∈ pieces, ∀ j, 0 < j → j < q.size → ¬r.Cuts q j := by
  have hs := SegmentationRule.cutRows_sorted r t
  have hc : ∀ c ∈ r.cutRows t, 0 < c ∧ c < t.size := fun c h =>
    (SegmentationRule.mem_cutRows.1 h).1
  refine ⟨_, splitWith_eq_piecesAt hv hfit r, rfl, concat_piecesAt hv hs hc, ?_, ?_, ?_⟩
  · -- every piece is a non-empty slice
    intro q hq
    obtain ⟨hbounds, hle⟩ := piecesAt_bounds hv hs hc
    rw [piecesAt_eq_map, List.mem_map] at hq
    obtain ⟨w, hw, rfl⟩ := hq
    obtain ⟨hlt, hmem⟩ := lt_of_mem_zip_tail hbounds hw
    refine ⟨by rw [size_slice (hle _ hmem)]; omega, rfl, rfl, rfl, by simp [slice]⟩
  · intro i hi₀ hi
    rw [piecesAt_starts hv hs hc, SegmentationRule.mem_cutRows]
    exact and_iff_right ⟨hi₀, hi⟩
  · intro q hq j hj hjq
    exact not_cuts_of_mem_piecesAt hv hs hc
      (fun i hi₀ hi h => SegmentationRule.mem_cutRows.2 ⟨⟨hi₀, hi⟩, h⟩) hq hj hjq

/-- Three positions, the last two hours after the second. -/
def silence : Track :=
  { mmsi := 7, time := #[0, 60, 7260], lon := #[0.0, 0.0, 0.0], lat := #[0.0, 0.0, 0.0],
    cog := #[0.0, 0.0, 0.0], sog := #[0.0, 0.0, 0.0] }

theorem splitWith_partitions_silence :
    silence.Valid ∧
      (∀ i, 0 < i → i < silence.size →
        silence.time.getD i 0 - silence.time.getD (i - 1) 0 ≤ maxInt64) ∧
      ∃ pieces, silence.splitWith { maxDelta := 3600 } = .ok pieces ∧
        pieces = silence.piecesAt (SegmentationRule.cutRows { maxDelta := 3600 } silence) ∧
        concat pieces = some silence ∧
        (∀ q ∈ pieces, 0 < q.size ∧ q.mmsi = silence.mmsi ∧ q.label = silence.label ∧
          q.info = silence.info ∧ q.inZone.isSome = silence.inZone.isSome) ∧
        (∀ i, 0 < i → i < silence.size →
          ((∃ k, 0 < k ∧ k < pieces.length ∧ ((pieces.take k).map size).sum = i) ↔
            SegmentationRule.Cuts { maxDelta := 3600 } silence i)) ∧
        ∀ q ∈ pieces, ∀ j, 0 < j → j < q.size →
          ¬SegmentationRule.Cuts { maxDelta := 3600 } q j := by
  have hv : silence.Valid :=
    ⟨by decide, rfl, rfl, rfl, rfl, (fun _ hz => by cases hz), by decide⟩
  have hfit : ∀ i, 0 < i → i < silence.size →
      silence.time.getD i 0 - silence.time.getD (i - 1) 0 ≤ maxInt64 := by
    intro i hi₀ hi
    change i < 3 at hi
    interval_cases i <;> decide
  exact ⟨hv, hfit, splitWith_partitions hv hfit _⟩

/-! ## Splitting by length

The pieces of at most `m` rows start at the rows `0, m, 2 · m, …` below the row count, and each
ends `m` rows later or at the end of the track. With `K` pieces, `(K - 1) · m` is the last
start, so `K` is the least count with `K · m` covering the track. -/

section Length

variable {m k : Nat}

theorem concat_append_singleton {l : List Track} (hl : l ≠ []) (x : Track) :
    concat (l ++ [x]) = (concat l).map fun acc => acc.extendFrom x 0 x.size := by
  obtain ⟨q, rest, rfl⟩ := List.exists_cons_of_ne_nil hl
  simp [concat, List.foldl_append]

/-- The count `K` of pieces of at most `m` rows: `(K - 1) · m` is a row of the track and
`K · m` reaches past its last row. -/
theorem pieceCount_bounds (hm : 0 < m) (hn : 0 < t.size) :
    ((t.size + m - 1) / m - 1) * m < t.size ∧ t.size ≤ (t.size + m - 1) / m * m := by
  have hlo := Nat.div_mul_le_self (t.size + m - 1) m
  have hhi := Nat.lt_div_mul_add (a := t.size + m - 1) hm
  have hK : 0 < (t.size + m - 1) / m := Nat.div_pos (by omega) hm
  rw [Nat.sub_one_mul]
  omega

/-- The first `k + 1` pieces of at most `m` rows, appended, are the rows up to the end of the
last of them, when that one starts inside the track. -/
theorem concat_lengthPieces (hk : k * m < t.size) :
    concat ((List.range (k + 1)).map fun j => t.slice (j * m) (min (j * m + m) t.size)) =
      some (t.slice 0 (min (k * m + m) t.size)) := by
  induction k with
  | zero => simp [concat]
  | succ k ih =>
    -- the first `k + 1` pieces end where the next one starts
    have hprev : k * m < t.size := Nat.lt_of_le_of_lt (Nat.mul_le_mul_right m k.le_succ) hk
    have hend : min (k * m + m) t.size = (k + 1) * m := by
      rw [Nat.succ_mul] at hk ⊢
      omega
    rw [List.range_succ, List.map_append, List.map_singleton,
      concat_append_singleton (by simp), ih hprev, hend, Option.map_some,
      slice_extendFrom_slice (Nat.zero_le _) (by omega) (min_le_right _ _)]

/-- Every piece of at most `m` rows but the last has `m` rows; the last has what remains. -/
theorem size_lengthPiece (hv : t.Valid) (hm : 0 < m) (hk : k < (t.size + m - 1) / m) :
    (t.slice (k * m) (min (k * m + m) t.size)).size =
      if k + 1 < (t.size + m - 1) / m then m else t.size - ((t.size + m - 1) / m - 1) * m := by
  have hn := hv.size_pos
  obtain ⟨hlast, hcover⟩ := pieceCount_bounds hm hn
  rw [size_slice (min_le_right _ _)]
  split
  · -- a piece before the last ends before the last one starts
    have hle : (k + 1) * m ≤ ((t.size + m - 1) / m - 1) * m :=
      Nat.mul_le_mul_right m (by omega)
    rw [Nat.succ_mul] at hle
    omega
  · have hK : k = (t.size + m - 1) / m - 1 := by omega
    subst hK
    rw [Nat.sub_one_mul] at hlast ⊢
    omega

/-- The first `k` pieces of at most `m` rows hold `k · m` rows, when there are more than `k`. -/
theorem sum_take_lengthPieces (hv : t.Valid) (hm : 0 < m) (hk : k < (t.size + m - 1) / m) :
    ((((List.range ((t.size + m - 1) / m)).map fun j =>
      t.slice (j * m) (min (j * m + m) t.size)).take k).map size).sum = k * m := by
  rw [← List.map_take, List.take_range, Nat.min_eq_left hk.le, List.map_map]
  have hfull : ∀ j ∈ List.range k,
      (size ∘ fun j => t.slice (j * m) (min (j * m + m) t.size)) j = m := by
    intro j hj
    have hj' := List.mem_range.1 hj
    simp only [Function.comp_apply, size_lengthPiece hv hm (Nat.lt_trans hj' hk),
      if_pos (by omega : j + 1 < (t.size + m - 1) / m)]
  rw [List.map_congr_left hfull, List.map_const', List.length_range, List.sum_replicate,
    smul_eq_mul]

/-- **Splitting by length cuts a track into pieces of `m` rows.** The split of a valid track of
`n` rows fails exactly for `m = 0`. Otherwise it returns `K` pieces, `K` the least count with
`K · m ≥ n`; appended one after another they are the track, and each keeps its vessel, label
and attributes. The `k`-th piece starts at row `k · m` and has `m` rows, but for the last,
which has the `n - (K - 1) · m` rows that remain, at least one and at most `m`. A piece's start
plus `m` fits an unsigned 64-bit integer when `m` does and `n` fits a signed one, as the row
count of a track in memory does. -/
theorem splitMaxLength_pieces (hv : t.Valid) (m : Nat) :
    (t.splitMaxLength m = .error (.invalidParameter "maximum track length must be > 0") ↔
      m = 0) ∧
    (0 < m → ∃ pieces, t.splitMaxLength m = .ok pieces ∧
      (pieces.length - 1) * m < t.size ∧ t.size ≤ pieces.length * m ∧
      concat pieces = some t ∧
      (∀ q ∈ pieces, q.mmsi = t.mmsi ∧ q.label = t.label ∧ q.info = t.info) ∧
      (∀ k (hk : k < pieces.length), ((pieces.take k).map size).sum = k * m ∧
        pieces[k].size = if k + 1 < pieces.length then m else t.size - (pieces.length - 1) * m) ∧
      0 < t.size - (pieces.length - 1) * m ∧ t.size - (pieces.length - 1) * m ≤ m ∧
      ((t.size : Int) ≤ maxInt64 → m ≤ Decimal.maxUInt64 →
        ∀ k < pieces.length, k * m + m ≤ Decimal.maxUInt64)) := by
  have hn := hv.size_pos
  refine ⟨?_, fun hm => ?_⟩
  · constructor
    · intro h
      by_contra hm
      rw [splitMaxLength_eq (Nat.pos_of_ne_zero hm)] at h
      cases h
    · rintro rfl
      rfl
  obtain ⟨hlast, hcover⟩ := pieceCount_bounds hm hn
  refine ⟨_, splitMaxLength_eq hm, by simpa using hlast, by simpa using hcover, ?_, ?_, ?_,
    ?_, ?_, ?_⟩
  · -- the pieces up to the last one cover the track
    obtain ⟨K, hK⟩ : ∃ K, (t.size + m - 1) / m = K + 1 := ⟨_, (Nat.succ_pred_eq_of_pos
      (Nat.div_pos (by omega) hm)).symm⟩
    rw [hK] at hlast hcover ⊢
    rw [Nat.add_sub_cancel] at hlast
    rw [concat_lengthPieces hlast, show min (K * m + m) t.size = t.size by
      rw [Nat.succ_mul] at hcover; omega, slice_all hv]
  · intro q hq
    obtain ⟨j, -, rfl⟩ := List.mem_map.1 hq
    exact ⟨rfl, rfl, rfl⟩
  · intro k hk
    rw [List.length_map, List.length_range] at hk
    refine ⟨sum_take_lengthPieces hv hm hk, ?_⟩
    simp only [List.getElem_map, List.getElem_range, List.length_map, List.length_range]
    exact size_lengthPiece hv hm hk
  · simp only [List.length_map, List.length_range]
    omega
  · simp only [List.length_map, List.length_range]
    have := Nat.sub_one_mul ((t.size + m - 1) / m) m
    omega
  · -- one piece starts at row `0`; with more, `m` and every start lie below the row count
    intro hfit hmax k hk
    simp only [List.length_map, List.length_range] at hk
    have hpow : Nat.pow 2 63 = 9223372036854775808 := rfl
    have hmax' : Decimal.maxUInt64 = 18446744073709551615 := rfl
    simp only [maxInt64, hpow] at hfit
    have hstart : k * m ≤ ((t.size + m - 1) / m - 1) * m := Nat.mul_le_mul_right m (by omega)
    rcases Nat.lt_or_ge k 1 with hk0 | hk1
    · obtain rfl : k = 0 := by omega
      omega
    · have hm' : m ≤ ((t.size + m - 1) / m - 1) * m := Nat.le_mul_of_pos_left m (by omega)
      omega

/-- Seven positions a second apart. -/
def ticks : Track :=
  { mmsi := 1, time := #[0, 1, 2, 3, 4, 5, 6], lon := Array.replicate 7 0.0,
    lat := Array.replicate 7 0.0, cog := Array.replicate 7 0.0, sog := Array.replicate 7 0.0 }

theorem splitMaxLength_pieces_ticks :
    ticks.Valid ∧
    (ticks.splitMaxLength 3 = .error (.invalidParameter "maximum track length must be > 0") ↔
      3 = 0) ∧
    (0 < 3 → ∃ pieces, ticks.splitMaxLength 3 = .ok pieces ∧
      (pieces.length - 1) * 3 < ticks.size ∧ ticks.size ≤ pieces.length * 3 ∧
      concat pieces = some ticks ∧
      (∀ q ∈ pieces, q.mmsi = ticks.mmsi ∧ q.label = ticks.label ∧ q.info = ticks.info) ∧
      (∀ k (hk : k < pieces.length), ((pieces.take k).map size).sum = k * 3 ∧
        pieces[k].size =
          if k + 1 < pieces.length then 3 else ticks.size - (pieces.length - 1) * 3) ∧
      0 < ticks.size - (pieces.length - 1) * 3 ∧ ticks.size - (pieces.length - 1) * 3 ≤ 3 ∧
      ((ticks.size : Int) ≤ maxInt64 → 3 ≤ Decimal.maxUInt64 →
        ∀ k < pieces.length, k * 3 + 3 ≤ Decimal.maxUInt64)) := by
  have hv : ticks.Valid :=
    ⟨by decide, rfl, rfl, rfl, rfl, (fun _ hz => by cases hz), by decide⟩
  exact ⟨hv, splitMaxLength_pieces hv 3⟩

example : ((ticks.splitMaxLength 3).toOption.map fun ps => ps.map size) = some [3, 3, 1] := by
  decide

end Length

end Track

end Seaway
