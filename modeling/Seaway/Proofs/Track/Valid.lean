import Mathlib
import Seaway.Geodesy
import Seaway.Proofs.Except

/-!
# Valid tracks

`Track.new` checks a track's shape once: at least one row, every column as long as the time
column, times never decreasing. `Track.Valid` names that shape, `new_valid` and
`setInZone_valid` show that the constructors produce it, and the lemmas after them say what
it buys the per-row computations: on a row range whose first and last times are at most
`2 ^ 63 - 1` seconds apart (`RangeFits`), every difference of two times fits a signed 64-bit
integer, so the consecutive distances, seconds and speeds of the range succeed, with one
value fewer than the range has rows.
-/

namespace Seaway

theorem subInt64_eq_ok_iff {a b d : Int} :
    subInt64 a b = .ok d ↔ d = a - b ∧ minInt64 ≤ a - b ∧ a - b ≤ maxInt64 := by
  unfold subInt64 fitsInt64
  split
  · rename_i h
    simp only [decide_eq_true_eq] at h
    simp only [Except.ok.injEq, h, and_true]
    exact eq_comm
  · rename_i h
    simp only [decide_eq_true_eq] at h
    simp only [reduceCtorEq, false_iff, not_and]
    exact fun _ h₁ h₂ => h ⟨h₁, h₂⟩

theorem subInt64_eq_ok {a b : Int} (h₀ : 0 ≤ a - b) (h₁ : a - b ≤ maxInt64) :
    subInt64 a b = .ok (a - b) := by
  have hpow : Nat.pow 2 63 = 9223372036854775808 := rfl
  refine subInt64_eq_ok_iff.2 ⟨rfl, ?_, h₁⟩
  simp only [minInt64, hpow]
  omega

namespace Track

/-- The shape `Track.new` checks: at least one row, every column (the zone column too, when
present) as long as the time column, and times in non-decreasing order. -/
structure Valid (t : Track) : Prop where
  size_pos : 0 < t.size
  lon_size : t.lon.size = t.size
  lat_size : t.lat.size = t.size
  cog_size : t.cog.size = t.size
  sog_size : t.sog.size = t.size
  inZone_size : ∀ z, t.inZone = some z → z.size = t.size
  time_sorted : t.time.toList.Pairwise (· ≤ ·)

/-- The seconds from row `a` to row `b - 1` fit a signed 64-bit integer, so that every
elapsed time between rows of `[a, b)` can be computed. -/
def RangeFits (t : Track) (a b : Nat) : Prop :=
  t.time.getD (b - 1) 0 - t.time.getD a 0 ≤ maxInt64

/-! ## The constructors produce valid tracks -/

theorem pairwise_of_firstDescent_eq_none {l : List Int} (h : firstDescent l = none) :
    l.Pairwise (· ≤ ·) := by
  induction l with
  | nil => exact .nil
  | cons a rest ih =>
    cases rest with
    | nil => simp
    | cons b rest =>
      simp only [firstDescent] at h
      split at h
      · cases h
      · -- `a ≤ b`, and `b` is at most everything after it
        have hab : a ≤ b := by omega
        have hrest := ih (Option.map_eq_none_iff.1 h)
        refine List.Pairwise.cons ?_ hrest
        intro c hc
        rcases List.mem_cons.1 hc with rfl | hc
        · exact hab
        · exact Int.le_trans hab (List.rel_of_pairwise_cons hrest hc)

variable {t t' : Track}

theorem new_valid {mmsi : Nat} {info : VesselInfo} {time : Array Int} {lon lat cog sog : Array Float}
    (h : Track.new mmsi info time lon lat cog sog = .ok t) : t.Valid := by
  unfold Track.new at h
  -- each refused check would have thrown; so the sizes agree and the times do not descend
  have hn : time.size ≠ 0 := by
    intro hn
    simp [hn, throw, throwThe, MonadExceptOf.throw, Bind.bind, Except.bind] at h
  have hlon : lon.size = time.size := by
    by_contra hlon
    simp [hn, hlon, throw, throwThe, MonadExceptOf.throw, Bind.bind, Except.bind, ForIn.forIn, pure, Except.pure] at h
  have hlat : lat.size = time.size := by
    by_contra hlat
    simp [hn, hlon, hlat, throw, throwThe, MonadExceptOf.throw, Bind.bind, Except.bind,
      ForIn.forIn, pure, Except.pure] at h
  have hcog : cog.size = time.size := by
    by_contra hcog
    simp [hn, hlon, hlat, hcog, throw, throwThe, MonadExceptOf.throw, Bind.bind, Except.bind,
      ForIn.forIn, pure, Except.pure] at h
  have hsog : sog.size = time.size := by
    by_contra hsog
    simp [hn, hlon, hlat, hcog, hsog, throw, throwThe, MonadExceptOf.throw, Bind.bind,
      Except.bind, ForIn.forIn, pure, Except.pure] at h
  simp [hn, hlon, hlat, hcog, hsog, Bind.bind, Except.bind, pure, Except.pure, ForIn.forIn] at h
  split at h
  · simp [throw, throwThe, MonadExceptOf.throw] at h
  · rename_i hfd
    cases h
    exact ⟨Nat.pos_of_ne_zero hn, hlon, hlat, hcog, hsog, by simp,
      pairwise_of_firstDescent_eq_none hfd⟩

theorem setInZone_valid {zs : Array String} (hv : t.Valid) (h : t.setInZone zs = .ok t') :
    t'.Valid := by
  unfold setInZone at h
  split at h
  · rename_i hsize
    cases h
    exact ⟨hv.size_pos, hv.lon_size, hv.lat_size, hv.cog_size, hv.sog_size,
      fun z hz => by cases hz; exact hsize, hv.time_sorted⟩
  · cases h

/-! ## Times along a valid track -/

theorem Valid.time_mono (hv : t.Valid) {i j : Nat} (hij : i ≤ j) (hj : j < t.size) :
    t.time.getD i 0 ≤ t.time.getD j 0 := by
  have hj' : j < t.time.size := hj
  have hi : i < t.time.size := by omega
  rcases Nat.eq_or_lt_of_le hij with rfl | hlt
  · exact Int.le_refl _
  · have h := List.pairwise_iff_getElem.1 hv.time_sorted i j (by simpa using hi)
      (by simpa using hj') hlt
    simpa [Array.getElem?_eq_getElem hi, Array.getElem?_eq_getElem hj'] using h

/-- Inside the rows `[a, b)` of a valid track, a later row's time exceeds an earlier one's
by at most the time from row `a` to row `b - 1`. -/
theorem Valid.sub_le_range (hv : t.Valid) {a b i j : Nat} (hai : a ≤ i) (hij : i ≤ j)
    (hjb : j < b) (hb : b ≤ t.size) :
    0 ≤ t.time.getD j 0 - t.time.getD i 0 ∧
      t.time.getD j 0 - t.time.getD i 0 ≤ t.time.getD (b - 1) 0 - t.time.getD a 0 := by
  have h₁ := hv.time_mono hij (by omega)
  have h₂ := hv.time_mono hai (by omega : i < t.size)
  have h₃ := hv.time_mono (by omega : j ≤ b - 1) (by omega)
  omega

/-- A single row spans no time. -/
theorem rangeFits_succ (a : Nat) : t.RangeFits a (a + 1) := by
  have hpow : Nat.pow 2 63 = 9223372036854775808 := rfl
  simp only [RangeFits, Nat.add_sub_cancel, Int.sub_self, maxInt64, hpow]
  omega

/-! ## Consecutive rows -/

theorem checkRange_eq_ok {n a b : Nat} : checkRange n a b = .ok () ↔ a ≤ b ∧ b ≤ n := by
  unfold checkRange
  split
  · simp only [reduceCtorEq, false_iff, not_and, not_le]
    omega
  · split
    · simp only [reduceCtorEq, false_iff, not_and, not_le]
      omega
    · simp only [true_iff]
      omega

theorem exists_of_mem_zip_tail {α : Type} {l : List α} {p : α × α} (h : p ∈ l.zip l.tail) :
    ∃ i, ∃ h : i + 1 < l.length, p = (l[i], l[i + 1]) := by
  obtain ⟨i, hi, rfl⟩ := List.getElem_of_mem h
  simp only [List.length_zip, List.length_tail] at hi
  exact ⟨i, by omega, by simp⟩

variable {a b : Nat}

/-! ## Reading rows -/

/-- Each row of a valid track reads its time, longitude and latitude. -/
theorem Valid.entry_eq_ok (hv : t.Valid) {i : Nat} (hi : i < t.size) :
    entry t.time i = .ok (t.time.getD i 0) ∧ entry t.lon i = .ok (t.lon.getD i 0) ∧
      entry t.lat i = .ok (t.lat.getD i 0) :=
  ⟨entry_eq_ok_getD 0 hi, entry_eq_ok_getD 0 (hv.lon_size ▸ hi),
    entry_eq_ok_getD 0 (hv.lat_size ▸ hi)⟩

/-! ## Checked slices -/

theorem sliceChecked_eq_ok_iff {q : Track} :
    t.sliceChecked a b = .ok q ↔ a < b ∧ b ≤ t.size ∧ t.slice a b = q := by
  unfold sliceChecked
  split <;> simp_all

/-- A non-empty row range inside the track is sliced. -/
theorem sliceChecked_eq_ok (hab : a < b) (hb : b ≤ t.size) : t.sliceChecked a b = .ok (t.slice a b) :=
  sliceChecked_eq_ok_iff.2 ⟨hab, hb, rfl⟩

/-- A row range inside the appended track is appended. -/
theorem extendChecked_eq_ok {o : Track} (hab : a ≤ b) (hb : b ≤ o.size) :
    t.extendChecked o a b = .ok (t.extendFrom o a b) := by
  simp only [extendChecked, checkRange_eq_ok.2 ⟨hab, hb⟩, Except.ok_bind, pure, Except.pure]

theorem extendChecked_eq_ok_iff {o q : Track} :
    t.extendChecked o a b = .ok q ↔ a ≤ b ∧ b ≤ o.size ∧ t.extendFrom o a b = q := by
  constructor
  · intro h
    obtain ⟨⟨⟩, hr, h⟩ := Except.bind_eq_ok.1 h
    obtain ⟨hab, hb⟩ := checkRange_eq_ok.1 hr
    exact ⟨hab, hb, Except.ok.inj h⟩
  · rintro ⟨hab, hb, rfl⟩
    exact extendChecked_eq_ok hab hb

/-- A track of as many rows whose slices are mapped slices has mapped checked slices. -/
theorem sliceChecked_congr {t' : Track} {F : Track → Track} (hsize : t'.size = t.size)
    (hslice : t'.slice a b = F (t.slice a b)) :
    t'.sliceChecked a b = F <$> t.sliceChecked a b := by
  unfold sliceChecked
  rw [hsize]
  split
  · rw [hslice]
    rfl
  · rfl

/-- Appending from a track of as many rows, where the appends are mapped appends, maps the
checked appends. -/
theorem extendChecked_congr {q q' o o' : Track} {F : Track → Track} (hsize : o'.size = o.size)
    (hext : q'.extendFrom o' a b = F (q.extendFrom o a b)) :
    q'.extendChecked o' a b = F <$> q.extendChecked o a b := by
  unfold extendChecked
  rw [hsize]
  cases checkRange o.size a b with
  | error e => rfl
  | ok u =>
    show Except.ok (q'.extendFrom o' a b) = Except.ok (F (q.extendFrom o a b))
    rw [hext]

/-! ## Consecutive rows of a range -/

theorem consecutiveDistances_ok (hv : t.Valid) (hab : a ≤ b) (hb : b ≤ t.size) :
    ∃ m, t.consecutiveDistances a b = .ok m ∧ m.size = b - a - 1 := by
  simp only [consecutiveDistances, checkRange_eq_ok.2 ⟨hab, hb⟩, Bind.bind, Except.bind, pure,
    Except.pure, Except.ok.injEq, exists_eq_left', List.size_toArray, List.length_map,
    List.length_zip, List.length_tail, Array.length_toList, Array.size_zip, Array.size_extract,
    hv.lon_size, hv.lat_size]
  omega

theorem consecutiveDistances_eq_ok (hv : t.Valid) {m : Array Float}
    (h : t.consecutiveDistances a b = .ok m) : a ≤ b ∧ b ≤ t.size ∧ m.size = b - a - 1 := by
  obtain ⟨u, hr, -⟩ := Except.bind_eq_ok.1 h
  obtain ⟨hab, hb⟩ := checkRange_eq_ok.1 hr
  obtain ⟨m', h', hm'⟩ := consecutiveDistances_ok hv hab hb
  rw [h'] at h
  cases h
  exact ⟨hab, hb, hm'⟩

theorem consecutiveSeconds_ok (hv : t.Valid) (hab : a ≤ b) (hb : b ≤ t.size)
    (hfit : t.RangeFits a b) : ∃ s, t.consecutiveSeconds a b = .ok s ∧ s.size = b - a - 1 := by
  let ts := (t.time.extract a b).toList
  -- each pair of consecutive times lies inside the range, so its difference fits
  have hpairs : ∀ p ∈ ts.zip ts.tail, subInt64 p.2 p.1 = .ok (p.2 - p.1) := by
    intro p hp
    obtain ⟨i, hi, rfl⟩ := exists_of_mem_zip_tail hp
    have hlen : ts.length = b - a := by simp [ts, size] at hb ⊢; omega
    have hgap := hv.sub_le_range (Nat.le_add_right a i) (Nat.le_succ (a + i)) (by omega) hb
    have hts : ∀ k (hk : k < ts.length), ts[k] = t.time.getD (a + k) 0 := by
      intro k hk
      simp [ts, Array.getElem?_eq_getElem (by simp [size] at hb; omega : a + k < t.time.size)]
    rw [hts i (by omega), hts (i + 1) hi]
    exact subInt64_eq_ok hgap.1 (Int.le_trans hgap.2 hfit)
  obtain ⟨ds, hds⟩ := Except.mapM_ok_of_forall (f := fun (p : Int × Int) => subInt64 p.2 p.1)
    fun p hp => ⟨_, hpairs p hp⟩
  have hlen := (Except.mapM_eq_ok_iff.1 hds).length_eq
  refine ⟨(ds.map fun d => Real64.atLeast (Binary64.ofInt d) Geodesy.minElapsed).toArray, ?_, ?_⟩
  · simp only [consecutiveSeconds, checkRange_eq_ok.2 ⟨hab, hb⟩, Bind.bind, Except.bind]
    -- the pair pattern of the definition is the projections of `hds` up to eta
    exact Except.bind_eq_ok.2 ⟨ds, hds, rfl⟩
  · simp only [List.size_toArray, List.length_map, ← hlen, List.length_zip, List.length_tail]
    simp [ts, size] at hb ⊢
    omega

theorem consecutiveSeconds_eq_ok {s : Array Float}
    (h : t.consecutiveSeconds a b = .ok s) : a ≤ b ∧ b ≤ t.size ∧ s.size = b - a - 1 := by
  obtain ⟨⟨⟩, hr, h⟩ := Except.bind_eq_ok.1 h
  obtain ⟨hab, hb⟩ := checkRange_eq_ok.1 hr
  obtain ⟨ds, hds, h⟩ := Except.bind_eq_ok.1 h
  cases h
  have hlen := (Except.mapM_eq_ok_iff.1 hds).length_eq
  refine ⟨hab, hb, ?_⟩
  simp only [List.size_toArray, List.length_map, ← hlen, List.length_zip, List.length_tail]
  simp [size] at hb ⊢
  omega

theorem consecutiveKnots_ok (hv : t.Valid) (hab : a ≤ b) (hb : b ≤ t.size)
    (hfit : t.RangeFits a b) : ∃ s, t.consecutiveKnots a b = .ok s ∧ s.size = b - a - 1 := by
  obtain ⟨m, hm, hms⟩ := consecutiveDistances_ok hv hab hb
  obtain ⟨e, he, hes⟩ := consecutiveSeconds_ok hv hab hb hfit
  refine ⟨(m.zip e).map fun x => x.1 / x.2 * Geodesy.knotsPerMps, ?_, ?_⟩
  · simp only [consecutiveKnots, hm, he, Bind.bind, Except.bind, pure, Except.pure]
  · simp [hms, hes]

theorem consecutiveKnots_eq_ok (hv : t.Valid) {s : Array Float}
    (h : t.consecutiveKnots a b = .ok s) : a ≤ b ∧ b ≤ t.size ∧ s.size = b - a - 1 := by
  obtain ⟨m, hm, h⟩ := Except.bind_eq_ok.1 h
  obtain ⟨e, he, h⟩ := Except.bind_eq_ok.1 h
  cases h
  obtain ⟨hab, hb, hms⟩ := consecutiveDistances_eq_ok hv hm
  obtain ⟨-, -, hes⟩ := consecutiveSeconds_eq_ok he
  exact ⟨hab, hb, by simp [hms, hes]⟩

end Track

end Seaway
