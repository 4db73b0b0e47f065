import Mathlib
import Seaway.Track.Pathway
import Seaway.Proofs.Track.Valid

/-!
# Tracks made of chosen rows

`Track.gather t rows` is the track of the rows `rows` of `t`, in that order: the vessel,
label and attributes of `t`, each column read at those rows, and the zone column when `t`
has one. Slicing a row range out of a valid track and appending one to a gathered track are
gathers of consecutive rows, and the last position of a gathered track is that of its last
row; so a computation that only slices, appends and reads last positions can be followed on
lists of row numbers alone.

* `select_eq`: a mask keeps the gather of the rows where it is set, or nothing;
* `slice_extendFrom_select`: appending the next row range to a slice extends the slice, all
  the rows are the track, and a mask keeps nothing exactly when no entry is set.
-/

namespace Seaway

namespace Track

/-- The rows `rows` of a track, in that order, with the zone column when it has one. -/
def gather (t : Track) (rows : List Nat) : Track :=
  { t with
    time := (rows.map (t.time.getD · 0)).toArray, lon := (rows.map (t.lon.getD · 0)).toArray,
    lat := (rows.map (t.lat.getD · 0)).toArray, cog := (rows.map (t.cog.getD · 0)).toArray,
    sog := (rows.map (t.sog.getD · 0)).toArray,
    inZone := t.inZone.map fun z => (rows.map (z.getD · "")).toArray }

variable {t : Track} {rows : List Nat} {a b : Nat}

@[simp] theorem size_gather : (t.gather rows).size = rows.length := by
  simp [gather, size]

/-- The entries `[a, b)` of an array, read one by one. -/
theorem extract_eq_map {α : Type} (xs : Array α) (d : α) (hb : b ≤ xs.size) :
    xs.extract a b = ((List.range' a (b - a)).map (xs.getD · d)).toArray := by
  apply Array.ext
  · simp only [Array.size_extract, List.size_toArray, List.length_map, List.length_range']
    omega
  · intro i h₁ h₂
    simp only [Array.size_extract] at h₁
    simp [Array.getElem?_eq_getElem (by omega : a + i < xs.size)]

theorem slice_eq_gather (hv : t.Valid) (hb : b ≤ t.size) :
    t.slice a b = t.gather (List.range' a (b - a)) := by
  simp only [slice, gather, extract_eq_map _ 0 (hv.lon_size ▸ hb), extract_eq_map _ 0 hb,
    extract_eq_map _ 0 (hv.lat_size ▸ hb), extract_eq_map _ 0 (hv.cog_size ▸ hb),
    extract_eq_map _ 0 (hv.sog_size ▸ hb)]
  congr 1
  cases hz : t.inZone with
  | none => rfl
  | some z =>
    simp only [Option.map_some, extract_eq_map z "" ((hv.inZone_size z hz) ▸ hb)]

/-- Slicing all the rows of a valid track gives the track back. -/
theorem slice_all (hv : t.Valid) : t.slice 0 t.size = t := by
  have hz : t.inZone.map (·.extract 0 t.size) = t.inZone := by
    cases hzs : t.inZone with
    | none => rfl
    | some z => simp [Array.extract_eq_self_of_le (hv.inZone_size z hzs).le]
  unfold slice
  rw [hz, Array.extract_eq_self_of_le (j := t.size) (le_refl t.time.size),
    Array.extract_eq_self_of_le hv.lon_size.le, Array.extract_eq_self_of_le hv.lat_size.le,
    Array.extract_eq_self_of_le hv.cog_size.le, Array.extract_eq_self_of_le hv.sog_size.le]

/-- Appending the rows `[a, b)` of a valid track to a track gathered from it gathers them
too. -/
theorem extendFrom_gather (hv : t.Valid) (hb : b ≤ t.size) :
    (t.gather rows).extendFrom t a b = t.gather (rows ++ List.range' a (b - a)) := by
  simp only [extendFrom, gather, extract_eq_map _ 0 (hv.lon_size ▸ hb), extract_eq_map _ 0 hb,
    extract_eq_map _ 0 (hv.lat_size ▸ hb), extract_eq_map _ 0 (hv.cog_size ▸ hb),
    extract_eq_map _ 0 (hv.sog_size ▸ hb), List.map_append, List.append_toArray]
  congr 1
  cases hz : t.inZone with
  | none => rfl
  | some z =>
    simp only [Option.map_some, extract_eq_map z "" ((hv.inZone_size z hz) ▸ hb),
      List.append_toArray]

/-- The last position of a gathered track is that of its last row. -/
theorem last_gather (hrows : rows ≠ []) :
    Anchor.last (t.gather rows) = Anchor.ofRow t (rows.getLast hrows) := by
  have hlen : rows.length - 1 < rows.length := by
    have := List.length_pos_iff.2 hrows
    omega
  simp [Anchor.last, Anchor.ofRow, gather, size, List.getElem?_eq_getElem hlen,
    List.getLast_eq_getElem]

end Track

/-! ## Reading positions -/

namespace Anchor

variable {t : Track} {i : Nat}

/-- A row that every column reaches is read as its position. -/
theorem atRow_eq_ok (hlon : i < t.lon.size) (hlat : i < t.lat.size) (htime : i < t.size) :
    atRow t i = .ok (ofRow t i) := by
  simp only [atRow, ofRow, entry_eq_ok_getD 0 hlon, entry_eq_ok_getD 0 hlat,
    entry_eq_ok_getD 0 htime, Except.ok_bind]
  rfl

theorem atRow_eq_ok_iff {x : Anchor} :
    atRow t i = .ok x ↔ i < t.lon.size ∧ i < t.lat.size ∧ i < t.size ∧ x = ofRow t i := by
  constructor
  · intro h
    simp only [atRow] at h
    obtain ⟨lon, hlon, h⟩ := Except.bind_eq_ok.1 h
    obtain ⟨lat, hlat, h⟩ := Except.bind_eq_ok.1 h
    obtain ⟨time, htime, h⟩ := Except.bind_eq_ok.1 h
    obtain ⟨h₁, rfl⟩ := entry_eq_ok_iff.1 hlon
    obtain ⟨h₂, rfl⟩ := entry_eq_ok_iff.1 hlat
    obtain ⟨h₃, rfl⟩ := entry_eq_ok_iff.1 htime
    refine ⟨h₁, h₂, h₃, ?_⟩
    rw [← Except.ok.inj h]
    simp [ofRow, Array.getD_eq_getD_getElem?, h₁, h₂, h₃]
  · rintro ⟨h₁, h₂, h₃, rfl⟩
    exact atRow_eq_ok h₁ h₂ h₃

/-- The last row of a track with rows that every column reaches is read as its last
position. -/
theorem lastRow_eq_ok (hpos : 0 < t.size) (hlon : t.lon.size = t.size)
    (hlat : t.lat.size = t.size) : lastRow t = .ok (last t) := by
  have hlt : t.size - 1 < t.size := by omega
  rw [lastRow, subSize_eq_ok hpos, Except.ok_bind]
  exact atRow_eq_ok (hlon ▸ hlt) (hlat ▸ hlt) hlt

/-- The last row of a non-empty gather is read as its last position. -/
theorem lastRow_gather {rows : List Nat} (hrows : rows ≠ []) :
    lastRow (t.gather rows) = .ok (last (t.gather rows)) :=
  lastRow_eq_ok (by simpa using List.length_pos_iff.2 hrows) (by simp [Track.gather, Track.size])
    (by simp [Track.gather, Track.size])

end Anchor

namespace Track

variable {t : Track} {rows : List Nat} {a b : Nat}

/-- Every row of a valid track is read as its position. -/
theorem Valid.atRow_eq_ok (hv : t.Valid) {i : Nat} (hi : i < t.size) :
    Anchor.atRow t i = .ok (Anchor.ofRow t i) :=
  Anchor.atRow_eq_ok (hv.lon_size ▸ hi) (hv.lat_size ▸ hi) hi

/-- Increasing rows of a valid track have non-decreasing times. -/
theorem gather_time_sorted (hv : t.Valid) (hs : rows.Pairwise (· < ·))
    (hr : ∀ r ∈ rows, r < t.size) : (t.gather rows).time.toList.Pairwise (· ≤ ·) := by
  simp only [gather, List.toList_toArray, List.pairwise_map]
  exact hs.imp_of_mem fun {i j} _ hj hij => hv.time_mono hij.le (hr j hj)

/-! ## Rows kept by a mask -/

section Mask

variable {α : Type} {keep : Array Bool}

/-- An array is its entries read one by one. -/
theorem toList_eq_map_getD (xs : Array α) (dflt : α) :
    xs.toList = (List.range xs.size).map (xs.getD · dflt) := by
  apply List.ext_getElem (by simp)
  intro i h₁ h₂
  simp [Array.getElem?_eq_getElem (by simpa using h₁ : i < xs.size)]

/-- The entries of a column that a mask keeps: the first components of the pairs of column
and mask entries whose mask entry is set. -/
theorem toList_pick (col : Array α) (keep : Array Bool) :
    (pick col keep).toList = ((col.toList.zip keep.toList).filter (·.2)).map (·.1) := by
  unfold pick
  simp only [Array.toList_filterMap, Array.toList_zip]
  induction col.toList.zip keep.toList with
  | nil => rfl
  | cons x l ih =>
    obtain ⟨v, k⟩ := x
    cases k <;> simp [ih]

/-- A mask keeps, in order, the entries of a column at the rows where it is set. -/
theorem pick_eq (col : Array α) (keep : Array Bool) (dflt : α) (h : col.size = keep.size) :
    pick col keep =
      (((List.range keep.size).filter (keep.getD · false)).map (col.getD · dflt)).toArray := by
  apply Array.ext'
  rw [toList_pick, toList_eq_map_getD col dflt, toList_eq_map_getD keep false, h, List.zip_map',
    List.filter_map, List.map_map]
  rfl

/-- A mask has an entry set exactly when it is set at one of its rows. -/
theorem any_id_iff : keep.any id = true ↔ ∃ i < keep.size, keep.getD i false = true := by
  rw [Array.any_eq_true]
  constructor
  · rintro ⟨i, hi, h⟩
    exact ⟨i, hi, by simpa [Array.getElem?_eq_getElem hi] using h⟩
  · rintro ⟨i, hi, h⟩
    exact ⟨i, hi, by simpa [Array.getElem?_eq_getElem hi] using h⟩

/-- A mask has an entry set exactly when it keeps some row. -/
theorem any_id_iff_ne_nil :
    keep.any id = true ↔ (List.range keep.size).filter (keep.getD · false) ≠ [] := by
  rw [any_id_iff, Ne, List.filter_eq_nil_iff]
  simp only [List.mem_range, not_forall, Bool.not_eq_true, Bool.not_eq_false, exists_prop]

/-- A mask as long as a valid track keeps nothing when no entry is set, and otherwise the
rows where an entry is set, in order. -/
theorem select_eq (hv : t.Valid) (hk : keep.size = t.size) :
    t.select keep = if keep.any id then
      some (t.gather ((List.range t.size).filter (keep.getD · false))) else none := by
  unfold select
  split
  · -- every column, the zone column too, keeps its entries at the set rows
    have hcol : ∀ {β : Type} (col : Array β) (dflt : β), col.size = t.size →
        pick col keep =
          (((List.range t.size).filter (keep.getD · false)).map (col.getD · dflt)).toArray := by
      intro β col dflt hc
      rw [pick_eq col keep dflt (hc.trans hk.symm), hk]
    simp only [gather, hcol t.time 0 rfl, hcol t.lon 0 hv.lon_size, hcol t.lat 0 hv.lat_size,
      hcol t.cog 0 hv.cog_size, hcol t.sog 0 hv.sog_size]
    cases hz : t.inZone with
    | none => rfl
    | some z => simp only [Option.map_some, hcol z "" (hv.inZone_size z hz)]
  · rfl

end Mask

/-! ## Slices, appends and masks -/

/-- The rows `[a, b)` of a track with its rows `[b, c)` appended are its rows `[a, c)`. -/
theorem slice_extendFrom {c : Nat} (hab : a ≤ b) (hbc : b ≤ c) :
    (t.slice a b).extendFrom t b c = t.slice a c := by
  have hcol : ∀ {α : Type} (xs : Array α), xs.extract a b ++ xs.extract b c = xs.extract a c := by
    intro α xs
    rw [Array.extract_append_extract, Nat.min_eq_left hab, Nat.max_eq_right hbc]
  simp only [slice, extendFrom, hcol]
  cases t.inZone <;> simp only [Option.map_none, Option.map_some, hcol]

/-- **Slices, appends and masks are lists of rows.** For a valid track: its rows `[a, b)` with
its rows `[b, c)` appended are its rows `[a, c)`, with a zone column exactly when the track has
one, and its rows `[0, n)` are the track itself; a mask as long as the track keeps nothing
exactly when no entry is set, and otherwise keeps the rows where an entry is set, in order,
with the track's vessel, label and attributes. -/
theorem slice_extendFrom_select (hv : t.Valid) :
    (∀ a b c, a ≤ b → b ≤ c → (t.slice a b).extendFrom t b c = t.slice a c ∧
      ((t.slice a b).extendFrom t b c).inZone.isSome = t.inZone.isSome) ∧
    t.slice 0 t.size = t ∧
    ∀ keep : Array Bool, keep.size = t.size →
      (t.select keep = none ↔ ∀ i < t.size, keep.getD i false = false) ∧
      ((∃ i < t.size, keep.getD i false = true) →
        t.select keep = some (t.gather ((List.range t.size).filter (keep.getD · false)))) := by
  refine ⟨fun a b c hab hbc => ?_, slice_all hv, fun keep hk => ?_⟩
  · rw [slice_extendFrom hab hbc]
    exact ⟨rfl, by simp [slice]⟩
  · rw [select_eq hv hk, ← hk]
    by_cases hany : keep.any id = true
    · obtain ⟨i, hi, hset⟩ := any_id_iff.1 hany
      rw [if_pos hany]
      refine ⟨⟨fun h => absurd h (by simp), fun hnone => ?_⟩, fun _ => rfl⟩
      exact absurd (hnone i hi) (by simp [hset])
    · -- no entry is set
      have hnone : ∀ i < keep.size, keep.getD i false = false := by
        intro i hi
        by_contra h
        exact hany (any_id_iff.2 ⟨i, hi, by simpa using h⟩)
      rw [if_neg hany]
      refine ⟨⟨fun _ => hnone, fun _ => rfl⟩, fun ⟨i, hi, hset⟩ => ?_⟩
      exact absurd hset (by simp [hnone i hi])

/-- Three rows a minute apart, the first two in zone `A` and the last in zone `B`. -/
def passage : Track :=
  { mmsi := 1, time := #[0, 60, 120], lon := #[0.0, 0.5, 1.0], lat := #[0.0, 0.0, 0.0],
    cog := #[90.0, 90.0, 90.0], sog := #[10.0, 10.0, 10.0], inZone := some #["A", "A", "B"] }

theorem slice_extendFrom_select_passage :
    passage.Valid ∧
      ((∀ a b c, a ≤ b → b ≤ c → (passage.slice a b).extendFrom passage b c = passage.slice a c ∧
        ((passage.slice a b).extendFrom passage b c).inZone.isSome = passage.inZone.isSome) ∧
      passage.slice 0 passage.size = passage ∧
      ∀ keep : Array Bool, keep.size = passage.size →
        (passage.select keep = none ↔ ∀ i < passage.size, keep.getD i false = false) ∧
        ((∃ i < passage.size, keep.getD i false = true) →
          passage.select keep =
            some (passage.gather ((List.range passage.size).filter (keep.getD · false))))) := by
  have hv : passage.Valid :=
    ⟨by decide, rfl, rfl, rfl, rfl, (fun z hz => by cases hz; rfl), by decide⟩
  exact ⟨hv, slice_extendFrom_select hv⟩

end Track

end Seaway
