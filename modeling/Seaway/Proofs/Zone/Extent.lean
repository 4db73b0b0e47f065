import Mathlib
import Seaway.Zone.Domain
import Seaway.Proofs.Exact

/-!
# The box of a zone

`Zone.new` accepts a polygon whose exterior has finite vertices with latitudes in
`[-90, 90]` and whose area (exterior less holes) is positive, and gives it the box that the
exterior's vertices span. This module reads off what that box is: it spans the vertices'
longitudes and latitudes (`Zone.new_bbox_spans`), so its bounds are ordered with latitudes in
`[-90, 90]` (`Zone.new_bbox_proper`).

Its extent depends on the holes. An exterior whose vertices share one longitude or one
latitude has a shoelace sum that is an exact zero in doubles (`Ring.twiceArea_isZero_of_lon`,
`Ring.twiceArea_isZero_of_lat`), so a polygon without holes whose box is a segment has no area
and is refused: `Zone.new_bbox_lt`. The area test subtracts the holes' areas from the
exterior's in magnitude, so a hole makes an exterior without area count as having one, and
such a zone is accepted with a box that is a segment.
-/

namespace Seaway

open Real64

namespace Box

/-- A coordinate range spans a list of values: its ends are among them and every value lies
between. -/
structure Spans (r : Float × Float) (vs : List Float) : Prop where
  lo_le : ∀ v ∈ vs, r.1 ≤ v
  le_hi : ∀ v ∈ vs, v ≤ r.2
  lo_mem : r.1 ∈ vs
  hi_mem : r.2 ∈ vs

theorem Spans.lo_le_hi {r : Float × Float} {vs : List Float} (h : Spans r vs) : r.1 ≤ r.2 :=
  h.lo_le _ h.hi_mem

theorem spans_single {v : Float} (hv : v.isNaN = false) : Spans (v, v) [v] where
  lo_le u hu := by rw [List.mem_singleton.1 hu]; exact le_refl hv
  le_hi u hu := by rw [List.mem_singleton.1 hu]; exact le_refl hv
  lo_mem := List.mem_singleton_self v
  hi_mem := List.mem_singleton_self v

theorem spans_pair {a b : Float} (hab : a ≤ b) : Spans (a, b) [a, b] where
  lo_le u hu := by
    rcases List.mem_pair.1 hu with rfl | rfl
    · exact le_refl (isNaN_left_of_le hab)
    · exact hab
  le_hi u hu := by
    rcases List.mem_pair.1 hu with rfl | rfl
    · exact hab
    · exact le_refl (isNaN_right_of_le hab)
  lo_mem := List.mem_pair.2 (.inl rfl)
  hi_mem := List.mem_pair.2 (.inr rfl)

theorem Spans.congr {r : Float × Float} {vs ws : List Float} (h : ∀ v, v ∈ vs ↔ v ∈ ws)
    (hr : Spans r vs) : Spans r ws where
  lo_le v hv := hr.lo_le v ((h v).2 hv)
  le_hi v hv := hr.le_hi v ((h v).2 hv)
  lo_mem := (h _).1 hr.lo_mem
  hi_mem := (h _).1 hr.hi_mem

/-- Widening a range by a value spans that value too. -/
theorem spans_widen {r : Float × Float} {vs : List Float} {v : Float} (hr : Spans r vs)
    (hv : v.isNaN = false) : Spans (widen v r) (vs ++ [v]) := by
  have hlo : r.1.isNaN = false := isNaN_left_of_le hr.lo_le_hi
  have hhi : r.2.isNaN = false := isNaN_right_of_le hr.lo_le_hi
  have hmem : ∀ u, u ∈ vs ++ [v] ↔ u ∈ vs ∨ u = v := by simp
  have hold : ∀ u ∈ vs, u ∈ vs ++ [v] := fun u hu => (hmem u).2 (.inl hu)
  unfold widen
  split
  · -- a new maximum
    rename_i hgt
    refine ⟨fun u hu => ?_, fun u hu => ?_, hold _ hr.lo_mem, List.mem_concat_self⟩
    · rcases (hmem u).1 hu with hu | rfl
      · exact hr.lo_le u hu
      · exact le_trans hr.lo_le_hi (le_of_lt hgt)
    · rcases (hmem u).1 hu with hu | rfl
      · exact le_trans (hr.le_hi u hu) (le_of_lt hgt)
      · exact le_refl hv
  split
  · -- a new minimum
    rename_i _ hlt
    refine ⟨fun u hu => ?_, fun u hu => ?_, List.mem_concat_self, hold _ hr.hi_mem⟩
    · rcases (hmem u).1 hu with hu | rfl
      · exact le_trans (le_of_lt hlt) (hr.lo_le u hu)
      · exact le_refl hv
    · rcases (hmem u).1 hu with hu | rfl
      · exact hr.le_hi u hu
      · exact le_trans (le_of_lt hlt) hr.lo_le_hi
  · -- inside the range
    rename_i hgt hlt
    refine ⟨fun u hu => ?_, fun u hu => ?_, hold _ hr.lo_mem, hold _ hr.hi_mem⟩
    · rcases (hmem u).1 hu with hu | rfl
      · exact hr.lo_le u hu
      · exact le_of_not_lt hlo hv hlt
    · rcases (hmem u).1 hu with hu | rfl
      · exact hr.le_hi u hu
      · exact le_of_not_lt hv hhi hgt

theorem spans_foldl_widen (f : Point → Float) {l : List Point} {r : Float × Float}
    {vs : List Float} (hr : Spans r vs) (hl : ∀ q ∈ l, (f q).isNaN = false) :
    Spans (l.foldl (fun r q => widen (f q) r) r) (vs ++ l.map f) := by
  induction l generalizing r vs with
  | nil => simpa using hr
  | cons q l ih =>
    have h := ih (spans_widen hr (hl q (List.mem_cons_self ..)))
      (fun q' hq' => hl q' (List.mem_cons_of_mem _ hq'))
    simpa using h

/-- Growing a range to cover an ordered pair spans the pair too. -/
theorem spans_expand {lo hi a b : Float} {vs : List Float} (hr : Spans (lo, hi) vs)
    (hab : a ≤ b) : Spans (minNum lo a, maxNum hi b) (vs ++ [a, b]) := by
  have hmem : ∀ u, u ∈ vs ++ [a, b] ↔ u ∈ vs ∨ u = a ∨ u = b := by simp
  have ha := isNaN_left_of_le hab
  have hb := isNaN_right_of_le hab
  refine ⟨fun u hu => ?_, fun u hu => ?_, ?_, ?_⟩
  · rcases (hmem u).1 hu with hu | rfl | rfl
    · exact minNum_le_of_left_le (hr.lo_le u hu)
    · exact minNum_le_of_right_le (le_refl ha)
    · exact minNum_le_of_right_le hab
  · rcases (hmem u).1 hu with hu | rfl | rfl
    · exact le_maxNum_of_le_left (hr.le_hi u hu)
    · exact le_maxNum_of_le_right hab
    · exact le_maxNum_of_le_right (le_refl hb)
  · rcases minNum_eq_or lo a with h | h <;> rw [h, hmem]
    · exact .inl hr.lo_mem
    · exact .inr (.inl rfl)
  · rcases maxNum_eq_or hi b with h | h <;> rw [h, hmem]
    · exact .inl hr.hi_mem
    · exact .inr (.inr rfl)

/-- The box of a ring of numbers spans its longitudes and its latitudes. -/
theorem ofRing_spans {ring : List Point} {b : Box} (h : ofRing ring = some b)
    (hnan : ∀ q ∈ ring, q.x.isNaN = false ∧ q.y.isNaN = false) :
    Spans (b.xmin, b.xmax) (ring.map Point.x) ∧ Spans (b.ymin, b.ymax) (ring.map Point.y) := by
  cases ring with
  | nil => cases h
  | cons p rest =>
    cases h
    have hp := hnan p (List.mem_cons_self ..)
    have hrest := fun q hq => hnan q (List.mem_cons_of_mem p hq)
    exact ⟨spans_foldl_widen Point.x (spans_single hp.1) fun q hq => (hrest q hq).1,
      spans_foldl_widen Point.y (spans_single hp.2) fun q hq => (hrest q hq).2⟩

/-- A box whose bounds are ordered and whose latitudes lie in `[-90, 90]`: the box of every
zone that `Zone.new` accepts. -/
structure Proper (b : Box) : Prop where
  xmin_le_xmax : b.xmin ≤ b.xmax
  ymin_le_ymax : b.ymin ≤ b.ymax
  south : -90.0 ≤ b.ymin
  north : b.ymax ≤ 90.0

end Box

namespace Ring

/-- The shoelace sum of a ring is a zero when the cross product of every two vertices taken
relative to a third is. -/
theorem twiceArea_isZero {ring : List Point}
    (h : ∀ p ∈ ring, ∀ a ∈ ring, ∀ b ∈ ring, IsZero (Point.cross (a - p) (b - p))) :
    IsZero (twiceArea ring) := by
  unfold twiceArea
  split
  · rename_i p _ _ _
    split
    · -- the sum stays a zero edge by edge
      refine List.foldlRecOn _ _ isZero_zero fun acc hacc e he => ?_
      obtain ⟨a, b⟩ := e
      have hab := List.of_mem_zip he
      exact isZero_add hacc (h p (List.mem_cons_self ..) a hab.1 b (List.mem_of_mem_tail hab.2))
    · exact isZero_zero
  · exact isZero_zero

/-- A ring whose longitudes all compare equal, with latitudes in `[-180, 180]`, has a zero
shoelace sum: every cross product multiplies a zero difference of longitudes by a finite
difference of latitudes. -/
theorem twiceArea_isZero_of_lon {ring : List Point} (hfin : ∀ q ∈ ring, q.x.isFinite = true)
    (hx : ∀ q ∈ ring, ∀ q' ∈ ring, q.x ≤ q'.x) (hy : ∀ q ∈ ring, -180.0 ≤ q.y ∧ q.y ≤ 180.0) :
    IsZero (twiceArea ring) := by
  refine twiceArea_isZero fun p hp a ha b hb => ?_
  have hdx : ∀ q ∈ ring, IsZero (q.x - p.x) := fun q hq =>
    isZero_sub_of_le_of_le (hfin q hq) (hx q hq p hp) (hx p hp q hq)
  have hdy : ∀ q ∈ ring, (q.y - p.y).isFinite = true := fun q hq =>
    isFinite_sub_of_mem (hy q hq).1 (hy q hq).2 (hy p hp).1 (hy p hp).2
  exact isZero_sub (isZero_mul_left (hdx a ha) (hdy b hb)) (isZero_mul_right (hdy a ha) (hdx b hb))

/-- A ring whose latitudes all compare equal, with longitudes in `[-180, 180]`, has a zero
shoelace sum. -/
theorem twiceArea_isZero_of_lat {ring : List Point} (hfin : ∀ q ∈ ring, q.y.isFinite = true)
    (hy : ∀ q ∈ ring, ∀ q' ∈ ring, q.y ≤ q'.y) (hx : ∀ q ∈ ring, -180.0 ≤ q.x ∧ q.x ≤ 180.0) :
    IsZero (twiceArea ring) := by
  refine twiceArea_isZero fun p hp a ha b hb => ?_
  have hdy : ∀ q ∈ ring, IsZero (q.y - p.y) := fun q hq =>
    isZero_sub_of_le_of_le (hfin q hq) (hy q hq p hp) (hy p hp q hq)
  have hdx : ∀ q ∈ ring, (q.x - p.x).isFinite = true := fun q hq =>
    isFinite_sub_of_mem (hx q hq).1 (hx q hq).2 (hx p hp).1 (hx p hp).2
  exact isZero_sub (isZero_mul_right (hdx a ha) (hdy b hb)) (isZero_mul_left (hdy a ha) (hdx b hb))

end Ring

namespace Polygon

/-- A polygon without holes whose exterior has a zero area has a zero area. -/
theorem area_isZero {p : Polygon} (hz : IsZero (Ring.twiceArea p.exterior)) (hi : p.interiors = []) :
    IsZero p.area := by
  have ha : IsZero (Ring.area p.exterior) := isZero_div_two hz
  unfold area signedArea
  rw [hi]
  dsimp only
  rw [List.foldl_nil]
  split
  · exact isZero_abs (isZero_neg (isZero_abs ha))
  · exact isZero_abs (isZero_abs ha)

end Polygon

namespace Zone

variable {name : String} {g : Polygon} {z : Zone}

/-- A zone that `Zone.new` accepts passed every check of its exterior and its area, and took
the exterior's box. -/
theorem new_eq_ok (h : Zone.new name g = .ok z) :
    (∀ p ∈ g.exterior, p.isFinite = true ∧ -90.0 ≤ p.y ∧ p.y ≤ 90.0) ∧ ¬g.area ≤ 0.0 ∧
      Box.ofRing g.exterior = some z.bbox ∧ z.name = name ∧ z.geometry = g := by
  unfold Zone.new at h
  simp only [bind, Except.bind, throw, throwThe, MonadExceptOf.throw, pure, Except.pure] at h
  -- every refusal is an error, so the run passed each check
  split at h
  · cases h
  split at h
  · cases h
  rename_i hfin
  split at h
  · cases h
  rename_i hlat
  split at h
  · cases h
  split at h
  · cases h
  rename_i harea
  split at h
  · split at h
    · rename_i hbox
      cases h
      simp only [List.any_eq_true, Bool.not_eq_eq_eq_not, Bool.not_true, not_exists, not_and,
        Bool.not_eq_false, decide_eq_false_iff_not, Classical.not_imp, Classical.not_not] at hfin hlat
      exact ⟨fun p hp => ⟨hfin p hp, hlat p hp⟩, harea, hbox, rfl, rfl⟩
    · cases h
  · cases h

/-- The box of a zone that `Zone.new` accepts spans the longitudes and the latitudes of its
exterior. -/
theorem new_bbox_spans (h : Zone.new name g = .ok z) :
    Box.Spans (z.bbox.xmin, z.bbox.xmax) (g.exterior.map Point.x) ∧
      Box.Spans (z.bbox.ymin, z.bbox.ymax) (g.exterior.map Point.y) := by
  obtain ⟨hpts, -, hbox, -, -⟩ := new_eq_ok h
  refine Box.ofRing_spans hbox fun q hq => ?_
  have hf := (hpts q hq).1
  simp only [Point.isFinite, Bool.and_eq_true] at hf
  exact ⟨isNaN_of_isFinite hf.1, isNaN_of_isFinite hf.2⟩

/-- The box of a zone that `Zone.new` accepts is proper: its latitudes are those of exterior
vertices. -/
theorem new_bbox_proper (h : Zone.new name g = .ok z) : z.bbox.Proper := by
  obtain ⟨hpts, -⟩ := new_eq_ok h
  obtain ⟨hxs, hys⟩ := new_bbox_spans h
  -- the latitude bounds are latitudes of vertices
  obtain ⟨qs, hqs, hs⟩ := List.mem_map.1 hys.lo_mem
  obtain ⟨qn, hqn, hn⟩ := List.mem_map.1 hys.hi_mem
  have hsouth : -90.0 ≤ z.bbox.ymin := (show qs.y = z.bbox.ymin from hs) ▸ (hpts qs hqs).2.1
  have hnorth : z.bbox.ymax ≤ 90.0 := (show qn.y = z.bbox.ymax from hn) ▸ (hpts qn hqn).2.2
  exact ⟨hxs.lo_le_hi, hys.lo_le_hi, hsouth, hnorth⟩

/-- **A zone without holes has a box with extent.** A zone that `Zone.new` accepts without
holes, whose box lies in `[-180, 180]` in longitude, has a box that is wider than a point in
both directions: were all its longitudes (or all its latitudes) equal, its shoelace sum
would be an exact zero and `Zone.new` would refuse it for having no area. -/
theorem new_bbox_lt (h : Zone.new name g = .ok z) (hholes : g.interiors = [])
    (hw : -180.0 ≤ z.bbox.xmin) (he : z.bbox.xmax ≤ 180.0) :
    z.bbox.xmin < z.bbox.xmax ∧ z.bbox.ymin < z.bbox.ymax := by
  obtain ⟨hpts, harea, -, -, -⟩ := new_eq_ok h
  obtain ⟨hxs, hys⟩ := new_bbox_spans h
  have hfin : ∀ q ∈ g.exterior, q.x.isFinite = true ∧ q.y.isFinite = true := fun q hq => by
    simpa [Point.isFinite] using (hpts q hq).1
  have hx : ∀ q ∈ g.exterior, z.bbox.xmin ≤ q.x ∧ q.x ≤ z.bbox.xmax := fun q hq =>
    ⟨hxs.lo_le _ (List.mem_map_of_mem hq), hxs.le_hi _ (List.mem_map_of_mem hq)⟩
  have hy : ∀ q ∈ g.exterior, z.bbox.ymin ≤ q.y ∧ q.y ≤ z.bbox.ymax := fun q hq =>
    ⟨hys.lo_le _ (List.mem_map_of_mem hq), hys.le_hi _ (List.mem_map_of_mem hq)⟩
  have hglobe : (-180.0 : Float) ≤ -90.0 ∧ (90.0 : Float) ≤ 180.0 := by decide
  -- a zero shoelace sum would make the area a zero, which `Zone.new` refuses
  have hflat : ¬IsZero (Ring.twiceArea g.exterior) := fun hz =>
    harea (Polygon.area_isZero hz hholes).le_zero
  constructor
  · refine lt_of_not_le (isNaN_right_of_le hxs.lo_le_hi) (isNaN_left_of_le hxs.lo_le_hi)
      fun hle => hflat (Ring.twiceArea_isZero_of_lon (fun q hq => (hfin q hq).1)
        (fun q hq q' hq' => le_trans (le_trans (hx q hq).2 hle) (hx q' hq').1) fun q hq => ?_)
    exact ⟨le_trans hglobe.1 (hpts q hq).2.1, le_trans (hpts q hq).2.2 hglobe.2⟩
  · refine lt_of_not_le (isNaN_right_of_le hys.lo_le_hi) (isNaN_left_of_le hys.lo_le_hi)
      fun hle => hflat (Ring.twiceArea_isZero_of_lat (fun q hq => (hfin q hq).2)
        (fun q hq q' hq' => le_trans (le_trans (hy q hq).2 hle) (hy q' hq').1) fun q hq => ?_)
    exact ⟨le_trans hw (hx q hq).1, le_trans (hx q hq).2 he⟩

end Zone

end Seaway
