import Mathlib
import Seaway.Proofs.Rounding
import Seaway.Proofs.Zone.Construct

/-!
# Cutting a polygon at the antimeridian

A zone whose box leaves `[-180, 180]` in longitude is refused, and the refusal carries its
exterior cut into three parts: west of `-180`, east of `180` and in between. Each cut is one
Sutherland–Hodgman pass against a vertical half-plane, and every vertex it emits is a kept
vertex of the ring or a point on the boundary line (`HalfPlane.mem_clip`), so the west cut
lies at or west of `-180`, the east cut at or east of `180` and the interior cut, clipped on
both sides, between them. A part is kept only with three vertices and positive area.

The west part is moved east by 360 degrees and the east part west by 360 degrees, once.
Rounding keeps the order of sums (`add_le_add_right_of_le`), so the west part ends at or
west of `180` and the east part at or east of `-180`; both land in `[-180, 180]` when the
ring lies in `[-540, 540]`, and zones built from the parts then pass the antimeridian test of
`Domain.new`. A ring that reaches further keeps a part outside: `splitAntimeridian_farWest`.

* `Polygon.splitAntimeridian_parts`: the main statement.
-/

namespace Seaway

open Real64

namespace HalfPlane

theorem mem_edgeOutput {h : HalfPlane} {prev cur q : Point} (hq : q ∈ h.edgeOutput prev cur) :
    q = cur ∧ h.keeps cur.x = true ∨ q.x = h.bound := by
  unfold edgeOutput at hq
  -- a crossing lies on the boundary line, and the edge's end is emitted only when kept
  cases hp : h.keeps prev.x <;> cases hc : h.keeps cur.x <;> simp only [hp, hc] at hq
  · cases hq
  · rcases List.mem_pair.1 hq with rfl | rfl
    · exact .inr rfl
    · exact .inl ⟨rfl, rfl⟩
  · rw [List.mem_singleton.1 hq]
    exact .inr rfl
  · exact .inl ⟨List.mem_singleton.1 hq, rfl⟩

/-- A vertex of a clipped ring is a kept vertex of the ring or lies on the boundary line. -/
theorem mem_clip {h : HalfPlane} {ring : List Point} {q : Point} (hq : q ∈ h.clip ring) :
    q ∈ ring ∧ h.keeps q.x = true ∨ q.x = h.bound := by
  unfold clip at hq
  split at hq
  · cases hq
  · obtain ⟨pc, hpc, hq⟩ := List.mem_flatMap.1 hq
    rcases mem_edgeOutput hq with ⟨rfl, hk⟩ | hb
    · exact .inl ⟨(List.of_mem_zip hpc).2, hk⟩
    · exact .inr hb

theorem le_of_mem_clip_atMost {c : Float} (hc : c.isNaN = false) {ring : List Point} {q : Point}
    (hq : q ∈ (atMost c).clip ring) : q.x ≤ c := by
  rcases mem_clip hq with ⟨-, hk⟩ | hb
  · simpa [keeps] using hk
  · rw [hb]
    exact le_refl hc

theorem le_of_mem_clip_atLeast {c : Float} (hc : c.isNaN = false) {ring : List Point} {q : Point}
    (hq : q ∈ (atLeast c).clip ring) : c ≤ q.x := by
  rcases mem_clip hq with ⟨-, hk⟩ | hb
  · simpa [keeps] using hk
  · rw [hb]
    exact le_refl hc

/-- A vertex of a clipped ring is a vertex of the ring or on the boundary line. -/
theorem mem_or_bound_of_mem_clip {h : HalfPlane} {ring : List Point} {q : Point}
    (hq : q ∈ h.clip ring) : q ∈ ring ∨ q.x = h.bound :=
  (mem_clip hq).imp_left And.left

end HalfPlane

theorem mem_of_mem_closeRing {ring : List Point} {v : Point} (hv : v ∈ closeRing ring) :
    v ∈ ring := by
  cases ring with
  | nil => exact hv
  | cons p rest =>
    simp only [closeRing] at hv
    split at hv
    · exact hv
    · rcases List.mem_append.1 hv with hv | hv
      · exact hv
      · rw [List.mem_singleton.1 hv]
        exact List.mem_cons_self ..

theorem length_le_closeRing (ring : List Point) : ring.length ≤ (closeRing ring).length := by
  cases ring with
  | nil => exact le_rfl
  | cons p rest =>
    simp only [closeRing]
    split <;> simp

namespace Split

theorem mem_openRing {ring : List Point} {q : Point} (hq : q ∈ openRing ring) : q ∈ ring := by
  unfold openRing at hq
  split at hq
  · split at hq
    · exact List.mem_of_mem_dropLast hq
    · exact hq
  · exact hq

/-- A part that is kept has at least three vertices and positive area, and its vertices are
those of the clipped ring, moved by the shift. -/
theorem part_eq_some {ring : List Point} {shift : Float} {p : Polygon}
    (h : part ring shift = some p) :
    3 ≤ p.exterior.length ∧ 0 < p.area ∧ ∀ v ∈ p.exterior, ∃ q ∈ ring, v.x = q.x + shift := by
  unfold part at h
  split at h
  · cases h
  · rename_i hlen
    dsimp only at h
    split at h
    · rename_i harea
      cases h
      refine ⟨?_, harea, fun v hv => ?_⟩
      · have := length_le_closeRing (ring.map fun q => ⟨q.x + shift, q.y⟩)
        simp only [List.length_map] at this
        exact le_trans (by omega) this
      · obtain ⟨q, hq, rfl⟩ := List.mem_map.1 (mem_of_mem_closeRing hv)
        exact ⟨q, hq, rfl⟩
    · cases h

end Split

/-- A zone built from a polygon whose exterior lies in `[-180, 180]` passes the antimeridian
test. -/
theorem Zone.new_within {name : String} {g : Polygon} {z : Zone}
    (hz : Zone.new name g = .ok z) (hg : ∀ v ∈ g.exterior, -180 ≤ v.x ∧ v.x ≤ 180) :
    ¬(z.bbox.xmin < -180.0 ∨ 180.0 < z.bbox.xmax) := by
  -- the box's ends are longitudes of exterior vertices
  obtain ⟨hx, -⟩ := Zone.new_bbox_spans hz
  obtain ⟨vmin, hvmin, hmin⟩ := List.mem_map.1 hx.lo_mem
  obtain ⟨vmax, hvmax, hmax⟩ := List.mem_map.1 hx.hi_mem
  have hlo : -180.0 ≤ z.bbox.xmin := by
    have := (hg vmin hvmin).1
    rwa [hmin] at this
  have hhi : z.bbox.xmax ≤ 180.0 := by
    have := (hg vmax hvmax).2
    rwa [hmax] at this
  rintro (hlt | hlt)
  · exact not_lt_of_le hlo hlt
  · exact not_lt_of_le hhi hlt

namespace Domain

theorem addZone_ne_spansAntimeridian {d : Domain} {z : Zone}
    (hz : ¬(z.bbox.xmin < -180.0 ∨ 180.0 < z.bbox.xmax)) (n : String) (lo hi : Float) (s : Split) :
    d.addZone z ≠ .error (.spansAntimeridian n lo hi s) := by
  by_cases hr : z.name = noZone ∨ z.name = nullText
  · rw [addZone_reserved hr]
    intro h
    cases h
  by_cases hd : z.name ∈ d.zones.toList.map Zone.name
  · rw [addZone_duplicate hr hd]
    intro h
    cases h
  · rw [addZone_accepts hr hd hz]
    intro h
    cases h

theorem foldlM_addZone_ne_spansAntimeridian {zs : List Zone}
    (hzs : ∀ z ∈ zs, ¬(z.bbox.xmin < -180.0 ∨ 180.0 < z.bbox.xmax)) (d : Domain) (n : String)
    (lo hi : Float) (s : Split) : zs.foldlM addZone d ≠ .error (.spansAntimeridian n lo hi s) := by
  induction zs generalizing d with
  | nil =>
    intro h
    cases h
  | cons z zs ih =>
    rw [List.foldlM_cons]
    -- the zone is refused for another cause, or added and the rest folded in
    cases hadd : d.addZone z with
    | error e =>
      intro h
      cases h
      exact addZone_ne_spansAntimeridian (hzs z (List.mem_cons_self ..)) n lo hi s hadd
    | ok d' => exact ih (fun z' hz' => hzs z' (List.mem_cons_of_mem z hz')) d'

/-- A domain of zones within `[-180, 180]` is never refused for spanning the antimeridian. -/
theorem new_ne_spansAntimeridian {name : String} {zs : List Zone}
    (hzs : ∀ z ∈ zs, ¬(z.bbox.xmin < -180.0 ∨ 180.0 < z.bbox.xmax)) (n : String) (lo hi : Float)
    (s : Split) : Domain.new name zs ≠ .error (.spansAntimeridian n lo hi s) := by
  cases zs with
  | nil =>
    intro h
    cases h
  | cons z₀ rest =>
    rw [new_cons]
    intro h
    cases hf : (z₀ :: rest).foldlM addZone { name, zones := #[], bounds := z₀.bbox } with
    | error e =>
      rw [hf] at h
      cases h
      exact foldlM_addZone_ne_spansAntimeridian hzs _ n lo hi s hf
    | ok d =>
      -- the covering box is refused as bounds, never as spanning
      rw [hf] at h
      change d.checkBounds = _ at h
      unfold checkBounds at h
      dsimp only at h
      split at h
      · cases h
      · split at h <;> cases h

end Domain

namespace Polygon

variable {P p : Polygon} {v : Point}

theorem splitAntimeridian_west_eq (P : Polygon) :
    P.splitAntimeridian.west =
      Split.part ((HalfPlane.atMost (-180)).clip (Split.openRing P.exterior)) 360 := rfl

theorem splitAntimeridian_east_eq (P : Polygon) :
    P.splitAntimeridian.east =
      Split.part ((HalfPlane.atLeast 180).clip (Split.openRing P.exterior)) (-360) := rfl

theorem splitAntimeridian_interior_eq (P : Polygon) :
    P.splitAntimeridian.interior = Split.part ((HalfPlane.atMost 180).clip
      ((HalfPlane.atLeast (-180)).clip (Split.openRing P.exterior))) 0 := rfl

/-- The interior cut lies in `[-180, 180]`: it is clipped on both sides. -/
theorem mem_interior_cut {ring : List Point} {q : Point}
    (hq : q ∈ (HalfPlane.atMost 180).clip ((HalfPlane.atLeast (-180)).clip ring)) :
    -180 ≤ q.x ∧ q.x ≤ 180 := by
  refine ⟨?_, HalfPlane.le_of_mem_clip_atMost rfl hq⟩
  rcases HalfPlane.mem_or_bound_of_mem_clip hq with hq | hb
  · exact HalfPlane.le_of_mem_clip_atLeast rfl hq
  · rw [hb]
    decide

/-- The west part, moved back, lies at or west of `180`, and at or east of `-180` when the
exterior lies at or east of `-540`. -/
theorem splitAntimeridian_west (h : P.splitAntimeridian.west = some p) (hv : v ∈ p.exterior) :
    v.x ≤ 180 ∧ ((∀ q ∈ P.exterior, -540 ≤ q.x) → -180 ≤ v.x) := by
  rw [splitAntimeridian_west_eq] at h
  obtain ⟨q, hq, hvq⟩ := (Split.part_eq_some h).2.2 v hv
  rw [hvq]
  refine ⟨?_, fun hfar => ?_⟩
  · calc q.x + 360 ≤ -180 + 360 := add_le_add_right_of_le (HalfPlane.le_of_mem_clip_atMost rfl hq) rfl
      _ = 180 := rfl
  · -- a kept vertex of the exterior, or a crossing at `-180`
    have hq' : -540 ≤ q.x := by
      rcases HalfPlane.mem_or_bound_of_mem_clip hq with hq | hb
      · exact hfar q (Split.mem_openRing hq)
      · rw [hb]
        decide
    calc (-180 : Float) = -540 + 360 := rfl
      _ ≤ q.x + 360 := add_le_add_right_of_le hq' rfl

/-- The east part, moved back, lies at or east of `-180`, and at or west of `180` when the
exterior lies at or west of `540`. -/
theorem splitAntimeridian_east (h : P.splitAntimeridian.east = some p) (hv : v ∈ p.exterior) :
    -180 ≤ v.x ∧ ((∀ q ∈ P.exterior, q.x ≤ 540) → v.x ≤ 180) := by
  rw [splitAntimeridian_east_eq] at h
  obtain ⟨q, hq, hvq⟩ := (Split.part_eq_some h).2.2 v hv
  rw [hvq]
  refine ⟨?_, fun hfar => ?_⟩
  · calc (-180 : Float) = 180 + -360 := rfl
      _ ≤ q.x + -360 := add_le_add_right_of_le (HalfPlane.le_of_mem_clip_atLeast rfl hq) rfl
  · have hq' : q.x ≤ 540 := by
      rcases HalfPlane.mem_or_bound_of_mem_clip hq with hq | hb
      · exact hfar q (Split.mem_openRing hq)
      · rw [hb]
        decide
    calc q.x + -360 ≤ 540 + -360 := add_le_add_right_of_le hq' rfl
      _ = 180 := rfl

/-- The interior part lies in `[-180, 180]`. -/
theorem splitAntimeridian_interior (h : P.splitAntimeridian.interior = some p)
    (hv : v ∈ p.exterior) : -180 ≤ v.x ∧ v.x ≤ 180 := by
  rw [splitAntimeridian_interior_eq] at h
  obtain ⟨q, hq, hvq⟩ := (Split.part_eq_some h).2.2 v hv
  obtain ⟨hlo, hhi⟩ := mem_interior_cut hq
  rw [hvq]
  constructor
  · calc (-180 : Float) = -180 + 0 := rfl
      _ ≤ q.x + 0 := add_le_add_right_of_le hlo rfl
  · calc q.x + 0 ≤ 180 + 0 := add_le_add_right_of_le hhi rfl
      _ = 180 := rfl

/-- **Cutting at the antimeridian.** The west cut lies at or west of `-180`, the east cut at or
east of `180` and the interior cut in `[-180, 180]`; every part kept has at least three
vertices and positive area; once moved back, the west part lies at or west of `180`, the
east part at or east of `-180` and the interior part in `[-180, 180]`. When the exterior lies
in `[-540, 540]`, every part lies in `[-180, 180]`, and a domain of zones built from such
parts is never refused for spanning the antimeridian. -/
theorem splitAntimeridian_parts (P : Polygon) :
    (∀ q ∈ (HalfPlane.atMost (-180)).clip (Split.openRing P.exterior), q.x ≤ -180) ∧
    (∀ q ∈ (HalfPlane.atLeast 180).clip (Split.openRing P.exterior), 180 ≤ q.x) ∧
    (∀ q ∈ (HalfPlane.atMost 180).clip
        ((HalfPlane.atLeast (-180)).clip (Split.openRing P.exterior)), -180 ≤ q.x ∧ q.x ≤ 180) ∧
    (∀ part ∈ [P.splitAntimeridian.west, P.splitAntimeridian.east,
        P.splitAntimeridian.interior], ∀ p, part = some p → 3 ≤ p.exterior.length ∧ 0 < p.area) ∧
    (∀ p, P.splitAntimeridian.west = some p → ∀ v ∈ p.exterior, v.x ≤ 180) ∧
    (∀ p, P.splitAntimeridian.east = some p → ∀ v ∈ p.exterior, -180 ≤ v.x) ∧
    (∀ p, P.splitAntimeridian.interior = some p → ∀ v ∈ p.exterior, -180 ≤ v.x ∧ v.x ≤ 180) ∧
    ((∀ q ∈ P.exterior, -540 ≤ q.x ∧ q.x ≤ 540) →
      (∀ part ∈ [P.splitAntimeridian.west, P.splitAntimeridian.east,
          P.splitAntimeridian.interior], ∀ p, part = some p →
            ∀ v ∈ p.exterior, -180 ≤ v.x ∧ v.x ≤ 180) ∧
      ∀ (name : String) (zs : List Zone),
        (∀ z ∈ zs, ∃ n p, (P.splitAntimeridian.west = some p ∨ P.splitAntimeridian.east = some p ∨
          P.splitAntimeridian.interior = some p) ∧ Zone.new n p = .ok z) →
        ∀ n lo hi s, Domain.new name zs ≠ .error (.spansAntimeridian n lo hi s)) := by
  -- the parts of a polygon of `[-540, 540]`, moved back, lie in `[-180, 180]`
  have hwithin : (∀ q ∈ P.exterior, -540 ≤ q.x ∧ q.x ≤ 540) → ∀ p,
      (P.splitAntimeridian.west = some p ∨ P.splitAntimeridian.east = some p ∨
        P.splitAntimeridian.interior = some p) → ∀ v ∈ p.exterior, -180 ≤ v.x ∧ v.x ≤ 180 := by
    rintro hfar p (h | h | h) v hv
    · obtain ⟨hhi, hlo⟩ := splitAntimeridian_west h hv
      exact ⟨hlo fun q hq => (hfar q hq).1, hhi⟩
    · obtain ⟨hlo, hhi⟩ := splitAntimeridian_east h hv
      exact ⟨hlo, hhi fun q hq => (hfar q hq).2⟩
    · exact splitAntimeridian_interior h hv
  refine ⟨fun q hq => HalfPlane.le_of_mem_clip_atMost rfl hq,
    fun q hq => HalfPlane.le_of_mem_clip_atLeast rfl hq, fun q hq => mem_interior_cut hq,
    ?_, fun p h v hv => (splitAntimeridian_west h hv).1,
    fun p h v hv => (splitAntimeridian_east h hv).1, fun p h v hv => splitAntimeridian_interior h hv,
    fun hfar => ⟨?_, ?_⟩⟩
  · -- every part kept has three vertices and positive area
    intro part hpart p h
    simp only [List.mem_cons, List.not_mem_nil, or_false] at hpart
    rcases hpart with rfl | rfl | rfl
    · rw [splitAntimeridian_west_eq] at h
      exact ⟨(Split.part_eq_some h).1, (Split.part_eq_some h).2.1⟩
    · rw [splitAntimeridian_east_eq] at h
      exact ⟨(Split.part_eq_some h).1, (Split.part_eq_some h).2.1⟩
    · rw [splitAntimeridian_interior_eq] at h
      exact ⟨(Split.part_eq_some h).1, (Split.part_eq_some h).2.1⟩
  · intro part hpart p h
    simp only [List.mem_cons, List.not_mem_nil, or_false] at hpart
    rcases hpart with rfl | rfl | rfl
    · exact hwithin hfar p (.inl h)
    · exact hwithin hfar p (.inr (.inl h))
    · exact hwithin hfar p (.inr (.inr h))
  · -- zones built from such parts have boxes within `[-180, 180]`
    intro name zs hzs n lo hi s
    refine Domain.new_ne_spansAntimeridian (fun z hz => ?_) n lo hi s
    obtain ⟨n', p, hp, hnew⟩ := hzs z hz
    exact Zone.new_within hnew (hwithin hfar p hp)

/-- A square across the antimeridian, from `170` to `190` degrees of longitude. -/
def straddling : Polygon := Polygon.ofRings [⟨170, -5⟩, ⟨170, 5⟩, ⟨190, 5⟩, ⟨190, -5⟩] []

/-- The square across the antimeridian lies in `[-540, 540]`, and its east part, moved back,
lies in `[-180, 180]`. -/
theorem splitAntimeridian_parts_straddling :
    (∀ q ∈ straddling.exterior, -540 ≤ q.x ∧ q.x ≤ 540) ∧
      straddling.splitAntimeridian.east.isSome = true ∧
      ∀ p, straddling.splitAntimeridian.east = some p → ∀ v ∈ p.exterior, -180 ≤ v.x ∧ v.x ≤ 180 := by
  have hfar : ∀ q ∈ straddling.exterior, -540 ≤ q.x ∧ q.x ≤ 540 := by decide +kernel
  refine ⟨hfar, by decide +kernel, fun p hp => ?_⟩
  exact ((splitAntimeridian_parts straddling).2.2.2.2.2.2.2 hfar).1 _ (by simp) p hp

/-- A square two turns west of the antimeridian, from `-600` to `-560` degrees of longitude. -/
def farWest : Polygon := Polygon.ofRings [⟨-600, 0⟩, ⟨-560, 0⟩, ⟨-560, 10⟩, ⟨-600, 10⟩] []

set_option maxRecDepth 8000 in
/-- The square far west is a zone, and its west part, moved east only once, lies from `-240`
to `-200` degrees: outside `[-180, 180]`. -/
theorem splitAntimeridian_farWest :
    (∃ z, Zone.new "A" farWest = .ok z) ∧
      farWest.splitAntimeridian.west =
        some (Polygon.ofRings [⟨-240, 0⟩, ⟨-200, 0⟩, ⟨-200, 10⟩, ⟨-240, 10⟩] []) ∧
      (-240 : Float) < -180 := by
  have hzone : (Zone.new "A" farWest).toBool = true := by decide +kernel
  refine ⟨?_, rfl, by decide⟩
  cases h : Zone.new "A" farWest with
  | ok z => exact ⟨z, rfl⟩
  | error e =>
    rw [h] at hzone
    cases hzone

end Polygon

end Seaway
