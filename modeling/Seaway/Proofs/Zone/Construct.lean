import Mathlib
import Seaway.Proofs.Zone.Extent
import Seaway.Proofs.Zone.Locate

/-!
# Building a domain

`Domain.new` refuses an empty list of zones, then adds the zones one by one to a domain
whose box starts as the first zone's, refusing at the first zone whose name is reserved or
taken or whose box leaves `[-180, 180]` in longitude, and last checks the covering box.
`Domain.new_refusals_and_cover` says what it returns for zones that `Zone.new` accepts:

* the first refusal, in list order, with the fault of the first failing check;
* without refusals, a domain exactly when the zones' boxes together have an extent in both
  directions (`Extended`), and otherwise an invalid covering box: zones without holes always
  have one (`Zone.new_bbox_lt`), but a zone whose exterior has no area can be accepted with a
  hole and a box that is a segment (`new_holedSegment_invalidBounds`);
* a built domain keeps the zones in order, finds each zone by its name, and has as box the
  smallest covering the zones' boxes (`Box.Spans` of the ends of their ranges).
-/

namespace Seaway

open Real64

namespace Domain

variable {d : Domain} {z : Zone}

/-! ## Adding zones -/

section AddZone

theorem addZone_reserved (hr : z.name = noZone ∨ z.name = nullText) :
    d.addZone z = .error (.invalidParameter ("zone name '" ++ z.name ++ "' is reserved")) := by
  simp [addZone, hr, throw, throwThe, MonadExceptOf.throw, Bind.bind, Except.bind]

theorem addZone_duplicate (hr : ¬(z.name = noZone ∨ z.name = nullText))
    (hd : z.name ∈ d.zones.toList.map Zone.name) : d.addZone z = .error (.duplicateZone z.name) := by
  have hany : d.zones.any (·.name = z.name) = true := by
    obtain ⟨z', hz', hname⟩ := List.mem_map.1 hd
    rw [← Array.any_toList]
    exact List.any_eq_true.2 ⟨z', hz', by simp [hname]⟩
  simp [addZone, hr, hany, throw, throwThe, MonadExceptOf.throw, Bind.bind, Except.bind]

theorem any_name_eq_false (hd : z.name ∉ d.zones.toList.map Zone.name) :
    d.zones.any (·.name = z.name) = false := by
  rw [← Array.any_toList, List.any_eq_false]
  intro z' hz' hname
  exact hd (List.mem_map.2 ⟨z', hz', by simpa using hname⟩)

theorem addZone_antimeridian (hr : ¬(z.name = noZone ∨ z.name = nullText))
    (hd : z.name ∉ d.zones.toList.map Zone.name) (hs : z.bbox.xmin < -180.0 ∨ 180.0 < z.bbox.xmax) :
    d.addZone z = .error (.spansAntimeridian z.name z.bbox.xmin z.bbox.xmax
      z.geometry.splitAntimeridian) := by
  simp [addZone, hr, any_name_eq_false hd, hs, throw, throwThe, MonadExceptOf.throw, Bind.bind,
    Except.bind]

theorem addZone_accepts (hr : ¬(z.name = noZone ∨ z.name = nullText))
    (hd : z.name ∉ d.zones.toList.map Zone.name) (hs : ¬(z.bbox.xmin < -180.0 ∨ 180.0 < z.bbox.xmax)) :
    d.addZone z = .ok { d with zones := d.zones.push z, bounds := d.bounds.expand z.bbox } := by
  simp [addZone, hr, any_name_eq_false hd, hs, pure, Except.pure]

end AddZone

/-- Zones that `addZone` takes one after the other: none has a reserved name or the name of
another, and none has a box beyond `[-180, 180]` in longitude. -/
structure Admissible (zs : List Zone) : Prop where
  not_reserved : ∀ z ∈ zs, ¬(z.name = noZone ∨ z.name = nullText)
  names_nodup : (zs.map Zone.name).Nodup
  within : ∀ z ∈ zs, ¬(z.bbox.xmin < -180.0 ∨ 180.0 < z.bbox.xmax)

theorem Admissible.tail {zs : List Zone} (h : Admissible (z :: zs)) : Admissible zs where
  not_reserved z' hz' := h.not_reserved z' (List.mem_cons_of_mem z hz')
  names_nodup := (List.nodup_cons.1 h.names_nodup).2
  within z' hz' := h.within z' (List.mem_cons_of_mem z hz')

/-- Adding zones one by one appends them in order and grows the box over theirs. -/
theorem foldlM_addZone_eq_ok {zs : List Zone} {d' : Domain} (h : zs.foldlM addZone d = .ok d') :
    d'.name = d.name ∧ d'.zones.toList = d.zones.toList ++ zs ∧
      d'.bounds = zs.foldl (fun b z => b.expand z.bbox) d.bounds := by
  induction zs generalizing d with
  | nil =>
    cases h
    exact ⟨rfl, by simp, rfl⟩
  | cons z zs ih =>
    rw [List.foldlM_cons, Except.bind_eq_ok] at h
    obtain ⟨d₁, h₁, h₂⟩ := h
    obtain ⟨-, -, rfl⟩ := addZone_eq_ok h₁
    obtain ⟨hname, hzones, hbounds⟩ := ih h₂
    exact ⟨hname, by simp [hzones], by simp [hbounds]⟩

/-- Adding admissible zones whose names are free succeeds. -/
theorem foldlM_addZone_admissible {zs : List Zone} (hzs : Admissible zs)
    (hfree : ∀ z ∈ zs, z.name ∉ d.zones.toList.map Zone.name) :
    ∃ d', zs.foldlM addZone d = .ok d' := by
  induction zs generalizing d with
  | nil => exact ⟨d, rfl⟩
  | cons z zs ih =>
    have hz := List.mem_cons_self (a := z) (l := zs)
    rw [List.foldlM_cons, addZone_accepts (hzs.not_reserved z hz) (hfree z hz) (hzs.within z hz)]
    -- the later zones' names are free after `z`: they differ from it and from the domain's
    have hfree' : ∀ z' ∈ zs, z'.name ∉ (d.zones.push z).toList.map Zone.name := by
      intro z' hz' hmem
      simp only [Array.toList_push, List.map_append, List.map_cons, List.map_nil,
        List.mem_append, List.mem_singleton] at hmem
      rcases hmem with hmem | hmem
      · exact hfree z' (List.mem_cons_of_mem z hz') hmem
      · exact (List.nodup_cons.1 hzs.names_nodup).1 (hmem ▸ List.mem_map_of_mem hz')
    exact ih (d := { d with zones := d.zones.push z, bounds := d.bounds.expand z.bbox }) hzs.tail
      hfree'

/-- The first zone that `addZone` refuses after admissible ones gives its fault. -/
theorem foldlM_addZone_refused {pre post : List Zone} {e : Fault} (hpre : Admissible pre)
    (hz : ∀ d' : Domain, d'.zones.toList = pre → d'.addZone z = .error e) :
    (pre ++ z :: post).foldlM addZone { name := d.name, zones := #[], bounds := d.bounds } =
      .error e := by
  obtain ⟨d', hd'⟩ := foldlM_addZone_admissible
    (d := { name := d.name, zones := #[], bounds := d.bounds }) hpre (by simp)
  have hzones := (foldlM_addZone_eq_ok hd').2.1
  rw [List.foldlM_append, hd']
  simp [List.foldlM_cons, hz d' (by simpa using hzones), Bind.bind, Except.bind]

/-! ## The covering box -/

section Cover

open Box

variable {zs : List Zone}

/-- The ends of the longitude ranges of the zones' boxes. -/
abbrev lonEnds (zs : List Zone) : List Float := zs.flatMap fun z => [z.bbox.xmin, z.bbox.xmax]

/-- The ends of the latitude ranges of the zones' boxes. -/
abbrev latEnds (zs : List Zone) : List Float := zs.flatMap fun z => [z.bbox.ymin, z.bbox.ymax]

/-- Growing a box over proper boxes spans their ends. -/
theorem spans_foldl_expand {b : Box} {vs ws : List Float} (hzs : ∀ z ∈ zs, z.bbox.Proper)
    (hx : Spans (b.xmin, b.xmax) vs) (hy : Spans (b.ymin, b.ymax) ws) :
    Spans ((zs.foldl (fun b z => b.expand z.bbox) b).xmin,
        (zs.foldl (fun b z => b.expand z.bbox) b).xmax) (vs ++ lonEnds zs) ∧
      Spans ((zs.foldl (fun b z => b.expand z.bbox) b).ymin,
        (zs.foldl (fun b z => b.expand z.bbox) b).ymax) (ws ++ latEnds zs) := by
  induction zs generalizing b vs ws with
  | nil => simpa using And.intro hx hy
  | cons z zs ih =>
    have hz := hzs z (List.mem_cons_self ..)
    have hx' : Spans ((b.expand z.bbox).xmin, (b.expand z.bbox).xmax)
        (vs ++ [z.bbox.xmin, z.bbox.xmax]) := spans_expand hx hz.xmin_le_xmax
    have hy' : Spans ((b.expand z.bbox).ymin, (b.expand z.bbox).ymax)
        (ws ++ [z.bbox.ymin, z.bbox.ymax]) := spans_expand hy hz.ymin_le_ymax
    have h := ih (fun z' hz' => hzs z' (List.mem_cons_of_mem z hz')) hx' hy'
    simpa using h

/-- A range spanning the ends of ordered ranges is wider than a point exactly when one range
begins before one ends. -/
theorem lt_iff_of_spans {f g : Zone → Float} {lo hi : Float}
    (hs : Spans (lo, hi) (zs.flatMap fun z => [f z, g z])) (hfg : ∀ z ∈ zs, f z ≤ g z) :
    lo < hi ↔ ∃ z ∈ zs, ∃ z' ∈ zs, f z < g z' := by
  have hmem : ∀ v, v ∈ zs.flatMap (fun z => [f z, g z]) ↔ ∃ z ∈ zs, v = f z ∨ v = g z := by
    simp
  constructor
  · -- the ends of the range are ends of two of the ranges
    intro hlt
    obtain ⟨z, hz, hlo⟩ := (hmem lo).1 hs.lo_mem
    obtain ⟨z', hz', hhi⟩ := (hmem hi).1 hs.hi_mem
    have hzlo : f z ≤ lo := by
      rcases hlo with rfl | rfl
      · exact le_refl (isNaN_left_of_le (hfg z hz))
      · exact hfg z hz
    have hhiz : hi ≤ g z' := by
      rcases hhi with rfl | rfl
      · exact hfg z' hz'
      · exact le_refl (isNaN_right_of_le (hfg z' hz'))
    exact ⟨z, hz, z', hz', lt_of_le_of_lt hzlo (lt_of_lt_of_le hlt hhiz)⟩
  · rintro ⟨z, hz, z', hz', hlt⟩
    have hlo := hs.lo_le (f z) ((hmem _).2 ⟨z, hz, .inl rfl⟩)
    have hhi := hs.le_hi (g z') ((hmem _).2 ⟨z', hz', .inr rfl⟩)
    exact lt_of_le_of_lt hlo (lt_of_lt_of_le hlt hhi)

/-- A range spanning the ends of ordered ranges within bounds is within them. -/
theorem bounds_of_spans {f g : Zone → Float} {lo hi c c' : Float}
    (hs : Spans (lo, hi) (zs.flatMap fun z => [f z, g z])) (hfg : ∀ z ∈ zs, f z ≤ g z)
    (hc : ∀ z ∈ zs, c ≤ f z) (hc' : ∀ z ∈ zs, g z ≤ c') : c ≤ lo ∧ hi ≤ c' := by
  have hmem : ∀ v, v ∈ zs.flatMap (fun z => [f z, g z]) ↔ ∃ z ∈ zs, v = f z ∨ v = g z := by
    simp
  obtain ⟨z, hz, hlo⟩ := (hmem lo).1 hs.lo_mem
  obtain ⟨z', hz', hhi⟩ := (hmem hi).1 hs.hi_mem
  constructor
  · rcases hlo with rfl | rfl
    · exact hc z hz
    · exact le_trans (hc z hz) (hfg z hz)
  · rcases hhi with rfl | rfl
    · exact le_trans (hfg z' hz') (hc' z' hz')
    · exact hc' z' hz'

end Cover

/-! ## Checking the covering box -/

section Check

/-- A domain passes the check of its box when the box is wider than a point both ways and
lies on the globe. -/
theorem checkBounds_of_lt (hx : d.bounds.xmin < d.bounds.xmax) (hy : d.bounds.ymin < d.bounds.ymax)
    (hw : -180.0 ≤ d.bounds.xmin) (he : d.bounds.xmax ≤ 180.0) (hs : -90.0 ≤ d.bounds.ymin)
    (hn : d.bounds.ymax ≤ 90.0) : d.checkBounds = .ok d := by
  unfold checkBounds
  have hglobe : ¬(d.bounds.xmin < -180.0 ∨ 180.0 < d.bounds.xmax ∨ d.bounds.ymin < -90.0 ∨
      90.0 < d.bounds.ymax) := by
    rintro (h | h | h | h)
    · exact not_lt_of_le hw h
    · exact not_lt_of_le he h
    · exact not_lt_of_le hs h
    · exact not_lt_of_le hn h
  simp [hx, hy, hglobe]

/-- A domain whose box is a point or a segment fails the check of its box. -/
theorem checkBounds_of_not_lt (h : ¬(d.bounds.xmin < d.bounds.xmax ∧ d.bounds.ymin < d.bounds.ymax)) :
    ∃ msg, d.checkBounds = .error (.invalidBounds msg) := by
  unfold checkBounds
  simp only [Bool.not_eq_true', decide_eq_false_iff_not, h, if_true, not_false_eq_true]
  exact ⟨_, rfl⟩

/-- A domain that passes the check of its box has a box wider than a point both ways. -/
theorem lt_of_checkBounds {d' : Domain} (h : d.checkBounds = .ok d') :
    d.bounds.xmin < d.bounds.xmax ∧ d.bounds.ymin < d.bounds.ymax := by
  by_contra hlt
  obtain ⟨msg, hmsg⟩ := checkBounds_of_not_lt hlt
  rw [hmsg] at h
  cases h

/-- A domain that passes the check of its box has a box on the globe. -/
theorem globe_of_checkBounds {d' : Domain} (h : d.checkBounds = .ok d') :
    -180.0 ≤ d.bounds.xmin ∧ d.bounds.xmax ≤ 180.0 ∧ -90.0 ≤ d.bounds.ymin ∧
      d.bounds.ymax ≤ 90.0 := by
  obtain ⟨hx, hy⟩ := lt_of_checkBounds h
  unfold checkBounds at h
  simp only [hx, hy, and_self, decide_true, Bool.not_true, Bool.false_eq_true, if_false] at h
  split at h
  · cases h
  · rename_i hg
    simp only [not_or] at hg
    obtain ⟨hw, he, hs, hn⟩ := hg
    exact ⟨le_of_not_lt rfl (isNaN_left_of_lt hx) hw, le_of_not_lt (isNaN_right_of_lt hx) rfl he,
      le_of_not_lt rfl (isNaN_left_of_lt hy) hs, le_of_not_lt (isNaN_right_of_lt hy) rfl hn⟩

end Check

/-! ## The zone of a name -/

/-- In a domain of distinct zone names, the zone of a name is the one zone of that name. -/
theorem zone?_eq_some_iff (hnd : (d.zones.toList.map Zone.name).Nodup) (n : String) (z : Zone) :
    d.zone? n = some z ↔ z ∈ d.zones.toList ∧ z.name = n := by
  unfold zone?
  rw [← Array.find?_toList]
  constructor
  · intro h
    exact ⟨List.mem_of_find?_eq_some h, by simpa using List.find?_some h⟩
  · rintro ⟨hz, rfl⟩
    -- some zone of the name is found, and names are distinct, so it is `z`
    obtain ⟨w, hw⟩ : ∃ w, d.zones.toList.find? (fun z' => decide (z'.name = z.name)) = some w :=
      Option.isSome_iff_exists.1 (List.find?_isSome.2 ⟨z, hz, by simp⟩)
    have hwmem := List.mem_of_find?_eq_some hw
    have hwname : w.name = z.name := by simpa using List.find?_some hw
    rw [hw, List.inj_on_of_nodup_map hnd hwmem hz hwname]

/-! ## Building a domain -/

section New

variable {name : String} {zs : List Zone}

theorem new_cons (z : Zone) (zs : List Zone) :
    Domain.new name (z :: zs) =
      (z :: zs).foldlM addZone { name, zones := #[], bounds := z.bbox } >>= checkBounds := rfl

theorem addZone_ne_emptyDomain {e : Fault} (h : d.addZone z = .error e) (n : String) :
    e ≠ .emptyDomain n := by
  by_cases hr : z.name = noZone ∨ z.name = nullText
  · rw [addZone_reserved hr] at h
    cases h
    nofun
  by_cases hd : z.name ∈ d.zones.toList.map Zone.name
  · rw [addZone_duplicate hr hd] at h
    cases h
    nofun
  by_cases hs : z.bbox.xmin < -180.0 ∨ 180.0 < z.bbox.xmax
  · rw [addZone_antimeridian hr hd hs] at h
    cases h
    nofun
  · rw [addZone_accepts hr hd hs] at h
    cases h

theorem checkBounds_ne_emptyDomain {e : Fault} (h : d.checkBounds = .error e) (n : String) :
    e ≠ .emptyDomain n := by
  unfold checkBounds at h
  dsimp only at h
  split at h
  · cases h
    nofun
  · split at h
    · cases h
      nofun
    · cases h

/-- `Domain.new` names the domain empty exactly when it is given no zone. -/
theorem new_eq_emptyDomain_iff : (∃ n, Domain.new name zs = .error (.emptyDomain n)) ↔ zs = [] := by
  constructor
  · rintro ⟨n, h⟩
    cases zs with
    | nil => rfl
    | cons z zs =>
      exfalso
      rw [new_cons] at h
      -- the fault comes from a zone that was refused, or from the check of the box
      cases hfold : (z :: zs).foldlM addZone { name, zones := #[], bounds := z.bbox } with
      | error e =>
        rw [hfold] at h
        cases h
        obtain ⟨z', -, d', hz'⟩ := Except.foldlM_eq_error hfold
        exact addZone_ne_emptyDomain hz' n rfl
      | ok d' =>
        rw [hfold] at h
        exact checkBounds_ne_emptyDomain h n rfl
  · rintro rfl
    exact ⟨name, rfl⟩

/-- `Domain.new` fails with the fault of the first zone that `addZone` refuses. -/
theorem new_eq_error_of_refused {pre post : List Zone} {e : Fault} (hpre : Admissible pre)
    (hz : ∀ d : Domain, d.zones.toList = pre → d.addZone z = .error e) :
    Domain.new name (pre ++ z :: post) = .error e := by
  obtain ⟨z₀, rest, heq⟩ : ∃ z₀ rest, pre ++ z :: post = z₀ :: rest := by
    cases pre with
    | nil => exact ⟨z, post, rfl⟩
    | cons z₀ pre => exact ⟨z₀, pre ++ z :: post, rfl⟩
  rw [heq, new_cons, ← heq,
    foldlM_addZone_refused (d := { name, zones := #[], bounds := z₀.bbox }) hpre hz]
  rfl

/-- The box that `Domain.new` grows from the first zone's over all of them spans the ends of
their ranges. -/
theorem spans_cover {z₀ : Zone} (hz₀ : z₀ ∈ zs) (hp : ∀ z ∈ zs, z.bbox.Proper) :
    Box.Spans ((zs.foldl (fun b z => b.expand z.bbox) z₀.bbox).xmin,
        (zs.foldl (fun b z => b.expand z.bbox) z₀.bbox).xmax) (lonEnds zs) ∧
      Box.Spans ((zs.foldl (fun b z => b.expand z.bbox) z₀.bbox).ymin,
        (zs.foldl (fun b z => b.expand z.bbox) z₀.bbox).ymax) (latEnds zs) := by
  have hp₀ := hp z₀ hz₀
  obtain ⟨hx, hy⟩ := spans_foldl_expand hp (Box.spans_pair hp₀.xmin_le_xmax)
    (Box.spans_pair hp₀.ymin_le_ymax)
  -- the first zone's ends are among all the ends already
  have hsub : ∀ (f g : Zone → Float) v, v ∈ [f z₀, g z₀] ++ zs.flatMap (fun z => [f z, g z]) ↔
      v ∈ zs.flatMap (fun z => [f z, g z]) := fun f g v =>
    ⟨fun h => (List.mem_append.1 h).elim (fun h => List.mem_flatMap.2 ⟨z₀, hz₀, h⟩) id,
      List.mem_append_right _⟩
  exact ⟨hx.congr (hsub _ _), hy.congr (hsub _ _)⟩

/-- Admissible zones with proper boxes are added without refusal: what remains is the check of
the box covering theirs. -/
theorem new_admissible (hne : zs ≠ []) (hzs : Admissible zs) (hp : ∀ z ∈ zs, z.bbox.Proper) :
    ∃ d : Domain, Domain.new name zs = d.checkBounds ∧
      Box.Spans (d.bounds.xmin, d.bounds.xmax) (lonEnds zs) ∧
      Box.Spans (d.bounds.ymin, d.bounds.ymax) (latEnds zs) := by
  cases zs with
  | nil => exact absurd rfl hne
  | cons z₀ rest =>
    obtain ⟨d, hd⟩ := foldlM_addZone_admissible (d := { name, zones := #[], bounds := z₀.bbox })
      hzs (by simp)
    have hbounds := (foldlM_addZone_eq_ok hd).2.2
    refine ⟨d, by rw [new_cons, hd]; rfl, ?_⟩
    rw [hbounds]
    exact spans_cover (List.mem_cons_self ..) hp

/-- The box covering zones within `[-180, 180]` in longitude, with proper boxes, lies on the
globe. -/
theorem globe_of_spans {lo hi lo' hi' : Float} (hzs : Admissible zs)
    (hp : ∀ z ∈ zs, z.bbox.Proper) (hx : Box.Spans (lo, hi) (lonEnds zs))
    (hy : Box.Spans (lo', hi') (latEnds zs)) :
    -180.0 ≤ lo ∧ hi ≤ 180.0 ∧ -90.0 ≤ lo' ∧ hi' ≤ 90.0 := by
  have hw : ∀ z ∈ zs, -180.0 ≤ z.bbox.xmin := fun z hz =>
    le_of_not_lt rfl (isNaN_left_of_le (hp z hz).xmin_le_xmax) fun h => hzs.within z hz (.inl h)
  have he : ∀ z ∈ zs, z.bbox.xmax ≤ 180.0 := fun z hz =>
    le_of_not_lt (isNaN_right_of_le (hp z hz).xmin_le_xmax) rfl fun h => hzs.within z hz (.inr h)
  obtain ⟨h₁, h₂⟩ := bounds_of_spans hx (fun z hz => (hp z hz).xmin_le_xmax) hw he
  obtain ⟨h₃, h₄⟩ := bounds_of_spans hy (fun z hz => (hp z hz).ymin_le_ymax)
    (fun z hz => (hp z hz).south) fun z hz => (hp z hz).north
  exact ⟨h₁, h₂, h₃, h₄⟩

/-- A domain that `Domain.new` builds has the given name and zones in order, and the box grown
from the first zone's over all of theirs, which passed the check. -/
theorem new_eq_ok {d : Domain} (h : Domain.new name zs = .ok d) :
    d.name = name ∧ d.zones.toList = zs ∧
      ∃ z₀ ∈ zs, d.bounds = zs.foldl (fun b z => b.expand z.bbox) z₀.bbox ∧ d.checkBounds = .ok d := by
  cases zs with
  | nil => cases h
  | cons z₀ rest =>
    rw [new_cons] at h
    obtain ⟨d₁, h₁, h₂⟩ := Except.bind_eq_ok.1 h
    obtain rfl := checkBounds_eq_ok h₂
    obtain ⟨hname, hzones, hbounds⟩ := foldlM_addZone_eq_ok h₁
    exact ⟨hname, by simpa using hzones, z₀, List.mem_cons_self .., hbounds, h₂⟩

end New

/-! ## What `Domain.new` returns -/

/-- Zones whose boxes together have an extent in both directions: a box begins west of where
a box ends, and a box begins south of where a box ends. -/
def Extended (zs : List Zone) : Prop :=
  (∃ z ∈ zs, ∃ z' ∈ zs, z.bbox.xmin < z'.bbox.xmax) ∧ ∃ z ∈ zs, ∃ z' ∈ zs, z.bbox.ymin < z'.bbox.ymax

/-- **What `Domain.new` returns for zones that `Zone.new` accepts.** It names the domain empty
exactly when there is no zone. Otherwise it refuses the first zone, in order, whose name is
reserved, repeats an earlier zone's name, or whose box leaves `[-180, 180]` in longitude, with
the fault of the first of these checks that fails. When no zone is refused it succeeds exactly
when the boxes together have an extent in both directions, and otherwise reports the covering
box as invalid; zones without holes always have one. A domain it builds keeps the zones in
order, finds by each name its one zone of that name, and has as box the smallest covering the
zones' boxes, on the globe and wider than a point both ways. -/
theorem new_refusals_and_cover (name : String) (zs : List Zone)
    (hzs : ∀ z ∈ zs, ∃ n g, Zone.new n g = .ok z) :
    ((∃ n, Domain.new name zs = .error (.emptyDomain n)) ↔ zs = []) ∧
    (∀ pre z post, zs = pre ++ z :: post → Admissible pre →
      ((z.name = noZone ∨ z.name = nullText) →
        Domain.new name zs = .error (.invalidParameter ("zone name '" ++ z.name ++ "' is reserved"))) ∧
      (¬(z.name = noZone ∨ z.name = nullText) → z.name ∈ pre.map Zone.name →
        Domain.new name zs = .error (.duplicateZone z.name)) ∧
      (¬(z.name = noZone ∨ z.name = nullText) → z.name ∉ pre.map Zone.name →
        (z.bbox.xmin < -180.0 ∨ 180.0 < z.bbox.xmax) →
        Domain.new name zs = .error (.spansAntimeridian z.name z.bbox.xmin z.bbox.xmax
          z.geometry.splitAntimeridian))) ∧
    (zs ≠ [] → Admissible zs →
      ((∃ d, Domain.new name zs = .ok d) ↔ Extended zs) ∧
      (¬Extended zs → ∃ msg, Domain.new name zs = .error (.invalidBounds msg)) ∧
      ((∀ z ∈ zs, z.geometry.interiors = []) → ∃ d, Domain.new name zs = .ok d)) ∧
    ∀ d, Domain.new name zs = .ok d →
      d.name = name ∧ d.zones.toList = zs ∧ (∀ n z, d.zone? n = some z ↔ z ∈ zs ∧ z.name = n) ∧
      Box.Spans (d.bounds.xmin, d.bounds.xmax) (lonEnds zs) ∧
      Box.Spans (d.bounds.ymin, d.bounds.ymax) (latEnds zs) ∧
      d.bounds.xmin < d.bounds.xmax ∧ d.bounds.ymin < d.bounds.ymax ∧
      -180.0 ≤ d.bounds.xmin ∧ d.bounds.xmax ≤ 180.0 ∧ -90.0 ≤ d.bounds.ymin ∧
      d.bounds.ymax ≤ 90.0 := by
  have hp : ∀ z ∈ zs, z.bbox.Proper := fun z hz => by
    obtain ⟨n, g, hg⟩ := hzs z hz
    exact Zone.new_bbox_proper hg
  refine ⟨new_eq_emptyDomain_iff, ?refused, ?admitted, ?built⟩
  case refused =>
    rintro pre z post rfl hpre
    refine ⟨fun hr => new_eq_error_of_refused hpre fun _ _ => addZone_reserved hr,
      fun hr hd => new_eq_error_of_refused hpre fun d hd' => ?_,
      fun hr hd hs => new_eq_error_of_refused hpre fun d hd' => ?_⟩
    · exact addZone_duplicate hr (hd' ▸ hd)
    · exact addZone_antimeridian hr (hd' ▸ hd) hs
  case admitted =>
    intro hne hadm
    obtain ⟨d, hnew, hx, hy⟩ := @new_admissible name zs hne hadm hp
    obtain ⟨hw, he, hs, hn⟩ := globe_of_spans hadm hp hx hy
    -- the covering box is wider than a point exactly when the zones' boxes together are
    have hext : Extended zs ↔ d.bounds.xmin < d.bounds.xmax ∧ d.bounds.ymin < d.bounds.ymax :=
      and_congr (lt_iff_of_spans hx fun z hz => (hp z hz).xmin_le_xmax).symm
        (lt_iff_of_spans hy fun z hz => (hp z hz).ymin_le_ymax).symm
    have hok : Extended zs → ∃ d, Domain.new name zs = .ok d := fun h =>
      ⟨d, by rw [hnew, checkBounds_of_lt (hext.1 h).1 (hext.1 h).2 hw he hs hn]⟩
    refine ⟨⟨fun ⟨d', h'⟩ => hext.2 (lt_of_checkBounds (hnew ▸ h')), hok⟩,
      fun h => hnew ▸ checkBounds_of_not_lt (mt hext.2 h), fun hholes => hok ?_⟩
    -- a zone without holes has a box with extent of its own
    obtain ⟨z, hz⟩ := List.exists_mem_of_ne_nil zs hne
    obtain ⟨n, g, hg⟩ := hzs z hz
    have hgz : z.geometry = g := (Zone.new_eq_ok hg).2.2.2.2
    have hw' : -180.0 ≤ z.bbox.xmin := le_of_not_lt rfl
      (isNaN_left_of_le (hp z hz).xmin_le_xmax) fun h => hadm.within z hz (.inl h)
    have he' : z.bbox.xmax ≤ 180.0 := le_of_not_lt (isNaN_right_of_le (hp z hz).xmin_le_xmax)
      rfl fun h => hadm.within z hz (.inr h)
    obtain ⟨hxz, hyz⟩ := Zone.new_bbox_lt hg (hgz ▸ hholes z hz) hw' he'
    exact ⟨⟨z, hz, z, hz, hxz⟩, z, hz, z, hz, hyz⟩
  case built =>
    intro d h
    obtain ⟨hname, hzones, z₀, hz₀, hbounds, hcheck⟩ := new_eq_ok h
    have hnd := (new_sound h).1.names_nodup
    obtain ⟨hx, hy⟩ := spans_cover hz₀ hp
    obtain ⟨hlt, hlt'⟩ := lt_of_checkBounds hcheck
    obtain ⟨hw, he, hs, hn⟩ := globe_of_checkBounds hcheck
    refine ⟨hname, hzones, fun n z => hzones ▸ zone?_eq_some_iff hnd n z, ?_, ?_, hlt, hlt', hw, he,
      hs, hn⟩
    · rw [hbounds]; exact hx
    · rw [hbounds]; exact hy

/-- The unit square as a polygon. -/
def unitSquarePolygon : Polygon :=
  Polygon.ofRings [⟨0.0, 0.0⟩, ⟨1.0, 0.0⟩, ⟨1.0, 1.0⟩, ⟨0.0, 1.0⟩] []

/-- The zone `A` that `Zone.new` makes of the unit square. -/
def unitSquareZone : Zone where
  name := "A"
  geometry := unitSquarePolygon
  centroid := unitSquarePolygon.centroid.getD default
  maxRadius := Zone.boundaryRadius unitSquarePolygon.exterior
    (unitSquarePolygon.centroid.getD default)
  bbox := ⟨0.0, 1.0, 0.0, 1.0⟩

/-- The unit square is a zone, and a domain of it alone is built; listed twice, its second
entry repeats the name of the first and is refused. -/
theorem new_refusals_and_cover_unitSquare :
    Zone.new "A" unitSquarePolygon = .ok unitSquareZone ∧
      (∃ d, Domain.new "D" [unitSquareZone] = .ok d) ∧
      Domain.new "D" [unitSquareZone, unitSquareZone] = .error (.duplicateZone "A") := by
  have hz : Zone.new "A" unitSquarePolygon = .ok unitSquareZone := by
    set_option maxRecDepth 8000 in with_unfolding_all rfl
  have hadm : Admissible [unitSquareZone] :=
    ⟨by simp [unitSquareZone, noZone, nullText], by simp, by simp [unitSquareZone]; decide⟩
  have hname : ¬(unitSquareZone.name = noZone ∨ unitSquareZone.name = nullText) := by
    simp [unitSquareZone, noZone, nullText]
  refine ⟨hz, ((new_refusals_and_cover "D" [unitSquareZone]
    (by simpa using ⟨"A", unitSquarePolygon, hz⟩)).2.2.1 (by simp) hadm).2.2 ?_, ?_⟩
  · simp [unitSquareZone, unitSquarePolygon, Polygon.ofRings]
  · -- the second entry is refused for its name, the first being admissible
    exact ((new_refusals_and_cover "D" [unitSquareZone, unitSquareZone]
      (by simpa using ⟨"A", unitSquarePolygon, hz⟩)).2.1 [unitSquareZone] unitSquareZone []
      rfl hadm).2.1 hname (by simp [unitSquareZone])

/-- A segment along the meridian `0` with a triangular hole beside it: the exterior has no
area, the hole has one. -/
def holedSegment : Polygon :=
  Polygon.ofRings [⟨0.0, 0.0⟩, ⟨0.0, 1.0⟩, ⟨0.0, 2.0⟩] [[⟨1.0, 1.0⟩, ⟨2.0, 1.0⟩, ⟨2.0, 2.0⟩]]

/-- The zone `A` that `Zone.new` makes of the holed segment. -/
def holedSegmentZone : Zone where
  name := "A"
  geometry := holedSegment
  centroid := holedSegment.centroid.getD default
  maxRadius := Zone.boundaryRadius holedSegment.exterior (holedSegment.centroid.getD default)
  bbox := ⟨0.0, 0.0, 0.0, 2.0⟩

/-- A hole gives an exterior without area an area: `Zone.new` accepts the holed segment with a
box that is a segment, and a domain of it alone fails the check of its box. -/
theorem new_holedSegment_invalidBounds :
    Zone.new "A" holedSegment = .ok holedSegmentZone ∧
      ¬holedSegmentZone.bbox.xmin < holedSegmentZone.bbox.xmax ∧
      Domain.new "D" [holedSegmentZone] =
        .error (.invalidBounds "empty extent [0, 0] × [0, 2]") := by
  refine ⟨?_, by decide, by with_unfolding_all rfl⟩
  set_option maxRecDepth 8000 in with_unfolding_all rfl

end Domain

end Seaway

