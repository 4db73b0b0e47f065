import Mathlib
import Seaway.Proofs.Transit.Record
import Seaway.Proofs.Track.Derived
import Seaway.Proofs.Track.Fence
import Seaway.Proofs.Zone.Locate
import Seaway.Proofs.Sign

/-!
# The edges of a fenced track read back

The edges that a track yields once fenced against a domain are records that read back: the
names of a domain's zones are never `NULL`, so no receiving zone is taken for an unknown one;
the date of an edge's first row fits the record's year, month and day; and the vessel's
numbers fit when the track's do. No double of an edge is NaN, as long as the arcsine keeps
`[0, 1]` at or above zero. What remains is the vessel name.

* `Domain.locate_ne_null`: no position of a domain that `Domain.new` accepts is located in a
  zone named `NULL`;
* `Minute.ofUnix_fits`: every instant falls on a date whose year fits 32 bits and whose month
  and day fit 8;
* `Track.fits_of_transitEdges_eq_ok`: every edge of a fenced track fits the record;
* `Track.nanFree_of_transitEdges_eq_ok`: every edge of a fenced track is free of NaN.
-/

namespace Seaway

/-! ## Zone names are never `NULL` -/

namespace Domain

variable {d d' : Domain} {z : Zone} {name : String} {zs : List Zone}

theorem addZone_name_ne_null (h : d.addZone z = .ok d') : z.name ≠ nullText := by
  intro hnull
  simp [addZone, hnull, throw, throwThe, MonadExceptOf.throw, Bind.bind, Except.bind] at h

theorem foldlM_addZone_name_ne_null (h : zs.foldlM addZone d = .ok d') :
    ∀ z ∈ zs, z.name ≠ nullText := by
  induction zs generalizing d with
  | nil => simp
  | cons z zs ih =>
    rw [List.foldlM_cons, Except.bind_eq_ok] at h
    obtain ⟨d₁, h₁, h₂⟩ := h
    intro z' hz'
    rcases List.mem_cons.1 hz' with rfl | hz'
    · exact addZone_name_ne_null h₁
    · exact ih h₂ z' hz'

/-- `Domain.new` refuses a zone named `NULL`. -/
theorem new_name_ne_null (h : Domain.new name zs = .ok d) :
    ∀ z ∈ d.zones.toList, z.name ≠ nullText := by
  rw [(new_sound h).2]
  unfold Domain.new at h
  split at h
  · cases h
  · obtain ⟨d₁, h₁, -⟩ := Except.bind_eq_ok.1 h
    exact foldlM_addZone_name_ne_null h₁

/-- A position is located in no zone or in a zone of the domain. -/
theorem locate_eq_noZone_or_name (d : Domain) (x y : Float) :
    d.locate x y = noZone ∨ ∃ z ∈ d.zones.toList, d.locate x y = z.name := by
  unfold locate
  split
  · exact Or.inl rfl
  · split
    · rename_i z m hf
      have hmem := List.mem_of_find?_eq_some hf
      rw [nearest_eq_mergeSort, List.mem_mergeSort] at hmem
      exact Or.inr ⟨z, (mem_withMargins.1 hmem).1, rfl⟩
    · exact Or.inl rfl

theorem locate_ne_null (h : Domain.new name zs = .ok d) (x y : Float) :
    d.locate x y ≠ nullText := by
  rcases locate_eq_noZone_or_name d x y with hz | ⟨z, hz, hname⟩
  · rw [hz]
    decide
  · rw [hname]
    exact new_name_ne_null h z hz

end Domain

/-! ## Dates fit their fields -/

namespace Calendar

/-- The days of some six million years either way of 1970 fall in years that fit 32 bits, and
months and days are at most 12 and 31. -/
theorem civil_fits {z : Int} (hz : -2000000000 ≤ z) (hz' : z ≤ 2000000000) :
    -2 ^ 31 ≤ (civil z).1 ∧ (civil z).1 < 2 ^ 31 ∧ (civil z).2.1 < 2 ^ 8 ∧ (civil z).2.2 < 2 ^ 8 := by
  unfold civil
  dsimp only
  -- each intermediate value is bounded in turn, loosely enough for `omega`
  generalize hw : z + 719468 = w
  generalize hera : w / 146097 = era
  generalize hdoe : w - era * 146097 = doe
  have h₁ : 0 ≤ doe ∧ doe < 146097 ∧ -14000 ≤ era ∧ era ≤ 14000 := by omega
  generalize hyoe : (doe - doe / 1460 + doe / 36524 - doe / 146096) / 365 = yoe
  have h₂ : 0 ≤ yoe ∧ yoe ≤ 401 := by omega
  generalize hdoy : doe - (365 * yoe + yoe / 4 - yoe / 100) = doy
  have h₃ : -1000 ≤ doy ∧ doy ≤ 1000 := by omega
  generalize hmp : (5 * doy + 2) / 153 = mp
  have h₄ : -40 ≤ mp ∧ mp ≤ 40 := by omega
  refine ⟨?_, ?_, ?_, ?_⟩
  · split <;> omega
  · split <;> omega
  · split <;> omega
  · omega

theorem sinceEpoch_bounds (t : Int) :
    -spanBound ≤ sinceEpoch t ∧ sinceEpoch t ≤ spanBound := by
  have hb : 0 ≤ spanBound := by decide
  unfold sinceEpoch clampSpan
  constructor <;> omega

end Calendar

namespace Minute

/-- **Every instant has a date that fits.** Held within 32 768 centuries of 1900, an instant
falls in a year that fits a signed 32-bit integer, and its month and day fit 8 bits. -/
theorem ofUnix_fits (t : Int) :
    -2 ^ 31 ≤ (ofUnix t).year ∧ (ofUnix t).year < 2 ^ 31 ∧ (ofUnix t).month < 2 ^ 8 ∧
      (ofUnix t).day < 2 ^ 8 := by
  obtain ⟨hlo, hhi⟩ := Calendar.sinceEpoch_bounds t
  unfold ofUnix
  generalize Calendar.sinceEpoch t = ns at hlo hhi ⊢
  dsimp only
  -- the days of the bound are some 1.2 billion either way
  have hdays : -2000000000 ≤ ns / Calendar.nanosPerDay - Calendar.unixDays ∧
      ns / Calendar.nanosPerDay - Calendar.unixDays ≤ 2000000000 := by
    simp only [Calendar.spanBound, Calendar.nanosPerCentury, Calendar.nanosPerDay,
      Calendar.nanosPerSecond, Calendar.unixDays] at hlo hhi ⊢
    omega
  obtain ⟨h₁, h₂, h₃, h₄⟩ := Calendar.civil_fits hdays.1 hdays.2
  generalize Calendar.civil (ns / Calendar.nanosPerDay - Calendar.unixDays) = c at h₁ h₂ h₃ h₄ ⊢
  obtain ⟨y, m, dd⟩ := c
  exact ⟨h₁, h₂, h₃, h₄⟩

end Minute

/-! ## The edges of a fenced track fit the record -/

namespace Track

open Transit

/-- The vessel's numbers of a track fit the widths of their types: a 32-bit vessel and
label and the vessel's attributes. -/
structure VesselFits (t : Track) : Prop where
  mmsi : t.mmsi < 2 ^ 32
  label : ∀ n ∈ t.label, n < 2 ^ 32
  info : t.info.Fits

variable {t : Track} {a b : Nat} {src : String} {rcv : Option String} {e : TransitEdge}
  {d : Domain} {name : String} {zs : List Zone} {es : List TransitEdge}

/-- An edge of a track whose vessel's numbers fit fits the record. -/
theorem fits_of_edge_eq_ok (hfit : t.VesselFits) (h : edge t a b src rcv = .ok e) : e.Fits := by
  have hinv := edge_eq_ok_inv h
  obtain ⟨hy, hm, hd⟩ := hinv.date
  obtain ⟨h₁, h₂, h₃, h₄⟩ := Minute.ofUnix_fits (t.time.getD a 0)
  refine ⟨?_, ?_, ?_, ?_, ?_, ?_, ?_⟩
  · rw [hinv.mmsi]
    exact hfit.mmsi
  · rw [hinv.label]
    exact hfit.label
  · rw [hinv.info]
    exact hfit.info
  · rw [hy]
    exact h₁
  · rw [hy]
    exact h₂
  · rw [hm]
    exact h₃
  · rw [hd]
    exact h₄

theorem VesselFits.fence (hfit : t.VesselFits) (d : Domain) : (t.fence d).VesselFits := by
  obtain ⟨hmmsi, hlabel, hinfo⟩ := hfit
  exact ⟨by simpa using hmmsi, by simpa using hlabel, by simpa using hinfo⟩

/-- The edges of a track fenced against a domain are the zone edges of its located
positions. -/
theorem zoneEdges_fence (hv : t.Valid) (ht : t.inZone = none)
    (h : (t.fence d).transitEdges = .ok es) :
    ZoneEdges (t.fence d) ((List.range t.size).map fun i =>
      d.locate (t.lon.getD i 0) (t.lat.getD i 0)).toArray es :=
  zoneEdges_of_transitEdges_eq_ok (fence_derivedFrom hv d).valid
    (by rw [fence_eq_of_inZone_none hv ht]) h

/-- **The edges of a fenced track fit the record.** Fenced against a domain that
`Domain.new` accepts, a valid track whose vessel's numbers fit yields edges that fit the
record and whose receiving zone is never named `NULL`. -/
theorem fits_of_transitEdges_eq_ok (hv : t.Valid) (ht : t.inZone = none) (hfit : t.VesselFits)
    (hd : Domain.new name zs = .ok d) (h : (t.fence d).transitEdges = .ok es) :
    ∀ e ∈ es, e.Fits ∧ e.rcvZone ≠ some nullText := by
  set z : Array String := ((List.range t.size).map fun i =>
    d.locate (t.lon.getD i 0) (t.lat.getD i 0)).toArray with hz
  have hedges : ZoneEdges (t.fence d) z es := zoneEdges_fence hv ht h
  -- every entry of the zone column is a located zone, and past its end the default
  have hnull : ∀ i, z.getD i "" ≠ nullText := by
    intro i
    rw [hz, Array.getD_eq_getD_getElem?, List.getElem?_toArray, List.getElem?_map]
    by_cases hi : i < t.size
    · rw [List.getElem?_range hi, Option.map_some, Option.getD_some]
      exact Domain.locate_ne_null hd _ _
    · rw [List.getElem?_eq_none (by simpa using hi), Option.map_none, Option.getD_none]
      decide
  intro e he
  obtain ⟨k, hk, rfl⟩ := List.getElem_of_mem he
  refine ⟨fits_of_edge_eq_ok (hfit.fence d) (hedges.eq_zoneEdge k hk), ?_⟩
  rw [hedges.rcv_eq k hk, edgeReceiver]
  intro hrcv
  obtain ⟨i, -, hi⟩ := Option.map_eq_some_iff.1 hrcv
  exact hnull i hi

/-! ## The doubles of an edge are never NaN -/

open Real64 in
/-- The doubles of an edge are never NaN: on a valid track of fewer than `2 ^ 64` rows, and
with an arcsine at least zero on `[0, 1]`, every distance, speed and minute count of an edge is
at least zero. -/
theorem nanFree_of_edge_eq_ok (hasin : Geodesy.AsinNonneg) (hv : t.Valid)
    (hsize : t.size < 2 ^ 64) (h : edge t a b src rcv = .ok e) : e.NaNFree := by
  have hinv := edge_eq_ok_inv h
  obtain ⟨x₀, y₀, x₁, y₁, hdist⟩ := hinv.totalDistance
  obtain ⟨along, halong, hcum⟩ := hinv.cumulativeDistance
  obtain ⟨speeds, hknots, -, hnone, -, hlo, havg, hhi⟩ := hinv.speeds
  obtain ⟨hab, hb, hcount⟩ := consecutiveKnots_eq_ok hv hknots
  have hspeeds := nonneg_of_mem_consecutiveKnots hasin hknots
  refine ⟨?_, ?_, fun x hx => isNaN_right_of_le (hspeeds x (hlo x hx)), fun x hx => ?_,
    fun x hx => isNaN_right_of_le (hspeeds x (hhi x hx)), fun x hx => ?_⟩
  · rw [hdist]
    exact isNaN_right_of_le (Geodesy.nonneg_distance hasin x₀ y₀ x₁ y₁)
  · rw [hcum]
    exact isNaN_right_of_le (nonneg_sum (nonneg_of_mem_consecutiveDistances hasin halong))
  · -- an average is taken over at least one speed, and fewer than the rows
    have hpos : speeds.size ≠ 0 := fun h0 => by simp [hnone.2 h0] at hx
    rw [havg x hx]
    exact isNaN_right_of_le (nonneg_div_isPositive (nonneg_sum hspeeds)
      (Binary64.isPositive_ofNat (Nat.pos_of_ne_zero hpos) (by omega)))
  · -- minutes are counted over more than one row, forward in time and within 64 bits
    have hrows : 1 < b - a := by
      by_contra hle
      simp [hinv.minutes_none.2 (by omega)] at hx
    have hfit := hinv.rangeFits hrows
    have hmono := hv.time_mono (by omega : a ≤ b - 1) (by omega)
    have hpow : Nat.pow 2 63 = 9223372036854775808 := rfl
    simp only [RangeFits, maxInt64, hpow] at hfit
    rw [hinv.minutes x hx]
    exact isNaN_right_of_le (nonneg_div_isPositive (Binary64.nonneg_ofInt (by omega) (by omega))
      isPositive_sixty)

/-- The edges of a valid track of fewer than `2 ^ 64` rows fenced against a domain carry no
NaN, when the arcsine of `[0, 1]` is at least zero. -/
theorem nanFree_of_transitEdges_eq_ok (hasin : Geodesy.AsinNonneg) (hv : t.Valid)
    (ht : t.inZone = none) (hsize : t.size < 2 ^ 64) (h : (t.fence d).transitEdges = .ok es) :
    ∀ e ∈ es, e.NaNFree := by
  have hedges := zoneEdges_fence hv ht h
  intro e he
  obtain ⟨k, hk, rfl⟩ := List.getElem_of_mem he
  exact nanFree_of_edge_eq_ok hasin (fence_derivedFrom hv d).valid (by rwa [fence_size])
    (hedges.eq_zoneEdge k hk)

end Track

/-! ## Edge records round-trip -/

namespace TransitEdge

/-- **Edge records read back.** Every edge whose numbers fit the record is written as one
record that reads back as the edge, but for an empty vessel name and a receiving zone named
`NULL`; it compares equal to the edge read back exactly when neither happens and none of its
doubles is NaN; and the edge read back is written as the same record. An artifact of such
records reads back as its edges, and writing them again copies it unchanged. The edges of a
valid track fenced against a domain that `Domain.new` accepts fit the record, never go to a
zone named `NULL` and, with an arcsine at least zero on `[0, 1]` and fewer than `2 ^ 64` rows,
carry no NaN, so they round-trip exactly when the vessel name is not empty. -/
theorem edge_records_roundTrip :
    (∀ e : TransitEdge, e.Fits →
      Csv.rows e.toRecord = [⟨e.fields, 0, 1, 0⟩] ∧ ofFields e.fields = .ok e.readBack ∧
        e.readBack.toRecord = e.toRecord ∧
        (e.readBack = e ↔ e.vesselName ≠ some "" ∧ e.rcvZone ≠ some "NULL") ∧
        (e.roundTrips = true ↔
          e.vesselName ≠ some "" ∧ e.rcvZone ≠ some "NULL" ∧ e.NaNFree)) ∧
    (∀ es : List TransitEdge, (∀ e ∈ es, e.Fits) →
      EdgeSink.readEdges (String.join (es.map toRecord)) = .ok (es.map readBack) ∧
        (es.map readBack).map toRecord = es.map toRecord) ∧
    (Geodesy.AsinNonneg →
      ∀ (t : Track) (name : String) (zs : List Zone) (d : Domain) (es : List TransitEdge),
        t.Valid → t.inZone = none → t.VesselFits → t.size < 2 ^ 64 →
        Domain.new name zs = .ok d → (t.fence d).transitEdges = .ok es →
        ∀ e ∈ es, e.Fits ∧ e.rcvZone ≠ some "NULL" ∧ e.NaNFree ∧
          (e.roundTrips = true ↔ e.vesselName ≠ some "")) := by
  refine ⟨fun e he => ?_, fun es hes => ?_, ?_⟩
  · exact ⟨Csv.rows_record (List.cons_ne_nil _ _), ofFields_fields he, toRecord_readBack e,
      readBack_eq_iff, roundTrips_iff he⟩
  · refine ⟨readEdges_join hes, ?_⟩
    rw [List.map_map]
    exact List.map_congr_left fun e _ => toRecord_readBack e
  · intro hasin t name zs d es hv ht hfit hsize hd h e he
    obtain ⟨hfits, hrcv⟩ := Track.fits_of_transitEdges_eq_ok hv ht hfit hd h e he
    have hnan := Track.nanFree_of_transitEdges_eq_ok hasin hv ht hsize h e he
    refine ⟨hfits, hrcv, hnan, ?_⟩
    -- the receiving zone is never `NULL` and no double is NaN, which leaves the name
    rw [roundTrips_iff hfits]
    exact ⟨fun h => h.1, fun h => ⟨h, hrcv, hnan⟩⟩

/-- An edge of a vessel whose name is empty, over one row of zone `A`. -/
def unnamed : TransitEdge :=
  { mmsi := 353136000, label := some 0, vesselName := some "", shipType := some 70,
    imo := some 9811000, dimBow := none, dimStern := none, dimPort := none, dimStar := none,
    srcZone := "A", rcvZone := none, transitNodes := "A", firstSeen := "1970-01-01 00:00 UTC",
    lastSeen := "1970-01-01 00:00 UTC", year := 1970, month := 1, day := 1,
    totalDistance := 0.0, cumulativeDistance := 0.0, speedMin := none, speedAvg := none,
    speedMax := none, minutesInZone := none }

/-- The vessel of `unnamed`, three rows a minute apart and not yet fenced. -/
def unnamedTrack : Track :=
  { mmsi := 353136000, label := some 0, info := { vesselName := some "", shipType := some 70 },
    time := #[0, 60, 120], lon := #[0.25, 0.5, 2.0], lat := #[0.5, 0.5, 2.0],
    cog := #[0.0, 0.0, 0.0], sog := #[0.0, 0.0, 0.0] }

/-- The domain of the one zone `Domain.unitSquare`. -/
def squareDomain : Domain :=
  { name := "D", zones := #[Domain.unitSquare],
    bounds := Domain.unitSquare.bbox.expand Domain.unitSquare.bbox }

theorem edge_records_roundTrip_unnamed :
    unnamed.Fits ∧
      (Csv.rows unnamed.toRecord = [⟨unnamed.fields, 0, 1, 0⟩] ∧
        ofFields unnamed.fields = .ok unnamed.readBack ∧
        unnamed.readBack.toRecord = unnamed.toRecord ∧
        (unnamed.readBack = unnamed ↔
          unnamed.vesselName ≠ some "" ∧ unnamed.rcvZone ≠ some "NULL") ∧
        (unnamed.roundTrips = true ↔
          unnamed.vesselName ≠ some "" ∧ unnamed.rcvZone ≠ some "NULL" ∧ unnamed.NaNFree)) ∧
      (EdgeSink.readEdges (String.join ([unnamed].map toRecord)) =
          .ok ([unnamed].map readBack) ∧
        ([unnamed].map readBack).map toRecord = [unnamed].map toRecord) ∧
      unnamedTrack.Valid ∧ unnamedTrack.inZone = none ∧ unnamedTrack.VesselFits ∧
      unnamedTrack.size < 2 ^ 64 ∧ Domain.new "D" [Domain.unitSquare] = .ok squareDomain ∧
      (Geodesy.AsinNonneg → ∀ es, (unnamedTrack.fence squareDomain).transitEdges = .ok es →
        ∀ e ∈ es, e.Fits ∧ e.rcvZone ≠ some "NULL" ∧ e.NaNFree ∧
          (e.roundTrips = true ↔ e.vesselName ≠ some "")) := by
  have hinfo : ∀ v : VesselInfo, v.dimBow = none → v.dimStern = none → v.dimPort = none →
      v.dimStar = none → (∀ n ∈ v.shipType, n < 2 ^ 16) → (∀ n ∈ v.imo, n < 2 ^ 32) → v.Fits := by
    intro v hb hs hp hst hship himo
    exact ⟨hship, himo, by simp [hb], by simp [hs], by simp [hp], by simp [hst]⟩
  have hfits : unnamed.Fits :=
    ⟨by decide, by simp [unnamed], hinfo _ rfl rfl rfl rfl (by simp [unnamed, info])
      (by simp [unnamed, info]), by norm_num [unnamed], by norm_num [unnamed], by decide,
      by decide⟩
  have hv : unnamedTrack.Valid :=
    ⟨by decide, rfl, rfl, rfl, rfl, (fun _ hz => by simp [unnamedTrack] at hz), by decide⟩
  have hfit : unnamedTrack.VesselFits :=
    ⟨by decide, by simp [unnamedTrack], hinfo _ rfl rfl rfl rfl (by simp [unnamedTrack])
      (by simp [unnamedTrack])⟩
  have hd : Domain.new "D" [Domain.unitSquare] = .ok squareDomain := by
    with_unfolding_all rfl
  have hsize : unnamedTrack.size < 2 ^ 64 := by decide
  exact ⟨hfits, edge_records_roundTrip.1 unnamed hfits,
    edge_records_roundTrip.2.1 [unnamed] (by simpa using hfits), hv, rfl, hfit, hsize, hd,
    fun hasin es => edge_records_roundTrip.2.2 hasin unnamedTrack "D" [Domain.unitSquare] _ es hv
      rfl hfit hsize hd⟩

end TransitEdge

end Seaway
