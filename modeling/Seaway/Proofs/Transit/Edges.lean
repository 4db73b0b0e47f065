import Mathlib
import Seaway.Transit.Edge
import Seaway.Proofs.Track.Valid

/-!
# Transit edges follow the zone changes

The transit edges of a track with a zone column `z` are fixed by the rows where the zone
changes (`Transit.changes z`). With row `0` in front these are the boundaries
`b₀ = 0 < b₁ < ⋯ < b_T` of the track. Edge `k` runs over the rows `[b_k, b_{k+1})`, from the
zone of row `b_k` to the zone of row `b_{k+1}`; the last edge runs on to the end of the
track, and a track whose zone never changes has one open edge over all its rows.

`Track.transitEdges_follow_zone_changes` states this for every valid track:

* the edges are computed exactly when the rows of every edge span at most `2 ^ 63 - 1`
  seconds (`RangeFits`);
* then there are `max 1 T` of them, their row ranges are non-empty and cut `[0, n)` in
  order, each goes to a zone other than its own, the zone the next edge starts from, their
  speeds and minutes are missing exactly on single rows, all carry the track's vessel, and
  `T` of them are closed: the count that `Track.hourlyTransitRate` divides.
-/

namespace Seaway

namespace TransitEdge

/-- The static vessel attributes an edge carries. -/
def info (e : TransitEdge) : VesselInfo :=
  { vesselName := e.vesselName, shipType := e.shipType, imo := e.imo, dimBow := e.dimBow,
    dimStern := e.dimStern, dimPort := e.dimPort, dimStar := e.dimStar }

end TransitEdge

namespace Transit

variable {z : Array String} {i j k : Nat}

/-! ## Zone changes and boundaries -/

theorem mem_changes : i ∈ changes z ↔ 0 < i ∧ i < z.size ∧ z.getD i "" ≠ z.getD (i - 1) "" := by
  simp only [changes, List.mem_filter, List.mem_drop_iff_getElem, List.getElem_range,
    List.length_range, bne_iff_ne, ne_eq]
  constructor
  · rintro ⟨⟨j, hj, rfl⟩, hne⟩
    exact ⟨by omega, by omega, hne⟩
  · rintro ⟨hi, hn, hne⟩
    exact ⟨⟨i - 1, by omega, by omega⟩, hne⟩

theorem changes_sorted : (changes z).Pairwise (· < ·) :=
  (List.pairwise_lt_range.sublist (List.drop_sublist _ _)).filter _

/-- The first row and the rows where the zone changes, in increasing order. -/
def boundaries (z : Array String) : List Nat := 0 :: changes z

@[simp] theorem length_boundaries : (boundaries z).length = (changes z).length + 1 := rfl

theorem boundaries_sorted : (boundaries z).Pairwise (· < ·) :=
  List.pairwise_cons.2 ⟨fun _ hi => (mem_changes.1 hi).1, changes_sorted⟩

theorem lt_size_of_mem_boundaries (hn : 0 < z.size) (hi : i ∈ boundaries z) : i < z.size := by
  rcases List.mem_cons.1 hi with rfl | hi
  · exact hn
  · exact (mem_changes.1 hi).2.1

/-- The zone stays that of row `i` up to any row `j` with no change in between. -/
theorem getD_eq_of_no_change (hij : i ≤ j) (hj : j < z.size)
    (h : ∀ m, i < m → m ≤ j → m ∉ changes z) : z.getD j "" = z.getD i "" := by
  induction j, hij using Nat.le_induction with
  | base => rfl
  | succ j hij ih =>
    have hstep : z.getD (j + 1) "" = z.getD j "" := by
      by_contra hne
      exact h (j + 1) (by omega) le_rfl (mem_changes.2 ⟨by omega, hj, by simpa using hne⟩)
    rw [hstep, ih (by omega) fun m him hmj => h m him (by omega)]

/-- No entry of a strictly increasing list lies strictly between two consecutive ones. -/
theorem not_mem_between {l : List Nat} (hs : l.Pairwise (· < ·)) (hk : k + 1 < l.length)
    {m : Nat} (hm : m ∈ l) : ¬(l[k] < m ∧ m < l[k + 1]) := by
  rintro ⟨h₁, h₂⟩
  obtain ⟨j, hj, rfl⟩ := List.getElem_of_mem hm
  have hmono := List.pairwise_iff_getElem.1 hs
  -- the index of `m` is at most `k` or at least `k + 1`; either way the order is broken
  rcases Nat.lt_or_ge j (k + 1) with hjk | hjk
  · rcases Nat.lt_or_eq_of_le (Nat.le_of_lt_succ hjk) with hlt | rfl
    · exact absurd (hmono j k hj (by omega) hlt) (by omega)
    · omega
  · rcases Nat.lt_or_eq_of_le hjk with hlt | rfl
    · exact absurd (hmono (k + 1) j hk hj hlt) (by omega)
    · omega

theorem getElem_boundaries_succ_mem (hk : k + 1 < (boundaries z).length) :
    (boundaries z)[k + 1] ∈ changes z := by
  simp [boundaries]

/-- Up to the row before a boundary, the zone is that of the boundary before it. -/
theorem getD_pred_boundary (hk : k + 1 < (boundaries z).length) :
    z.getD ((boundaries z)[k + 1] - 1) "" = z.getD (boundaries z)[k] "" := by
  have hs := boundaries_sorted (z := z)
  have hlt := List.pairwise_iff_getElem.1 hs k (k + 1) (by omega) hk (by omega)
  have hsize := (mem_changes.1 (getElem_boundaries_succ_mem hk)).2.1
  apply getD_eq_of_no_change (by omega) (by omega)
  intro m hm hm' hmc
  exact not_mem_between hs hk (List.mem_cons_of_mem 0 hmc) ⟨hm, by omega⟩

/-- The zone at a boundary differs from the zone at the boundary before it. -/
theorem getD_boundary_ne (hk : k + 1 < (boundaries z).length) :
    z.getD (boundaries z)[k + 1] "" ≠ z.getD (boundaries z)[k] "" := by
  rw [← getD_pred_boundary hk]
  exact (mem_changes.1 (getElem_boundaries_succ_mem hk)).2.2

/-! ## The edges the zone changes call for -/

/-- The number of edges: one per zone change, and one when the zone never changes. -/
def edgeCount (z : Array String) : Nat := max 1 (changes z).length

/-- The first row of edge `k`: boundary `k`. -/
def edgeStart (z : Array String) (k : Nat) : Nat := (boundaries z).getD k 0

/-- The row after the last row of edge `k` in a track of `n` rows: the next boundary, but
the end of the track for the last edge. -/
def edgeStop (z : Array String) (n k : Nat) : Nat :=
  if k + 1 < (changes z).length then (changes z).getD k 0 else n

/-- The zone edge `k` goes to: the zone of the next boundary, unknown when there is none. -/
def edgeReceiver (z : Array String) (k : Nat) : Option String :=
  (changes z)[k]?.map fun i => z.getD i ""

theorem lt_length_boundaries (hk : k < edgeCount z) : k < (boundaries z).length := by
  simp only [edgeCount] at hk
  simp only [length_boundaries]
  omega

theorem edgeStart_eq_getElem (hk : k < (boundaries z).length) :
    edgeStart z k = (boundaries z)[k] := by
  simp [edgeStart, List.getElem?_eq_getElem hk]

/-- Every edge has a row. -/
theorem edgeStart_lt_edgeStop (hn : 0 < z.size) (hk : k < edgeCount z) :
    edgeStart z k < edgeStop z z.size k := by
  have hb := lt_length_boundaries hk
  rw [edgeStart_eq_getElem hb]
  unfold edgeStop
  split
  · -- an edge before the last stops at the next boundary, above its first row
    have hb' : k + 1 < (boundaries z).length := by simp only [length_boundaries]; omega
    have hlt := List.pairwise_iff_getElem.1 boundaries_sorted k (k + 1) hb hb' (by omega)
    have hnext : (changes z).getD k 0 = (boundaries z)[k + 1] := by
      simp [boundaries, List.getElem?_eq_getElem (by omega : k < (changes z).length)]
    omega
  · exact lt_size_of_mem_boundaries hn (List.getElem_mem hb)

theorem edgeStop_le : edgeStop z z.size k ≤ z.size := by
  unfold edgeStop
  split
  · rename_i hk'
    have hmem : (changes z).getD k 0 ∈ changes z := by
      simp [List.getElem?_eq_getElem (by omega : k < (changes z).length)]
    exact (mem_changes.1 hmem).2.1.le
  · exact le_rfl

/-- An edge before the last stops where the next one starts. -/
theorem edgeStop_eq_edgeStart (n : Nat) (hk : k + 1 < edgeCount z) :
    edgeStop z n k = edgeStart z (k + 1) := by
  have hk' : k + 1 < (changes z).length := by simp only [edgeCount] at hk; omega
  simp [edgeStop, hk', edgeStart, boundaries]

/-- The last edge stops at the end of the track. -/
theorem edgeStop_last (n : Nat) : edgeStop z n (edgeCount z - 1) = n := by
  unfold edgeStop
  rw [if_neg (by simp only [edgeCount]; omega)]

/-- An edge never goes to the zone it starts from. -/
theorem edgeReceiver_ne : edgeReceiver z k ≠ some (z.getD (edgeStart z k) "") := by
  unfold edgeReceiver
  rcases Nat.lt_or_ge k (changes z).length with hk' | hk'
  · have hb : k + 1 < (boundaries z).length := by simp only [length_boundaries]; omega
    have hne := getD_boundary_ne hb
    rw [edgeStart_eq_getElem (by omega)]
    simpa [List.getElem?_eq_getElem hk', boundaries] using hne
  · simp [List.getElem?_eq_none hk']

/-- An edge before the last goes to the zone the next one starts from. -/
theorem edgeReceiver_eq (hk : k + 1 < edgeCount z) :
    edgeReceiver z k = some (z.getD (edgeStart z (k + 1)) "") := by
  have hk' : k < (changes z).length := by simp only [edgeCount] at hk; omega
  simp [edgeReceiver, List.getElem?_eq_getElem hk', edgeStart, boundaries]

/-! ## One edge -/

theorem minMax_eq_none_iff {l : List Float} : minMax l = none ↔ l = [] := by
  match l with
  | [] => simp [minMax]
  | [_] => simp [minMax]
  | _ :: _ :: _ => simp [minMax]

/-- Walking pairs from a least and a largest value of `L` over values of `L` ends on values of
`L`. -/
theorem minMaxFrom_mem {L : List Float} :
    ∀ (acc : Float × Float) (l : List Float), acc.1 ∈ L → acc.2 ∈ L → (∀ x ∈ l, x ∈ L) →
      (minMaxFrom acc l).1 ∈ L ∧ (minMaxFrom acc l).2 ∈ L
  | _, [], h₁, h₂, _ => ⟨h₁, h₂⟩
  | acc, [x], h₁, h₂, hl => by
    have hx := hl x List.mem_cons_self
    unfold minMaxFrom
    split_ifs <;> exact ⟨by assumption, by assumption⟩
  | acc, x :: y :: rest, h₁, h₂, hl => by
    have hx := hl x List.mem_cons_self
    have hy := hl y (List.mem_cons_of_mem x List.mem_cons_self)
    have hrest : ∀ z ∈ rest, z ∈ L := fun z hz =>
      hl z (List.mem_cons_of_mem x (List.mem_cons_of_mem y hz))
    -- the pair is ordered first, and each end then kept or replaced
    by_cases hyx : y < x
    · simp only [minMaxFrom, hyx, if_true]
      exact minMaxFrom_mem _ rest (by split_ifs <;> assumption) (by split_ifs <;> assumption) hrest
    · simp only [minMaxFrom, hyx, if_false]
      exact minMaxFrom_mem _ rest (by split_ifs <;> assumption) (by split_ifs <;> assumption) hrest

/-- The least and the largest value found are values of the list. -/
theorem minMax_mem {l : List Float} {lo hi : Float} (h : minMax l = some (lo, hi)) :
    lo ∈ l ∧ hi ∈ l := by
  match l, h with
  | [x], h =>
    cases h
    exact ⟨List.mem_cons_self, List.mem_cons_self⟩
  | x :: y :: rest, h =>
    simp only [minMax, Option.some.injEq] at h
    have hx : x ∈ x :: y :: rest := List.mem_cons_self
    have hy : y ∈ x :: y :: rest := List.mem_cons_of_mem x List.mem_cons_self
    have hmem := minMaxFrom_mem (if y < x then (y, x) else (x, y)) rest (by split_ifs <;> assumption)
      (by split_ifs <;> assumption) fun z hz => List.mem_cons_of_mem x (List.mem_cons_of_mem y hz)
    rwa [h] at hmem

/-- What the edge `e` of the rows `[a, b)` of `t`, from zone `src` to `rcv`, is made of: the
vessel and zones it was given, the date of row `a`, speeds missing exactly when there are none
between its rows and otherwise taken from them, and minutes missing exactly when it has one
row and otherwise the minutes from row `a` to row `b - 1`. -/
structure EdgeOf (t : Track) (a b : Nat) (src : String) (rcv : Option String)
    (e : TransitEdge) : Prop where
  mmsi : e.mmsi = t.mmsi
  label : e.label = t.label
  info : e.info = t.info
  srcZone : e.srcZone = src
  rcvZone : e.rcvZone = rcv
  transitNodes : e.transitNodes = (rcv.map (src ++ "_" ++ ·)).getD src
  minutes_none : e.minutesInZone = none ↔ b - a ≤ 1
  rangeFits : 1 < b - a → t.RangeFits a b
  date : e.year = (Minute.ofUnix (t.time.getD a 0)).year ∧
    e.month = (Minute.ofUnix (t.time.getD a 0)).month ∧
    e.day = (Minute.ofUnix (t.time.getD a 0)).day
  totalDistance : ∃ x₀ y₀ x₁ y₁, e.totalDistance = Geodesy.distance x₀ y₀ x₁ y₁
  cumulativeDistance : ∃ along, t.consecutiveDistances a b = .ok along ∧
    e.cumulativeDistance = Real64.sum along.toList
  speeds : ∃ speeds, t.consecutiveKnots a b = .ok speeds ∧
    (e.speedMin = none ↔ speeds.size = 0) ∧ (e.speedAvg = none ↔ speeds.size = 0) ∧
    (e.speedMax = none ↔ speeds.size = 0) ∧ (∀ x ∈ e.speedMin, x ∈ speeds.toList) ∧
    (∀ x ∈ e.speedAvg, x = Real64.sum speeds.toList / Binary64.ofNat speeds.size) ∧
    ∀ x ∈ e.speedMax, x ∈ speeds.toList
  minutes : ∀ x ∈ e.minutesInZone,
    x = Binary64.ofInt (t.time.getD (b - 1) 0 - t.time.getD a 0) / 60.0

variable {t : Track} {a b : Nat} {src : String} {rcv : Option String} {e : TransitEdge}

theorem edge_eq_ok_inv (h : edge t a b src rcv = .ok e) : EdgeOf t a b src rcv e := by
  unfold edge at h
  obtain ⟨last, hlast, h⟩ := Except.bind_eq_ok.1 h
  obtain ⟨t0, ht0, h⟩ := Except.bind_eq_ok.1 h
  obtain ⟨t1, ht1, h⟩ := Except.bind_eq_ok.1 h
  obtain ⟨speeds, hs, h⟩ := Except.bind_eq_ok.1 h
  obtain ⟨-, rfl⟩ := subSize_eq_ok_iff.1 hlast
  -- the times read are those of rows `a` and `b - 1`
  obtain rfl := getD_of_entry_eq_ok 0 ht0
  obtain rfl := getD_of_entry_eq_ok 0 ht1
  have hsize : speeds.size = 0 ↔ minMax speeds.toList = none := by
    rw [minMax_eq_none_iff]
    simp
  -- four cases: speeds missing or not, and minutes computed (more than one row) or not
  rcases hmm : minMax speeds.toList with _ | ⟨lo, hi⟩ <;> simp only [hmm] at h hsize <;>
    split at h
  all_goals
    obtain ⟨mins, hmins, h⟩ := Except.bind_eq_ok.1 h
    obtain ⟨x0, -, h⟩ := Except.bind_eq_ok.1 h
    obtain ⟨y0, -, h⟩ := Except.bind_eq_ok.1 h
    obtain ⟨x1, -, h⟩ := Except.bind_eq_ok.1 h
    obtain ⟨y1, -, h⟩ := Except.bind_eq_ok.1 h
    obtain ⟨along, halong, h⟩ := Except.bind_eq_ok.1 h
    cases h
  case' none.isTrue | some.isTrue =>
    obtain ⟨d, hd, rfl⟩ := Except.map_eq_ok.1 hmins
    obtain ⟨rfl, -, hfit⟩ := subInt64_eq_ok_iff.1 hd
    refine ⟨rfl, rfl, rfl, rfl, rfl, by cases rcv <;> rfl, by simp; omega, fun _ => hfit,
      ⟨rfl, rfl, rfl⟩, ⟨_, _, _, _, rfl⟩, ⟨along, halong, rfl⟩, ?_, by simp⟩
  case' none.isFalse | some.isFalse =>
    simp only [pure, Except.pure, Except.ok.injEq] at hmins
    subst hmins
    refine ⟨rfl, rfl, rfl, rfl, rfl, by cases rcv <;> rfl, by simp; omega, by omega,
      ⟨rfl, rfl, rfl⟩, ⟨_, _, _, _, rfl⟩, ⟨along, halong, rfl⟩, ?_, by simp⟩
  case none.isTrue | none.isFalse => exact ⟨speeds, hs, by simp [hsize]⟩
  case some.isTrue | some.isFalse =>
    exact ⟨speeds, hs, by simp [hsize], by simp [hsize], by simp [hsize],
      fun x hx => by cases hx; exact (minMax_mem hmm).1, by simp,
      fun x hx => by cases hx; exact (minMax_mem hmm).2⟩

/-- The edge of a row range of a valid track is computed when the range's times fit. -/
theorem edge_ok (hv : t.Valid) (hab : a < b) (hb : b ≤ t.size) (hfit : t.RangeFits a b) :
    ∃ e, edge t a b src rcv = .ok e := by
  obtain ⟨speeds, hs, -⟩ := Track.consecutiveKnots_ok hv hab.le hb hfit
  obtain ⟨along, hd, -⟩ := Track.consecutiveDistances_ok hv hab.le hb
  have hmono := hv.time_mono (Nat.le_sub_one_of_lt hab) (by omega)
  -- the first and the last row are read
  obtain ⟨ht0, hx0, hy0⟩ := hv.entry_eq_ok (Nat.lt_of_lt_of_le hab hb)
  obtain ⟨ht1, hx1, hy1⟩ := hv.entry_eq_ok (show b - 1 < t.size by omega)
  unfold edge
  simp only [subSize_eq_ok (show 1 ≤ b by omega), ht0, ht1, hx0, hy0, hx1, hy1, hs, hd,
    Bind.bind, Except.bind]
  -- the minutes of more than one row come from a time difference that fits
  rcases minMax speeds.toList with _ | ⟨lo, hi⟩ <;> dsimp only <;> split
  case' none.isTrue | some.isTrue => rw [subInt64_eq_ok (by omega) hfit]
  all_goals exact ⟨_, rfl⟩

/-- Edge `k` of a track with zone column `z`: the edge of its rows
`[edgeStart z k, edgeStop z n k)` from the zone of the first of them to `edgeReceiver z k`. -/
def zoneEdge (t : Track) (z : Array String) (k : Nat) : Except Fault TransitEdge :=
  edge t (edgeStart z k) (edgeStop z t.size k) (z.getD (edgeStart z k) "") (edgeReceiver z k)

/-- The edges `es` of a track `t` with zone column `z` are those its zone changes call for:
one per change, or one open edge; the `k`-th summarizes the rows
`[edgeStart z k, edgeStop z n k)`, and these ranges are non-empty and cut `[0, n)` in order;
each edge goes from the zone of its first row to another zone, the one the next edge starts
from; speeds and minutes are missing exactly on a single row; every edge carries the track's
vessel; and as many edges are closed as the zone changes. -/
structure ZoneEdges (t : Track) (z : Array String) (es : List TransitEdge) : Prop where
  length_eq : es.length = edgeCount z
  eq_zoneEdge : ∀ k (hk : k < es.length), zoneEdge t z k = .ok es[k]
  start_lt_stop : ∀ k < es.length, edgeStart z k < edgeStop z t.size k
  stop_eq_start : ∀ k, k + 1 < es.length → edgeStop z t.size k = edgeStart z (k + 1)
  last_stop : edgeStop z t.size (es.length - 1) = t.size
  src_eq : ∀ k (hk : k < es.length), es[k].srcZone = z.getD (edgeStart z k) ""
  rcv_eq : ∀ k (hk : k < es.length), es[k].rcvZone = edgeReceiver z k
  rcv_ne_src : ∀ e ∈ es, e.rcvZone ≠ some e.srcZone
  rcv_eq_next_src : ∀ k (hk : k + 1 < es.length), es[k].rcvZone = some es[k + 1].srcZone
  transitNodes_eq : ∀ e ∈ es,
    e.transitNodes = (e.rcvZone.map (e.srcZone ++ "_" ++ ·)).getD e.srcZone
  single_iff : ∀ k (hk : k < es.length),
    (es[k].speedMin = none ↔ edgeStop z t.size k = edgeStart z k + 1) ∧
      (es[k].speedAvg = none ↔ edgeStop z t.size k = edgeStart z k + 1) ∧
      (es[k].speedMax = none ↔ edgeStop z t.size k = edgeStart z k + 1) ∧
      (es[k].minutesInZone = none ↔ edgeStop z t.size k = edgeStart z k + 1)
  vessel : ∀ e ∈ es, e.mmsi = t.mmsi ∧ e.label = t.label ∧ e.info = t.info
  closed_count : (es.filter fun e => !e.isOpen).length = (changes z).length

end Transit

namespace Track

open Transit

variable {t : Track} {z : Array String}

/-- The transit edges of a track are its zone edges, in order. -/
theorem transitEdges_eq (hz : t.inZone = some z) (hn : 0 < z.size) :
    t.transitEdges = (List.range (edgeCount z)).mapM (zoneEdge t z) := by
  unfold transitEdges
  rw [hz]
  dsimp only
  rcases hcs : changes z with _ | ⟨c, cs⟩
  · -- no change: one open edge over all the rows
    simp [edgeCount, hcs, zoneEdge, edgeStart, edgeStop, edgeReceiver, boundaries,
      entry_eq_ok_getD "" hn]
  · -- one edge per pair of consecutive boundaries, whose zones are read
    have hread : ∀ i ∈ 0 :: c :: cs, entry z i = .ok (z.getD i "") := fun i hi =>
      entry_eq_ok_getD "" (lt_size_of_mem_boundaries hn (by rwa [boundaries, hcs]))
    dsimp only
    rw [subSize_eq_ok (by simp), Except.ok_bind]
    apply Except.mapM_eq_of_map_eq
    apply List.ext_getElem
    · simp [edgeCount, hcs]
    · intro k h₁ h₂
      have hk : k < cs.length + 1 := by simpa [edgeCount, hcs] using h₂
      have hk0 : k < (0 :: c :: cs).length := by simp only [List.length_cons]; omega
      have hk1 : k < (c :: cs).length := by simp only [List.length_cons]; omega
      rw [List.getElem_map, List.getElem_map, List.getElem_zipIdx, List.getElem_zip,
        List.getElem_range]
      simp only [zoneEdge, edgeStart, edgeStop, edgeReceiver, boundaries, hcs,
        List.getD_eq_getElem?_getD, List.getElem?_eq_getElem hk0, List.getElem?_eq_getElem hk1,
        Option.getD_some, Option.map_some, List.tail_cons, List.length_cons,
        hread _ (List.getElem_mem hk0), hread _ (List.mem_cons_of_mem 0 (List.getElem_mem hk1)),
        Except.ok_bind]
      -- only the last pair stops at the end of the track
      have hlast : 0 + k = cs.length + 1 + 1 - 2 ↔ ¬k + 1 < cs.length + 1 := by omega
      simp only [hlast, ite_not]

/-- The transit edges are computed exactly when the rows of every zone edge span a time
that fits a signed 64-bit integer. -/
theorem transitEdges_ok_iff (hv : t.Valid) (hz : t.inZone = some z) :
    (∃ es, t.transitEdges = .ok es) ↔
      ∀ k < edgeCount z, t.RangeFits (edgeStart z k) (edgeStop z t.size k) := by
  have hzs : z.size = t.size := hv.inZone_size z hz
  have hn : 0 < z.size := hzs ▸ hv.size_pos
  rw [transitEdges_eq hz hn, Except.mapM_range_ok_iff]
  refine forall₂_congr fun k hk => ?_
  have hlt := edgeStart_lt_edgeStop hn hk
  have hle := edgeStop_le (z := z) (k := k)
  rw [hzs] at hlt hle
  constructor
  · rintro ⟨e, he⟩
    by_cases h1 : 1 < edgeStop z t.size k - edgeStart z k
    · exact (edge_eq_ok_inv he).rangeFits h1
    · -- a single row spans no time
      have hj : edgeStop z t.size k = edgeStart z k + 1 := by omega
      rw [hj]
      exact rangeFits_succ _
  · exact edge_ok hv hlt hle

/-- Computed transit edges are the zone edges of the track. -/
theorem zoneEdges_of_transitEdges_eq_ok (hv : t.Valid) (hz : t.inZone = some z)
    {es : List TransitEdge} (h : t.transitEdges = .ok es) : ZoneEdges t z es := by
  have hzs : z.size = t.size := hv.inZone_size z hz
  have hn : 0 < z.size := hzs ▸ hv.size_pos
  rw [transitEdges_eq hz hn] at h
  obtain ⟨hlen, hedge⟩ := Except.mapM_range_eq_ok_iff.1 h
  -- what each computed edge is made of
  have hinv := fun k (hk : k < es.length) => edge_eq_ok_inv (hedge k hk)
  have hrange : ∀ k < es.length, edgeStart z k < edgeStop z t.size k := fun k hk =>
    hzs ▸ edgeStart_lt_edgeStop hn (hlen ▸ hk)
  have hsrc : ∀ k (hk : k < es.length), es[k].srcZone = z.getD (edgeStart z k) "" :=
    fun k hk => (hinv k hk).srcZone
  have hrcv : ∀ k (hk : k < es.length), es[k].rcvZone = edgeReceiver z k :=
    fun k hk => (hinv k hk).rcvZone
  -- statements about every edge are proved index by index
  refine ⟨hlen, hedge, hrange, fun k hk => edgeStop_eq_edgeStart _ (hlen ▸ hk),
    hlen ▸ edgeStop_last _, hsrc, hrcv, List.forall_mem_iff_getElem.2 fun k hk => ?_,
    fun k hk => ?_, List.forall_mem_iff_getElem.2 fun k hk => ?_, fun k hk => ?_,
    List.forall_mem_iff_getElem.2 fun k hk => ?_, ?_⟩
  · rw [hrcv k hk, hsrc k hk]
    exact edgeReceiver_ne
  · rw [hrcv k (by omega), hsrc (k + 1) hk]
    exact edgeReceiver_eq (hlen ▸ hk)
  · rw [(hinv k hk).transitNodes, (hinv k hk).srcZone, (hinv k hk).rcvZone]
  · obtain ⟨speeds, hknots, hlo, havg, hhi, -⟩ := (hinv k hk).speeds
    obtain ⟨-, -, hsize⟩ := consecutiveKnots_eq_ok hv hknots
    have hmin := (hinv k hk).minutes_none
    have hpos := hrange k hk
    refine ⟨by rw [hlo]; omega, by rw [havg]; omega, by rw [hhi]; omega, by rw [hmin]; omega⟩
  · exact ⟨(hinv k hk).mmsi, (hinv k hk).label, (hinv k hk).info⟩
  · -- an edge is open exactly when no change follows its first boundary
    have hopen : ∀ k (hk : k < es.length), es[k].isOpen = true ↔ (changes z).length ≤ k := by
      intro k hk
      rw [TransitEdge.isOpen, hrcv k hk, Option.isNone_iff_eq_none, edgeReceiver,
        Option.map_eq_none_iff, List.getElem?_eq_none_iff]
    have hcount : es.length = max 1 (changes z).length := hlen
    rcases Nat.eq_zero_or_pos (changes z).length with h0 | hpos
    · rw [h0, List.length_eq_zero_iff, List.filter_eq_nil_iff]
      exact List.forall_mem_iff_getElem.2 fun k hk => by simp [hopen k hk, h0]
    · have hclosed : ∀ e ∈ es, (!e.isOpen) = true := List.forall_mem_iff_getElem.2 fun k hk => by
        rw [Bool.not_eq_true', Bool.eq_false_iff, ne_eq, hopen k hk]
        omega
      rw [List.filter_eq_self.2 hclosed]
      omega

/-- **Transit edges follow the zone changes.** On a valid track with zone column `z`, the
transit edges are computed exactly when the rows of every zone edge span a time that fits a
signed 64-bit integer, and the edges computed are the zone edges of the track. -/
theorem transitEdges_follow_zone_changes (hv : t.Valid) (hz : t.inZone = some z) :
    ((∃ es, t.transitEdges = .ok es) ↔
        ∀ k < edgeCount z, t.RangeFits (edgeStart z k) (edgeStop z t.size k)) ∧
      ∀ es, t.transitEdges = .ok es → ZoneEdges t z es :=
  ⟨transitEdges_ok_iff hv hz, fun _ h => zoneEdges_of_transitEdges_eq_ok hv hz h⟩

/-- Three rows a minute apart, the last in another zone. -/
def crossing : Track :=
  { mmsi := 1, time := #[0, 60, 120], lon := #[0.0, 0.0, 0.0], lat := #[0.0, 0.0, 0.0],
    cog := #[0.0, 0.0, 0.0], sog := #[0.0, 0.0, 0.0], inZone := some #["A", "A", "B"] }

theorem transitEdges_crossing :
    crossing.Valid ∧ crossing.inZone = some #["A", "A", "B"] ∧
      (((∃ es, crossing.transitEdges = .ok es) ↔
          ∀ k < edgeCount #["A", "A", "B"], crossing.RangeFits (edgeStart #["A", "A", "B"] k)
            (edgeStop #["A", "A", "B"] crossing.size k)) ∧
        ∀ es, crossing.transitEdges = .ok es → ZoneEdges crossing #["A", "A", "B"] es) := by
  have hv : crossing.Valid :=
    ⟨by decide, rfl, rfl, rfl, rfl, fun _ hz => by cases hz; rfl, by decide⟩
  exact ⟨hv, rfl, transitEdges_follow_zone_changes hv rfl⟩

/-- Two rows in one zone, at the least and the greatest signed 64-bit time. -/
def spanning : Track :=
  { mmsi := 1, time := #[-9223372036854775808, 9223372036854775807], lon := #[0.0, 0.0],
    lat := #[0.0, 0.0], cog := #[0.0, 0.0], sog := #[0.0, 0.0], inZone := some #["A", "A"] }

/-- The minutes of the one edge of `spanning` overflow: no edge is returned. -/
theorem transitEdges_spanning_overflows :
    spanning.transitEdges = .error (.overflow .subtract) := by
  rfl

end Track

end Seaway
