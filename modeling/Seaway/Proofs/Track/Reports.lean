import Mathlib
import Seaway.Track.Reports
import Seaway.Proofs.Track.Valid

/-!
# Tracks from reports collapse runs of equal times

A batch becomes a track by keeping the reports that begin a run of equal times
(`Batch.runStarts`): the first report, and every report whose time differs from that of the
report just before it. The batch's loop compares a report with the last report it kept
instead; the two agree because the last report kept always has the time of the report just
before (`keep_eq_ok`).

* `keep_eq_error`: the first report of another vessel is refused, and nothing after it is
  looked at;
* `toTrack_eq_new`: a batch of one vessel is the track `Track.new` makes of its run starts,
  with the attributes of the first run start that carries any;
* `isChain_le_freshAfter_iff`, `isChain_lt_freshAfter`: dropping repeated times keeps the
  times in order exactly when they were, and then leaves them strictly increasing;
* `Batch.toTrack_collapses_runs`: the main statement, with the causes of refusal.
-/

namespace Seaway

namespace Track

variable {mmsi : Nat} {info : VesselInfo} {time : Array Int} {lon lat cog sog : Array Float}

/-- With every column as long as the time column, `Track.new` refuses only an empty track and
times out of order, at the first descent. -/
theorem new_eq_of_sizes (hlon : lon.size = time.size) (hlat : lat.size = time.size)
    (hcog : cog.size = time.size) (hsog : sog.size = time.size) :
    Track.new mmsi info time lon lat cog sog =
      if time.size = 0 then .error (.emptyTrack mmsi)
      else match firstDescent time.toList with
        | some i => .error (.timeOrder mmsi i)
        | none => .ok { mmsi, info, time, lon, lat, cog, sog } := by
  unfold Track.new
  by_cases hn : time.size = 0
  · simp [hn, throw, throwThe, MonadExceptOf.throw, Bind.bind, Except.bind]
  · cases firstDescent time.toList <;>
      simp [hn, hlon, hlat, hcog, hsog, throw, throwThe, MonadExceptOf.throw, Bind.bind,
        Except.bind, ForIn.forIn, pure, Except.pure]

end Track

theorem firstDescent_eq_none_iff {l : List Int} : firstDescent l = none ↔ l.IsChain (· ≤ ·) := by
  induction l with
  | nil => simp [firstDescent]
  | cons a rest ih =>
    cases rest with
    | nil => simp [firstDescent]
    | cons b rest =>
      rw [firstDescent, List.isChain_cons_cons, ← ih]
      by_cases hba : b < a
      · simp [hba]
      · simp [hba, Int.not_lt.1 hba]

namespace Batch

/-- The reports that begin a run of equal times: the first report, and each report whose
time differs from that of the report just before it. -/
def runStarts (rs : List Report) : List Report :=
  rs.take 1 ++ ((rs.zip rs.tail).filter fun p => p.2.time != p.1.time).map (·.2)

/-- The reports of `rs` whose time differs from that of the report before, the first of them
compared with `r`. -/
def freshAfter (r : Report) (rs : List Report) : List Report :=
  (((r :: rs).zip rs).filter fun p => p.2.time != p.1.time).map (·.2)

/-- The attributes of the first report that carries any. -/
def firstInfo (rs : List Report) : Option VesselInfo :=
  rs.findSome? (·.info)

variable {m : Nat} {r s : Report} {rs : List Report}

@[simp] theorem freshAfter_nil : freshAfter r [] = [] := rfl

@[simp] theorem freshAfter_cons :
    freshAfter r (s :: rs) = (if s.time = r.time then [] else [s]) ++ freshAfter s rs := by
  by_cases h : s.time = r.time <;> simp [freshAfter, h]

@[simp] theorem runStarts_nil : runStarts [] = [] := rfl

theorem runStarts_cons : runStarts (r :: rs) = r :: freshAfter r rs := rfl

@[simp] theorem runStarts_eq_nil : runStarts rs = [] ↔ rs = [] := by
  cases rs with
  | nil => simp
  | cons r rs => simp [runStarts_cons]

@[simp] theorem firstInfo_nil : firstInfo [] = none := rfl

@[simp] theorem firstInfo_cons : firstInfo (r :: rs) = (r.info <|> firstInfo rs) := by
  cases h : r.info <;> simp [firstInfo, h]

/-! ## The loop over the reports -/

/-- From the report after `r` on, with the last report kept at the time of `r`, the loop keeps
the reports whose time differs from the one before. -/
theorem keep_eq_ok {kept : Array Report} {info : Option VesselInfo}
    (hm : ∀ s ∈ rs, s.mmsi = m) (hk : kept.back?.map (·.time) = some r.time) :
    keep m rs kept info =
      .ok (kept ++ (freshAfter r rs).toArray, info <|> firstInfo (freshAfter r rs)) := by
  induction rs generalizing r kept info with
  | nil => simp [keep]
  | cons s rs ih =>
    have hms : s.mmsi = m := hm s (List.mem_cons_self ..)
    have hrest : ∀ q ∈ rs, q.mmsi = m := fun q hq => hm q (List.mem_cons_of_mem _ hq)
    by_cases hst : s.time = r.time
    · -- a repeated time: nothing is kept, and the last report kept has the time of `s`
      have hk' : kept.back?.map (·.time) = some s.time := hst ▸ hk
      rw [keep, if_neg (not_not.2 hms), if_pos hk', ih hrest hk']
      simp [hst]
    · -- a new time: `s` is kept, and its attributes count when none came before
      have hne : kept.back?.map (·.time) ≠ some s.time := by
        rw [hk]
        exact fun h => hst (Option.some.inj h).symm
      rw [keep, if_neg (not_not.2 hms), if_neg hne, ih (r := s) hrest (by simp)]
      simp [hst, Option.or_assoc]

/-- The loop refuses the first report of another vessel, naming it and the batch's vessel. -/
theorem keep_eq_error {pre post : List Report} {kept : Array Report} {info : Option VesselInfo}
    (hpre : ∀ q ∈ pre, q.mmsi = m) (hr : r.mmsi ≠ m) :
    keep m (pre ++ r :: post) kept info = .error (.invalidParameter ("report for vessel " ++
      toString r.mmsi ++ " found in batch of vessel " ++ toString m)) := by
  induction pre generalizing kept info with
  | nil => simp [keep, hr]
  | cons q pre ih =>
    have hq : q.mmsi = m := hpre q (List.mem_cons_self ..)
    have hrest : ∀ q ∈ pre, q.mmsi = m := fun q' hq' => hpre q' (List.mem_cons_of_mem _ hq')
    rw [List.cons_append, keep, if_neg (not_not.2 hq)]
    split <;> exact ih hrest

/-- A batch of one vessel's reports is the track of its run starts, with the attributes of
the first run start that carries any. -/
theorem toTrack_eq_new (hm : ∀ r ∈ rs, r.mmsi = m) :
    (Batch.mk m rs).toTrack = Track.new m ((firstInfo (runStarts rs)).getD {})
      ((runStarts rs).map (·.time)).toArray ((runStarts rs).map (·.lon)).toArray
      ((runStarts rs).map (·.lat)).toArray ((runStarts rs).map (·.cog)).toArray
      ((runStarts rs).map (·.sog)).toArray := by
  cases rs with
  | nil => simp [toTrack, keep, Bind.bind, Except.bind]
  | cons r rs =>
    -- the first report is always kept; from there on `keep_eq_ok` applies
    have hfirst : keep m (r :: rs) #[] none = keep m rs #[r] r.info := by
      rw [keep, if_neg (not_not.2 (hm r (List.mem_cons_self ..)))]
      simp
    have hloop : keep m rs #[r] r.info =
        .ok (#[r] ++ (freshAfter r rs).toArray, r.info <|> firstInfo (freshAfter r rs)) :=
      keep_eq_ok (fun q hq => hm q (List.mem_cons_of_mem _ hq)) rfl
    simp only [toTrack, hfirst, hloop, Bind.bind, Except.bind, runStarts_cons, firstInfo_cons]
    simp

/-- A batch is refused at its first report of another vessel, which the fault names. -/
theorem toTrack_eq_error (h : rs.find? (fun q => q.mmsi != m) = some r) :
    (Batch.mk m rs).toTrack = .error (.invalidParameter ("report for vessel " ++
      toString r.mmsi ++ " found in batch of vessel " ++ toString m)) := by
  obtain ⟨hr, pre, post, rfl, hpre⟩ := List.find?_eq_some_iff_append.1 h
  have hpre' : ∀ q ∈ pre, q.mmsi = m := fun q hq => by simpa using hpre q hq
  simp only [toTrack, keep_eq_error hpre' (by simpa using hr), Bind.bind, Except.bind]


/-! ## Times in order -/

/-- Dropping the reports that repeat the time before them keeps the times in order exactly
when they were in order. -/
theorem isChain_le_freshAfter_iff :
    (r.time :: (freshAfter r rs).map (·.time)).IsChain (· ≤ ·) ↔
      (r.time :: rs.map (·.time)).IsChain (· ≤ ·) := by
  induction rs generalizing r with
  | nil => simp
  | cons s rs ih =>
    by_cases hst : s.time = r.time
    · -- `s` is dropped, and `r` stands in for it with the same time
      simp only [freshAfter_cons, List.map_cons, List.isChain_cons_cons, hst, le_refl, true_and]
      rw [← hst]
      exact ih
    · simp only [freshAfter_cons, if_neg hst, List.singleton_append, List.map_cons,
        List.isChain_cons_cons]
      exact and_congr_right fun _ => ih

/-- Times in order are strictly increasing once the repeated ones are dropped. -/
theorem isChain_lt_freshAfter (h : (r.time :: rs.map (·.time)).IsChain (· ≤ ·)) :
    (r.time :: (freshAfter r rs).map (·.time)).IsChain (· < ·) := by
  induction rs generalizing r with
  | nil => simp
  | cons s rs ih =>
    rw [List.map_cons, List.isChain_cons_cons] at h
    by_cases hst : s.time = r.time
    · simp only [freshAfter_cons, if_pos hst, List.nil_append]
      rw [← hst]
      exact ih h.2
    · simp only [freshAfter_cons, if_neg hst, List.singleton_append, List.map_cons,
        List.isChain_cons_cons]
      exact ⟨lt_of_le_of_ne h.1 (Ne.symm hst), ih h.2⟩

/-- With no time repeated next to itself, no report is dropped. -/
theorem freshAfter_eq_self (h : (r.time :: rs.map (·.time)).IsChain (· ≠ ·)) :
    freshAfter r rs = rs := by
  induction rs generalizing r with
  | nil => rfl
  | cons s rs ih =>
    rw [List.map_cons, List.isChain_cons_cons] at h
    rw [freshAfter_cons, if_neg (Ne.symm h.1), ih h.2]
    rfl

theorem isChain_le_runStarts_iff :
    ((runStarts rs).map (·.time)).IsChain (· ≤ ·) ↔ (rs.map (·.time)).IsChain (· ≤ ·) := by
  cases rs with
  | nil => simp
  | cons r rs => exact isChain_le_freshAfter_iff

theorem isChain_lt_runStarts (h : (rs.map (·.time)).IsChain (· ≤ ·)) :
    ((runStarts rs).map (·.time)).IsChain (· < ·) := by
  cases rs with
  | nil => simp
  | cons r rs => exact isChain_lt_freshAfter h

theorem runStarts_eq_self (h : (rs.map (·.time)).IsChain (· ≠ ·)) : runStarts rs = rs := by
  cases rs with
  | nil => rfl
  | cons r rs => rw [runStarts_cons, freshAfter_eq_self h]

/-! ## Refusals -/

/-- A batch of one vessel is refused as empty when it has no reports, and for times out of
order at the first descent among its run starts; otherwise it is the track of its run
starts. -/
theorem toTrack_of_vessel (hm : ∀ r ∈ rs, r.mmsi = m) :
    (Batch.mk m rs).toTrack =
      if rs = [] then .error (.emptyTrack m)
      else match firstDescent ((runStarts rs).map (·.time)) with
        | some i => .error (.timeOrder m i)
        | none => .ok
          { mmsi := m, info := (firstInfo (runStarts rs)).getD {},
            time := ((runStarts rs).map (·.time)).toArray,
            lon := ((runStarts rs).map (·.lon)).toArray,
            lat := ((runStarts rs).map (·.lat)).toArray,
            cog := ((runStarts rs).map (·.cog)).toArray,
            sog := ((runStarts rs).map (·.sog)).toArray } := by
  rw [toTrack_eq_new hm, Track.new_eq_of_sizes (by simp) (by simp) (by simp) (by simp)]
  simp only [List.size_toArray, List.length_map, List.length_eq_zero_iff, runStarts_eq_nil]

/-- A batch of one vessel is refused for a parameter never. -/
theorem toTrack_ne_invalidParameter (hm : ∀ r ∈ rs, r.mmsi = m) (msg : String) :
    (Batch.mk m rs).toTrack ≠ .error (.invalidParameter msg) := by
  rw [toTrack_of_vessel hm]
  split
  · simp
  · split <;> simp

/-- A batch of one vessel with reports in time order is a track whose times increase
strictly. -/
theorem toTrack_time_lt (hm : ∀ r ∈ rs, r.mmsi = m) {t : Track}
    (h : (Batch.mk m rs).toTrack = .ok t) : t.time.toList.Pairwise (· < ·) := by
  rw [toTrack_of_vessel hm] at h
  split at h
  · cases h
  · split at h
    · cases h
    · rename_i hfd
      cases h
      -- no descent among the run starts: the reports are in order, so the run starts increase
      have hle := isChain_le_runStarts_iff.1 (firstDescent_eq_none_iff.1 hfd)
      exact List.isChain_iff_pairwise.1 (isChain_lt_runStarts hle)

/-! ## Batches from columns -/

section Columns

variable {time : Array Int} {lon lat cog sog : Array Float}

/-- The reports of equal-length columns, one per row. -/
theorem ofColumns_eq_ok (hlon : lon.size = time.size) (hlat : lat.size = time.size)
    (hcog : cog.size = time.size) (hsog : sog.size = time.size) :
    ofColumns m time lon lat cog sog = .ok ⟨m, (List.range time.size).map fun i =>
      { mmsi := m, time := time.getD i 0, lon := lon.getD i 0, lat := lat.getD i 0,
        cog := cog.getD i 0, sog := sog.getD i 0 }⟩ := by
  simp [ofColumns, hlon, hlat, hcog, hsog, ForIn.forIn, Bind.bind, Except.bind, pure,
    Except.pure]

/-- Reading a column back from the reports of the rows. -/
theorem map_range_getD {α : Type} (xs : Array α) (d : α) {n : Nat} (hn : xs.size = n) :
    ((List.range n).map (xs.getD · d)).toArray = xs := by
  apply Array.ext
  · simp [hn]
  · intro i h₁ h₂
    simp [Array.getElem?_eq_getElem h₂]

/-- Equal-length columns with strictly increasing times make the track `Track.new` makes of
them, with no attributes. -/
theorem ofColumns_toTrack (hlon : lon.size = time.size) (hlat : lat.size = time.size)
    (hcog : cog.size = time.size) (hsog : sog.size = time.size)
    (hinc : time.toList.Pairwise (· < ·)) :
    (ofColumns m time lon lat cog sog >>= toTrack) = Track.new m {} time lon lat cog sog := by
  rw [ofColumns_eq_ok hlon hlat hcog hsog]
  set rs : List Report := (List.range time.size).map fun i =>
    { mmsi := m, time := time.getD i 0, lon := lon.getD i 0, lat := lat.getD i 0,
      cog := cog.getD i 0, sog := sog.getD i 0 } with hrs
  have htimes : (rs.map (·.time)).toArray = time := by
    rw [hrs, List.map_map]
    exact map_range_getD time 0 rfl
  -- strictly increasing times repeat nothing, so every report is a run start
  have hstarts : runStarts rs = rs := by
    apply runStarts_eq_self
    have hlt : (rs.map (·.time)).Pairwise (· < ·) := by
      have hl : rs.map (·.time) = time.toList := congrArg Array.toList htimes
      rw [hl]
      exact hinc
    exact (List.isChain_iff_pairwise.2 hlt).imp fun _ _ h => ne_of_lt h
  have hinfo : firstInfo rs = none := by
    simp [hrs, firstInfo]
  have hm : ∀ r ∈ rs, r.mmsi = m := by
    simp [hrs]
  show toTrack ⟨m, rs⟩ = _
  rw [toTrack_eq_new hm, hstarts, hinfo, htimes]
  simp only [hrs, List.map_map, Function.comp_def, map_range_getD lon 0 hlon,
    map_range_getD lat 0 hlat, map_range_getD cog 0 hcog, map_range_getD sog 0 hsog]
  rfl

end Columns

/-! ## The main statement -/

/-- **A batch's track collapses runs of equal times.** A batch of vessel `m` is refused for a
parameter exactly when one of its reports belongs to another vessel. Otherwise it is the track
`Track.new` makes of the reports that begin a run of equal times, with the attributes of the
first of them that carries any: it is refused as empty exactly when there are no reports, and
for times out of order exactly when the report times are out of order, at the first descent
counted among the run starts; a track it returns has strictly increasing times. A batch made
of equal-length columns with strictly increasing times is the track `Track.new` makes of the
columns, with no attributes. -/
theorem toTrack_collapses_runs (m : Nat) (rs : List Report) :
    ((∃ msg, (Batch.mk m rs).toTrack = .error (.invalidParameter msg)) ↔
      ∃ r ∈ rs, r.mmsi ≠ m) ∧
    ((∀ r ∈ rs, r.mmsi = m) →
      (Batch.mk m rs).toTrack = Track.new m ((firstInfo (runStarts rs)).getD {})
          ((runStarts rs).map (·.time)).toArray ((runStarts rs).map (·.lon)).toArray
          ((runStarts rs).map (·.lat)).toArray ((runStarts rs).map (·.cog)).toArray
          ((runStarts rs).map (·.sog)).toArray ∧
        ((Batch.mk m rs).toTrack = .error (.emptyTrack m) ↔ rs = []) ∧
        (∀ i, (Batch.mk m rs).toTrack = .error (.timeOrder m i) ↔
          firstDescent ((runStarts rs).map (·.time)) = some i) ∧
        ((∃ i, (Batch.mk m rs).toTrack = .error (.timeOrder m i)) ↔
          ¬(rs.map (·.time)).Pairwise (· ≤ ·)) ∧
        ∀ t, (Batch.mk m rs).toTrack = .ok t → t.time.toList.Pairwise (· < ·)) ∧
    ∀ (time : Array Int) (lon lat cog sog : Array Float), lon.size = time.size →
      lat.size = time.size → cog.size = time.size → sog.size = time.size →
      time.toList.Pairwise (· < ·) →
      (ofColumns m time lon lat cog sog >>= toTrack) = Track.new m {} time lon lat cog sog := by
  refine ⟨⟨fun h => ?_, fun h => ?_⟩, fun hm => ⟨toTrack_eq_new hm, ?_, fun i => ?_, ?_,
    fun t => toTrack_time_lt hm⟩, fun _ _ _ _ _ => ofColumns_toTrack⟩
  · -- a batch of one vessel is never refused for a parameter
    obtain ⟨msg, h⟩ := h
    by_contra hall
    exact toTrack_ne_invalidParameter (fun r hr => not_not.1 fun hne => hall ⟨r, hr, hne⟩) msg h
  · -- the first report of another vessel is refused
    obtain ⟨r, hr⟩ : ∃ r, rs.find? (fun q => q.mmsi != m) = some r :=
      Option.isSome_iff_exists.1 (List.find?_isSome.2 (by simpa using h))
    exact ⟨_, toTrack_eq_error hr⟩
  · rw [toTrack_of_vessel hm]
    by_cases hrs : rs = []
    · simp [hrs]
    · rw [if_neg hrs]
      split <;> simp [hrs]
  · rw [toTrack_of_vessel hm]
    by_cases hrs : rs = []
    · simp [hrs, firstDescent]
    · rw [if_neg hrs]
      split <;> simp_all
  · -- a descent among the run starts is one among the reports
    rw [← List.isChain_iff_pairwise, ← isChain_le_runStarts_iff, ← firstDescent_eq_none_iff,
      toTrack_of_vessel hm]
    by_cases hrs : rs = []
    · simp [hrs, firstDescent]
    · rw [if_neg hrs]
      split <;> simp_all

/-- Three reports of one vessel, the second repeating the first one's time and carrying
attributes. -/
def repeatedTime : List Report :=
  [{ mmsi := 1, time := 100, lon := 1.0, lat := 2.0, cog := 90.0, sog := 10.0 },
    { mmsi := 1, time := 100, lon := 1.5, lat := 2.5, cog := 90.0, sog := 10.0,
      info := some { vesselName := some "NORTHERN STAR" } },
    { mmsi := 1, time := 160, lon := 3.0, lat := 4.0, cog := 90.0, sog := 11.0 }]

/-- The second report of `repeatedTime` is dropped with its attributes, and three columns whose
times increase make the track of their rows. -/
theorem toTrack_collapses_runs_repeatedTime :
    (∀ r ∈ repeatedTime, r.mmsi = 1) ∧
      (Batch.mk 1 repeatedTime).toTrack =
        Track.new 1 {} #[100, 160] #[1.0, 3.0] #[2.0, 4.0] #[90.0, 90.0] #[10.0, 11.0] ∧
      (ofColumns 1 #[0, 10] #[0.0, 0.0] #[0.0, 0.0] #[0.0, 0.0] #[0.0, 0.0] >>= toTrack) =
        Track.new 1 {} #[0, 10] #[0.0, 0.0] #[0.0, 0.0] #[0.0, 0.0] #[0.0, 0.0] := by
  have hm : ∀ r ∈ repeatedTime, r.mmsi = 1 := by decide
  obtain ⟨-, hvessel, hcolumns⟩ := toTrack_collapses_runs 1 repeatedTime
  exact ⟨hm, (hvessel hm).1, hcolumns _ _ _ _ _ rfl rfl rfl rfl (by decide)⟩

end Batch

end Seaway
