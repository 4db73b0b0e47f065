import Mathlib
import Seaway.Proofs.Pathway.Junction
import Seaway.Proofs.Track.Fence

/-!
# Reconstruction is idempotent

Reconstructing one of the pathways of a track again gives it back as the only pathway,
labelled `0`. The reason depends on `minscore`, against the floor of continuity, the least
positive normal double.

* Above the floor, a pathway has no break. Two consecutive rows of it are either consecutive
  rows of the track inside one chunk, which no break separates, or a junction where a chunk
  joined the pathway with a continuity of at least `minscore` (`Deals.step_or_junction`), which
  is above the floor and so no break either (`breaks_eq_false_of_continuity`). Its chunk
  bounds are its two ends, and there is nothing to deal.
* At or below the floor, every continuity reaches `minscore`, so every chunk joins the first
  pathway, which ends up holding the whole track (`reconstruct_of_minscore_le`); a
  relabelled track is reconstructed as the track is (`reconstruct_withLabel`).

`Pathway.reconstruct_idempotent` states both, for thresholds that validation accepts.
-/

namespace Seaway

namespace Pathway

open Real64

variable {t : Track} {p : PathwayParams}

/-! ## Relabelling -/

section Relabel

variable {l : Option Nat}

/-- Dealing a chunk of a relabelled track to relabelled pathways deals it as for the track,
then relabels. -/
theorem deal_withLabel (ps : Array Track) (w : Nat × Nat) :
    deal { t with label := l } p (ps.map fun q => { q with label := l }) w =
      (·.map fun q => { q with label := l }) <$> deal t p ps w := by
  obtain ⟨a, b⟩ := w
  exact deal_map (fun q => rfl) (fun q => rfl) rfl
    (fun q _ => Track.extendChecked_congr rfl rfl) (Track.sliceChecked_congr rfl rfl)

/-- Reconstruction ignores the label of the track: every pathway gets a label of its own. -/
theorem reconstruct_withLabel (t : Track) (l : Option Nat) (p : PathwayParams) :
    reconstruct { t with label := l } p = reconstruct t p := by
  have hdealt : dealt { t with label := l } p = (·.map fun q => { q with label := l }) <$>
      dealt t p :=
    dealt_map (fun _ => True) rfl rfl rfl (fun a b => Track.sliceChecked_congr rfl rfl)
      (fun _ _ => trivial)
      (fun _ _ _ _ _ => trivial) (fun w ps _ => deal_withLabel ps w)
  rw [reconstruct_eq_dealt, reconstruct_eq_dealt, hdealt]
  cases dealt t p with
  | error e => rfl
  | ok ps =>
    show Except.ok _ = Except.ok _
    congr 1
    apply Array.ext
    · simp
    · intro i h₁ h₂
      simp

end Relabel

/-! ## Consecutive rows of a pathway -/

section Rows

variable {l : List Nat} {i x : Nat}

/-- In an increasing list, a member below the entry `i + 1` is at most the entry `i`. -/
theorem le_getElem_of_lt_succ (hs : l.Pairwise (· < ·)) (hi : i + 1 < l.length) (hx : x ∈ l)
    (hlt : x < l[i + 1]) : x ≤ l[i] := by
  obtain ⟨m, hm, rfl⟩ := List.getElem_of_mem hx
  rcases Nat.lt_or_ge m (i + 1) with h | h
  · rcases Nat.lt_or_ge m i with h' | h'
    · exact (List.pairwise_iff_getElem.1 hs m i hm (by omega) h').le
    · obtain rfl : m = i := by omega
      exact le_rfl
  · rcases Nat.lt_or_ge (i + 1) m with h' | h'
    · exact absurd (List.pairwise_iff_getElem.1 hs (i + 1) m hi hm h') (Nat.lt_asymm hlt)
    · obtain rfl : m = i + 1 := by omega
      exact absurd hlt (Nat.lt_irrefl _)

/-- A pathway is continued at one of its rows from the row before it. -/
theorem scoreAt_getElem_succ (hs : l.Pairwise (· < ·)) (hi : i + 1 < l.length) :
    scoreAt t p l l[i + 1] = continuity (Anchor.ofRow t l[i]) (Anchor.ofRow t l[i + 1]) p := by
  -- the rows below `l[i + 1]` are the first `i + 1`, the others are not below it
  have hne : l.take (i + 1) ≠ [] := by
    rw [← List.length_pos_iff, List.length_take]
    omega
  have hlt : ∀ r ∈ l.take (i + 1), r < l[i + 1] := by
    intro r hr
    obtain ⟨m, hm, rfl⟩ := List.getElem_of_mem hr
    simp only [List.length_take] at hm
    rw [List.getElem_take]
    exact List.pairwise_iff_getElem.1 hs m (i + 1) _ hi (by omega)
  have hge : ∀ r ∈ l.drop (i + 1), l[i + 1] ≤ r := by
    intro r hr
    obtain ⟨m, hm, rfl⟩ := List.getElem_of_mem hr
    simp only [List.length_drop] at hm
    rw [List.getElem_drop]
    rcases Nat.eq_zero_or_pos m with rfl | hm₀
    · exact le_rfl
    · exact (List.pairwise_iff_getElem.1 hs (i + 1) (i + 1 + m) hi (by omega) (by omega)).le
  have h := scoreAt_append (t := t) (p := p) (l := l.take (i + 1)) hge
  rw [List.take_append_drop, scoreAt_of_lt hne hlt, Track.last_gather hne] at h
  rw [h, List.getLast_take, List.getElem?_eq_getElem (by omega), Option.getD_some]
  rfl

/-- A row below the last bound lies in one of the chunks before it. -/
theorem exists_chunk {bs : List Nat} (h0 : bs.getD 0 0 = 0) :
    ∀ d, x < bs.getD d 0 → ∃ j < d, bs.getD j 0 ≤ x ∧ x < bs.getD (j + 1) 0
  | 0, hx => by omega
  | d + 1, hx => by
    by_cases h : x < bs.getD d 0
    · obtain ⟨j, hj, hj'⟩ := exists_chunk h0 d h
      exact ⟨j, by omega, hj'⟩
    · exact ⟨d, by omega, by omega, hx⟩

variable {bs : List Nat} {d : Nat} {rows : List (List Nat)}

/-- A row lies in one pathway only. -/
theorem Deals.eq_of_mem (hinv : Deals t p bs d rows) {k k' : Nat} (hk : k < rows.length)
    (hk' : k' < rows.length) (hx : x ∈ rows[k]) (hx' : x ∈ rows[k']) : k = k' := by
  have hdis := (List.nodup_flatten.1 (hinv.perm.nodup_iff.2 List.nodup_range)).2
  by_contra hne
  rcases Nat.lt_or_gt_of_ne hne with hlt | hlt
  · exact List.pairwise_iff_getElem.1 hdis k k' hk hk' hlt hx hx'
  · exact List.pairwise_iff_getElem.1 hdis k' k hk' hk hlt hx' hx

/-- Two consecutive rows of a pathway are consecutive rows of the track inside one chunk, or
the second starts a chunk that joined the pathway, continuing it from the first with at least
`minscore`. -/
theorem Deals.step_or_junction (hinv : Deals t p bs d rows) (hbs : bs.Pairwise (· < ·))
    (h0 : bs.getD 0 0 = 0) (hd : d < bs.length) {k : Nat} (hk : k < rows.length)
    (hi : i + 1 < rows[k].length) :
    (rows[k][i + 1] = rows[k][i] + 1 ∧ rows[k][i + 1] ∉ bs) ∨
      ∃ c, continuity (Anchor.ofRow t rows[k][i]) (Anchor.ofRow t rows[k][i + 1]) p = .ok c ∧
        p.minscore ≤ c := by
  have hl := List.getElem_mem hk
  have hs := hinv.sorted _ hl
  have hlt : rows[k][i] < rows[k][i + 1] :=
    List.pairwise_iff_getElem.1 hs i (i + 1) (by omega) hi (by omega)
  have htop : rows[k][i + 1] < bs.getD d 0 := hinv.lt_top _ hl _ (List.getElem_mem hi)
  by_cases hmem : rows[k][i + 1] ∈ bs
  · -- a chunk starts at the row: it joined this pathway, which was open
    right
    obtain ⟨j, hj, hbj⟩ := List.getElem_of_mem hmem
    have hbj' : bs.getD j 0 = rows[k][i + 1] := by
      rw [List.getD_eq_getElem?_getD, List.getElem?_eq_getElem hj, Option.getD_some, hbj]
    have hjd : j < d := by
      by_contra hjd
      rcases Nat.eq_or_lt_of_le (Nat.not_lt.1 hjd) with rfl | hdj
      · omega
      · have := getD_lt_getD hbs hdj hj
        omega
    have hdealt := hinv.dealt j hjd
    rw [hbj'] at hdealt
    obtain ⟨c, hc, hmin, -⟩ :=
      hdealt.joined k hk (List.getElem_mem hi) ⟨_, List.getElem_mem (by omega), hlt⟩
    rw [scoreAt_getElem_succ hs hi] at hc
    exact ⟨c, hc, hmin⟩
  · -- inside a chunk: the row before lies in the same chunk, hence in this pathway
    left
    obtain ⟨j, hjd, hj₁, hj₂⟩ := exists_chunk h0 d htop
    obtain ⟨k', hk', hchunk⟩ := hinv.chunk j hjd
    have hj₁' : bs.getD j 0 < rows[k][i + 1] := by
      refine Nat.lt_of_le_of_ne hj₁ fun h => hmem ?_
      rw [← h, List.getD_eq_getElem?_getD, List.getElem?_eq_getElem (by omega), Option.getD_some]
      exact List.getElem_mem _
    have hkk : k = k' := hinv.eq_of_mem hk hk' (List.getElem_mem hi) (hchunk _ hj₁ hj₂)
    subst hkk
    have hprev := le_getElem_of_lt_succ hs hi (hchunk (rows[k][i + 1] - 1) (by omega) (by omega))
      (by omega)
    exact ⟨by omega, hmem⟩

end Rows

/-! ## Reconstructing a pathway again -/

section Again

variable {ps : Array Track}

/-- Validated thresholds are positive, and `minscore` is no NaN. -/
theorem validate_eq_ok {raw : PathwayParams} (h : raw.validate = .ok p) :
    0 < p.distanceThreshold ∧ 0 < p.speedThreshold ∧ p.minscore.isNaN = false := by
  unfold PathwayParams.validate at h
  split at h
  · cases h
  · rename_i hd
    split at h
    · cases h
    · rename_i hs
      simp only [Bool.not_eq_true', decide_eq_false_iff_not, not_not] at hd hs
      split at h
      · cases h
        exact ⟨hd, hs, show minPositive.isNaN = false from rfl⟩
      · split at h
        · rename_i hm
          cases h
          exact ⟨hd, hs, isNaN_right_of_lt hm.1⟩
        · cases h

/-- A valid track whose chunk bounds are its two ends is its own only pathway. -/
theorem reconstruct_of_chunkBounds (hv : t.Valid) (h : chunkBounds t p = .ok [0, t.size]) :
    reconstruct t p = .ok #[{ t with label := some 0 }] := by
  have hd : dealt t p = .ok #[t] := by
    unfold dealt
    split
    · rfl
    · rw [h, Except.ok_bind]
      dsimp only
      rw [Track.sliceChecked_eq_ok hv.size_pos le_rfl, Except.ok_bind, Track.slice_all hv]
      rfl
  rw [reconstruct_eq_dealt, hd]
  show Except.ok _ = Except.ok _
  simp

/-- The position of a row of a gathered track is that of the row it was gathered from. -/
theorem ofRow_gather {rows : List Nat} {i : Nat} (hi : i < rows.length) :
    Anchor.ofRow (t.gather rows) i = Anchor.ofRow t rows[i] := by
  simp [Anchor.ofRow, Track.gather, List.getElem?_eq_getElem hi]

variable {bs : List Nat} {rows : List (List Nat)}

/-- The first row of a pathway is its least. -/
theorem Deals.head_le {d : Nat} (hinv : Deals t p bs d rows) {k x : Nat} {xs : List Nat}
    (hk : k < rows.length) (hx : rows[k] = x :: xs) : ∀ r ∈ rows[k], x ≤ r := by
  intro r hr
  have hs := hinv.sorted _ (List.getElem_mem hk)
  rw [hx] at hr hs
  rcases List.mem_cons.1 hr with rfl | hr
  · exact le_rfl
  · exact (List.rel_of_pairwise_cons hs hr).le

/-- The first row of a pathway starts a chunk: the chunk holding it lies in the pathway, and
no row of the pathway is below it. -/
theorem Deals.exists_bound_eq_head {d : Nat} (hinv : Deals t p bs d rows)
    (h0 : bs.getD 0 0 = 0) {k x : Nat} {xs : List Nat} (hk : k < rows.length)
    (hx : rows[k] = x :: xs) : ∃ j < d, bs.getD j 0 = x := by
  have hxmem : x ∈ rows[k] := hx ▸ List.mem_cons_self
  have hmin := hinv.head_le hk hx
  obtain ⟨j, hjd, hj₁, hj₂⟩ := exists_chunk h0 _ (hinv.lt_top _ (List.getElem_mem hk) x hxmem)
  obtain ⟨k', hk', hchunk⟩ := hinv.chunk j hjd
  obtain rfl : k = k' := hinv.eq_of_mem hk hk' hxmem (hchunk x hj₁ hj₂)
  exact ⟨j, hjd, Nat.le_antisymm hj₁ (hmin _ (hchunk _ le_rfl (Nat.lt_of_le_of_lt hj₁ hj₂)))⟩

/-- When `minscore` is at most the floor of continuity, no chunk opens a pathway: a second
pathway would start at a chunk that the open first pathway did not take, yet every continuity
reaches `minscore`. -/
theorem Deals.length_eq_one {d : Nat} (hinv : Deals t p bs d rows) (h0 : bs.getD 0 0 = 0)
    (hm : p.minscore ≤ minPositive) : rows.length = 1 := by
  have hpos := List.length_pos_iff.2 hinv.ne_nil
  by_contra hne
  have h1 : 1 < rows.length := by omega
  obtain ⟨y, ys, hy⟩ := List.exists_cons_of_ne_nil
    (hinv.pathway_ne_nil _ (List.getElem_mem (by omega : 0 < rows.length)))
  obtain ⟨x, xs, hx⟩ := List.exists_cons_of_ne_nil (hinv.pathway_ne_nil _ (List.getElem_mem h1))
  have hyx : y < x := by
    have := List.pairwise_iff_getElem.1 hinv.heads 0 1 (by simp; omega) (by simp; omega)
      (by omega)
    simpa [hx, hy] using this
  obtain ⟨j, hjd, hbx⟩ := hinv.exists_bound_eq_head h0 h1 hx
  have hdealt := hinv.dealt j hjd
  rw [hbx] at hdealt
  -- pathway `0` was open when pathway `1` started, with a continuity at the floor or above
  have hopen : OpenAt rows[0] x := ⟨y, hy ▸ List.mem_cons_self, hyx⟩
  obtain ⟨c, hc⟩ := hdealt.scored 0 (by omega) hopen
  exact hdealt.opened 1 h1 (hx ▸ List.mem_cons_self) (not_openAt (hinv.head_le h1 hx)) 0
    (by omega) hopen c hc (le_trans hm (minPositive_le_continuity hc))

/-- When `minscore` is at most the floor of continuity, every chunk joins the first pathway,
which ends up holding the whole track. -/
theorem reconstruct_of_minscore_le (hv : t.Valid) (hm : p.minscore ≤ minPositive)
    (h : reconstruct t p = .ok ps) : ps.toList = [{ t with label := some 0 }] := by
  obtain ⟨bs, rows, hcb, hinv, hps⟩ := reconstruct_eq_ok hv h
  obtain ⟨-, -, h0, -, htop⟩ := chunkBounds_sorted hv hcb
  obtain ⟨l, rfl⟩ := List.length_eq_one_iff.1 (hinv.length_eq_one h0 hm)
  -- the one pathway holds every row once, in order
  have hl : l = List.range t.size := by
    have hperm := hinv.perm
    rw [htop, List.flatten_singleton] at hperm
    exact hperm.eq_of_pairwise (fun a b _ _ hab hba => absurd hab (Nat.lt_asymm hba))
      (hinv.sorted l (List.mem_singleton_self l)) List.pairwise_lt_range
  rw [hps, hl]
  simp [Track.gather_range hv]

/-- Above the floor of continuity, two consecutive rows of a pathway are separated by no break,
and their seconds apart fit a signed 64-bit integer. -/
theorem Deals.step_clear (hv : t.Valid) (hd : 0 < p.distanceThreshold)
    (hs : 0 < p.speedThreshold) (hm : minPositive < p.minscore) (hcb : chunkBounds t p = .ok bs)
    (hinv : Deals t p bs (bs.length - 1) rows) {k i : Nat} (hk : k < rows.length)
    (hi : i + 1 < rows[k].length) :
    Breaks p (Anchor.ofRow t rows[k][i]) (Anchor.ofRow t rows[k][i + 1]) = false ∧
      t.time.getD rows[k][i + 1] 0 - t.time.getD rows[k][i] 0 ≤ maxInt64 := by
  obtain ⟨hbs, -, h0, h2, htop⟩ := chunkBounds_sorted hv hcb
  have hl := List.getElem_mem hk
  have hlt : rows[k][i] < rows[k][i + 1] :=
    List.pairwise_iff_getElem.1 (hinv.sorted _ hl) i (i + 1) (by omega) hi (by omega)
  have hrow : rows[k][i + 1] < t.size := htop ▸ hinv.lt_top _ hl _ (List.getElem_mem hi)
  rcases hinv.step_or_junction hbs h0 (by omega) hk hi with ⟨hsucc, hnot⟩ | ⟨c, hc, hmc⟩
  · -- inside a chunk: the row is no bound, so no break precedes it
    obtain ⟨hfit, rfl⟩ := (chunkBounds_eq_ok_iff hv (by omega)).1 hcb
    have hnb : ¬(0 < rows[k][i + 1] ∧ rows[k][i + 1] < t.size) ∨
        Breaks p (Anchor.ofRow t (rows[k][i + 1] - 1)) (Anchor.ofRow t rows[k][i + 1]) = false := by
      by_contra hb
      simp only [not_or, not_not, Bool.not_eq_false] at hb
      exact hnot (List.mem_cons_of_mem _ (List.mem_append_left _ (mem_breakRows.2 hb)))
    rw [hsucc, Nat.add_sub_cancel] at hnb
    rw [hsucc]
    exact ⟨hnb.resolve_left (by omega), hfit _ (by omega)⟩
  · -- a junction: its continuity reached `minscore`, above the floor
    have h₀ : 0 ≤ t.time.getD rows[k][i + 1] 0 - t.time.getD rows[k][i] 0 :=
      Int.sub_nonneg.2 (hv.time_mono hlt.le hrow)
    exact ⟨breaks_eq_false_of_continuity hd hs h₀ hc (lt_of_lt_of_le hm hmc), continuity_fits hc⟩

/-- Rows of a track gathered into a valid track are one chunk when no two consecutive ones are
separated by a break and their seconds apart fit. -/
theorem chunkBounds_gather {l : List Nat} {lab : Option Nat}
    (hq : ({ t.gather l with label := lab } : Track).Valid)
    (hstep : ∀ i (hi : i + 1 < l.length),
      Breaks p (Anchor.ofRow t l[i]) (Anchor.ofRow t l[i + 1]) = false ∧
        t.time.getD l[i + 1] 0 - t.time.getD l[i] 0 ≤ maxInt64) :
    chunkBounds { t.gather l with label := lab } p =
      .ok [0, ({ t.gather l with label := lab } : Track).size] := by
  have hsize : ({ t.gather l with label := lab } : Track).size = l.length := Track.size_gather
  refine chunkBounds_eq_single hq (fun i hi => ?_) (fun i hi => ?_)
  · -- the positions of the gathered track are those of its rows
    have hi' : i + 1 < l.length := hsize ▸ hi
    show (Anchor.ofRow (t.gather l) (i + 1)).time - (Anchor.ofRow (t.gather l) i).time ≤ maxInt64
    rw [ofRow_gather hi', ofRow_gather (by omega)]
    exact (hstep i hi').2
  · have hi' : i + 1 < l.length := hsize ▸ hi
    show Breaks p (Anchor.ofRow (t.gather l) i) (Anchor.ofRow (t.gather l) (i + 1)) = false
    rw [ofRow_gather hi', ofRow_gather (by omega)]
    exact (hstep i hi').1

/-- Above the floor of continuity, every pathway of a valid track is one chunk. -/
theorem chunkBounds_of_minPositive_lt (hv : t.Valid) (hd : 0 < p.distanceThreshold)
    (hs : 0 < p.speedThreshold) (hm : minPositive < p.minscore) (h : reconstruct t p = .ok ps) :
    ∀ q ∈ ps.toList, chunkBounds q p = .ok [0, q.size] := by
  obtain ⟨bs, rows, hcb, hinv, hps⟩ := reconstruct_eq_ok hv h
  intro q hq
  have hqv := (Track.reconstruct_derivedFrom hv h q hq).valid
  rw [hps, List.mem_mapIdx] at hq
  obtain ⟨k, hk, rfl⟩ := hq
  exact chunkBounds_gather hqv fun i hi => hinv.step_clear hv hd hs hm hcb hk hi

end Again

/-! ## Idempotence -/

/-- **Reconstruction is idempotent.** For thresholds that validation accepts, every pathway
that the reconstruction of a valid track returns is reconstructed again as itself, its only
pathway, labelled `0`. When `minscore` is above the least positive normal double, the floor of
continuity, it is because the pathway is one chunk; when `minscore` is at most the floor, it is
because every chunk joined the first pathway, the whole track. -/
theorem reconstruct_idempotent {raw : PathwayParams} {ps : Array Track} (hv : t.Valid)
    (hp : raw.validate = .ok p) (h : reconstruct t p = .ok ps) :
    (minPositive < p.minscore → ∀ q ∈ ps.toList, chunkBounds q p = .ok [0, q.size]) ∧
      (p.minscore ≤ minPositive → ps.toList = [{ t with label := some 0 }]) ∧
      ∀ q ∈ ps.toList, reconstruct q p = .ok #[{ q with label := some 0 }] := by
  obtain ⟨hd, hs, hn⟩ := validate_eq_ok hp
  have habove := fun hm => chunkBounds_of_minPositive_lt hv hd hs hm h
  have hbelow := fun hm => reconstruct_of_minscore_le hv hm h
  refine ⟨habove, hbelow, fun q hq => ?_⟩
  by_cases hm : minPositive < p.minscore
  · exact reconstruct_of_chunkBounds (Track.reconstruct_derivedFrom hv h q hq).valid
      (habove hm q hq)
  · -- the whole track, relabelled, is reconstructed as the track is
    have hps := hbelow (le_of_not_lt hn rfl hm)
    rw [hps, List.mem_singleton] at hq
    subst hq
    rw [reconstruct_withLabel, h]
    exact congrArg Except.ok (Array.toList_inj.1 hps)

/-- The default thresholds pass validation with `minscore` above the floor, so each pathway
of `zigzag`, a track of three rows, is one chunk and is reconstructed again as itself. -/
theorem reconstruct_idempotent_zigzag :
    ({} : PathwayParams).validate = .ok {} ∧ minPositive < ({} : PathwayParams).minscore ∧
      ∃ ps, reconstruct zigzag {} = .ok ps ∧
        (minPositive < ({} : PathwayParams).minscore →
          ∀ q ∈ ps.toList, chunkBounds q {} = .ok [0, q.size]) ∧
        (({} : PathwayParams).minscore ≤ minPositive →
          ps.toList = [{ zigzag with label := some 0 }]) ∧
        ∀ q ∈ ps.toList, reconstruct q {} = .ok #[{ q with label := some 0 }] := by
  have hp : ({} : PathwayParams).validate = .ok {} := rfl
  obtain ⟨ps, h⟩ := reconstruct_ok (p := {}) zigzag_valid zigzag_rangeFits
  exact ⟨hp, by decide, ps, h, reconstruct_idempotent zigzag_valid hp h⟩

end Pathway

end Seaway
