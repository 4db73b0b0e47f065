import Mathlib
import Seaway.Proofs.Order
import Seaway.Proofs.Track.Rows

/-!
# Continuity, the best pathway and chunk bounds

The three computations that pathway reconstruction repeats for every chunk:

* `continuity` is never NaN nor below the least positive normal double, and is computed
  exactly between two positions whose seconds apart fit a signed 64-bit integer in absolute
  value (`continuity_ok_iff`);
* `best` finds, among the pathways open, the one a position continues best: its score is at
  least every other score, and above the scores of the pathways after it, so that of equal
  scores the last pathway wins (`best_eq_ok`); it is computed exactly when every continuity
  is (`best_ok_iff`), and `best_latest_maximum` gathers the two;
* `chunkBounds` cuts a track at row `0`, at increasing rows strictly inside it, and at its
  end (`chunkBounds_eq_ok`).
-/

namespace Seaway

namespace Pathway

variable {p : PathwayParams}

/-! ## Continuity -/

theorem continuity_isNaN {e s : Anchor} {c : Float} (h : continuity e s p = .ok c) :
    c.isNaN = false := by
  unfold continuity at h
  obtain ⟨dt, -, h⟩ := Except.bind_eq_ok.1 h
  obtain ⟨el, -, h⟩ := Except.bind_eq_ok.1 h
  cases h
  exact Real64.atLeast_isNaN (by rfl)

theorem le_atLeast {x b : Float} (hb : b.isNaN = false) : b ≤ Real64.atLeast x b := by
  unfold Real64.atLeast
  split
  · exact Real64.le_of_lt ‹b < x›
  · exact Real64.le_refl hb

/-- Continuity never falls below the least positive normal double. -/
theorem minPositive_le_continuity {e s : Anchor} {c : Float} (h : continuity e s p = .ok c) :
    Real64.minPositive ≤ c := by
  unfold continuity at h
  obtain ⟨dt, -, h⟩ := Except.bind_eq_ok.1 h
  obtain ⟨el, -, h⟩ := Except.bind_eq_ok.1 h
  cases h
  exact le_atLeast rfl

theorem absInt64_eq_ok_iff {a d : Int} :
    absInt64 a = .ok d ↔ d = a.natAbs ∧ (a.natAbs : Int) ≤ maxInt64 := by
  have hmin : minInt64 ≤ (a.natAbs : Int) := by
    simp only [minInt64]
    omega
  unfold absInt64 fitsInt64
  split
  · rename_i h
    simp only [decide_eq_true_eq] at h
    simp only [Except.ok.injEq, h.2, and_true]
    exact eq_comm
  · rename_i h
    simp only [decide_eq_true_eq] at h
    simp only [reduceCtorEq, false_iff, not_and]
    exact fun _ h₂ => h ⟨hmin, h₂⟩

/-- Continuity is computed exactly when the seconds between the two positions fit a signed
64-bit integer in absolute value: the least 64-bit value passes the subtraction but not the
absolute value. -/
theorem continuity_ok_iff {e s : Anchor} :
    (∃ c, continuity e s p = .ok c) ↔ -maxInt64 ≤ s.time - e.time ∧ s.time - e.time ≤ maxInt64 := by
  have hpow : Nat.pow 2 63 = 9223372036854775808 := rfl
  constructor
  · rintro ⟨c, h⟩
    unfold continuity at h
    obtain ⟨dt, hdt, h⟩ := Except.bind_eq_ok.1 h
    obtain ⟨el, hel, -⟩ := Except.bind_eq_ok.1 h
    obtain ⟨rfl, -, h₁⟩ := subInt64_eq_ok_iff.1 hdt
    obtain ⟨-, h₂⟩ := absInt64_eq_ok_iff.1 hel
    omega
  · rintro ⟨h₀, h₁⟩
    have hsub : subInt64 s.time e.time = .ok (s.time - e.time) := by
      refine subInt64_eq_ok_iff.2 ⟨rfl, ?_, h₁⟩
      simp only [minInt64, maxInt64, hpow] at h₀ ⊢
      omega
    have habs : absInt64 (s.time - e.time) = .ok ((s.time - e.time).natAbs : Int) :=
      absInt64_eq_ok_iff.2 ⟨rfl, by omega⟩
    simp only [continuity, hsub, habs, Except.ok_bind]
    exact ⟨_, rfl⟩

/-- Continuity is computed from a position to a later one whose seconds apart fit a signed
64-bit integer. -/
theorem continuity_ok {e s : Anchor} (h₀ : 0 ≤ s.time - e.time) (h₁ : s.time - e.time ≤ maxInt64) :
    ∃ c, continuity e s p = .ok c := by
  have hfits : fitsInt64 ((s.time - e.time).natAbs) = true := by
    have hpow : Nat.pow 2 63 = 9223372036854775808 := rfl
    simp only [fitsInt64, minInt64, maxInt64, hpow, decide_eq_true_eq] at h₁ ⊢
    omega
  simp only [continuity, subInt64_eq_ok h₀ h₁, Bind.bind, Except.bind, absInt64, hfits, if_true]
  exact ⟨_, rfl⟩

/-! ## The best pathway -/

section Best

variable {head : Anchor} {qs : List Track} {q : Track}

/-- `best` looks at the pathways one after another. -/
theorem best_append (qs : List Track) (q : Track) :
    best (qs ++ [q]) head p = (best qs head p >>= fun r =>
      (fun c => if r.2 ≤ c then (qs.length, c) else r) <$> continuity (Anchor.last q) head p) := by
  simp [best, List.zipIdx_append, List.foldlM_append]

/-- Among pathways `qs`, `best` picks a pathway `i` whose continuity `s` with `head` is at
least that of every pathway, and above that of every pathway after `i`. -/
theorem best_eq_ok {i : Nat} {s : Float} (h : best qs head p = .ok (i, s)) (hqs : qs ≠ []) :
    ∃ hi : i < qs.length, continuity (Anchor.last qs[i]) head p = .ok s ∧
      ∀ k (hk : k < qs.length), ∃ c, continuity (Anchor.last qs[k]) head p = .ok c ∧
        c ≤ s ∧ (i < k → c < s) := by
  induction qs using List.reverseRecOn generalizing i s with
  | nil => exact absurd rfl hqs
  | append_singleton qs q ih =>
    rw [best_append] at h
    obtain ⟨⟨i', s'⟩, hr, h⟩ := Except.bind_eq_ok.1 h
    obtain ⟨c, hc, h⟩ := Except.map_eq_ok.1 h
    have hcn := continuity_isNaN hc
    -- the scores of the earlier pathways, and what the last one adds
    have hlast : ∀ hk : qs.length < (qs ++ [q]).length, (qs ++ [q])[qs.length] = q := by simp
    have hprev : ∀ k (hk : k < qs.length) (hk' : k < (qs ++ [q]).length),
        (qs ++ [q])[k] = qs[k] := fun k hk _ => List.getElem_append_left hk
    rcases eq_or_ne qs [] with rfl | hne
    · -- the first pathway is above the start value `-∞`
      cases hr
      rw [if_pos (Real64.negInf_le hcn)] at h
      obtain ⟨rfl, rfl⟩ := Prod.mk.inj h
      refine ⟨by simp, by simpa using hc, fun k hk => ?_⟩
      have hk0 : k = 0 := by simpa using hk
      subst hk0
      exact ⟨c, by simpa using hc, Real64.le_refl hcn, fun h => absurd h (Nat.lt_irrefl 0)⟩
    · obtain ⟨hi', hs', hall⟩ := ih hr hne
      have hsn : s'.isNaN = false := continuity_isNaN hs'
      split at h
      · -- the last pathway scores at least the best so far and takes over
        rename_i hle
        obtain ⟨rfl, rfl⟩ := Prod.mk.inj h
        refine ⟨by simp, by rw [hlast]; exact hc, fun k hk => ?_⟩
        rcases Nat.lt_or_ge k qs.length with hk' | hk'
        · obtain ⟨c', hc', hle', -⟩ := hall k hk'
          exact ⟨c', by rw [hprev k hk' hk]; exact hc', Real64.le_trans hle' hle,
            fun h => absurd h (by omega)⟩
        · have hk'' : k = qs.length := by simp at hk; omega
          subst hk''
          exact ⟨c, by rw [hlast]; exact hc, Real64.le_refl hcn, fun h => absurd h (Nat.lt_irrefl _)⟩
      · -- the best so far stays, strictly above the last pathway
        rename_i hle
        obtain ⟨rfl, rfl⟩ := Prod.mk.inj h
        have hlt : c < s' := Real64.lt_of_not_le hsn hcn hle
        refine ⟨by simp; omega, by rw [hprev i' hi']; exact hs', fun k hk => ?_⟩
        rcases Nat.lt_or_ge k qs.length with hk' | hk'
        · obtain ⟨c', hc', hle', hlt'⟩ := hall k hk'
          exact ⟨c', by rw [hprev k hk' hk]; exact hc', hle', hlt'⟩
        · have hk'' : k = qs.length := by simp at hk; omega
          subst hk''
          exact ⟨c, by rw [hlast]; exact hc, Real64.le_of_lt hlt, fun _ => hlt⟩

/-- `best` succeeds when the continuity with every pathway is computed. -/
theorem best_ok (h : ∀ q ∈ qs, ∃ c, continuity (Anchor.last q) head p = .ok c) :
    ∃ r, best qs head p = .ok r := by
  induction qs using List.reverseRecOn with
  | nil => exact ⟨_, rfl⟩
  | append_singleton qs q ih =>
    obtain ⟨r, hr⟩ := ih fun q' hq' => h q' (List.mem_append_left _ hq')
    obtain ⟨c, hc⟩ := h q (by simp)
    exact ⟨_, by rw [best_append, hr, hc]; rfl⟩

/-- `best` is computed exactly when the continuity with every pathway is. -/
theorem best_ok_iff :
    (∃ r, best qs head p = .ok r) ↔ ∀ q ∈ qs, ∃ c, continuity (Anchor.last q) head p = .ok c := by
  refine ⟨?_, best_ok⟩
  induction qs using List.reverseRecOn with
  | nil => simp
  | append_singleton qs q ih =>
    rintro ⟨r, h⟩
    rw [best_append] at h
    obtain ⟨r', hr, h⟩ := Except.bind_eq_ok.1 h
    obtain ⟨c, hc, -⟩ := Except.map_eq_ok.1 h
    intro q' hq'
    rcases List.mem_append.1 hq' with hq' | hq'
    · exact ih ⟨r', hr⟩ q' hq'
    · rw [List.mem_singleton.1 hq']
      exact ⟨c, hc⟩

/-- **The best pathway is the last of greatest continuity.** Whatever the thresholds,
continuity is never NaN and never below the least positive normal double, and it is computed
exactly when the seconds between the two positions fit a signed 64-bit integer in absolute
value. Among pathways `qs ≠ []`, `best` is computed exactly when the seconds from every
pathway's last position to `head` fit so, and it returns a pathway `i` with its continuity `s`:
no pathway scores above `s`, and every pathway after `i` scores below it. -/
theorem best_latest_maximum (hqs : qs ≠ []) :
    (∀ a b : Anchor, ∀ c, continuity a b p = .ok c → c.isNaN = false ∧ Real64.minPositive ≤ c) ∧
    (∀ a b : Anchor, (∃ c, continuity a b p = .ok c) ↔
      -maxInt64 ≤ b.time - a.time ∧ b.time - a.time ≤ maxInt64) ∧
    ((∃ r, best qs head p = .ok r) ↔ ∀ q ∈ qs,
      -maxInt64 ≤ head.time - (Anchor.last q).time ∧ head.time - (Anchor.last q).time ≤ maxInt64) ∧
    ∀ i s, best qs head p = .ok (i, s) →
      ∃ hi : i < qs.length, continuity (Anchor.last qs[i]) head p = .ok s ∧
        ∀ k (hk : k < qs.length), ∃ c, continuity (Anchor.last qs[k]) head p = .ok c ∧
          c ≤ s ∧ (i < k → c < s) := by
  refine ⟨fun a b c h => ⟨continuity_isNaN h, minPositive_le_continuity h⟩,
    fun a b => continuity_ok_iff, ?_, fun i s h => best_eq_ok h hqs⟩
  rw [best_ok_iff]
  exact forall₂_congr fun q _ => continuity_ok_iff

/-- A pathway of one row, at the origin at time zero. -/
def berth : Track :=
  { mmsi := 1, time := #[0], lon := #[0.0], lat := #[0.0], cog := #[0.0], sog := #[0.0] }

/-- Of two pathways that end alike, the later one is the best. -/
theorem best_latest_maximum_twins :
    [berth, berth] ≠ [] ∧ ∃ s, best [berth, berth] (Anchor.last berth) {} = .ok (1, s) := by
  have hne : [berth, berth] ≠ [] := by simp
  obtain ⟨-, -, hok, hmax⟩ :=
    @best_latest_maximum {} (Anchor.last berth) [berth, berth] hne
  obtain ⟨⟨i, s⟩, hr⟩ := hok.2 fun q hq => by
    rw [show q = berth by simpa using hq]
    decide
  obtain ⟨hi, hs, hall⟩ := hmax i s hr
  obtain ⟨c, hc, -, hlt⟩ := hall 1 (by simp)
  -- both pathways end alike, so a best first pathway would score below itself
  have hi1 : i = 1 := by
    have hi2 : i < 2 := by simpa using hi
    refine (Nat.lt_or_ge i 1).elim (fun h0 => ?_) (fun h1 => by omega)
    have hcs : c = s := by
      have hi0 : i = 0 := by omega
      subst hi0
      have hs' : continuity (Anchor.last berth) (Anchor.last berth) {} = .ok s := by simpa using hs
      have hc' : continuity (Anchor.last berth) (Anchor.last berth) {} = .ok c := by simpa using hc
      rw [hs'] at hc'
      exact (Except.ok.inj hc').symm
    subst hcs
    exact absurd (hlt h0) (Real64.not_lt_of_le (Real64.le_refl (continuity_isNaN hc)))
  exact ⟨hne, s, hi1 ▸ hr⟩

/-- A pathway of one row at the least signed 64-bit time. -/
def earliest : Track :=
  { mmsi := 1, time := #[-9223372036854775808], lon := #[0.0], lat := #[0.0], cog := #[0.0],
    sog := #[0.0] }

/-- The seconds from `earliest` to a head at the greatest signed 64-bit time overflow, so no
best pathway is returned. -/
theorem best_earliest_overflows :
    best [earliest] ⟨0.0, 0.0, 9223372036854775807⟩ {} = .error (.overflow .subtract) := by
  rfl

end Best

/-! ## Chunk bounds -/

section Bounds

variable {t : Track} {bs : List Nat}

/-- A track of one row is the one chunk `[0, 1)`. -/
theorem chunkBounds_lone (h : t.size = 1) : chunkBounds t p = .ok [0, 1] := by
  unfold chunkBounds
  rw [if_neg (by omega), h]
  rfl

/-- The chunk bounds of a valid track are row `0`, increasing rows strictly inside the track,
and its row count. -/
theorem chunkBounds_eq_ok (hv : t.Valid) (h : chunkBounds t p = .ok bs) :
    ∃ cuts, bs = 0 :: cuts ++ [t.size] ∧ cuts.Pairwise (· < ·) ∧
      ∀ c ∈ cuts, 0 < c ∧ c < t.size := by
  unfold chunkBounds at h
  dsimp only at h
  split at h
  · obtain ⟨m, hm, h⟩ := Except.bind_eq_ok.1 h
    obtain ⟨s, -, h⟩ := Except.bind_eq_ok.1 h
    cases h
    obtain ⟨-, -, hms⟩ := Track.consecutiveDistances_eq_ok hv hm
    refine ⟨_, rfl, ?_, ?_⟩
    · -- cuts are taken in index order
      have hidx : ((m.zip s).toList.zipIdx).Pairwise fun x y => x.2 < y.2 := by
        rw [← List.pairwise_map (f := Prod.snd), List.zipIdx_map_snd]
        exact List.pairwise_lt_range'
      exact List.pairwise_map.2 ((hidx.filter _).imp fun h => Nat.succ_lt_succ h)
    · intro c hc
      obtain ⟨⟨x, i⟩, hx, rfl⟩ := List.mem_map.1 hc
      have hi := (List.mem_zipIdx (List.mem_filter.1 hx).1).2.1
      simp only [Array.length_toList, Array.size_zip] at hi
      omega
  · cases h
    exact ⟨[], rfl, .nil, by simp⟩

/-- The chunk bounds of a valid track have a first chunk, from row `0`. -/
theorem chunkBounds_eq_cons (hv : t.Valid) (h : chunkBounds t p = .ok bs) :
    ∃ b rest, bs = 0 :: b :: rest := by
  obtain ⟨cuts, rfl, -, -⟩ := chunkBounds_eq_ok hv h
  cases cuts with
  | nil => exact ⟨t.size, [], rfl⟩
  | cons c cuts => exact ⟨c, cuts ++ [t.size], rfl⟩

/-- The chunk bounds of a valid track increase from row `0` to its row count. -/
theorem chunkBounds_sorted (hv : t.Valid) (h : chunkBounds t p = .ok bs) :
    bs.Pairwise (· < ·) ∧ (∀ x ∈ bs, x ≤ t.size) ∧ bs.getD 0 0 = 0 ∧ 1 < bs.length ∧
      bs.getD (bs.length - 1) 0 = t.size := by
  obtain ⟨cuts, rfl, hsorted, hcuts⟩ := chunkBounds_eq_ok hv h
  have hn := hv.size_pos
  refine ⟨List.pairwise_cons.2 ⟨fun x hx => ?_, List.pairwise_append.2 ⟨hsorted, by simp,
    fun x hx y hy => ?_⟩⟩, fun x hx => ?_, rfl, by simp, by simp⟩
  · rcases List.mem_append.1 hx with hx | hx
    · exact (hcuts x hx).1
    · rw [List.mem_singleton.1 hx]
      exact hn
  · rw [List.mem_singleton.1 hy]
    exact (hcuts x hx).2
  · rcases List.mem_cons.1 hx with rfl | hx
    · exact Nat.zero_le _
    · rcases List.mem_append.1 hx with hx | hx
      · exact (hcuts x hx).2.le
      · exact (List.mem_singleton.1 hx).le

/-- The chunk bounds of a valid track whose first and last times fit a signed 64-bit integer
apart are computed. -/
theorem chunkBounds_ok (hv : t.Valid) (hfit : t.RangeFits 0 t.size) :
    ∃ bs, chunkBounds t p = .ok bs := by
  unfold chunkBounds
  dsimp only
  split
  · obtain ⟨m, hm, -⟩ := Track.consecutiveDistances_ok hv (Nat.zero_le _) le_rfl
    obtain ⟨s, hs, -⟩ := Track.consecutiveSeconds_ok hv (Nat.zero_le _) le_rfl hfit
    simp only [hm, hs, Bind.bind, Except.bind]
    exact ⟨_, rfl⟩
  · exact ⟨_, rfl⟩

end Bounds

end Pathway

end Seaway
