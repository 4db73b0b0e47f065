import Mathlib
import Seaway.Proofs.Pathway.Junction
import Seaway.Proofs.Pathway.Deal

/-!
# A minscore at the floor keeps the track whole

Continuity never falls below the least positive normal double (`minPositive_le_continuity`),
so with `minscore` at most that floor every chunk joins the pathway it continues best. The
first chunk seeds the only pathway, so it is always the best one, and the chunks rebuild the
track in order: reconstruction returns the track itself, labelled `0`.

What can still fail is the arithmetic on times: the chunk bounds need the seconds between
consecutive rows, which overflow a signed 64-bit integer for rows more than `2 ^ 63 - 1`
seconds apart.

* `deal_floor`: one chunk appended to the single pathway of the rows before it;
* `foldlM_deal_floor`: all the chunks, one after another;
* `Pathway.reconstruct_whole_at_floor`: the main statement.
-/

namespace Seaway

namespace Pathway

open Real64

variable {t : Track} {p : PathwayParams}

/-- Parameters validated from a `minscore` of zero have their `minscore` at the floor. -/
theorem validate_minscore_zero {q : PathwayParams} (h : p.validate = .ok q)
    (h0 : (p.minscore == 0) = true) : q.minscore = minPositive := by
  unfold PathwayParams.validate at h
  split at h
  · cases h
  · split at h
    · cases h
    · cases h
      rfl

section Floor

variable (hv : t.Valid) (hfit : t.StepsFit) (hp : p.minscore ≤ minPositive)
include hv hfit hp

/-- The chunk `[a, b)` joins the one pathway of the rows before it: continuity with that
pathway, from row `a - 1` to row `a`, is computed and reaches the floor. -/
theorem deal_floor {a b : Nat} (ha : 0 < a) (hab : a < b) (hb : b ≤ t.size) :
    deal t p #[t.slice 0 a] (a, b) = .ok #[t.slice 0 b] := by
  have hlast : Anchor.last (t.slice 0 a) = Anchor.ofRow t (a - 1) := by
    rw [Track.slice_eq_gather hv (by omega), Track.last_gather (by simp; omega),
      List.getLast_range']
    simp
  -- the step into row `a` fits, so its continuity `c` is computed
  obtain ⟨c, hc⟩ : ∃ c, continuity (Anchor.ofRow t (a - 1)) (Anchor.ofRow t a) p = .ok c := by
    have hstep := hfit (a - 1) (by omega)
    rw [Nat.sub_add_cancel ha] at hstep
    exact continuity_ok (by simpa [Anchor.ofRow] using hv.time_mono (Nat.sub_le a 1) (by omega))
      (by simpa [Anchor.ofRow] using hstep)
  have hbest : best [t.slice 0 a] (Anchor.ofRow t a) p = .ok (0, c) := by
    rw [← List.nil_append [t.slice 0 a], best_append, hlast, hc]
    show Except.ok (if -inf ≤ c then _ else _) = _
    rw [if_pos (negInf_le (continuity_isNaN hc))]
    rfl
  have hjoin : p.minscore ≤ c := le_trans hp (minPositive_le_continuity hc)
  have hread : ∀ q ∈ #[t.slice 0 a].toList, Anchor.lastRow q = .ok (Anchor.last q) := by
    simp only [List.mem_singleton, forall_eq]
    rw [Track.slice_eq_gather hv (by omega)]
    exact Anchor.lastRow_gather (by simp; omega)
  rw [deal_eq hv hab hb (by simp) hread, hbest]
  simp only [Except.map_ok, if_pos hjoin]
  -- the rows before `a` and the chunk are the rows before `b`
  have hcat := @List.range'_append_1 0 a (b - a)
  rw [Nat.zero_add, Nat.add_sub_cancel' hab.le] at hcat
  rw [Track.slice_eq_gather hv (by omega), Track.slice_eq_gather hv hb]
  simp [Track.extendFrom_gather hv hb, hcat]

/-- Dealing the chunks between increasing bounds `x, …` to the one pathway of the rows
before `x` leaves the one pathway of the rows before the last bound. -/
theorem foldlM_deal_floor {x : Nat} {rest : List Nat} (hx : 0 < x)
    (hsorted : (x :: rest).Pairwise (· < ·)) (hle : ∀ y ∈ x :: rest, y ≤ t.size) :
    (windows (x :: rest)).foldlM (deal t p) #[t.slice 0 x] =
      .ok #[t.slice 0 ((x :: rest).getLast (List.cons_ne_nil x rest))] := by
  induction rest generalizing x with
  | nil => rfl
  | cons y rest ih =>
    have hxy : x < y := List.rel_of_pairwise_cons hsorted (List.mem_cons_self ..)
    rw [windows, List.foldlM_cons,
      deal_floor hv hfit hp hx hxy (hle y (List.mem_cons_of_mem _ (List.mem_cons_self ..))),
      Except.ok_bind, List.getLast_cons (List.cons_ne_nil y rest)]
    exact ih (Nat.lt_trans hx hxy) hsorted.of_cons fun z hz => hle z (List.mem_cons_of_mem _ hz)

/-- The pathways before labelling are the track alone. -/
theorem dealt_floor : dealt t p = .ok #[t] := by
  unfold dealt
  split
  · rfl
  · -- the bounds are `0`, then increasing rows up to the row count
    have h2 : 1 < t.size := by have := hv.size_pos; omega
    obtain ⟨bs, hcb⟩ : ∃ bs, chunkBounds t p = .ok bs :=
      ⟨_, (chunkBounds_eq_ok_iff hv h2).2 ⟨hfit, rfl⟩⟩
    obtain ⟨hbs, hbn, -, -, htop⟩ := chunkBounds_sorted hv hcb
    obtain ⟨x, rest, rfl⟩ := chunkBounds_eq_cons hv hcb
    have hlast : (x :: rest).getLast (List.cons_ne_nil x rest) = t.size := by
      rw [← htop]
      simp [List.getLast_eq_getElem, List.getD_eq_getElem?_getD]
    have hx : 0 < x := List.rel_of_pairwise_cons hbs (List.mem_cons_self ..)
    have hfold := foldlM_deal_floor hv hfit hp hx hbs.of_cons fun y hy =>
      hbn y (List.mem_cons_of_mem _ hy)
    rw [hlast, Track.slice_all hv] at hfold
    rw [hcb, Except.ok_bind]
    dsimp only
    rw [Track.sliceChecked_eq_ok hx (hbn x (by simp)), Except.ok_bind]
    exact hfold

end Floor

/-- Without the steps fitting, the chunk bounds fail, and so do the pathways. -/
theorem dealt_eq_error (hv : t.Valid) (hfit : ¬t.StepsFit) : ∃ e, dealt t p = .error e := by
  have h2 : 1 < t.size := by
    by_contra h
    exact hfit fun i hi => absurd hi (by omega)
  obtain ⟨e, hcb⟩ : ∃ e, chunkBounds t p = .error e := by
    cases hcb : chunkBounds t p with
    | error e => exact ⟨e, rfl⟩
    | ok bs => exact absurd ((chunkBounds_eq_ok_iff hv h2).1 hcb).1 hfit
  exact ⟨e, by simp [dealt, if_neg (Nat.ne_of_gt h2), hcb, Bind.bind, Except.bind]⟩

/-- **A minscore at the floor keeps the track whole.** With `minscore` at most the least
positive normal double, whatever the thresholds, reconstruction of a valid track returns the
track itself labelled `0` exactly when the seconds between its consecutive rows fit a signed
64-bit integer, and returns nothing else. Parameters validated from a `minscore` of zero are
such parameters. -/
theorem reconstruct_whole_at_floor (hv : t.Valid) (hp : p.minscore ≤ minPositive) :
    (∀ ps, reconstruct t p = .ok ps ↔ t.StepsFit ∧ ps = #[{ t with label := some 0 }]) ∧
      ∀ q q' : PathwayParams, q.validate = .ok q' → (q.minscore == 0) = true →
        q'.minscore ≤ minPositive := by
  refine ⟨fun ps => ?_, fun q q' h h0 => by rw [validate_minscore_zero h h0]; exact le_refl rfl⟩
  rw [reconstruct_eq_dealt]
  by_cases hfit : t.StepsFit
  · rw [dealt_floor hv hfit hp]
    show Except.ok _ = Except.ok ps ↔ _
    simp only [Except.ok.injEq, hfit, true_and]
    exact eq_comm
  · obtain ⟨e, he⟩ := dealt_eq_error (p := p) hv hfit
    rw [he]
    simp only [hfit, false_and, iff_false]
    intro h
    cases h

/-- With `minscore` zero the three chunks of `zigzag` make one pathway, the track itself. -/
theorem reconstruct_whole_at_floor_zigzag :
    zigzag.Valid ∧ ({ minscore := 0.0 } : PathwayParams).minscore ≤ minPositive ∧
      reconstruct zigzag { minscore := 0.0 } = .ok #[{ zigzag with label := some 0 }] := by
  have hsteps : zigzag.StepsFit := by
    intro i hi
    have hi' : i = 0 ∨ i = 1 := by
      simp only [zigzag, Track.size, List.size_toArray, List.length_cons, List.length_nil] at hi
      omega
    rcases hi' with rfl | rfl <;> decide
  have hp : ({ minscore := 0.0 } : PathwayParams).minscore ≤ minPositive := zero_le_minPositive
  exact ⟨zigzag_valid, hp,
    ((reconstruct_whole_at_floor (p := { minscore := 0.0 }) zigzag_valid hp).1 _).2 ⟨hsteps, rfl⟩⟩

/-- Two rows at one position, at the least and the greatest signed 64-bit time, with
`minscore` zero: the seconds between them overflow, and no pathway is returned. -/
theorem reconstruct_farApart_floor_overflows :
    reconstruct farApart { minscore := 0.0 } = .error (.overflow .subtract) := by
  rfl

end Pathway

end Seaway
