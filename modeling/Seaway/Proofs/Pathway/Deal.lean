import Mathlib
import Seaway.Proofs.Pathway.Best

/-!
# Reconstructed pathways deal out the chunks of a track

Pathway reconstruction cuts a track at its chunk bounds `bs` and deals the chunks
`[bs[j], bs[j+1])`, in order, to pathways: the first chunk seeds pathway `0`; every later
chunk joins the open pathway it continues best, if that continuity reaches `minscore`, and
opens a new pathway otherwise. Every operation on the pathways slices a chunk or appends
one, so each pathway is the gather of a list of rows of the track (`Track.gather`), and the
whole run can be followed on these row lists.

`Deals t p bs d rows` says what the row lists `rows` are after `d` chunks: they are
non-empty, increasing, together every row below `bs[d]` once, their first rows increase,
each chunk lies inside one of them, and each chunk went where the greedy rule sends it,
read off the final lists (`DealtAt`): the pathways open when a chunk came are those with a
row below its first row, each continued from the last such row.

`Pathway.reconstruct_deals_chunks` is the main statement: reconstruction of a valid track
succeeds when its first and last times fit a signed 64-bit integer apart, and whatever it
returns is the list of gathers of row lists that deal out all the chunks, labelled
`0, 1, …`, whose sizes add up to the track's and whose times never decrease.
-/

namespace Seaway

namespace Pathway

open scoped List

variable {t : Track} {p : PathwayParams}

/-! ## Pathways as lists of rows -/

/-- Whether a pathway whose rows are `l` was open when row `x` came: it had a row below `x`. -/
def OpenAt (l : List Nat) (x : Nat) : Prop := ∃ r ∈ l, r < x

/-- The continuity with which row `x` of a track continues a pathway whose rows are `l`,
from the last of them below `x`. -/
def scoreAt (t : Track) (p : PathwayParams) (l : List Nat) (x : Nat) : Except Fault Float :=
  continuity (Anchor.ofRow t ((l.filter (· < x)).getLast?.getD 0)) (Anchor.ofRow t x) p

/-- How the chunk starting at row `x` was dealt, read off the rows of the pathways: the
continuity with every pathway open then was computed; the pathway holding `x`, if it was
open, had the largest continuity (of equal ones, the last pathway's) and at least
`minscore`; if it starts at `x`, no open pathway reached `minscore`. -/
structure DealtAt (t : Track) (p : PathwayParams) (rows : List (List Nat)) (x : Nat) :
    Prop where
  scored : ∀ k (hk : k < rows.length), OpenAt rows[k] x → ∃ c, scoreAt t p rows[k] x = .ok c
  joined : ∀ k (hk : k < rows.length), x ∈ rows[k] → OpenAt rows[k] x →
    ∃ c, scoreAt t p rows[k] x = .ok c ∧ p.minscore ≤ c ∧
      ∀ k' (hk' : k' < rows.length), OpenAt rows[k'] x → ∀ c',
        scoreAt t p rows[k'] x = .ok c' → c' ≤ c ∧ (k < k' → c' < c)
  opened : ∀ k (hk : k < rows.length), x ∈ rows[k] → ¬OpenAt rows[k] x →
    ∀ k' (hk' : k' < rows.length), OpenAt rows[k'] x → ∀ c',
      scoreAt t p rows[k'] x = .ok c' → ¬p.minscore ≤ c'

/-- The row lists `rows` of the pathways after the first `d` chunks `[bs[j], bs[j+1])` of a
track were dealt: at least one pathway, none empty, each increasing, together the rows below
`bs[d]` once each, first rows increasing with the pathway's index, each chunk inside one
pathway, and each chunk dealt by the greedy rule. -/
structure Deals (t : Track) (p : PathwayParams) (bs : List Nat) (d : Nat)
    (rows : List (List Nat)) : Prop where
  ne_nil : rows ≠ []
  pathway_ne_nil : ∀ l ∈ rows, l ≠ []
  sorted : ∀ l ∈ rows, l.Pairwise (· < ·)
  perm : rows.flatten ~ List.range (bs.getD d 0)
  heads : (rows.map (·.headD 0)).Pairwise (· < ·)
  chunk : ∀ j < d, ∃ k, ∃ hk : k < rows.length,
    ∀ r, bs.getD j 0 ≤ r → r < bs.getD (j + 1) 0 → r ∈ rows[k]
  dealt : ∀ j < d, DealtAt t p rows (bs.getD j 0)

section Scores

variable {l c : List Nat} {x a : Nat}

theorem openAt_append (hc : ∀ r ∈ c, x ≤ r) : OpenAt (l ++ c) x ↔ OpenAt l x := by
  constructor
  · rintro ⟨r, hr, hrx⟩
    rcases List.mem_append.1 hr with hr | hr
    · exact ⟨r, hr, hrx⟩
    · exact absurd hrx (Nat.not_lt.2 (hc r hr))
  · rintro ⟨r, hr, hrx⟩
    exact ⟨r, List.mem_append_left _ hr, hrx⟩

theorem not_openAt (hl : ∀ r ∈ l, x ≤ r) : ¬OpenAt l x :=
  fun ⟨r, hr, hrx⟩ => absurd hrx (Nat.not_lt.2 (hl r hr))

theorem scoreAt_append (hc : ∀ r ∈ c, x ≤ r) : scoreAt t p (l ++ c) x = scoreAt t p l x := by
  have hnil : c.filter (· < x) = [] :=
    List.filter_eq_nil_iff.2 fun r hr => by simpa using hc r hr
  rw [scoreAt, scoreAt, List.filter_append, hnil, List.append_nil]

/-- A pathway whose rows are all below `a` is continued at row `a` from its last row. -/
theorem scoreAt_of_lt (hl : l ≠ []) (hlt : ∀ r ∈ l, r < a) :
    scoreAt t p l a = continuity (Anchor.last (t.gather l)) (Anchor.ofRow t a) p := by
  rw [scoreAt, List.filter_eq_self.2 fun r hr => by simpa using hlt r hr, Track.last_gather hl,
    List.getLast?_eq_some_getLast hl, Option.getD_some]

end Scores

/-! ## Continuing the pathways -/

/-- `rows'` continues the pathways `rows` from row `a` on: each pathway gains rows at or
above `a` at its end, and new pathways hold only such rows. -/
structure Continues (rows rows' : List (List Nat)) (a : Nat) : Prop where
  length_le : rows.length ≤ rows'.length
  extend : ∀ k (hk : k < rows.length) (hk' : k < rows'.length),
    ∃ c, rows'[k] = rows[k] ++ c ∧ ∀ r ∈ c, a ≤ r
  fresh : ∀ k, rows.length ≤ k → ∀ hk' : k < rows'.length, ∀ r ∈ rows'[k], a ≤ r

/-- Appending rows to pathway `i` leaves the other pathways as they were. -/
theorem getElem_modify_append {rows : List (List Nat)} {c : List Nat} {i k : Nat}
    (hk : k < rows.length) (hk' : k < (rows.modify i (· ++ c)).length) :
    (rows.modify i (· ++ c))[k] = rows[k] ++ (if i = k then c else []) := by
  rw [List.getElem_modify]
  split <;> simp

/-- Rewriting one entry of an array depends only on what the rewrite does to that entry. -/
theorem modify_congr {α : Type} {xs : Array α} {i : Nat} {f g : α → α}
    (h : ∀ hi : i < xs.size, f xs[i] = g xs[i]) : xs.modify i f = xs.modify i g := by
  apply Array.ext (by simp)
  intro k h₁ h₂
  simp only [Array.getElem_modify]
  split
  · rename_i hik
    subst hik
    exact h (by simpa using h₁)
  · rfl

namespace Continues

variable {rows rows' : List (List Nat)} {a x k : Nat}

/-- Appending rows at or above `a` to one pathway continues the pathways from `a`. -/
theorem modify_append {c : List Nat} {i : Nat} (hc : ∀ r ∈ c, a ≤ r) :
    Continues rows (rows.modify i (· ++ c)) a := by
  refine ⟨(List.length_modify _ _ _).ge,
    fun k hk hk' => ⟨_, getElem_modify_append hk hk', fun r hr => ?_⟩,
    fun k hk hk' => absurd hk' (by simpa using hk)⟩
  split at hr
  · exact hc r hr
  · simp at hr

/-- A new pathway of rows at or above `a` continues the pathways from `a`. -/
theorem append_singleton {c : List Nat} (hc : ∀ r ∈ c, a ≤ r) :
    Continues rows (rows ++ [c]) a := by
  refine ⟨by simp, fun k hk hk' => ⟨[], by simp [List.getElem_append_left hk], by simp⟩,
    fun k hk hk' r hr => ?_⟩
  have hk2 : k = rows.length := by simp at hk'; omega
  subst hk2
  exact hc r (by simpa using hr)

theorem subset (hc : Continues rows rows' a) (hk : k < rows.length) (hk' : k < rows'.length) :
    ∀ r ∈ rows[k], r ∈ rows'[k] := by
  obtain ⟨c, heq, -⟩ := hc.extend k hk hk'
  intro r hr
  rw [heq]
  exact List.mem_append_left _ hr

theorem openAt_iff (hc : Continues rows rows' a) (hx : x ≤ a) (hk : k < rows.length)
    (hk' : k < rows'.length) : OpenAt rows'[k] x ↔ OpenAt rows[k] x := by
  obtain ⟨c, heq, hge⟩ := hc.extend k hk hk'
  rw [heq]
  exact openAt_append fun r hr => Nat.le_trans hx (hge r hr)

theorem scoreAt_eq (hc : Continues rows rows' a) (hx : x ≤ a) (hk : k < rows.length)
    (hk' : k < rows'.length) : scoreAt t p rows'[k] x = scoreAt t p rows[k] x := by
  obtain ⟨c, heq, hge⟩ := hc.extend k hk hk'
  rw [heq]
  exact scoreAt_append fun r hr => Nat.le_trans hx (hge r hr)

theorem mem_iff (hc : Continues rows rows' a) (hx : x < a) (hk : k < rows.length)
    (hk' : k < rows'.length) : x ∈ rows'[k] ↔ x ∈ rows[k] := by
  obtain ⟨c, heq, hge⟩ := hc.extend k hk hk'
  rw [heq, List.mem_append]
  exact ⟨fun h => h.resolve_right fun hxc => absurd (hge x hxc) (Nat.not_le.2 hx), .inl⟩

theorem not_openAt (hc : Continues rows rows' a) (hx : x ≤ a) (hk : rows.length ≤ k)
    (hk' : k < rows'.length) : ¬OpenAt rows'[k] x :=
  Pathway.not_openAt fun r hr => Nat.le_trans hx (hc.fresh k hk hk' r hr)

theorem not_mem (hc : Continues rows rows' a) (hx : x < a) (hk : rows.length ≤ k)
    (hk' : k < rows'.length) : x ∉ rows'[k] :=
  fun hxk => absurd (hc.fresh k hk hk' x hxk) (Nat.not_le.2 hx)

/-- A pathway open at a row below `a` was there before. -/
theorem lt_of_openAt (hc : Continues rows rows' a) (hx : x ≤ a) (hk' : k < rows'.length)
    (ho : OpenAt rows'[k] x) : k < rows.length := by
  by_contra hk
  exact hc.not_openAt hx (Nat.not_lt.1 hk) hk' ho

/-- A pathway open at a row `x` up to `a` is an old one, open at `x` and scored there as
before. -/
theorem of_openAt (hc : Continues rows rows' a) (hx : x ≤ a) (hk' : k < rows'.length)
    (ho : OpenAt rows'[k] x) :
    ∃ hk : k < rows.length, OpenAt rows[k] x ∧ scoreAt t p rows'[k] x = scoreAt t p rows[k] x := by
  have hk := hc.lt_of_openAt hx hk' ho
  exact ⟨hk, (hc.openAt_iff hx hk hk').1 ho, hc.scoreAt_eq hx hk hk'⟩

/-- A chunk below `a` was dealt as it was, whatever comes from `a` on. -/
theorem dealtAt (hc : Continues rows rows' a) (hx : x < a) (h : DealtAt t p rows x) :
    DealtAt t p rows' x := by
  refine ⟨fun k hk' ho => ?_, fun k hk' hxk ho => ?_, fun k hk' hxk ho k' hk'' ho' c' hc' => ?_⟩
  · obtain ⟨hk, ho, heq⟩ := hc.of_openAt (t := t) (p := p) hx.le hk' ho
    rw [heq]
    exact h.scored k hk ho
  · obtain ⟨hk, ho, heq⟩ := hc.of_openAt hx.le hk' ho
    obtain ⟨c, hsc, hmin, hbest⟩ := h.joined k hk ((hc.mem_iff hx hk hk').1 hxk) ho
    refine ⟨c, heq.trans hsc, hmin, fun k' hk'' ho' c' hc' => ?_⟩
    obtain ⟨hk2, ho2, heq2⟩ := hc.of_openAt hx.le hk'' ho'
    exact hbest k' hk2 ho2 c' (heq2.symm.trans hc')
  · -- the chunk's pathway was there before, as was every pathway open at `x`
    have hk : k < rows.length := by
      by_contra hk
      exact hc.not_mem hx (Nat.not_lt.1 hk) hk' hxk
    obtain ⟨hk2, ho2, heq2⟩ := hc.of_openAt hx.le hk'' ho'
    exact h.opened k hk ((hc.mem_iff hx hk hk').1 hxk)
      (fun ho₀ => ho ((hc.openAt_iff hx.le hk hk').2 ho₀)) k' hk2 ho2 c' (heq2.symm.trans hc')

end Continues

/-! ## Dealing one chunk -/

section Step

variable {bs : List Nat} {d i a b : Nat} {s : Float} {rows rows' : List (List Nat)}

theorem getD_lt_getD (hbs : bs.Pairwise (· < ·)) {j k : Nat} (hjk : j < k) (hk : k < bs.length) :
    bs.getD j 0 < bs.getD k 0 := by
  simp only [List.getD_eq_getElem?_getD, List.getElem?_eq_getElem hk,
    List.getElem?_eq_getElem (Nat.lt_trans hjk hk), Option.getD_some]
  exact List.pairwise_iff_getElem.1 hbs j k _ hk hjk

theorem getD_le {n : Nat} (hbn : ∀ x ∈ bs, x ≤ n) (j : Nat) : bs.getD j 0 ≤ n := by
  rw [List.getD_eq_getElem?_getD]
  cases h : bs[j]? with
  | none => exact Nat.zero_le n
  | some x => exact hbn x (List.mem_of_getElem? h)

/-- All rows dealt lie below the next chunk. -/
theorem Deals.lt_top (hinv : Deals t p bs d rows) : ∀ l ∈ rows, ∀ r ∈ l, r < bs.getD d 0 := by
  intro l hl r hr
  simpa using hinv.perm.subset (List.mem_flatten.2 ⟨l, hl, hr⟩)

/-- Dealing chunk `d`, `[a, b)`, keeps the invariant when the new rows continue the old ones
from `a` on, hold the chunk's rows besides, keep every pathway increasing and the first rows
increasing, and the chunk is dealt by the rule. -/
theorem Deals.step (hinv : Deals t p bs d rows) (hbs : bs.Pairwise (· < ·))
    (hd : d + 1 < bs.length) (ha : bs.getD d 0 = a) (hb : bs.getD (d + 1) 0 = b)
    (hc : Continues rows rows' a) (hne : ∀ l ∈ rows', l ≠ [])
    (hsorted : ∀ l ∈ rows', l.Pairwise (· < ·))
    (hperm : rows'.flatten ~ rows.flatten ++ List.range' a (b - a))
    (hheads : (rows'.map (·.headD 0)).Pairwise (· < ·))
    (hchunk : ∃ k, ∃ hk : k < rows'.length, ∀ r, a ≤ r → r < b → r ∈ rows'[k])
    (hdealt : DealtAt t p rows' a) : Deals t p bs (d + 1) rows' := by
  have hab : a < b := ha ▸ hb ▸ getD_lt_getD hbs (Nat.lt_succ_self d) hd
  refine ⟨?_, hne, hsorted, ?_, hheads, fun j hj => ?_, fun j hj => ?_⟩
  · intro h
    have := hc.length_le
    rw [h] at this
    exact hinv.ne_nil (List.eq_nil_of_length_eq_zero (Nat.eq_zero_of_le_zero this))
  · -- the rows below `a`, then the chunk: the rows below `b`
    refine hperm.trans ((hinv.perm.append_right _).trans ?_)
    have hcat := @List.range'_append 0 a (b - a) 1
    simp only [Nat.zero_add, Nat.one_mul, Nat.add_sub_cancel' hab.le] at hcat
    rw [hb, ha, List.range_eq_range', List.range_eq_range', hcat]
  · rcases Nat.lt_succ_iff_lt_or_eq.1 hj with hj | rfl
    · obtain ⟨k, hk, hrows⟩ := hinv.chunk j hj
      exact ⟨k, Nat.lt_of_lt_of_le hk hc.length_le, fun r h₁ h₂ =>
        hc.subset hk _ r (hrows r h₁ h₂)⟩
    · rw [ha, hb]
      exact hchunk
  · rcases Nat.lt_succ_iff_lt_or_eq.1 hj with hj | rfl
    · exact hc.dealtAt (ha ▸ getD_lt_getD hbs hj (Nat.lt_of_succ_lt hd)) (hinv.dealt j hj)
    · rw [ha]
      exact hdealt

/-- Appending a chunk to pathway `i` appends it to the rows dealt. -/
theorem flatten_modify_append {c : List Nat} :
    ∀ {rows : List (List Nat)} {i : Nat}, i < rows.length →
      (rows.modify i (· ++ c)).flatten ~ rows.flatten ++ c
  | [], _, h => absurd h (Nat.not_lt_zero _)
  | l :: rows, 0, _ => by
    simp only [List.modify_zero_cons, List.flatten_cons, List.append_assoc]
    exact List.Perm.append_left l List.perm_append_comm
  | l :: rows, i + 1, h => by
    simp only [List.modify_succ_cons, List.flatten_cons, List.append_assoc]
    exact List.Perm.append_left l (flatten_modify_append (by simpa using h))

/-- A pathway dealt before row `a` is open at `a`. -/
theorem Deals.openAt (hinv : Deals t p bs d rows) (ha : bs.getD d 0 = a) {k : Nat}
    (hk : k < rows.length) : OpenAt rows[k] a := by
  obtain ⟨r, hr⟩ := List.exists_mem_of_ne_nil _ (hinv.pathway_ne_nil _ (List.getElem_mem hk))
  exact ⟨r, hr, ha ▸ hinv.lt_top _ (List.getElem_mem hk) r hr⟩

/-- A chunk `[a, b)` joining pathway `i`, whose continuity `s` is the best and reaches
`minscore`, keeps the invariant. -/
theorem Deals.joinPathway (hinv : Deals t p bs d rows) (hbs : bs.Pairwise (· < ·))
    (hd : d + 1 < bs.length) (ha : bs.getD d 0 = a) (hb : bs.getD (d + 1) 0 = b)
    (hi : i < rows.length) (hsi : scoreAt t p rows[i] a = .ok s)
    (hscore : ∀ k (hk : k < rows.length),
      ∃ c, scoreAt t p rows[k] a = .ok c ∧ c ≤ s ∧ (i < k → c < s))
    (hmin : p.minscore ≤ s) :
    Deals t p bs (d + 1) (rows.modify i (· ++ List.range' a (b - a))) := by
  have hab : a < b := ha ▸ hb ▸ getD_lt_getD hbs (Nat.lt_succ_self d) hd
  have hlt : ∀ l ∈ rows, ∀ r ∈ l, r < a := ha ▸ hinv.lt_top
  have hcge : ∀ r ∈ List.range' a (b - a), a ≤ r := fun r hr => (List.mem_range'_1.1 hr).1
  have hlen : (rows.modify i (· ++ List.range' a (b - a))).length = rows.length :=
    List.length_modify _ _ _
  -- pathway `i` gains the chunk, the others stay as they were
  have hget : ∀ k (hk : k < rows.length) (hk' : k < (rows.modify i (· ++ List.range' a (b - a))).length),
      (rows.modify i (· ++ List.range' a (b - a)))[k] =
        rows[k] ++ (if i = k then List.range' a (b - a) else []) :=
    fun _ hk hk' => getElem_modify_append hk hk'
  have hcont : Continues rows (rows.modify i (· ++ List.range' a (b - a))) a :=
    Continues.modify_append hcge
  -- the row `a` lies in pathway `i` only
  have hmem : ∀ k (hk : k < rows.length) (hk' : k < (rows.modify i (· ++ List.range' a (b - a))).length),
      a ∈ (rows.modify i (· ++ List.range' a (b - a)))[k] → k = i := by
    intro k hk hk' hak
    rw [hget k hk hk', List.mem_append] at hak
    rcases hak with hak | hak
    · exact absurd (hlt _ (List.getElem_mem hk) a hak) (Nat.lt_irrefl a)
    · split at hak
      · omega
      · simp at hak
  refine hinv.step hbs hd ha hb hcont ?_ ?_ (flatten_modify_append hi) ?_ ?_ ?_
  · intro l hl
    obtain ⟨k, hk', rfl⟩ := List.getElem_of_mem hl
    rw [hget k (by omega) hk']
    exact List.append_ne_nil_of_left_ne_nil (hinv.pathway_ne_nil _ (List.getElem_mem _)) _
  · intro l hl
    obtain ⟨k, hk', rfl⟩ := List.getElem_of_mem hl
    rw [hget k (by omega) hk']
    refine List.pairwise_append.2 ⟨hinv.sorted _ (List.getElem_mem _), ?_, fun x hx y hy => ?_⟩
    · split
      · exact List.pairwise_lt_range'
      · exact .nil
    · split at hy
      · exact Nat.lt_of_lt_of_le (hlt _ (List.getElem_mem _) x hx) (hcge y hy)
      · simp at hy
  · -- appending to a pathway keeps its first row
    have hheads : (rows.modify i (· ++ List.range' a (b - a))).map (·.headD 0) =
        rows.map (·.headD 0) := by
      apply List.ext_getElem (by simp)
      intro k h₁ h₂
      simp only [List.getElem_map]
      rw [hget k (by simpa using h₂) (by simpa using h₁)]
      obtain ⟨x, xs, hx⟩ := List.exists_cons_of_ne_nil
        (hinv.pathway_ne_nil _ (List.getElem_mem (by simpa using h₂)))
      rw [hx]
      rfl
    rw [hheads]
    exact hinv.heads
  · refine ⟨i, by omega, fun r h₁ h₂ => ?_⟩
    rw [hget i hi (by omega), if_pos rfl, List.mem_append, List.mem_range'_1]
    exact .inr ⟨h₁, by omega⟩
  · refine ⟨fun k hk' ho => ?_, fun k hk' hak _ => ?_, fun k hk' hak ho => ?_⟩
    · obtain ⟨hk, -, heq⟩ := hcont.of_openAt (t := t) (p := p) le_rfl hk' ho
      rw [heq]
      exact (hscore k hk).imp fun _ h => h.1
    · obtain rfl := hmem k (by omega) hk' hak
      refine ⟨s, (hcont.scoreAt_eq le_rfl hi hk').trans hsi, hmin, fun k' hk'' ho' c' hc' => ?_⟩
      obtain ⟨hk2, -, heq⟩ := hcont.of_openAt le_rfl hk'' ho'
      obtain ⟨c, hc, hle, hlt'⟩ := hscore k' hk2
      rw [heq, hc] at hc'
      cases hc'
      exact ⟨hle, hlt'⟩
    · exact absurd ((hcont.openAt_iff le_rfl (by omega) hk').2 (hinv.openAt ha (by omega))) ho

/-- A chunk `[a, b)` opening a new pathway, when even the best continuity `s` falls short of
`minscore`, keeps the invariant. -/
theorem Deals.newPathway (hinv : Deals t p bs d rows) (hbs : bs.Pairwise (· < ·))
    (hd : d + 1 < bs.length) (ha : bs.getD d 0 = a) (hb : bs.getD (d + 1) 0 = b)
    (hscore : ∀ k (hk : k < rows.length), ∃ c, scoreAt t p rows[k] a = .ok c ∧ c ≤ s)
    (hmin : ¬p.minscore ≤ s) :
    Deals t p bs (d + 1) (rows ++ [List.range' a (b - a)]) := by
  have hab : a < b := ha ▸ hb ▸ getD_lt_getD hbs (Nat.lt_succ_self d) hd
  have hlt : ∀ l ∈ rows, ∀ r ∈ l, r < a := ha ▸ hinv.lt_top
  have hcge : ∀ r ∈ List.range' a (b - a), a ≤ r := fun r hr => (List.mem_range'_1.1 hr).1
  have hchunk : List.range' a (b - a) = a :: List.range' (a + 1) (b - a - 1) := by
    rw [← List.range'_succ]
    congr 1
    omega
  have hcont : Continues rows (rows ++ [List.range' a (b - a)]) a :=
    Continues.append_singleton hcge
  have hnew : ∀ (hk : rows.length < (rows ++ [List.range' a (b - a)]).length),
      (rows ++ [List.range' a (b - a)])[rows.length] = List.range' a (b - a) := by simp
  refine hinv.step hbs hd ha hb hcont ?_ ?_ (by simp) ?_ ⟨rows.length, by simp, fun r h₁ h₂ => ?_⟩ ?_
  · intro l hl
    rcases List.mem_append.1 hl with hl | hl
    · exact hinv.pathway_ne_nil l hl
    · rw [List.mem_singleton.1 hl, hchunk]
      exact List.cons_ne_nil _ _
  · intro l hl
    rcases List.mem_append.1 hl with hl | hl
    · exact hinv.sorted l hl
    · rw [List.mem_singleton.1 hl]
      exact List.pairwise_lt_range'
  · -- the new pathway starts at `a`, above every first row so far
    rw [List.map_append, List.map_singleton, hchunk, List.pairwise_append]
    refine ⟨hinv.heads, List.pairwise_singleton _ _, fun x hx y hy => ?_⟩
    obtain ⟨l, hl, rfl⟩ := List.mem_map.1 hx
    rw [List.mem_singleton.1 hy]
    obtain ⟨z, zs, hz⟩ := List.exists_cons_of_ne_nil (hinv.pathway_ne_nil l hl)
    subst hz
    exact hlt _ hl z (List.mem_cons_self ..)
  · rw [hnew]
    simp only [List.mem_range'_1]
    omega
  · -- the chunk's first row lies in the new pathway only, which was not open
    have hmem : ∀ k (hk' : k < (rows ++ [List.range' a (b - a)]).length),
        a ∈ (rows ++ [List.range' a (b - a)])[k] → k = rows.length := by
      intro k hk' hak
      by_contra hk
      have hk2 : k < rows.length := by simp at hk'; omega
      rw [List.getElem_append_left hk2] at hak
      exact Nat.lt_irrefl a (hlt _ (List.getElem_mem hk2) a hak)
    refine ⟨fun k hk' ho => ?_, fun k hk' hak ho => ?_, fun k hk' hak _ k' hk'' ho' c' hc' => ?_⟩
    · obtain ⟨hk, -, heq⟩ := hcont.of_openAt (t := t) (p := p) le_rfl hk' ho
      rw [heq]
      exact (hscore k hk).imp fun _ h => h.1
    · obtain rfl := hmem k hk' hak
      exact absurd ho (hcont.not_openAt le_rfl le_rfl hk')
    · obtain ⟨hk2, -, heq⟩ := hcont.of_openAt le_rfl hk'' ho'
      obtain ⟨c, hc, hle⟩ := hscore k' hk2
      rw [heq, hc] at hc'
      cases hc'
      exact fun h => hmin (Real64.le_trans h hle)

end Step

/-! ## What dealing a chunk reads -/

section Reads

variable {ps ps' : Array Track} {a b : Nat}

/-- Dealing a chunk `[a, b)` inside a valid track to pathways whose last rows are read reads
the chunk's first row, scores the pathways from it, and appends the chunk to the best pathway
or opens a pathway with it: no read falls past the end of the data. -/
theorem deal_eq (hv : t.Valid) (hab : a < b) (hb : b ≤ t.size) (hne : ps.toList ≠ [])
    (hps : ∀ q ∈ ps.toList, Anchor.lastRow q = .ok (Anchor.last q)) :
    deal t p ps (a, b) = (fun r => if p.minscore ≤ r.2 then ps.modify r.1 (·.extendFrom t a b)
      else ps.push (t.slice a b)) <$> best ps.toList (Anchor.ofRow t a) p := by
  have hlast : ps.toList.mapM Anchor.lastRow = .ok (ps.toList.map Anchor.last) :=
    Except.mapM_eq_ok_map hps
  simp only [deal, hv.atRow_eq_ok (Nat.lt_of_lt_of_le hab hb), hlast, Except.ok_bind]
  cases hr : best ps.toList (Anchor.ofRow t a) p with
  | error e => rfl
  | ok r =>
    obtain ⟨i, s⟩ := r
    obtain ⟨hi, -, -⟩ := best_eq_ok hr hne
    have hi' : i < ps.size := by simpa using hi
    simp only [Except.ok_bind]
    split
    next hs =>
      -- the chunk joins pathway `i`, which is there
      rw [entry_eq_ok_iff.2 ⟨hi', rfl⟩, Except.ok_bind, Track.extendChecked_eq_ok hab.le hb,
        Except.ok_bind]
      simp only [Except.map_ok, if_pos hs]
      exact congrArg Except.ok (modify_congr fun _ => rfl)
    next hs =>
      rw [Track.sliceChecked_eq_ok hab hb, Except.ok_bind]
      simp only [Except.map_ok, if_neg hs]
      rfl

/-- What dealing a chunk `[a, b)` did when it succeeded: the chunk's first row lies in the
track, the pathways were scored from it, and either the best pathway `i` reached `minscore`
and got the chunk, or none did and the chunk opened a pathway; the chunk lies inside the
track either way. -/
theorem deal_eq_ok_cases (h : deal t p ps (a, b) = .ok ps') :
    a < t.size ∧ ∃ i s, best ps.toList (Anchor.ofRow t a) p = .ok (i, s) ∧
      (p.minscore ≤ s ∧ i < ps.size ∧ a ≤ b ∧ b ≤ t.size ∧
          ps' = ps.modify i (·.extendFrom t a b) ∨
        ¬p.minscore ≤ s ∧ a < b ∧ b ≤ t.size ∧ ps' = ps.push (t.slice a b)) := by
  simp only [deal] at h
  obtain ⟨head, hhead, h⟩ := Except.bind_eq_ok.1 h
  obtain ⟨-, -, ha, rfl⟩ := Anchor.atRow_eq_ok_iff.1 hhead
  obtain ⟨-, -, h⟩ := Except.bind_eq_ok.1 h
  obtain ⟨⟨i, s⟩, hbest, h⟩ := Except.bind_eq_ok.1 h
  refine ⟨ha, i, s, hbest, ?_⟩
  split at h
  · obtain ⟨q, hq, h⟩ := Except.bind_eq_ok.1 h
    obtain ⟨q', hq', h⟩ := Except.bind_eq_ok.1 h
    obtain ⟨hi, rfl⟩ := entry_eq_ok_iff.1 hq
    obtain ⟨hab, hb, rfl⟩ := Track.extendChecked_eq_ok_iff.1 hq'
    cases h
    exact .inl ⟨‹_›, hi, hab, hb, modify_congr fun _ => rfl⟩
  · obtain ⟨q, hq, h⟩ := Except.bind_eq_ok.1 h
    obtain ⟨hab, hb, rfl⟩ := Track.sliceChecked_eq_ok_iff.1 hq
    cases h
    exact .inr ⟨‹_›, hab, hb, rfl⟩

end Reads

/-! ## The dealing run -/

section Run

variable {bs : List Nat} {d : Nat} {rows : List (List Nat)} {ps : Array Track}

/-- The first chunk seeds the first pathway. -/
theorem deals_first (hbs : bs.Pairwise (· < ·)) (h2 : 1 < bs.length) (h0 : bs.getD 0 0 = 0) :
    Deals t p bs 1 [List.range' 0 (bs.getD 1 0)] := by
  have hpos : 0 < bs.getD 1 0 := by
    have h01 := getD_lt_getD hbs Nat.zero_lt_one h2
    rwa [h0] at h01
  refine ⟨by simp, fun l hl => ?_, fun l hl => ?_, ?_, by simp, fun j hj => ?_, fun j hj => ?_⟩
  · rw [List.mem_singleton.1 hl]
    exact List.ne_nil_of_length_pos (by simpa using hpos)
  · rw [List.mem_singleton.1 hl]
    exact List.pairwise_lt_range'
  · simp [List.range_eq_range']
  · have hj0 : j = 0 := by omega
    subst hj0
    exact ⟨0, by simp, fun r _ h₂ => by simpa using h₂⟩
  · -- nothing is open before row `0`
    have hj0 : j = 0 := by omega
    subst hj0
    rw [h0]
    have hclosed : ∀ l : List Nat, ¬OpenAt l 0 := fun l => not_openAt fun r _ => Nat.zero_le r
    exact ⟨fun k _ ho => absurd ho (hclosed _), fun k _ _ ho => absurd ho (hclosed _),
      fun k _ _ _ k' _ ho' => absurd ho' (hclosed _)⟩

/-- The pathways `ps` while the chunks `l` are still to deal: `l` are the chunks from some
chunk `d` on, and `ps` the gathers of row lists that deal the chunks before `d`. -/
def DealsFrom (t : Track) (p : PathwayParams) (bs : List Nat) (l : List (Nat × Nat))
    (ps : Array Track) : Prop :=
  ∃ d rows, l = windows (bs.drop d) ∧ d < bs.length ∧ ps = (rows.map t.gather).toArray ∧
    Deals t p bs d rows

variable (hv : t.Valid) (hbs : bs.Pairwise (· < ·)) (hbn : ∀ x ∈ bs, x ≤ t.size)
include hv hbs hbn

/-- Dealing chunk `d` to pathways that deal the chunks before it keeps the invariant. -/
theorem deal_eq_ok (hd : d + 1 < bs.length) (hinv : Deals t p bs d rows)
    (h : deal t p (rows.map t.gather).toArray (bs.getD d 0, bs.getD (d + 1) 0) = .ok ps) :
    ∃ rows', ps = (rows'.map t.gather).toArray ∧ Deals t p bs (d + 1) rows' := by
  have hb := getD_le hbn (d + 1)
  have hlt : ∀ l ∈ rows, ∀ r ∈ l, r < bs.getD d 0 := hinv.lt_top
  obtain ⟨-, i, s, hbest, hcases⟩ := deal_eq_ok_cases h
  -- the scores `best` compares are the continuities of the row lists
  have hscore : ∀ k (hk : k < rows.length), continuity (Anchor.last (t.gather rows[k]))
      (Anchor.ofRow t (bs.getD d 0)) p = scoreAt t p rows[k] (bs.getD d 0) := by
    intro k hk
    rw [scoreAt_of_lt (hinv.pathway_ne_nil _ (List.getElem_mem hk)) (hlt _ (List.getElem_mem hk))]
  change best (rows.map t.gather) _ p = _ at hbest
  obtain ⟨hi, hsi, hall⟩ := best_eq_ok hbest (by simpa using hinv.ne_nil)
  simp only [List.length_map, List.getElem_map] at hi hsi hall
  simp only [hscore] at hsi hall
  rcases hcases with ⟨hmin, -, -, -, rfl⟩ | ⟨hmin, -, -, rfl⟩
  · -- the chunk joins pathway `i`
    refine ⟨_, ?_, hinv.joinPathway hbs hd rfl rfl hi hsi hall hmin⟩
    rw [List.modify_toArray]
    congr 1
    apply List.ext_getElem (by simp)
    intro k h₁ h₂
    simp only [List.getElem_modify, List.getElem_map]
    split
    · exact Track.extendFrom_gather hv hb
    · rfl
  · -- the chunk opens a new pathway
    refine ⟨_, ?_, hinv.newPathway hbs hd rfl rfl
      (fun k hk => (hall k hk).imp fun c hc => ⟨hc.1, hc.2.1⟩) hmin⟩
    rw [Track.slice_eq_gather hv hb, List.push_toArray, List.map_append, List.map_singleton]

/-- Dealing chunk `d` succeeds when the track's first and last times fit apart: the chunk is
inside the track, and every pathway is a non-empty gather whose last row precedes it. -/
theorem deal_ok (hfit : t.RangeFits 0 t.size) (hd : d + 1 < bs.length)
    (hinv : Deals t p bs d rows) :
    ∃ ps, deal t p (rows.map t.gather).toArray (bs.getD d 0, bs.getD (d + 1) 0) = .ok ps := by
  have hab := getD_lt_getD hbs (Nat.lt_succ_self d) hd
  have hb := getD_le hbn (d + 1)
  have ha : bs.getD d 0 < t.size := Nat.lt_of_lt_of_le hab hb
  -- every pathway ends below the chunk, so its continuity is computed
  have hbest : ∃ r, best (rows.map t.gather).toArray.toList (Anchor.ofRow t (bs.getD d 0)) p =
      .ok r := by
    refine best_ok fun q hq => ?_
    obtain ⟨l, hl, rfl⟩ := List.mem_map.1 hq
    have hne := hinv.pathway_ne_nil l hl
    have hr := hinv.lt_top l hl _ (List.getLast_mem hne)
    rw [Track.last_gather hne]
    have hgap := hv.sub_le_range (Nat.zero_le _) hr.le ha le_rfl
    exact continuity_ok hgap.1 (Int.le_trans hgap.2 hfit)
  -- and its last row is read
  have hlast : ∀ q ∈ (rows.map t.gather).toArray.toList,
      Anchor.lastRow q = .ok (Anchor.last q) := by
    intro q hq
    obtain ⟨l, hl, rfl⟩ := List.mem_map.1 (by simpa using hq)
    exact Anchor.lastRow_gather (hinv.pathway_ne_nil l hl)
  obtain ⟨r, hr⟩ := hbest
  rw [deal_eq hv hab hb (by simpa using hinv.ne_nil) hlast, hr]
  exact ⟨_, rfl⟩

omit hv hbs hbn in
/-- The chunks still to deal, from chunk `d` on, are the windows of the bounds from `d`. -/
theorem windows_drop_eq_cons {w : Nat × Nat} {l : List (Nat × Nat)}
    (h : windows (bs.drop d) = w :: l) :
    d + 1 < bs.length ∧ w = (bs.getD d 0, bs.getD (d + 1) 0) ∧ l = windows (bs.drop (d + 1)) := by
  rcases hbd : bs.drop d with _ | ⟨x, _ | ⟨y, r⟩⟩
  · rw [hbd] at h
    cases h
  · rw [hbd] at h
    cases h
  · rw [hbd, windows] at h
    obtain ⟨rfl, rfl⟩ := List.cons.inj h
    have hlen := congrArg List.length hbd
    have hx : bs[d + 0]? = some x := by rw [← List.getElem?_drop, hbd]; rfl
    have hy : bs[d + 1]? = some y := by rw [← List.getElem?_drop, hbd]; rfl
    simp only [List.length_drop, List.length_cons] at hlen
    refine ⟨by omega, by simp_all [List.getD_eq_getElem?_getD], ?_⟩
    rw [← List.drop_drop, hbd]
    rfl

omit hv hbs hbn in
theorem length_le_of_windows_drop_eq_nil (h : windows (bs.drop d) = []) : bs.length ≤ d + 1 := by
  rcases hbd : bs.drop d with _ | ⟨x, _ | ⟨y, r⟩⟩
  all_goals have hlen := congrArg List.length hbd
  all_goals simp only [List.length_drop, List.length_cons, List.length_nil] at hlen
  · omega
  · omega
  · rw [hbd, windows] at h
    cases h

/-- Dealing the next chunk keeps the invariant. -/
theorem DealsFrom.step {w : Nat × Nat} {l : List (Nat × Nat)} {ps' : Array Track}
    (h : DealsFrom t p bs (w :: l) ps) (hdeal : deal t p ps w = .ok ps') :
    DealsFrom t p bs l ps' := by
  obtain ⟨d, rows, hl, -, rfl, hinv⟩ := h
  obtain ⟨hd, rfl, rfl⟩ := windows_drop_eq_cons hl.symm
  obtain ⟨rows', rfl, hinv'⟩ := deal_eq_ok hv hbs hbn hd hinv hdeal
  exact ⟨d + 1, rows', rfl, hd, rfl, hinv'⟩

/-- The next chunk is dealt when the track's first and last times fit apart. -/
theorem DealsFrom.next (hfit : t.RangeFits 0 t.size) {w : Nat × Nat} {l : List (Nat × Nat)}
    (h : DealsFrom t p bs (w :: l) ps) : ∃ ps', deal t p ps w = .ok ps' ∧ DealsFrom t p bs l ps' := by
  obtain ⟨ps', hdeal⟩ : ∃ ps', deal t p ps w = .ok ps' := by
    obtain ⟨d, rows, hl, -, rfl, hinv⟩ := h
    obtain ⟨hd, rfl, -⟩ := windows_drop_eq_cons hl.symm
    exact deal_ok hv hbs hbn hfit hd hinv
  exact ⟨ps', hdeal, h.step hv hbs hbn hdeal⟩

/-- Dealing the chunks from `d` on keeps the invariant to the last chunk. -/
theorem deals_foldlM (hinv : Deals t p bs d rows) (hd : d < bs.length)
    (h : (windows (bs.drop d)).foldlM (deal t p) (rows.map t.gather).toArray = .ok ps) :
    ∃ rows', ps = (rows'.map t.gather).toArray ∧ Deals t p bs (bs.length - 1) rows' := by
  obtain ⟨d', rows', hnil, hd', rfl, hinv'⟩ := Except.foldlM_inv (DealsFrom t p bs)
    (fun _ _ _ _ h hdeal => h.step hv hbs hbn hdeal) ⟨d, rows, rfl, hd, rfl, hinv⟩ h
  -- no chunk is left once the last bound is reached
  have hlast : d' = bs.length - 1 := by
    have := length_le_of_windows_drop_eq_nil hnil.symm
    omega
  exact ⟨rows', rfl, hlast ▸ hinv'⟩

/-- Dealing the chunks from `d` on succeeds when the track's first and last times fit
apart. -/
theorem foldlM_deal_ok (hfit : t.RangeFits 0 t.size) (hinv : Deals t p bs d rows)
    (hd : d < bs.length) :
    ∃ ps, (windows (bs.drop d)).foldlM (deal t p) (rows.map t.gather).toArray = .ok ps :=
  Except.foldlM_ok (DealsFrom t p bs) (fun _ _ _ h => h.next hv hbs hbn hfit)
    ⟨d, rows, rfl, hd, rfl, hinv⟩

end Run

/-! ## Reconstruction -/

section Reconstruct

variable {ps : Array Track}

/-- Together the pathways hold as many rows as lie below the next chunk. -/
theorem Deals.sum_length {bs : List Nat} {d : Nat} {rows : List (List Nat)}
    (hinv : Deals t p bs d rows) : (rows.map List.length).sum = bs.getD d 0 := by
  rw [← List.length_flatten, hinv.perm.length_eq, List.length_range]

/-- What reconstruction returns: the row lists that deal out all the chunks, gathered and
labelled by their index. -/
theorem reconstruct_eq_ok (hv : t.Valid) (h : reconstruct t p = .ok ps) :
    ∃ bs rows, chunkBounds t p = .ok bs ∧ Deals t p bs (bs.length - 1) rows ∧
      ps.toList = rows.mapIdx fun k l => { t.gather l with label := some k } := by
  unfold reconstruct at h
  dsimp only at h
  split at h
  · -- a track of one row is one pathway
    rename_i h1
    simp only [pure, Except.pure, Bind.bind, Except.bind, Except.ok.injEq] at h
    subst h
    have hcb : chunkBounds t p = .ok [0, 1] := chunkBounds_lone h1
    have ht : t.gather [0] = t := by
      have hs := Track.slice_eq_gather (a := 0) hv (le_refl t.size)
      rw [Track.slice_all hv, h1] at hs
      exact hs.symm
    exact ⟨[0, 1], [[0]], hcb, deals_first (by simp) (by simp) rfl, by simp [ht]⟩
  · -- otherwise the first chunk seeds the first pathway and the others are dealt
    obtain ⟨bs, hcb, h⟩ := Except.bind_eq_ok.1 h
    obtain ⟨hbs, hbn, -, h2, -⟩ := chunkBounds_sorted hv hcb
    obtain ⟨b, rest, rfl⟩ := chunkBounds_eq_cons hv hcb
    have hb : b ≤ t.size := hbn b (by simp)
    have h0b : 0 < b := List.rel_of_pairwise_cons hbs (by simp)
    dsimp only at h
    obtain ⟨first, hfirst, h⟩ := Except.bind_eq_ok.1 h
    obtain ⟨qs, hqs, h⟩ := Except.bind_eq_ok.1 h
    simp only [pure, Except.pure, Except.ok.injEq] at h
    subst h
    obtain ⟨-, -, rfl⟩ := Track.sliceChecked_eq_ok_iff.1 hfirst
    rw [Track.slice_eq_gather hv hb] at hqs
    obtain ⟨rows, rfl, hinv⟩ :=
      deals_foldlM hv hbs hbn (d := 1) (deals_first hbs h2 rfl) h2 hqs
    refine ⟨_, rows, hcb, hinv, List.ext_getElem (by simp) fun k h₁ h₂ => ?_⟩
    simp

/-- Reconstruction of a valid track succeeds when its first and last times fit a signed
64-bit integer apart. -/
theorem reconstruct_ok (hv : t.Valid) (hfit : t.RangeFits 0 t.size) :
    ∃ ps, reconstruct t p = .ok ps := by
  unfold reconstruct
  dsimp only
  split
  · exact ⟨_, rfl⟩
  · obtain ⟨bs, hcb⟩ := chunkBounds_ok (p := p) hv hfit
    obtain ⟨hbs, hbn, -, h2, -⟩ := chunkBounds_sorted hv hcb
    obtain ⟨b, rest, rfl⟩ := chunkBounds_eq_cons hv hcb
    have hb : b ≤ t.size := hbn b (by simp)
    have h0b : 0 < b := List.rel_of_pairwise_cons hbs (by simp)
    obtain ⟨qs, hqs⟩ := foldlM_deal_ok (p := p) hv hbs hbn hfit (d := 1) (deals_first hbs h2 rfl) h2
    rw [hcb, Except.ok_bind]
    dsimp only
    rw [Track.sliceChecked_eq_ok h0b hb, Except.ok_bind, Track.slice_eq_gather hv hb,
      show (windows (b :: rest)).foldlM (deal t p) #[t.gather (List.range' 0 (b - 0))] = .ok qs
        from hqs, Except.ok_bind]
    exact ⟨_, rfl⟩

/-- The pathways of a track before they are labelled: a track of one row is its one pathway,
and otherwise the first chunk seeds a pathway and the later ones are dealt. -/
def dealt (t : Track) (p : PathwayParams) : Except Fault (Array Track) :=
  if t.size = 1 then pure #[t]
  else do
    match ← chunkBounds t p with
    | a :: b :: rest => do
      let first ← t.sliceChecked a b
      (windows (b :: rest)).foldlM (deal t p) #[first]
    | [] => throw (.outOfBounds 0 0)
    | [_] => throw (.outOfBounds 1 1)

/-- Reconstruction deals the chunks, then labels the pathways by their index. -/
theorem reconstruct_eq_dealt (t : Track) (p : PathwayParams) :
    reconstruct t p = (·.mapIdx fun i q => { q with label := some i }) <$> dealt t p := by
  unfold reconstruct dealt
  split
  · rfl
  · cases chunkBounds t p with
    | error e => rfl
    | ok bs =>
      simp only [Except.ok_bind]
      rcases bs with _ | ⟨a, _ | ⟨b, rest⟩⟩
      · rfl
      · rfl
      · dsimp only
        cases t.sliceChecked a b with
        | error e => rfl
        | ok first =>
          simp only [Except.ok_bind]
          cases (windows (b :: rest)).foldlM (deal t p) #[first] <;> rfl

/-- `best` reads only the last position of each pathway. -/
theorem best_map {F : Track → Track} (hF : ∀ q, Anchor.last (F q) = Anchor.last q)
    (qs : List Track) (head : Anchor) : best (qs.map F) head p = best qs head p := by
  induction qs using List.reverseRecOn with
  | nil => rfl
  | append_singleton qs q ih =>
    simp only [List.map_append, List.map_cons, List.map_nil, best_append, ih, List.length_map, hF]

/-- Dealing the chunk `[a, b)` of a track `t'` to pathways mapped by `F` deals it as for `t`,
then maps the pathways: `F` keeps last positions and their reads, `t'` has the positions of
`t`, and appending rows of `t'` to a mapped pathway, or slicing them, maps the same done with
`t`, failures included. -/
theorem deal_map {F : Track → Track} {t' : Track} {a b : Nat}
    (hlast : ∀ q, Anchor.last (F q) = Anchor.last q)
    (hlastRow : ∀ q, Anchor.lastRow (F q) = Anchor.lastRow q)
    (hrow : Anchor.atRow t' a = Anchor.atRow t a)
    (hext : ∀ q ∈ ps, (F q).extendChecked t' a b = F <$> q.extendChecked t a b)
    (hslice : t'.sliceChecked a b = F <$> t.sliceChecked a b) :
    deal t' p (ps.map F) (a, b) = (·.map F) <$> deal t p ps (a, b) := by
  have hreads : (ps.toList.map F).mapM Anchor.lastRow = ps.toList.mapM Anchor.lastRow :=
    Except.mapM_eq_of_map_eq (by simp [Function.comp_def, hlastRow])
  -- the head, the last positions and the best pathway are read alike; only the last step maps
  simp only [deal, Array.toList_map, best_map hlast, hrow, hreads, map_bind]
  refine bind_congr fun head => bind_congr fun _ => bind_congr fun r => ?_
  obtain ⟨i, score⟩ := r
  by_cases hs : p.minscore ≤ score
  · -- the chunk joins pathway `i`, read from the mapped pathways as from the others
    simp only [if_pos hs, entry_map, bind_map_left, map_bind, map_pure]
    cases he : entry ps i with
    | error e => rfl
    | ok q =>
      obtain ⟨hi, rfl⟩ := entry_eq_ok_iff.1 he
      simp only [Except.ok_bind, hext _ (Array.getElem_mem hi), bind_map_left]
      refine bind_congr fun q' => congrArg pure (Array.ext (by simp) fun k h₁ h₂ => ?_)
      simp only [Array.getElem_modify, Array.getElem_map]
      split <;> rfl
  · -- the chunk opens a pathway
    simp only [if_neg hs, hslice, bind_map_left, map_bind, map_pure, Array.map_push]

/-- The pathways of `t' = F t` before labelling are those of `t` mapped by `F`, when `t'` has
the size and the chunk bounds of `t`, its checked slices are the mapped ones, and every chunk
is dealt alike to pathways that satisfy an invariant `I` which dealing keeps. -/
theorem dealt_map {F : Track → Track} {t' : Track} (I : Array Track → Prop)
    (hsize : t'.size = t.size) (hself : t' = F t) (hcb : chunkBounds t' p = chunkBounds t p)
    (hslice : ∀ a b, t'.sliceChecked a b = F <$> t.sliceChecked a b)
    (hI₀ : ∀ a b, I #[t.slice a b])
    (hI : ∀ w ps ps', I ps → deal t p ps w = .ok ps' → I ps')
    (hdeal : ∀ w ps, I ps → deal t' p (ps.map F) w = (·.map F) <$> deal t p ps w) :
    dealt t' p = (·.map F) <$> dealt t p := by
  unfold dealt
  rw [hsize, hcb]
  by_cases h1 : t.size = 1
  · rw [if_pos h1, if_pos h1, hself]
    show Except.ok _ = Except.ok _
    simp
  · rw [if_neg h1, if_neg h1]
    cases chunkBounds t p with
    | error e => rfl
    | ok bs =>
      rcases bs with _ | ⟨a, _ | ⟨b, rest⟩⟩
      · rfl
      · rfl
      · -- the first chunk seeds the mapped pathway, and each later one is dealt alike
        show (t'.sliceChecked a b >>= _) = _ <$> (t.sliceChecked a b >>= _)
        rw [hslice a b]
        cases hs : t.sliceChecked a b with
        | error e => rfl
        | ok first =>
          obtain ⟨-, -, rfl⟩ := Track.sliceChecked_eq_ok_iff.1 hs
          show List.foldlM _ #[F (t.slice a b)] _ = _ <$> List.foldlM _ #[t.slice a b] _
          rw [show #[F (t.slice a b)] = #[t.slice a b].map F by simp]
          exact Except.foldlM_map_comm _ I hI hdeal _ (hI₀ a b)

/-- **Reconstructed pathways deal out the chunks of a track.** Reconstruction of a valid
track succeeds when its first and last times fit a signed 64-bit integer apart. Whatever it
returns is, for the row lists `rows` that deal out every chunk of the track's chunk bounds by
the greedy rule (`Deals`), the list of their gathers labelled `0, 1, …`; the pathways' sizes
add up to the track's, and each pathway's times never decrease. -/
theorem reconstruct_deals_chunks (hv : t.Valid) :
    (t.RangeFits 0 t.size → ∃ ps, reconstruct t p = .ok ps) ∧
      ∀ ps, reconstruct t p = .ok ps → ∃ bs rows, chunkBounds t p = .ok bs ∧
        Deals t p bs (bs.length - 1) rows ∧
        ps.toList = rows.mapIdx (fun k l => { t.gather l with label := some k }) ∧
        (ps.toList.map Track.size).sum = t.size ∧
        ∀ q ∈ ps.toList, q.time.toList.Pairwise (· ≤ ·) := by
  refine ⟨reconstruct_ok hv, fun ps h => ?_⟩
  obtain ⟨bs, rows, hcb, hinv, hps⟩ := reconstruct_eq_ok hv h
  obtain ⟨-, -, -, -, htop⟩ := chunkBounds_sorted hv hcb
  refine ⟨bs, rows, hcb, hinv, hps, ?_, fun q hq => ?_⟩
  · -- a pathway has as many rows as its row list
    have hsizes : ps.toList.map Track.size = rows.map List.length := by
      rw [hps]
      refine List.ext_getElem (by simp) fun k h₁ h₂ => ?_
      simp only [List.getElem_map, List.getElem_mapIdx]
      exact Track.size_gather
    rw [hsizes, hinv.sum_length, htop]
  · rw [hps, List.mem_mapIdx] at hq
    obtain ⟨k, hk, rfl⟩ := hq
    exact Track.gather_time_sorted hv (hinv.sorted _ (List.getElem_mem hk))
      fun r hr => htop ▸ hinv.lt_top _ (List.getElem_mem hk) r hr

/-- Two rows a minute apart at one position. -/
def standstill : Track :=
  { mmsi := 1, time := #[0, 60], lon := #[0.0, 0.0], lat := #[0.0, 0.0], cog := #[0.0, 0.0],
    sog := #[0.0, 0.0] }

/-- Three rows a minute apart, the middle one ten degrees of longitude away: both steps
break. -/
def zigzag : Track :=
  { mmsi := 1, time := #[0, 60, 120], lon := #[0.0, 10.0, 0.0], lat := #[0.0, 0.0, 0.0],
    cog := #[0.0, 0.0, 0.0], sog := #[0.0, 0.0, 0.0] }

theorem zigzag_valid : zigzag.Valid :=
  ⟨by decide, rfl, rfl, rfl, rfl, (fun _ hz => by cases hz), by decide⟩

theorem zigzag_rangeFits : zigzag.RangeFits 0 zigzag.size := by
  unfold Track.RangeFits
  decide

/-- The three rows of `zigzag` are dealt out under the default thresholds: reconstruction
succeeds, and its pathways share the three rows between them, each in time order. -/
theorem reconstruct_zigzag :
    zigzag.Valid ∧ zigzag.RangeFits 0 zigzag.size ∧ ∃ ps, reconstruct zigzag {} = .ok ps ∧
      ∃ bs rows, chunkBounds zigzag {} = .ok bs ∧ Deals zigzag {} bs (bs.length - 1) rows ∧
        ps.toList = rows.mapIdx (fun k l => { zigzag.gather l with label := some k }) ∧
        (ps.toList.map Track.size).sum = zigzag.size ∧
        ∀ q ∈ ps.toList, q.time.toList.Pairwise (· ≤ ·) := by
  obtain ⟨hok, hall⟩ := reconstruct_deals_chunks (p := {}) zigzag_valid
  obtain ⟨ps, h⟩ := hok zigzag_rangeFits
  exact ⟨zigzag_valid, zigzag_rangeFits, ps, h, hall ps h⟩

/-- Two rows at one position, at the least and the greatest signed 64-bit time. -/
def farApart : Track :=
  { mmsi := 1, time := #[-9223372036854775808, 9223372036854775807], lon := #[0.0, 0.0],
    lat := #[0.0, 0.0], cog := #[0.0, 0.0], sog := #[0.0, 0.0] }

/-- The seconds between the two rows of `farApart` overflow: no pathway is returned. -/
theorem reconstruct_farApart_overflows :
    reconstruct farApart {} = .error (.overflow .subtract) := by
  rfl

/-- `farApart` is a valid track, and already its chunk bounds overflow. -/
theorem chunkBounds_farApart_overflows :
    farApart.Valid ∧ chunkBounds farApart {} = .error (.overflow .subtract) := by
  refine ⟨⟨by decide, rfl, rfl, rfl, rfl, (fun _ hz => by cases hz), by decide⟩, ?_⟩
  rfl

end Reconstruct

end Pathway

end Seaway
