import Mathlib
import Seaway.Zone.Domain
import Seaway.Proofs.Order
import Seaway.Proofs.Except

/-!
# Locating a position in a domain

`Domain.locate` answers in three steps: a test against the domain box, a ranking of the
zones whose centroid margin is negative, and the first of them that contains the position.
The statements here say what that computes on every domain that `Domain.new` accepts:

* `Domain.new_sound`: an accepted domain holds its zones in order, their names are distinct
  and none is `Z0`, and its box covers the box of every zone (`Domain.Sound`);
* `locate_eq_find`: the domain box never changes the answer;
* `locate_ne_noZone_iff`: the answer names a zone exactly when some zone contains the position
  with a negative centroid margin;
* `locate_eq_nearest_candidate`: the answer is the zone of least centroid margin among those
  whose polygon holds the position and whose margin is negative, earlier zones winning ties,
  or `Z0` when there is none.

The ranking is a stable merge sort on doubles; `find?_mergeSort` is the general fact about
taking the first element that passes a test from a stable sort.
-/

namespace Seaway

open scoped List

/-! ## Boxes -/

namespace Box

variable {b o : Box} {x y : Float}

theorem contains_iff : b.contains x y = true ↔ b.xmin ≤ x ∧ x ≤ b.xmax ∧ b.ymin ≤ y ∧ y ≤ b.ymax := by
  simp [contains, and_assoc]

/-- Growing a box keeps every point it held. -/
theorem contains_expand_left (h : b.contains x y = true) : (b.expand o).contains x y = true := by
  obtain ⟨h₁, h₂, h₃, h₄⟩ := contains_iff.1 h
  exact contains_iff.2 ⟨Real64.minNum_le_of_left_le h₁, Real64.le_maxNum_of_le_left h₂,
    Real64.minNum_le_of_left_le h₃, Real64.le_maxNum_of_le_left h₄⟩

/-- A box grown by another holds every point of the other. -/
theorem contains_expand_right (h : o.contains x y = true) : (b.expand o).contains x y = true := by
  obtain ⟨h₁, h₂, h₃, h₄⟩ := contains_iff.1 h
  exact contains_iff.2 ⟨Real64.minNum_le_of_right_le h₁, Real64.le_maxNum_of_le_right h₂,
    Real64.minNum_le_of_right_le h₃, Real64.le_maxNum_of_le_right h₄⟩

end Box

/-! ## The first passing element of a stable sort -/

namespace StableSort

variable {α : Type} {le : α → α → Bool} {p : α → Bool} {l : List α} {a b : α}

/-- Two elements in order in a list are in order in any list it is a sublist of; here,
from their indices. -/
theorem pair_sublist_of_getElem? {i j : Nat} (hij : i < j) (ha : l[i]? = some a)
    (hb : l[j]? = some b) : [a, b] <+ l := by
  induction l generalizing i j with
  | nil => simp at ha
  | cons c l ih =>
    cases j with
    | zero => omega
    | succ j =>
      cases i with
      | zero =>
        -- `a` is the head and `b` lies in the tail
        simp only [List.getElem?_cons_zero, Option.some.injEq] at ha
        subst ha
        exact List.Sublist.cons_cons _ (List.singleton_sublist.2 (List.mem_of_getElem? hb))
      | succ i => exact List.Sublist.cons _ (ih (by omega) ha hb)

/-- In a list without repeats, an element passing the test that comes before `a` keeps
`find?` from returning `a`. -/
theorem find?_ne_of_pair_sublist (hb : p b = true) (hnd : l.Nodup) (hs : [b, a] <+ l) :
    l.find? p ≠ some a := by
  induction l with
  | nil => simp at hs
  | cons c l ih =>
    by_cases hc : p c = true
    · -- the search stops at `c`; were it `a`, then `a` would occur again in the tail
      rw [List.find?_cons_of_pos hc]
      rintro ⟨⟩
      have ha : a ∈ l := by
        rcases List.sublist_cons_iff.1 hs with hs | ⟨r, hr, hs⟩
        · exact hs.subset (by simp : a ∈ [b, a])
        · cases hr
          exact List.singleton_sublist.1 hs
      exact (List.nodup_cons.1 hnd).1 ha
    · rw [List.find?_cons_of_neg hc]
      have hbc : b ≠ c := fun h => hc (h ▸ hb)
      rcases List.sublist_cons_iff.1 hs with hs | ⟨r, hr, -⟩
      · exact ih (List.nodup_cons.1 hnd).2 hs
      · exact absurd (List.cons.inj hr).1 hbc

/-- The first element of a stable merge sort that passes a test is a least passing element,
and of the least passing elements it is the first in the input: a passing element that
comes before it in the input is strictly greater. -/
theorem find?_mergeSort (trans : ∀ a b c, le a b → le b c → le a c)
    (total : ∀ a b, le a b || le b a) (hnd : l.Nodup) (h : (l.mergeSort le).find? p = some a) :
    a ∈ l ∧ p a = true ∧
      ∀ b ∈ l, p b = true → b ≠ a → le a b = true ∧ ([b, a] <+ l → le b a = false) := by
  have hnd' : (l.mergeSort le).Nodup := (List.mergeSort_perm l le).nodup_iff.2 hnd
  obtain ⟨hpa, as, bs, hs, has⟩ := List.find?_eq_some_iff_append.1 h
  refine ⟨List.mem_mergeSort.1 (List.mem_of_find?_eq_some h), hpa, fun b hb hpb hba => ⟨?_, ?_⟩⟩
  · -- `b` passes, so it is not before `a`; it is after `a` in a sorted list
    have hbs : b ∈ bs := by
      have hb' : b ∈ as ++ a :: bs := hs ▸ List.mem_mergeSort.2 hb
      rcases List.mem_append.1 hb' with hb' | hb'
      · exact absurd hpb (by simpa using has b hb')
      · exact (List.mem_cons.1 hb').resolve_left hba
    have hsorted := List.pairwise_mergeSort trans total l
    rw [hs, List.pairwise_append, List.pairwise_cons] at hsorted
    exact hsorted.2.1.1 b hbs
  · -- were `b` ranked with `a`, stability would put it first in the sorted list too
    intro hsub
    by_contra hle
    have hs' : [b, a] <+ l.mergeSort le :=
      List.pair_sublist_mergeSort trans total (by simpa using hle) hsub
    exact find?_ne_of_pair_sublist hpb hnd' hs' h

end StableSort

/-! ## What `Domain.new` accepts -/

namespace Domain

/-- What every domain under construction keeps: zone names are distinct and none is `Z0`,
and the domain box covers the box of every zone. -/
structure Sound (d : Domain) : Prop where
  names_nodup : (d.zones.toList.map Zone.name).Nodup
  name_ne_noZone : ∀ z ∈ d.zones.toList, z.name ≠ noZone
  covers : ∀ z ∈ d.zones.toList, ∀ x y, z.bbox.contains x y = true → d.bounds.contains x y = true

variable {d d' : Domain} {z : Zone}

/-- One accepted zone: its name is free and not reserved, and it is appended with the box
grown to cover it. -/
theorem addZone_eq_ok (h : d.addZone z = .ok d') :
    z.name ≠ noZone ∧ (∀ z' ∈ d.zones.toList, z'.name ≠ z.name) ∧
      d' = { d with zones := d.zones.push z, bounds := d.bounds.expand z.bbox } := by
  -- each refusal is a `throw`, which a successful run cannot have taken
  by_cases hres : z.name = noZone ∨ z.name = nullText
  · simp [addZone, hres, throw, throwThe, MonadExceptOf.throw, Bind.bind, Except.bind] at h
  by_cases hdup : d.zones.any (·.name = z.name)
  · simp [addZone, hres, hdup, throw, throwThe, MonadExceptOf.throw, Bind.bind, Except.bind] at h
  by_cases hspan : z.bbox.xmin < -180.0 ∨ 180.0 < z.bbox.xmax
  · simp [addZone, hres, hdup, hspan, throw, throwThe, MonadExceptOf.throw, Bind.bind,
      Except.bind] at h
  simp [addZone, hres, hdup, hspan, pure, Except.pure] at h
  refine ⟨fun hz => hres (.inl hz), fun z' hz' hname => hdup ?_, h.symm⟩
  rw [← Array.any_toList]
  exact List.any_eq_true.2 ⟨z', hz', by simp [hname]⟩

/-- Adding a zone keeps a domain sound and appends the zone. -/
theorem sound_addZone (hd : d.Sound) (h : d.addZone z = .ok d') :
    d'.Sound ∧ d'.zones.toList = d.zones.toList ++ [z] := by
  obtain ⟨hname, hfree, rfl⟩ := addZone_eq_ok h
  refine ⟨⟨?_, ?_, ?_⟩, by simp⟩
  · simp only [Array.toList_push, List.map_append, List.map_cons, List.map_nil]
    refine List.nodup_append.2 ⟨hd.names_nodup, List.nodup_singleton _, ?_⟩
    simp only [List.mem_map, List.mem_singleton]
    rintro _ ⟨z', hz', rfl⟩ _ rfl
    exact hfree z' hz'
  · intro z' hz'
    simp only [Array.toList_push, List.mem_append, List.mem_singleton] at hz'
    rcases hz' with hz' | rfl
    · exact hd.name_ne_noZone z' hz'
    · exact hname
  · intro z' hz' x y hb
    simp only [Array.toList_push, List.mem_append, List.mem_singleton] at hz'
    rcases hz' with hz' | rfl
    · exact Box.contains_expand_left (hd.covers z' hz' x y hb)
    · exact Box.contains_expand_right hb

/-- Adding zones one by one keeps a domain sound and appends them in order. -/
theorem sound_foldlM_addZone {zs : List Zone} (hd : d.Sound)
    (h : zs.foldlM addZone d = .ok d') :
    d'.Sound ∧ d'.zones.toList = d.zones.toList ++ zs := by
  induction zs generalizing d with
  | nil =>
    cases h
    exact ⟨hd, by simp⟩
  | cons z zs ih =>
    rw [List.foldlM_cons, Except.bind_eq_ok] at h
    obtain ⟨d₁, h₁, h₂⟩ := h
    obtain ⟨hs₁, hz₁⟩ := sound_addZone hd h₁
    obtain ⟨hs, hz⟩ := ih hs₁ h₂
    exact ⟨hs, by rw [hz, hz₁, List.append_assoc, List.singleton_append]⟩

theorem checkBounds_eq_ok (h : d.checkBounds = .ok d') : d' = d := by
  unfold checkBounds at h
  dsimp only at h
  split at h
  · cases h
  · split at h
    · cases h
    · cases h
      rfl

/-- A domain that `Domain.new` accepts is sound and holds the given zones in order. -/
theorem new_sound {name : String} {zs : List Zone} (h : Domain.new name zs = .ok d) :
    d.Sound ∧ d.zones.toList = zs := by
  unfold Domain.new at h
  split at h
  · cases h
  · rename_i z rest
    obtain ⟨d₁, h₁, h₂⟩ := Except.bind_eq_ok.1 h
    -- the empty domain the zones are added to is sound: it has no zone
    have h₀ : Sound { name, zones := #[], bounds := z.bbox } := ⟨by simp, by simp, by simp⟩
    obtain ⟨hs, hz⟩ := sound_foldlM_addZone h₀ h₁
    rw [checkBounds_eq_ok h₂]
    exact ⟨hs, by simpa using hz⟩

/-! ## Ranking by centroid margin -/

/-- The zones of negative centroid margin at a position, with their margins, in domain
order: the list that `nearest` ranks. -/
def withMargins (d : Domain) (x y : Float) : List (Zone × Float) :=
  d.zones.toList.filterMap fun z =>
    if z.centroidMargin x y < 0.0 then some (z, z.centroidMargin x y) else none

/-- Margins compared by their rank keys: the order of doubles off NaN, and a total preorder
everywhere. -/
def byMargin (q r : Zone × Float) : Bool :=
  decide (Real64.RankLE (Real64.rank q.2) (Real64.rank r.2))

theorem byMargin_trans (q r s : Zone × Float) :
    byMargin q r = true → byMargin r s = true → byMargin q s = true := by
  intro hqr hrs
  simp only [byMargin, decide_eq_true_eq] at *
  unfold Real64.RankLE at *
  omega

theorem byMargin_total (q r : Zone × Float) : (byMargin q r || byMargin r q) = true := by
  simp only [byMargin, Bool.or_eq_true, decide_eq_true_eq]
  unfold Real64.RankLE
  omega

variable {x y : Float}

theorem mem_withMargins {q : Zone × Float} :
    q ∈ d.withMargins x y ↔
      q.1 ∈ d.zones.toList ∧ q.1.centroidMargin x y < 0.0 ∧ q.2 = q.1.centroidMargin x y := by
  obtain ⟨z, m⟩ := q
  simp only [withMargins, List.mem_filterMap, Option.ite_none_right_eq_some, Option.some.injEq,
    Prod.mk.injEq]
  constructor
  · rintro ⟨z', hz', hm, rfl, rfl⟩
    exact ⟨hz', hm, rfl⟩
  · rintro ⟨hz, hm, rfl⟩
    exact ⟨z, hz, hm, rfl, rfl⟩

/-- A margin that is negative is no NaN. -/
theorem isNaN_of_neg {m : Float} (h : m < 0.0) : m.isNaN = false := Real64.isNaN_left_of_lt h

theorem byMargin_eq (q r : Zone × Float) (hq : q.2.isNaN = false) (hr : r.2.isNaN = false) :
    byMargin q r = decide (q.2 ≤ r.2) := by
  simp only [byMargin, Real64.le_iff_rank, hq, hr, true_and]

/-- Ranking by `≤` on the margins and by their rank keys agree, since no margin ranked is
NaN. -/
theorem nearest_eq_mergeSort : d.nearest x y = (d.withMargins x y).mergeSort byMargin := by
  have hagree : ∀ q ∈ d.withMargins x y, ∀ r ∈ d.withMargins x y,
      decide (q.2 ≤ r.2) = byMargin (id q) (id r) := by
    intro q hq r hr
    obtain ⟨-, hq, hq'⟩ := mem_withMargins.1 hq
    obtain ⟨-, hr, hr'⟩ := mem_withMargins.1 hr
    rw [id, id, byMargin_eq q r (hq' ▸ isNaN_of_neg hq) (hr' ▸ isNaN_of_neg hr)]
  have h := List.map_mergeSort hagree
  simp only [List.map_id_fun, id_eq] at h
  exact h

/-- The domain box never changes where a position is located: a zone that contains the
position has it in its box, and so in the domain box. -/
theorem locate_eq_find (hd : d.Sound) (x y : Float) :
    d.locate x y =
      (((d.nearest x y).find? fun q => q.1.contains x y).map fun q => q.1.name).getD noZone := by
  unfold locate
  split
  · rename_i hout
    have hnone : ((d.nearest x y).find? fun q => q.1.contains x y) = none := by
      rw [List.find?_eq_none]
      intro q hq hc
      have hz : q.1 ∈ d.zones.toList := by
        rw [nearest_eq_mergeSort, List.mem_mergeSort] at hq
        exact (mem_withMargins.1 hq).1
      have hbox : q.1.bbox.contains x y = true := by
        simp only [Zone.contains, Bool.and_eq_true] at hc
        exact hc.1
      simp [hd.covers q.1 hz x y hbox] at hout
    rw [hnone]
    rfl
  · -- the model's test matches on the pair; it is the same test as `q.1.contains x y`
    split
    · rename_i z m hf
      have hf' : (d.nearest x y).find? (fun q => q.1.contains x y) = some (z, m) := hf
      rw [hf']
      rfl
    · rename_i hf
      have hf' : (d.nearest x y).find? (fun q => q.1.contains x y) = none := hf
      rw [hf']
      rfl

theorem withMargins_nodup (hd : d.Sound) : (d.withMargins x y).Nodup := by
  refine List.Nodup.filterMap ?_ (hd.names_nodup.of_map Zone.name)
  intro z z' q hz hz'
  split at hz <;> split at hz'
  all_goals simp only [Option.mem_def, Option.some.injEq, reduceCtorEq] at hz hz'
  rw [← hz'] at hz
  exact (Prod.mk.inj hz).1

/-- Two zones in domain order with negative margins stay in that order when ranked. -/
theorem pair_sublist_withMargins {k j : Nat} {z z' : Zone} (hkj : k < j)
    (hk : d.zones.toList[k]? = some z') (hj : d.zones.toList[j]? = some z)
    (hm' : z'.centroidMargin x y < 0.0) (hm : z.centroidMargin x y < 0.0) :
    [(z', z'.centroidMargin x y), (z, z.centroidMargin x y)] <+ d.withMargins x y := by
  have h := (StableSort.pair_sublist_of_getElem? hkj hk hj).filterMap fun z =>
    if z.centroidMargin x y < 0.0 then some (z, z.centroidMargin x y) else none
  simpa [withMargins, hm, hm'] using h

/-- The zone found first among the ranked zones has the least margin among the zones of
negative margin that contain the position, and of equal margins it is the first in the
domain. -/
theorem find?_ranked_least (hs : d.Sound) {z z' : Zone} {m : Float} {j k : Nat}
    (hf : ((d.withMargins x y).mergeSort byMargin).find? (fun q => q.1.contains x y) =
      some (z, m))
    (hj : d.zones.toList[j]? = some z) (hk : d.zones.toList[k]? = some z')
    (hm' : z'.centroidMargin x y < 0.0) (hc' : z'.contains x y = true) :
    z.centroidMargin x y < z'.centroidMargin x y ∨
      (z.centroidMargin x y ≤ z'.centroidMargin x y ∧
        z'.centroidMargin x y ≤ z.centroidMargin x y ∧ j ≤ k) := by
  obtain ⟨hmem, -, hleast⟩ :=
    StableSort.find?_mergeSort byMargin_trans byMargin_total (withMargins_nodup hs) hf
  obtain ⟨-, hm, hmeq⟩ := mem_withMargins.1 hmem
  dsimp only at hm hmeq
  subst hmeq
  by_cases hsame : z' = z
  · -- the same zone sits at one index only
    subst hsame
    have hnd : d.zones.toList.Nodup := hs.names_nodup.of_map Zone.name
    have hkj : k = j :=
      (List.getElem?_inj (List.getElem?_eq_some_iff.1 hk).1 hnd).1 (hk.trans hj.symm)
    have hle := Real64.le_refl (isNaN_of_neg hm)
    exact Or.inr ⟨hle, hle, hkj.ge⟩
  · have hmem' : (z', z'.centroidMargin x y) ∈ d.withMargins x y :=
      mem_withMargins.2 ⟨List.mem_of_getElem? hk, hm', rfl⟩
    have hne : (z', z'.centroidMargin x y) ≠ (z, z.centroidMargin x y) :=
      fun h => hsame (Prod.mk.inj h).1
    obtain ⟨hab, hsub⟩ := hleast _ hmem' (by simpa using hc') hne
    have hle : z.centroidMargin x y ≤ z'.centroidMargin x y := by
      rw [byMargin_eq (z, z.centroidMargin x y) (z', z'.centroidMargin x y) (isNaN_of_neg hm)
        (isNaN_of_neg hm')] at hab
      exact of_decide_eq_true hab
    by_cases hlt : z.centroidMargin x y < z'.centroidMargin x y
    · exact Or.inl hlt
    · have hle' : z'.centroidMargin x y ≤ z.centroidMargin x y :=
        Real64.le_of_not_lt (isNaN_of_neg hm') (isNaN_of_neg hm) hlt
      refine Or.inr ⟨hle, hle', ?_⟩
      -- an earlier zone of equal margin would have been ranked, and found, first
      by_contra hkj
      have hsub' := hsub (pair_sublist_withMargins (by omega) hk hj hm' hm)
      rw [byMargin_eq (z', z'.centroidMargin x y) (z, z.centroidMargin x y) (isNaN_of_neg hm')
        (isNaN_of_neg hm), decide_eq_false_iff_not] at hsub'
      exact hsub' hle'

end Domain

/-! ## Where a position is located -/

namespace Domain

variable {d : Domain} {name : String} {zs : List Zone}

/-- A position is located in a zone exactly when some zone contains it with a negative
centroid margin. -/
theorem locate_ne_noZone_iff (hd : Domain.new name zs = .ok d) (x y : Float) :
    d.locate x y ≠ noZone ↔ ∃ z ∈ zs, z.contains x y = true ∧ z.centroidMargin x y < 0.0 := by
  obtain ⟨hs, hz⟩ := new_sound hd
  rw [locate_eq_find hs]
  rcases hf : (d.nearest x y).find? (fun q => q.1.contains x y) with _ | ⟨z, m⟩
  · -- nothing found: no zone can contain the position with a negative margin
    rw [hf]
    simp only [Option.map_none, Option.getD_none, ne_eq, not_true_eq_false, false_iff, not_exists,
      not_and]
    intro z hzs hc hm
    have hmem : (z, z.centroidMargin x y) ∈ d.nearest x y := by
      rw [nearest_eq_mergeSort, List.mem_mergeSort, mem_withMargins]
      exact ⟨hz ▸ hzs, hm, rfl⟩
    exact (List.find?_eq_none.1 hf) _ hmem hc
  · have hmem := List.mem_of_find?_eq_some hf
    rw [nearest_eq_mergeSort, List.mem_mergeSort, mem_withMargins] at hmem
    obtain ⟨hzs, hm, -⟩ := hmem
    rw [hf]
    simp only [Option.map_some, Option.getD_some]
    have hc : z.contains x y = true := by simpa using List.find?_some hf
    exact ⟨fun _ => ⟨z, hz ▸ hzs, hc, hm⟩, fun _ => hs.name_ne_noZone z hzs⟩

/-- The unit square as a zone named `A`, with its centroid and a boundary bound of 100 km. -/
def unitSquare : Zone where
  name := "A"
  geometry := ⟨[⟨0.0, 0.0⟩, ⟨0.0, 1.0⟩, ⟨1.0, 1.0⟩, ⟨1.0, 0.0⟩, ⟨0.0, 0.0⟩], []⟩
  centroid := ⟨0.5, 0.5⟩
  maxRadius := 100000.0
  bbox := ⟨0.0, 1.0, 0.0, 1.0⟩

theorem locate_unitSquare_ne_noZone_iff :
    Domain.new "D" [unitSquare] =
        .ok { name := "D", zones := #[unitSquare], bounds := unitSquare.bbox.expand unitSquare.bbox } ∧
      ((Domain.mk "D" #[unitSquare] (unitSquare.bbox.expand unitSquare.bbox)).locate 0.5 0.5 ≠ noZone ↔
        ∃ z ∈ [unitSquare], z.contains 0.5 0.5 = true ∧ z.centroidMargin 0.5 0.5 < 0.0) := by
  have hd : Domain.new "D" [unitSquare] =
      .ok { name := "D", zones := #[unitSquare], bounds := unitSquare.bbox.expand unitSquare.bbox } := by
    with_unfolding_all rfl
  exact ⟨hd, locate_ne_noZone_iff hd 0.5 0.5⟩

/-- A zone can hold a position when its centroid margin there is negative and its polygon
holds the position. -/
def IsCandidate (x y : Float) (z : Zone) : Prop :=
  z.centroidMargin x y < 0.0 ∧ z.geometry.holds ⟨x, y⟩ = true

/-- Where a position is located: the zone of least centroid margin among the candidates, of
equal margins the first in the domain, or `Z0` when no zone is a candidate. Provided that
the polygons holding the position have it in their boxes, neither box test changes the
answer, and a zone named is one that contains the position. -/
theorem locate_eq_nearest_candidate (hd : Domain.new name zs = .ok d) (x y : Float)
    (hbox : ∀ z ∈ zs, z.geometry.holds ⟨x, y⟩ = true → z.bbox.contains x y = true) :
    (∃ (j : Nat) (z : Zone), zs[j]? = some z ∧ IsCandidate x y z ∧ z.contains x y = true ∧
        (∀ (k : Nat) (z' : Zone), zs[k]? = some z' → IsCandidate x y z' →
          z.centroidMargin x y < z'.centroidMargin x y ∨
            (z.centroidMargin x y ≤ z'.centroidMargin x y ∧
              z'.centroidMargin x y ≤ z.centroidMargin x y ∧ j ≤ k)) ∧
        d.locate x y = z.name) ∨
      ((∀ z ∈ zs, ¬IsCandidate x y z) ∧ d.locate x y = noZone) := by
  obtain ⟨hs, hz⟩ := new_sound hd
  -- with the polygon's points inside its box, `contains` is the polygon test
  have hcont : ∀ z ∈ zs, z.contains x y = z.geometry.holds ⟨x, y⟩ := by
    intro z hzs
    unfold Zone.contains
    cases hh : z.geometry.holds ⟨x, y⟩ with
    | false => simp
    | true => simp [hbox z hzs hh]
  rw [locate_eq_find hs, nearest_eq_mergeSort]
  rcases hf : ((d.withMargins x y).mergeSort byMargin).find? (fun q => q.1.contains x y)
    with _ | ⟨z, m⟩
  · -- nothing found: no zone is a candidate
    right
    rw [hf]
    refine ⟨fun z hzs ⟨hm, hh⟩ => ?_, rfl⟩
    have hmem : (z, z.centroidMargin x y) ∈ (d.withMargins x y).mergeSort byMargin := by
      rw [List.mem_mergeSort, mem_withMargins]
      exact ⟨hz ▸ hzs, hm, rfl⟩
    exact (List.find?_eq_none.1 hf) _ hmem (by simpa [hcont z hzs] using hh)
  · left
    rw [hf]
    obtain ⟨hzs, hm, hmeq⟩ :=
      mem_withMargins.1 (List.mem_mergeSort.1 (List.mem_of_find?_eq_some hf))
    dsimp only at hzs hm hmeq
    subst hmeq
    obtain ⟨j, hj⟩ := List.mem_iff_getElem?.1 hzs
    have hc : z.contains x y = true := by simpa using List.find?_some hf
    refine ⟨j, z, hz ▸ hj, ⟨hm, hcont z (hz ▸ hzs) ▸ hc⟩, hc, fun k z' hk ⟨hm', hh'⟩ => ?_, rfl⟩
    have hzs' : z' ∈ zs := List.mem_of_getElem? hk
    exact find?_ranked_least hs hf hj (hz ▸ hk) hm' ((hcont z' hzs').trans hh')

/-- The unit square again, as a zone named `B`: everywhere its centroid margin is that of
`unitSquare`. -/
def unitSquareB : Zone := { unitSquare with name := "B" }

/-- Two zones of one square tie at its centre: whatever the margin there, the first zone of
the domain is named, never the second. -/
theorem locate_unitSquare_nearest_candidate :
    Domain.new "D" [unitSquare, unitSquareB] =
        .ok { name := "D", zones := #[unitSquare, unitSquareB],
              bounds := (unitSquare.bbox.expand unitSquare.bbox).expand unitSquareB.bbox } ∧
      (∀ z ∈ [unitSquare, unitSquareB], z.geometry.holds ⟨0.5, 0.5⟩ = true →
        z.bbox.contains 0.5 0.5 = true) ∧
      ((Domain.mk "D" #[unitSquare, unitSquareB]
          ((unitSquare.bbox.expand unitSquare.bbox).expand unitSquareB.bbox)).locate 0.5 0.5 = "A" ∨
        (Domain.mk "D" #[unitSquare, unitSquareB]
          ((unitSquare.bbox.expand unitSquare.bbox).expand unitSquareB.bbox)).locate 0.5 0.5 =
          noZone) := by
  have hd : Domain.new "D" [unitSquare, unitSquareB] =
      .ok { name := "D", zones := #[unitSquare, unitSquareB],
            bounds := (unitSquare.bbox.expand unitSquare.bbox).expand unitSquareB.bbox } := by
    with_unfolding_all rfl
  have hbox : ∀ z ∈ [unitSquare, unitSquareB], z.geometry.holds ⟨0.5, 0.5⟩ = true →
      z.bbox.contains 0.5 0.5 = true := by
    decide
  refine ⟨hd, hbox, ?_⟩
  rcases locate_eq_nearest_candidate hd 0.5 0.5 hbox with ⟨j, z, hj, hc, -, hmin, hloc⟩ | ⟨-, hloc⟩
  · left
    rw [hloc]
    match j, hj with
    | 0, hj =>
      cases hj
      rfl
    | 1, hj =>
      -- `B` has the margin of `A`, so it neither beats `A` nor comes before it
      cases hj
      have hm : unitSquareB.centroidMargin 0.5 0.5 = unitSquare.centroidMargin 0.5 0.5 := rfl
      rcases hmin 0 unitSquare rfl hc with hlt | ⟨-, -, hle⟩
      · rw [hm] at hlt
        exact absurd hlt (Real64.lt_irrefl _)
      · omega
  · exact Or.inr hloc

end Domain

end Seaway
