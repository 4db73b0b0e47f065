import Mathlib
import Seaway.Transit.Record
import Seaway.Transit.Sink
import Seaway.Proofs.ReadBack
import Seaway.Proofs.Except
import Seaway.Proofs.Csv.Record
import Seaway.Proofs.Transit.Edges

/-!
# Edge records read back

The record of a transit edge is read back field by field (`ofFields_fields`), for every edge
whose numbers fit the widths of the record's integer types (`TransitEdge.Fits`): integers
from their decimal text, doubles from their shortest spelling (`Decimal.readFloat_render`),
texts as they are. Two fields do not survive: an empty vessel name reads back as missing and
a receiving zone named `NULL` as unknown (`TransitEdge.readBack`). Writing the edge read back
gives the same record, so a record copied through a read and a write is unchanged.

Whether an edge reads back equal to itself (`TransitEdge.roundTrips`) compares the fields as
doubles compare, so that also fails on a NaN: the edge read back holds the same NaN, but NaN
equals nothing (`roundTrips_iff`). An artifact, the records of edges one after another,
reads back as its edges (`readEdges_join`).
-/

namespace Seaway

/-! ## Doubles equal to themselves -/

namespace Real64

open Float.Model

/-- A double equals itself unless it is NaN. -/
theorem beq_self (x : Float) : (x == x) = !x.isNaN := by
  show x.toModel.unpack.beq x.toModel.unpack = !x.toModel.unpack.isNaN
  cases x.toModel.unpack with
  | notANumber => rfl
  | infinity s => cases s <;> rfl
  | zero s => rfl
  | finite s m e h => cases s <;> simp [UnpackedFloat.beq, UnpackedFloat.compare, UnpackedFloat.isNaN]

theorem option_beq_self (o : Option Float) : (o == o) = true ↔ ∀ x ∈ o, x.isNaN = false := by
  cases o with
  | none => simp
  | some x =>
    show (x == x) = true ↔ _
    simp [beq_self]

end Real64

/-! ## Reading fields -/

namespace EdgeReader

open Decimal

variable {i : Nat} {fs : List String}

theorem next_run (f : String) : next.run (i, f :: fs) = .ok ((i, f), (i + 1, fs)) := rfl

theorem text_run (f : String) : text.run (i, f :: fs) = .ok (f, (i + 1, fs)) := rfl

/-- The text of an integer of `[lo, hi]` reads as it, not as hexadecimal. -/
theorem integerOf_run {lo hi v : Int} (hlo : lo ≤ 0) (hhi : 0 ≤ hi) (hv : lo ≤ v) (hv' : v ≤ hi)
    (st : Nat × List String) : (integerOf lo hi i (toString v)).run st = .ok (v, st) := by
  unfold integerOf
  rw [startsWith_toString]
  simp only [Bool.false_eq_true, if_false]
  rw [readInteger_toString hlo hhi hv hv']
  rfl

theorem natural_run {bound n : Nat} (hn : n < bound) :
    (natural bound).run (i, toString n :: fs) = .ok (n, (i + 1, fs)) := by
  have h : (integerOf 0 ((bound : Int) - 1) i (toString (n : Int))).run (i + 1, fs) =
      .ok (n, (i + 1, fs)) :=
    integerOf_run le_rfl (by omega) (by omega) (by omega) _
  rw [toString_natCast] at h
  simp only [natural, StateT.run_bind, next_run, Except.ok_bind, h]
  rfl

theorem optNatural_run {bound : Nat} {o : Option Nat} (hn : ∀ n ∈ o, n < bound) :
    (optNatural bound).run (i, TransitEdge.countField o :: fs) = .ok (o, (i + 1, fs)) := by
  cases o with
  | none => rfl
  | some n =>
    have hb := hn n rfl
    have h : (integerOf 0 ((bound : Int) - 1) i (toString (n : Int))).run (i + 1, fs) =
        .ok (n, (i + 1, fs)) :=
      integerOf_run le_rfl (by omega) (by omega) (by omega) _
    rw [toString_natCast] at h
    have hne : (toString n).isEmpty = false := by simp
    simp only [optNatural, TransitEdge.countField, StateT.run_bind, next_run, Except.ok_bind,
      hne, Bool.false_eq_true, if_false, h]
    rfl

/-- An empty optional text reads back as missing. -/
theorem optText_run (o : Option String) :
    optText.run (i, o.getD "" :: fs) = .ok (o.filter fun s => !s.isEmpty, (i + 1, fs)) := by
  cases o with
  | none => rfl
  | some s =>
    simp only [optText, StateT.run_bind, next_run, Except.ok_bind, Option.filter, Option.getD_some]
    rcases Bool.eq_false_or_eq_true s.isEmpty with h | h <;>
      simp only [h, Bool.not_true, Bool.not_false, Bool.false_eq_true, if_true, if_false] <;> rfl

/-- A text written `NULL` reads back as unknown. -/
theorem nullText_run (o : Option String) :
    nullText.run (i, TransitEdge.nullable id o :: fs) =
      .ok (o.filter fun s => s != "NULL", (i + 1, fs)) := by
  cases o with
  | none => rfl
  | some s =>
    by_cases h : s = "NULL" <;> simp [nullText, TransitEdge.nullable, next_run, Option.filter, h]

theorem real_run (s : Style) (x : Float) :
    real.run (i, render s x :: fs) = .ok (x, (i + 1, fs)) := by
  simp only [real, StateT.run_bind, next_run, Except.ok_bind, readFloat_render]
  rfl

/-- No spelling of a double is `NULL`: that text reads as no double. -/
theorem render_ne_null (s : Style) (x : Float) : render s x ≠ "NULL" := by
  intro h
  have h' := readFloat_render s x
  have hnull : readFloat? "NULL" = none := rfl
  rw [h, hnull] at h'
  cases h'

theorem nullReal_run (s : Style) (o : Option Float) :
    nullReal.run (i, TransitEdge.nullable (render s) o :: fs) = .ok (o, (i + 1, fs)) := by
  cases o with
  | none => rfl
  | some x =>
    simp only [nullReal, TransitEdge.nullable, StateT.run_bind, next_run, Except.ok_bind,
      render_ne_null, if_false, readFloat_render]
    rfl

end EdgeReader

/-! ## An edge's record read back -/

/-- The attributes of a vessel fit the widths of their types: a 16-bit type and dimensions
and a 32-bit number. -/
structure VesselInfo.Fits (v : VesselInfo) : Prop where
  shipType : ∀ n ∈ v.shipType, n < 2 ^ 16
  imo : ∀ n ∈ v.imo, n < 2 ^ 32
  dimBow : ∀ n ∈ v.dimBow, n < 2 ^ 16
  dimStern : ∀ n ∈ v.dimStern, n < 2 ^ 16
  dimPort : ∀ n ∈ v.dimPort, n < 2 ^ 16
  dimStar : ∀ n ∈ v.dimStar, n < 2 ^ 16

namespace TransitEdge

variable {e : TransitEdge}

/-- The numbers of an edge fit the widths of the record's integer types: a 32-bit vessel and
label, the vessel's attributes, a signed 32-bit year and an 8-bit month and day. -/
structure Fits (e : TransitEdge) : Prop where
  mmsi : e.mmsi < 2 ^ 32
  label : ∀ n ∈ e.label, n < 2 ^ 32
  info : e.info.Fits
  year_ge : -2 ^ 31 ≤ e.year
  year_lt : e.year < 2 ^ 31
  month : e.month < 2 ^ 8
  day : e.day < 2 ^ 8

/-- The edge that reading its record gives: an empty vessel name is missing and a receiving
zone named `NULL` is unknown. -/
def readBack (e : TransitEdge) : TransitEdge :=
  { e with vesselName := e.vesselName.filter fun s => !s.isEmpty,
           rcvZone := e.rcvZone.filter fun s => s != "NULL" }

/-- None of the edge's doubles is NaN. -/
structure NaNFree (e : TransitEdge) : Prop where
  totalDistance : e.totalDistance.isNaN = false
  cumulativeDistance : e.cumulativeDistance.isNaN = false
  speedMin : ∀ x ∈ e.speedMin, x.isNaN = false
  speedAvg : ∀ x ∈ e.speedAvg, x.isNaN = false
  speedMax : ∀ x ∈ e.speedMax, x.isNaN = false
  minutesInZone : ∀ x ∈ e.minutesInZone, x.isNaN = false

open EdgeReader in
/-- The fields of an edge read back as the edge, but for an empty vessel name and a receiving
zone named `NULL`. -/
theorem ofFields_fields (he : e.Fits) : ofFields e.fields = .ok e.readBack := by
  obtain ⟨hmmsi, hlabel, ⟨hship, himo, hbow, hstern, hport, hstar⟩, hyear, hyear', hmonth, hday⟩ := he
  have h31 : ((Nat.pow 2 31 : Nat) : Int) = 2 ^ 31 := by norm_num [Nat.pow_eq]
  have hy : ∀ i st, (integerOf (-((Nat.pow 2 31 : Nat) : Int)) (((Nat.pow 2 31 : Nat) : Int) - 1)
      i (toString e.year)).run st = .ok (e.year, st) := by
    intro i
    rw [h31]
    exact integerOf_run (by norm_num) (by norm_num) hyear (by omega)
  unfold ofFields EdgeReader.edge fields
  -- the reader's bounds are written with `Nat.pow`
  simp only [StateT.run_bind, Except.ok_bind, natural_run (show e.mmsi < Nat.pow 2 32 from hmmsi),
    optNatural_run (show ∀ n ∈ e.label, n < Nat.pow 2 32 from hlabel), optText_run,
    optNatural_run (show ∀ n ∈ e.shipType, n < Nat.pow 2 16 from hship),
    optNatural_run (show ∀ n ∈ e.imo, n < Nat.pow 2 32 from himo),
    optNatural_run (show ∀ n ∈ e.dimBow, n < Nat.pow 2 16 from hbow),
    optNatural_run (show ∀ n ∈ e.dimStern, n < Nat.pow 2 16 from hstern),
    optNatural_run (show ∀ n ∈ e.dimPort, n < Nat.pow 2 16 from hport),
    optNatural_run (show ∀ n ∈ e.dimStar, n < Nat.pow 2 16 from hstar), text_run,
    nullText_run, next_run, hy, natural_run (show e.month < Nat.pow 2 8 from hmonth),
    natural_run (show e.day < Nat.pow 2 8 from hday), real_run, nullReal_run]
  rfl

/-- An empty vessel name is written as a missing one. -/
theorem getD_filter_isEmpty (o : Option String) :
    (o.filter fun s => !s.isEmpty).getD "" = o.getD "" := by
  cases o with
  | none => rfl
  | some s => by_cases h : s.isEmpty = true <;> simp_all [Option.filter_some, String.isEmpty_iff]

/-- A receiving zone named `NULL` is written as an unknown one. -/
theorem nullable_filter_null (o : Option String) :
    nullable id (o.filter fun s => s != "NULL") = nullable id o := by
  cases o with
  | none => rfl
  | some s => by_cases h : s = "NULL" <;> simp [Option.filter_some, nullable, h]

@[simp] theorem fields_readBack (e : TransitEdge) : e.readBack.fields = e.fields := by
  simp only [fields, readBack, getD_filter_isEmpty, nullable_filter_null]

/-- Writing the edge read back gives the record read, byte for byte. -/
theorem toRecord_readBack (e : TransitEdge) : e.readBack.toRecord = e.toRecord := by
  rw [toRecord, toRecord, fields_readBack]

theorem filter_isEmpty_eq_self_iff (o : Option String) :
    (o.filter fun s => !s.isEmpty) = o ↔ o ≠ some "" := by
  cases o with
  | none => simp
  | some s => by_cases h : s = "" <;> simp [Option.filter_some, h]

theorem filter_null_eq_self_iff (o : Option String) :
    (o.filter fun s => s != "NULL") = o ↔ o ≠ some "NULL" := by
  cases o with
  | none => simp
  | some s => by_cases h : s = "NULL" <;> simp [Option.filter_some, h]

/-- The two edges that do not survive the trip. -/
theorem readBack_eq_iff : e.readBack = e ↔ e.vesselName ≠ some "" ∧ e.rcvZone ≠ some "NULL" := by
  cases e
  simp only [readBack, mk.injEq, filter_isEmpty_eq_self_iff, filter_null_eq_self_iff, true_and,
    and_true]

theorem nanFree_iff : e.NaNFree ↔ e.totalDistance.isNaN = false ∧
    e.cumulativeDistance.isNaN = false ∧ (∀ x ∈ e.speedMin, x.isNaN = false) ∧
    (∀ x ∈ e.speedAvg, x.isNaN = false) ∧ (∀ x ∈ e.speedMax, x.isNaN = false) ∧
    ∀ x ∈ e.minutesInZone, x.isNaN = false := by
  constructor
  · rintro ⟨h₁, h₂, h₃, h₄, h₅, h₆⟩
    exact ⟨h₁, h₂, h₃, h₄, h₅, h₆⟩
  · rintro ⟨h₁, h₂, h₃, h₄, h₅, h₆⟩
    exact ⟨h₁, h₂, h₃, h₄, h₅, h₆⟩

/-- The edge read back compares equal to the edge when it is the edge and no double is NaN:
every other field is compared by an equality that is lawful. -/
theorem readBack_beq_iff : (e.readBack == e) = true ↔ e.readBack = e ∧ e.NaNFree := by
  cases e
  show instBEqTransitEdge.beq _ _ = true ↔ _
  simp only [instBEqTransitEdge.beq, readBack, beq_self_eq_true, Bool.true_and, Bool.and_eq_true,
    beq_iff_eq, Real64.beq_self, Real64.option_beq_self, nanFree_iff, mk.injEq, and_true,
    true_and, Bool.not_eq_true', and_assoc]

/-- An edge whose numbers fit reads back equal from its record unless its vessel name is
empty, its receiving zone is named `NULL` or one of its doubles is NaN. -/
theorem roundTrips_iff (he : e.Fits) :
    e.roundTrips = true ↔ e.vesselName ≠ some "" ∧ e.rcvZone ≠ some "NULL" ∧ e.NaNFree := by
  have hrows : Csv.rows e.toRecord = [⟨e.fields, 0, 1, 0⟩] := Csv.rows_record (by simp [fields])
  have hrow : ofRow ⟨e.fields, 0, 1, 0⟩ = .ok e.readBack := by
    simp only [ofRow, ofFields_fields he]
  rw [roundTrips, hrows]
  simp only [hrow]
  rw [readBack_beq_iff, readBack_eq_iff, and_assoc]

theorem length_fields (e : TransitEdge) : e.fields.length = 23 := rfl

/-- Rows that carry the fields of edges whose numbers fit are each read as their edge read
back, by any reading that does so for one row. -/
theorem mapM_rows {ε β : Type} {F : Csv.Row → Except ε β} {g : TransitEdge → β}
    (hF : ∀ r e, e.Fits → r.fields = e.fields → F r = .ok (g e)) {rs : List Csv.Row}
    {es : List TransitEdge} (hes : ∀ e ∈ es, e.Fits)
    (h : rs.map Csv.Row.fields = es.map fields) : rs.mapM F = .ok (es.map g) := by
  induction es generalizing rs with
  | nil =>
    rw [List.map_nil, List.map_eq_nil_iff] at h
    rw [h]
    rfl
  | cons e es ih =>
    cases rs with
    | nil => simp at h
    | cons r rs =>
      simp only [List.map_cons, List.cons.injEq] at h
      rw [List.mapM_cons, hF r e (hes e List.mem_cons_self) h.1, Except.ok_bind,
        ih (fun e' he' => hes e' (List.mem_cons_of_mem e he')) h.2]
      rfl

/-- **An artifact reads back as its edges.** The records of edges whose numbers fit, written
one after another, are read as those edges read back; so writing what was read copies the
records unchanged (`toRecord_readBack`). -/
theorem readEdges_join {es : List TransitEdge} (hes : ∀ e ∈ es, e.Fits) :
    EdgeSink.readEdges (String.join (es.map toRecord)) = .ok (es.map readBack) := by
  have htext : es.map toRecord = (es.map fields).map Csv.record := by
    rw [List.map_map]
    rfl
  have hrows : (Csv.rows (String.join ((es.map fields).map Csv.record))).map Csv.Row.fields =
      es.map fields := Csv.rows_join_records (by simp [fields])
  unfold EdgeSink.readEdges
  dsimp only
  rw [htext]
  generalize Csv.rows _ = rs at hrows ⊢
  -- every record is as wide as the first, which is an edge's
  have hwidth : (rs.head?.map fun r => r.fields.length).getD 0 = 23 ∨ es = [] := by
    cases es with
    | nil => exact Or.inr rfl
    | cons e es =>
      cases rs with
      | nil => simp at hrows
      | cons r rs =>
        simp only [List.map_cons, List.cons.injEq] at hrows
        simp [hrows.1, length_fields]
  rcases hwidth with hw | rfl
  · rw [hw]
    refine mapM_rows (fun r e he h => ?_) hes hrows
    simp only [h, length_fields, ne_eq, not_true_eq_false, if_false, ofRow, ofFields_fields he]
  · rw [List.map_nil, List.map_eq_nil_iff] at hrows
    rw [hrows]
    rfl

end TransitEdge

end Seaway
