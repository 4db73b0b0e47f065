import Mathlib
import Seaway.Transit.Sink
import Seaway.Proofs.Except

/-!
# Artifacts in a scratch folder

Each vessel's edges go to one file of the scratch folder, named by its MMSI written with at
least nine digits. Such a name reads back as the MMSI, so two vessels never share an
artifact, and it is all digits, so the folder lists it among its artifacts.

* `append_artifactEntries`: appending a vessel's edges to a folder that holds, besides
  entries of other names, only the vessel's artifact extends that artifact by their records;
* `artifacts_mk_append`: the artifacts of a folder whose other entries have no artifact
  name are exactly the files added, in name order;
* `aggregate_congr`: aggregation reads a folder only through its path and its artifacts.
-/

namespace Seaway

namespace StableSort

variable {α : Type} {le : α → α → Bool}

/-- A list sorted by a total preorder and a permutation of `l` is `l` sorted, when no two
members of `l` are equivalent without being equal. -/
theorem eq_mergeSort_of_perm {l l' : List α} (trans : ∀ a b c, le a b → le b c → le a c)
    (total : ∀ a b, le a b || le b a) (hanti : ∀ a ∈ l', ∀ b ∈ l', le a b → le b a → a = b)
    (hs : l.Pairwise (le · ·)) (hp : l.Perm l') : l = l'.mergeSort le :=
  List.Perm.eq_of_pairwise (fun a b ha hb => hanti a (hp.subset ha) b (List.mem_mergeSort.1 hb))
    hs (List.pairwise_mergeSort trans total l') (hp.trans (List.mergeSort_perm l' le).symm)

/-- Sorting by a total preorder gives one list for all permutations of a list, when no two
members of the list are equivalent without being equal. -/
theorem mergeSort_eq_of_perm {l l' : List α} (trans : ∀ a b c, le a b → le b c → le a c)
    (total : ∀ a b, le a b || le b a) (hanti : ∀ a ∈ l, ∀ b ∈ l, le a b → le b a → a = b)
    (hp : l'.Perm l) : l'.mergeSort le = l.mergeSort le :=
  eq_mergeSort_of_perm trans total hanti (List.pairwise_mergeSort trans total l')
    ((List.mergeSort_perm l' le).trans hp)

end StableSort

namespace Folder

variable {f : Folder} {es : List (String × Entry)} {name : String}

theorem read?_eq_none (h : ∀ e ∈ f.entries, e.1 ≠ name) : f.read? name = none := by
  refine List.findSome?_eq_none_iff.2 fun x hx => ?_
  obtain ⟨n, e⟩ := x
  have hn : n ≠ name := h _ hx
  cases e <;> simp [hn]

theorem has_eq_false (h : ∀ e ∈ f.entries, e.1 ≠ name) : f.has name = false := by
  simpa [has] using h

theorem append_fresh (h : ∀ e ∈ f.entries, e.1 ≠ name) (c : String) :
    f.append name c = { path := f.path, entries := f.entries ++ [(name, .file c)] } := by
  simp [append, write, read?_eq_none h, has_eq_false h]

theorem append_last (h : ∀ e ∈ es, e.1 ≠ name) (p c₀ c : String) :
    (Folder.mk p (es ++ [(name, .file c₀)])).append name c =
      ⟨p, es ++ [(name, .file (c₀ ++ c))]⟩ := by
  have hnone : (Folder.mk p es).read? name = none := read?_eq_none h
  have hread : (Folder.mk p (es ++ [(name, .file c₀)])).read? name = some c₀ := by
    unfold read? at hnone ⊢
    rw [List.findSome?_append, hnone]
    simp
  have hkeep : ∀ x ∈ es, (if x.1 = name then (x.1, Entry.file (c₀ ++ c)) else x) = x :=
    fun x hx => if_neg (h x hx)
  simp [append, write, hread, has, List.map_congr_left hkeep]

end Folder

namespace EdgeSink

theorem artifactName_toList (m : Nat) :
    (artifactName m).toList = List.replicate (9 - (toString m).length) '0' ++ Nat.toDigits 10 m := by
  simp [artifactName, Nat.toList_repr]

theorem ofDigitChars_artifactName (m : Nat) : Nat.ofDigitChars 10 (artifactName m).toList 0 = m := by
  rw [artifactName_toList, Nat.ofDigitChars_append, Nat.ofDigitChars_replicate_zero, Nat.mul_zero,
    Nat.ofDigitChars_ten_toDigits]

theorem artifactName_inj {m m' : Nat} : artifactName m = artifactName m' ↔ m = m' :=
  ⟨fun h => by rw [← ofDigitChars_artifactName m, h, ofDigitChars_artifactName], congrArg _⟩

theorem isArtifactName_artifactName (m : Nat) : isArtifactName (artifactName m) = true := by
  have hdigits : ∀ c ∈ (artifactName m).toList, c.isDigit = true := by
    intro c hc
    rw [artifactName_toList, List.mem_append, List.mem_replicate] at hc
    rcases hc with ⟨-, rfl⟩ | hc
    · rfl
    · exact Nat.isDigit_of_mem_toDigits (by decide) (by decide) hc
  have hne : (artifactName m).toList ≠ [] := by
    rw [artifactName_toList]
    exact List.append_ne_nil_of_right_ne_nil _ Nat.toDigits_ne_nil
  have hnonempty : (artifactName m).isEmpty = false := by
    rw [Bool.eq_false_iff, ne_eq, String.isEmpty_iff, ← String.toList_eq_nil_iff]
    exact hne
  rw [isArtifactName, hnonempty, String.all_bool_eq, List.all_eq_true.2 hdigits]
  rfl

/-- The records of edges, one line each, as an artifact holds them. -/
def records (es : List TransitEdge) : String := String.join (es.map TransitEdge.toRecord)

/-- The entries a vessel's artifact adds to a folder: none for no edges. -/
def artifactEntries (mmsi : Nat) (es : List TransitEdge) : List (String × Entry) :=
  if es.isEmpty then [] else [(artifactName mmsi, .file (records es))]

theorem append_artifactEntries {p : String} {base : List (String × Entry)} {m : Nat}
    {P es : List TransitEdge} (h : ∀ e ∈ base, e.1 ≠ artifactName m) :
    append ⟨p, base ++ artifactEntries m P⟩ m es =
      .ok (⟨p, base ++ artifactEntries m (P ++ es)⟩, es.length) := by
  unfold append
  dsimp only
  by_cases hes : es.isEmpty
  · rw [List.isEmpty_iff.1 hes]
    simp
  -- no entry of the artifact's name is a folder, so appending goes through
  have hfolder : (base ++ artifactEntries m P).any (· == (artifactName m, .folder)) = false := by
    refine List.any_eq_false.2 fun x hx => ?_
    obtain ⟨n, e⟩ := x
    change ¬(n == artifactName m && e == .folder) = true
    rcases List.mem_append.1 hx with hx | hx
    · simp [h _ hx]
    · unfold artifactEntries at hx
      split at hx
      · simp at hx
      · obtain ⟨-, rfl⟩ := Prod.mk.inj (List.mem_singleton.1 hx)
        simp only [Bool.and_eq_true, not_and]
        intro _ hf
        cases hf
  rw [if_neg hes, hfolder]
  unfold artifactEntries
  -- the first edges create the artifact at the end of the folder, later ones extend it there
  by_cases hP : P.isEmpty
  · rw [List.isEmpty_iff.1 hP]
    simp [hes, Folder.append_fresh (f := ⟨p, base⟩) h, records]
  · rw [if_neg hP]
    simp only [List.isEmpty_iff] at hP
    simp [hP, Folder.append_last h, records]

/-- Names in name order: the order in which a folder lists its files. -/
theorem nameLE_trans (a b c : String × String) (hab : decide (a.1 ≤ b.1) = true)
    (hbc : decide (b.1 ≤ c.1) = true) : decide (a.1 ≤ c.1) = true := by
  simp only [decide_eq_true_eq] at *
  exact le_trans hab hbc

theorem nameLE_total (a b : String × String) : (decide (a.1 ≤ b.1) || decide (b.1 ≤ a.1)) = true := by
  simpa using le_total a.1 b.1

/-- Files of distinct names sort to one list in every order. -/
theorem mergeSort_byName_of_perm {l l' : List (String × String)} (hnd : (l.map (·.1)).Nodup)
    (hp : l'.Perm l) :
    (l'.mergeSort fun a b => decide (a.1 ≤ b.1)) = l.mergeSort fun a b => decide (a.1 ≤ b.1) :=
  StableSort.mergeSort_eq_of_perm nameLE_trans nameLE_total (fun _ ha _ hb hab hba =>
    List.inj_on_of_nodup_map hnd ha hb (le_antisymm (of_decide_eq_true hab) (of_decide_eq_true hba)))
    hp

/-- The artifacts of a folder whose other entries have no artifact name are its artifacts
in name order. -/
theorem artifacts_mk_append {p : String} {base : List (String × Entry)}
    {arts : List (String × String)} (hbase : ∀ e ∈ base, isArtifactName e.1 = false)
    (harts : ∀ a ∈ arts, isArtifactName a.1 = true) (hnd : (arts.map (·.1)).Nodup) :
    artifacts ⟨p, base ++ arts.map fun a => (a.1, .file a.2)⟩ =
      arts.mergeSort fun a b => decide (a.1 ≤ b.1) := by
  unfold artifacts Folder.files
  dsimp only
  rw [List.filterMap_append]
  refine StableSort.eq_mergeSort_of_perm nameLE_trans nameLE_total (fun a ha b hb hab hba => ?_)
    ((List.pairwise_mergeSort nameLE_trans nameLE_total _).filter _)
    (((List.mergeSort_perm _ _).filter _).trans ?_)
  · exact List.inj_on_of_nodup_map hnd ha hb
      (le_antisymm (of_decide_eq_true hab) (of_decide_eq_true hba))
  · have key : ∀ {A B : List (String × String)}, A = [] → B = arts → (A ++ B).Perm arts := by
      rintro _ _ rfl rfl
      rfl
    rw [List.filter_append]
    apply key
    · -- the other files have other names
      refine List.filter_eq_nil_iff.2 fun x hx => ?_
      obtain ⟨⟨n, e⟩, he, hx⟩ := List.mem_filterMap.1 hx
      cases e with
      | file c =>
        cases hx
        simp [hbase _ he]
      | folder => cases hx
    · rw [List.filterMap_map]
      simpa using harts

/-- Aggregation reads a folder only through its path and its artifacts. -/
theorem aggregate_congr {f₁ f₂ : Folder} (hp : f₁.path = f₂.path)
    (ha : artifacts f₁ = artifacts f₂) (filters : List EdgeFilter) (rm : Bool) :
    (fun x => (x.1, x.2.1)) <$> aggregate f₁ filters rm =
      (fun x => (x.1, x.2.1)) <$> aggregate f₂ filters rm := by
  unfold aggregate
  rw [ha, hp]
  dsimp only
  split
  · rfl
  · -- each step adds to the table and the counts from the artifact alone
    refine Except.foldlM_map_congr _ (fun a b b' h => ?_) _ rfl
    obtain ⟨name, text⟩ := a
    obtain ⟨out, sum, g⟩ := b
    obtain ⟨out', sum', g'⟩ := b'
    obtain ⟨rfl, rfl⟩ := Prod.mk.inj h
    dsimp only
    cases readEdges text <;> rfl

end EdgeSink

end Seaway
