import Mathlib
import Seaway.Fault

/-!
# Computations that can fail

Most operations of the library return `Except Fault _`. A run that succeeds succeeded at
every step: these lemmas take a successful `bind`, `mapM` or `foldlM` apart, so that later
proofs peel a computation with `obtain` instead of unfolding it.
-/

namespace Seaway

namespace Except

variable {ε α β : Type}

theorem bind_eq_ok {x : Except ε α} {f : α → Except ε β} {b : β} :
    x >>= f = .ok b ↔ ∃ a, x = .ok a ∧ f a = .ok b := by
  cases x with
  | error e => simp [Bind.bind, Except.bind]
  | ok a => simp [Bind.bind, Except.bind]

theorem map_eq_ok {x : Except ε α} {f : α → β} {b : β} :
    f <$> x = .ok b ↔ ∃ a, x = .ok a ∧ f a = b := by
  cases x with
  | error e => simp [Functor.map, Except.map]
  | ok a => simp [Functor.map, Except.map]

/-- A traversal succeeds with `ys` exactly when each element succeeds with the matching
element of `ys`. -/
theorem mapM_eq_ok_iff {f : α → Except ε β} {xs : List α} {ys : List β} :
    xs.mapM f = .ok ys ↔ List.Forall₂ (fun x y => f x = .ok y) xs ys := by
  induction xs generalizing ys with
  | nil => cases ys <;> simp [pure, Except.pure]
  | cons x xs ih =>
    rw [List.mapM_cons, bind_eq_ok]
    cases ys with
    | nil =>
      simp only [List.forall₂_nil_right_iff, reduceCtorEq, iff_false, not_exists, not_and]
      intro y _ hrest
      obtain ⟨ys, -, h⟩ := bind_eq_ok.1 hrest
      cases h
    | cons y ys =>
      simp only [List.forall₂_cons, ← ih]
      constructor
      · rintro ⟨y', hy', hrest⟩
        obtain ⟨ys', hys', h⟩ := bind_eq_ok.1 hrest
        cases h
        exact ⟨hy', hys'⟩
      · rintro ⟨hy, hys⟩
        exact ⟨y, hy, by rw [hys]; rfl⟩

/-- A traversal succeeds when every element does. -/
theorem mapM_ok_of_forall {f : α → Except ε β} {xs : List α}
    (h : ∀ x ∈ xs, ∃ y, f x = .ok y) : ∃ ys, xs.mapM f = .ok ys := by
  induction xs with
  | nil => exact ⟨[], rfl⟩
  | cons x xs ih =>
    obtain ⟨y, hy⟩ := h x (by simp)
    obtain ⟨ys, hys⟩ := ih fun x' hx' => h x' (by simp [hx'])
    exact ⟨y :: ys, by simp [List.mapM_cons, hy, hys, Bind.bind, Except.bind, pure, Except.pure]⟩

/-- Every result of a traversal is the result of one of its elements. -/
theorem exists_of_mem_mapM {f : α → Except ε β} {xs : List α} {ys : List β}
    (h : xs.mapM f = .ok ys) {y : β} (hy : y ∈ ys) : ∃ x ∈ xs, f x = .ok y := by
  have h₂ := mapM_eq_ok_iff.1 h
  clear h
  induction h₂ with
  | nil => cases hy
  | @cons x y' xs ys hxy _ ih =>
    rcases List.mem_cons.1 hy with rfl | hy
    · exact ⟨x, List.mem_cons_self .., hxy⟩
    · obtain ⟨x', hx', hf⟩ := ih hy
      exact ⟨x', List.mem_cons_of_mem _ hx', hf⟩

/-- A traversal whose every computation succeeds with `g` of its element gives the map of
`g`. -/
theorem mapM_eq_ok_map {f : α → Except ε β} {g : α → β} {xs : List α}
    (h : ∀ x ∈ xs, f x = .ok (g x)) : xs.mapM f = .ok (xs.map g) := by
  refine mapM_eq_ok_iff.2 (List.forall₂_map_right_iff.2 ?_)
  exact List.forall₂_same.2 h

/-- Traversals that make the same list of computations have the same outcome. -/
theorem mapM_eq_of_map_eq {γ : Type} {f : α → Except ε β} {g : γ → Except ε β} {l : List α}
    {l' : List γ} (h : l.map f = l'.map g) : l.mapM f = l'.mapM g := by
  have hf : l.mapM f = (l.map f).mapM id := by simp
  have hg : l'.mapM g = (l'.map g).mapM id := by simp
  rw [hf, hg, h]

/-- A traversal of `0, …, n - 1` succeeds with `ys` exactly when `ys` has `n` entries and the
`k`-th computation gives the `k`-th. -/
theorem mapM_range_eq_ok_iff {f : Nat → Except ε β} {n : Nat} {ys : List β} :
    (List.range n).mapM f = .ok ys ↔ ys.length = n ∧ ∀ k (hk : k < ys.length), f k = .ok ys[k] := by
  rw [mapM_eq_ok_iff, List.forall₂_iff_get]
  simp only [List.length_range, List.get_eq_getElem, List.getElem_range]
  constructor
  · rintro ⟨hlen, h⟩
    exact ⟨hlen.symm, fun k hk => h k (by omega) hk⟩
  · rintro ⟨hlen, h⟩
    exact ⟨hlen.symm, fun k _ hk => h k hk⟩

/-- A traversal of `0, …, n - 1` succeeds exactly when each of its computations does. -/
theorem mapM_range_ok_iff {f : Nat → Except ε β} {n : Nat} :
    (∃ ys, (List.range n).mapM f = .ok ys) ↔ ∀ k < n, ∃ y, f k = .ok y := by
  constructor
  · rintro ⟨ys, hys⟩ k hk
    obtain ⟨hlen, h⟩ := mapM_range_eq_ok_iff.1 hys
    exact ⟨ys[k], h k (by omega)⟩
  · intro h
    exact mapM_ok_of_forall fun k hk => h k (List.mem_range.1 hk)

/-- What every step keeps, of the state and the input still to come, holds at the end of
a fold. -/
theorem foldlM_inv {f : β → α → Except ε β} (I : List α → β → Prop)
    (step : ∀ a l b b', I (a :: l) b → f b a = .ok b' → I l b') :
    ∀ {l : List α} {b r : β}, I l b → l.foldlM f b = .ok r → I [] r
  | [], b, r, hb, h => by
    cases h
    exact hb
  | a :: l, b, r, hb, h => by
    obtain ⟨b', h₁, h₂⟩ := bind_eq_ok.1 h
    exact foldlM_inv I step (step a l b b' hb h₁) h₂

/-- A fold succeeds when every step that keeps an invariant succeeds. -/
theorem foldlM_ok {f : β → α → Except ε β} (I : List α → β → Prop)
    (step : ∀ a l b, I (a :: l) b → ∃ b', f b a = .ok b' ∧ I l b') :
    ∀ {l : List α} {b : β}, I l b → ∃ r, l.foldlM f b = .ok r
  | [], b, _ => ⟨b, rfl⟩
  | a :: l, b, hb => by
    obtain ⟨b', h₁, h₂⟩ := step a l b hb
    obtain ⟨r, hr⟩ := foldlM_ok I step h₂
    exact ⟨r, bind_eq_ok.2 ⟨b', h₁, hr⟩⟩

/-- A filter that succeeds keeps, reversed and after its accumulator, a sublist of the
accumulator and the input. -/
theorem filterAuxM_eq_ok_sublist {p : α → Except ε Bool} {l acc r : List α}
    (h : List.filterAuxM p l acc = .ok r) : r.reverse.Sublist (acc.reverse ++ l) := by
  induction l generalizing acc with
  | nil =>
    cases h
    simp
  | cons x l ih =>
    obtain ⟨keep, -, h⟩ := bind_eq_ok.1 h
    cases keep with
    | true => simpa [List.reverse_cons, List.append_assoc] using ih h
    | false => exact (ih h).trans ((List.Sublist.cons x (List.Sublist.refl l)).append_left _)

/-- A filter that succeeds keeps a sublist of its input. -/
theorem filterM_eq_ok_sublist {p : α → Except ε Bool} {l r : List α} (h : l.filterM p = .ok r) :
    r.Sublist l := by
  obtain ⟨rev, hrev, h⟩ := bind_eq_ok.1 h
  cases h
  simpa using filterAuxM_eq_ok_sublist hrev

/-- A filter succeeds when the test of every element does. -/
theorem filterM_ok {p : α → Except ε Bool} {l : List α} (h : ∀ x ∈ l, ∃ b, p x = .ok b) :
    ∃ r, l.filterM p = .ok r := by
  -- the accumulator is arbitrary along the way
  have haux : ∀ (l : List α) (acc : List α), (∀ x ∈ l, ∃ b, p x = .ok b) →
      ∃ r, List.filterAuxM p l acc = .ok r := by
    intro l
    induction l with
    | nil => exact fun acc _ => ⟨acc, rfl⟩
    | cons x l ih =>
      intro acc hl
      obtain ⟨b, hb⟩ := hl x (by simp)
      obtain ⟨r, hr⟩ := ih (cond b (x :: acc) acc) fun y hy => hl y (by simp [hy])
      exact ⟨r, bind_eq_ok.2 ⟨b, hb, hr⟩⟩
  obtain ⟨r, hr⟩ := haux l [] h
  exact ⟨r.reverse, bind_eq_ok.2 ⟨r, hr, rfl⟩⟩

/-- Every output of a successful `flatMapM` comes from the outputs of one input. -/
theorem flatMapM_eq_ok_mem {f : α → Except ε (List β)} {l : List α} {r : List β}
    (h : l.flatMapM f = .ok r) {y : β} (hy : y ∈ r) : ∃ x ∈ l, ∃ ys, f x = .ok ys ∧ y ∈ ys := by
  induction l generalizing r with
  | nil =>
    cases h
    simp at hy
  | cons x l ih =>
    rw [List.flatMapM_cons] at h
    obtain ⟨ys, hys, h⟩ := bind_eq_ok.1 h
    obtain ⟨rest, hrest, h⟩ := bind_eq_ok.1 h
    cases h
    rcases List.mem_append.1 hy with hy | hy
    · exact ⟨x, by simp, ys, hys, hy⟩
    · obtain ⟨x', hx', ys', hys', hy'⟩ := ih hrest hy
      exact ⟨x', by simp [hx'], ys', hys', hy'⟩

/-- A `flatMapM` succeeds when every input does. -/
theorem flatMapM_ok {f : α → Except ε (List β)} {l : List α} (h : ∀ x ∈ l, ∃ ys, f x = .ok ys) :
    ∃ r, l.flatMapM f = .ok r := by
  induction l with
  | nil => exact ⟨[], rfl⟩
  | cons x l ih =>
    obtain ⟨ys, hys⟩ := h x (by simp)
    obtain ⟨rest, hrest⟩ := ih fun x' hx' => h x' (by simp [hx'])
    refine ⟨ys ++ rest, ?_⟩
    rw [List.flatMapM_cons]
    exact bind_eq_ok.2 ⟨ys, hys, bind_eq_ok.2 ⟨rest, hrest, rfl⟩⟩

/-- A `flatMapM` whose every input succeeds gives the outputs one after another. -/
theorem flatMapM_eq_ok_flatMap {f : α → Except ε (List β)} {g : α → List β} {l : List α}
    (h : ∀ x ∈ l, f x = .ok (g x)) : l.flatMapM f = .ok (l.flatMap g) := by
  induction l with
  | nil => rfl
  | cons x l ih =>
    rw [List.flatMapM_cons, h x (by simp), ih fun x' hx' => h x' (by simp [hx'])]
    rfl

/-- A `flatMapM` over a non-empty list whose every output is non-empty gives a non-empty
list. -/
theorem flatMapM_ne_nil {f : α → Except ε (List β)} {l : List α} {r : List β} (hl : l ≠ [])
    (hf : ∀ x ∈ l, ∀ ys, f x = .ok ys → ys ≠ []) (h : l.flatMapM f = .ok r) : r ≠ [] := by
  obtain ⟨x, l, rfl⟩ := List.exists_cons_of_ne_nil hl
  rw [List.flatMapM_cons] at h
  obtain ⟨ys, hys, h⟩ := bind_eq_ok.1 h
  obtain ⟨rest, -, h⟩ := bind_eq_ok.1 h
  cases h
  exact List.append_ne_nil_of_left_ne_nil (hf x (by simp) ys hys) _

/-- A fold that fails failed at one of its steps, from some state. -/
theorem foldlM_eq_error {f : β → α → Except ε β} {e : ε} :
    ∀ {l : List α} {b : β}, l.foldlM f b = .error e → ∃ a ∈ l, ∃ b', f b' a = .error e
  | [], b, h => by cases h
  | a :: l, b, h => by
    rw [List.foldlM_cons] at h
    cases hf : f b a with
    | error e' =>
      rw [hf] at h
      cases h
      exact ⟨a, by simp, b, hf⟩
    | ok b' =>
      rw [hf] at h
      obtain ⟨a', ha', b'', h'⟩ := foldlM_eq_error h
      exact ⟨a', by simp [ha'], b'', h'⟩

@[simp] theorem ok_bind (a : α) (f : α → Except ε β) : (Except.ok a : Except ε α) >>= f = f a :=
  rfl

/-- A filter whose every test succeeds keeps what the tests' values keep. -/
theorem filterM_eq_ok_filter {p : α → Except ε Bool} {q : α → Bool} {l : List α}
    (h : ∀ x ∈ l, p x = .ok (q x)) : l.filterM p = .ok (l.filter q) := by
  -- with an accumulator, the kept elements come reversed before it
  have haux : ∀ (l acc : List α), (∀ x ∈ l, p x = .ok (q x)) →
      List.filterAuxM p l acc = .ok ((l.filter q).reverse ++ acc) := by
    intro l
    induction l with
    | nil => exact fun acc _ => rfl
    | cons x l ih =>
      intro acc hl
      simp only [List.filterAuxM, hl x (by simp), ok_bind]
      rw [ih _ fun y hy => hl y (by simp [hy])]
      cases hq : q x <;> simp [hq]
  exact bind_eq_ok.2 ⟨_, haux l [] h, by simp [pure, Except.pure]⟩

/-- Two computations that agree up to a view, each continued by steps that agree on inputs
of one view, agree. -/
theorem bind_congr_of_map_eq {γ : Type} (v : α → γ) {x y : Except ε α} (hxy : v <$> x = v <$> y)
    {f g : α → Except ε β} (hfg : ∀ a b, v a = v b → f a = g b) : x >>= f = y >>= g := by
  cases x with
  | error e =>
    cases y with
    | error e' =>
      cases hxy
      rfl
    | ok b => cases hxy
  | ok a =>
    cases y with
    | error e' => cases hxy
    | ok b => exact hfg a b (Except.ok.inj hxy)

/-- A fold whose steps compute a view of the state from the view alone gives the same view
from any two states with one view. -/
theorem foldlM_map_congr {γ : Type} (v : β → γ) {f : β → α → Except ε β}
    (hf : ∀ a b b', v b = v b' → v <$> f b a = v <$> f b' a) :
    ∀ (l : List α) {b b' : β}, v b = v b' → v <$> l.foldlM f b = v <$> l.foldlM f b'
  | [], b, b', h => by
    simp only [List.foldlM_nil]
    exact congrArg Except.ok h
  | a :: l, b, b', h => by
    rw [List.foldlM_cons, List.foldlM_cons, map_bind, map_bind]
    exact bind_congr_of_map_eq v (hf a b b' h) fun c c' hc => foldlM_map_congr v hf l hc

/-- A fold whose every step, from a state of an invariant, is mirrored through a map `v` by
another fold's step, is mirrored through `v` as a whole. -/
theorem foldlM_map_comm {γ : Type} (v : β → γ) (I : β → Prop) {f : β → α → Except ε β}
    {g : γ → α → Except ε γ} (hI : ∀ a b b', I b → f b a = .ok b' → I b')
    (hfg : ∀ a b, I b → g (v b) a = v <$> f b a) :
    ∀ (l : List α) {b : β}, I b → l.foldlM g (v b) = v <$> l.foldlM f b
  | [], _, _ => rfl
  | a :: l, b, hb => by
    rw [List.foldlM_cons, List.foldlM_cons, hfg a b hb]
    cases hf : f b a with
    | error e => rfl
    | ok b' => exact foldlM_map_comm v I hI hfg l (hI a b b' hb hf)

/-- Mapping a list through results that are mapped by `v` maps the list of results by `v`,
failures included. -/
theorem mapM_map_comm {γ : Type} (v : β → γ) {f : α → Except ε β} {g : α → Except ε γ} {l : List α}
    (h : ∀ a ∈ l, g a = v <$> f a) : l.mapM g = (·.map v) <$> l.mapM f := by
  induction l with
  | nil => rfl
  | cons a l ih =>
    rw [List.mapM_cons, List.mapM_cons, h a List.mem_cons_self,
      ih fun x hx => h x (List.mem_cons_of_mem a hx)]
    cases f a with
    | error e => rfl
    | ok b => cases l.mapM f <;> rfl

/-- A fold whose state is a function `S` of the inputs done, each step taking `S done` to
`S (done ++ [a])`, ends in `S` of all its inputs. -/
theorem foldlM_eq_ok_of_prefix {f : β → α → Except ε β} (S : List α → β) :
    ∀ (pre : List α) {l : List α},
      (∀ done a rest, l = done ++ a :: rest → f (S (pre ++ done)) a = .ok (S (pre ++ done ++ [a]))) →
      l.foldlM f (S pre) = .ok (S (pre ++ l))
  | pre, [], _ => by
    rw [List.foldlM_nil, List.append_nil]
    rfl
  | pre, a :: l, h => by
    have h₁ : f (S pre) a = .ok (S (pre ++ [a])) := by simpa using h [] a l rfl
    rw [List.foldlM_cons, h₁]
    have h₂ := foldlM_eq_ok_of_prefix S (pre ++ [a]) (l := l) fun done a' rest hl => by
      simpa using h (a :: done) a' rest (by simp [hl])
    simp only [List.append_assoc, List.singleton_append] at h₂
    exact h₂

end Except

/-! ## Checked reads -/

section Checked

variable {α : Type} {xs : Array α} {i a b d : Nat}

theorem entry_eq_ok_iff {x : α} : entry xs i = .ok x ↔ ∃ h : i < xs.size, xs[i] = x := by
  unfold entry
  split <;> simp [*]

/-- Inside the array, the entry read is the entry, whatever the default past its end. -/
theorem entry_eq_ok_getD (dflt : α) (h : i < xs.size) : entry xs i = .ok (xs.getD i dflt) := by
  simp [entry, h, Array.getD_eq_getD_getElem?]

/-- A successful read is the entry, whatever the default past the end. -/
theorem getD_of_entry_eq_ok {x : α} (dflt : α) (h : entry xs i = .ok x) : xs.getD i dflt = x := by
  obtain ⟨hi, rfl⟩ := entry_eq_ok_iff.1 h
  simp [Array.getD_eq_getD_getElem?, hi]

/-- Reading an entry of a mapped array maps the entry read. -/
theorem entry_map {β : Type} (f : α → β) (xs : Array α) (i : Nat) :
    entry (xs.map f) i = f <$> entry xs i := by
  unfold entry
  by_cases h : i < xs.size <;> simp [h, Functor.map, Except.map]

theorem subSize_eq_ok_iff : subSize a b = .ok d ↔ b ≤ a ∧ d = a - b := by
  unfold subSize
  split <;> simp [*, eq_comm]

theorem subSize_eq_ok (h : b ≤ a) : subSize a b = .ok (a - b) :=
  subSize_eq_ok_iff.2 ⟨h, rfl⟩

end Checked

end Seaway
