import Mathlib
import Seaway.Zone.File
import Seaway.Proofs.ReadBack
import Seaway.Proofs.Except

/-!
# Zone files read back

A zone file is read by splitting its text at commas and line breaks, trimming each piece of
blanks and dropping the pieces left empty; every token must then read as a double, and there
must be an even number of them, which alternate longitude and latitude. Conversely, the
shortest spellings of the coordinates, joined by any text of separators and blanks with a
separator between every two values, read back as those coordinates.

* `pieces_eq_splitOnP`: the pieces of a text are the standard split at separators;
* `tokens_append_sep`, `tokens_filler_append` and `tokens_word_append`: the tokens of a text
  joined at a separator, behind a filler of separators and blanks, and after a word;
* `render_chars`: a shortest spelling is made of digits, a point, an exponent mark, a minus
  sign and the letters of `NaN` and `inf`, none a blank nor a separator;
* `vertices_eq_ok_iff`: reading succeeds with `xs` and `ys` exactly when the tokens read as
  `x₀, y₀, x₁, y₁, …`;
* `vertices_spec`: the main statement.
-/

namespace Seaway

namespace ZoneFile

open Decimal

/-- Longitudes and latitudes alternating, as a zone file lists them: `x₀, y₀, x₁, y₁, …`. -/
def interleave (xs ys : List Float) : List Float := (xs.zip ys).flatMap fun p => [p.1, p.2]

/-- Text that may stand between values: separators and blanks only. -/
def IsFiller (g : List Char) : Prop := ∀ c ∈ g, isSeparator c = true ∨ Text.isBlank c = true

/-- A word: a non-empty run of characters that are neither blanks nor separators. -/
def IsWord (w : List Char) : Prop :=
  w ≠ [] ∧ ∀ c ∈ w, Text.isBlank c = false ∧ isSeparator c = false

/-! ## Tokens -/

theorem pieces_eq_splitOnP (cs : List Char) : pieces cs = cs.splitOnP isSeparator := by
  induction cs with
  | nil => rfl
  | cons c cs ih =>
    rw [List.splitOnP_cons_eq_if_modifyHead, ← ih]
    obtain ⟨p, ps, hp⟩ := List.exists_cons_of_ne_nil (ih ▸ List.splitOnP_ne_nil isSeparator cs)
    simp only [pieces, hp, List.modifyHead_cons]

theorem tokens_eq (content : String) :
    tokens content = ((content.toList.splitOnP isSeparator).map fun cs =>
      Text.trim (String.ofList cs)).filter fun tok => !tok.isEmpty := by
  rw [tokens, pieces_eq_splitOnP]

@[simp] theorem tokens_empty : tokens "" = [] := by
  decide

/-- Tokens never span a separator. -/
theorem tokens_append_sep {s : Char} (hs : isSeparator s = true) (A B : List Char) :
    tokens (String.ofList (A ++ s :: B)) =
      tokens (String.ofList A) ++ tokens (String.ofList B) := by
  simp only [tokens_eq, String.toList_ofList, List.splitOnP_append_cons A B hs, List.map_append,
    List.filter_append]

theorem trim_blank_append {B : List Char} (hB : ∀ c ∈ B, Text.isBlank c = true)
    (cs : List Char) : Text.trim (String.ofList (B ++ cs)) = Text.trim (String.ofList cs) := by
  have hdrop : (B ++ cs).dropWhile Text.isBlank = cs.dropWhile Text.isBlank := by
    rw [List.dropWhile_append, if_pos (by simpa using List.dropWhile_eq_nil_iff.2 hB)]
  simp only [Text.trim, String.toList_ofList, hdrop]

/-- A text without separators joins the first piece of what follows it. -/
theorem splitOnP_append_of_forall {B : List Char} (hB : ∀ c ∈ B, isSeparator c = false)
    (X : List Char) :
    (B ++ X).splitOnP isSeparator = (X.splitOnP isSeparator).modifyHead (B ++ ·) := by
  induction B with
  | nil =>
    obtain ⟨p, ps, hp⟩ := List.exists_cons_of_ne_nil (List.splitOnP_ne_nil isSeparator X)
    simp [hp]
  | cons b B ih =>
    obtain ⟨p, ps, hp⟩ := List.exists_cons_of_ne_nil (List.splitOnP_ne_nil isSeparator X)
    rw [List.cons_append, List.splitOnP_cons_eq_if_modifyHead,
      if_neg (by simp [hB b List.mem_cons_self]), ih fun c hc => hB c (List.mem_cons_of_mem b hc)]
    simp [hp]

/-- Blanks in front of a text go with its first piece, and trimming removes them. -/
theorem tokens_blank_append {B : List Char}
    (hB : ∀ c ∈ B, Text.isBlank c = true ∧ isSeparator c = false) (X : List Char) :
    tokens (String.ofList (B ++ X)) = tokens (String.ofList X) := by
  obtain ⟨p, ps, hp⟩ := List.exists_cons_of_ne_nil (List.splitOnP_ne_nil isSeparator X)
  simp only [tokens_eq, String.toList_ofList,
    splitOnP_append_of_forall (fun c hc => (hB c hc).2) X, hp, List.modifyHead_cons,
    List.map_cons, trim_blank_append (fun c hc => (hB c hc).1)]

/-- Separators and blanks in front of a text add no token. -/
theorem tokens_filler_append {R : List Char} (hR : IsFiller R) (X : List Char) :
    tokens (String.ofList (R ++ X)) = tokens (String.ofList X) := by
  induction R with
  | nil => rfl
  | cons c R ih =>
    have hR' : IsFiller R := fun d hd => hR d (List.mem_cons_of_mem c hd)
    rw [List.cons_append]
    cases hs : isSeparator c
    · -- a blank that separates nothing joins the first piece
      have hb : Text.isBlank c = true := (hR c List.mem_cons_self).resolve_left (by simp [hs])
      rw [← List.singleton_append, tokens_blank_append (by simpa using ⟨hb, hs⟩), ih hR']
    · rw [← List.nil_append (c :: _), tokens_append_sep hs, String.ofList_nil, tokens_empty,
        List.nil_append, ih hR']

/-- A text with a separator in it is what stands before its first separator, that separator,
and the rest. -/
theorem exists_first_sep {g : List Char} (h : ∃ c ∈ g, isSeparator c = true) :
    ∃ B s R, g = B ++ s :: R ∧ (∀ c ∈ B, isSeparator c = false) ∧ isSeparator s = true := by
  induction g with
  | nil => simp at h
  | cons c g ih =>
    cases hc : isSeparator c
    · obtain ⟨B, s, R, rfl, hB, hs⟩ := ih (by simpa [hc] using h)
      exact ⟨c :: B, s, R, rfl, by simpa [hc] using hB, hs⟩
    · exact ⟨[], c, g, rfl, by simp, hc⟩

theorem trim_word {r B : List Char} (hr : IsWord r) (hB : ∀ c ∈ B, Text.isBlank c = true) :
    Text.trim (String.ofList (r ++ B)) = String.ofList r := by
  obtain ⟨c, r', rfl⟩ := List.exists_cons_of_ne_nil hr.1
  obtain ⟨d, r'', hd⟩ := List.exists_cons_of_ne_nil (List.reverse_ne_nil_iff.2 hr.1)
  -- the word's first and last characters are no blanks
  have hc : Text.isBlank c = false := (hr.2 c List.mem_cons_self).1
  have hd' : Text.isBlank d = false :=
    (hr.2 d (List.mem_reverse.1 (hd ▸ List.mem_cons_self))).1
  have hfront : ((c :: r') ++ B).dropWhile Text.isBlank = (c :: r') ++ B :=
    List.dropWhile_cons_of_neg (by simp [hc])
  have hblank : B.reverse.dropWhile Text.isBlank = [] :=
    List.dropWhile_eq_nil_iff.2 fun x hx => hB x (List.mem_reverse.1 hx)
  have hback : (B.reverse ++ (c :: r').reverse).dropWhile Text.isBlank = (c :: r').reverse := by
    rw [List.dropWhile_append, hblank, List.isEmpty_nil, if_pos rfl, hd,
      List.dropWhile_cons_of_neg (by simp [hd'])]
  simp only [Text.trim, String.toList_ofList]
  rw [hfront, List.reverse_append, hback, List.reverse_reverse]

/-- A word followed by blanks that separate nothing is one token. -/
theorem tokens_word {r B : List Char} (hr : IsWord r)
    (hB : ∀ c ∈ B, Text.isBlank c = true ∧ isSeparator c = false) :
    tokens (String.ofList (r ++ B)) = [String.ofList r] := by
  have hsplit : (r ++ B).splitOnP isSeparator = [r ++ B] := by
    refine List.splitOnP_eq_singleton fun c hc => ?_
    rcases List.mem_append.1 hc with hc | hc
    · exact (hr.2 c hc).2
    · exact (hB c hc).2
  have hne : (String.ofList r).isEmpty = false := by
    simpa [String.isEmpty_iff, ← String.toList_eq_nil_iff] using hr.1
  simp only [tokens_eq, String.toList_ofList, hsplit, List.map_cons, List.map_nil,
    trim_word hr fun c hc => (hB c hc).1, List.filter_cons, hne, Bool.not_false, if_true,
    List.filter_nil]

/-- A word followed by a filler that holds a separator is a token of its own. -/
theorem tokens_word_append {r g : List Char} (hr : IsWord r) (hg : IsFiller g)
    (hsep : ∃ c ∈ g, isSeparator c = true) (X : List Char) :
    tokens (String.ofList (r ++ g ++ X)) = String.ofList r :: tokens (String.ofList X) := by
  obtain ⟨B, s, R, rfl, hB, hs⟩ := exists_first_sep hsep
  -- before the first separator the filler is blanks
  have hB' : ∀ c ∈ B, Text.isBlank c = true ∧ isSeparator c = false := fun c hc =>
    ⟨(hg c (List.mem_append_left _ hc)).resolve_left (by simp [hB c hc]), hB c hc⟩
  have hR : IsFiller R := fun c hc => hg c (List.mem_append_right _ (List.mem_cons_of_mem s hc))
  rw [show r ++ (B ++ s :: R) ++ X = (r ++ B) ++ s :: (R ++ X) by simp, tokens_append_sep hs,
    tokens_word hr hB', tokens_filler_append hR, List.singleton_append]

/-- A word followed by any filler is one token. -/
theorem tokens_word_filler {r g : List Char} (hr : IsWord r) (hg : IsFiller g) :
    tokens (String.ofList (r ++ g)) = [String.ofList r] := by
  by_cases hsep : ∃ c ∈ g, isSeparator c = true
  · simpa using tokens_word_append hr hg hsep []
  · simp only [not_exists, not_and, Bool.not_eq_true] at hsep
    exact tokens_word hr fun c hc =>
      ⟨(hg c hc).resolve_left (by simp [hsep c hc]), by simpa using hsep c hc⟩

/-- **Spelled texts.** Words, each followed by a filler, behind a leading filler, where every
filler but the last holds a separator: each word is one token. -/
theorem tokens_spelled {words gaps : List (List Char)} (hlen : words.length = gaps.length)
    (hw : ∀ w ∈ words, IsWord w) (hg : ∀ g ∈ gaps, IsFiller g)
    (hsep : ∀ g ∈ gaps.dropLast, ∃ c ∈ g, isSeparator c = true) {lead : List Char}
    (hlead : IsFiller lead) :
    tokens (String.ofList (lead ++ (List.zipWith (· ++ ·) words gaps).flatten)) =
      words.map String.ofList := by
  rw [tokens_filler_append hlead]
  induction words generalizing gaps with
  | nil => simp
  | cons w words ih =>
    obtain ⟨g, gaps, rfl⟩ : ∃ g gs, gaps = g :: gs := by
      cases gaps with
      | nil => simp at hlen
      | cons g gs => exact ⟨g, gs, rfl⟩
    have hw₀ := hw w List.mem_cons_self
    have hg₀ := hg g List.mem_cons_self
    cases words with
    | nil =>
      -- the last word: its filler need not separate anything
      obtain rfl : gaps = [] := by simpa using hlen.symm
      simpa using tokens_word_filler hw₀ hg₀
    | cons w' words =>
      obtain ⟨g', gaps, rfl⟩ : ∃ g gs, gaps = g :: gs := by
        cases gaps with
        | nil => simp at hlen
        | cons g gs => exact ⟨g, gs, rfl⟩
      have hsep₀ : ∃ c ∈ g, isSeparator c = true := hsep g (by simp)
      rw [List.zipWith_cons_cons, List.flatten_cons,
        tokens_word_append hw₀ hg₀ hsep₀, List.map_cons,
        ih (by simpa using hlen) (fun x hx => hw x (List.mem_cons_of_mem w hx))
          (fun x hx => hg x (List.mem_cons_of_mem g hx))
          (fun x hx => hsep x (by rw [List.dropLast_cons_cons]; exact List.mem_cons_of_mem g hx))]

/-! ## Spellings of doubles are words -/

theorem isDigit_plain {c : Char} (h : c.isDigit = true) :
    Text.isBlank c = false ∧ isSeparator c = false := by
  simp only [Char.isDigit, Bool.and_eq_true, decide_eq_true_eq] at h
  have h₁ : 48 ≤ c.toNat := h.1
  have h₂ : c.toNat ≤ 57 := h.2
  constructor
  · simp only [Text.isBlank, decide_eq_false_iff_not]
    omega
  · simp only [isSeparator, decide_eq_false_iff_not]
    rintro (rfl | rfl | rfl) <;> simp at h₁ h₂

/-- Digits, a point, an exponent mark and a minus sign are neither blanks nor separators. -/
theorem numeral_plain {c : Char} (h : c.isDigit = true ∨ c = '.' ∨ c = 'e' ∨ c = '-') :
    Text.isBlank c = false ∧ isSeparator c = false := by
  rcases h with h | rfl | rfl | rfl
  · exact isDigit_plain h
  all_goals decide

theorem int_toString_chars (x : Int) : ∀ c ∈ (toString x).toList, c.isDigit = true ∨ c = '-' := by
  intro c hc
  cases x with
  | ofNat n =>
    simp only [toString, Int.repr, Nat.toList_repr] at hc
    exact .inl (Nat.isDigit_of_mem_toDigits (by decide) (by decide) hc)
  | negSucc n =>
    simp only [toString, Int.repr, String.toList_append, Nat.toList_repr] at hc
    rcases List.mem_append.1 hc with hc | hc
    · exact .inr (by simpa using hc)
    · exact .inl (Nat.isDigit_of_mem_toDigits (by decide) (by decide) hc)

/-- A layout of a decimal is made of digits, a point, an exponent mark and minus signs. -/
theorem layout_chars (s : Style) (d : Decimal) :
    ∀ c ∈ (layout s d).toList, c.isDigit = true ∨ c = '.' ∨ c = 'e' ∨ c = '-' := by
  obtain ⟨l, ⟨W, F, P, X, ht, hW, -, hF, hP, hX, -, -⟩, -⟩ := layout_isLiteral s d
  intro c hc
  rw [ht, List.mem_append, List.mem_append] at hc
  rcases hc with (hc | hc) | hc
  · exact .inl (hW c hc)
  · -- the fraction: a point and digits
    rcases hP with ⟨rfl, -⟩ | rfl
    · simp at hc
    · rcases List.mem_cons.1 hc with rfl | hc
      · exact .inr (.inl rfl)
      · exact .inl (hF c hc)
  · -- the exponent: a mark and the text of an integer
    rcases hX with ⟨rfl, -⟩ | rfl
    · simp at hc
    · rcases List.mem_cons.1 hc with rfl | hc
      · exact .inr (.inr (.inl rfl))
      · rcases int_toString_chars _ c hc with h | h
        · exact .inl h
        · exact .inr (.inr (.inr h))

/-- Every spelling of a double is a word: `NaN`, `inf` with its sign, or a sign and a layout,
which starts with a digit. -/
theorem render_isWord (s : Style) (x : Float) : IsWord (render s x).toList := by
  unfold render
  rcases Binary64.ofFloat x with _ | neg | ⟨neg, m, e⟩
  · have hnan : "NaN".toList = ['N', 'a', 'N'] := rfl
    dsimp only
    rw [hnan]
    refine ⟨by simp, fun c hc => ?_⟩
    simp only [List.mem_cons, List.not_mem_nil, or_false] at hc
    rcases hc with rfl | rfl | rfl <;> decide
  · have hinf : ∀ neg : Bool, ((if neg then "-" else "") ++ "inf").toList =
        (if neg then ['-'] else []) ++ ['i', 'n', 'f'] := by
      intro neg
      cases neg <;> rfl
    dsimp only
    rw [hinf]
    refine ⟨by simp, fun c hc => ?_⟩
    cases neg <;> simp only [List.mem_append, List.mem_cons, List.not_mem_nil, or_false,
      if_true, if_false, Bool.false_eq_true, false_or] at hc
    · rcases hc with rfl | rfl | rfl <;> decide
    · rcases hc with rfl | rfl | rfl | rfl <;> decide
  · dsimp only
    obtain ⟨l, hl, -⟩ := layout_isLiteral s (if m = 0 then ⟨0, 0⟩ else shortest s.evenTie m e)
    obtain ⟨c, cs, hcs, -⟩ := hl.head
    refine ⟨by simp [hcs], fun c hc => ?_⟩
    rw [String.toList_append, List.mem_append] at hc
    rcases hc with hc | hc
    · refine numeral_plain (.inr (.inr (.inr ?_)))
      cases neg <;> simp_all
    · exact numeral_plain (layout_chars s _ c hc)

/-! ## Reading the tokens -/

@[simp] theorem interleave_nil_left (ys : List Float) : interleave [] ys = [] := rfl

@[simp] theorem interleave_cons_cons (x y : Float) (xs ys : List Float) :
    interleave (x :: xs) (y :: ys) = x :: y :: interleave xs ys := rfl

theorem length_interleave {xs ys : List Float} (h : xs.length = ys.length) :
    (interleave xs ys).length = 2 * xs.length := by
  induction xs generalizing ys with
  | nil => rfl
  | cons x xs ih =>
    cases ys with
    | nil => simp at h
    | cons y ys =>
      simp only [interleave_cons_cons, List.length_cons, ih (by simpa using h)]
      omega

theorem pairs_interleave {xs ys : List Float} (h : xs.length = ys.length) :
    vertices.pairs (interleave xs ys) = (xs, ys) := by
  induction xs generalizing ys with
  | nil =>
    obtain rfl : ys = [] := List.eq_nil_of_length_eq_zero (by simpa using h.symm)
    rfl
  | cons x xs ih =>
    cases ys with
    | nil => simp at h
    | cons y ys => simp [vertices.pairs, ih (by simpa using h)]

/-- An even number of values is the interleaving of the pairs read from it. -/
theorem interleave_pairs (vals : List Float) (h : vals.length % 2 = 0) :
    (vertices.pairs vals).1.length = (vertices.pairs vals).2.length ∧
      interleave (vertices.pairs vals).1 (vertices.pairs vals).2 = vals := by
  fun_induction vertices.pairs vals with
  | case1 x y rest xs ys hrest ih =>
    rw [hrest] at ih
    obtain ⟨hlen, heq⟩ := ih (by simp only [List.length_cons] at h; omega)
    exact ⟨by simpa using hlen, by simp [heq]⟩
  | case2 vals hvals =>
    -- an even list that is not two values and more is empty
    refine ⟨rfl, ?_⟩
    match vals, h, hvals with
    | [], _, _ => rfl
    | [_], h, _ => simp at h
    | x :: y :: rest, _, hvals => exact (hvals x y rest rfl).elim

/-- Tokens read one by one as the values `vals` exactly when the readings are those values. -/
theorem forall₂_read_iff {toks : List String} {vals : List Float} :
    List.Forall₂ (fun tok v => readFloat? tok = some v) toks vals ↔
      toks.map readFloat? = vals.map some := by
  rw [← List.forall₂_eq_eq_eq, List.forall₂_map_left_iff, List.forall₂_map_right_iff]

/-- Reading a zone file succeeds with `xs` and `ys` exactly when its tokens read as
`x₀, y₀, x₁, y₁, …`. -/
theorem vertices_eq_ok_iff {path content : String} {xs ys : List Float} :
    vertices path content = .ok (xs, ys) ↔
      xs.length = ys.length ∧ (tokens content).map readFloat? = (interleave xs ys).map some := by
  unfold vertices
  rw [Except.bind_eq_ok]
  constructor
  · rintro ⟨vals, hvals, h⟩
    have hread : List.Forall₂ (fun tok v => readFloat? tok = some v) (tokens content) vals :=
      (Except.mapM_eq_ok_iff.1 hvals).imp fun tok v h => by
        split at h
        · cases h
          assumption
        · cases h
    split at h
    · cases h
    · rename_i heven
      obtain ⟨hlen, hinter⟩ := interleave_pairs vals (by omega)
      have hpairs : vertices.pairs vals = (xs, ys) := Except.ok.inj h
      rw [hpairs] at hlen hinter
      exact ⟨hlen, by rw [hinter]; exact forall₂_read_iff.1 hread⟩
  · rintro ⟨hlen, hmap⟩
    refine ⟨interleave xs ys, Except.mapM_eq_ok_iff.2 ((forall₂_read_iff.2 hmap).imp
      fun tok v h => by rw [h]; rfl), ?_⟩
    rw [if_neg (by rw [length_interleave hlen]; omega)]
    exact congrArg Except.ok (pairs_interleave hlen)

/-- Tokens that all read as doubles read as the doubles they spell. -/
theorem map_readFloat_eq {toks : List String} (h : ∀ tok ∈ toks, (readFloat? tok).isSome) :
    toks.map readFloat? = (toks.filterMap readFloat?).map some := by
  induction toks with
  | nil => rfl
  | cons tok toks ih =>
    obtain ⟨v, hv⟩ := Option.isSome_iff_exists.1 (h tok List.mem_cons_self)
    rw [List.map_cons, List.filterMap_cons_some hv, List.map_cons, hv,
      ih fun t ht => h t (List.mem_cons_of_mem tok ht)]

/-- Reading a zone file succeeds exactly when every token reads as a double and there is an
even number of them. -/
theorem vertices_ok_iff {path content : String} :
    (∃ r, vertices path content = .ok r) ↔
      (∀ tok ∈ tokens content, (readFloat? tok).isSome) ∧ (tokens content).length % 2 = 0 := by
  constructor
  · rintro ⟨⟨xs, ys⟩, h⟩
    obtain ⟨hlen, hmap⟩ := vertices_eq_ok_iff.1 h
    refine ⟨fun tok htok => ?_, ?_⟩
    · have hmem : readFloat? tok ∈ (tokens content).map readFloat? := List.mem_map_of_mem htok
      rw [hmap] at hmem
      obtain ⟨v, -, hv⟩ := List.mem_map.1 hmem
      rw [← hv]
      rfl
    · have hcount := congrArg List.length hmap
      simp only [List.length_map, length_interleave hlen] at hcount
      omega
  · rintro ⟨hall, heven⟩
    -- the doubles the tokens spell, paired up
    have hmap := map_readFloat_eq hall
    have hcount := congrArg List.length hmap
    simp only [List.length_map] at hcount
    obtain ⟨hlen, hinter⟩ := interleave_pairs ((tokens content).filterMap readFloat?)
      (by omega)
    exact ⟨_, vertices_eq_ok_iff.2 ⟨hlen, by rw [hinter]; exact hmap⟩⟩

theorem mapM_eq_error {α β : Type} {f : α → Except Fault β} {e : Fault} :
    ∀ {l : List α}, l.mapM f = .error e → ∃ x ∈ l, f x = .error e
  | [], h => by cases h
  | x :: l, h => by
    rw [List.mapM_cons] at h
    cases hf : f x with
    | error e' =>
      rw [hf] at h
      cases h
      exact ⟨x, List.mem_cons_self, hf⟩
    | ok y =>
      cases hl : l.mapM f with
      | error e' =>
        rw [hf, hl] at h
        cases h
        obtain ⟨x', hx', h'⟩ := mapM_eq_error hl
        exact ⟨x', List.mem_cons_of_mem x hx', h'⟩
      | ok ys =>
        rw [hf, hl] at h
        cases h

/-- A zone file that cannot be read fails with a zone-file fault naming its path. -/
theorem vertices_eq_error {path content : String} {e : Fault}
    (h : vertices path content = .error e) : ∃ reason, e = .zoneFile path reason := by
  unfold vertices at h
  simp only [bind, Except.bind] at h
  split at h
  · -- a token that reads as no double
    rename_i e' hm
    cases h
    obtain ⟨tok, -, htok⟩ := mapM_eq_error hm
    split at htok
    · cases htok
    · cases htok
      exact ⟨_, rfl⟩
  · -- an odd number of values
    split at h
    · cases h
      exact ⟨_, rfl⟩
    · cases h

/-- The text of values each followed by a filler, as characters. -/
theorem toList_spelled (lead : String) (rs gs : List String) :
    (lead ++ String.join (List.zipWith (· ++ ·) rs gs)).toList =
      lead.toList ++ (List.zipWith (· ++ ·) (rs.map String.toList) (gs.map String.toList)).flatten := by
  rw [String.toList_append, String.toList_join, List.flatMap_def, List.map_zipWith,
    List.zipWith_map]
  simp only [String.toList_append]

/-- **Zone files read back.** A zone file is split at commas, line feeds and carriage returns,
and its pieces are trimmed of blanks, the empty ones dropped. Reading succeeds exactly when
every token reads as a double and there are evenly many of them, and then with the longitudes
`xs` and latitudes `ys` whose interleaving `x₀, y₀, x₁, y₁, …` the tokens read as; a failure is
a zone-file fault naming the path. Conversely, for as many longitudes as latitudes, the shortest
spellings of `x₀, y₀, x₁, y₁, …` (every NaN spelled and read as the one NaN), each followed by a
filler of separators and blanks, with a separator in every filler but the last, and behind any
filler, read back as `xs` and `ys`. -/
theorem vertices_spec (path content : String) :
    tokens content = ((content.toList.splitOnP isSeparator).map fun cs =>
      Text.trim (String.ofList cs)).filter (fun tok => !tok.isEmpty) ∧
    ((∃ r, vertices path content = .ok r) ↔
      (∀ tok ∈ tokens content, (readFloat? tok).isSome) ∧ (tokens content).length % 2 = 0) ∧
    (∀ xs ys, vertices path content = .ok (xs, ys) ↔
      xs.length = ys.length ∧ (tokens content).map readFloat? = (interleave xs ys).map some) ∧
    (∀ e, vertices path content = .error e → ∃ reason, e = .zoneFile path reason) ∧
    ∀ (xs ys : List Float) (lead : String) (gaps : List String), xs.length = ys.length →
      gaps.length = 2 * xs.length → IsFiller lead.toList → (∀ g ∈ gaps, IsFiller g.toList) →
      (∀ g ∈ gaps.dropLast, ∃ c ∈ g.toList, isSeparator c = true) →
      vertices path (lead ++ String.join (List.zipWith (· ++ ·)
        ((interleave xs ys).map (render .plain)) gaps)) = .ok (xs, ys) := by
  refine ⟨tokens_eq content, vertices_ok_iff, fun xs ys => vertices_eq_ok_iff,
    fun e h => vertices_eq_error h, ?_⟩
  intro xs ys lead gaps hlen hgl hlead hg hsep
  -- the spellings are words, each made one token by the filler after it
  have htoks : tokens (lead ++ String.join (List.zipWith (· ++ ·)
      ((interleave xs ys).map (render .plain)) gaps)) = (interleave xs ys).map (render .plain) := by
    rw [← String.ofList_toList (s := lead ++ _), toList_spelled,
      tokens_spelled (by simp [length_interleave hlen, hgl])
        (fun w hw => by
          rw [List.map_map] at hw
          obtain ⟨x, -, rfl⟩ := List.mem_map.1 hw
          exact render_isWord .plain x)
        (fun g hg' => by
          obtain ⟨g, hg'', rfl⟩ := List.mem_map.1 hg'
          exact hg g hg'')
        (fun g hg' => by
          rw [← List.map_dropLast] at hg'
          obtain ⟨g, hg'', rfl⟩ := List.mem_map.1 hg'
          exact hsep g hg'')
        hlead]
    simp [List.map_map, Function.comp_def]
  refine vertices_eq_ok_iff.2 ⟨hlen, ?_⟩
  rw [htoks, List.map_map]
  exact List.map_congr_left fun x _ => readFloat_render .plain x

/-- The vertices of a square zone in a file of two lines, the second ending in a separator,
followed by a blank line. -/
theorem vertices_spec_square :
    IsFiller "".toList ∧ (∀ g ∈ [",", ",", ",", "\n", ",", ",\n", ",", "\n\n"], IsFiller g.toList) ∧
    (∀ g ∈ [",", ",", ",", "\n", ",", ",\n", ",", "\n\n"].dropLast,
      ∃ c ∈ g.toList, isSeparator c = true) ∧
    vertices "Z1.txt" ("" ++ String.join (List.zipWith (· ++ ·)
      ((interleave [-41.0, -41.0, -40.0, -40.0] [60.0, 61.0, 61.0, 60.0]).map (render .plain))
      [",", ",", ",", "\n", ",", ",\n", ",", "\n\n"])) =
      .ok ([-41.0, -41.0, -40.0, -40.0], [60.0, 61.0, 61.0, 60.0]) := by
  have hlead : IsFiller "".toList := by simp [IsFiller]
  have hcomma : ",".toList = [','] := rfl
  have hfeed : "\n".toList = ['\n'] := rfl
  have hcommaFeed : ",\n".toList = [',', '\n'] := rfl
  have hfeeds : "\n\n".toList = ['\n', '\n'] := rfl
  have hgaps : ∀ g ∈ [",", ",", ",", "\n", ",", ",\n", ",", "\n\n"], IsFiller g.toList := by
    simp [IsFiller, isSeparator, hcomma, hfeed, hcommaFeed, hfeeds]
  have hsep : ∀ g ∈ [",", ",", ",", "\n", ",", ",\n", ",", "\n\n"].dropLast,
      ∃ c ∈ g.toList, isSeparator c = true := by
    simp [isSeparator, hcomma, hfeed, hcommaFeed]
  exact ⟨hlead, hgaps, hsep, (vertices_spec "Z1.txt" "").2.2.2.2 _ _ "" _ rfl rfl hlead hgaps hsep⟩

end ZoneFile

end Seaway
