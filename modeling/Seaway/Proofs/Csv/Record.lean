import Mathlib
import Seaway.Csv.Write
import Seaway.Csv.Read

/-!
# A written record reads back as itself

`Csv.rows (Csv.record fs) = [⟨fs, 0, 1, 0⟩]` for every non-empty list of fields: the text
that the writer makes of a record is read as that one record, its fields in order, found
at line `1` and byte `0`. Records written one after another are read as those records in
order (`rows_join_records`), since each leaves the machine at the start of the next.

The reading machine is followed field by field. From the start of a field, the text of a
field that needs no quotes puts the machine in an unquoted field holding its characters
(an empty field leaves it where it was), and a quoted field leaves it right after its
closing quote holding the characters with their doubled quotes undone. A comma then ends
the field and a line feed the record. The one field list whose record would start with a
line end, `[""]`, is the one the writer spells `""`.

The machine's position in the text (its line and byte counters) plays no part until the
record ends, so the lemmas below leave it open.
-/

namespace Seaway

namespace Csv

namespace Reader

variable {s : Scan} {f : List Char} {F : List String} {l b : Nat} {p : Nat × Nat}
  {R : List Row} {c : Char}

/-- Whether a character is read the same in every state inside a field: it is no comma,
double quote or line end. -/
def plain (c : Char) : Bool := !(c == ',' || c == '"' || c == '\n' || c == '\r')

/-- The states a field may end in: the comma after it ends the field, and from all but
`startRecord` the line feed after it ends the record. -/
def Ended (s : Scan) : Prop := s = .startField ∨ s = .inField ∨ s = .quoteInQuoted

/-! ## One character -/

theorem step_plain (hs : s = .startRecord ∨ s = .startField ∨ s = .inField)
    (hc : plain c = true) :
    ∃ l' b', step ⟨s, f, F, l, b, p, R⟩ c = ⟨.inField, c :: f, F, l', b', p, R⟩ := by
  simp only [plain, Bool.not_eq_true', Bool.or_eq_false_iff, beq_eq_false_iff_ne] at hc
  obtain ⟨⟨⟨hcomma, hquote⟩, hlf⟩, hcr⟩ := hc
  refine ⟨l, b + c.utf8Size, ?_⟩
  rcases hs with rfl | rfl | rfl <;>
    simp [step, atRecord, atField, keep, isLineEnd, hcomma, hquote, hlf, hcr]

theorem step_openQuote (hs : s = .startRecord ∨ s = .startField) :
    step ⟨s, f, F, l, b, p, R⟩ '"' = ⟨.inQuoted, f, F, l, b + 1, p, R⟩ := by
  rcases hs with rfl | rfl <;> rfl

theorem step_quoted (hc : c ≠ '"') :
    ∃ l' b', step ⟨.inQuoted, f, F, l, b, p, R⟩ c = ⟨.inQuoted, c :: f, F, l', b', p, R⟩ :=
  ⟨if c = '\n' then l + 1 else l, b + c.utf8Size, by simp [step, keep, hc]⟩

theorem step_closeQuote :
    step ⟨.inQuoted, f, F, l, b, p, R⟩ '"' = ⟨.quoteInQuoted, f, F, l, b + 1, p, R⟩ :=
  rfl

theorem step_doubledQuote :
    step ⟨.quoteInQuoted, f, F, l, b, p, R⟩ '"' = ⟨.inQuoted, '"' :: f, F, l, b + 1, p, R⟩ :=
  rfl

/-- A comma ends the field from every state a field ends in, and from the start of the
first field. -/
theorem step_comma (hs : s = .startRecord ∨ Ended s) :
    step ⟨s, f, F, l, b, p, R⟩ ',' =
      ⟨.startField, [], String.ofList f.reverse :: F, l, b + 1, p, R⟩ := by
  rcases hs with rfl | rfl | rfl | rfl <;> rfl

/-- A line feed ends the record from every state a field ends in. -/
theorem step_lineFeed (hs : Ended s) :
    step ⟨s, f, F, l, b, p, R⟩ '\n' =
      ⟨.startRecord, [], [], l + 1, b + 1, (l + 1, b + 1),
        ⟨(String.ofList f.reverse :: F).reverse, R.length, p.1, p.2⟩ :: R⟩ := by
  rcases hs with rfl | rfl | rfl <;> rfl

/-! ## One field -/

/-- Plain characters are kept in an unquoted field. -/
theorem foldl_plain {cs : List Char} (hcs : ∀ c ∈ cs, plain c = true) :
    ∃ l' b', cs.foldl step ⟨.inField, f, F, l, b, p, R⟩ =
      ⟨.inField, cs.reverse ++ f, F, l', b', p, R⟩ := by
  induction cs generalizing f l b with
  | nil => exact ⟨l, b, rfl⟩
  | cons c cs ih =>
    obtain ⟨l₁, b₁, h₁⟩ := step_plain (f := f) (F := F) (l := l) (b := b) (p := p) (R := R)
      (Or.inr (Or.inr rfl)) (hcs c (List.mem_cons_self ..))
    obtain ⟨l₂, b₂, h₂⟩ := ih (f := c :: f) (l := l₁) (b := b₁)
      fun c' hc' => hcs c' (List.mem_cons_of_mem c hc')
    refine ⟨l₂, b₂, ?_⟩
    rw [List.foldl_cons, h₁, h₂, List.reverse_cons, List.append_assoc, List.singleton_append]

/-- The characters of a field with each double quote doubled. -/
def escape (cs : List Char) : List Char :=
  cs.flatMap fun c => if c == '"' then ['"', '"'] else [c]

theorem escape_cons (c : Char) (cs : List Char) :
    escape (c :: cs) = (if c == '"' then ['"', '"'] else [c]) ++ escape cs :=
  List.flatMap_cons

/-- Inside quotes, an escaped text is read as the text. -/
theorem foldl_escape (cs : List Char) :
    ∃ l' b', (escape cs).foldl step ⟨.inQuoted, f, F, l, b, p, R⟩ =
      ⟨.inQuoted, cs.reverse ++ f, F, l', b', p, R⟩ := by
  induction cs generalizing f l b with
  | nil => exact ⟨l, b, rfl⟩
  | cons c cs ih =>
    rw [escape_cons, List.foldl_append]
    by_cases hc : c = '"'
    · -- a double quote is written twice and read once
      subst hc
      obtain ⟨l₂, b₂, h₂⟩ := ih (f := '"' :: f) (l := l) (b := b + 1 + 1)
      refine ⟨l₂, b₂, ?_⟩
      simp only [beq_self_eq_true, ↓reduceIte, List.foldl_cons, List.foldl_nil, step_closeQuote,
        step_doubledQuote]
      rw [h₂, List.reverse_cons, List.append_assoc, List.singleton_append]
    · obtain ⟨l₁, b₁, h₁⟩ := step_quoted (f := f) (F := F) (l := l) (b := b) (p := p)
        (R := R) hc
      obtain ⟨l₂, b₂, h₂⟩ := ih (f := c :: f) (l := l₁) (b := b₁)
      refine ⟨l₂, b₂, ?_⟩
      simp only [beq_iff_eq, hc, ↓reduceIte, List.foldl_cons, List.foldl_nil, h₁]
      rw [h₂, List.reverse_cons, List.append_assoc, List.singleton_append]

theorem quoteField_toList (x : String) :
    (quoteField x).toList =
      if needsQuotes x then '"' :: escape x.toList ++ ['"'] else x.toList := by
  unfold quoteField escape
  split <;> simp

theorem plain_of_needsQuotes {x : String} (hx : needsQuotes x = false) :
    ∀ c ∈ x.toList, plain c = true := by
  intro c hc
  rw [needsQuotes, String.any, String.contains_bool_eq, List.any_eq_false] at hx
  simpa [plain] using hx c hc

/-- Reading a field as written, from the start of a field, leaves the machine holding the
field's characters in a state the field ends in, or, for an empty field, where it was. -/
theorem foldl_quoteField (hs : s = .startRecord ∨ s = .startField) (x : String) :
    ∃ s' l' b', (quoteField x).toList.foldl step ⟨s, [], F, l, b, p, R⟩ =
      ⟨s', x.toList.reverse, F, l', b', p, R⟩ ∧ (Ended s' ∨ s' = s ∧ x = "") := by
  rw [quoteField_toList]
  split
  · -- quoted: the opening quote, the escaped text, the closing quote
    obtain ⟨l₁, b₁, h₁⟩ := foldl_escape (f := []) (F := F) (l := l) (b := b + 1) (p := p)
      (R := R) x.toList
    refine ⟨.quoteInQuoted, l₁, b₁ + 1, ?_, Or.inl (Or.inr (Or.inr rfl))⟩
    simp only [List.foldl_append, List.foldl_cons, List.foldl_nil, step_openQuote hs, h₁,
      List.append_nil]
    rfl
  · rename_i hq
    have hplain := plain_of_needsQuotes (Bool.eq_false_iff.2 hq)
    rcases hx : x.toList with _ | ⟨c, cs⟩
    · exact ⟨s, l, b, rfl, Or.inr ⟨rfl, String.toList_eq_nil_iff.1 hx⟩⟩
    · -- unquoted: the first character opens the field, the others are kept
      rw [hx] at hplain
      obtain ⟨l₁, b₁, h₁⟩ := step_plain (f := []) (F := F) (l := l) (b := b) (p := p)
        (R := R) (Or.imp_right Or.inl hs) (hplain c (List.mem_cons_self ..))
      obtain ⟨l₂, b₂, h₂⟩ := foldl_plain (f := [c]) (F := F) (l := l₁) (b := b₁) (p := p)
        (R := R) (fun c' hc' => hplain c' (List.mem_cons_of_mem c hc'))
      refine ⟨.inField, l₂, b₂, ?_, Or.inl (Or.inr (Or.inl rfl))⟩
      rw [List.foldl_cons, h₁, h₂, List.reverse_cons]

/-! ## One record -/

/-- The text after a record's first field: each further field after a comma. -/
def rest (ys : List String) : List Char :=
  ys.flatMap fun y => ',' :: (quoteField y).toList

/-- Reading the further fields: each ends the field before it, and the last is held. -/
theorem foldl_rest (ys : List String) (hs : s = .startRecord ∨ Ended s) :
    ∃ s' f' F' l' b', (rest ys).foldl step ⟨s, f, F, l, b, p, R⟩ =
      ⟨s', f', F', l', b', p, R⟩ ∧
      String.ofList f'.reverse :: F' = ys.reverse ++ String.ofList f.reverse :: F ∧
      (ys = [] → s' = s) ∧ (ys ≠ [] → Ended s') := by
  induction ys generalizing s f F l b with
  | nil => exact ⟨s, f, F, l, b, rfl, rfl, fun _ => rfl, fun h => absurd rfl h⟩
  | cons y ys ih =>
    obtain ⟨s₁, l₁, b₁, h₁, hend₁⟩ := foldl_quoteField (F := String.ofList f.reverse :: F)
      (l := l) (b := b + 1) (p := p) (R := R) (Or.inr rfl) y
    -- the field `y` ends in a state a field ends in, an empty one at the start of a field
    have hs₁ : Ended s₁ := hend₁.elim id fun h => h.1 ▸ Or.inl rfl
    obtain ⟨s', f', F', l', b', h₂, hfields, hnil, hend⟩ :=
      ih (s := s₁) (f := y.toList.reverse) (F := String.ofList f.reverse :: F) (l := l₁)
        (b := b₁) (Or.inr hs₁)
    refine ⟨s', f', F', l', b', ?_, ?_, fun h => absurd h (List.cons_ne_nil _ _), fun _ => ?_⟩
    · rw [rest, List.flatMap_cons, List.foldl_append, List.foldl_cons, step_comma hs, h₁, ← rest,
        h₂]
    · rw [hfields, List.reverse_reverse, String.ofList_toList, List.reverse_cons,
        List.append_assoc, List.singleton_append]
    · by_cases hys : ys = []
      · rw [hnil hys]
        exact hs₁
      · exact hend hys

end Reader

theorem toList_intercalate_comma (x : String) (ys : List String) :
    (",".intercalate ((x :: ys).map quoteField)).toList = (quoteField x).toList ++ Reader.rest ys := by
  induction ys generalizing x with
  | nil => simp [Reader.rest]
  | cons y ys ih =>
    rw [List.map_cons, List.map_cons, String.intercalate_cons_cons, String.toList_append,
      String.toList_append, ← List.map_cons, ih]
    simp [Reader.rest]

/-- A written record, read from the start of a record at any position, is added to the records
read, and the machine is left at the start of the next record. -/
theorem foldl_record {xs : List String} (hxs : xs ≠ []) (l b : Nat) (R : List Row) :
    ∃ l' b', (record xs).toList.foldl Reader.step ⟨.startRecord, [], [], l, b, (l, b), R⟩ =
      ⟨.startRecord, [], [], l', b', (l', b'), ⟨xs, R.length, l, b⟩ :: R⟩ := by
  obtain ⟨x, ys, rfl⟩ := List.exists_cons_of_ne_nil hxs
  unfold record
  split
  · -- the one empty field, written `""`
    rename_i h
    rw [h]
    exact ⟨_, _, rfl⟩
  · rename_i hne
    -- the first field from the start of the record, then the others, then the line feed
    obtain ⟨s₁, l₁, b₁, h₁, hend₁⟩ := Reader.foldl_quoteField (F := []) (l := l) (b := b)
      (p := (l, b)) (R := R) (Or.inl rfl) x
    obtain ⟨s', f', F', l', b', h₂, hfields, hnil, hend⟩ :=
      Reader.foldl_rest (s := s₁) (f := x.toList.reverse) (F := []) (l := l₁) (b := b₁)
        (p := (l, b)) (R := R) ys (hend₁.elim Or.inr fun h => Or.inl h.1)
    -- the record ends at the line feed unless it is the one empty field
    have hs' : Reader.Ended s' := by
      by_cases hys : ys = []
      · subst hys
        rw [hnil rfl]
        refine hend₁.resolve_right fun h => hne ?_
        rw [h.2]
      · exact hend hys
    refine ⟨l' + 1, b' + 1, ?_⟩
    rw [String.toList_append, toList_intercalate_comma, List.foldl_append, List.foldl_append, h₁,
      h₂]
    show List.foldl Reader.step _ ['\n'] = _
    rw [List.foldl_cons, List.foldl_nil, Reader.step_lineFeed hs', hfields, List.reverse_append,
      List.reverse_reverse, List.reverse_reverse, String.ofList_toList]
    rfl

/-- **A written record reads back as itself.** Every non-empty list of fields, written as
a record, is read as that one record, found at line `1` and byte `0`. -/
theorem rows_record {xs : List String} (hxs : xs ≠ []) : rows (record xs) = [⟨xs, 0, 1, 0⟩] := by
  obtain ⟨l', b', h⟩ := foldl_record hxs 1 0 []
  show ((record xs).toList.foldl Reader.step ⟨.startRecord, [], [], 1, 0, (1, 0), []⟩).finish = _
  rw [h]
  rfl

/-- Records written one after another, read from the start of a record, are added to the
records read in order. -/
theorem foldl_records {xss : List (List String)} (hxss : ∀ xs ∈ xss, xs ≠ []) (l b : Nat)
    (R : List Row) : ∃ l' b' R',
      (String.join (xss.map record)).toList.foldl Reader.step
        ⟨.startRecord, [], [], l, b, (l, b), R⟩ =
        ⟨.startRecord, [], [], l', b', (l', b'), R' ++ R⟩ ∧ R'.reverse.map Row.fields = xss := by
  induction xss generalizing l b R with
  | nil => exact ⟨l, b, [], rfl, rfl⟩
  | cons xs xss ih =>
    obtain ⟨l₁, b₁, h₁⟩ := foldl_record (hxss xs (List.mem_cons_self ..)) l b R
    obtain ⟨l', b', R', h₂, hfields⟩ :=
      ih (fun ys hys => hxss ys (List.mem_cons_of_mem xs hys)) l₁ b₁ (⟨xs, R.length, l, b⟩ :: R)
    refine ⟨l', b', R' ++ [⟨xs, R.length, l, b⟩], ?_, ?_⟩
    · rw [List.map_cons, String.join_cons, String.toList_append, List.foldl_append, h₁, h₂,
        List.append_assoc, List.singleton_append]
    · rw [List.reverse_append, List.map_append, hfields]
      rfl

/-- **Written records read back in order.** Records written one after another are read as
those records, their fields in order. -/
theorem rows_join_records {xss : List (List String)} (hxss : ∀ xs ∈ xss, xs ≠ []) :
    (rows (String.join (xss.map record))).map Row.fields = xss := by
  obtain ⟨l', b', R', h, hfields⟩ := foldl_records hxss 1 0 []
  show ((String.join (xss.map record)).toList.foldl Reader.step
    ⟨.startRecord, [], [], 1, 0, (1, 0), []⟩).finish.map Row.fields = _
  rw [h, List.append_nil]
  exact hfields

end Csv

end Seaway
