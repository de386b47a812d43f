import Peephole.Grammar.Program
import Peephole.Proofs.Grammar.Lexeme

/-!
# Proofs/Grammar/Reading — reading a given text, step by step

A reader is run on a text by taking its parts one after the other: `read_then` is one step, and
`read_text`, `read_identifier`, `read_series` and so on are what the parts take.  Between two parts
there may be a gap; where a part starts with a character that opens none (`Solid`), there is nothing
to drop.

Choice is ordered, so a text has to be refused by the alternatives before its own.  A name may start
with a reserved word, and it is refused one character later than the word itself
(`IsIdentifier.refused`).
-/

namespace Peephole

/-! ## Texts that start in no gap -/

/-- A text at the front of which no gap is left. -/
def Settled (text : List Char) : Prop := dropGap .blanks text = text

/-- A text that starts in no gap, whatever follows it. -/
def Solid (text : List Char) : Prop := ∀ rest, Settled (text ++ rest)

theorem settled_nil : Settled [] := rfl

theorem settled_cons {c : Char} (h : isBlank c = false) (hc : c ≠ '/') (text : List Char) :
    Settled (c :: text) := dropGap_of_plain h hc text

theorem solid_cons {c : Char} (h : isBlank c = false) (hc : c ≠ '/') (text : List Char) :
    Solid (c :: text) := fun rest => settled_cons h hc (text ++ rest)

theorem Solid.append {text : List Char} (h : Solid text) (more : List Char) :
    Solid (text ++ more) := fun rest => by
  rw [List.append_assoc]
  exact h (more ++ rest)

theorem Solid.ne_nil {text : List Char} (h : Solid text) : text ≠ [] := by
  rintro rfl
  have hblank : dropGap .blanks [' '] = [' '] := h [' ']
  exact absurd hblank (by decide)

theorem IsIdentifier.solid {name : String} (h : IsIdentifier name) : Solid name.toList :=
  h.dropGap_append

theorem IsInteger.solid {number : String} (h : IsInteger number) : Solid number.toList :=
  h.dropGap_append

theorem settled_of_isWordChar {c : Char} (h : isWordChar c = true) (text : List Char) :
    Settled (c :: text) := by
  refine settled_cons (C.isBlank_of_isWordChar h) ?_ text
  rintro rfl
  exact absurd h (by decide)

theorem noMore_cons {p : Char → Bool} {c : Char} (h : p c = false) (text : List Char) :
    NoMore p (c :: text) := by
  rintro _ ⟨⟩
  exact h

/-! ## Steps -/

namespace Reader

variable {α β : Type} {reader : Reader α} {next : α → Reader β} {text rest : List Char} {value : α}
  {out : Option (β × List Char)}

theorem read_then (h : reader.read text = some (value, rest))
    (hnext : (next value).read rest = out) : (reader >>= next).read text = out := by
  rw [read_bind, h]
  exact hnext

theorem read_stop (h : reader.read text = none) : (reader >>= next).read text = none := by
  rw [read_bind, h]
  rfl

theorem read_text (expected : String) (rest : List Char) :
    (Reader.text expected).read (expected.toList ++ rest) = some ((), rest) := by
  rw [Reader.text, read_silent, dropStart_eq_some_iff.2 rfl]
  rfl

theorem read_gap (text : List Char) : gap.read text = some ((), dropGap .blanks text) := rfl

/-- No gap. -/
theorem read_gap_of_settled (h : Settled text) : gap.read text = some ((), text) := by
  rw [read_gap, h]

/-- One blank. -/
theorem read_gap_blank (h : Settled text) : gap.read (' ' :: text) = some ((), text) := by
  rw [read_gap, dropGap_blank rfl, h]

/-- One character. -/
theorem read_char {expected : String} {c : Char} (h : expected.toList = [c]) (rest : List Char) :
    (Reader.text expected).read (c :: rest) = some ((), rest) := by
  rw [Reader.text, read_silent, dropStart_eq_some_iff.2 (by rw [h, List.singleton_append])]
  rfl

theorem read_text_refused {expected : String} {c d : Char} {more : List Char}
    (hexpected : expected.toList = d :: more) (h : d ≠ c) (rest : List Char) :
    (Reader.text expected).read (c :: rest) = none := by
  rw [Reader.text, read_silent, hexpected, dropStart, if_neg h]
  rfl

theorem read_identifier {name : String} (h : IsIdentifier name) (hrest : NoMore isWordChar rest) :
    identifier.read (name.toList ++ rest) = some (name, rest) :=
  scanIdentifier_eq_some_iff.2 ⟨rfl, h, hrest⟩

theorem read_orElse_left {second : Reader α} {result : α × List Char}
    (h : reader.read text = some result) : (reader <|> second).read text = some result := by
  rw [read_orElse, h, Option.some_or]

theorem read_orElse_right {second : Reader α} (h : reader.read text = none) :
    (reader <|> second).read text = second.read text := by
  rw [read_orElse, h, Option.none_or]

theorem read_optional_some (h : reader.read text = some (value, rest)) :
    (optional? reader).read text = some (some value, rest) :=
  read_orElse_left (read_then h rfl)

theorem read_optional_none (h : reader.read text = none) :
    (optional? reader).read text = some (none, text) :=
  read_orElse_right (read_stop h)

end Reader

/-! ## Lists -/

/-- The reader takes the text for the value, wherever it stands before what may follow it. -/
def Reads {α : Type} (reader : Reader α) (text : List Char) (value : α)
    (Follows : List Char → Prop) : Prop :=
  ∀ rest, Follows rest → reader.read (text ++ rest) = some (value, rest)

/-- Texts with a separator between them. -/
theorem intercalate_cons (separator first : List Char) (texts : List (List Char)) :
    separator.intercalate (first :: texts) = first ++ texts.flatMap (separator ++ ·) := by
  induction texts generalizing first with
  | nil => simp [List.intercalate]
  | cons text texts ih =>
    rw [List.flatMap_cons, List.append_assoc, ← ih text]
    simp [List.intercalate]

/-- Texts in parentheses, with commas between them. -/
def inParentheses (texts : List (List Char)) : List Char :=
  '(' :: ([','].intercalate texts ++ [')'])

/-- Texts in braces, one after the other. -/
def inBraces (texts : List (List Char)) : List Char := '\x7b' :: (texts.flatten ++ ['\x7d'])

section Lists

variable {α : Type} {item : Reader α} {Follows : List Char → Prop} {values : List α}
  (separator : List Char) (spell : α → List Char)

/-- What follows a list is its next item, or what follows the whole list. -/
theorem follows_flatMap
    (hnext : ∀ value ∈ values, ∀ rest, Follows (separator ++ spell value ++ rest))
    {rest : List Char} (hrest : Follows rest) :
    Follows (values.flatMap (separator ++ spell ·) ++ rest) := by
  rcases values with _ | ⟨value, values⟩
  · exact hrest
  · rw [List.flatMap_cons, List.append_assoc]
    exact hnext value List.mem_cons_self _

/-- A list has no more items than characters, which bounds the rounds it takes to read. -/
theorem length_le_flatMap (hsolid : ∀ value ∈ values, Solid (spell value)) :
    values.length ≤ (values.flatMap (separator ++ spell ·)).length := by
  induction values with
  | nil => exact Nat.zero_le _
  | cons value values ih =>
    obtain ⟨hsolid, hsolids⟩ := List.forall_mem_cons.1 hsolid
    have hpos := List.length_pos_iff.2 hsolid.ne_nil
    have hle := ih hsolids
    simp only [List.flatMap_cons, List.length_append, List.length_cons]
    omega

namespace Reader

/-- **As many as there are**, each behind a separator, up to where no more can be read. -/
theorem readMany_eq (hgap : IsGap separator) (hsolid : ∀ value ∈ values, Solid (spell value))
    (hitem : ∀ value ∈ values, Reads item (spell value) value Follows)
    (hnext : ∀ value ∈ values, ∀ rest, Follows (separator ++ spell value ++ rest))
    {rest : List Char} (hrest : Follows rest) (hend : (do gap; item : Reader α).read rest = none)
    (rounds : Nat) (hrounds : values.length < rounds) :
    readMany (do gap; item) rounds (values.flatMap (separator ++ spell ·) ++ rest)
      = (values, rest) := by
  induction values generalizing rounds with
  | nil => exact readMany_of_refused hend rounds
  | cons value values ih =>
    obtain ⟨rounds, rfl⟩ : ∃ n, rounds = n + 1 := ⟨rounds - 1, by simp at hrounds; omega⟩
    obtain ⟨hsolid, hsolids⟩ := List.forall_mem_cons.1 hsolid
    obtain ⟨hitem, hitems⟩ := List.forall_mem_cons.1 hitem
    obtain ⟨-, hnexts⟩ := List.forall_mem_cons.1 hnext
    have hread : (do gap; item : Reader α).read
        (separator ++ (spell value ++ (values.flatMap (separator ++ spell ·) ++ rest)))
          = some (value, values.flatMap (separator ++ spell ·) ++ rest) := by
      refine read_then (read_gap _) ?_
      rw [hgap.dropGap_append, hsolid]
      exact hitem _ (follows_flatMap separator spell hnexts hrest)
    rw [List.flatMap_cons, List.append_assoc, List.append_assoc, readMany_of_taken hread,
      ih hsolids hitems hnexts rounds (by simpa using hrounds)]

/-- A series, once the gap before it is dropped. -/
theorem read_series (hgap : IsGap separator) (hsolid : ∀ value ∈ values, Solid (spell value))
    (hitem : ∀ value ∈ values, Reads item (spell value) value Follows)
    (hnext : ∀ value ∈ values, ∀ rest, Follows (separator ++ spell value ++ rest))
    {rest : List Char} (hrest : Follows rest) (hsettled : Settled rest)
    (hend : item.read rest = none) :
    (series item).read (dropGap .blanks (values.flatMap (separator ++ spell ·) ++ rest))
      = some (values, rest) := by
  rcases values with _ | ⟨value, values⟩
  · rw [List.flatMap_nil, List.nil_append, hsettled]
    exact read_orElse_right (read_stop hend)
  · obtain ⟨hsolid, hsolids⟩ := List.forall_mem_cons.1 hsolid
    obtain ⟨hitem, hitems⟩ := List.forall_mem_cons.1 hitem
    obtain ⟨-, hnexts⟩ := List.forall_mem_cons.1 hnext
    have hrefused : (do gap; item : Reader α).read rest = none :=
      read_then (read_gap_of_settled hsettled) hend
    have hlength := length_le_flatMap separator spell hsolids
    have hmany := readMany_eq separator spell hgap hsolids hitems hnexts hrest hrefused
      ((values.flatMap (separator ++ spell ·) ++ rest).length + 1)
      (by rw [List.length_append]; omega)
    rw [List.flatMap_cons, List.append_assoc, List.append_assoc, hgap.dropGap_append, hsolid]
    refine read_orElse_left (read_then (hitem _ (follows_flatMap separator spell hnexts hrest)) ?_)
    exact read_then ((read_many _ _).trans (congrArg some hmany)) rfl

end Reader

namespace Reader

/-- **A list with commas**, before something else than a comma. -/
theorem read_commaSeparated (hne : values ≠ [])
    (hsolid : ∀ value ∈ values, Solid (spell value))
    (hitem : ∀ value ∈ values, Reads item (spell value) value Follows)
    (hcomma : ∀ rest, Follows (',' :: rest)) {c : Char} {rest : List Char}
    (hrest : Follows (c :: rest)) (hc : ',' ≠ c) (hsettled : Settled (c :: rest)) :
    (commaSeparated item).read ([','].intercalate (values.map spell) ++ c :: rest)
      = some (values, c :: rest) := by
  obtain ⟨value, values, rfl⟩ := List.exists_cons_of_ne_nil hne
  obtain ⟨hsolid, hsolids⟩ := List.forall_mem_cons.1 hsolid
  obtain ⟨hitem, hitems⟩ := List.forall_mem_cons.1 hitem
  have hmore : ∀ next ∈ values,
      Reads (do text ","; gap; item) (',' :: spell next) next Follows := by
    intro next hmem rest hrest
    refine read_then (read_char rfl _) (read_then (read_gap_of_settled (hsolids next hmem _)) ?_)
    exact hitems next hmem rest hrest
  have hseries := read_series [] (',' :: spell ·) .nil (fun _ _ => solid_cons rfl (by decide) _)
    hmore (fun _ _ _ => hcomma _) hrest hsettled (read_stop (read_text_refused rfl hc rest))
  rw [List.map_cons, intercalate_cons, List.flatMap_map, List.append_assoc]
  refine read_then (hitem _ (follows_flatMap [','] spell (fun _ _ _ => hcomma _) hrest)) ?_
  exact read_then (read_gap _) (read_then hseries rfl)

/-- **A list in parentheses.** -/
theorem read_parenthesized (hsolid : ∀ value ∈ values, Solid (spell value))
    (hitem : ∀ value ∈ values, Reads item (spell value) value Follows)
    (hcomma : ∀ rest, Follows (',' :: rest)) (hclose : ∀ rest, Follows (')' :: rest))
    (hempty : ∀ rest, item.read (')' :: rest) = none) (rest : List Char) :
    (parenthesized item).read (inParentheses (values.map spell) ++ rest) = some (values, rest) := by
  have hsettled : Settled (')' :: rest) := settled_cons rfl (by decide) rest
  rw [inParentheses, List.cons_append, List.append_assoc, List.singleton_append]
  refine read_then (read_char rfl _) ?_
  rcases values with _ | ⟨value, values⟩
  · refine read_then (read_gap_of_settled hsettled) ?_
    refine read_then (read_optional_none (read_stop (hempty rest))) ?_
    exact read_then (read_gap_of_settled hsettled) (read_then (read_char rfl rest) rfl)
  · have hlist := read_commaSeparated spell (List.cons_ne_nil value values) hsolid hitem hcomma
      (hclose rest) (by decide) hsettled
    have hstart : Settled ([','].intercalate ((value :: values).map spell) ++ ')' :: rest) := by
      rw [List.map_cons, intercalate_cons, List.append_assoc]
      exact hsolid value List.mem_cons_self _
    refine read_then (read_gap_of_settled hstart) (read_then (read_optional_some hlist) ?_)
    exact read_then (read_gap_of_settled hsettled) (read_then (read_char rfl rest) rfl)

/-- **A list in braces.** -/
theorem read_braced (hsolid : ∀ value ∈ values, Solid (spell value))
    (hitem : ∀ value ∈ values, Reads item (spell value) value Follows)
    (hnext : ∀ value ∈ values, ∀ rest, Follows (spell value ++ rest))
    (hclose : ∀ rest, Follows ('\x7d' :: rest)) (hempty : ∀ rest, item.read ('\x7d' :: rest) = none)
    (rest : List Char) :
    (braced item).read (inBraces (values.map spell) ++ rest) = some (values, rest) := by
  have hsettled : Settled ('\x7d' :: rest) := settled_cons rfl (by decide) rest
  rw [inBraces, List.cons_append, List.append_assoc, List.singleton_append, ← List.flatMap_def]
  have hseries := read_series [] spell .nil hsolid hitem hnext (hclose rest) hsettled (hempty rest)
  refine read_then (read_char rfl _) (read_then (read_gap _) (read_then hseries ?_))
  exact read_then (read_gap_of_settled hsettled) (read_then (read_char rfl rest) rfl)

end Reader

end Lists

/-! ## Names that start with a reserved word -/

/-- A word at the front of a longer one. -/
theorem exists_of_dropStart_word {keyword word rest remaining : List Char}
    (hkeyword : ∀ c ∈ keyword, isWordChar c = true) (hrest : NoMore isWordChar rest)
    (h : dropStart keyword (word ++ rest) = some remaining) :
    ∃ more, word = keyword ++ more ∧ remaining = more ++ rest := by
  obtain ⟨more, hmore, htail⟩ | ⟨more, hmore, htail⟩ :=
    List.append_eq_append_iff.1 (dropStart_eq_some_iff.1 h)
  · rcases more with _ | ⟨c, more⟩
    · exact ⟨[], by simpa using hmore.symm, by simpa using htail.symm⟩
    · have hc := hkeyword c (by simp [hmore])
      rw [hrest c (by simp [htail])] at hc
      cases hc
  · exact ⟨more, hmore, htail⟩

theorem isWordChar_of_reserved {keyword : String} (h : keyword ∈ reservedWords) :
    ∀ c ∈ keyword.toList, isWordChar c = true := by
  have hall : (reservedWords.all (·.toList.all isWordChar)) = true := by decide
  exact List.all_eq_true.1 (List.all_eq_true.1 hall keyword h)

/-- What is left of a name behind a reserved word starts with a character of words. -/
theorem IsIdentifier.exists_of_dropStart {name : String} (h : IsIdentifier name) {keyword : String}
    (hkeyword : keyword ∈ reservedWords) {rest remaining : List Char}
    (hrest : NoMore isWordChar rest)
    (hdrop : dropStart keyword.toList (name.toList ++ rest) = some remaining) :
    ∃ c more, name.toList = keyword.toList ++ c :: more ∧ remaining = c :: more ++ rest ∧
      isWordChar c = true := by
  obtain ⟨more, hname, rfl⟩ :=
    exists_of_dropStart_word (isWordChar_of_reserved hkeyword) hrest hdrop
  rcases more with _ | ⟨c, more⟩
  · rw [List.append_nil, String.toList_inj] at hname
    exact absurd (hname ▸ hkeyword) h.unreserved
  · exact ⟨c, more, hname, rfl, h.chars c (by simp [hname])⟩

/-- **A name is not taken for a reserved word and what must follow it.** -/
theorem IsIdentifier.refused {α : Type} {name : String} (h : IsIdentifier name) {keyword : String}
    (hkeyword : keyword ∈ reservedWords) {rest : List Char} (hrest : NoMore isWordChar rest)
    {next : Reader α}
    (hnext : ∀ c more, isWordChar c = true → next.read (c :: more) = none) :
    (do Reader.text keyword; Reader.gap; next : Reader α).read (name.toList ++ rest) = none := by
  cases hdrop : dropStart keyword.toList (name.toList ++ rest) with
  | none => exact Reader.read_stop (by rw [Reader.text, Reader.read_silent, hdrop]; rfl)
  | some remaining =>
    obtain ⟨c, more, -, rfl, hc⟩ := h.exists_of_dropStart hkeyword hrest hdrop
    refine Reader.read_then (by rw [Reader.text, Reader.read_silent, hdrop]; rfl) ?_
    exact Reader.read_then (Reader.read_gap_of_settled (settled_of_isWordChar hc _)) (hnext c _ hc)

end Peephole
