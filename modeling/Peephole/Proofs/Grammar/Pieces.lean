import Peephole.Proofs.Grammar.Reading

/-!
# Proofs/Grammar/Pieces — a reading, piece by piece

A reading takes a text apart into pieces: characters that the grammar asks for, tokens, and the gaps
between them.  An `Account` of a reader lists these pieces.  It is put together as the reader is,
from the accounts of its parts, and carries the proof that its pieces are the text that was taken.

It carries another proof, about reserved words.  They are read as their characters, whatever follows
them, so a reserved word ends where its piece does only if the next piece starts with no character
of words (`Stands.whole`).  Two other things can follow at once: the identifier that `set`,
`pattern` and `case` are read before, and the `if` of an `else if`.
-/

namespace Peephole

/-- A piece of a text. -/
inductive SourcePiece where
  /-- The characters that the grammar asks for. -/
  | fixed (word : String)
  | token (symbol : Symbol) (chars : List Char)
  /-- Blanks and comments, or nothing. -/
  | gap (chars : List Char)
deriving DecidableEq, Repr

namespace SourcePiece

/-- The characters of a piece. -/
def chars : SourcePiece → List Char
  | fixed word => word.toList
  | token _ chars => chars
  | gap chars => chars

/-- The text that pieces are taken from. -/
def spell (pieces : List SourcePiece) : List Char := pieces.flatMap chars

@[simp] theorem spell_nil : spell [] = [] := rfl

@[simp] theorem spell_cons (piece : SourcePiece) (pieces : List SourcePiece) :
    spell (piece :: pieces) = piece.chars ++ spell pieces := rfl

@[simp] theorem spell_append (first second : List SourcePiece) :
    spell (first ++ second) = spell first ++ spell second := List.flatMap_append

/-- A word that stands before these pieces ends there. -/
def EndsWord (back : List SourcePiece) : Prop := NoMore isWordChar (spell back)

/-- **What stands behind a reserved word**: the end of a word, or at once what the grammar asks for
next. -/
inductive Stands : String → List SourcePiece → Prop where
  | whole {word : String} {back : List SourcePiece} (h : EndsWord back) : Stands word back
  | name {word : String} {chars : List Char} {back : List SourcePiece}
    (h : word ∈ ["set", "pattern", "case"]) :
    Stands word (.gap [] :: .token .identifier chars :: back)
  | elseIf {back : List SourcePiece} : Stands "else" (.gap [] :: .fixed "if" :: back)

/-- Behind each reserved word stands what may stand there. -/
def Apart : List SourcePiece → Prop
  | [] => True
  | .fixed word :: back => (word ∈ reservedWords → Stands word back) ∧ Apart back
  | _ :: back => Apart back

/-- A reserved word among the pieces is followed by what may stand there. -/
theorem Apart.stands {front back : List SourcePiece} {word : String}
    (h : Apart (front ++ .fixed word :: back)) (hword : word ∈ reservedWords) :
    Stands word back := by
  induction front with
  | nil => exact h.1 hword
  | cons piece front ih =>
    cases piece with
    | fixed => exact ih h.2
    | token | gap => exact ih h

end SourcePiece

open SourcePiece

/-! ## What was taken -/

/-- The characters of a text before its rest. -/
def taken (text rest : List Char) : List Char := text.take (text.length - rest.length)

theorem taken_append {text rest : List Char} (h : rest <:+ text) :
    taken text rest ++ rest = text := by
  obtain ⟨front, rfl⟩ := h
  simp [taken]

/-- What is left behind a gap is an end of the text, also where a comment is not closed. -/
theorem dropGap_suffix_of (gap : Gap) (text whole : List Char) (htext : text <:+ whole)
    (hopening : gap.opening <:+ whole) : dropGap gap text <:+ whole := by
  have hcons : ∀ {c : Char} {more : List Char}, c :: more <:+ whole → more <:+ whole :=
    fun h => (List.suffix_cons _ _).trans h
  fun_induction dropGap gap text with
  | case1 text ih => exact ih (hcons (hcons htext)) (List.nil_suffix ..)
  | case2 text ih => exact ih (hcons (hcons htext)) htext
  | case3 c text _ _ _ ih => exact ih (hcons htext) (List.nil_suffix ..)
  | case4 => exact htext
  | case5 => exact List.nil_suffix ..
  | case6 text ih => exact ih (hcons htext) (List.nil_suffix ..)
  | case7 c text _ ih => exact ih (hcons htext) (List.nil_suffix ..)
  | case8 => exact List.nil_suffix ..
  | case9 opening text ih => exact ih (hcons (hcons htext)) (List.nil_suffix ..)
  | case10 opening c text _ ih => exact ih (hcons htext) hopening
  | case11 => exact hopening

theorem dropGap_suffix (text : List Char) : dropGap .blanks text <:+ text :=
  dropGap_suffix_of .blanks text text List.suffix_rfl (List.nil_suffix ..)

/-- The gap at the front of a text. -/
def gapAt (text : List Char) : List Char := taken text (dropGap .blanks text)

theorem gapAt_append (text : List Char) : gapAt text ++ dropGap .blanks text = text :=
  taken_append (dropGap_suffix text)

/-- **No word goes on into a gap.** -/
theorem endsWord_gap {text : List Char} (h : gapAt text ≠ []) (back : List SourcePiece) :
    EndsWord (.gap (gapAt text) :: back) := by
  have hsplit := gapAt_append text
  obtain ⟨c, more, hgap⟩ := List.exists_cons_of_ne_nil h
  rw [hgap, List.cons_append] at hsplit
  rw [hgap]
  refine noMore_cons ?_ (more ++ spell back)
  -- before a character of words there is no gap
  by_contra hword
  refine h ?_
  rw [gapAt, ← hsplit, settled_of_isWordChar (by simpa using hword)]
  simp [taken]

/-! ## Accounts -/

/-- Wherever pieces stand. -/
abbrev Anywhere : List SourcePiece → Prop := fun _ => True

/-- **The pieces that a reader takes**, where pieces follow that fulfil a condition. -/
structure Account {α : Type} (reader : Reader α) (Follows : List SourcePiece → Prop) where
  pieces : List Char → List SourcePiece
  spells : ∀ {text : List Char} {value : α} {rest : List Char},
    reader.read text = some (value, rest) → text = spell (pieces text) ++ rest
  apart : ∀ {text : List Char} {value : α} {rest : List Char},
    reader.read text = some (value, rest) →
      ∀ back, Follows back → Apart back → Apart (pieces text ++ back)

namespace Account

variable {α β : Type} {Follows Mid : List SourcePiece → Prop} {reader : Reader α}
  {readers : α → Reader β}

/-- Nothing is taken where nothing is read. -/
protected def pure (value : α) : Account (pure value) Follows where
  pieces _ := []
  spells h := by
    cases h
    rfl
  apart _ _ _ h := h

/-- A reader that never succeeds has nothing to account for. -/
protected def failure : Account (failure : Reader α) Follows where
  pieces _ := []
  spells h := by cases h
  apart h := by cases h

/-- The account of fixed characters, which may be those of a reserved word. -/
def text (word : String)
    (hword : word ∈ reservedWords → ∀ back, Follows back → Stands word back) :
    Account (Reader.text word) Follows where
  pieces _ := [.fixed word]
  spells h := by
    obtain ⟨rest, hrest, heq⟩ := Option.map_eq_some_iff.1 h
    obtain ⟨-, rfl⟩ := Prod.mk.inj heq
    simpa [SourcePiece.chars] using dropStart_eq_some_iff.1 hrest
  apart _ back hback happart := ⟨fun hmem => hword hmem back hback, happart⟩

/-- A gap is one piece. -/
def gap : Account Reader.gap Follows where
  pieces text := [.gap (gapAt text)]
  spells {text} _ _ h := by
    cases h
    simpa [SourcePiece.chars] using (gapAt_append text).symm
  apart _ _ _ h := h

/-- A token is one piece, whatever characters the scanner takes. -/
def token (symbol : Symbol) {scan : List Char → Option (α × List Char)}
    (hscan : ∀ text value rest, scan text = some (value, rest) → rest <:+ text) :
    Account (Reader.token symbol scan) Follows where
  pieces text :=
    match scan text with
    | none => []
    | some (_, rest) => [.token symbol (taken text rest)]
  spells {text value rest} h := by
    have hread : scan text = some (value, rest) := h
    simpa [hread, SourcePiece.chars] using (taken_append (hscan _ _ _ hread)).symm
  apart {text value rest} h := by
    have hread : scan text = some (value, rest) := h
    simp only [hread]
    exact fun _ _ happart => happart

/-- One account after another.  What is taken second follows the first. -/
protected def bind (first : Account reader Mid) (next : ∀ value, Account (readers value) Follows)
    (hmid : ∀ value text result rest, (readers value).read text = some (result, rest) →
      ∀ back, Follows back → Mid ((next value).pieces text ++ back)) :
    Account (reader >>= readers) Follows where
  pieces text :=
    match reader.read text with
    | none => []
    | some (value, rest) => first.pieces text ++ (next value).pieces rest
  spells {text result rest} h := by
    rw [Reader.read_bind, Option.bind_eq_some_iff] at h
    obtain ⟨⟨value, mid⟩, hfirst, hnext⟩ := h
    simp only [hfirst, spell_append, List.append_assoc, ← (next value).spells hnext]
    exact first.spells hfirst
  apart {text result rest} h back hback happart := by
    rw [Reader.read_bind, Option.bind_eq_some_iff] at h
    obtain ⟨⟨value, mid⟩, hfirst, hnext⟩ := h
    simp only [hfirst, List.append_assoc]
    -- behind the first stand the pieces of the second, and then what follows both
    exact first.apart hfirst _ (hmid value _ _ _ hnext back hback)
      ((next value).apart hnext back hback happart)

/-- One account after another, the first of which may stand anywhere. -/
protected def andThen (first : Account reader Anywhere)
    (next : ∀ value, Account (readers value) Follows) : Account (reader >>= readers) Follows :=
  first.bind next fun _ _ _ _ _ _ _ => trivial

/-- The pieces of whichever reader succeeds. -/
protected def orElse {other : Reader α} (first : Account reader Follows)
    (second : Account other Follows) : Account (reader <|> other) Follows where
  pieces text :=
    match reader.read text with
    | none => second.pieces text
    | some _ => first.pieces text
  spells {text value rest} h := by
    rw [Reader.read_orElse, Option.or_eq_some_iff] at h
    obtain hfirst | ⟨hfirst, hsecond⟩ := h
    · simp only [hfirst]
      exact first.spells hfirst
    · simp only [hfirst]
      exact second.spells hsecond
  apart {text value rest} h := by
    rw [Reader.read_orElse, Option.or_eq_some_iff] at h
    obtain hfirst | ⟨hfirst, hsecond⟩ := h
    · simp only [hfirst]
      exact first.apart hfirst
    · simp only [hfirst]
      exact second.apart hsecond

/-- A name for a reader changes no piece. -/
def named (symbol : Symbol) (account : Account reader Follows) :
    Account (Reader.named symbol reader) Follows :=
  ⟨account.pieces, account.spells, account.apart⟩

/-- The pieces at the depth that the text allows. -/
def nested {readers : Nat → Reader α} (account : ∀ depth, Account (readers depth) Follows) :
    Account (Reader.nested readers) Follows where
  pieces text := (account (text.length + 1)).pieces text
  spells h := (account _).spells h
  apart h := (account _).apart h

/-! ## Repetition -/

/-- The pieces of as many values as stand one after the other. -/
def manyPieces (account : Account reader Anywhere) : Nat → List Char → List SourcePiece
  | 0, _ => []
  | rounds + 1, text =>
    match reader.read text with
    | none => []
    | some (_, rest) => account.pieces text ++ manyPieces account rounds rest

/-- The pieces of repetitions spell what they take. -/
theorem spell_manyPieces (account : Account reader Anywhere) (rounds : Nat) (text : List Char) :
    text = spell (account.manyPieces rounds text) ++ (Reader.readMany reader rounds text).2 := by
  induction rounds generalizing text with
  | zero => rfl
  | succ rounds ih =>
    rw [manyPieces]
    cases hread : reader.read text with
    | none => rw [Reader.readMany_of_refused hread]; rfl
    | some result =>
      obtain ⟨value, rest⟩ := result
      rw [Reader.readMany_of_taken hread]
      simp only [spell_append, List.append_assoc, ← ih rest]
      exact account.spells hread

/-- The pieces of repetitions are apart, whatever stands behind them. -/
theorem apart_manyPieces (account : Account reader Anywhere) (rounds : Nat) (text : List Char)
    {back : List SourcePiece} (h : Apart back) :
    Apart (account.manyPieces rounds text ++ back) := by
  induction rounds generalizing text with
  | zero => exact h
  | succ rounds ih =>
    rw [manyPieces]
    cases hread : reader.read text with
    | none => exact h
    | some result =>
      simp only [List.append_assoc]
      exact account.apart hread _ trivial (ih result.2)

/-- The pieces of all repetitions, one after the other. -/
def many (account : Account reader Anywhere) : Account (Reader.many reader) Follows where
  pieces text := account.manyPieces (text.length + 1) text
  spells {text value rest} h := by
    have hread := congrArg Prod.snd (Option.some.inj h)
    rw [← show (Reader.readMany reader (text.length + 1) text).2 = rest from hread]
    exact account.spell_manyPieces _ text
  apart {text _ _} _ _ _ happart := account.apart_manyPieces _ text happart

/-! ## The first piece -/

/-- An account whose first piece is of a kind. -/
def Leads (account : Account reader Follows) (First : SourcePiece → Prop) : Prop :=
  ∀ text value rest, reader.read text = some (value, rest) →
    ∃ first more, account.pieces text = first :: more ∧ First first

section Leads

variable {First : SourcePiece → Prop} {first : Account reader Mid}
  {next : ∀ value, Account (readers value) Follows}
  {hmid : ∀ value text result rest, (readers value).read text = some (result, rest) →
      ∀ back, Follows back → Mid ((next value).pieces text ++ back)}

/-- The pieces of a sequence are those of its first reader, then those of the next one. -/
theorem pieces_bind {text rest : List Char} {value : α}
    (h : reader.read text = some (value, rest)) :
    (first.bind next hmid).pieces text = first.pieces text ++ (next value).pieces rest := by
  simp only [Account.bind, h]

/-- A sequence starts with the piece that its first reader starts with. -/
theorem Leads.bind (h : first.Leads First) : (first.bind next hmid).Leads First := by
  intro text result rest hread
  rw [Reader.read_bind, Option.bind_eq_some_iff] at hread
  obtain ⟨⟨value, mid⟩, hfirst, -⟩ := hread
  obtain ⟨piece, more, hpieces, hpiece⟩ := h _ _ _ hfirst
  exact ⟨piece, _, by rw [pieces_bind hfirst, hpieces, List.cons_append], hpiece⟩

theorem Leads.andThen {first : Account reader Anywhere} (h : first.Leads First) :
    (first.andThen next).Leads First := h.bind

theorem Leads.named {account : Account reader Follows} (h : account.Leads First)
    (symbol : Symbol) : (named symbol account).Leads First := h

theorem leads_text {word : String}
    (hword : word ∈ reservedWords → ∀ back, Follows back → Stands word back) :
    (text word hword).Leads (· = .fixed word) :=
  fun _ _ _ _ => ⟨.fixed word, [], rfl, rfl⟩

/-- A token starts with itself. -/
theorem leads_token {symbol : Symbol} {scan : List Char → Option (α × List Char)}
    (hscan : ∀ text value rest, scan text = some (value, rest) → rest <:+ text) :
    (token symbol hscan : Account _ Follows).Leads (∃ chars, · = .token symbol chars) := by
  intro text value rest h
  have hread : scan text = some (value, rest) := h
  exact ⟨.token symbol (taken text rest), [], by simp only [token, hread], _, rfl⟩

end Leads

/-! ## Behind a reserved word -/

section Stands

variable {account : Account reader Follows} {word : String}

/-- What holds where words end, and where no gap is left before the next piece, holds behind every
word that is read before a gap. -/
theorem behind_gap {First : SourcePiece → Prop} {Holds : List SourcePiece → Prop}
    (h : account.Leads First) (hends : ∀ back, EndsWord back → Holds back)
    (hfirst : ∀ first more, First first → Holds (.gap [] :: first :: more)) (text : List Char)
    (value : α) (rest : List Char)
    (hread : (Reader.gap >>= fun _ => reader).read text = some (value, rest))
    (back : List SourcePiece) : Holds ((gap.andThen fun _ => account).pieces text ++ back) := by
  rw [Reader.read_bind, Reader.read_gap, Option.bind_some] at hread
  obtain ⟨first, more, hpieces, his⟩ := h _ _ _ hread
  rw [Account.andThen, pieces_bind (Reader.read_gap text), hpieces]
  show Holds (.gap (gapAt text) :: first :: (more ++ back))
  by_cases hgap : gapAt text = []
  · rw [hgap]
    exact hfirst first _ his
  · exact hends _ (endsWord_gap hgap _)

/-- A punctuator ends a word. -/
theorem endsWord_of_symbol {punctuator : String} (h : account.Leads (· = .fixed punctuator))
    (hends : punctuator.toList.head?.any (!isWordChar ·) = true) (text : List Char) (value : α)
    (rest : List Char) (hread : (Reader.gap >>= fun _ => reader).read text = some (value, rest))
    (back : List SourcePiece) : EndsWord ((gap.andThen fun _ => account).pieces text ++ back) := by
  refine behind_gap h (fun _ => id) (fun first more hfirst => ?_) text value rest hread back
  obtain ⟨c, hc, hword⟩ := (Option.any_eq_true _ _).1 hends
  obtain ⟨chars, hchars⟩ := List.head?_eq_some_iff.1 hc
  simpa [EndsWord, NoMore, SourcePiece.chars, hfirst, hchars] using hword

/-- Behind a reserved word with a gap and a punctuation mark, the word has ended. -/
theorem stands_of_symbol {punctuator : String} (h : account.Leads (· = .fixed punctuator))
    (hends : punctuator.toList.head?.any (!isWordChar ·) = true) (text : List Char) (value : α)
    (rest : List Char) (hread : (Reader.gap >>= fun _ => reader).read text = some (value, rest))
    (back : List SourcePiece) : Stands word ((gap.andThen fun _ => account).pieces text ++ back) :=
  .whole (endsWord_of_symbol h hends text value rest hread back)

/-- An identifier may stand at once behind the words that are read before one. -/
theorem stands_of_identifier (hword : word ∈ ["set", "pattern", "case"])
    (h : account.Leads (∃ chars, · = .token .identifier chars)) (text : List Char) (value : α)
    (rest : List Char) (hread : (Reader.gap >>= fun _ => reader).read text = some (value, rest))
    (back : List SourcePiece) :
    Stands word ((gap.andThen fun _ => account).pieces text ++ back) := by
  refine behind_gap h (fun _ => .whole) (fun first more hfirst => ?_) text value rest hread back
  obtain ⟨chars, rfl⟩ := hfirst
  exact .name hword

/-- So may `if` behind `else`. -/
theorem stands_of_if (h : account.Leads (· = .fixed "if")) (text : List Char) (value : α)
    (rest : List Char) (hread : (Reader.gap >>= fun _ => reader).read text = some (value, rest))
    (back : List SourcePiece) :
    Stands "else" ((gap.andThen fun _ => account).pieces text ++ back) := by
  refine behind_gap h (fun _ => .whole) (fun first more hfirst => ?_) text value rest hread back
  rw [hfirst]
  exact .elseIf

end Stands

end Account

end Peephole
