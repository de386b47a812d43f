import Mathlib.Data.List.Basic
import Peephole.Proofs.C.Syntax

/-!
# Proofs/C/Lexing — how pieces of text become tokens

`Spells text tokens` says that a piece of text is these tokens wherever a word may end after it.
Texts are taken apart from the left: a blank is dropped, a word goes up to the first character that
is none, and a punctuator is told by at most two characters.
-/

namespace Peephole.C

/-- Tokens in front of others, if those can be read. -/
def prepend (tokens : List Token) (more : Option (List Token)) : Option (List Token) :=
  more.map (tokens ++ ·)

@[simp] theorem prepend_some (tokens more : List Token) :
    prepend tokens (some more) = some (tokens ++ more) := rfl

@[simp] theorem prepend_prepend (first second : List Token) (more : Option (List Token)) :
    prepend first (prepend second more) = prepend (first ++ second) more := by
  cases more <;> simp [prepend]

@[simp] theorem prepend_nil (more : Option (List Token)) : prepend [] more = more := by
  cases more <;> rfl

/-- A word that stands before this text ends there. -/
def Ends (text : List Char) : Prop := ∀ c ∈ text.head?, isWordChar c = false

@[simp] theorem ends_nil : Ends [] := by simp [Ends]

@[simp] theorem ends_cons {c : Char} {text : List Char} :
    Ends (c :: text) ↔ isWordChar c = false := by simp [Ends]

/-- **The tokens of a piece of text.** -/
def Spells (text : List Char) (tokens : List Token) : Prop :=
  ∀ rest, Ends rest → lex (text ++ rest) = prepend tokens (lex rest)

/-! ## Blanks -/

@[simp] theorem lex_space (text : List Char) : lex (' ' :: text) = lex text := by
  rw [lex, if_pos (by decide)]

@[simp] theorem lex_newline (text : List Char) : lex ('\n' :: text) = lex text := by
  rw [lex, if_pos (by decide)]

/-! ## Words -/

theorem isBlank_of_isWordChar {c : Char} (h : isWordChar c = true) : isBlank c = false := by
  by_contra hb
  simp only [isBlank, Bool.or_eq_true, beq_iff_eq, Bool.not_eq_false] at hb
  rcases hb with ((rfl | rfl) | rfl) | rfl <;> exact absurd h (by decide)

theorem takeWhile_isWordChar {text : List Char} (h : Ends text) :
    text.takeWhile isWordChar = [] := by
  cases text with
  | nil => rfl
  | cons c text => simp [ends_cons.1 h]

theorem dropWhile_isWordChar {text : List Char} (h : Ends text) :
    text.dropWhile isWordChar = text := by
  cases text with
  | nil => rfl
  | cons c text => simp [ends_cons.1 h]

/-- **A word is one token.** -/
theorem lex_word {word text : List Char} (hne : word ≠ []) (hw : ∀ c ∈ word, isWordChar c = true)
    (ht : Ends text) : lex (word ++ text) = prepend [Token.ofWord word] (lex text) := by
  obtain ⟨c, word, rfl⟩ := List.exists_cons_of_ne_nil hne
  have hc : isWordChar c = true := hw c (by simp)
  have htail : ∀ d ∈ word, isWordChar d = true := fun d hd => hw d (by simp [hd])
  rw [List.cons_append, lex, isBlank_of_isWordChar hc, if_neg (by simp), if_pos hc,
    List.takeWhile_append_of_pos htail, List.dropWhile_append_of_pos htail,
    takeWhile_isWordChar ht, dropWhile_isWordChar ht, List.append_nil]
  rfl

/-- A text made of the characters of words, and of at least one. -/
structure IsWord (text : String) : Prop where
  nonempty : text.toList ≠ []
  chars : ∀ c ∈ text.toList, isWordChar c = true

theorem isWord_of_all {text : String} (hne : text.toList ≠ [])
    (hall : text.toList.all isWordChar = true) : IsWord text :=
  ⟨hne, List.all_eq_true.1 hall⟩

theorem IsWord.spells {text : String} (h : IsWord text) :
    Spells text.toList [Token.ofWord text.toList] :=
  fun _ hr => lex_word h.nonempty h.chars hr

/-- A word goes on with word characters. -/
theorem IsWord.append {first second : String} (h : IsWord first)
    (hs : ∀ c ∈ second.toList, isWordChar c = true) : IsWord (first ++ second) where
  nonempty := by simp [h.nonempty]
  chars c hc := by
    rw [String.toList_append, List.mem_append] at hc
    exact hc.elim (h.chars c) (hs c)

/-- A word that is a name of its own: it holds a character that no keyword has and does not start
with a digit. -/
theorem ofWord_eq_name {text : String} {c d : Char} (hc : c ∈ text.toList)
    (hk : ∀ entry ∈ keywords, c ∉ entry.1.toList) (hd : text.toList.head? = some d)
    (hdigit : d.isDigit = false) : Token.ofWord text.toList = .name text := by
  have hnone : keywords.lookup text = none := by
    rw [List.lookup_eq_none_iff]
    intro entry he
    refine bne_iff_ne.2 fun h => hk entry he ?_
    exact h ▸ hc
  rw [Token.ofWord, String.ofList_toList, hnone]
  simp [hd, hdigit]

/-! ## Punctuators -/

/-- Punctuation becomes its token, where neither a blank nor a word starts. -/
theorem lex_punct {c : Char} {text rest : List Char} {punct : Punct} (hb : isBlank c = false)
    (hw : isWordChar c = false) (h : scanPunct (c :: text) = some (punct, rest)) :
    lex (c :: text) = prepend [.punct punct] (lex rest) := by
  rw [lex, if_neg (by simp [hb]), if_neg (by simp [hw])]
  split
  · rename_i h'
    rw [h] at h'
    simp at h'
  · rename_i h'
    rw [h] at h'
    obtain ⟨rfl, rfl⟩ := Prod.mk.inj (Option.some.inj h')
    rfl

/-- A punctuator of one character that no punctuator of two starts with. -/
theorem lex_lone {c : Char} {punct : Punct} (hb : isBlank c = false) (hw : isWordChar c = false)
    (hs : singlePuncts.lookup c = some punct) (hd : ∀ entry ∈ doublePuncts, entry.1.1 ≠ c)
    (text : List Char) : lex (c :: text) = prepend [.punct punct] (lex text) := by
  refine lex_punct hb hw ?_
  cases text with
  | nil => simp [scanPunct, hs]
  | cons d text =>
    have hnone : doublePuncts.lookup (c, d) = none := by
      rw [List.lookup_eq_none_iff]
      intro entry he
      exact bne_iff_ne.2 fun h => hd entry he (congrArg Prod.fst h).symm
    simp [scanPunct, hs, hnone]

@[simp] theorem lex_lparen (text : List Char) :
    lex ('(' :: text) = prepend [.punct .lparen] (lex text) :=
  lex_lone (by decide) (by decide) rfl (by decide) text

@[simp] theorem lex_rparen (text : List Char) :
    lex (')' :: text) = prepend [.punct .rparen] (lex text) :=
  lex_lone (by decide) (by decide) rfl (by decide) text

@[simp] theorem lex_lbrace (text : List Char) :
    lex ('\x7b' :: text) = prepend [.punct .lbrace] (lex text) :=
  lex_lone (by decide) (by decide) rfl (by decide) text

@[simp] theorem lex_rbrace (text : List Char) :
    lex ('\x7d' :: text) = prepend [.punct .rbrace] (lex text) :=
  lex_lone (by decide) (by decide) rfl (by decide) text

@[simp] theorem lex_comma (text : List Char) :
    lex (',' :: text) = prepend [.punct .comma] (lex text) :=
  lex_lone (by decide) (by decide) rfl (by decide) text

@[simp] theorem lex_semicolon (text : List Char) :
    lex (';' :: text) = prepend [.punct .semicolon] (lex text) :=
  lex_lone (by decide) (by decide) rfl (by decide) text

/-- No punctuator goes on with a blank or a character of a word. -/
theorem lookup_doublePuncts {c d : Char} (h : isBlank d = true ∨ isWordChar d = true) :
    doublePuncts.lookup (c, d) = none := by
  rw [List.lookup_eq_none_iff]
  intro entry he
  have hd : isBlank entry.1.2 = false ∧ isWordChar entry.1.2 = false := by
    revert entry
    decide
  refine bne_iff_ne.2 fun heq => ?_
  obtain rfl : d = entry.1.2 := congrArg Prod.snd heq
  rcases h with h | h
  · simp [hd.1] at h
  · simp [hd.2] at h

/-- A punctuator of one character before a blank or a word. -/
theorem lex_single {c d : Char} {punct : Punct} {text : List Char} (hb : isBlank c = false)
    (hw : isWordChar c = false) (hs : singlePuncts.lookup c = some punct)
    (hd : isBlank d = true ∨ isWordChar d = true) :
    lex (c :: d :: text) = prepend [.punct punct] (lex (d :: text)) :=
  lex_punct hb hw (by simp [scanPunct, lookup_doublePuncts hd, hs])

/-- A punctuator of two characters. -/
theorem lex_double {c d : Char} {punct : Punct} {text : List Char} (hb : isBlank c = false)
    (hw : isWordChar c = false) (hd : doublePuncts.lookup (c, d) = some (some punct)) :
    lex (c :: d :: text) = prepend [.punct punct] (lex text) :=
  lex_punct hb hw (by simp [scanPunct, hd])

@[simp] theorem lex_assign (text : List Char) :
    lex ('=' :: ' ' :: text) = prepend [.punct .assign] (lex text) := by
  rw [lex_single (by decide) (by decide) rfl (by decide), lex_space]

@[simp] theorem lex_arrow (text : List Char) :
    lex ('-' :: '>' :: text) = prepend [.punct .arrow] (lex text) :=
  lex_double (by decide) (by decide) rfl

/-- An operator with a blank behind it is scanned whole, also where a shorter one starts the
same. -/
theorem scanPunct_token (op : Operator) (text : List Char) :
    scanPunct (op.token.toList ++ ' ' :: text) = some (.operator op, ' ' :: text) := by
  rcases op with op | op <;> cases op <;> rfl

theorem token_toList (op : Operator) :
    ∃ c rest, op.token.toList = c :: rest ∧ isBlank c = false ∧ isWordChar c = false := by
  rcases op with op | op <;> cases op <;> exact ⟨_, _, rfl, by decide, by decide⟩

/-- **An operator before a blank is itself.** -/
theorem lex_operator (op : Operator) (text : List Char) :
    lex (op.token.toList ++ ' ' :: text) = prepend [.punct (.operator op)] (lex text) := by
  have hscan := scanPunct_token op text
  obtain ⟨c, rest, htoken, hb, hw⟩ := token_toList op
  rw [htoken, List.cons_append] at hscan ⊢
  rw [lex_punct hb hw hscan, lex_space]

end Peephole.C
