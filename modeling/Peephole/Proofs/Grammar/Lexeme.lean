import Mathlib.Data.List.Infix
import Mathlib.Data.List.TakeWhile
import Peephole.Proofs.C.Lexing
import Peephole.Proofs.Names

/-!
# Proofs/Grammar/Lexeme — gaps, words and numbers

A gap is a run of blanks and closed comments, and reading drops all of it (`IsGap.dropGap_append`).
A separator is a gap that starts with a blank: whatever token stands before it, the two make no
comment together.

The scanners are told by what they take: fixed characters (`dropStart_eq_some_iff`), or a longest
run of characters, which is all of a word (`scanIdentifier_eq_some_iff`) or of a number
(`scanInteger_eq_some_iff`).
-/

namespace Peephole

/-! ## Gaps -/

/-- Blanks and comments.  A line comment ends with its line, a block comment at its first `*/`. -/
inductive IsGap : List Char → Prop where
  | nil : IsGap []
  | blank {c : Char} {gap : List Char} (h : isBlank c = true) (more : IsGap gap) : IsGap (c :: gap)
  | line {body gap : List Char} (h : '\n' ∉ body) (more : IsGap gap) :
    IsGap ('/' :: '/' :: (body ++ '\n' :: gap))
  | block {body gap : List Char} (h : ¬ ['*', '/'] <:+: body) (more : IsGap gap) :
    IsGap ('/' :: '*' :: (body ++ '*' :: '/' :: gap))

/-- A gap that starts with a blank. -/
structure IsSeparator (text : List Char) : Prop where
  gap : IsGap text
  start : ∃ c rest, text = c :: rest ∧ isBlank c = true

/-- A blank belongs to the gap. -/
theorem dropGap_blank {c : Char} (h : isBlank c = true) (text : List Char) :
    dropGap .blanks (c :: text) = dropGap .blanks text := by
  rw [dropGap, if_pos h]
  all_goals
    rintro rest rfl
    exact absurd h (by decide)

theorem dropGap_of_plain {c : Char} (hb : isBlank c = false) (hc : c ≠ '/') (text : List Char) :
    dropGap .blanks (c :: text) = c :: text := by
  rw [dropGap, if_neg (by simp [hb])]
  · exact fun _ h => absurd h hc
  · exact fun _ h => absurd h hc

/-- A line comment ends at the first line break. -/
theorem dropGap_line {body : List Char} (h : '\n' ∉ body) (text : List Char) :
    dropGap .lineComment (body ++ '\n' :: text) = dropGap .blanks text := by
  induction body with
  | nil => rw [List.nil_append, dropGap, if_pos rfl]
  | cons c body ih =>
    rw [List.mem_cons, not_or] at h
    rw [List.cons_append, dropGap, if_neg (Ne.symm h.1), ih h.2]

/-- A block comment goes on where its next two characters are not `*/`. -/
theorem dropGap_block_cons {opening text : List Char} {c : Char}
    (h : ∀ rest, c :: text ≠ '*' :: '/' :: rest) :
    dropGap (.blockComment opening) (c :: text) = dropGap (.blockComment opening) text := by
  rw [dropGap]
  exact fun rest hc ht => h rest (by rw [hc, ht])

/-- A block comment ends at the first `*/`. -/
theorem dropGap_block {body : List Char} (h : ¬ ['*', '/'] <:+: body) (opening text : List Char) :
    dropGap (.blockComment opening) (body ++ '*' :: '/' :: text) = dropGap .blanks text := by
  induction body with
  | nil => rw [List.nil_append, dropGap]
  | cons c body ih =>
    rw [List.infix_cons_iff, not_or] at h
    rw [List.cons_append, dropGap_block_cons, ih h.2]
    intro rest heq
    obtain ⟨rfl, hrest⟩ := List.cons.inj heq
    cases body with
    | nil => simp at hrest
    | cons d body =>
      obtain ⟨rfl, -⟩ := List.cons.inj hrest
      exact h.1 ⟨body, rfl⟩

/-- **Reading drops a gap.** -/
theorem IsGap.dropGap_append {gap : List Char} (h : IsGap gap) (text : List Char) :
    dropGap .blanks (gap ++ text) = dropGap .blanks text := by
  induction h with
  | nil => rfl
  | blank h _ ih => rw [List.cons_append, dropGap_blank h, ih]
  | @line body gap h _ ih =>
    simp only [List.cons_append, List.append_assoc]
    rw [dropGap, dropGap_line h, ih]
  | @block body gap h _ ih =>
    simp only [List.cons_append, List.append_assoc]
    rw [dropGap, dropGap_block h, ih]

theorem IsGap.dropGap {gap : List Char} (h : IsGap gap) : Peephole.dropGap .blanks gap = [] := by
  simpa [Peephole.dropGap] using h.dropGap_append []

/-- The text that is given back where a comment has no end. -/
def Gap.opening : Gap → List Char
  | .blockComment opening => opening
  | _ => []

/-- Dropping a gap never makes a text longer, unless it puts back the opening of a comment. -/
theorem length_dropGap_le_max (gap : Gap) (text : List Char) :
    (Peephole.dropGap gap text).length ≤ max gap.opening.length text.length := by
  fun_induction Peephole.dropGap gap text <;> simp_all [Gap.opening] <;> omega

theorem length_dropGap_le (text : List Char) :
    (dropGap .blanks text).length ≤ text.length := by
  simpa [Gap.opening] using length_dropGap_le_max .blanks text

/-- Inside a block comment the text is kept that the comment was opened in. -/
theorem dropGap_dropGap_of (gap : Gap) (text : List Char)
    (h : ∀ opening, gap = .blockComment opening →
      Peephole.dropGap .blanks opening = Peephole.dropGap gap text) :
    Peephole.dropGap .blanks (Peephole.dropGap gap text) = Peephole.dropGap gap text := by
  fun_induction Peephole.dropGap gap text with
  | case1 text ih => exact ih (by simp)
  | case2 text ih =>
    refine ih fun opening heq => ?_
    obtain rfl := Gap.blockComment.inj heq
    rw [Peephole.dropGap]
  | case3 c text _ _ hblank ih => exact ih (by simp)
  | case4 c text h₁ h₂ hblank =>
    rw [Peephole.dropGap, if_neg hblank]
    · exact h₁
    · exact h₂
  | case5 => rfl
  | case6 text ih => exact ih (by simp)
  | case7 c text hline ih => exact ih (by simp)
  | case8 => rfl
  | case9 opening text ih => exact ih (by simp)
  | case10 opening c text hclose ih =>
    refine ih fun opening' heq => ?_
    obtain rfl := Gap.blockComment.inj heq
    exact h _ rfl
  | case11 opening => exact h opening rfl

/-- After a gap there is none. -/
theorem dropGap_dropGap (text : List Char) :
    dropGap .blanks (dropGap .blanks text) = dropGap .blanks text :=
  dropGap_dropGap_of .blanks text (by simp)

/-! ## Lexemes -/

/-- A text starts with what can be dropped from its front. -/
theorem dropStart_eq_some_iff {expected text rest : List Char} :
    dropStart expected text = some rest ↔ text = expected ++ rest := by
  induction expected generalizing text with
  | nil => simp [dropStart]
  | cons c expected ih =>
    cases text with
    | nil => simp [dropStart]
    | cons d text =>
      by_cases hc : c = d
      · simp [dropStart, hc, ih]
      · simp [dropStart, hc, Ne.symm hc]

/-- A literal is digits, with or without a minus sign. -/
theorem scanInteger_eq (text : List Char) :
    scanInteger text = match dropStart ['-'] text with
      | some rest => scanDigits ['-'] rest
      | none => scanDigits [] text := by
  cases text with
  | nil => rfl
  | cons c text =>
    by_cases hc : '-' = c
    · subst hc
      rw [scanInteger, dropStart, if_pos rfl, dropStart]
    · rw [dropStart, if_neg hc, scanInteger]
      rintro rest ⟨rfl, -⟩
      exact hc rfl

/-- A text into which a run of such characters does not go on. -/
def NoMore (p : Char → Bool) (text : List Char) : Prop := ∀ c ∈ text.head?, p c = false

/-- A run is all that goes on with such characters, and no less. -/
theorem run_eq_iff {p : Char → Bool} {text run rest : List Char} :
    text.takeWhile p = run ∧ text.dropWhile p = rest ↔
      text = run ++ rest ∧ (∀ c ∈ run, p c = true) ∧ NoMore p rest := by
  constructor
  · rintro ⟨rfl, rfl⟩
    refine ⟨List.takeWhile_append_dropWhile.symm, fun c hc => List.mem_takeWhile_imp hc, ?_⟩
    intro c hc
    have hnot := List.head?_dropWhile_not p text
    rwa [Option.mem_def.1 hc] at hnot
  · rintro ⟨rfl, hrun, hrest⟩
    rw [List.takeWhile_append_of_pos hrun, List.dropWhile_append_of_pos hrun]
    rcases rest with _ | ⟨c, rest⟩
    · simp
    · simp [hrest c rfl]

/-- **The identifier at the front of a text is a whole word.** -/
theorem scanIdentifier_eq_some_iff {text rest : List Char} {name : String} :
    scanIdentifier text = some (name, rest) ↔
      text = name.toList ++ rest ∧ IsIdentifier name ∧ NoMore isWordChar rest := by
  constructor
  · intro h
    rw [scanIdentifier] at h
    split at h
    · cases h
    · rename_i c word hword
      split at h
      · rename_i hc
        obtain ⟨rfl, rfl⟩ := Prod.mk.inj (Option.some.inj h)
        obtain ⟨htext, hchars, hrest⟩ := run_eq_iff.1 ⟨hword, rfl⟩
        rw [hword] at hc ⊢
        rw [Bool.and_eq_true, Bool.not_eq_true', List.contains_eq_mem,
          decide_eq_false_iff_not] at hc
        rw [String.toList_ofList]
        refine ⟨htext, ⟨⟨c, word, String.toList_ofList, hc.1⟩, ?_, hc.2⟩, hrest⟩
        rwa [String.toList_ofList]
      · cases h
  · rintro ⟨htext, ⟨⟨c, word, hname, hc⟩, hchars, hfree⟩, hrest⟩
    obtain ⟨hword, hdrop⟩ := run_eq_iff.2 ⟨htext, hchars, hrest⟩
    rw [hname] at hword
    have hlist : String.ofList (c :: word) = name := by rw [← hname, String.ofList_toList]
    simp [scanIdentifier, hword, hdrop, hlist, hc, hfree]

/-- Digits are scanned to the last one. -/
theorem scanDigits_eq_some_iff {sign text rest : List Char} {number : String} :
    scanDigits sign text = some (number, rest) ↔
      ∃ digits, number = String.ofList (sign ++ digits) ∧ IsDigits digits ∧
        text = digits ++ rest ∧ NoMore Char.isDigit rest := by
  constructor
  · intro h
    rw [scanDigits] at h
    split at h
    · cases h
    · rename_i hdigits
      obtain ⟨rfl, rfl⟩ := Prod.mk.inj (Option.some.inj h)
      obtain ⟨htext, hall, hrest⟩ := run_eq_iff.1 ⟨rfl, rfl⟩
      exact ⟨_, rfl, ⟨hdigits, hall⟩, htext, hrest⟩
  · rintro ⟨digits, rfl, ⟨hne, hall⟩, htext, hrest⟩
    obtain ⟨htake, hdrop⟩ := run_eq_iff.2 ⟨htext, hall, hrest⟩
    rw [scanDigits, htake, hdrop]
    rcases digits with _ | ⟨d, digits⟩
    · exact absurd rfl hne
    · rfl

/-- **The integer at the front of a text has all digits that stand there.** -/
theorem scanInteger_eq_some_iff {text rest : List Char} {number : String} :
    scanInteger text = some (number, rest) ↔
      text = number.toList ++ rest ∧ IsInteger number ∧ NoMore Char.isDigit rest := by
  rw [scanInteger_eq]
  constructor
  · intro h
    split at h
    · rename_i hsign
      obtain ⟨digits, rfl, hdigits, rfl, hrest⟩ := scanDigits_eq_some_iff.1 h
      exact ⟨by simp [dropStart_eq_some_iff.1 hsign], .negative hdigits, hrest⟩
    · obtain ⟨digits, rfl, hdigits, rfl, hrest⟩ := scanDigits_eq_some_iff.1 h
      exact ⟨by simp, .plain hdigits, hrest⟩
  · rintro ⟨rfl, hnumber, hrest⟩
    rcases hnumber with @⟨digits, h⟩ | @⟨digits, h⟩
    · have hsign : dropStart ['-'] (digits ++ rest) = none := by
        obtain ⟨d, digits, rfl⟩ := List.exists_cons_of_ne_nil h.nonempty
        refine if_neg ?_
        rintro rfl
        exact absurd (h.all '-' List.mem_cons_self) (by decide)
      rw [String.toList_ofList, hsign]
      exact scanDigits_eq_some_iff.2 ⟨digits, rfl, h, rfl, hrest⟩
    · rw [String.toList_ofList, List.cons_append, dropStart, if_pos rfl, dropStart]
      exact scanDigits_eq_some_iff.2 ⟨digits, rfl, h, rfl, hrest⟩

/-- A name stands in no gap. -/
theorem IsIdentifier.dropGap_append {name : String} (h : IsIdentifier name) (rest : List Char) :
    dropGap .blanks (name.toList ++ rest) = name.toList ++ rest := by
  obtain ⟨c, more, hname, hc⟩ := h.start
  rw [hname, List.cons_append]
  refine dropGap_of_plain (C.isBlank_of_isWordChar (h.chars c (by simp [hname]))) ?_ _
  rintro rfl
  exact absurd hc (by decide)

/-- No identifier starts a number. -/
theorem IsIdentifier.scanInteger_append {name : String} (h : IsIdentifier name) (rest : List Char) :
    scanInteger (name.toList ++ rest) = none := by
  obtain ⟨c, more, hname, hc⟩ := h.start
  rw [hname, List.cons_append, scanInteger_eq, dropStart, if_neg]
  · simp [scanDigits, isDigit_of_isAlpha hc]
  · rintro rfl
    exact absurd hc (by decide)

/-- A number stands in no gap. -/
theorem IsInteger.dropGap_append {number : String} (h : IsInteger number) (rest : List Char) :
    dropGap .blanks (number.toList ++ rest) = number.toList ++ rest := by
  rcases h with h | h
  · obtain ⟨c, more, rfl⟩ := List.exists_cons_of_ne_nil h.nonempty
    have hc := h.all c (by simp)
    rw [String.toList_ofList, List.cons_append]
    refine dropGap_of_plain (C.isBlank_of_isWordChar (isWordChar_of_isDigit hc)) ?_ _
    rintro rfl
    exact absurd hc (by decide)
  · rw [String.toList_ofList, List.cons_append]
    exact dropGap_of_plain rfl (by decide) _

/-- What a run of characters leaves is shorter, if there is one. -/
theorem length_dropWhile_lt {p : Char → Bool} {text : List Char} (h : text.takeWhile p ≠ []) :
    (text.dropWhile p).length + 1 ≤ text.length := by
  have hsum := congrArg List.length (List.takeWhile_append_dropWhile (p := p) (l := text))
  have hpos := List.length_pos_iff.2 h
  rw [List.length_append] at hsum
  omega

/-- A wildcard is an underscore with no word going on behind it. -/
theorem scanWildcard_eq (text : List Char) :
    scanWildcard text = (dropStart ['_'] text).bind fun rest =>
      if rest.takeWhile isWordChar = [] then some ((), rest) else none := by
  cases text with
  | nil => rfl
  | cons c text =>
    by_cases hc : '_' = c
    · subst hc
      rw [dropStart, if_pos rfl, dropStart, Option.bind_some]
      cases text with
      | nil => rfl
      | cons d text => cases hd : isWordChar d <;> simp [scanWildcard, hd]
    · rw [dropStart, if_neg hc, scanWildcard, Option.bind_none]
      · exact fun h => hc (List.cons.inj h).1.symm
      · exact fun _ _ h => hc (List.cons.inj h).1.symm

/-- Operators are tried in the order of their list. -/
theorem Reader.read_operator_cons {α : Type} (symbol : Symbol) (spelling : α → String) (op : α)
    (operators : List α) (text : List Char) :
    (Reader.operator symbol spelling (op :: operators)).read text
      = ((dropStart (spelling op).toList text).map (op, ·)).or
        ((Reader.operator symbol spelling operators).read text) := by
  rw [operator, read_token, List.findSome?_cons]
  cases (dropStart (spelling op).toList text).map (op, ·) <;> rfl

/-- **An operator is the first of the list** that the text starts with. -/
theorem Reader.of_read_operator {α : Type} [DecidableEq α] {symbol : Symbol} {spelling : α → String}
    {operators : List α} {text rest : List Char} {op : α}
    (h : (Reader.operator symbol spelling operators).read text = some (op, rest)) :
    op ∈ operators ∧ text = (spelling op).toList ++ rest ∧
      ∀ other ∈ operators.takeWhile (· ≠ op), ∀ more, text ≠ (spelling other).toList ++ more := by
  induction operators with
  | nil => cases h
  | cons first operators ih =>
    rw [Reader.read_operator_cons, Option.or_eq_some_iff, Option.map_eq_some_iff,
      Option.map_eq_none_iff] at h
    rcases h with ⟨rest, hfirst, heq⟩ | ⟨hfirst, h⟩
    · obtain ⟨rfl, rfl⟩ := Prod.mk.inj heq
      exact ⟨List.mem_cons_self, dropStart_eq_some_iff.1 hfirst, by simp⟩
    · obtain ⟨hmem, htext, hothers⟩ := ih h
      have hrefused : ∀ more, text ≠ (spelling first).toList ++ more := by
        intro more hmore
        rw [dropStart_eq_some_iff.2 hmore] at hfirst
        cases hfirst
      have hne : first ≠ op := by
        rintro rfl
        exact hrefused rest htext
      refine ⟨List.mem_cons_of_mem _ hmem, htext, ?_⟩
      rw [List.takeWhile_cons_of_pos (by simpa using hne)]
      exact List.forall_mem_cons.2 ⟨hrefused, hothers⟩

end Peephole
