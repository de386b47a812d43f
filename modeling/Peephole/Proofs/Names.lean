import Mathlib.Data.List.Basic
import Mathlib.Data.List.Nodup
import Mathlib.Data.List.Perm.Subperm
import Peephole.Code.Body
import Peephole.Grammar.Lexeme

/-!
# Proofs/Names — identifiers, and the C locals made of them

Locals are told apart by how they start: `instr_`, `arg_` and `statement_`.  Behind the start, a
number is told from a name by its first character, and a numbered name from every other numbered
name by its last `_` (`numbered_inj`).
-/

namespace Peephole

/-! ## Characters -/

theorem isWordChar_of_isDigit {c : Char} (h : c.isDigit = true) : isWordChar c = true := by
  simp [isWordChar, Char.isAlphanum, h]

theorem isDigit_of_isAlpha {c : Char} (h : c.isAlpha = true) : c.isDigit = false := by
  by_contra hd
  delta Char.isAlpha Char.isUpper Char.isLower at h
  simp only [Char.isDigit, Bool.or_eq_true, Bool.and_eq_true, decide_eq_true_eq,
    Bool.not_eq_false, UInt32.le_iff_toNat_le] at h hd
  simp at h hd
  omega

/-! ## Identifiers and integers -/

/-- A name as pattern files spell it. -/
structure IsIdentifier (text : String) : Prop where
  start : ∃ c rest, text.toList = c :: rest ∧ c.isAlpha = true
  chars : ∀ c ∈ text.toList, isWordChar c = true
  unreserved : text ∉ reservedWords

/-- An identifier starts with a letter, goes on with word characters, and is not reserved. -/
theorem isIdentifier_iff {text : String} :
    IsIdentifier text ↔ text.toList.head?.any Char.isAlpha = true ∧
      text.toList.all isWordChar = true ∧ text ∉ reservedWords := by
  constructor
  · rintro ⟨⟨c, rest, htext, hc⟩, hchars, h⟩
    exact ⟨by simp [htext, hc], List.all_eq_true.2 hchars, h⟩
  · rintro ⟨hstart, hchars, h⟩
    refine ⟨?_, List.all_eq_true.1 hchars, h⟩
    cases htext : text.toList with
    | nil => simp [htext] at hstart
    | cons c rest => exact ⟨c, rest, rfl, by simpa [htext] using hstart⟩

instance (text : String) : Decidable (IsIdentifier text) := decidable_of_iff _ isIdentifier_iff.symm

/-- One digit or more. -/
structure IsDigits (digits : List Char) : Prop where
  nonempty : digits ≠ []
  all : ∀ c ∈ digits, c.isDigit = true

/-- An integer as pattern files spell it. -/
inductive IsInteger : String → Prop where
  | plain {digits : List Char} (h : IsDigits digits) : IsInteger (String.ofList digits)
  | negative {digits : List Char} (h : IsDigits digits) : IsInteger (String.ofList ('-' :: digits))

theorem IsInteger.toList_ne_nil {number : String} (h : IsInteger number) : number.toList ≠ [] := by
  rcases h with h | h
  · rw [String.toList_ofList]
    exact h.nonempty
  · simp

/-! ## Numbers -/

theorem toString_toList (n : Nat) : (toString n).toList = Nat.toDigits 10 n := Nat.toList_repr

/-- A number is written in digits, at least one of them. -/
theorem isDigits_toString (n : Nat) : IsDigits (toString n).toList where
  nonempty := by
    rw [toString_toList]
    exact Nat.toDigits_ne_nil
  all c hc := by
    rw [toString_toList] at hc
    exact Nat.isDigit_of_mem_toDigits (by decide) (by decide) hc

theorem toString_nat_inj {m n : Nat} (h : toString m = toString n) : m = n := by
  have hd : Nat.toDigits 10 m = Nat.toDigits 10 n := by
    rw [← toString_toList, ← toString_toList, h]
  rw [← @Nat.ofDigitChars_ten_toDigits m, ← @Nat.ofDigitChars_ten_toDigits n, hd]

/-- Two ways to see a list as what stands before and behind one of its members. -/
theorem append_cons_cases {α : Type} {lhs rhs front back : List α} {x y : α}
    (h : lhs ++ x :: rhs = front ++ y :: back) :
    (lhs = front ∧ x = y ∧ rhs = back) ∨ (∃ mid, front = lhs ++ x :: mid ∧ rhs = mid ++ y :: back) ∨
      ∃ mid, lhs = front ++ y :: mid ∧ back = mid ++ x :: rhs := by
  obtain ⟨more, rfl, hmore⟩ | ⟨more, rfl, hmore⟩ := List.append_eq_append_iff.1 h
  · obtain ⟨rfl, hback⟩ | ⟨mid, rfl, hmid⟩ := List.cons_eq_append_iff.1 hmore
    · obtain ⟨rfl, rfl⟩ := List.cons.inj hback
      exact .inl ⟨by simp, rfl, rfl⟩
    · exact .inr (.inl ⟨mid, rfl, hmid⟩)
  · obtain ⟨rfl, hback⟩ | ⟨mid, rfl, hmid⟩ := List.cons_eq_append_iff.1 hmore
    · obtain ⟨rfl, rfl⟩ := List.cons.inj hback
      exact .inl ⟨by simp, rfl, rfl⟩
    · exact .inr (.inr ⟨mid, rfl, hmid⟩)

/-- **A numbered name gives back its name and its number**: a number holds no `_`. -/
theorem numbered_inj {first second : String} {m n : Nat}
    (h : first ++ "_" ++ toString m = second ++ "_" ++ toString n) : first = second ∧ m = n := by
  have hl : first.toList ++ '_' :: (toString m).toList
      = second.toList ++ '_' :: (toString n).toList := by
    have := congrArg String.toList h
    rwa [String.toList_append, String.toList_append, List.append_assoc, String.toList_append,
      String.toList_append, List.append_assoc] at this
  have hno : ∀ k : Nat, '_' ∉ (toString k).toList := fun k hk =>
    absurd ((isDigits_toString k).all _ hk) (by decide)
  obtain ⟨h₁, -, h₂⟩ | ⟨mid, -, hm⟩ | ⟨mid, -, hn⟩ := append_cons_cases hl
  · exact ⟨String.toList_inj.1 h₁, toString_nat_inj (String.toList_inj.1 h₂)⟩
  · exact absurd (by rw [hm]; simp) (hno m)
  · exact absurd (by rw [hn]; simp) (hno n)

/-! ## Locals -/

/-- The start of the locals that point at matched instructions. -/
def cursorLocal (name : String) : String := "instr_" ++ name

theorem cursorLocal_inj {first second : String} (h : cursorLocal first = cursorLocal second) :
    first = second := by
  simpa [cursorLocal] using h

theorem argumentLocal_inj {first second : String} (h : argumentLocal first = argumentLocal second) :
    first = second := by
  simpa [argumentLocal] using h

theorem nodeLocal_inj {m n : Nat} (h : nodeLocal m = nodeLocal n) : m = n := by
  simp only [nodeLocal] at h
  exact toString_nat_inj (by simpa using h)

theorem cursorLocal_ne_argumentLocal (first second : String) :
    cursorLocal first ≠ argumentLocal second := fun h => by
  simpa [cursorLocal, argumentLocal] using congrArg String.toList h

theorem nodeLocal_ne_cursorLocal (n : Nat) (name : String) : nodeLocal n ≠ cursorLocal name :=
  fun h => by simpa [cursorLocal, nodeLocal] using congrArg String.toList h

theorem nodeLocal_ne_argumentLocal (n : Nat) (name : String) : nodeLocal n ≠ argumentLocal name :=
  fun h => by simpa [argumentLocal, nodeLocal] using congrArg String.toList h

/-- A name is no number. -/
theorem IsIdentifier.ne_toString {name : String} (h : IsIdentifier name) (n : Nat) :
    name ≠ toString n := by
  rintro rfl
  obtain ⟨c, rest, hc, halpha⟩ := h.start
  have hdigit := (isDigits_toString n).all c (by rw [hc]; simp)
  rw [isDigit_of_isAlpha halpha] at hdigit
  simp at hdigit

/-! ## Fresh numbers -/

/-- **Names cannot fill one more number than there are names**, so that a search through so many
numbers finds a free one. -/
theorem exists_find?_range'_free {spell : Nat → String} (hspell : Function.Injective spell)
    (names : List String) (used : Nat) :
    ∃ number, ((List.range' (used + 1) (names.length + 1)).find? fun k =>
        !names.contains (spell k)) = some number ∧ used < number ∧ spell number ∉ names := by
  cases hfind : (List.range' (used + 1) (names.length + 1)).find? fun k =>
      !names.contains (spell k) with
  | some number =>
    have hmem := List.mem_of_find?_eq_some hfind
    rw [List.mem_range'_1] at hmem
    exact ⟨number, rfl, Nat.lt_of_succ_le hmem.1, by simpa using List.find?_some hfind⟩
  | none =>
    exfalso
    have hsubset : (List.range' (used + 1) (names.length + 1)).map spell ⊆ names := by
      intro text htext
      obtain ⟨number, hmem, rfl⟩ := List.mem_map.1 htext
      simpa using List.find?_eq_none.1 hfind number hmem
    have hnodup : ((List.range' (used + 1) (names.length + 1)).map spell).Nodup :=
      List.Nodup.map hspell List.nodup_range'
    have hle := (List.subperm_of_subset hnodup hsubset).length_le
    rw [List.length_map, List.length_range'] at hle
    exact Nat.not_succ_le_self _ hle

end Peephole
