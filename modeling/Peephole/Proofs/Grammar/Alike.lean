import Peephole.Grammar.SyntaxError
import Peephole.Proofs.Grammar.Lexeme

/-!
# Proofs/Grammar/Alike — readings of texts that differ in their separators

Two texts are `Alike` when they differ in their separators only.  A reader may stop anywhere, also
inside a token, so the relation is between what two readings still have before them: the same
characters, then separators, then the same again.

Readings of texts that are alike go the same way: both refuse, or both take the same value and go on
with texts that are alike (`ReadAlike`).  Ordered choice keeps this, since both readings choose the
same way.  Repetition and nesting are bounded by the length of the text, which the two do not share;
`ReadAlike` therefore also says how much is taken at least, and no bound is ever reached.
-/

namespace Peephole

/-! ## Texts that are alike -/

/-- No character, or a blank first. -/
def StartsBlank (text : List Char) : Prop := ∀ c ∈ text.head?, isBlank c = true

theorem IsSeparator.startsBlank {gap : List Char} (h : IsSeparator gap) (text : List Char) :
    StartsBlank (gap ++ text) := by
  obtain ⟨c, rest, rfl, hc⟩ := h.start
  simpa [StartsBlank] using hc

/-- The end of a text: nothing, or a last separator. -/
def IsMargin (text : List Char) : Prop := text = [] ∨ IsSeparator text

theorem IsMargin.startsBlank {text : List Char} (h : IsMargin text) : StartsBlank text := by
  rcases h with rfl | h
  · simp [StartsBlank]
  · simpa using h.startsBlank []

theorem IsMargin.dropGap {text : List Char} (h : IsMargin text) :
    Peephole.dropGap .blanks text = [] := by
  rcases h with rfl | h
  · rfl
  · exact h.gap.dropGap

/-- **Texts that differ in their separators only.** -/
inductive Alike : List Char → List Char → Prop where
  | ends {first second : List Char} (h : IsMargin first) (h' : IsMargin second) :
    Alike first second
  | gap {first second gap gap' : List Char} (h : IsSeparator gap) (h' : IsSeparator gap')
    (more : Alike first second) : Alike (gap ++ first) (gap' ++ second)
  /-- A character that no gap starts with. -/
  | char {first second : List Char} {c : Char} (h : dropGap .blanks (c :: first) = c :: first)
    (h' : dropGap .blanks (c :: second) = c :: second) (more : Alike first second) :
    Alike (c :: first) (c :: second)

namespace StartsBlank

variable {text : List Char}

theorem takeWhile (h : StartsBlank text) {p : Char → Bool}
    (hp : ∀ c, isBlank c = true → p c = false) : text.takeWhile p = [] := by
  cases text with
  | nil => rfl
  | cons c text => simp [hp c (h c rfl)]

theorem dropWhile (h : StartsBlank text) {p : Char → Bool}
    (hp : ∀ c, isBlank c = true → p c = false) : text.dropWhile p = text := by
  cases text with
  | nil => rfl
  | cons c text => simp [hp c (h c rfl)]

/-- Nothing that starts otherwise is found before a blank. -/
theorem dropStart (h : StartsBlank text) {c : Char} (hc : isBlank c = false)
    (expected : List Char) : Peephole.dropStart (c :: expected) text = none := by
  cases text with
  | nil => rfl
  | cons d text =>
    rw [Peephole.dropStart, if_neg]
    rintro rfl
    rw [h c rfl] at hc
    cases hc

end StartsBlank

namespace Alike

variable {first second : List Char}

/-- Where texts that are alike do not go on with the same character, a blank or the end follows. -/
theorem startsBlank_or (h : Alike first second) :
    StartsBlank first ∧ StartsBlank second ∨
      ∃ c more more', first = c :: more ∧ second = c :: more' ∧ Alike more more' := by
  cases h with
  | ends h h' => exact .inl ⟨h.startsBlank, h'.startsBlank⟩
  | gap h h' _ => exact .inl ⟨h.startsBlank _, h'.startsBlank _⟩
  | char _ _ more => exact .inr ⟨_, _, _, rfl, rfl, more⟩

/-- **Gaps in texts that are alike** leave texts that are alike, and both or none of them empty. -/
theorem dropGap (h : Alike first second) :
    Alike (Peephole.dropGap .blanks first) (Peephole.dropGap .blanks second) ∧
      (Peephole.dropGap .blanks first = [] ↔ Peephole.dropGap .blanks second = []) := by
  induction h with
  | ends h h' =>
    rw [h.dropGap, h'.dropGap]
    exact ⟨.ends (.inl rfl) (.inl rfl), Iff.rfl⟩
  | gap h h' _ ih => rwa [h.gap.dropGap_append, h'.gap.dropGap_append]
  | char h h' more =>
    rw [h, h']
    exact ⟨.char h h' more, by simp⟩

/-- The same run of characters stands first, if blanks do not belong to it. -/
theorem takeWhile (h : Alike first second) {p : Char → Bool}
    (hp : ∀ c, isBlank c = true → p c = false) :
    first.takeWhile p = second.takeWhile p ∧ Alike (first.dropWhile p) (second.dropWhile p) := by
  induction h with
  | ends h h' =>
    rw [h.startsBlank.takeWhile hp, h'.startsBlank.takeWhile hp, h.startsBlank.dropWhile hp,
      h'.startsBlank.dropWhile hp]
    exact ⟨rfl, .ends h h'⟩
  | @gap first second gap gap' h h' more _ =>
    have hb := h.startsBlank first
    have hb' := h'.startsBlank second
    rw [hb.takeWhile hp, hb'.takeWhile hp, hb.dropWhile hp, hb'.dropWhile hp]
    exact ⟨rfl, .gap h h' more⟩
  | @char first second c h h' more ih =>
    cases hc : p c with
    | false => simpa [hc] using Alike.char h h' more
    | true => simpa [hc] using ih

/-- **Fixed characters** are found in both of two texts that are alike, or in neither. -/
theorem dropStart (h : Alike first second) {expected : List Char}
    (hexpected : expected.all (!isBlank ·) = true) :
    Peephole.dropStart expected first = none ∧ Peephole.dropStart expected second = none ∨
      ∃ rest rest', Peephole.dropStart expected first = some rest ∧
        Peephole.dropStart expected second = some rest' ∧ Alike rest rest' := by
  induction expected generalizing first second with
  | nil => exact .inr ⟨first, second, rfl, rfl, h⟩
  | cons c expected ih =>
    rw [List.all_cons, Bool.and_eq_true, Bool.not_eq_true'] at hexpected
    obtain ⟨hb, hb'⟩ | ⟨d, more, more', rfl, rfl, hmore⟩ := h.startsBlank_or
    · exact .inl ⟨hb.dropStart hexpected.1 _, hb'.dropStart hexpected.1 _⟩
    · rw [Peephole.dropStart, Peephole.dropStart]
      split
      · exact ih hmore hexpected.2
      · exact .inl ⟨rfl, rfl⟩

end Alike

/-! ## Readings that agree -/

/-- Two readings refuse, or both take the same value and at least so many characters, and go on with
texts that are alike. -/
def SameOutcome {α : Type} (least : Nat) (first second : List Char)
    (outcome outcome' : Option (α × List Char)) : Prop :=
  outcome = none ∧ outcome' = none ∨
    ∃ value rest rest', outcome = some (value, rest) ∧ outcome' = some (value, rest') ∧
      Alike rest rest' ∧ rest.length + least ≤ first.length ∧ rest'.length + least ≤ second.length

/-- Alternatives agree if each of them does. -/
theorem SameOutcome.or {α : Type} {least : Nat} {first second : List Char}
    {outcome outcome' other other' : Option (α × List Char)}
    (h : SameOutcome least first second outcome outcome')
    (ho : SameOutcome least first second other other') :
    SameOutcome least first second (outcome.or other) (outcome'.or other') := by
  obtain ⟨rfl, rfl⟩ | ⟨value, rest, rest', rfl, rfl, hmore⟩ := h
  · simpa using ho
  · exact .inr ⟨value, rest, rest', rfl, rfl, hmore⟩

/-- Outcomes of what follows are outcomes of the whole. -/
theorem SameOutcome.from {α : Type} {least least' taken : Nat} {first second rest rest' : List Char}
    {outcome outcome' : Option (α × List Char)}
    (h : SameOutcome least rest rest' outcome outcome') (hl : rest.length + taken ≤ first.length)
    (hl' : rest'.length + taken ≤ second.length) (hleast : least' ≤ taken + least) :
    SameOutcome least' first second outcome outcome' := by
  obtain hnone | ⟨value, last, last', hr, hr', hmore, hk, hk'⟩ := h
  · exact .inl hnone
  · exact .inr ⟨value, last, last', hr, hr', hmore, by omega, by omega⟩

/-- **Readings of texts that are alike agree**, for texts below given lengths. -/
def ReadAlike {α : Type} (least m n : Nat) (reader reader' : Reader α) : Prop :=
  ∀ ⦃first second : List Char⦄, Alike first second → first.length < m → second.length < n →
    SameOutcome least first second (reader.read first) (reader'.read second)

namespace ReadAlike

variable {α β : Type} {least m n : Nat} {reader reader' : Reader α}

/-- Readings that agree do so on shorter texts, and where less is asked to be taken. -/
theorem mono (h : ReadAlike least m n reader reader') {least' m' n' : Nat} (hleast : least' ≤ least)
    (hm : m' ≤ m) (hn : n' ≤ n) : ReadAlike least' m' n' reader reader' := by
  intro first second halike hfirst hsecond
  exact (h halike (hfirst.trans_le hm) (hsecond.trans_le hn)).from (Nat.le_refl (_ + 0))
    (Nat.le_refl (_ + 0)) (by omega)

/-- What agrees for texts below a length agrees for shorter ones. -/
theorem shorter (h : ReadAlike least m n reader reader') :
    ReadAlike least (m - 1) (n - 1) reader reader' :=
  h.mono (le_refl _) (Nat.sub_le _ _) (Nat.sub_le _ _)

theorem weaken (h : ReadAlike 1 m n reader reader') : ReadAlike 0 m n reader reader' :=
  h.mono (Nat.zero_le _) (le_refl _) (le_refl _)

theorem pure (value : α) : ReadAlike 0 m n (Pure.pure value) (Pure.pure value) :=
  fun first second halike _ _ =>
    .inr ⟨value, first, second, rfl, rfl, halike, le_refl _, le_refl _⟩

/-- Readings one after the other agree; what the first one takes is taken off the lengths. -/
theorem bind {least' : Nat} (h : ReadAlike least m n reader reader') {next next' : α → Reader β}
    (hnext : ∀ value, ReadAlike least' (m - least) (n - least) (next value) (next' value)) :
    ReadAlike (least + least') m n (reader >>= next) (reader' >>= next') := by
  intro first second halike hfirst hsecond
  rw [Reader.read_bind, Reader.read_bind]
  obtain ⟨hr, hr'⟩ | ⟨value, rest, rest', hr, hr', hmore, hl, hl'⟩ := h halike hfirst hsecond
  · exact .inl ⟨by rw [hr]; rfl, by rw [hr']; rfl⟩
  · rw [hr, hr', Option.bind_some, Option.bind_some]
    exact (hnext value hmore (by omega) (by omega)).from hl hl' (le_refl _)

/-- One reading after another, the first of which takes something. -/
theorem after (h : ReadAlike 1 m n reader reader') {next next' : α → Reader β}
    (hnext : ∀ value, ReadAlike 0 (m - 1) (n - 1) (next value) (next' value)) :
    ReadAlike 1 m n (reader >>= next) (reader' >>= next') :=
  h.bind hnext

/-- One reading after another, the first of which may take nothing. -/
theorem andThen (h : ReadAlike 0 m n reader reader') {next next' : α → Reader β}
    (hnext : ∀ value, ReadAlike least m n (next value) (next' value)) :
    ReadAlike least m n (reader >>= next) (reader' >>= next') := by
  simpa using h.bind hnext

/-- Readings that try one reader and then another agree. -/
theorem orElse {other other' : Reader α} (h : ReadAlike least m n reader reader')
    (ho : ReadAlike least m n other other') :
    ReadAlike least m n (reader <|> other) (reader' <|> other') := by
  intro first second halike hfirst hsecond
  rw [Reader.read_orElse, Reader.read_orElse]
  exact (h halike hfirst hsecond).or (ho halike hfirst hsecond)

theorem named (symbol : Symbol) (h : ReadAlike least m n reader reader') :
    ReadAlike least m n (Reader.named symbol reader) (Reader.named symbol reader') := h

theorem optional (h : ReadAlike 0 m n reader reader') :
    ReadAlike 0 m n (Reader.optional? reader) (Reader.optional? reader') :=
  (h.andThen fun value => pure (some value)).orElse (pure none)

/-- The bounds of two nestings differ, but neither is reached. -/
theorem nested {readers : Nat → Reader α} (h : ∀ m n, ReadAlike least m n (readers m) (readers n)) :
    ReadAlike least m n (Reader.nested readers) (Reader.nested readers) :=
  fun first second halike _ _ =>
    h (first.length + 1) (second.length + 1) halike (Nat.lt_succ_self _) (Nat.lt_succ_self _)

/-- As many rounds as each text has characters are enough for both. -/
theorem readMany (h : ReadAlike 1 m n reader reader') : ∀ (rounds rounds' : Nat)
    {first second : List Char}, Alike first second → first.length < m → second.length < n →
    first.length < rounds → second.length < rounds' →
    ∃ values rest rest', Reader.readMany reader rounds first = (values, rest) ∧
      Reader.readMany reader' rounds' second = (values, rest') ∧ Alike rest rest' ∧
      rest.length ≤ first.length ∧ rest'.length ≤ second.length
  | 0, _, _, _, _, _, _, hrounds, _ => absurd hrounds (Nat.not_lt_zero _)
  | _ + 1, 0, _, _, _, _, _, _, hrounds' => absurd hrounds' (Nat.not_lt_zero _)
  | rounds + 1, rounds' + 1, first, second, halike, hfirst, hsecond, hrounds, hrounds' => by
    obtain ⟨hr, hr'⟩ | ⟨value, rest, rest', hr, hr', hmore, hl, hl'⟩ := h halike hfirst hsecond
    · rw [Reader.readMany_of_refused hr, Reader.readMany_of_refused hr']
      exact ⟨[], first, second, rfl, rfl, halike, le_refl _, le_refl _⟩
    · obtain ⟨values, last, last', hs, hs', hlast, hk, hk'⟩ :=
        readMany h rounds rounds' hmore (by omega) (by omega) (by omega) (by omega)
      rw [Reader.readMany_of_taken hr, Reader.readMany_of_taken hr', hs, hs']
      exact ⟨value :: values, last, last', rfl, rfl, hlast, by omega, by omega⟩

/-- Repeated readings agree, if each takes a character. -/
theorem many (h : ReadAlike 1 m n reader reader') :
    ReadAlike 0 m n (Reader.many reader) (Reader.many reader') := by
  intro first second halike hfirst hsecond
  obtain ⟨values, rest, rest', hr, hr', hmore⟩ :=
    h.readMany _ _ halike hfirst hsecond (Nat.lt_succ_self _) (Nat.lt_succ_self _)
  exact .inr ⟨values, rest, rest', congrArg some hr, congrArg some hr', hmore⟩

end ReadAlike

/-! ## Lexemes -/

/-- Characters that a token is made of: at least one, and none of them blank. -/
def isSolid (text : List Char) : Bool := !text.isEmpty && text.all (!isBlank ·)

/-- Fixed characters are taken alike, and at least one of them. -/
theorem Alike.sameOutcome_dropStart {α : Type} {first second expected : List Char}
    (h : Alike first second) (hsolid : isSolid expected = true) (value : α) :
    SameOutcome 1 first second ((Peephole.dropStart expected first).map (value, ·))
      ((Peephole.dropStart expected second).map (value, ·)) := by
  rw [isSolid, Bool.and_eq_true] at hsolid
  obtain ⟨hr, hr'⟩ | ⟨rest, rest', hr, hr', hmore⟩ := h.dropStart hsolid.2
  · exact .inl ⟨by rw [hr]; rfl, by rw [hr']; rfl⟩
  · have hl := congrArg List.length (dropStart_eq_some_iff.1 hr)
    have hl' := congrArg List.length (dropStart_eq_some_iff.1 hr')
    have hpos : 0 < expected.length := List.length_pos_iff.2 (by simpa using hsolid.1)
    rw [List.length_append] at hl hl'
    exact .inr ⟨value, rest, rest', by rw [hr]; rfl, by rw [hr']; rfl, hmore, by omega, by omega⟩

theorem isWordChar_of_isBlank (c : Char) (h : isBlank c = true) : isWordChar c = false := by
  by_contra hc
  rw [C.isBlank_of_isWordChar (by simpa using hc)] at h
  cases h

theorem isDigit_of_isBlank (c : Char) (h : isBlank c = true) : c.isDigit = false := by
  by_contra hc
  have hword := isWordChar_of_isDigit (by simpa using hc)
  rw [isWordChar_of_isBlank c h] at hword
  cases hword

/-- Digits are taken alike, and at least one of them. -/
theorem Alike.sameOutcome_scanDigits {first second : List Char} (h : Alike first second)
    (sign : List Char) :
    SameOutcome 1 first second (scanDigits sign first) (scanDigits sign second) := by
  obtain ⟨hrun, hmore⟩ := h.takeWhile isDigit_of_isBlank
  unfold scanDigits
  rw [hrun]
  split
  case h_1 => exact .inl ⟨rfl, rfl⟩
  case h_2 hne =>
    exact .inr ⟨_, _, _, rfl, rfl, hmore, length_dropWhile_lt (hrun ▸ hne), length_dropWhile_lt hne⟩

namespace ReadAlike

variable {α : Type} {m n : Nat}

theorem gap : ReadAlike 0 m n Reader.gap Reader.gap := fun _ _ halike _ _ =>
  .inr ⟨(), _, _, rfl, rfl, halike.dropGap.1, length_dropGap_le _, length_dropGap_le _⟩

theorem text {expected : String} (hsolid : isSolid expected.toList = true) :
    ReadAlike 1 m n (Reader.text expected) (Reader.text expected) := fun _ _ halike _ _ =>
  halike.sameOutcome_dropStart hsolid ()

/-- Identifiers agree: a word goes on over no separator. -/
theorem identifier : ReadAlike 1 m n Reader.identifier Reader.identifier := by
  intro first second halike _ _
  obtain ⟨hrun, hmore⟩ := halike.takeWhile isWordChar_of_isBlank
  rw [Reader.identifier, Reader.read_token, scanIdentifier, scanIdentifier, hrun]
  split
  case h_1 => exact .inl ⟨rfl, rfl⟩
  case h_2 c word hword =>
    have hne : second.takeWhile isWordChar ≠ [] := by simp [hword]
    split
    · exact .inr ⟨_, _, _, rfl, rfl, hmore, length_dropWhile_lt (hrun ▸ hne),
        length_dropWhile_lt hne⟩
    · exact .inl ⟨rfl, rfl⟩

/-- Integer literals agree, also behind a sign. -/
theorem integer : ReadAlike 1 m n Reader.integer Reader.integer := by
  intro first second halike _ _
  rw [Reader.integer, Reader.read_token, scanInteger_eq, scanInteger_eq]
  obtain ⟨hr, hr'⟩ | ⟨rest, rest', hr, hr', hmore⟩ :=
    halike.dropStart (show ['-'].all (!isBlank ·) = true from rfl)
  · rw [hr, hr']
    exact halike.sameOutcome_scanDigits []
  · rw [hr, hr', dropStart_eq_some_iff.1 hr, dropStart_eq_some_iff.1 hr']
    exact (hmore.sameOutcome_scanDigits ['-']).from (Nat.le_succ (_ + 0)) (Nat.le_succ (_ + 0))
      (by omega)

theorem wildcard : ReadAlike 1 m n Reader.wildcard Reader.wildcard := by
  intro first second halike _ _
  rw [Reader.wildcard, Reader.read_token, scanWildcard_eq, scanWildcard_eq]
  obtain ⟨hr, hr'⟩ | ⟨rest, rest', hr, hr', hmore⟩ :=
    halike.dropStart (show ['_'].all (!isBlank ·) = true from rfl)
  · rw [hr, hr']
    exact .inl ⟨rfl, rfl⟩
  · rw [hr, hr', Option.bind_some, Option.bind_some, (hmore.takeWhile isWordChar_of_isBlank).1,
      dropStart_eq_some_iff.1 hr, dropStart_eq_some_iff.1 hr']
    split
    · exact .inr ⟨(), rest, rest', rfl, rfl, hmore, le_refl _, le_refl _⟩
    · exact .inl ⟨rfl, rfl⟩

/-- The first operator that fits is the same. -/
theorem operator (symbol : Symbol) {spelling : α → String} {operators : List α}
    (h : operators.all (fun op => isSolid (spelling op).toList) = true) :
    ReadAlike 1 m n (Reader.operator symbol spelling operators)
      (Reader.operator symbol spelling operators) := by
  induction operators with
  | nil => exact fun _ _ _ _ _ => .inl ⟨rfl, rfl⟩
  | cons op operators ih =>
    rw [List.all_cons, Bool.and_eq_true] at h
    intro first second halike hfirst hsecond
    rw [Reader.read_operator_cons, Reader.read_operator_cons]
    exact (halike.sameOutcome_dropStart h.1 op).or (ih h.2 halike hfirst hsecond)

/-- The end of a text, behind a last gap. -/
theorem endOfInput (value : α) :
    ReadAlike 0 m n (do Reader.gap; Reader.endOfInput; return value)
      (do Reader.gap; Reader.endOfInput; return value) := by
  intro first second halike _ _
  obtain ⟨-, hend⟩ := halike.dropGap
  have hread : ∀ text, (do Reader.gap; Reader.endOfInput; return value : Reader α).read text
      = (scanEnd (dropGap .blanks text)).bind fun result => some (value, result.2) := by
    intro text
    rw [Reader.read_bind, Reader.gap, Reader.read_silent, Option.bind_some, Reader.read_bind,
      Reader.endOfInput, Reader.read_token]
    rfl
  rw [hread, hread]
  by_cases hnil : dropGap .blanks first = []
  · rw [hnil, hend.1 hnil]
    exact .inr ⟨value, [], [], rfl, rfl, .ends (.inl rfl) (.inl rfl), by simp, by simp⟩
  · obtain ⟨c, rest, hc⟩ := List.exists_cons_of_ne_nil hnil
    obtain ⟨d, rest', hd⟩ := List.exists_cons_of_ne_nil (mt hend.2 hnil)
    rw [hc, hd]
    exact .inl ⟨rfl, rfl⟩

end ReadAlike

end Peephole
