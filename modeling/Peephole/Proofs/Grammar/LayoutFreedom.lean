import Peephole.Proofs.Grammar.Alike

/-!
# Proofs/Grammar/LayoutFreedom — a tree does not depend on how its text is laid out

A layout of tokens puts a separator between any two of them.  Two layouts of the same tokens are
alike, and every reader of the grammar reads alike, from the lists up to whole files.  So they have
the same tree or none.
-/

namespace Peephole

namespace ReadAlike

variable {α : Type} {m n : Nat}

/-! ## Runs of items -/

section Items

variable {item item' : Reader α}

theorem series (h : ReadAlike 1 m n item item') :
    ReadAlike 0 m n (Reader.series item) (Reader.series item') := by
  refine (weaken (h.after fun first => ?_)).orElse (pure [])
  exact (many (gap.andThen fun _ => h.shorter)).andThen fun more => pure (first :: more)

theorem commaSeparated (h : ReadAlike 1 m n item item') :
    ReadAlike 1 m n (Reader.commaSeparated item) (Reader.commaSeparated item') := by
  refine h.after fun first => gap.andThen fun _ => ?_
  refine (series ((text rfl).after fun _ => gap.andThen fun _ => ?_)).andThen fun more => pure _
  exact h.shorter.shorter.weaken

theorem parenthesized (h : ReadAlike 1 m n item item') :
    ReadAlike 1 m n (Reader.parenthesized item) (Reader.parenthesized item') := by
  refine (text rfl).after fun _ => gap.andThen fun _ => ?_
  refine (optional h.shorter.commaSeparated.weaken).andThen fun items => ?_
  exact gap.andThen fun _ => (text rfl).weaken.andThen fun _ => pure _

/-- Series in braces agree if their items do, on texts that are shorter by the brace. -/
theorem braced (h : ReadAlike 1 (m - 1) (n - 1) item item') :
    ReadAlike 1 m n (Reader.braced item) (Reader.braced item') := by
  refine (text rfl).after fun _ => gap.andThen fun _ => ?_
  refine (series h).andThen fun items => ?_
  exact gap.andThen fun _ => (text rfl).weaken.andThen fun _ => pure _

end Items

/-! ## Expressions -/

theorem arithmeticOp (symbol : Symbol) (operators : List Arithmetic) :
    ReadAlike 1 m n (Reader.arithmeticOp symbol operators)
      (Reader.arithmeticOp symbol operators) := by
  refine (operator symbol ?_).after fun op => pure _
  exact List.all_eq_true.2 fun op _ => by cases op <;> rfl

theorem conditionOp (symbol : Symbol) (operators : List Condition) :
    ReadAlike 1 m n (Reader.conditionOp symbol operators)
      (Reader.conditionOp symbol operators) := by
  refine (operator symbol ?_).after fun op => pure _
  exact List.all_eq_true.2 fun op _ => by cases op <;> rfl

section Levels

variable {operand operand' inner inner' : Reader Node} {op : Reader Kind}

theorem step (hop : ReadAlike 1 m n op op) (h : ReadAlike 1 m n operand operand') :
    ReadAlike 1 m n (Reader.step op operand) (Reader.step op operand') :=
  hop.after fun _ => gap.andThen fun _ => h.shorter.weaken.andThen fun _ => pure _

theorem chain (hop : ReadAlike 1 m n op op) (h : ReadAlike 1 m n operand operand') :
    ReadAlike 1 m n (Reader.chain operand op) (Reader.chain operand' op) :=
  h.after fun _ => gap.andThen fun _ =>
    (series (step hop.shorter h.shorter)).andThen fun _ => pure _

/-- Atoms agree if what stands in parentheses does, on texts that are shorter by the parenthesis. -/
theorem atom (h : ReadAlike 0 (m - 1) (n - 1) inner inner') :
    ReadAlike 1 m n (Reader.atom inner) (Reader.atom inner') := by
  refine (integer.after fun _ => pure _).orElse ((identifier.after fun _ => pure _).orElse ?_)
  refine (text rfl).after fun _ => gap.andThen fun _ => h.andThen fun node => ?_
  exact gap.andThen fun _ => (text rfl).weaken.andThen fun _ => pure node

/-- Comparisons agree if what stands in parentheses does. -/
theorem comparison (h : ReadAlike 0 (m - 1) (n - 1) inner inner') :
    ReadAlike 1 m n (Reader.comparison inner) (Reader.comparison inner') := by
  have hsum : ReadAlike 1 m n (Reader.sum inner) (Reader.sum inner') :=
    chain (arithmeticOp _ _) (chain (arithmeticOp _ _) (atom h))
  refine hsum.after fun lhs => gap.andThen fun _ => ?_
  refine (optional (step (conditionOp _ _) hsum.shorter).weaken).andThen fun next => ?_
  rcases next with _ | next
  · exact pure lhs
  · exact pure (lhs.extend next.1 next.2)

theorem disjunction (h : ReadAlike 0 (m - 1) (n - 1) inner inner') :
    ReadAlike 1 m n (Reader.disjunction inner) (Reader.disjunction inner') :=
  chain (conditionOp _ _) (chain (conditionOp _ _) (comparison h))

end Levels

/-- Expressions agree at depths that the lengths allow, by induction on both. -/
theorem expressionWithin : ∀ m n : Nat,
    ReadAlike 1 m n (Reader.expressionWithin m) (Reader.expressionWithin n)
  | 0, _ => fun _ _ _ hfirst _ => absurd hfirst (Nat.not_lt_zero _)
  | _ + 1, 0 => fun _ _ _ _ hsecond => absurd hsecond (Nat.not_lt_zero _)
  | m + 1, n + 1 => disjunction (expressionWithin m n).weaken

theorem expression : ReadAlike 1 m n Reader.expression Reader.expression := nested expressionWithin

/-! ## Statements -/

/-- Instruction statements agree. -/
theorem instructionStatement (elements : List String) :
    ReadAlike 1 m n (Reader.instructionStatement elements)
      (Reader.instructionStatement elements) := by
  refine identifier.after fun name => gap.andThen fun _ => ?_
  refine (optional (parenthesized expression).weaken).andThen fun arguments => ?_
  exact gap.andThen fun _ => (text rfl).weaken.andThen fun _ => pure _

theorem label : ReadAlike 1 m n Reader.label Reader.label :=
  ((text rfl).after fun _ => gap.andThen fun _ => identifier.weaken).orElse
    ((text rfl).after fun _ => pure _)

section Blocks

variable {inner inner' : Reader Node} (h : ReadAlike 1 (m - 1) (n - 1) inner inner')

include h

theorem caseClause : ReadAlike 1 m n (Reader.caseClause inner) (Reader.caseClause inner') := by
  refine label.after fun name => gap.andThen fun _ => ?_
  refine (text rfl).weaken.andThen fun _ => gap.andThen fun _ => ?_
  exact (braced h.shorter).weaken.andThen fun body => pure _

/-- Switches agree if their statements do. -/
theorem switchStatement :
    ReadAlike 1 m n (Reader.switchStatement inner) (Reader.switchStatement inner') := by
  refine (text rfl).after fun _ => gap.andThen fun _ => ?_
  refine (text rfl).weaken.andThen fun _ => gap.andThen fun _ => ?_
  refine identifier.weaken.andThen fun name => gap.andThen fun _ => ?_
  refine (text rfl).weaken.andThen fun _ => gap.andThen fun _ => ?_
  exact (braced (caseClause h.shorter.shorter)).weaken.andThen fun cases => pure _

theorem ifClause : ReadAlike 1 m n (Reader.ifClause inner) (Reader.ifClause inner') := by
  refine (text rfl).after fun _ => gap.andThen fun _ => ?_
  refine (text rfl).weaken.andThen fun _ => gap.andThen fun _ => ?_
  refine expression.weaken.andThen fun condition => gap.andThen fun _ => ?_
  refine (text rfl).weaken.andThen fun _ => gap.andThen fun _ => ?_
  exact (braced h.shorter).weaken.andThen fun body => pure _

theorem elseClause : ReadAlike 1 m n (Reader.elseClause inner) (Reader.elseClause inner') :=
  (text rfl).after fun _ => gap.andThen fun _ => (braced h.shorter).weaken.andThen fun _ => pure _

/-- Branches agree if their statements do. -/
theorem ifStatement : ReadAlike 1 m n (Reader.ifStatement inner) (Reader.ifStatement inner') := by
  have helseIf : ReadAlike 1 (m - 1) (n - 1)
      (do Reader.text "else"; Reader.gap; Reader.ifClause inner)
      (do Reader.text "else"; Reader.gap; Reader.ifClause inner') :=
    (text rfl).after fun _ => gap.andThen fun _ => (ifClause h.shorter.shorter).weaken
  refine (ifClause h).after fun first => gap.andThen fun _ => ?_
  refine (series helseIf).andThen fun more => gap.andThen fun _ => ?_
  exact (optional (elseClause h.shorter).weaken).andThen fun last => pure _

end Blocks

/-- Statements agree at depths that the lengths allow, by induction on both. -/
theorem statementWithin (elements : List String) : ∀ m n : Nat,
    ReadAlike 1 m n (Reader.statementWithin elements m) (Reader.statementWithin elements n)
  | 0, _ => fun _ _ _ hfirst _ => absurd hfirst (Nat.not_lt_zero _)
  | _ + 1, 0 => fun _ _ _ _ hsecond => absurd hsecond (Nat.not_lt_zero _)
  | m + 1, n + 1 =>
    have h : ReadAlike 1 (m + 1 - 1) (n + 1 - 1) _ _ := statementWithin elements m n
    (switchStatement h).orElse ((ifStatement h).orElse (instructionStatement elements))

theorem statement (elements : List String) :
    ReadAlike 1 m n (Reader.statement elements) (Reader.statement elements) :=
  nested (statementWithin elements)

/-! ## Rules and programs -/

theorem instruction : ReadAlike 1 m n Reader.instruction Reader.instruction :=
  identifier.after fun _ => pure _

theorem instructionSet : ReadAlike 1 m n Reader.instructionSet Reader.instructionSet := by
  refine (text rfl).after fun _ => gap.andThen fun _ => ?_
  refine (commaSeparated instruction).weaken.andThen fun instructions => ?_
  exact gap.andThen fun _ => (text rfl).weaken.andThen fun _ => pure _

/-- Declarations agree. -/
theorem declaration : ReadAlike 1 m n Reader.declaration Reader.declaration := by
  refine (text rfl).after fun _ => gap.andThen fun _ => ?_
  refine identifier.weaken.andThen fun name => gap.andThen fun _ => ?_
  refine (text rfl).weaken.andThen fun _ => gap.andThen fun _ => ?_
  refine instructionSet.weaken.andThen fun set => gap.andThen fun _ => ?_
  exact (text rfl).weaken.andThen fun _ => pure _

theorem capture : ReadAlike 1 m n Reader.capture Reader.capture := identifier.after fun _ => pure _

theorem elementBody : ReadAlike 1 m n Reader.elementBody Reader.elementBody := by
  refine (wildcard.after fun _ => pure _).orElse ?_
  refine (instructionSet.orElse instruction).after fun body => gap.andThen fun _ => ?_
  exact (optional (parenthesized capture).weaken).andThen fun captures => pure _

theorem element : ReadAlike 1 m n (Reader.namedElement <|> Reader.unnamedElement)
    (Reader.namedElement <|> Reader.unnamedElement) := by
  refine orElse (identifier.after fun name => gap.andThen fun _ => ?_)
    (elementBody.after fun body => pure _)
  refine (text rfl).weaken.andThen fun _ => gap.andThen fun _ => ?_
  exact elementBody.weaken.andThen fun body => pure _

/-- Rules agree. -/
theorem rule : ReadAlike 1 m n Reader.rule Reader.rule := by
  refine (text rfl).after fun _ => gap.andThen fun _ => ?_
  refine identifier.weaken.andThen fun name => gap.andThen fun _ => ?_
  refine (text rfl).weaken.andThen fun _ => gap.andThen fun _ => ?_
  refine andThen (weaken (element.after fun first => gap.andThen fun _ => ?_)) fun elements => ?_
  · exact (series element).andThen fun more => pure (first :: more)
  · refine gap.andThen fun _ => (text rfl).weaken.andThen fun _ => gap.andThen fun _ => ?_
    exact (braced (statement _)).weaken.andThen fun body => pure _

/-- **Whole programs agree.** -/
theorem program : ReadAlike 0 m n Reader.program Reader.program := by
  refine named _ (gap.andThen fun _ => (series declaration).andThen fun declarations => ?_)
  exact gap.andThen fun _ => (series rule).andThen fun rules => endOfInput _

end ReadAlike

/-! ## Layouts -/

/-- The punctuation and the operators of pattern files. -/
def punctuation : List String :=
  ["=", ";", ",", ":", "-->", "(", ")", "\x7b", "\x7d"] ++ Arithmetic.all.map Arithmetic.token ++
    Condition.all.map Condition.token

/-- A token of pattern files. -/
inductive IsToken : List Char → Prop where
  | reserved {word : String} (h : word ∈ reservedWords) : IsToken word.toList
  | identifier {name : String} (h : IsIdentifier name) : IsToken name.toList
  | integer {text : String} (h : IsInteger text) : IsToken text.toList
  | wildcard : IsToken ['_']
  | symbol {text : String} (h : text ∈ punctuation) : IsToken text.toList

/-- Tokens with a separator after each, which may be missing after the last. -/
inductive Arranges : List (List Char) → List Char → Prop where
  | last {token margin : List Char} (h : IsToken token) (hmargin : IsMargin margin) :
    Arranges [token] (token ++ margin)
  | cons {token gap text : List Char} {tokens : List (List Char)} (h : IsToken token)
    (hgap : IsSeparator gap) (more : Arranges tokens text) :
    Arranges (token :: tokens) (token ++ (gap ++ text))

/-- **A text that lays out tokens**: with a separator between any two, and whatever gap before the
first. -/
inductive LaysOut : List (List Char) → List Char → Prop where
  | none {gap : List Char} (h : IsGap gap) : LaysOut [] gap
  | some {gap text : List Char} {tokens : List (List Char)} (h : IsGap gap)
    (more : Arranges tokens text) : LaysOut tokens (gap ++ text)

/-! A token holds no blank, and only one token holds a character that comments start with: that one
is `/` alone. -/

/-- Characters that stay what they are whatever blank follows them. -/
def Plain (token : List Char) : Prop :=
  token = ['/'] ∨ ∀ c ∈ token, isBlank c = false ∧ c ≠ '/'

/-- Words and signs are plain. -/
theorem plain_of_chars {token : List Char} (h : ∀ c ∈ token, isWordChar c = true ∨ c = '-') :
    Plain token := by
  refine .inr fun c hc => ?_
  rcases h c hc with hword | rfl
  · refine ⟨C.isBlank_of_isWordChar hword, ?_⟩
    rintro rfl
    exact absurd hword (by decide)
  · exact ⟨rfl, by decide⟩

theorem plain_of_mem {texts : List String}
    (hall : texts.all (fun text => text == "/" || text.toList.all fun c => !isBlank c && c != '/')
      = true) {text : String} (h : text ∈ texts) : Plain text.toList := by
  have htext := List.all_eq_true.1 hall text h
  rw [Bool.or_eq_true, beq_iff_eq] at htext
  rcases htext with rfl | htext
  · exact .inl rfl
  · exact .inr fun c hc => by simpa using List.all_eq_true.1 htext c hc

/-- An integer literal is made of digits and a sign. -/
theorem IsInteger.chars {text : String} (h : IsInteger text) :
    ∀ c ∈ text.toList, isWordChar c = true ∨ c = '-' := by
  intro c hc
  rcases h with h | h
  · rw [String.toList_ofList] at hc
    exact .inl (isWordChar_of_isDigit (h.all c hc))
  · rw [String.toList_ofList] at hc
    rcases List.mem_cons.1 hc with rfl | hc
    · exact .inr rfl
    · exact .inl (isWordChar_of_isDigit (h.all c hc))

/-- Each token of the grammar is plain: no gap starts in it. -/
theorem IsToken.plain {token : List Char} : IsToken token → Plain token
  | .reserved h => plain_of_mem (by decide) h
  | .identifier h => plain_of_chars fun c hc => .inl (h.chars c hc)
  | .integer h => plain_of_chars h.chars
  | .wildcard => plain_of_chars fun c hc => .inl (by rw [List.mem_singleton.1 hc]; rfl)
  | .symbol h => plain_of_mem (by decide) h

/-- A slash before a blank opens no comment. -/
theorem dropGap_slash {text : List Char} (h : StartsBlank text) :
    dropGap .blanks ('/' :: text) = '/' :: text := by
  rw [dropGap, if_neg (by decide)]
  · rintro rest - rfl
    exact absurd (h '/' rfl) (by decide)
  · rintro rest - rfl
    exact absurd (h '*' rfl) (by decide)

/-- The same token before texts that are alike. -/
theorem Plain.alike {token first second : List Char} (h : Plain token) (hb : StartsBlank first)
    (hb' : StartsBlank second) (halike : Alike first second) :
    Alike (token ++ first) (token ++ second) := by
  rcases h with rfl | h
  · exact .char (dropGap_slash hb) (dropGap_slash hb') halike
  · induction token with
    | nil => exact halike
    | cons c token ih =>
      obtain ⟨⟨hc, hslash⟩, h⟩ := List.forall_mem_cons.1 h
      exact .char (dropGap_of_plain hc hslash _) (dropGap_of_plain hc hslash _) (ih h)

/-- **Two arrangements of the same tokens are alike.** -/
theorem Arranges.alike {tokens : List (List Char)} {first second : List Char}
    (h : Arranges tokens first) (h' : Arranges tokens second) : Alike first second := by
  induction h generalizing second with
  | last htoken hmargin =>
    rcases h' with ⟨-, hmargin'⟩ | ⟨-, -, ⟨⟩⟩
    exact htoken.plain.alike hmargin.startsBlank hmargin'.startsBlank (.ends hmargin hmargin')
  | cons htoken hgap more ih =>
    rcases h' with _ | ⟨-, hgap', more'⟩
    · rcases more
    · exact htoken.plain.alike (hgap.startsBlank _) (hgap'.startsBlank _)
        (.gap hgap hgap' (ih more'))

/-- Reading a file starts behind its first gap. -/
theorem IsGap.read_program {gap : List Char} (h : IsGap gap) (text : List Char) :
    Reader.program.read (gap ++ text) = Reader.program.read text := by
  rw [Reader.program, Reader.read_named, Reader.read_bind, Reader.read_bind, Reader.gap,
    Reader.read_silent, h.dropGap_append]

/-- **Two layouts of the same tokens are alike**, up to the gap in front of each. -/
theorem LaysOut.exists_alike {tokens : List (List Char)} {first second : List Char}
    (h : LaysOut tokens first) (h' : LaysOut tokens second) :
    ∃ body body', Alike body body' ∧ Reader.program.read first = Reader.program.read body ∧
      Reader.program.read second = Reader.program.read body' := by
  rcases h with hgap | ⟨hgap, more⟩
  · rcases h' with hgap' | ⟨-, ⟨⟩⟩
    refine ⟨[], [], .ends (.inl rfl) (.inl rfl), ?_, ?_⟩
    · simpa using hgap.read_program []
    · simpa using hgap'.read_program []
  · rcases h' with _ | ⟨hgap', more'⟩
    · rcases more
    · exact ⟨_, _, more.alike more', hgap.read_program _, hgap'.read_program _⟩

/-- **The tree of a text depends on its tokens only**: two layouts of the same tokens have the same
tree, or neither has one. -/
theorem parse_independent_of_layout {tokens : List (List Char)} {first second : String}
    (h : LaysOut tokens first.toList) (h' : LaysOut tokens second.toList) :
    (∃ tree, parse first = .ok tree ∧ parse second = .ok tree) ∨
      ∃ error error', parse first = .error error ∧ parse second = .error error' := by
  obtain ⟨body, body', halike, hfirst, hsecond⟩ := h.exists_alike h'
  obtain ⟨hr, hr'⟩ | ⟨tree, rest, rest', hr, hr', -⟩ :=
    ReadAlike.program halike (Nat.lt_succ_self _) (Nat.lt_succ_self _)
  · obtain ⟨error, herror⟩ := parse_of_refused (hfirst.trans hr)
    obtain ⟨error', herror'⟩ := parse_of_refused (hsecond.trans hr')
    exact .inr ⟨error, error', herror, herror'⟩
  · exact .inl ⟨tree, parse_of_taken (hfirst.trans hr), parse_of_taken (hsecond.trans hr')⟩

namespace Spaced

/-- `set a = { b } ;` -/
def tokens : List (List Char) := ["set", "a", "=", "\x7b", "b", "\x7d", ";"].map String.toList

/-- A declaration with no more than single blanks. -/
def tight : String := "set a = \x7b b \x7d ;"

/-- The same declaration, spread out and commented. -/
def loose : String := "/* an alias */\nset\ta = // of one\n \x7b b \x7d\r\n;\n"

theorem laysOut {first last g₁ g₂ g₃ g₄ g₅ g₆ : List Char} (hfirst : IsGap first)
    (h₁ : IsSeparator g₁) (h₂ : IsSeparator g₂) (h₃ : IsSeparator g₃) (h₄ : IsSeparator g₄)
    (h₅ : IsSeparator g₅) (h₆ : IsSeparator g₆) (hlast : IsMargin last) :
    LaysOut tokens (first ++ ("set".toList ++ (g₁ ++ ("a".toList ++ (g₂ ++ ("=".toList ++ (g₃ ++
      ("\x7b".toList ++ (g₄ ++ ("b".toList ++ (g₅ ++ ("\x7d".toList ++ (g₆ ++
      (";".toList ++ last)))))))))))))) :=
  .some hfirst (.cons (.reserved (by decide)) h₁ (.cons (.identifier (by decide)) h₂
    (.cons (.symbol (by decide)) h₃ (.cons (.symbol (by decide)) h₄
    (.cons (.identifier (by decide)) h₅ (.cons (.symbol (by decide)) h₆
    (.last (.symbol (by decide)) hlast)))))))

theorem isSeparator_blank {c : Char} (h : isBlank c = true) : IsSeparator [c] :=
  ⟨.blank h .nil, c, [], rfl, h⟩

theorem laysOut_tight : LaysOut tokens tight.toList := by
  have hblank : IsSeparator [' '] := isSeparator_blank rfl
  exact laysOut .nil hblank hblank hblank hblank hblank hblank (.inl rfl)

theorem laysOut_loose : LaysOut tokens loose.toList := by
  have hblank : IsSeparator [' '] := isSeparator_blank rfl
  have hblock : IsGap ('/' :: '*' :: (" an alias ".toList ++ '*' :: '/' :: ['\n'])) :=
    .block (by decide) (.blank rfl .nil)
  have hline : IsSeparator (' ' :: '/' :: '/' :: (" of one".toList ++ '\n' :: [' '])) :=
    ⟨.blank rfl (.line (by decide) (.blank rfl .nil)), _, _, rfl, rfl⟩
  have hreturn : IsSeparator ['\r', '\n'] := ⟨.blank rfl (.blank rfl .nil), _, _, rfl, rfl⟩
  exact laysOut hblock (isSeparator_blank rfl) hblank hline hblank hblank hreturn
    (.inr (isSeparator_blank rfl))

end Spaced

/-- The two layouts of the declaration parse to one tree. -/
theorem parse_independent_of_layout_spaced :
    ∃ tree, parse Spaced.tight = .ok tree ∧ parse Spaced.loose = .ok tree := by
  obtain h | ⟨error, _, herror, -⟩ :=
    parse_independent_of_layout Spaced.laysOut_tight Spaced.laysOut_loose
  · exact h
  · have hok : (parse Spaced.tight).toOption.isSome = true := by decide +kernel
    rw [herror] at hok
    cases hok

end Peephole
