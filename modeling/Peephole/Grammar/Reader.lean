import Peephole.Grammar.Symbol

/-!
# Grammar/Reader — reading with ordered choice, and the account of a failure

A reader takes a value off the front of a text or refuses.  Choice is ordered: an alternative is
tried only where the one before it refused.  A reader has two sides:

    read : what it takes                    trace : the same, and what it looked for on the way

`read` never sees the attempts, so what a text means does not depend on how errors are told.
`trace` is run only once a reading has failed, and takes what `read` takes (`Reader.trace_fst`).

The attempts kept are those at the furthest place reached, measured by the text still left.  A
symbol that fails speaks for the parts it looked for at its own first character, unless exactly one
such part spoke already (`Attempts.record`).
-/

namespace Peephole

/-- The symbols looked for in vain at the furthest place reached so far. -/
structure Attempts where
  /-- How much text is left at that place. -/
  left : Nat
  /-- The symbols, in the order in which they failed. -/
  symbols : List Symbol

namespace Attempts

/-- Nothing tried yet, at the start of a text. -/
def start (text : List Char) : Attempts := ⟨text.length, []⟩

/-- The number of attempts kept for the place where `left` characters remain. -/
def countAt (attempts : Attempts) (left : Nat) : Nat :=
  if attempts.left = left then attempts.symbols.length else 0

/-- The attempts after `symbol` failed where `left` characters remain.  `before` are the attempts
with which it set out and `after` those its parts left behind: what the parts noted at the same
place gives way to the symbol, except a single attempt, which says more than the symbol would. -/
def record (before after : Attempts) (symbol : Symbol) (left : Nat) : Attempts :=
  let kept := before.countAt left
  if after.countAt left = kept + 1 then after
  else if left < after.left then ⟨left, [symbol]⟩
  else if left = after.left then ⟨left, after.symbols.take kept ++ [symbol]⟩
  else after

end Attempts

/-- A reader of values of type `α`. -/
structure Reader (α : Type) where
  /-- The value at the front of a text and the text after it. -/
  read : List Char → Option (α × List Char)
  /-- What is read, and the attempts after reading, given those before. -/
  trace : List Char → Attempts → Option (α × List Char) × Attempts
  trace_fst : ∀ text attempts, (trace text attempts).1 = read text

namespace Reader

variable {α β : Type}

/-- Reads with a plain function, whose failures no message names. -/
def silent (scan : List Char → Option (α × List Char)) : Reader α where
  read := scan
  trace text attempts := (scan text, attempts)
  trace_fst _ _ := rfl

/-- Takes nothing. -/
protected def pure (value : α) : Reader α := silent fun text => some (value, text)

/-- Refuses every text. -/
protected def failure : Reader α := silent fun _ => none

/-- Reads with `first`, then what its value asks for. -/
protected def bind (first : Reader α) (next : α → Reader β) : Reader β where
  read text :=
    match first.read text with
    | none => none
    | some (value, rest) => (next value).read rest
  trace text attempts :=
    match first.trace text attempts with
    | (none, after) => (none, after)
    | (some (value, rest), after) => (next value).trace rest after
  trace_fst text attempts := by
    rw [← first.trace_fst text attempts]
    rcases first.trace text attempts with ⟨_ | ⟨value, rest⟩, after⟩
    · rfl
    · exact (next value).trace_fst rest after

/-- Reads with `first`, or with `second` where that refuses. -/
protected def orElse (first : Reader α) (second : Unit → Reader α) : Reader α where
  read text :=
    match first.read text with
    | none => (second ()).read text
    | some result => some result
  trace text attempts :=
    match first.trace text attempts with
    | (none, after) => (second ()).trace text after
    | (some result, after) => (some result, after)
  trace_fst text attempts := by
    rw [← first.trace_fst text attempts]
    rcases first.trace text attempts with ⟨_ | result, after⟩
    · exact (second ()).trace_fst text after
    · rfl

instance : Monad Reader where
  pure := Reader.pure
  bind := Reader.bind

instance : Alternative Reader where
  failure := Reader.failure
  orElse := Reader.orElse

/-- Reads a part of the grammar: its failure is recorded under `symbol`. -/
def named (symbol : Symbol) (body : Reader α) : Reader α where
  read := body.read
  trace text attempts :=
    match body.trace text attempts with
    | (none, after) => (none, attempts.record after symbol text.length)
    | (some result, after) => (some result, after)
  trace_fst text attempts := by
    rw [← body.trace_fst text attempts]
    rcases body.trace text attempts with ⟨_ | result, after⟩ <;> rfl

/-- Reads a token: a part of the grammar with no parts of its own. -/
def token (symbol : Symbol) (scan : List Char → Option (α × List Char)) : Reader α :=
  named symbol (silent scan)

/-- Puts off building a reader until it is used. -/
def delay (reader : Unit → Reader α) : Reader α where
  read text := (reader ()).read text
  trace text attempts := (reader ()).trace text attempts
  trace_fst := (reader ()).trace_fst

/-- Reads what may nest, with `reader depth` for at most `depth` levels.  Every level takes a
character, so a text has fewer levels than characters. -/
def nested (reader : Nat → Reader α) : Reader α where
  read text := (reader (text.length + 1)).read text
  trace text attempts := (reader (text.length + 1)).trace text attempts
  trace_fst text := (reader (text.length + 1)).trace_fst text

/-- Reads at most one. -/
def optional? (reader : Reader α) : Reader (Option α) :=
  (do return some (← reader)) <|> return none

/-! ## Repetition

The number of rounds is bounded by the length of the text, which no repetition that takes a
character each round can reach. -/

/-- As many values as stand one after the other, in at most `rounds` rounds. -/
def readMany (reader : Reader α) : Nat → List Char → List α × List Char
  | 0, text => ([], text)
  | rounds + 1, text =>
    match reader.read text with
    | none => ([], text)
    | some (value, rest) =>
      let (values, last) := readMany reader rounds rest
      (value :: values, last)

/-- The same with attempts, those of the failing last round included. -/
def traceMany (reader : Reader α) :
    Nat → List Char → Attempts → (List α × List Char) × Attempts
  | 0, text, attempts => (([], text), attempts)
  | rounds + 1, text, attempts =>
    match reader.trace text attempts with
    | (none, after) => (([], text), after)
    | (some (value, rest), after) =>
      let ((values, last), final) := traceMany reader rounds rest after
      ((value :: values, last), final)

/-- Recording the attempts changes nothing about what is read. -/
theorem traceMany_fst (reader : Reader α) (rounds : Nat) (text : List Char)
    (attempts : Attempts) :
    (traceMany reader rounds text attempts).1 = readMany reader rounds text := by
  induction rounds generalizing text attempts with
  | zero => rfl
  | succ rounds ih =>
    rw [traceMany, readMany, ← reader.trace_fst text attempts]
    rcases reader.trace text attempts with ⟨_ | ⟨value, rest⟩, after⟩
    · rfl
    · simp only [← ih rest after]

/-- Reads as often as possible. -/
def many (reader : Reader α) : Reader (List α) where
  read text := some (readMany reader (text.length + 1) text)
  trace text attempts :=
    let (result, after) := traceMany reader (text.length + 1) text attempts
    (some result, after)
  trace_fst text attempts := congrArg some (traceMany_fst reader _ text attempts)

/-! ## What each reader takes -/

@[simp] theorem read_pure (value : α) (text : List Char) :
    (pure value : Reader α).read text = some (value, text) := rfl

/-- A sequence reads with the second reader where the first one stops. -/
theorem read_bind (first : Reader α) (next : α → Reader β) (text : List Char) :
    (first >>= next).read text =
      (first.read text).bind fun result => (next result.1).read result.2 := by
  show (match first.read text with
    | none => none
    | some (value, rest) => (next value).read rest) = _
  cases first.read text <;> rfl

/-- The second reader starts where the first one did, and only if that one fails. -/
theorem read_orElse (first second : Reader α) (text : List Char) :
    (first <|> second).read text = (first.read text).or (second.read text) := by
  show (match first.read text with
    | none => second.read text
    | some result => some result) = _
  cases first.read text <;> rfl

@[simp] theorem read_failure (text : List Char) : (failure : Reader α).read text = none := rfl

@[simp] theorem read_silent (scan : List Char → Option (α × List Char)) :
    (silent scan).read = scan := rfl

@[simp] theorem read_named (symbol : Symbol) (body : Reader α) :
    (named symbol body).read = body.read := rfl

@[simp] theorem read_token (symbol : Symbol) (scan : List Char → Option (α × List Char)) :
    (token symbol scan).read = scan := rfl

@[simp] theorem delay_eq (reader : Unit → Reader α) : delay reader = reader () := rfl

@[simp] theorem read_nested (reader : Nat → Reader α) (text : List Char) :
    (nested reader).read text = (reader (text.length + 1)).read text := rfl

/-- A repetition ends where the reader is refused. -/
theorem readMany_of_refused {reader : Reader α} {text : List Char} (h : reader.read text = none)
    (rounds : Nat) : readMany reader rounds text = ([], text) := by
  cases rounds with
  | zero => rfl
  | succ rounds => rw [readMany, h]

/-- A repetition goes on behind what the reader takes. -/
theorem readMany_of_taken {reader : Reader α} {text rest : List Char} {value : α}
    (h : reader.read text = some (value, rest)) (rounds : Nat) :
    readMany reader (rounds + 1) text
      = (value :: (readMany reader rounds rest).1, (readMany reader rounds rest).2) := by
  rw [readMany, h]

@[simp] theorem read_many (reader : Reader α) (text : List Char) :
    (many reader).read text = some (readMany reader (text.length + 1) text) := rfl

end Reader

end Peephole
