import Peephole.Fault

/-!
# Notice — what a generation reports while it runs

Notices are data: who runs a generation decides what to show.  `Logged` carries them along with a
result that may be an error.  The notices before an error stay, and the result of a logged
computation never depends on them (`result_bind`).
-/

namespace Peephole

/-- How much a report matters. -/
inductive Level where
  | error
  | warn
  | info
  | debug
deriving DecidableEq, Repr

/-- A report of a generation. -/
inductive Notice where
  /-- A set lists an instruction again. -/
  | repeatedInstruction (instruction aliasName : String)
  /-- A rule ranges over a set without instructions. -/
  | emptyExpansion (rule : String)
  | matcherGenerated (name : String)
  | fileGenerated (matchers aliases : Nat) (stem : String)
deriving DecidableEq, Repr

namespace Notice

/-- How much a notice matters. -/
def level : Notice → Level
  | repeatedInstruction .. => .warn
  | emptyExpansion _ => .warn
  | matcherGenerated _ => .debug
  | fileGenerated .. => .info

/-- The wording of a notice. -/
def message : Notice → String
  | repeatedInstruction instruction aliasName =>
    "Instruction '" ++ instruction ++ "' listed more than once in set '" ++ aliasName ++ "'"
  | emptyExpansion rule =>
    "Rule '" ++ rule ++ "' ranges over an empty instruction set and generates nothing"
  | matcherGenerated name => "Generated " ++ name
  | fileGenerated matchers aliases stem =>
    "Generated " ++ toString matchers ++ " pattern functions from " ++ toString aliases ++
      " aliases for '" ++ stem ++ "'"

end Notice

/-- A value or an error, and the notices on the way to it. -/
structure Logged (ε α : Type) where
  notices : List Notice
  result : Except ε α

namespace Logged

variable {ε δ α β : Type}

/-- Goes on with the value, unless there is an error. -/
protected def bind (first : Logged ε α) (next : α → Logged ε β) : Logged ε β :=
  match first.result with
  | .error error => ⟨first.notices, .error error⟩
  | .ok value => ⟨first.notices ++ (next value).notices, (next value).result⟩

instance : Monad (Logged ε) where
  pure value := ⟨[], .ok value⟩
  bind := Logged.bind

/-- Reports and goes on. -/
def report (notices : List Notice) : Logged ε Unit := ⟨notices, .ok ()⟩

/-- A result without notices. -/
def ofExcept (result : Except ε α) : Logged ε α := ⟨[], result⟩

/-- Tells the error in other terms. -/
def mapError (f : ε → δ) (logged : Logged ε α) : Logged δ α :=
  ⟨logged.notices, logged.result.mapError f⟩

@[simp] theorem result_pure (value : α) : (pure value : Logged ε α).result = .ok value := rfl

@[simp] theorem notices_pure (value : α) : (pure value : Logged ε α).notices = [] := rfl

@[simp] theorem result_bind (first : Logged ε α) (next : α → Logged ε β) :
    (first >>= next).result = first.result >>= fun value => (next value).result := by
  show (Logged.bind first next).result = _
  obtain ⟨notices, result⟩ := first
  cases result <;> rfl

@[simp] theorem result_report (notices : List Notice) :
    (report notices : Logged ε Unit).result = .ok () := rfl

@[simp] theorem result_ofExcept (result : Except ε α) : (ofExcept result).result = result := rfl

@[simp] theorem result_mapError (f : ε → δ) (logged : Logged ε α) :
    (logged.mapError f).result = logged.result.mapError f := rfl

end Logged

/-- A computation succeeds where its parts do. -/
theorem bind_eq_ok_iff {ε α β : Type} {first : Except ε α} {next : α → Except ε β} {value : β} :
    (first >>= next) = .ok value ↔ ∃ a, first = .ok a ∧ next a = .ok value := by
  cases first with
  | error fault => simp [bind, Except.bind]
  | ok a => simp [bind, Except.bind]

/-- A computation fails where the first of its parts to fail does. -/
theorem bind_eq_error_iff {ε α β : Type} {first : Except ε α} {next : α → Except ε β} {error : ε} :
    (first >>= next) = .error error ↔
      first = .error error ∨ ∃ a, first = .ok a ∧ next a = .error error := by
  cases first with
  | error fault => simp [bind, Except.bind]
  | ok a => simp [bind, Except.bind]

theorem eq_ok_of_toOption {ε α : Type} {result : Except ε α} {value : α}
    (h : result.toOption = some value) : result = .ok value := by
  cases result with
  | error fault => simp [Except.toOption] at h
  | ok a => simpa [Except.toOption] using h

end Peephole
