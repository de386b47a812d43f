/-!
# Template — text with holes

A template is built once per rule and filled once per choice of instructions: its slots stand for
the entries of a list of values.  A slot without a value is left empty.
-/

namespace Peephole

/-- A piece of a template. -/
inductive Piece where
  | text (content : String)
  | slot (index : Nat)
deriving DecidableEq, Repr

/-- The text that values make of a piece. -/
def Piece.instantiate (values : List String) : Piece → String
  | .text content => content
  | .slot index => values[index]?.getD ""

/-- Text with holes. -/
structure Template where
  pieces : List Piece
deriving DecidableEq, Repr

namespace Template

/-- The template of the empty text. -/
def empty : Template := ⟨[]⟩

instance : Append Template := ⟨fun a b => ⟨a.pieces ++ b.pieces⟩⟩

/-- A template without holes. -/
def ofText (text : String) : Template := ⟨[.text text]⟩

/-- A template that is one hole. -/
def ofSlot (index : Nat) : Template := ⟨[.slot index]⟩

/-- Templates one after the other. -/
def concat (templates : List Template) : Template := ⟨templates.flatMap pieces⟩

/-- Puts a text at the end of a template. -/
def pushText (template : Template) (text : String) : Template := template ++ ofText text

/-- Puts a slot at the end of a template. -/
def pushSlot (template : Template) (index : Nat) : Template := template ++ ofSlot index

/-- One more than the highest slot, or 0 without slots. -/
def slotCount (template : Template) : Nat :=
  template.pieces.foldl (fun count piece =>
    match piece with
    | .text _ => count
    | .slot index => max count (index + 1)) 0

/-- Fills the slots with values. -/
def instantiate (template : Template) (values : List String) : String :=
  String.join (template.pieces.map (Piece.instantiate values))

@[simp] theorem instantiate_ofText (text : String) (values : List String) :
    (ofText text).instantiate values = text := by
  simp [instantiate, ofText, Piece.instantiate]

@[simp] theorem instantiate_ofSlot (index : Nat) (values : List String) :
    (ofSlot index).instantiate values = values[index]?.getD "" := by
  simp [instantiate, ofSlot, Piece.instantiate]

@[simp] theorem pieces_append (a b : Template) : (a ++ b).pieces = a.pieces ++ b.pieces := rfl

@[simp] theorem instantiate_append (a b : Template) (values : List String) :
    (a ++ b).instantiate values = a.instantiate values ++ b.instantiate values := by
  simp [instantiate]

/-- Templates one behind the other give their texts one behind the other. -/
theorem instantiate_concat (templates : List Template) (values : List String) :
    (concat templates).instantiate values
      = String.join (templates.map (instantiate · values)) := by
  induction templates with
  | nil => rfl
  | cons template templates ih =>
    have hstep : concat (template :: templates) = template ++ concat templates := rfl
    rw [hstep, instantiate_append, ih]
    simp

end Template

end Peephole
