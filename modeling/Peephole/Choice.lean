import Peephole.Binding

/-!
# Choice — one instruction for every slot

An expansion fixes an instruction for each binding of a rule.  A choice keeps them with the display
names of the bindings, which is how messages spell it: `x=iadd, unnamed=iload`.
-/

namespace Peephole

/-- The instructions chosen for the bindings of a rule. -/
structure Choice where
  /-- Display names and instructions, slot by slot. -/
  entries : List (String × String)
deriving DecidableEq, Repr

namespace Choice

/-- The choice of an instruction for each binding; what is left over of either is dropped. -/
def ofBindings (bindings : List Binding) (instructions : List String) : Choice :=
  ⟨(bindings.map Binding.displayName).zip instructions⟩

/-- The instruction of a slot. -/
def instruction? (choice : Choice) (slot : Nat) : Option String :=
  choice.entries[slot]?.map (·.2)

/-- The instructions chosen, in the order of the bindings. -/
def instructions (choice : Choice) : List String := choice.entries.map (·.2)

/-- How messages spell a choice. -/
def text (choice : Choice) : String :=
  ", ".intercalate (choice.entries.map fun (name, instruction) => name ++ "=" ++ instruction)

end Choice

end Peephole
