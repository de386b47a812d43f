/-!
# Registry — the function that registers the matchers of a file

The optimizer tries matchers in the order in which they were registered, so a registry is a list of
names in order of generation.
-/

namespace Peephole

/-- The names of the matchers of a file, in order. -/
structure Registry where
  names : List String
deriving DecidableEq, Repr

namespace Registry

/-- Nothing registered. -/
def empty : Registry := ⟨[]⟩

/-- Registers one more name, behind the others. -/
def register (registry : Registry) (name : String) : Registry := ⟨registry.names ++ [name]⟩

/-- The number of names registered. -/
def size (registry : Registry) : Nat := registry.names.length

/-- Whether no name is registered. -/
def isEmpty (registry : Registry) : Bool := registry.names.isEmpty

/-- The C function that hands each matcher to `registrar`. -/
def initFunction (registry : Registry) (functionName registrar : String) : String :=
  "int " ++ functionName ++ "(void)\n\x7b\n" ++
    String.join (registry.names.map fun name => "    " ++ registrar ++ "(" ++ name ++ ");\n") ++
    "    return 1;\n\x7d\n"

end Registry

end Peephole
