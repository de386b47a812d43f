import Peephole.Config
import Peephole.Expansion

/-!
# GeneratedFile — the C file of a pattern file

The file is the preamble, the matchers of the rules in source order, and the function that registers
them.  Rules do not see each other: each is expanded under the aliases of the file.
-/

namespace Peephole

/-- The code generated for a pattern file. -/
structure GeneratedFile where
  code : String
  /-- The name of the registration function. -/
  initFunction : String
  /-- The names of the matchers, in order of registration. -/
  functionNames : List String
deriving DecidableEq, Repr

namespace GeneratedFile

/-- The name of the registration function of a file: what a C identifier cannot hold becomes `_`. -/
def initFunctionName (config : Config) (stem : String) : String :=
  let name := stem.toList.map fun c => if isWordChar c then c else '_'
  config.initPrefix ++ (if name.isEmpty then "_" else String.ofList name)

/-- The preamble, ended by a line break unless it is empty. -/
def preambleText (config : Config) : String :=
  if config.preamble = "" ∨ config.preamble.toList.getLast? = some '\n' then config.preamble
  else config.preamble ++ "\n"

/-- Expands rules in order, up to the first fault. -/
def emit (table : AliasTable) : Emission → List Node → Logged Fault Emission
  | emission, [] => return emission
  | emission, rule :: rules => do
    let (count, emission) := expandRule rule table emission
    let _ ← count
    emit table emission rules

/-- Generates the C file of a program. -/
def ofProgram (config : Config) (program : Node) (stem : String) : Logged Fault GeneratedFile := do
  let table ← AliasTable.build program
  let emission ← emit table .empty program.rules
  let initFunction := initFunctionName config stem
  Logged.report [.fileGenerated emission.registry.size table.size stem]
  return {
    code := preambleText config ++ emission.text ++
      emission.registry.initFunction initFunction config.registrar
    initFunction
    functionNames := emission.registry.names }

end GeneratedFile

end Peephole
