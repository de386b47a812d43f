import Peephole.Host

/-!
# Discovery — the pattern files that paths stand for

A file stands for itself, whatever its name.  A directory stands for its own files with the
extension of pattern files, in the order of their names.
-/

namespace Peephole

/-- Whether a path has an extension, told with or without dots in front. -/
def hasExtension (path extension : String) : Bool :=
  Path.extension? path == some (String.ofList (extension.toList.dropWhile (· == '.')))

section

variable {m : Type → Type} [Monad m] [Host m]

/-- The pattern files among the entries of a directory. -/
def sourcesAmong (directory extension : String) : List String → m (List String)
  | [] => return []
  | name :: names => do
    let path := Path.join directory name
    let type ← Host.stat path
    let more ← sourcesAmong directory extension names
    if type matches .ok .file && hasExtension path extension then return path :: more
    else return more

/-- The pattern files of one path. -/
def sourcesOf (path extension : String) : m (Except OsError (List String)) := do
  match ← Host.stat path with
  | .error cause => return .error cause
  | .ok .file => return .ok [path]
  | .ok .directory =>
    match ← Host.list path with
    | .error cause => return .error cause
    | .ok names =>
      let sources ← sourcesAmong path extension (names.mergeSort fun a b => decide (a ≤ b))
      Host.log (.sourcesFound sources.length path)
      return .ok sources

/-- The pattern files of paths, in order, or the first path that cannot be read. -/
def discover (extension : String) : List String → m (Except (String × OsError) (List String))
  | [] => return .ok []
  | path :: paths => do
    match ← sourcesOf path extension with
    | .error cause => return .error (path, cause)
    | .ok sources =>
      match ← discover extension paths with
      | .error failure => return .error failure
      | .ok more => return .ok (sources ++ more)

end

end Peephole
