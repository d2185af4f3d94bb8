/-!
# File names

The extension of a file name is what follows its last dot, unless that dot comes first.  An
extension is taken off before another is put on.  From a name such as `..x` that leaves `..`, the
directory above, which has no extension.
-/

namespace Codegen6502.Path

/-- The part of a path up to its last slash, and the file name. -/
def split (path : List Char) : List Char × List Char :=
  let name := (path.reverse.takeWhile (· ≠ '/')).reverse
  (path.take (path.length - name.length), name)

/-- The file name without its extension. -/
def stem (name : List Char) : List Char :=
  match name.reverse.dropWhile (· ≠ '.') with
  | _ :: before => if before.isEmpty then name else before.reverse
  | [] => name

/-- The path of a file with another extension. -/
def withExtension (path extension : String) : String :=
  let (directory, name) := split path.toList
  let stem := stem name
  if stem = ['.'] then String.ofList (directory ++ ['.', '.'])
  else String.ofList (directory ++ stem) ++ "." ++ extension

end Codegen6502.Path
