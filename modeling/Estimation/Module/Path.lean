import Estimation.Text.Pieces

/-!
Paths of module files. A path is a row of steps, up or into a directory or file; steps that lead
nowhere are not part of it. Modules in files are named by paths in which nothing is undone.
-/

namespace Estimation

namespace ModulePath

inductive Step where
  | up
  | into (name : List Char)
  deriving DecidableEq, Repr

namespace Step

/-- Empty names and single dots are no steps. -/
def ofName? (name : List Char) : Option Step :=
  if name = [] ∨ name = ['.'] then none
  else if name = ['.', '.'] then some .up
  else some (.into name)

def text : Step → List Char
  | .up => ['.', '.']
  | .into name => name

end Step

end ModulePath

structure ModulePath where
  /-- Whether the path starts at the root of all files. -/
  absolute : Bool
  steps : List ModulePath.Step
  deriving DecidableEq, Repr

namespace ModulePath

/-- The path that a text writes. -/
def ofText (text : List Char) : ModulePath :=
  ⟨text.head? = some '/', (Text.pieces '/' text).filterMap Step.ofName?⟩

def text (path : ModulePath) : List Char :=
  (if path.absolute then ['/'] else []) ++ ['/'].intercalate (path.steps.map Step.text)

/-- The path one step up from where `path` ends, by leaving out its last step. -/
def parent (path : ModulePath) : ModulePath :=
  if path.steps.isEmpty then ⟨false, []⟩ else ⟨path.absolute, path.steps.dropLast⟩

def append (path : ModulePath) (steps : List Step) : ModulePath := ⟨path.absolute, path.steps ++ steps⟩

/-- Takes one more step; going up undoes a step into something. -/
def take (done : List Step) : Step → List Step
  | .into name => done ++ [.into name]
  | .up =>
    match done.getLast? with
    | some (.into _) => done.dropLast
    | _ => done ++ [.up]

/-- The same path without steps that are undone. -/
def normal (path : ModulePath) : ModulePath := ⟨path.absolute, path.steps.foldl take []⟩

/-- A name has an extension if there is a dot in it behind its first character. -/
def hasExtension (name : List Char) : Bool := '.' ∈ name.drop 1

/-- Adds an extension to the file at the end of the path, if it has none. -/
def withExtension (extension : List Char) (path : ModulePath) : ModulePath :=
  match path.steps.getLast? with
  | some (.into name) =>
    if hasExtension name then path
    else ⟨path.absolute, path.steps.dropLast ++ [.into (name ++ '.' :: extension)]⟩
  | _ => path

/-- The name of the module in the file at a path. -/
def moduleName (path : ModulePath) : String :=
  String.ofList (path.normal.text.map fun c => if c = '\\' then '/' else c)

/-- A path that is written backwards, without the separators and single dots that come first. -/
def trimmed : List Char → List Char
  | '/' :: '.' :: '/' :: rest => trimmed ('/' :: rest)
  | '/' :: rest => if rest.isEmpty then ['/'] else trimmed rest
  | rest => rest

/-- The text of the directory that a file stands in. -/
def directoryText (path : List Char) : List Char :=
  (trimmed (path.reverse.dropWhile (· ≠ '/'))).reverse

/-- The text of a path that is meant from a directory. -/
def joinText (directory path : List Char) : List Char :=
  if path.head? = some '/' ∨ directory = [] then path
  else if directory.getLast? = some '/' then directory ++ path
  else directory ++ '/' :: path

end ModulePath

end Estimation
