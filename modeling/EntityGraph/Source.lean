/-!
# Places in source texts

Every definition and every selection remembers where it was written: a line and a column, counted
from 1, in a file that may have no name. File names are compared by their components
(`SourcePath.components`), so `a//b` and `a/./b` are the file `a/b`, while `./a` is not `a`.
-/

namespace EntityGraph

/-- The name of a type, field, argument, operation or fragment. -/
abbrev Name := String

/-- A line and a column of a text, counted from 1. -/
structure Pos where
  line : Nat
  column : Nat
deriving DecidableEq

/-- The first place of a text. -/
def Pos.start : Pos := ⟨1, 1⟩

/-- The name of a file, as it was given. -/
structure SourcePath where
  text : String

namespace SourcePath

/-- Splits a text at each `/`. -/
def segments : List Char → List (List Char)
  | [] => [[]]
  | c :: rest =>
    if c = '/' then [] :: segments rest
    else
      match segments rest with
      | [] => [[c]]
      | s :: more => (c :: s) :: more

/-- What a path is compared by: whether it starts at the root, and its segments without the empty
ones and without `.`, except for a `.` that the path starts with. -/
def components (path : SourcePath) : Bool × List (List Char) :=
  let kept := fun s : List Char => s != [] && s != ['.']
  match segments path.text.toList with
  | [] => (false, [])
  | [] :: rest => (!rest.isEmpty, rest.filter kept)
  | s :: rest => (false, s :: rest.filter kept)

instance : BEq SourcePath := ⟨fun p q => p.components == q.components⟩

end SourcePath

/-- A place in a file, or in a text without a file. Lines and columns are words of 64 bits, the
range that stored positions may have. -/
structure FilePosition where
  col : UInt64
  file : Option SourcePath
  line : UInt64
deriving BEq

namespace FilePosition

/-- The place `pos` of a file. -/
def ofPos (file : Option SourcePath) (pos : Pos) : FilePosition :=
  ⟨pos.column.toUInt64, file, pos.line.toUInt64⟩

/-- Written `file:line:column`, or `line:column` without a file. -/
def render (p : FilePosition) : String :=
  match p.file with
  | some file => s!"{file.text}:{p.line.toNat}:{p.col.toNat}"
  | none => s!"{p.line.toNat}:{p.col.toNat}"

end FilePosition

/-- Where something was defined. -/
inductive SourceLocation where
  /-- Part of the language itself, such as the built-in scalars. -/
  | builtIn
  | executable (position : FilePosition)
  | schema (position : FilePosition)
deriving BEq

namespace SourceLocation

/-- The position in a file, which built-in definitions do not have. -/
def position? : SourceLocation → Option FilePosition
  | builtIn => none
  | executable p | schema p => some p

/-- Built-in definitions have no position to show. -/
def render : SourceLocation → String
  | builtIn => "<graphql built-in>"
  | executable p | schema p => p.render

/-- Whether this is the place of built-in definitions. -/
def isBuiltIn : SourceLocation → Bool
  | builtIn => true
  | executable _ | schema _ => false

/-- A place in a schema text. -/
def inSchema (file : Option SourcePath) (pos : Pos) : SourceLocation :=
  schema (.ofPos file pos)

/-- A place in the text of an executable document. -/
def inExecutable (file : Option SourcePath) (pos : Pos) : SourceLocation :=
  executable (.ofPos file pos)

end SourceLocation

end EntityGraph
