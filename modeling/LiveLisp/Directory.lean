/-
  Text files below a directory, and how a path leads to one of them.

  A path is read part by part. An empty part and a point stay where they are, two points lead back,
  and a part after a file leads nowhere. Of what lies outside the directory nothing is known but
  that one can stand there.
-/
namespace LiveLisp

/-- Why a file cannot be read. -/
inductive ReadProblem where
  | missing
  | denied
  | notDirectory
  | isDirectory
  | nameTooLong
  | notText
deriving DecidableEq, Repr

def ReadProblem.message : ReadProblem → String
  | missing => "No such file or directory (os error 2)"
  | denied => "Permission denied (os error 13)"
  | notDirectory => "Not a directory (os error 20)"
  | isDirectory => "Is a directory (os error 21)"
  | nameTooLong => "File name too long (os error 36)"
  | notText => "stream did not contain valid UTF-8"

/-- The parts of a path, between its slashes. -/
def pathParts : List Char → List (List Char)
  | [] => [[]]
  | c :: cs =>
    if c = '/' then [] :: pathParts cs
    else
      match pathParts cs with
      | [] => [[c]]
      | part :: parts => (c :: part) :: parts

/-- Files by the parts of their paths. -/
structure Directory where
  files : List (List (List Char) × String)

/-- Where a path has led so far. -/
inductive Place where
  | outside
  | directory (path : List (List Char))
  | file (content : String)

namespace Directory

def ofFiles (files : List (String × String)) : Directory where
  files := files.map fun (name, content) => (pathParts name.toList, content)

/-- A name has at most this many bytes. -/
def nameLimit : Nat := 255

/-- A path has fewer than this many bytes. -/
def pathLimit : Nat := 4096

/-- What there is at a path below the directory. -/
def entry (d : Directory) (path : List (List Char)) : Except ReadProblem Place :=
  match d.files.find? (·.1 == path) with
  | some (_, content) => .ok (.file content)
  | none => if d.files.any (path.isPrefixOf ·.1) then .ok (.directory path) else .error .missing

/-- Where the next part of a path leads. -/
def follow (d : Directory) (place : Place) (part : List Char) : Except ReadProblem Place :=
  match place with
  | .file _ => .error .notDirectory
  | .outside =>
    if part.isEmpty || part == ['.'] || part == ['.', '.'] then .ok .outside
    else if nameLimit < (String.ofList part).utf8ByteSize then .error .nameTooLong
    else .error .missing
  | .directory path =>
    if part.isEmpty || part == ['.'] then .ok place
    else if part == ['.', '.'] then
      .ok (if path.isEmpty then .outside else .directory path.dropLast)
    else if nameLimit < (String.ofList part).utf8ByteSize then .error .nameTooLong
    else d.entry (path ++ [part])

/-- The content of the file at a path. -/
def read (d : Directory) (path : String) : Except ReadProblem String :=
  if pathLimit ≤ path.utf8ByteSize then .error .nameTooLong
  else
    let start : Place := if path.startsWith "/" then .outside else .directory []
    match (pathParts path.toList).foldlM d.follow start with
    | .ok (.file content) => .ok content
    | .ok _ => .error .isDirectory
    | .error problem => .error problem

end Directory

end LiveLisp
