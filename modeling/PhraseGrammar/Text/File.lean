/-!
# Files of text

A file of text holds UTF-8. This module names what can keep a path from being read or written as
such a file, and says what a file system has to answer. One that can be computed with is a directory
of files by name.
-/

set_option autoImplicit false

namespace PhraseGrammar.Text

/-- Why a file could not be used. -/
inductive FileProblem where
  /-- Nothing has the path. -/
  | notFound
  /-- The path goes through a file as if that were a directory. -/
  | notDirectory
  /-- The path is that of a directory. -/
  | isDirectory
  /-- The bytes of the file are not UTF-8. -/
  | notText
  deriving DecidableEq

/-- The problem in words, with the number of the system's error where it is one. -/
def FileProblem.message : FileProblem → String
  | notFound => "No such file or directory (os error 2)"
  | notDirectory => "Not a directory (os error 20)"
  | isDirectory => "Is a directory (os error 21)"
  | notText => "stream did not contain valid UTF-8"

/-- The text of a file with these bytes. -/
def decodeText (bytes : ByteArray) : Except FileProblem String :=
  match String.fromUTF8? bytes with
  | some text => .ok text
  | none => .error .notText

theorem decodeText_toUTF8 (text : String) : decodeText text.toUTF8 = .ok text := by
  have hText : String.fromUTF8? text.toUTF8 = some text := dif_pos text.isValidUTF8
  rw [decodeText, hText]

/-! ## File systems -/

/-- How a world with files in it answers: with the text at a path, and with the world in which a
text has been written there. -/
class FileSystem (ω : Type) where
  read : ω → String → Except FileProblem String
  write : ω → String → String → Except FileProblem ω

/-! ## Directories -/

/-- A directory that holds files by name and no directory. The directories above it hold no file. -/
structure Directory where
  files : List (String × ByteArray)

/-- What a path leads to, seen from a directory. A path that ends in a slash asks for a
directory. -/
inductive Place where
  /-- The directory that the path starts in, or one above it. -/
  | directory
  /-- A name in the directory, with a slash after it or without. -/
  | entry (name : String) (slash : Bool)
  /-- Something below a name in the directory. -/
  | below (name : String)
  /-- A name in a directory above, with a slash after it or without. -/
  | outside (slash : Bool)
  /-- Something below a name that does not exist, or nothing at all. -/
  | nowhere
  deriving DecidableEq

/-- The parts of a path between its slashes. -/
def pathParts (path : String) : List String :=
  ((path.toList.splitOn '/').map String.ofList).filter fun part => part ≠ ""

/-- Where a path leads. As long as no name has come, a part of one dot stays in the directory and
one of two dots goes up, at the root to the root itself. -/
def place (path : String) : Place :=
  let dots := (pathParts path).takeWhile fun part => part = "." || part = ".."
  match (pathParts path).drop dots.length with
  | [] => if path = "" then .nowhere else .directory
  | name :: rest =>
    if path.startsWith "/" || dots.contains ".." then
      if rest = [] then .outside (path.endsWith "/") else .nowhere
    else
      if rest = [] then .entry name (path.endsWith "/") else .below name

namespace Directory

/-- The bytes of the file with the name. -/
def file? (directory : Directory) (name : String) : Option ByteArray :=
  (directory.files.find? fun file => file.1 = name).map Prod.snd

/-- What is wrong with a path that goes on after a name in the directory. -/
def problemBelow (directory : Directory) (name : String) : FileProblem :=
  if (directory.file? name).isSome then .notDirectory else .notFound

/-- Reads the file at the path as text. -/
def read (directory : Directory) (path : String) : Except FileProblem String :=
  match place path with
  | .directory => .error .isDirectory
  | .entry name slash =>
    match directory.file? name with
    | none => .error .notFound
    | some bytes => if slash then .error .notDirectory else decodeText bytes
  | .below name => .error (directory.problemBelow name)
  | .outside _ | .nowhere => .error .notFound

/-- A file that holds a text is read as the text. -/
theorem read_toUTF8 {directory : Directory} {path name text : String}
    (hPlace : place path = .entry name false)
    (hFile : directory.file? name = some text.toUTF8) : directory.read path = .ok text := by
  rw [read, hPlace]
  simp only [hFile]
  exact decodeText_toUTF8 text

/-- Makes the text the content of the file at the path. No file is made where the path asks for a
directory, whether there is one or not. -/
def write (directory : Directory) (path text : String) : Except FileProblem Directory :=
  match place path with
  | .directory | .entry _ true | .outside true => .error .isDirectory
  | .entry name false =>
    .ok ⟨(name, text.toUTF8) :: directory.files.filter fun file => file.1 ≠ name⟩
  | .below name => .error (directory.problemBelow name)
  | .outside false => .ok directory
  | .nowhere => .error .notFound

instance : FileSystem Directory where
  read := read
  write := write

end Directory

end PhraseGrammar.Text
