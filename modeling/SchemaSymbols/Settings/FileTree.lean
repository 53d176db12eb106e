/-
  The files that a configuration can be read from, and where names lead among them.

  Names are relative to the working directory.  Their parts are divided by slashes, and two points
  stand for the directory above.  A name leads to a file only through directories that exist.
-/
import SchemaSymbols.Text.Split

namespace SchemaSymbols

/-- A place seen from the working directory: so many directories up, and then down by names. -/
structure Place where
  up : Nat := 0
  down : List String := []
deriving DecidableEq, Repr, Inhabited

namespace Place

/-- The directory above. -/
def parent (p : Place) : Place :=
  if p.down = [] then { p with up := p.up + 1 } else { p with down := p.down.dropLast }

/-- What has this name in a directory. -/
def child (p : Place) (name : String) : Place := { p with down := p.down ++ [name] }

end Place

/-- The files and directories that there are; all directories above these exist as well. -/
structure FileTree where
  files : List (Place × String) := []
  directories : List Place := []
deriving DecidableEq, Repr, Inhabited

namespace FileTree

/-! ## Names -/

/-- The most bytes of a part of a name. -/
def maxPartSize : Nat := 255

/-- The most bytes of a name. -/
def maxNameSize : Nat := 4095

/-- The parts of a name, if it is one that can be looked up from the working directory. -/
def parts? (name : String) : Option (List String) :=
  let parts := (Text.pieces '/' name.toList).map String.ofList
  if name.startsWith "/" || name.contains '\x00' || maxNameSize < name.utf8ByteSize
    || parts.any (fun p => maxPartSize < p.utf8ByteSize) then none
  else some parts

/-- Whether a part of a name leads nowhere. -/
def isIdle (part : String) : Bool := part = "" || part = "."

/-! ## Places -/

/-- Whether there is a directory at a place. -/
def isDirectory (t : FileTree) (p : Place) : Bool := p.down.isEmpty || t.directories.contains p

/-- The text of the file at a place. -/
def textAt? (t : FileTree) (p : Place) : Option String := t.files.lookup p

/-- The directory that parts of a name lead to. -/
def follow? (t : FileTree) : List String → Place → Option Place
  | [], p => some p
  | part :: rest, p =>
    if isIdle part then follow? t rest p
    else if part = ".." then follow? t rest p.parent
    else if t.isDirectory (p.child part) then follow? t rest (p.child part)
    else none

/-- The place that a name of a file leads to.  Its last part is the name of the file itself. -/
def place? (t : FileTree) (name : String) : Option Place := do
  let parts ← parts? name
  let last ← parts.getLast?
  if isIdle last ∨ last = ".." then none
  return (← t.follow? parts.dropLast {}).child last

/-- The text of a file. -/
def read? (t : FileTree) (name : String) : Option String := do t.textAt? (← t.place? name)

/-- Writes a file into a directory that exists. -/
def write? (t : FileTree) (name text : String) : Option FileTree := do
  let p ← t.place? name
  if t.isDirectory p then none
  return { t with files := (p, text) :: t.files.filter (·.1 != p) }

/-- Makes the directories that parts of a name lead through. -/
def makeDirectories? (t : FileTree) : List String → Place → Option FileTree
  | [], _ => some t
  | part :: rest, p =>
    if isIdle part then makeDirectories? t rest p
    else if part = ".." then makeDirectories? t rest p.parent
    else
      let p := p.child part
      if (t.textAt? p).isSome then none
      else if t.isDirectory p then makeDirectories? t rest p
      else makeDirectories? { t with directories := p :: t.directories } rest p

/-- Writes a file, and the directories it needs. -/
def provide? (t : FileTree) (name text : String) : Option FileTree := do
  let parts ← parts? name
  let t ← t.makeDirectories? parts.dropLast {}
  t.write? name text

/-- The tree of files given by name, written one after the other, if all of them can be written. -/
def ofList? (files : List (String × String)) : Option FileTree :=
  files.foldlM (fun t f => t.provide? f.1 f.2) {}

/-! ## Configuration files -/

/-- What is found under the name of a configuration file. -/
inductive Found where
  /-- Nothing. -/
  | nothing
  /-- A file of another kind. -/
  | foreign
  /-- A TOML file. -/
  | toml (text : String)

/-- Whether the last part of a name has the ending of TOML files behind a name of its own. -/
def isTomlName (name : String) : Bool :=
  let last := ((Text.pieces '/' name.toList).getLast?.getD []).reverse
  ".toml".toList.reverse.isPrefixOf last && ".toml".length < last.length

/-- A name with the ending of TOML files added to its last part; parts at the end that lead nowhere
are dropped. -/
def withEnding? (name : String) : Option String :=
  let parts := (Text.pieces '/' name.toList).map String.ofList
  match parts.reverse.dropWhile isIdle with
  | [] => none
  | last :: before =>
    if last = ".." then none
    else some ("/".intercalate (before.reverse ++ [last ++ ".toml"]))

/-- Looks for a configuration file; where there is none of that name, the ending of TOML files is
added to the name. -/
def find (t : FileTree) (name : String) : Found :=
  match t.read? name with
  | some text => if isTomlName name then .toml text else .foreign
  | none =>
    match withEnding? name >>= t.read? with
    | some text => .toml text
    | none => .nothing

end FileTree

end SchemaSymbols
