/-!
# Files

* `Path`, `Entry` — a place of the file system, and what stands there;
* `Files` — the file system: where names lead, what stands at the places, and what is refused;
* `Files.read` — what comes of reading under a name;
* `Files.write?` — the files after something has been written under a name.

Names and places are different things: a name may start at the root or at the working directory and
may lead through links, so that one file has many names. Writing sets the content of one place and
changes nothing on the way of a name.
-/

namespace Excerpt.Cli

/-- A place of the file system, given by the components of one path that leads to it. A file has one
place, however many names lead to it. -/
abbrev Path := List String

/-- What stands at a place. -/
inductive Entry where
  | file (content : ByteArray)
  | directory
  /-- Nothing. -/
  | vacant

/-- What is asked of the file system. -/
inductive Access where
  | opening
  /-- Reading what has been opened. -/
  | reading
  | writing
  deriving DecidableEq, Repr

structure Files where
  /-- The place that a name leads to, if it leads anywhere. -/
  locate : String → Option Path := fun _ => none
  entry : Path → Entry := fun _ => .vacant
  /-- The accesses that are refused, whatever stands at the place. -/
  refuses : Access → Path → Bool := fun _ _ => false

/-- What comes of reading under a name. -/
inductive Reading where
  | content (bytes : ByteArray)
  /-- Something is opened that cannot be read. -/
  | unread
  | unopened

namespace Files

/-- What stands under a name; where a name leads nowhere, nothing does. -/
def look (fs : Files) (name : String) : Entry :=
  match fs.locate name with
  | some place => fs.entry place
  | none => .vacant

/-- Whether anything stands under a name. -/
def isPresent (fs : Files) (name : String) : Bool :=
  match fs.look name with
  | .file _ | .directory => true
  | .vacant => false

/-- Open what stands under a name, and read it. A directory can be opened, but not be read. -/
def read (fs : Files) (name : String) : Reading :=
  match fs.locate name with
  | none => .unopened
  | some place =>
    if fs.refuses .opening place then .unopened
    else
      match fs.entry place with
      | .file bytes => if fs.refuses .reading place then .unread else .content bytes
      | .directory => .unread
      | .vacant => .unopened

def put (fs : Files) (place : Path) (content : ByteArray) : Files :=
  { fs with entry := fun other => if other = place then .file content else fs.entry other }

/-- Write under a name, over a file or where nothing stands. -/
def write? (fs : Files) (name : String) (content : ByteArray) : Option Files :=
  match fs.locate name with
  | none => none
  | some place =>
    if fs.refuses .writing place then none
    else
      match fs.entry place with
      | .file _ | .vacant => some (fs.put place content)
      | .directory => none

end Files

end Excerpt.Cli
