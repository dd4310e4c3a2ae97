import Dragon.Path

/-!
# Disks: where files are read from

Programs that read files are written for any disk, so that they run on the files of the machine and
on files held in memory alike.
-/
namespace Dragon

/-- A working directory, and what the file at a path holds if there is one. -/
structure Disk (m : Type → Type) where
  here : Path
  read? : String → m (Option ByteArray)

namespace Disk

/-- Files in memory with the absolute parts of their paths. -/
abbrev Files := List (List String × ByteArray)

/-- Whether some file lies below a place. -/
def isDirectory (files : Files) (place : List String) : Bool :=
  place.isEmpty || files.any fun f => place.isPrefixOf f.1 && place != f.1

/-- The place that steps lead to. Every step starts from a directory. -/
def walk (files : Files) (place : List String) : List String → Option (List String)
  | [] => some place
  | step :: rest =>
    if !isDirectory files place then none
    else if step == "" || step == "." then walk files place rest
    else walk files (Path.enter place step) rest

/-- A disk of files in memory. -/
def ofFiles (here : Path) (files : Files) : Disk Id where
  here
  read? text :=
    let start := if Path.isAbsolute text then [] else here.parts
    (walk files start (Path.steps text)).bind fun place => files.lookup place

end Disk

end Dragon
