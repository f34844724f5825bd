/-!
# Faults

The ways in which an operation on a file system is refused, and how an operating
system words them.
-/

namespace Freestanding

inductive Fault
  /-- Nothing is there: a missing entry, a dangling link, an empty path. -/
  | missing
  /-- A path leads on from something that is no directory. -/
  | notDirectory
  | alreadyExists
  | isDirectory
  /-- Links lead in a circle, or through too many others. -/
  | tooManyLinks
  | nameTooLong
  | nulInPath
  /-- Only a regular file can be copied. -/
  | notRegular
  deriving DecidableEq

def Fault.message : Fault → String
  | .missing => "No such file or directory (os error 2)"
  | .notDirectory => "Not a directory (os error 20)"
  | .alreadyExists => "File exists (os error 17)"
  | .isDirectory => "Is a directory (os error 21)"
  | .tooManyLinks => "Too many levels of symbolic links (os error 40)"
  | .nameTooLong => "File name too long (os error 36)"
  | .nulInPath => "file name contained an unexpected NUL byte"
  | .notRegular => "the source path is neither a regular file nor a symlink to a regular file"

end Freestanding
