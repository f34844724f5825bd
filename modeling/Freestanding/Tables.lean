/-!
# Tables

What a resolution knows besides the source tree: names under which some headers
are to be searched, and names that need no header at all.
-/

namespace Freestanding

structure Tables where
  /-- Pairs of a header's name and the name to search it under. -/
  aliases : List (String × String)
  provided : List String

namespace Tables

/-- The name to search a header under, if it differs: the first pair counts. -/
def substitute? (tables : Tables) (header : String) : Option String :=
  tables.aliases.lookup header

/-- The name under which a header is searched.  Aliases do not chain. -/
def searchName (tables : Tables) (header : String) : String :=
  (tables.substitute? header).getD header

def standard : Tables where
  aliases :=
    [("bits/c++config.h", "bits/c++config"),
      ("bits/os_defines.h", "generic/os_defines.h"),
      ("bits/cpu_defines.h", "generic/cpu_defines.h"),
      ("bits/atomic_lockfree_defines.h", "libsupc++/atomic_lockfree_defines.h")]
  provided := ["stdint.h", "stddef.h", "stdarg.h", "stdbool.h"]

end Tables

/-- The headers of a freestanding C++ environment.  Those that need exceptions
or run-time type information are left out. -/
def freestandingHeaders : List String :=
  ["cstddef", "limits", "cstdlib", "initializer_list", "cstdarg", "type_traits", "atomic"]

def configHeader : String := "bits/c++config.h"

def installDirectory : String := "include/c++"

end Freestanding
