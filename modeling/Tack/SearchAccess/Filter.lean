import Tack.Lib.SortedSlice
import Tack.Lib.Utf8

/-!
# Access filters

The opaque keys that a caller of the search holds.  A resource is shown when the caller holds one of its keys, which
is found by binary search: a filter is validated to be sorted before it is used.

Strings are byte strings here, since keys are compared, sorted and measured as bytes.

## Main definitions

* `SearchAccess.AccessFilter`, `SearchAccess.AccessFilter.permits`.

## References

`internal/domain/search/filter.go`.
-/

namespace Tack.SearchAccess

open Lib

/-- A string as its bytes. -/
abbrev Text := List Byte

/-- `AccessFilter`: the policy version of a caller and the keys that were compiled under it. -/
structure AccessFilter where
  version : Text
  keys : List Text
  deriving DecidableEq

/-- `Permits`: the filter holds one of the keys of a resource. -/
def AccessFilter.permits (filter : AccessFilter) (resourceKeys : List Text) : Bool :=
  resourceKeys.any fun key => (binarySearch filter.keys key).2

end Tack.SearchAccess
