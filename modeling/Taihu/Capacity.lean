/-
# The store holds no more than the device

`AllocateSegment` refuses what does not fit behind the cursor, and then what does not fit into
another segment; it never compares what is stored with the size of the device.  That there is room
for everything follows from where the extents are: each lies inside its segment (`Taihu.Placing`), no
two overlap (`Taihu.Extents`), and there are no more segments than the device has.
-/
import Taihu.Lib.Volume
import Taihu.Placing

namespace Taihu

open Concur

variable {L : Layout} {s : Sys} {ls : List Local}

/-- Disjoint extents, each in a segment of the device, are no longer together than the device. -/
theorem PlacesKept.volume (hL : L.Regular) (h : PlacesKept L s ls) (hapart : Span.Apart (s.taken ls)) :
    ((s.taken ls).map Span.len).sum ≤ L.segmentCount * L.segmentSizeBytes := by
  have hcount := hL.count_pos
  refine Span.total_len_le hapart (fun a ha => h.span ha) (fun a ha => (h.fits a ha).segment)
    (Int.le_of_lt hL.size_pos) (by omega)

/-- The first segment is full, and of the second one block is stored and one is being written. -/
def storedAndOpen : List (Act Call) :=
  Act.calls (.put [1] 8192 (List.replicate 8192 1)) 0 16 ++ Act.calls (.put [2] 1 [8]) 1 19
    ++ Act.calls (.put [3] 1 [9]) 2 7

end Taihu
