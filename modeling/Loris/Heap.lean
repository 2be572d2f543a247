import Loris.OrderedList
/-!
# Heap — headers, footers and the heap object (`Heap.h`, `Heap.cpp`)

The parts of the heap that touch its own memory only: the fields of a `Header` and a `Footer` at an address, the
constructor, the search of the index, the carving of a block out of a chosen hole, the adjustment after an expansion
and the two merges of `Free`.  What needs page tables (`Expand`, `Contract` and the recursion between them and the
page allocator) is in `Kernel`.

A `Header` is twelve bytes (`magic` at 0, `is_hole` at 4, `size` at 8), a `Footer` eight (`magic` at 0, `header` at 4).
-/
namespace Loris

open ByteMem

def heapMagic : U32 := 0x12345678
def heapIndexSize : U32 := 0x20000
def heapMinSize : U32 := 0x70000
abbrev sizeofHeader : U32 := 12
abbrev sizeofFooter : U32 := 8

/-- The fields of `Heap`. -/
structure Heap where
  index : OrderedList
  startAddress : U32
  endAddress : U32
  maxAddress : U32
  supervisor : Bool
  readonly : Bool
  deriving DecidableEq

/-! ## Fields in memory -/

def headerMagic (m : Mem) (header : U32) : U32 := load m header

/-- `header->is_hole`, a one-byte `bool`. -/
def isHole (m : Mem) (header : U32) : Bool := m (header + 4) != 0

def headerSize (m : Mem) (header : U32) : U32 := load m (header + 8)
def footerMagic (m : Mem) (footer : U32) : U32 := load m footer
def footerHeader (m : Mem) (footer : U32) : U32 := load m (footer + 4)
def setIsHole (m : Mem) (header : U32) (b : Bool) : Mem := storeByte m (header + 4) (if b then 1 else 0)
def setHeaderSize (m : Mem) (header v : U32) : Mem := store m (header + 8) v
def setFooterHeader (m : Mem) (footer header : U32) : Mem := store m (footer + 4) header

/-- The three assignments to a header's fields; the fields do not overlap, so their order does not show. -/
def writeHeader (m : Mem) (header : U32) (hole : Bool) (size : U32) : Mem :=
  setHeaderSize (setIsHole (store m header heapMagic) header hole) header size

def writeFooter (m : Mem) (footer header : U32) : Mem := setFooterHeader (store m footer heapMagic) footer header

/-- `HeaderLessThan`. -/
def headerLessThan (m : Mem) (a b : U32) : Bool := decide (headerSize m a < headerSize m b)

/-- `x & 0xFFFFF000 != 0`, as the constructor, `Expand` and `FindSmallestHole` have it: in C++ `!=` binds tighter than
`&`, so the mask is the truth value of `0xFFFFF000 != 0`, which is 1. -/
def maskTest (x : U32) : Bool := x &&& 1 != 0

namespace Heap

/-- The constructor.  It stores `max` into `m_startAddress`, never sets `m_maxAddress`, and assigns the parameters
`m_supervisor` and `m_readonly` to themselves: these three fields keep what the object's memory held, `junk`. -/
def new (m : Mem) (junk : Heap) (start end_addr max : U32) : Heap × Mem :=
  let (index, m) := OrderedList.new m start heapIndexSize
  let start := start + 4 * heapIndexSize
  let start := if maskTest start then (start &&& 0xFFFFF000) + 0x1000 else start
  let m := writeHeader m start true (end_addr - start)
  let (index, m) := index.insert (headerLessThan m) m start
  ({ junk with index := index, startAddress := max, endAddress := end_addr }, m)

/-- The test `FindSmallestHole` makes of one header. -/
def fits (m : Mem) (size : U32) (pageAlign : Bool) (header : U32) : Bool :=
  if pageAlign then
    let location := header
    let offset : U32 :=
      if maskTest (location + sizeofHeader) then 0x1000 - (location + sizeofHeader) % 0x1000 else 0
    decide (headerSize m header - offset ≥ size)
  else decide (headerSize m header ≥ size)

/-- The loop of `FindSmallestHole` from `iterator` on, `k` slots left. -/
def findFrom (h : Heap) (m : Mem) (size : U32) (pageAlign : Bool) : Nat → Nat → Option Nat
  | 0, _ => none
  | k + 1, iterator =>
    if fits m size pageAlign (h.index.getItemAtIndex m iterator) then some iterator
    else findFrom h m size pageAlign k (iterator + 1)

/-- `FindSmallestHole`; `none` is the returned `-1`. -/
def findSmallestHole (h : Heap) (m : Mem) (size : U32) (pageAlign : Bool) : Option Nat :=
  h.findFrom m size pageAlign h.index.size.toNat 0

/-- `Alloc`, the block's header and footer. -/
def writeBlock (m : Mem) (orig_hole_pos size new_size : U32) : Mem :=
  writeFooter (writeHeader m orig_hole_pos false new_size) (orig_hole_pos + sizeofHeader + size) orig_hole_pos

/-- `Alloc`, the header and footer of the hole after the block. -/
def writeRest (m : Mem) (endAddress hole_header orig_hole_size new_size : U32) : Mem :=
  let m := writeHeader m hole_header true (orig_hole_size - new_size)
  let hole_footer := hole_header + orig_hole_size - new_size - sizeofFooter
  if hole_footer < endAddress then writeFooter m hole_footer hole_header else m

/-- `Alloc` from the block's header on: the block, and a hole after it when the sizes differ. -/
def carve (h : Heap) (m : Mem) (orig_hole_pos orig_hole_size size new_size : U32) : U32 × Heap × Mem :=
  let m := writeBlock m orig_hole_pos size new_size
  if orig_hole_size - new_size > 0 then
    let hole_header := orig_hole_pos + sizeofHeader + size + sizeofFooter
    let m := writeRest m h.endAddress hole_header orig_hole_size new_size
    let (index, m) := h.index.insert (headerLessThan m) m hole_header
    (orig_hole_pos + sizeofHeader, { h with index := index }, m)
  else (orig_hole_pos + sizeofHeader, h, m)

/-- `Alloc` once `FindSmallestHole` has chosen position `iterator`. -/
def allocAt (h : Heap) (m : Mem) (iterator : Nat) (size : U32) (page_align : Bool) : U32 × Heap × Mem :=
  let new_size := size + sizeofHeader + sizeofFooter
  let orig_hole_pos := h.index.getItemAtIndex m iterator
  let orig_hole_size := headerSize m orig_hole_pos
  -- a remainder too small for a header and a footer goes to the block
  let absorb := decide (orig_hole_size - new_size < sizeofHeader + sizeofFooter)
  let size := if absorb then size + (orig_hole_size - new_size) else size
  let new_size := if absorb then orig_hole_size else new_size
  if page_align && (orig_hole_pos &&& 0xFFFFF000) != 0 then
    -- a hole is left in front of the block, under the header the index already lists
    let new_location := orig_hole_pos + 0x1000 - (orig_hole_pos &&& 0xFFF) - sizeofHeader
    let m := writeHeader m orig_hole_pos true (0x1000 - (orig_hole_pos &&& 0xFFF) - sizeofHeader)
    let m := writeFooter m (new_location - sizeofFooter) orig_hole_pos
    h.carve m new_location (orig_hole_size - headerSize m orig_hole_pos) size new_size
  else
    let (index, m) := h.index.remove m iterator
    { h with index := index }.carve m orig_hole_pos orig_hole_size size new_size

/-- The search for the endmost header: `(idx, value)` over the first `k` slots from `iterator` on, `idx` being `none`
for `-1`. -/
def endmostFrom (h : Heap) (m : Mem) : Nat → Nat → Option Nat × U32 → Option Nat × U32
  | 0, _, acc => acc
  | k + 1, iterator, acc =>
    let tmp := h.index.getItemAtIndex m iterator
    endmostFrom h m k (iterator + 1) (if tmp > acc.2 then (some iterator, tmp) else acc)

/-- What `Alloc` does after `Expand` and before it tries again: the endmost header of the index grows by what the
heap grew, or a new hole is made at the old end when the index has none. -/
def adjust (h : Heap) (m : Mem) (old_endAddress old_length new_length : U32) : Heap × Mem :=
  match (h.endmostFrom m h.index.size.toNat 0 (none, 0)).1 with
  | none =>
    let header := old_endAddress
    let m := writeHeader m header true (new_length - old_length)
    let m := writeFooter m (old_endAddress + headerSize m header - sizeofFooter) header
    let (index, m) := h.index.insert (headerLessThan m) m header
    ({ h with index := index }, m)
  | some idx =>
    let header := h.index.getItemAtIndex m idx
    let m := setHeaderSize m header (headerSize m header + (new_length - old_length))
    (h, writeFooter m (header + headerSize m header - sizeofFooter) header)

/-- The state of `Free` between its parts: the header and footer it works on, whether the header is still to be
added, and the last `test_header`. -/
structure Freeing where
  header : U32
  footer : U32
  doAdd : Bool
  testHeader : U32

/-- `Free`, "Unify left". -/
def unifyLeft (m : Mem) (header footer : U32) : Freeing × Mem :=
  let test_footer := header - sizeofFooter
  if footerMagic m test_footer = heapMagic ∧ isHole m (footerHeader m test_footer) = true then
    let cache_size := headerSize m header
    let header := footerHeader m test_footer
    let m := setFooterHeader m footer header
    (⟨header, footer, false, footer + sizeofFooter⟩, setHeaderSize m header (headerSize m header + cache_size))
  else (⟨header, footer, true, footer + sizeofFooter⟩, m)

/-- The position of `header` in the index, or `m_size`. -/
def searchFrom (h : Heap) (m : Mem) (header : U32) : Nat → Nat → Nat
  | 0, iterator => iterator
  | k + 1, iterator =>
    if h.index.getItemAtIndex m iterator ≠ header then searchFrom h m header k (iterator + 1) else iterator

def search (h : Heap) (m : Mem) (header : U32) : Nat := h.searchFrom m header h.index.size.toNat 0

/-- `Free`, "Unify right".  The footer of the swallowed hole is not rewritten, and `Remove` is called whether or not
the search found the header. -/
def unifyRight (h : Heap) (m : Mem) (f : Freeing) : Freeing × Heap × Mem :=
  if headerMagic m f.testHeader = heapMagic ∧ isHole m f.testHeader = true then
    let m := setHeaderSize m f.header (headerSize m f.header + headerSize m f.testHeader)
    let footer := f.testHeader + headerSize m f.testHeader - sizeofFooter
    let (index, m) := h.index.remove m (h.search m f.testHeader)
    ({ f with footer := footer }, { h with index := index }, m)
  else (f, h, m)

end Heap
end Loris
