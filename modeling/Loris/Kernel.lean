import Loris.Heap
import Loris.Frames
/-!
# Kernel — page directories, `kmalloc`, and the heap with its pages

The state the allocators share.  `mem` is the linear memory as the kernel sees it.  The heap object, the page
directories and the page tables are typed stores keyed by the pointers that name them; a `Page *` is a table pointer
with an index.  `Alloc`, `Expand`, `get_page` and `kmalloc` call each other: `alloc` takes fuel, and hands the others
the allocator they may call (`Allocator`).  `none` is a run that does not return: the fuel, a frame or the address
space ran out, or a null page was followed.
-/
namespace Loris

open ByteMem

def sizeofPageTable : U32 := 4096
def sizeofPageDirectory : U32 := 8196

abbrev PageTable := Nat → Page

structure PageDirectory where
  tables : Nat → U32
  tablesPhysical : Nat → U32
  physicalAddress : U32

/-- What `memset` leaves of a directory. -/
def PageDirectory.zero : PageDirectory := ⟨fun _ => 0, fun _ => 0, 0⟩

/-- `&dir->Tables[..]->Pages[index]`. -/
structure PagePtr where
  table : U32
  index : Nat
  deriving DecidableEq

structure Kernel where
  mem : Mem
  /-- The global `kheap`, null until `initialise_paging` sets it. -/
  kheap : U32
  /-- The object at `kheap`. -/
  heap : Heap
  placement_address : U32
  frames : Frames
  directories : U32 → PageDirectory
  pageTables : U32 → PageTable
  kernel_directory : U32
  current_directory : U32
  /-- What an uninitialised local reads as. -/
  uninit : U32

/-- A kernel with a heap over a memory, no page table and no frame. -/
def Kernel.ofHeap (heap : Heap) (mem : Mem) : Kernel where
  mem := mem
  kheap := 1
  heap := heap
  placement_address := 0
  frames := ⟨0, fun _ => 0⟩
  directories := fun _ => PageDirectory.zero
  pageTables := fun _ _ => Page.zero
  kernel_directory := 0
  current_directory := 0
  uninit := 0

abbrev Allocator := Kernel → U32 → Bool → Option (U32 × Kernel)

namespace Kernel

def page (k : Kernel) (p : PagePtr) : Page := k.pageTables p.table p.index

def setPage (k : Kernel) (p : PagePtr) (v : Page) : Kernel :=
  { k with pageTables := fun t i => if t = p.table ∧ i = p.index then v else k.pageTables t i }

theorem page_setPage (k : Kernel) (p q : PagePtr) (v : Page) :
    (k.setPage p v).page q = if q = p then v else k.page q := by
  unfold setPage page
  cases p; cases q
  simp only [PagePtr.mk.injEq]

def setDirectory (k : Kernel) (dir : U32) (d : PageDirectory) : Kernel :=
  { k with directories := fun x => if x = dir then d else k.directories x }

/-- `alloc_frame` through a `Page *`. -/
def allocFrame (k : Kernel) (p : PagePtr) (isKernel isWritable : Bool) : Option Kernel :=
  (k.frames.allocFrame (k.page p) isKernel isWritable).map fun r => { k.setPage p r.2 with frames := r.1 }

/-- `free_frame` through a `Page *`. -/
def freeFrame (k : Kernel) (p : PagePtr) : Kernel :=
  let r := k.frames.freeFrame (k.page p)
  { k.setPage p r.2 with frames := r.1 }

/-- `address / 0x1000 / 1024`. -/
def tableIndex (address : U32) : Nat := (address / 0x1000 / 1024).toNat

/-- `address / 0x1000 % 1024`. -/
def pageIndex (address : U32) : Nat := (address / 0x1000 % 1024).toNat

/-- `kmalloc`: the pointer, and what was written through `phys`.  With a heap, nothing is. -/
def kmalloc (alloc : Allocator) (k : Kernel) (size : U32) (align : Bool) : Option (U32 × Option U32 × Kernel) :=
  if k.kheap ≠ 0 then (alloc k size align).map fun r => (r.1, none, r.2)
  else
    let placement_address :=
      if align = true ∧ k.placement_address &&& 0xFFFFF000 ≠ 0 then (k.placement_address &&& 0xFFFFF000) + 0x1000
      else k.placement_address
    some (placement_address, some placement_address, { k with placement_address := placement_address + size })

/-- `get_page(address, 0, dir)`: `none` is the null pointer. -/
def lookupPage (k : Kernel) (address dir : U32) : Option PagePtr :=
  let table := (k.directories dir).tables (tableIndex address)
  if table ≠ 0 then some ⟨table, pageIndex address⟩ else none

/-- `get_page(address, 1, dir)`.  `tmp` is an uninitialised local that `kmalloc_ap` is to fill. -/
def getPage (alloc : Allocator) (k : Kernel) (address dir : U32) : Option (PagePtr × Kernel) :=
  match k.lookupPage address dir with
  | some p => some (p, k)
  | none =>
    (kmalloc alloc k sizeofPageTable true).map fun (table, phys, k) =>
      let tmp := phys.getD k.uninit
      let i := tableIndex address
      let d := k.directories dir
      let d := { d with
        tables := fun j => if j = i then table else d.tables j
        tablesPhysical := fun j => if j = i then tmp ||| 0x7 else d.tablesPhysical j }
      (⟨table, pageIndex address⟩,
        { k.setDirectory dir d with
          mem := fill k.mem table 0 0x1000
          pageTables := fun t j => if t = table then Page.zero else k.pageTables t j })

/-- `new_size` as `Expand` rounds it. -/
def expandSize (new_size : U32) : U32 :=
  if maskTest new_size then (new_size &&& 0xFFFFF000) + 0x1000 else new_size

/-- The loop of `Expand` from offset `i` on.  `i` moves in steps of a page, so it takes at most `2^20` values: a loop
that is not done by then goes round for ever. -/
def expandLoop (alloc : Allocator) (new_size : U32) : Nat → Kernel → U32 → Option Kernel
  | 0, _, _ => none
  | n + 1, k, i =>
    if i < new_size then
      (getPage alloc k (k.heap.startAddress + i) k.kernel_directory).bind fun (p, k) =>
        (k.allocFrame p k.heap.supervisor (!k.heap.readonly)).bind fun k =>
          expandLoop alloc new_size n k (i + 0x1000)
    else some k

/-- `Expand`. -/
def expand (alloc : Allocator) (k : Kernel) (new_size : U32) : Option Kernel :=
  let new_size := expandSize new_size
  let old_size := k.heap.endAddress - k.heap.startAddress
  (expandLoop alloc new_size (0x100000 + 1) k old_size).map fun k =>
    { k with heap := { k.heap with endAddress := k.heap.startAddress + new_size } }

/-- The part of `Alloc` that runs when no hole was found, up to the second try. -/
def grow (alloc : Allocator) (k : Kernel) (new_size : U32) : Option Kernel :=
  let old_length := k.heap.endAddress - k.heap.startAddress
  let old_endAddress := k.heap.endAddress
  (expand alloc k (old_length + new_size)).map fun k =>
    let new_length := k.heap.endAddress - k.heap.startAddress
    let r := k.heap.adjust k.mem old_endAddress old_length new_length
    { k with heap := r.1, mem := r.2 }

/-- `Heap::Alloc` of `*kheap`. -/
def alloc : Nat → Allocator
  | 0 => fun _ _ _ => none
  | fuel + 1 => fun k size page_align =>
    let new_size := size + sizeofHeader + sizeofFooter
    match k.heap.findSmallestHole k.mem new_size page_align with
    | some iterator =>
      let r := k.heap.allocAt k.mem iterator size page_align
      some (r.1, { k with heap := r.2.1, mem := r.2.2 })
    | none => (grow (alloc fuel) k new_size).bind fun k => alloc fuel k size page_align

/-- Without a heap `kmalloc` moves `placement_address` behind what it gives. -/
theorem kmalloc_noHeap {alloc : Allocator} {k : Kernel} (hk : k.kheap = 0) (size : U32) (align : Bool) : ∃ p,
    kmalloc alloc k size align = some (p, some p, { k with placement_address := p + size }) := by
  unfold kmalloc
  rw [if_neg (not_not.2 hk)]
  exact ⟨_, rfl⟩

theorem alloc_of_found {k : Kernel} {size : U32} {al : Bool} {i : Nat} (fuel : Nat)
    (hf : k.heap.findSmallestHole k.mem (size + sizeofHeader + sizeofFooter) al = some i) :
    alloc (fuel + 1) k size al = some ((k.heap.allocAt k.mem i size al).1,
      { k with heap := (k.heap.allocAt k.mem i size al).2.1, mem := (k.heap.allocAt k.mem i size al).2.2 }) := by
  simp only [alloc, hf]

/-- A call that finds a hole and returns, returns what `allocAt` makes of it. -/
theorem alloc_found {k k' : Kernel} {size p : U32} {al : Bool} {i fuel : Nat}
    (hf : k.heap.findSmallestHole k.mem (size + sizeofHeader + sizeofFooter) al = some i)
    (ha : alloc fuel k size al = some (p, k')) : p = (k.heap.allocAt k.mem i size al).1 ∧
      k' = { k with heap := (k.heap.allocAt k.mem i size al).2.1, mem := (k.heap.allocAt k.mem i size al).2.2 } := by
  cases fuel with
  | zero => cases ha
  | succ fuel =>
    rw [alloc_of_found fuel hf, Option.some.injEq, Prod.mk.injEq] at ha
    exact ⟨ha.1.symm, ha.2.symm⟩

/-- A call that finds no hole and returns, grows the heap and calls itself. -/
theorem alloc_grown {k : Kernel} {size : U32} {al : Bool} {fuel : Nat} {r : U32 × Kernel}
    (hf : k.heap.findSmallestHole k.mem (size + sizeofHeader + sizeofFooter) al = none)
    (ha : alloc fuel k size al = some r) : ∃ n k₂, fuel = n + 1 ∧
      grow (alloc n) k (size + sizeofHeader + sizeofFooter) = some k₂ ∧ alloc n k₂ size al = some r := by
  cases fuel with
  | zero => cases ha
  | succ fuel =>
    simp only [alloc, hf] at ha
    obtain ⟨k₂, hk₂, ha⟩ := Option.bind_eq_some_iff.1 ha
    exact ⟨fuel, k₂, rfl, hk₂, ha⟩

/-- `new_size` as `Contract` rounds and clamps it.  The masks are `0x1000`, one bit. -/
def contractSize (new_size : U32) : U32 :=
  let new_size := if new_size &&& 0x1000 ≠ 0 then (new_size &&& 0x1000) + 0x1000 else new_size
  if new_size < heapMinSize then heapMinSize else new_size

/-- The loop of `Contract`; `none` is a page table that is not there. -/
def contractLoop (new_size : U32) : Nat → Kernel → U32 → Option Kernel
  | 0, _, _ => none
  | n + 1, k, i =>
    if new_size < i then
      (k.lookupPage (k.heap.startAddress + i) k.kernel_directory).bind fun p =>
        contractLoop new_size n (k.freeFrame p) (i - 0x1000)
    else some k

/-- `Contract`: the new length, and the state. -/
def contract (k : Kernel) (new_size : U32) : Option (U32 × Kernel) :=
  let new_size := contractSize new_size
  let old_size := k.heap.endAddress - k.heap.startAddress
  (contractLoop new_size (0x100000 + 1) k (old_size - 0x1000)).map fun k =>
    (new_size, { k with heap := { k.heap with endAddress := k.heap.startAddress + new_size } })

/-- `Free`, from the test of the end address on. -/
def contractEnd (k : Kernel) (f : Heap.Freeing) : Option Kernel :=
  if f.footer + sizeofFooter = k.heap.endAddress then
    let old_length := k.heap.endAddress - k.heap.startAddress
    (k.contract (f.header - k.heap.startAddress)).map fun (new_length, k) =>
      if headerSize k.mem f.header - (old_length - new_length) > 0 then
        let m := setHeaderSize k.mem f.header (headerSize k.mem f.header - (old_length - new_length))
        { k with mem := writeFooter m (f.header + headerSize m f.header - sizeofFooter) f.header }
      else
        -- the search is for `test_header`, not for the header that is to go
        let iterator := k.heap.search k.mem f.testHeader
        if iterator < k.heap.index.size.toNat then
          let r := k.heap.index.remove k.mem iterator
          { k with heap := { k.heap with index := r.1 }, mem := r.2 }
        else k
  else some k

/-- `Heap::Free` of `*kheap`. -/
def free (k : Kernel) (p : U32) : Option Kernel :=
  if p = 0 then some k
  else
    let header := p - sizeofHeader
    let footer := header + headerSize k.mem header - sizeofFooter
    let m := setIsHole k.mem header true
    let left := Heap.unifyLeft m header footer
    let right := k.heap.unifyRight left.2 left.1
    (contractEnd { k with heap := right.2.1, mem := right.2.2 } right.1).map fun k =>
      if right.1.doAdd then
        let r := k.heap.index.insert (headerLessThan k.mem) k.mem right.1.header
        { k with heap := { k.heap with index := r.1 }, mem := r.2 }
      else k

/-- `kfree`. -/
def kfree (k : Kernel) (p : U32) : Option Kernel := if k.kheap ≠ 0 then k.free p else some k

/-! ## Frames and page entries apart -/

/-- The same kernel, frames and page entries apart. -/
def SameButPages (k k' : Kernel) : Prop := k' = { k with frames := k'.frames, pageTables := k'.pageTables }

theorem SameButPages.trans {k₁ k₂ k₃ : Kernel} (h₁ : SameButPages k₁ k₂) (h₂ : SameButPages k₂ k₃) :
    SameButPages k₁ k₃ := by
  unfold SameButPages at *
  rw [h₂, h₁]

theorem allocFrame_same {k k' : Kernel} {p : PagePtr} {a b : Bool} (h : k.allocFrame p a b = some k') :
    SameButPages k k' := by
  unfold allocFrame at h
  obtain ⟨r, -, rfl⟩ := Option.map_eq_some_iff.1 h
  rfl

theorem freeFrame_same (k : Kernel) (p : PagePtr) : SameButPages k (k.freeFrame p) := rfl

end Kernel
end Loris
