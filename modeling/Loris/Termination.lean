import Mathlib.Algebra.Ring.Nat
import Loris.Expansion
/-!
# Termination — when `Alloc` returns

A pass of `Alloc` that finds no hole expands the heap and tries again.  Over page tables that are there each expansion
ends, and the hole it enlarges passes the search after finitely many of them: `expansions` lists their old and new
lengths, and `alloc_returns` says that `Alloc` returns when the tables they come to exist.  A missing table is obtained
from `Alloc` itself, before `m_endAddress` has moved; when no hole takes it, the inner call comes to the same missing
table, and the calls go on for ever (`alloc_never`).  A table that `Alloc` does give is entered in `kernel_directory`
with a physical address that nothing has set (`alloc_of_unmapped`).
-/
namespace Loris

open ByteMem Cut

/-- The test of `FindSmallestHole` for a hole of `S` bytes at `a`. -/
def fitsAt (n : U32) (al : Bool) (a S : U32) : Bool :=
  if al then
    decide (S - (if maskTest (a + sizeofHeader) then 0x1000 - (a + sizeofHeader) % 0x1000 else 0) ≥ n)
  else decide (S ≥ n)

theorem fits_eq (m : Mem) (n : U32) (al : Bool) (a : U32) : Heap.fits m n al a = fitsAt n al a (headerSize m a) := by
  cases al <;> rfl

theorem WellFormed.length {h : Heap} {m : Mem} {segs : List Seg} (hwf : WellFormed h m segs) :
    h.endAddress.toNat = h.startAddress.toNat + (h.endAddress - h.startAddress).toNat := by
  have hle := hwf.cut.le
  have hlt := h.endAddress.isLt
  rw [BitVec.toNat_sub]
  omega

theorem lt_of_not_fitsAt {n : U32} {al : Bool} {a S : U32} (h : fitsAt n al a S = false) :
    S.toNat < n.toNat + 0x1000 := by
  unfold fitsAt at h
  cases al with
  | false =>
    simp only [Bool.false_eq_true, if_false, decide_eq_false_iff_not, ge_iff_le, BitVec.not_le, BitVec.lt_def] at h
    omega
  | true =>
    simp only [if_true, decide_eq_false_iff_not, ge_iff_le, BitVec.not_le, BitVec.lt_def] at h
    split at h
    · have hlt : ((a + sizeofHeader) % 0x1000).toNat < 0x1000 := by
        rw [BitVec.toNat_umod]; exact Nat.mod_lt _ (by decide)
      have ho : (0x1000 - (a + sizeofHeader) % 0x1000).toNat ≤ 0x1000 := by
        rw [BitVec.toNat_sub, show (0x1000 : U32).toNat = 0x1000 from rfl]; omega
      rw [BitVec.toNat_sub] at h
      omega
    · rw [show S - 0 = S from BitVec.sub_zero S] at h; omega

namespace Kernel

/-- The old and new lengths of the expansions that enlarge the hole of `S` bytes at `a`, from the length `len` on. -/
def expansionsFrom (n : U32) (al : Bool) (a : U32) : Nat → U32 → U32 → List (U32 × U32)
  | 0, _, _ => []
  | j + 1, len, S =>
    if fitsAt n al a S then []
    else (len, expandSize (len + n)) ::
      expansionsFrom n al a j (expandSize (len + n)) (S + (expandSize (len + n) - len))

/-- The old and new lengths of the expansions a request makes that no hole passes. -/
def expansions (k : Kernel) (n : U32) (al : Bool) : List (U32 × U32) :=
  let len := k.heap.endAddress - k.heap.startAddress
  match (k.heap.endmostFrom k.mem k.heap.index.size.toNat 0 (none, 0)).1 with
  | none => (len, expandSize (len + n)) ::
      expansionsFrom n al k.heap.endAddress 0x1000 (expandSize (len + n)) (expandSize (len + n) - len)
  | some idx =>
    let header := k.heap.index.getItemAtIndex k.mem idx
    expansionsFrom n al header 0x1000 len (headerSize k.mem header)

/-- The pages an expansion comes to. -/
def pagesOf (e : U32 × U32) : Nat := (e.2.toNat - e.1.toNat + 0xFFF) / 0x1000

/-- **The expansions fit**: no length wraps around, the heap stays in the address space, and there is a free frame for
every page. -/
structure Affordable (k : Kernel) (n : U32) (es : List (U32 × U32)) : Prop where
  lengths : ∀ e ∈ es, e.1.toNat + n.toNat ≤ e.2.toNat ∧ k.heap.startAddress.toNat + e.2.toNat < 2 ^ 32
  frames : (es.map pagesOf).sum ≤ k.frames.free

/-- **The page tables the expansions come to exist.** -/
def Mapped (k : Kernel) (es : List (U32 × U32)) : Prop :=
  ∀ e ∈ es, k.tablesPresent e.2 (0x100000 + 1) e.1 = true

/-- The page tables are looked up alike. -/
structure SameTables (k k' : Kernel) : Prop where
  directories : k'.directories = k.directories
  kernel_directory : k'.kernel_directory = k.kernel_directory
  start : k'.heap.startAddress = k.heap.startAddress

theorem SameTables.tablesPresent {k k' : Kernel} (h : SameTables k k') (new_size : U32) : ∀ (n : Nat) (i : U32),
    k'.tablesPresent new_size n i = k.tablesPresent new_size n i
  | 0, _ => rfl
  | n + 1, i => by
    unfold Kernel.tablesPresent lookupPage
    rw [h.tablesPresent new_size n, h.directories, h.kernel_directory, h.start]

theorem SameTables.mapped {k k' : Kernel} (h : SameTables k k') {es : List (U32 × U32)} (hm : k.Mapped es) :
    k'.Mapped es := fun e he => (h.tablesPresent _ _ _).trans (hm e he)

variable {k k' : Kernel} {alloc : Allocator} {n a S len new : U32} {al : Bool} {base : Nat} {segs : List Seg}

/-- **One expansion over present tables**: what `grow` leaves is `adjust` of the enlarged heap. -/
theorem grow_of_free {f : Allocator} (hlen : k.heap.endAddress - k.heap.startAddress = len)
    (hnew : expandSize (len + n) = new)
    (htables : k.tablesPresent new (0x100000 + 1) len = true) (hle : len.toNat ≤ new.toNat)
    (hw : new.toNat + 0x1000 < 2 ^ 32) (hf : pagesOf (len, new) ≤ k.frames.free) :
    ∃ k₂ r, k.grow f n = some k₂ ∧
      r = Heap.adjust { k.heap with endAddress := k.heap.startAddress + new } k.mem k.heap.endAddress len new ∧
      k₂.heap = r.1 ∧ k₂.mem = r.2 ∧ SameTables k k₂ ∧ k.frames.free ≤ k₂.frames.free + pagesOf (len, new) := by
  subst hlen hnew
  have hp : pagesOf (k.heap.endAddress - k.heap.startAddress,
    expandSize (k.heap.endAddress - k.heap.startAddress + n)) =
      ((expandSize (k.heap.endAddress - k.heap.startAddress + n)).toNat -
        (k.heap.endAddress - k.heap.startAddress).toNat + 0xFFF) / 0x1000 := rfl
  obtain ⟨k₁, hk₁, hf₁⟩ := expand_of_free (f := f) (k := k)
    (e := k.heap.endAddress - k.heap.startAddress + n) htables (by omega) (by omega) hf
  have hk := hk₁
  unfold expand at hk
  obtain ⟨k₀, hk₀, he⟩ := Option.map_eq_some_iff.1 hk
  have hsame := expandLoop_same htables hk₀
  obtain ⟨hm, hh⟩ := expand_same htables hk₁
  have hlen' :
      k₁.heap.endAddress - k₁.heap.startAddress = expandSize (k.heap.endAddress - k.heap.startAddress + n) := by
    rw [hh]; simp only; bv_omega
  have hadj := Heap.adjust_bounds k₁.heap k₁.mem k.heap.endAddress (k.heap.endAddress - k.heap.startAddress)
    (k₁.heap.endAddress - k₁.heap.startAddress)
  refine ⟨_, _, grow_eq hk₁, rfl, ?_, ?_, ⟨?_, ?_, ?_⟩, hf₁⟩
  · simp only
    rw [hlen', hm, hh]
  · simp only
    rw [hlen', hm, hh]
  · show k₁.directories = _
    rw [← he, hsame]
  · show k₁.kernel_directory = _
    rw [← he, hsame]
  · show (Heap.adjust _ _ _ _ _).1.startAddress = _
    rw [hadj.1, hh]

/-- **A hole that expansions enlarge**: it is the endmost of the index, and the other holes do not pass. -/
structure Growing (k : Kernel) (n : U32) (al : Bool) (a S : U32) : Prop where
  room : 20 ≤ S.toNat
  size : headerSize k.mem a = S
  within : a.toNat + S.toNat ≤ k.heap.endAddress.toNat
  below : k.heap.index.elements.toNat + 4 * heapIndexSize.toNat ≤ a.toNat
  cap : k.heap.index.size.toNat ≤ heapIndexSize.toNat
  listed : ∃ j, j < k.heap.index.size.toNat ∧ k.heap.index.getItemAtIndex k.mem j = a
  others : ∀ i, i < k.heap.index.size.toNat → k.heap.index.getItemAtIndex k.mem i ≠ a →
    0 < (k.heap.index.getItemAtIndex k.mem i).toNat ∧ (k.heap.index.getItemAtIndex k.mem i).toNat + 12 ≤ a.toNat ∧
    fitsAt n al (k.heap.index.getItemAtIndex k.mem i)
      (headerSize k.mem (k.heap.index.getItemAtIndex k.mem i)) = false

theorem Growing.find (hg : Growing k n al a S) :
    (k.heap.findSmallestHole k.mem n al).isSome = fitsAt n al a S := by
  cases hf : fitsAt n al a S with
  | false =>
    rw [Option.isSome_eq_false_iff, Option.isNone_iff_eq_none, Heap.findSmallestHole_none]
    intro i hi
    rw [fits_eq]
    by_cases he : k.heap.index.getItemAtIndex k.mem i = a
    · rw [he, hg.size, hf]
    · exact (hg.others i hi he).2.2
  | true =>
    rw [Option.isSome_iff_ne_none]
    intro h
    obtain ⟨j, hj, hja⟩ := hg.listed
    have := Heap.findSmallestHole_none.1 h j hj
    rw [fits_eq, hja, hg.size, hf] at this
    cases this

/-- **An expansion enlarges the hole** and leaves the others as they are. -/
theorem Growing.adjust (len new : U32) (k' : Kernel) (hg : Growing k n al a S) (hle : len.toNat ≤ new.toNat)
    (hend : k.heap.endAddress.toNat + (new.toNat - len.toNat) < 2 ^ 32) {h : Heap} {e : U32}
    (hh : h = { k.heap with endAddress := e })
    (he : e.toNat = k.heap.endAddress.toNat + (new.toNat - len.toNat)) (ol : U32)
    (hk : k'.heap = (Heap.adjust h k.mem ol len new).1) (hm : k'.mem = (Heap.adjust h k.mem ol len new).2) :
    Growing k' n al a (S + (new - len)) := by
  subst hh
  have hd : (new - len).toNat = new.toNat - len.toNat := by rw [BitVec.toNat_sub]; omega
  have hw := hg.within
  have hr := hg.room
  have hbelow := hg.below
  have hcap := hg.cap
  have hs : (S + (new - len)).toNat = S.toNat + (new.toNat - len.toNat) := by rw [BitVec.toNat_add, hd]; omega
  -- the endmost header of the index is `a`
  obtain ⟨j₀, hj₀, hj₀a⟩ := hg.listed
  have hpos : ∀ j, j < k.heap.index.size.toNat → k.heap.index.getItemAtIndex k.mem j > 0 := fun j hj => by
    rw [gt_iff_lt, BitVec.lt_def]
    by_cases hja : k.heap.index.getItemAtIndex k.mem j = a
    · rw [hja]
      have : heapIndexSize.toNat = 0x20000 := rfl
      simp; omega
    · simpa using (hg.others j hj hja).1
  obtain ⟨j, hj, hje, hmax⟩ := Heap.endmost_some (h := { k.heap with endAddress := e }) (m := k.mem)
    (by simp only; omega) hpos
  have hja : k.heap.index.getItemAtIndex k.mem j = a := by
    by_contra hne
    have h1 := (hg.others j hj hne).2.1
    have h2 := hmax j₀ hj₀
    simp only [hj₀a, BitVec.le_def] at h2
    omega
  rw [Heap.adjust_endmost ol len new hje] at hk hm
  simp only [hja, hg.size] at hk hm
  have hf : (a + (S + (new - len)) - sizeofFooter).toNat = a.toNat + S.toNat + (new.toNat - len.toNat) - 8 := by
    rw [BitVec.toNat_sub, BitVec.toNat_add, hs, show sizeofFooter.toNat = 8 from rfl]; omega
  have k1 := keeps_setHeaderSize k.mem a (S + (new - len)) (by omega)
  have k2 := keeps_writeFooter (setHeaderSize k.mem a (S + (new - len))) (a + (S + (new - len)) - sizeofFooter) a
    (by omega)
  have kk : Keeps a.toNat (2 ^ 32) k.mem k'.mem := by
    rw [hm]; exact (k1.mono (by omega) (by omega)).trans (k2.mono (by omega) (by omega))
  have hitem : ∀ i, i < k.heap.index.size.toNat →
      k'.heap.index.getItemAtIndex k'.mem i = k.heap.index.getItemAtIndex k.mem i := fun i hi => by
    rw [hk]
    show load k'.mem (k.heap.index.slot i) = load k.mem (k.heap.index.slot i)
    have hsl := OrderedList.toNat_slot (l := k.heap.index) (c := heapIndexSize.toNat) (by omega) (i := i) (by omega)
    exact kk.load_eq (by omega) (.inl (by omega))
  have hidx : k'.heap.index = k.heap.index := by rw [hk]
  have hke : k'.heap.endAddress = e := by rw [hk]
  refine ⟨by omega, ?_, by rw [hke]; omega, by rw [hidx]; exact hbelow, by rw [hidx]; exact hcap, ?_,
    fun i hi hne => ?_⟩
  · rw [hm, headerSize_keep k2 (by omega) (.inl (by omega)), headerSize_setHeaderSize]
  · exact ⟨j, by rw [hidx]; exact hj, (hitem j hj).trans hja⟩
  · rw [hidx] at hi
    rw [hitem i hi] at hne ⊢
    obtain ⟨h1, h2, h3⟩ := hg.others i hi hne
    exact ⟨h1, h2, by rw [headerSize_keep kk (by omega) (.inl (by omega))]; exact h3⟩

theorem alloc_of_none {size : U32} (fuel : Nat)
    (hf : k.heap.findSmallestHole k.mem (size + sizeofHeader + sizeofFooter) al = none) :
    Kernel.alloc (fuel + 1) k size al =
      (k.grow (Kernel.alloc fuel) (size + sizeofHeader + sizeofFooter)).bind fun k => Kernel.alloc fuel k size al := by
  simp only [Kernel.alloc, hf]

theorem Affordable.tail {e : U32 × U32} {es : List (U32 × U32)} (ha : Affordable k n (e :: es)) (hs : SameTables k k')
    (hf : k.frames.free ≤ k'.frames.free + pagesOf e) : Affordable k' n es := by
  refine ⟨fun e' he' => by rw [hs.start]; exact ha.lengths e' (List.mem_cons_of_mem _ he'), ?_⟩
  have := ha.frames
  rw [List.map_cons, List.sum_cons] at this
  omega

/-- What an expansion that grows a hole leaves, with the expansions `es` still to come. -/
structure Grown (f : Allocator) (k k₂ : Kernel) (n : U32) (al : Bool) (a S new : U32) (es : List (U32 × U32)) : Prop
    where
  grow : k.grow f n = some k₂
  growing : Growing k₂ n al a S
  tables : SameTables k k₂
  bound : k₂.heap.endAddress.toNat = k₂.heap.startAddress.toNat + new.toNat
  rest : Affordable k₂ n es

theorem sub_eq_of_bound {x y z : U32} (h : x.toNat = y.toNat + z.toNat) : x - y = z := BitVec.eq_of_toNat_eq (by
  have := x.isLt
  rw [BitVec.toNat_sub]
  omega)

/-- **One expansion of a growing hole** over present tables. -/
theorem Growing.grow (f : Allocator) {es : List (U32 × U32)} (hg : Growing k n al a S)
    (hst : 0x1000 ≤ k.heap.startAddress.toNat)
    (hlen : k.heap.endAddress.toNat = k.heap.startAddress.toNat + len.toNat) (hnew : expandSize (len + n) = new)
    (ha : Affordable k n ((len, new) :: es)) (ht : k.tablesPresent new (0x100000 + 1) len = true) :
    ∃ k₂, Grown f k k₂ n al a (S + (new - len)) new es := by
  obtain ⟨hl, hw⟩ := ha.lengths _ (List.mem_cons_self ..)
  have hp := ha.frames
  rw [List.map_cons, List.sum_cons] at hp
  simp only at hl hw
  obtain ⟨k₂, r, hk₂, hr, hh₂, hm₂, hs₂, hf₂⟩ := grow_of_free (f := f) (sub_eq_of_bound hlen) hnew ht (by omega)
    (by omega) (by omega)
  have he : (k.heap.startAddress + new).toNat = k.heap.startAddress.toNat + new.toNat := by
    rw [BitVec.toNat_add]
    omega
  have he₂ : k₂.heap.endAddress = k.heap.startAddress + new := by rw [hh₂, hr, (Heap.adjust_bounds ..).2]
  exact ⟨k₂, hk₂, hg.adjust len new k₂ (by omega) (by omega) rfl (by rw [he]; omega) _ (by rw [hh₂, hr])
    (by rw [hm₂, hr]), hs₂, by rw [he₂, hs₂.start, he], ha.tail hs₂ hf₂⟩

/-- **A growing hole is found**, after at most `j` more expansions. -/
theorem Growing.returns {size : U32} (hn : n = size + sizeofHeader + sizeofFooter) (h20 : 20 ≤ n.toNat) :
    ∀ (j : Nat) {k : Kernel} {len S : U32}, Growing k n al a S → 0x1000 ≤ k.heap.startAddress.toNat →
    k.heap.endAddress.toNat = k.heap.startAddress.toNat + len.toNat →
    n.toNat + 0x1000 ≤ S.toNat + n.toNat * j →
    Affordable k n (expansionsFrom n al a j len S) → k.Mapped (expansionsFrom n al a j len S) →
    ∀ fuel, j < fuel → ∃ p k', Kernel.alloc fuel k size al = some (p, k')
  | _, _, _, _, _, _, _, _, _, _, 0, hf => absurd hf (Nat.not_lt_zero _)
  | j, k, len, S, hg, hst, hlen, hj, ha, hmap, fuel + 1, hf => by
    have hfind := hg.find
    cases hfit : fitsAt n al a S with
    | true =>
      rw [hfit, Option.isSome_iff_exists, hn] at hfind
      obtain ⟨i, hi⟩ := hfind
      exact ⟨_, _, alloc_of_found fuel hi⟩
    | false =>
      have hlt := lt_of_not_fitsAt hfit
      rw [hfit, Option.isSome_eq_false_iff, Option.isNone_iff_eq_none, hn] at hfind
      cases j with
      | zero => omega
      | succ j =>
        simp only [expansionsFrom, hfit, Bool.false_eq_true, if_false] at ha hmap
        obtain ⟨hl, hw⟩ := ha.lengths _ (List.mem_cons_self ..)
        simp only at hl hw
        obtain ⟨k₂, h₂⟩ := hg.grow (Kernel.alloc fuel) hst hlen rfl ha (hmap _ (List.mem_cons_self ..))
        have hS : (S + (expandSize (len + n) - len)).toNat = S.toNat + ((expandSize (len + n)).toNat - len.toNat) := by
          have h1 := hg.within
          rw [BitVec.toNat_add, BitVec.toNat_sub]
          omega
        rw [alloc_of_none fuel hfind, ← hn, h₂.grow, Option.bind_some]
        exact h₂.growing.returns hn h20 j (by rw [h₂.tables.start]; exact hst) h₂.bound
          (by rw [Nat.mul_succ] at hj; omega) h₂.rest
          (h₂.tables.mapped fun e he => hmap e (List.mem_cons_of_mem _ he)) fuel (by omega)

theorem growing_of_endmost {j : Nat} (hwf : WellFormed k.heap k.mem segs)
    (hfind : k.heap.findSmallestHole k.mem n al = none)
    (hj : (k.heap.endmostFrom k.mem k.heap.index.size.toNat 0 (none, 0)).1 = some j) :
    Growing k n al (k.heap.index.getItemAtIndex k.mem j)
      (headerSize k.mem (k.heap.index.getItemAtIndex k.mem j)) := by
  have hhole : ∃ s ∈ segs, s.hole = true := by
    by_contra hno
    have hnil : holes segs = [] := holes_eq_nil.2 fun s hs => by simpa using fun h => hno ⟨s, hs, h⟩
    have hsz := hwf.toMarks.length_holes
    rw [hnil] at hsz
    rw [← hsz] at hj
    simp [Heap.endmostFrom] at hj
  obtain ⟨j', y, hj', hje, hy, hya, hyh, hlast⟩ := exists_endmost hwf.toMarks hhole
  rw [hj, Option.some.injEq] at hje
  subst hje
  have hyd := hwf.header y hy
  have hbelow := hwf.below
  have hyw := hwf.within y hy
  rw [← hya, hyd.2.2]
  refine ⟨y.room, hyd.2.2, (hwf.cut.bounds y hy).2.2, by omega, hwf.size, ⟨j, hj', hya.symm⟩, fun i hi hne => ?_⟩
  obtain ⟨z, hz, hzh, hza⟩ := hwf.toMarks.hole_at hi
  have hzw := hwf.within z hz
  have hap := hwf.cut.apart hz hy fun he => hne (by rw [← hza, he])
  simp only [Seg.start_eq, Seg.len_eq] at hap
  have hnot : ¬ y.addr.toNat < z.addr.toNat := fun hlt => by rw [hlast z hz hlt] at hzh; cases hzh
  have hyr := y.room
  have hzr := z.room
  have hc : heapIndexSize.toNat = 0x20000 := rfl
  rw [← hza]
  refine ⟨by omega, by omega, ?_⟩
  have := Heap.findSmallestHole_none.1 hfind i hi
  rwa [fits_eq, ← hza] at this

theorem growing_of_empty (n : U32) (al : Bool) (k' : Kernel) (hwf : WellFormed k.heap k.mem segs)
    (hempty : k.heap.index.size.toNat = 0)
    (hd : 20 ≤ (new - len).toNat) {e : U32} (he : e.toNat = k.heap.endAddress.toNat + (new - len).toNat)
    (hk : k'.heap = (Heap.adjust { k.heap with endAddress := e } k.mem k.heap.endAddress len new).1)
    (hm : k'.mem = (Heap.adjust { k.heap with endAddress := e } k.mem k.heap.endAddress len new).2) :
    Growing k' n al k.heap.endAddress (new - len) := by
  have hlive := hwf.toMarks.live_of_empty hempty
  have hm' : Marks { k.heap with endAddress := e } k.mem k.heap.startAddress.toNat segs := hwf.toMarks.of_index rfl
  obtain ⟨y, hi, hyh, -, -⟩ := adjust_append hm' hwf.cut hlive hd (by simp only; omega)
  rw [← hk, ← hm] at hi
  have hke : k'.heap.endAddress = e := by rw [hk, (Heap.adjust_bounds ..).2]
  -- the new segment takes what was added
  obtain ⟨c, hc, hyc⟩ := cuts_append.1 hi.cut
  obtain rfl := hc.end_unique hwf.cut
  obtain ⟨hys, -, hye⟩ := hyc
  simp only [Seg.start_eq, Seg.len_eq, cuts_nil, hke] at hys hye
  have hya : y.addr = k.heap.endAddress := BitVec.eq_of_toNat_eq hys
  have hysz : y.size = new - len := BitVec.eq_of_toNat_eq (by omega)
  have hholes : holes (segs ++ [y]) = [y.addr] := by
    rw [holes_append, holes_eq_nil.2 hlive, holes_cons_hole hyh]; rfl
  have hitems := hi.index
  rw [hholes, List.perm_singleton] at hitems
  have hlen := OrderedList.length_items k'.heap.index k'.mem
  rw [hitems] at hlen
  have hitem : ∀ i, i < k'.heap.index.size.toNat → k'.heap.index.getItemAtIndex k'.mem i = y.addr := fun i hi' => by
    rw [← OrderedList.getElem_items _ _ (by rw [hitems, hlen]; exact hi')]
    simp [hitems]
  have hbelow := hi.below
  have hle := hwf.cut.le
  rw [← hya, ← hysz]
  refine ⟨by rw [hysz]; exact hd, (hi.header y (by simp)).2.2, by rw [hke]; omega, by rw [hya]; omega, hi.size,
    ⟨0, by rw [← hlen]; exact Nat.one_pos, hitem 0 (by rw [← hlen]; exact Nat.one_pos)⟩,
    fun i hi' hne => absurd (hitem i hi') hne⟩

/-- No header is listed, so no hole is. -/
theorem index_empty (hwf : WellFormed k.heap k.mem segs)
    (hnone : (k.heap.endmostFrom k.mem k.heap.index.size.toNat 0 (none, 0)).1 = none) :
    k.heap.index.size.toNat = 0 := by
  by_contra hne
  have hbase := low_base hwf.toMarks
  have hpos : ∀ j, j < k.heap.index.size.toNat → k.heap.index.getItemAtIndex k.mem j > 0 := fun j hj => by
    obtain ⟨z, hz, -, hza⟩ := hwf.toMarks.hole_at hj
    have := (hwf.within z hz).1
    rw [gt_iff_lt, ← hza, BitVec.lt_def]
    simp; omega
  obtain ⟨j, -, hj, -⟩ := Heap.endmost_some (h := k.heap) (m := k.mem) (by omega) hpos
  rw [hnone] at hj
  cases hj

/-- **The first expansion makes a hole** when the heap has none. -/
theorem grow_empty (f : Allocator) (al : Bool) {es : List (U32 × U32)} (hwf : WellFormed k.heap k.mem segs)
    (h20 : 20 ≤ n.toNat)
    (hlen : k.heap.endAddress.toNat = k.heap.startAddress.toNat + len.toNat) (hnew : expandSize (len + n) = new)
    (hnone : (k.heap.endmostFrom k.mem k.heap.index.size.toNat 0 (none, 0)).1 = none)
    (ha : Affordable k n ((len, new) :: es)) (ht : k.tablesPresent new (0x100000 + 1) len = true) :
    ∃ k₂, Grown f k k₂ n al k.heap.endAddress (new - len) new es := by
  have hbase := low_base hwf.toMarks
  obtain ⟨hl, hw⟩ := ha.lengths _ (List.mem_cons_self ..)
  have hp := ha.frames
  rw [List.map_cons, List.sum_cons] at hp
  simp only at hl hw
  have hsub := sub_eq_of_bound hlen
  obtain ⟨k₂, r, hk₂, hr, hh₂, hm₂, hs₂, hf₂⟩ := grow_of_free (f := f) hsub hnew ht (by omega) (by omega) (by omega)
  have he : (k.heap.startAddress + new).toNat = k.heap.startAddress.toNat + new.toNat := by
    rw [BitVec.toNat_add]
    omega
  have hd : (new - len).toNat = new.toNat - len.toNat := by
    rw [BitVec.toNat_sub]
    omega
  have he₂ : k₂.heap.endAddress = k.heap.startAddress + new := by rw [hh₂, hr, (Heap.adjust_bounds ..).2]
  exact ⟨k₂, hk₂, growing_of_empty n al k₂ (e := k.heap.startAddress + new) hwf (index_empty hwf hnone)
    (by rw [hd]; omega) (by rw [he, hd]; omega) (by rw [hh₂, hr]) (by rw [hm₂, hr]), hs₂,
    by rw [he₂, hs₂.start, he], ha.tail hs₂ hf₂⟩

/-- **Enough fuel gives a result** when a hole passes at once or the expansions find their page tables. -/
theorem alloc_of_mapped {k : Kernel} {segs : List Seg} {size : U32} {al : Bool} (hwf : WellFormed k.heap k.mem segs)
    (hsize : size.toNat + 20 < 2 ^ 32)
    (hfits : k.Affordable (size + sizeofHeader + sizeofFooter) (k.expansions (size + sizeofHeader + sizeofFooter) al))
    (hcond : k.heap.findSmallestHole k.mem (size + sizeofHeader + sizeofFooter) al ≠ none ∨
      k.Mapped (k.expansions (size + sizeofHeader + sizeofFooter) al)) :
    ∃ n, ∀ fuel, n ≤ fuel → ∃ p k', Kernel.alloc fuel k size al = some (p, k') := by
  have hn : (size + sizeofHeader + sizeofFooter).toNat = size.toNat + 20 := by
    unfold sizeofHeader sizeofFooter; bv_omega
  have hbase := low_base hwf.toMarks
  have hlen := hwf.length
  refine ⟨0x1002, fun fuel hf => ?_⟩
  obtain ⟨fuel, rfl⟩ : ∃ f, fuel = f + 1 := ⟨fuel - 1, by omega⟩
  cases hfind : k.heap.findSmallestHole k.mem (size + sizeofHeader + sizeofFooter) al with
  | some i => exact ⟨_, _, alloc_of_found fuel hfind⟩
  | none =>
    have hmap := hcond.resolve_left fun h => h hfind
    unfold expansions at hfits hmap
    split at hfits
    · -- no hole: the first expansion makes one
      rename_i hnone
      simp only [hnone] at hmap
      obtain ⟨k₂, h₂⟩ := grow_empty (Kernel.alloc fuel) al hwf (by omega) hlen rfl hnone hfits
        (hmap _ (List.mem_cons_self ..))
      rw [alloc_of_none fuel hfind, h₂.grow, Option.bind_some]
      exact h₂.growing.returns rfl (by omega) 0x1000 (by rw [h₂.tables.start]; omega) h₂.bound (by omega) h₂.rest
        (h₂.tables.mapped fun e he => hmap e (List.mem_cons_of_mem _ he)) fuel (by omega)
    · rename_i idx hidx
      simp only [hidx] at hmap
      exact (growing_of_endmost hwf hfind hidx).returns rfl (by omega) 0x1000 (by omega) hlen (by omega) hfits hmap
        (fuel + 1) (by omega)

/-! ## A missing page table -/

/-- **The loop of `Expand` that comes to a missing table** does not get past it when its allocator has none to give. -/
theorem expandLoop_stuck {new_size : U32} : ∀ {n : Nat} {k : Kernel} {i : U32},
    (∀ k', SameButPages k k' → alloc k' sizeofPageTable true = none) → k.kheap ≠ 0 →
    k.tablesPresent new_size n i = false → expandLoop alloc new_size n k i = none
  | 0, _, _, _, _, h => by cases h
  | n + 1, k, i, hstuck, hkheap, h => by
    unfold tablesPresent at h
    unfold expandLoop
    by_cases hi : i < new_size
    · rw [if_pos hi] at h ⊢
      cases hp : k.lookupPage (k.heap.startAddress + i) k.kernel_directory with
      | none => simp only [getPage, hp, kmalloc, if_pos hkheap, hstuck k rfl, Option.map_none, Option.bind_none]
      | some p =>
        rw [hp, Option.isSome_some, Bool.true_and] at h
        simp only [getPage, hp, Option.bind_some]
        cases hk₁ : k.allocFrame p k.heap.supervisor (!k.heap.readonly) with
        | none => rfl
        | some k₁ =>
          have hs := allocFrame_same hk₁
          refine expandLoop_stuck (fun k' h' => hstuck k' (hs.trans h')) (by rw [hs]; exact hkheap) ?_
          rw [tablesPresent_same hs]; exact h
    · rw [if_neg hi] at h; cases h

/-- An expansion by `n` bytes comes to a missing table. -/
def Missing (k : Kernel) (n : U32) : Prop :=
  k.tablesPresent (expandSize (k.heap.endAddress - k.heap.startAddress + n)) (0x100000 + 1)
    (k.heap.endAddress - k.heap.startAddress) = false

instance (k : Kernel) (n : U32) : Decidable (k.Missing n) := by unfold Missing; infer_instance

theorem grow_stuck (hstuck : ∀ k', SameButPages k k' → alloc k' sizeofPageTable true = none) (hkheap : k.kheap ≠ 0)
    (hmiss : k.Missing n) : k.grow alloc n = none := by
  simp only [grow, expand, expandLoop_stuck hstuck hkheap hmiss, Option.map_none]

/-- **The request for a page table comes back to itself**, whatever frames the calls before took. -/
theorem alloc_table_stuck (hkheap : k.kheap ≠ 0)
    (hfind : k.heap.findSmallestHole k.mem (sizeofPageTable + sizeofHeader + sizeofFooter) true = none)
    (hmiss : k.Missing (sizeofPageTable + sizeofHeader + sizeofFooter)) :
    ∀ (fuel : Nat) (k' : Kernel), SameButPages k k' → Kernel.alloc fuel k' sizeofPageTable true = none
  | 0, _, _ => rfl
  | fuel + 1, k', hs => by
    have hfind' : k'.heap.findSmallestHole k'.mem (sizeofPageTable + sizeofHeader + sizeofFooter) true = none := by
      rw [hs]; exact hfind
    have hmiss' : k'.Missing (sizeofPageTable + sizeofHeader + sizeofFooter) := by
      unfold Missing
      rw [tablesPresent_same hs, hs]; exact hmiss
    rw [alloc_of_none fuel hfind', grow_stuck (fun k'' h => alloc_table_stuck hkheap hfind hmiss fuel k'' (hs.trans h))
      (by rw [hs]; exact hkheap) hmiss']
    rfl

/-- **The request has nowhere to go**: neither it nor a page table finds a hole, and the expansion for either comes to a
page table that does not exist. -/
structure Stuck (k : Kernel) (n : U32) (al : Bool) : Prop where
  find : k.heap.findSmallestHole k.mem n al = none
  findTable : k.heap.findSmallestHole k.mem (sizeofPageTable + sizeofHeader + sizeofFooter) true = none
  missing : k.Missing n
  missingTable : k.Missing (sizeofPageTable + sizeofHeader + sizeofFooter)

/-- **No amount of fuel gives a result** when the request is stuck. -/
theorem alloc_never {size : U32} (hkheap : k.kheap ≠ 0) (hs : k.Stuck (size + sizeofHeader + sizeofFooter) al) :
    ∀ fuel, Kernel.alloc fuel k size al = none
  | 0 => rfl
  | fuel + 1 => by
    rw [alloc_of_none fuel hs.find, grow_stuck (alloc_table_stuck hkheap hs.findTable hs.missingTable fuel) hkheap
      hs.missing]
    rfl

/-! ## A page table from the heap -/

/-- **An entry of `kernel_directory`** stays, or its physical address is what `tmp` happens to hold. -/
structure TmpEntries (k k' : Kernel) : Prop where
  kernel_directory : k'.kernel_directory = k.kernel_directory
  kheap : k'.kheap = k.kheap
  uninit : k'.uninit = k.uninit
  physical : ∀ t, (k'.directories k.kernel_directory).tablesPhysical t =
      (k.directories k.kernel_directory).tablesPhysical t ∨
    (k'.directories k.kernel_directory).tablesPhysical t = k.uninit ||| 0x7

/-- With a heap `kmalloc` writes nothing through `phys`. -/
def EntersTmp (alloc : Allocator) : Prop :=
  ∀ k size al r, k.kheap ≠ 0 → alloc k size al = some r → TmpEntries k r.2

/-- A page behind the old end of the heap was without a page table, and is behind one whose physical address is what
`tmp` happens to hold. -/
def Unset (k k' : Kernel) : Prop :=
  ∃ a : U32, k.heap.endAddress ≤ a ∧ k.lookupPage a k.kernel_directory = none ∧
    (k'.directories k.kernel_directory).tablesPhysical (tableIndex a) = k.uninit ||| 0x7

theorem TmpEntries.refl (k : Kernel) : TmpEntries k k := ⟨rfl, rfl, rfl, fun _ => .inl rfl⟩

theorem TmpEntries.of_same (h : SameButPages k k') : TmpEntries k k' := by
  rw [h]
  exact ⟨rfl, rfl, rfl, fun _ => .inl rfl⟩

theorem TmpEntries.kept {k'' : Kernel} {t : Nat} (h : TmpEntries k k') (h' : TmpEntries k' k'')
    (ht : (k'.directories k.kernel_directory).tablesPhysical t = k.uninit ||| 0x7) :
    (k''.directories k.kernel_directory).tablesPhysical t = k.uninit ||| 0x7 := by
  have hphys := h'.physical t
  rw [h.kernel_directory, h.uninit] at hphys
  exact hphys.elim (fun hp => hp.trans ht) id

theorem TmpEntries.trans {k'' : Kernel} (h : TmpEntries k k') (h' : TmpEntries k' k'') : TmpEntries k k'' where
  kernel_directory := h'.kernel_directory.trans h.kernel_directory
  kheap := h'.kheap.trans h.kheap
  uninit := h'.uninit.trans h.uninit
  physical t := by
    rcases h.physical t with ht | ht
    · have hphys := h'.physical t
      rw [h.kernel_directory, h.uninit, ht] at hphys
      exact hphys
    · exact .inr (h.kept h' ht)

theorem Unset.kept {k'' : Kernel} (hu : Unset k k') (h : TmpEntries k k') (h' : TmpEntries k' k'') : Unset k k'' := by
  obtain ⟨a, ha, hnone, hphys⟩ := hu
  exact ⟨a, ha, hnone, h.kept h' hphys⟩

/-- **`get_page` with a heap**, and what it enters when there is no table. -/
theorem getPage_entersTmp {p : PagePtr} (ha : EntersTmp alloc) (hkheap : k.kheap ≠ 0)
    (h : getPage alloc k a k.kernel_directory = some (p, k')) :
    TmpEntries k k' ∧ (k.lookupPage a k.kernel_directory = none →
      (k'.directories k.kernel_directory).tablesPhysical (tableIndex a) = k.uninit ||| 0x7) := by
  unfold getPage at h
  cases hp : k.lookupPage a k.kernel_directory with
  | some q =>
    rw [hp] at h
    obtain ⟨rfl, rfl⟩ := Prod.mk.inj (Option.some.inj h)
    exact ⟨.refl k, fun hn => by cases hn⟩
  | none =>
    rw [hp] at h
    simp only [kmalloc, if_pos hkheap, Option.map_map] at h
    obtain ⟨r, hr, h⟩ := Option.map_eq_some_iff.1 h
    have hin := ha _ _ _ _ hkheap hr
    obtain ⟨-, rfl⟩ := Prod.mk.inj h
    refine ⟨⟨hin.kernel_directory, hin.kheap, hin.uninit, fun t => ?_⟩, fun _ => ?_⟩
    · by_cases ht : t = tableIndex a
      · refine .inr ?_
        simp only [setDirectory, if_true, if_pos ht, Option.getD_none, hin.uninit]
      · simp only [setDirectory, if_true, if_neg ht]
        exact hin.physical t
    · simp only [setDirectory, if_true, Option.getD_none, hin.uninit]

theorem expandLoop_entersTmp {new_size : U32} (ha : EntersTmp alloc) : ∀ {n : Nat} {k k' : Kernel} {i : U32},
    k.kheap ≠ 0 → expandLoop alloc new_size n k i = some k' → TmpEntries k k'
  | 0, _, _, _, _, h => by cases h
  | n + 1, k, k', i, hkheap, h => by
    unfold expandLoop at h
    by_cases hi : i < new_size
    · rw [if_pos hi] at h
      obtain ⟨⟨p, k₁⟩, hk₁, h⟩ := Option.bind_eq_some_iff.1 h
      obtain ⟨k₂, hk₂, h⟩ := Option.bind_eq_some_iff.1 h
      have h₂ := (getPage_entersTmp ha hkheap hk₁).1.trans (.of_same (allocFrame_same hk₂))
      exact h₂.trans (expandLoop_entersTmp ha (by rw [h₂.kheap]; exact hkheap) h)
    · rw [if_neg hi] at h
      obtain rfl := Option.some.inj h
      exact .refl k

/-- **The loop of `Expand` that gets past a missing table** has entered it. -/
theorem expandLoop_unset {new_size : U32} (ha : EntersTmp alloc) (hw : new_size.toNat + 0x1000 ≤ 2 ^ 32) :
    ∀ {n : Nat} {k k' : Kernel} {i : U32}, k.kheap ≠ 0 → k.tablesPresent new_size n i = false →
      expandLoop alloc new_size n k i = some k' → ∃ j, i ≤ j ∧ j < new_size ∧
        k.lookupPage (k.heap.startAddress + j) k.kernel_directory = none ∧
        (k'.directories k.kernel_directory).tablesPhysical (tableIndex (k.heap.startAddress + j)) = k.uninit ||| 0x7
  | 0, _, _, _, _, _, h => by cases h
  | n + 1, k, k', i, hkheap, ht, h => by
    unfold tablesPresent at ht
    unfold expandLoop at h
    by_cases hi : i < new_size
    · rw [if_pos hi] at ht h
      obtain ⟨⟨p, k₁⟩, hk₁, hbind⟩ := Option.bind_eq_some_iff.1 h
      obtain ⟨k₂, hk₂, hloop⟩ := Option.bind_eq_some_iff.1 hbind
      obtain ⟨h₁, hset⟩ := getPage_entersTmp ha hkheap hk₁
      have h₁₂ := TmpEntries.of_same (allocFrame_same hk₂)
      cases hl : k.lookupPage (k.heap.startAddress + i) k.kernel_directory with
      | none =>
        have hrest := expandLoop_entersTmp ha (by rw [(h₁.trans h₁₂).kheap]; exact hkheap) hloop
        exact ⟨i, BitVec.le_refl i, hi, hl, h₁.kept (h₁₂.trans hrest) (hset hl)⟩
      | some q =>
        rw [hl, Option.isSome_some, Bool.true_and] at ht
        simp only [getPage, hl, Option.some.injEq, Prod.mk.injEq] at hk₁
        obtain ⟨rfl, rfl⟩ := hk₁
        have hs := allocFrame_same hk₂
        obtain ⟨j, hij, hj, hnone, hphys⟩ := expandLoop_unset ha hw (by rw [hs]; exact hkheap)
          ((tablesPresent_same hs new_size n _).trans ht) hloop
        rw [hs] at hnone hphys
        refine ⟨j, ?_, hj, hnone, hphys⟩
        rw [BitVec.lt_def] at hi
        rw [BitVec.le_def, BitVec.toNat_add] at hij
        rw [BitVec.le_def]
        simp only [show (0x1000 : U32).toNat = 0x1000 from rfl] at hij
        omega
    · rw [if_neg hi] at ht
      cases ht

theorem grow_entersTmp (ha : EntersTmp alloc) (hkheap : k.kheap ≠ 0) (h : k.grow alloc n = some k') :
    TmpEntries k k' := by
  unfold grow expand at h
  obtain ⟨k₁, hk₁, rfl⟩ := Option.map_eq_some_iff.1 h
  obtain ⟨k₂, hk₂, rfl⟩ := Option.map_eq_some_iff.1 hk₁
  obtain ⟨h1, h2, h3, h4⟩ := expandLoop_entersTmp ha hkheap hk₂
  exact ⟨h1, h2, h3, h4⟩

theorem alloc_entersTmp : ∀ fuel : Nat, EntersTmp (Kernel.alloc fuel)
  | 0, _, _, _, _, _, h => by cases h
  | fuel + 1, k, size, al, r, hkheap, h => by
    cases hfind : k.heap.findSmallestHole k.mem (size + sizeofHeader + sizeofFooter) al with
    | some i =>
      rw [alloc_of_found fuel hfind] at h
      obtain rfl := Option.some.inj h
      exact ⟨rfl, rfl, rfl, fun _ => .inl rfl⟩
    | none =>
      rw [alloc_of_none fuel hfind] at h
      obtain ⟨k₂, hk₂, h⟩ := Option.bind_eq_some_iff.1 h
      have h₂ := grow_entersTmp (alloc_entersTmp fuel) hkheap hk₂
      exact h₂.trans (alloc_entersTmp fuel k₂ size al r (by rw [h₂.kheap]; exact hkheap) h)

/-- **A call of `Alloc` that returns though its expansion came to a missing table.** -/
theorem alloc_unset {size : U32} {fuel : Nat} {r : U32 × Kernel} (hn : n = size + sizeofHeader + sizeofFooter)
    (hkheap : k.kheap ≠ 0) (hst : 0x1000 ≤ k.heap.startAddress.toNat)
    (hlen : k.heap.endAddress.toNat = k.heap.startAddress.toNat + len.toNat)
    (hw : k.heap.startAddress.toNat + (expandSize (len + n)).toNat < 2 ^ 32)
    (hfind : k.heap.findSmallestHole k.mem n al = none)
    (hmiss : k.tablesPresent (expandSize (len + n)) (0x100000 + 1) len = false)
    (h : Kernel.alloc fuel k size al = some r) : Unset k r.2 := by
  subst hn
  cases fuel with
  | zero => cases h
  | succ fuel =>
    have ha := alloc_entersTmp fuel
    rw [alloc_of_none fuel hfind] at h
    obtain ⟨k₂, hk₂, h⟩ := Option.bind_eq_some_iff.1 h
    have h₂ := grow_entersTmp ha hkheap hk₂
    have hrest := ha k₂ size al r (by rw [h₂.kheap]; exact hkheap) h
    refine Unset.kept ?_ h₂ hrest
    unfold Kernel.grow expand at hk₂
    obtain ⟨k₁, hk₁, rfl⟩ := Option.map_eq_some_iff.1 hk₂
    obtain ⟨k₀, hk₀, rfl⟩ := Option.map_eq_some_iff.1 hk₁
    rw [sub_eq_of_bound hlen] at hk₀
    obtain ⟨j, hij, hj, hnone, hphys⟩ := expandLoop_unset ha (by omega) hkheap hmiss hk₀
    refine ⟨k.heap.startAddress + j, ?_, hnone, hphys⟩
    rw [BitVec.lt_def] at hj
    rw [BitVec.le_def] at hij
    rw [BitVec.le_def, BitVec.toNat_add]
    omega

theorem SameTables.not_mapped {es : List (U32 × U32)} (hs : SameTables k k')
    (ht : k.tablesPresent new (0x100000 + 1) len = true) (hmap : ¬ k.Mapped ((len, new) :: es)) : ¬ k'.Mapped es :=
  fun hm => hmap (List.forall_mem_cons.2 ⟨ht, fun e he => (hs.tablesPresent _ _ _).symm.trans (hm e he)⟩)

/-- What is unset behind the heap after an expansion over present tables, is unset behind the heap before it. -/
theorem Grown.unset {k₂ : Kernel} {es : List (U32 × U32)} {size : U32} {fuel : Nat} {r : U32 × Kernel}
    (h₂ : Grown (Kernel.alloc fuel) k k₂ n al a S new es) (hn : n = size + sizeofHeader + sizeofFooter)
    (hkheap : k.kheap ≠ 0) (hlen : k.heap.endAddress.toNat = k.heap.startAddress.toNat + len.toNat)
    (hle : len.toNat ≤ new.toNat) (hfind : k.heap.findSmallestHole k.mem n al = none)
    (h : Kernel.alloc (fuel + 1) k size al = some r)
    (hrest : k₂.kheap ≠ 0 → Kernel.alloc fuel k₂ size al = some r → Unset k₂ r.2) : Unset k r.2 := by
  subst hn
  rw [alloc_of_none fuel hfind, h₂.grow, Option.bind_some] at h
  have hin := grow_entersTmp (alloc_entersTmp fuel) hkheap h₂.grow
  have hb := h₂.bound
  rw [h₂.tables.start] at hb
  obtain ⟨b, hend, hnone, hphys⟩ := hrest (by rw [hin.kheap]; exact hkheap) h
  refine ⟨b, BitVec.le_trans (by rw [BitVec.le_def]; omega) hend, ?_, ?_⟩
  · unfold lookupPage at hnone ⊢
    rwa [h₂.tables.directories, h₂.tables.kernel_directory] at hnone
  · rwa [h₂.tables.kernel_directory, hin.uninit] at hphys

/-- **A hole that expansions enlarge until they come to a missing table.** -/
theorem Growing.unset {size : U32} (hn : n = size + sizeofHeader + sizeofFooter) : ∀ (j : Nat) {k : Kernel}
    {len S : U32}, Growing k n al a S → k.kheap ≠ 0 → 0x1000 ≤ k.heap.startAddress.toNat →
    k.heap.endAddress.toNat = k.heap.startAddress.toNat + len.toNat →
    Affordable k n (expansionsFrom n al a j len S) → ¬ k.Mapped (expansionsFrom n al a j len S) →
    ∀ fuel r, Kernel.alloc fuel k size al = some r → Unset k r.2
  | 0, _, _, _, _, _, _, _, _, hmap, _, _, _ => absurd (fun e he => by cases he) hmap
  | _ + 1, _, _, _, _, _, _, _, _, _, 0, _, h => by cases h
  | j + 1, k, len, S, hg, hkheap, hst, hlen, ha, hmap, fuel + 1, r, h => by
    have hfind := hg.find
    cases hfit : fitsAt n al a S with
    | true =>
      simp only [expansionsFrom, hfit, if_true] at hmap
      exact absurd (fun e he => by cases he) hmap
    | false =>
      rw [hfit, Option.isSome_eq_false_iff, Option.isNone_iff_eq_none] at hfind
      simp only [expansionsFrom, hfit, Bool.false_eq_true, if_false] at ha hmap
      obtain ⟨hl, hw⟩ := ha.lengths _ (List.mem_cons_self ..)
      simp only at hl hw
      cases ht : k.tablesPresent (expandSize (len + n)) (0x100000 + 1) len with
      | false => exact alloc_unset hn hkheap hst hlen hw hfind ht h
      | true =>
        obtain ⟨k₂, h₂⟩ := hg.grow (Kernel.alloc fuel) hst hlen rfl ha ht
        exact h₂.unset hn hkheap hlen (by omega) hfind h fun hkheap₂ => h₂.growing.unset hn j hkheap₂
          (by rw [h₂.tables.start]; exact hst) h₂.bound h₂.rest (h₂.tables.not_mapped ht hmap) fuel r

/-- **A request whose expansions come to a missing table**, if `Alloc` returns at all. -/
theorem alloc_of_unmapped {k : Kernel} {segs : List Seg} {size : U32} {al : Bool} (hwf : WellFormed k.heap k.mem segs)
    (hkheap : k.kheap ≠ 0) (hsize : size.toNat + 20 < 2 ^ 32)
    (hfits : k.Affordable (size + sizeofHeader + sizeofFooter) (k.expansions (size + sizeofHeader + sizeofFooter) al))
    (hcond : ¬ (k.heap.findSmallestHole k.mem (size + sizeofHeader + sizeofFooter) al ≠ none ∨
      k.Mapped (k.expansions (size + sizeofHeader + sizeofFooter) al))) :
    ∀ fuel r, Kernel.alloc fuel k size al = some r → Unset k r.2
  | 0, _, h => by cases h
  | fuel + 1, r, h => by
    have hn : (size + sizeofHeader + sizeofFooter).toNat = size.toNat + 20 := by
      unfold sizeofHeader sizeofFooter; bv_omega
    have hbase := low_base hwf.toMarks
    have hlen := hwf.length
    obtain ⟨hfind, hmap⟩ := not_or.1 hcond
    rw [not_not] at hfind
    unfold expansions at hfits hmap
    split at hfits
    · -- no hole: the first expansion makes one, or comes to the missing table
      rename_i hnone
      simp only [hnone] at hmap
      obtain ⟨hl, hw⟩ := hfits.lengths _ (List.mem_cons_self ..)
      simp only at hl hw
      cases ht : k.tablesPresent (expandSize (k.heap.endAddress - k.heap.startAddress +
          (size + sizeofHeader + sizeofFooter))) (0x100000 + 1) (k.heap.endAddress - k.heap.startAddress) with
      | false => exact alloc_unset rfl hkheap (by omega) hlen hw hfind ht h
      | true =>
        obtain ⟨k₂, h₂⟩ := grow_empty (Kernel.alloc fuel) al hwf (by omega) hlen rfl hnone hfits ht
        exact h₂.unset rfl hkheap hlen (by omega) hfind h fun hkheap₂ => h₂.growing.unset rfl 0x1000 hkheap₂
          (by rw [h₂.tables.start]; omega) h₂.bound h₂.rest (h₂.tables.not_mapped ht hmap) fuel r
    · rename_i idx hidx
      simp only [hidx] at hmap
      exact (growing_of_endmost hwf hfind hidx).unset rfl 0x1000 hkheap (by omega) hlen hfits hmap (fuel + 1) r h

end Kernel

/-- **Termination of `Alloc`** with a live heap.  From a well-formed heap, with room and frames for its expansions,
`Alloc` returns when a hole passes the search at once or when the page tables exist that the expansions come to.  It
never returns when it is stuck; and otherwise, if it returns, new pages of the heap are behind a page table whose
physical address was never set. -/
theorem alloc_returns {k : Kernel} {segs : List Seg} {size : U32} {al : Bool} (hwf : WellFormed k.heap k.mem segs)
    (hkheap : k.kheap ≠ 0) (hsize : size.toNat + 20 < 2 ^ 32)
    (hfits : k.Affordable (size + sizeofHeader + sizeofFooter) (k.expansions (size + sizeofHeader + sizeofFooter) al)) :
    (k.heap.findSmallestHole k.mem (size + sizeofHeader + sizeofFooter) al ≠ none ∨
        k.Mapped (k.expansions (size + sizeofHeader + sizeofFooter) al) →
      ∃ n, ∀ fuel, n ≤ fuel → ∃ p k', Kernel.alloc fuel k size al = some (p, k')) ∧
    (k.Stuck (size + sizeofHeader + sizeofFooter) al → ∀ fuel, Kernel.alloc fuel k size al = none) ∧
    (¬ (k.heap.findSmallestHole k.mem (size + sizeofHeader + sizeofFooter) al ≠ none ∨
        k.Mapped (k.expansions (size + sizeofHeader + sizeofFooter) al)) →
      ∀ fuel r, Kernel.alloc fuel k size al = some r → k.Unset r.2) :=
  ⟨Kernel.alloc_of_mapped hwf hsize hfits, Kernel.alloc_never hkheap, Kernel.alloc_of_unmapped hwf hkheap hsize hfits⟩

/-- A heap that one live block fills up to a 4 MB boundary, with the page table below that boundary and no other. -/
def fullHeap : Kernel where
  mem := layout 0xC0000000 [⟨0xC0080000, 0x380000, false, true, by decide⟩]
  kheap := 1
  heap := ⟨⟨0xC0000000, 0, heapIndexSize⟩, 0xC0080000, 0xC0400000, 0, false, false⟩
  placement_address := 0
  frames := ⟨0x20, fun _ => 0⟩
  directories := fun _ => ⟨fun i => if i = 0x300 then 1 else 0, fun _ => 0, 0⟩
  pageTables := fun _ _ => ⟨true, true, false, false, false, 0, 1⟩
  kernel_directory := 0
  current_directory := 0
  uninit := 0

theorem alloc_returns_two_pages :
    ∃ n, ∀ fuel, n ≤ fuel → ∃ p k', Kernel.alloc fuel (twoPages [firstLive, lastHole]) 0x1FEC true = some (p, k') :=
  (alloc_returns (show WellFormed (twoPages [firstLive, lastHole]).heap (twoPages [firstLive, lastHole]).mem
      [firstLive, lastHole] by decide +kernel) (by decide) (by decide)
    ⟨@of_decide_eq_true _ (List.decidableBAll _ _) (by decide +kernel), by decide +kernel⟩).1
      (.inr (@of_decide_eq_true _ (List.decidableBAll _ _) (by decide +kernel)))

/-- A small request that crosses the boundary needs a page table, and the table needs itself. -/
theorem alloc_never_full : WellFormed fullHeap.heap fullHeap.mem [⟨0xC0080000, 0x380000, false, true, by decide⟩] ∧
    (∀ a : U32, 0xC0000000 ≤ a.toNat → a.toNat < 0xC0400000 →
      ∃ p, fullHeap.lookupPage a fullHeap.kernel_directory = some p ∧ (fullHeap.page p).frame ≠ 0) ∧
    fullHeap.Affordable (0x100 + sizeofHeader + sizeofFooter)
      (fullHeap.expansions (0x100 + sizeofHeader + sizeofFooter) false) ∧
    ∀ fuel, Kernel.alloc fuel fullHeap 0x100 false = none := by
  refine ⟨by decide +kernel, fun a ha ha' => ?_,
    ⟨@of_decide_eq_true _ (List.decidableBAll _ _) (by decide +kernel), by decide +kernel⟩,
    Kernel.alloc_never (by decide) ⟨by decide +kernel, by decide +kernel, by decide +kernel, by decide +kernel⟩⟩
  have hi : Kernel.tableIndex a = 0x300 := by
    unfold Kernel.tableIndex
    rw [BitVec.toNat_udiv, BitVec.toNat_udiv]
    simp; omega
  refine ⟨⟨1, Kernel.pageIndex a⟩, ?_, (by decide : (1 : BitVec 20) ≠ 0)⟩
  unfold Kernel.lookupPage
  rw [hi]
  rfl

end Loris
