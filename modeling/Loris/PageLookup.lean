import Loris.Boot
/-!
# PageLookup — `get_page` before the heap exists (`paging.cpp` lines 113 to 135)

Each call of `get_page(address, 1, dir)` finds the table of the address's 4 MB, or takes one from the placement region
above everything there is.  The invariant is `Tables`: the directory and its tables lie below `placement_address`, the
tables apart from each other.  `get_page_lookup` puts together what a sequence of calls makes of it: entries and pages
correspond one to one, and what was returned stays.
-/
namespace Loris

open ByteMem

/-- A call `get_page(address, 1, dir)`: the state before it, the entry it returned and the state after it. -/
structure GetCall where
  before : Kernel
  address : U32
  entry : PagePtr
  after : Kernel

/-- The address of an entry. -/
def PagePtr.address (p : PagePtr) : U32 := p.table + 4 * BitVec.ofNat 32 p.index

namespace Kernel

/-- The calls that lead from one state to another, one after the other, with `placement_address` never wrapping
around. -/
def GetPages (alloc : Allocator) (dir : U32) : Kernel → List GetCall → Kernel → Prop
  | k, [], k' => k = k'
  | k, c :: l, k' => c.before = k ∧ getPage alloc k c.address dir = some (c.entry, c.after) ∧
      k.placement_address ≤ c.after.placement_address ∧ GetPages alloc dir c.after l k'

/-- **The directory and its tables lie below `placement_address`**, apart from each other. -/
structure Tables (k : Kernel) (dir : U32) : Prop where
  noHeap : k.kheap = 0
  page : 0x1000 ≤ k.placement_address.toNat
  directory : dir.toNat + 8196 ≤ k.placement_address.toNat
  below : ∀ i, i < 1024 → (k.directories dir).tables i ≠ 0 →
    ((k.directories dir).tables i).toNat + 0x1000 ≤ k.placement_address.toNat ∧
      (((k.directories dir).tables i).toNat + 0x1000 ≤ dir.toNat ∨
        dir.toNat + 8196 ≤ ((k.directories dir).tables i).toNat)
  apart : ∀ i j, i < 1024 → j < 1024 → i ≠ j → (k.directories dir).tables i ≠ 0 → (k.directories dir).tables j ≠ 0 →
    ((k.directories dir).tables i).toNat + 0x1000 ≤ ((k.directories dir).tables j).toNat ∨
      ((k.directories dir).tables j).toNat + 0x1000 ≤ ((k.directories dir).tables i).toNat

variable {k k' : Kernel} {dir a : U32} {alloc : Allocator} {p : PagePtr}

theorem tableIndex_eq (a : U32) : tableIndex a = a.toNat / 0x400000 := by
  unfold tableIndex
  rw [BitVec.toNat_udiv, BitVec.toNat_udiv, show (0x1000 : U32).toNat = 0x1000 from rfl,
    show (1024 : U32).toNat = 1024 from rfl]
  omega

theorem pageIndex_eq (a : U32) : pageIndex a = a.toNat / 0x1000 % 1024 := by
  unfold pageIndex
  rw [BitVec.toNat_umod, BitVec.toNat_udiv]
  rfl

/-! ## One call -/

/-- **What a call does**: the entry is that of the address in its table; a table that was there stays, and its entries;
a table that was not there lies above the old placement address, all zero. -/
structure Got (k : Kernel) (dir a : U32) (p : PagePtr) (k' : Kernel) : Prop where
  tables : Tables k' dir
  index : p.index = pageIndex a
  table : (k'.directories dir).tables (tableIndex a) = p.table
  assigned : p.table ≠ 0
  others : ∀ i, i ≠ tableIndex a → (k'.directories dir).tables i = (k.directories dir).tables i
  stays : (k.directories dir).tables (tableIndex a) ≠ 0 → p.table = (k.directories dir).tables (tableIndex a)
  fresh : (k.directories dir).tables (tableIndex a) = 0 → ∀ j, k'.page ⟨p.table, j⟩ = Page.zero
  pages : ∀ q : PagePtr, q.table.toNat + 0x1000 ≤ k.placement_address.toNat → k'.page q = k.page q
  grows : k.placement_address.toNat ≤ k'.placement_address.toNat

/-- A new table goes behind the placement address. -/
theorem toNat_newTable (hp : k.placement_address ≤ nextPage k.placement_address + sizeofPageTable) :
    (nextPage k.placement_address).toNat = k.placement_address.toNat / 0x1000 * 0x1000 + 0x1000 ∧
      (nextPage k.placement_address + sizeofPageTable).toNat = (nextPage k.placement_address).toNat + 0x1000 := by
  have hsz : sizeofPageTable.toNat = 0x1000 := rfl
  have hend : k.placement_address.toNat ≤ (nextPage k.placement_address + sizeofPageTable).toNat := hp
  have hlt := k.placement_address.isLt
  have hnext : (nextPage k.placement_address).toNat = k.placement_address.toNat / 0x1000 * 0x1000 + 0x1000 := by
    refine toNat_nextPage (Nat.lt_of_not_le fun hge => ?_)
    unfold nextPage at hend
    rw [BitVec.toNat_add, BitVec.toNat_add, toNat_and_page, hsz] at hend
    have h1000 : (0x1000 : U32).toNat = 0x1000 := rfl
    omega
  rw [BitVec.toNat_add, hsz, hnext] at hend
  refine ⟨hnext, ?_⟩
  rw [BitVec.toNat_add, hsz, hnext]
  omega

theorem tables_addTable (k : Kernel) (dir T : U32) (i j : Nat) :
    ((addTable k dir i T).directories dir).tables j = if j = i then T else (k.directories dir).tables j := by
  rw [addTable_directory]

theorem Tables.addTable (ht : Tables k dir) {i : Nat} {T : U32}
    (hT : k.placement_address.toNat ≤ T.toNat) (hend : (T + sizeofPageTable).toNat = T.toNat + 0x1000) :
    Tables (k.addTable dir i T) dir where
  noHeap := ht.noHeap
  page := by
    have := ht.page
    show 0x1000 ≤ (T + sizeofPageTable).toNat
    omega
  directory := by
    have := ht.directory
    show _ ≤ (T + sizeofPageTable).toNat
    omega
  below j hj hne := by
    have := ht.directory
    show _ ≤ (T + sizeofPageTable).toNat ∧ _
    rw [tables_addTable] at hne ⊢
    split at hne <;> rename_i hji
    · rw [if_pos hji]
      exact ⟨by omega, Or.inr (by omega)⟩
    · rw [if_neg hji]
      obtain ⟨hb, hd⟩ := ht.below j hj hne
      exact ⟨by omega, hd⟩
  apart j l hj hl hjl hj0 hl0 := by
    rw [tables_addTable] at hj0 hl0 ⊢
    rw [tables_addTable]
    by_cases hji : j = i
    · have hli : l ≠ i := fun hl' => hjl (hji.trans hl'.symm)
      rw [if_neg hli] at hl0
      rw [if_pos hji, if_neg hli]
      have := ht.below l hl hl0
      omega
    · rw [if_neg hji] at hj0
      rw [if_neg hji]
      by_cases hli : l = i
      · rw [if_pos hli]
        have := ht.below j hj hj0
        omega
      · rw [if_neg hli] at hl0 ⊢
        exact ht.apart j l hj hl hjl hj0 hl0

/-- **One call.** -/
theorem Tables.got (ht : Tables k dir) (h : getPage alloc k a dir = some (p, k'))
    (hp : k.placement_address ≤ k'.placement_address) : Got k dir a p k' := by
  by_cases h0 : (k.directories dir).tables (tableIndex a) = 0
  · -- the new table is the page behind the placement address
    rw [getPage_placement ht.noHeap ht.page h0, Option.some.injEq, Prod.mk.injEq] at h
    obtain ⟨rfl, rfl⟩ := h
    obtain ⟨hnext, hend⟩ := toNat_newTable hp
    have hne : nextPage k.placement_address ≠ 0 := fun he => by
      rw [he] at hnext
      have : (0 : U32).toNat = 0 := rfl
      omega
    exact {
      tables := ht.addTable (by omega) hend
      index := rfl
      table := by rw [tables_addTable, if_pos rfl]
      assigned := hne
      others := fun i hi => by rw [tables_addTable, if_neg hi]
      stays := fun h' => absurd h0 h'
      fresh := fun _ j => by rw [addTable_page, if_pos rfl]
      pages := fun q hq => by
        rw [addTable_page, if_neg fun he => ?_]
        rw [he] at hq
        omega
      grows := by
        show _ ≤ (nextPage k.placement_address + sizeofPageTable).toNat
        omega }
  · unfold getPage lookupPage at h
    simp only [ne_eq, h0, not_false_eq_true, if_true, Option.some.injEq, Prod.mk.injEq] at h
    obtain ⟨rfl, rfl⟩ := h
    exact ⟨ht, rfl, rfl, h0, fun _ _ => rfl, fun _ => rfl, fun h' => absurd h' h0, fun _ _ => rfl, Nat.le_refl _⟩

/-- A call that returned can be made again at any later state that kept its table: it finds the same entry. -/
theorem lookupPage_of_table {b : U32} (ht : (k.directories dir).tables (tableIndex a) = p.table) (h0 : p.table ≠ 0)
    (hi : p.index = pageIndex a) (hab : b.toNat / 0x1000 = a.toNat / 0x1000) : k.lookupPage b dir = some p := by
  have htb : tableIndex b = tableIndex a := by
    rw [tableIndex_eq, tableIndex_eq]
    omega
  have hpb : pageIndex b = pageIndex a := by rw [pageIndex_eq, pageIndex_eq, hab]
  unfold lookupPage
  simp only [htb, ht, hpb, ← hi, ne_eq, h0, not_false_eq_true, if_true]

theorem getPage_returns (alloc : Allocator) (hk : k.kheap = 0) (a dir : U32) : ∃ r, getPage alloc k a dir = some r := by
  unfold getPage kmalloc
  cases k.lookupPage a dir with
  | some q => exact ⟨_, rfl⟩
  | none =>
    simp only
    rw [if_neg (not_not.2 hk)]
    exact ⟨_, rfl⟩

/-! ## A sequence of calls -/

/-- What a sequence of calls leaves of the directory and of the pages below the placement address. -/
structure GotAll (k : Kernel) (dir : U32) (l : List GetCall) (k' : Kernel) : Prop where
  tables : Tables k' dir
  grows : k.placement_address.toNat ≤ k'.placement_address.toNat
  stays : ∀ i, (k.directories dir).tables i ≠ 0 → (k'.directories dir).tables i = (k.directories dir).tables i
  untouched : ∀ i, (∀ c ∈ l, tableIndex c.address ≠ i) → (k'.directories dir).tables i = (k.directories dir).tables i
  pages : ∀ q : PagePtr, q.table.toNat + 0x1000 ≤ k.placement_address.toNat → k'.page q = k.page q
  entries : ∀ c ∈ l, c.entry.index = pageIndex c.address ∧
    (k'.directories dir).tables (tableIndex c.address) = c.entry.table ∧ c.entry.table ≠ 0
  kept : ∀ c ∈ l, ∀ j, k'.page ⟨c.entry.table, j⟩ = c.after.page ⟨c.entry.table, j⟩
  fresh : ∀ c ∈ l, (c.before.directories dir).tables (tableIndex c.address) = 0 →
    ∀ j, c.after.page ⟨c.entry.table, j⟩ = Page.zero

theorem Tables.gotAll :
    {k : Kernel} → {l : List GetCall} → Tables k dir → GetPages alloc dir k l k' → GotAll k dir l k'
  | _, [], ht, rfl => ⟨ht, Nat.le_refl _, fun _ _ => rfl, fun _ _ => rfl, fun _ _ => rfl,
    fun _ hc => absurd hc List.not_mem_nil,
      fun _ hc => absurd hc List.not_mem_nil, fun _ hc => absurd hc List.not_mem_nil⟩
  | k, c :: l, ht, ⟨hb, hg, hp, hr⟩ => by
    have hc := ht.got hg hp
    have hl := Tables.gotAll hc.tables hr
    have hlt := tableIndex_lt c.address
    -- the call's table lies below the placement address of the calls after it
    have hin : c.entry.table.toNat + 0x1000 ≤ c.after.placement_address.toNat := by
      have := (hc.tables.below _ hlt (by rw [hc.table]; exact hc.assigned)).1
      rwa [hc.table] at this
    have hstay : (k'.directories dir).tables (tableIndex c.address) = c.entry.table := by
      rw [hl.stays _ (by rw [hc.table]; exact hc.assigned), hc.table]
    refine ⟨hl.tables, by have := hc.grows; have := hl.grows; omega, fun i hi => ?_, fun i hi => ?_, fun q hq => ?_,
      fun d hd => ?_, fun d hd j => ?_, fun d hd h0 j => ?_⟩
    · by_cases hia : i = tableIndex c.address
      · rw [hia] at hi ⊢
        rw [hstay, hc.stays hi]
      · have hci := hc.others i hia
        rw [hl.stays i (by rwa [hci]), hci]
    · rw [hl.untouched i fun d hd => hi d (List.mem_cons_of_mem _ hd), hc.others i (hi c List.mem_cons_self).symm]
    · rw [hl.pages q (by have := hc.grows; omega), hc.pages q hq]
    · obtain rfl | hd := List.mem_cons.1 hd
      · exact ⟨hc.index, hstay, hc.assigned⟩
      · exact hl.entries d hd
    · obtain rfl | hd := List.mem_cons.1 hd
      · exact hl.pages ⟨_, j⟩ hin
      · exact hl.kept d hd j
    · obtain rfl | hd := List.mem_cons.1 hd
      · rw [hb] at h0
        exact hc.fresh h0 j
      · exact hl.fresh d hd h0 j

/-- **`get_page` is a stable injective lookup** over the calls `l` that lead to `k'`. -/
structure StableLookup (alloc : Allocator) (k : Kernel) (dir : U32) (l : List GetCall) (k' : Kernel) : Prop where
  same : ∀ c ∈ l, ∀ c' ∈ l, c.entry.address = c'.entry.address ↔ c.address.toNat / 0x1000 = c'.address.toNat / 0x1000
  /-- Two different entries share no byte. -/
  apart : ∀ c ∈ l, ∀ c' ∈ l, c.address.toNat / 0x1000 ≠ c'.address.toNat / 0x1000 →
    c.entry.address.toNat + 4 ≤ c'.entry.address.toNat ∨ c'.entry.address.toNat + 4 ≤ c.entry.address.toNat
  kept : ∀ c ∈ l, k'.page c.entry = c.after.page c.entry
  fresh : ∀ c ∈ l, (c.before.directories dir).tables (tableIndex c.address) = 0 →
    ∀ j, c.after.page ⟨c.entry.table, j⟩ = Page.zero
  found : ∀ c ∈ l, ∀ a : U32, a.toNat / 0x1000 = c.address.toNat / 0x1000 → k'.lookupPage a dir = some c.entry
  null : ∀ a, k'.lookupPage a dir = none ↔
    (∀ c ∈ l, c.address.toNat / 0x400000 ≠ a.toNat / 0x400000) ∧ (k.directories dir).tables (tableIndex a) = 0
  /-- The next call returns, at a state that is as the first one was. -/
  next : Tables k' dir ∧ ∀ a, ∃ r, getPage alloc k' a dir = some r

theorem toNat_address {p : PagePtr} (hi : p.index < 1024) (hp : p.table.toNat + 0x1000 ≤ 2 ^ 32) :
    p.address.toNat = p.table.toNat + 4 * p.index := by
  unfold PagePtr.address
  rw [BitVec.toNat_add, BitVec.toNat_mul, BitVec.toNat_ofNat, show (4 : U32).toNat = 4 from rfl]
  omega

end Kernel

open Kernel

/-- **`get_page` before the heap exists is a stable injective lookup**, over every sequence of calls that does not
exhaust the address space. -/
theorem get_page_lookup {k k' : Kernel} {dir : U32} {alloc : Allocator} {l : List GetCall} (ht : Tables k dir)
    (h : GetPages alloc dir k l k') : StableLookup alloc k dir l k' := by
  have hl := ht.gotAll h
  have hlt := tableIndex_lt
  have haddr : ∀ c ∈ l, c.entry.address.toNat = c.entry.table.toNat + 4 * (c.address.toNat / 0x1000 % 1024) ∧
      c.entry.table.toNat + 0x1000 ≤ 2 ^ 32 := fun c hc => by
    obtain ⟨hi, htab, h0⟩ := hl.entries c hc
    have hb := (hl.tables.below _ (hlt c.address) (by rwa [htab])).1
    rw [htab] at hb
    have hp := k'.placement_address.isLt
    rw [toNat_address (by rw [hi, pageIndex_eq]; omega) (by omega), hi, pageIndex_eq]
    exact ⟨rfl, by omega⟩
  have hapart : ∀ c ∈ l, ∀ c' ∈ l, c.address.toNat / 0x1000 ≠ c'.address.toNat / 0x1000 →
      c.entry.address.toNat + 4 ≤ c'.entry.address.toNat ∨ c'.entry.address.toNat + 4 ≤ c.entry.address.toNat :=
    fun c hc c' hc' hne => by
    obtain ⟨-, htab, h0⟩ := hl.entries c hc
    obtain ⟨-, htab', h0'⟩ := hl.entries c' hc'
    rw [(haddr c hc).1, (haddr c' hc').1]
    by_cases hi : tableIndex c.address = tableIndex c'.address
    · -- one table, so two entries of it
      rw [← htab, ← htab', hi]
      rw [tableIndex_eq, tableIndex_eq] at hi
      omega
    · -- two tables, which lie apart
      have := hl.tables.apart _ _ (hlt c.address) (hlt c'.address) hi (by rwa [htab]) (by rwa [htab'])
      rw [htab, htab'] at this
      omega
  have hfound : ∀ c ∈ l, ∀ a : U32, a.toNat / 0x1000 = c.address.toNat / 0x1000 → k'.lookupPage a dir = some c.entry :=
    fun c hc a ha => by
    obtain ⟨hi, htab, h0⟩ := hl.entries c hc
    exact lookupPage_of_table htab h0 hi ha
  refine ⟨fun c hc c' hc' => ⟨fun he => ?_, fun hp => ?_⟩, hapart, fun c hc => hl.kept c hc c.entry.index, hl.fresh,
    hfound, fun a => ?_, hl.tables, fun a => getPage_returns alloc hl.tables.noHeap a dir⟩
  · refine Decidable.by_contra fun hne => ?_
    have := hapart c hc c' hc' hne
    rw [he] at this
    omega
  · have hcc := hfound c hc c.address rfl
    rw [hfound c' hc' c.address hp, Option.some.injEq] at hcc
    rw [hcc]
  · have hnull : k'.lookupPage a dir = none ↔ (k'.directories dir).tables (tableIndex a) = 0 := by
      unfold lookupPage
      simp only [ne_eq, ite_not, ite_eq_left_iff, reduceCtorEq, imp_false, not_not]
    rw [hnull]
    constructor
    · intro h0
      refine ⟨fun c hc hca => ?_, Decidable.by_contra fun hne => hne (by rw [← hl.stays _ hne, h0])⟩
      obtain ⟨-, htab, hne⟩ := hl.entries c hc
      rw [tableIndex_eq, hca, ← tableIndex_eq, h0] at htab
      exact hne htab.symm
    · rintro ⟨hno, h0⟩
      rw [hl.untouched _ fun c hc he => hno c hc (by rwa [tableIndex_eq, tableIndex_eq] at he), h0]

/-- An empty directory at `0x101000`, below the placement address. -/
def emptyDirectory : Kernel := { imageAt1M with placement_address := 0x103004 }

theorem get_page_lookup_three : ∃ c₁ c₂ c₃ k', GetPages (alloc 0) 0x101000 emptyDirectory [c₁, c₂, c₃] k' ∧
    c₁.entry = ⟨0x104000, 0⟩ ∧ c₂.entry = ⟨0x104000, 3⟩ ∧ c₃.entry = c₁.entry ∧
    StableLookup (alloc 0) emptyDirectory 0x101000 [c₁, c₂, c₃] k' := by
  have ht : Tables emptyDirectory 0x101000 :=
    ⟨rfl, by decide, by decide, fun _ _ h0 => absurd rfl h0, fun _ _ _ _ _ h0 => absurd rfl h0⟩
  let k' := addTable emptyDirectory 0x101000 (tableIndex 0) (nextPage emptyDirectory.placement_address)
  have h₁ : getPage (alloc 0) emptyDirectory 0 0x101000 = some (⟨0x104000, 0⟩, k') :=
    getPage_placement rfl (by decide) rfl
  have hfind : ∀ a p, p.table = 0x104000 → tableIndex a = 0 → p.index = pageIndex a →
      getPage (alloc 0) k' a 0x101000 = some (p, k') := fun a p hp ha hi => by
    have htab : (k'.directories 0x101000).tables (tableIndex a) = p.table := by
      rw [addTable_directory, hp, ha]
      rfl
    unfold getPage
    rw [lookupPage_of_table htab (by rw [hp]; decide) hi rfl]
  have h : GetPages (alloc 0) 0x101000 emptyDirectory [⟨emptyDirectory, 0, ⟨0x104000, 0⟩, k'⟩,
      ⟨k', 0x3000, ⟨0x104000, 3⟩, k'⟩, ⟨k', 0xFFF, ⟨0x104000, 0⟩, k'⟩] k' :=
    ⟨rfl, h₁, by decide, rfl, hfind _ _ rfl (by decide) (by decide), by decide, rfl,
      hfind _ _ rfl (by decide) (by decide), by decide, rfl⟩
  exact ⟨_, _, _, _, h, rfl, rfl, rfl, get_page_lookup ht h⟩

end Loris
