import Loris.ByteMem
/-!
# PageWalk — 32-bit paging as the processor does it

A linear address goes through an entry of the directory that CR3 names and an entry of the table that this one names,
all of 4 KB and without extensions.  An access that is not a fault marks the two entries as accessed, and the second as
dirty when it writes.
-/
namespace PageWalk

open ByteMem

/-- An access, and whether it is made at privilege level 3. -/
structure Request where
  write : Bool
  user : Bool

/-- The address of an entry. -/
def slot (table : U32) (i : Nat) : U32 := table + BitVec.ofNat 32 (4 * i)

/-- The page that an entry or CR3 names. -/
def frameOf (e : U32) : U32 := e &&& 0xFFFFF000

def present (e : U32) : Bool := e.getLsbD 0
def writable (e : U32) : Bool := e.getLsbD 1
def userMode (e : U32) : Bool := e.getLsbD 2

/-- The rights of the two entries.  Without CR0.WP the supervisor may write everywhere. -/
def permits (wp : Bool) (r : Request) (pde pte : U32) : Bool :=
  (!r.user || userMode pde && userMode pte) && (!r.write || writable pde && writable pte || !r.user && !wp)

def dirIndex (x : U32) : Nat := x.toNat / 0x400000
def tableIndex (x : U32) : Nat := x.toNat / 0x1000 % 1024

section Walk

variable (m : Mem) (cr3 : U32)

/-- Where the entry of the directory for an address is, and that of the table. -/
def pdeAt (x : U32) : U32 := slot (frameOf cr3) (dirIndex x)
def pteAt (x : U32) : U32 := slot (frameOf (load m (pdeAt cr3 x))) (tableIndex x)

/-- The physical address of an access, or a fault. -/
def walk (wp : Bool) (r : Request) (x : U32) : Option U32 :=
  let pde := load m (pdeAt cr3 x)
  let pte := load m (pteAt m cr3 x)
  if present pde ∧ present pte ∧ permits wp r pde pte then some (frameOf pte + x % 0x1000) else none

/-- The marks that an access leaves. -/
def mark (r : Request) (x : U32) : Mem :=
  let m' := store m (pdeAt cr3 x) (load m (pdeAt cr3 x) ||| 0x20)
  store m' (pteAt m cr3 x) (load m' (pteAt m cr3 x) ||| if r.write then 0x60 else 0x20)

/-- The memory after accesses, of which those that are faults leave no mark. -/
def marks (wp : Bool) : Mem → List (Request × U32) → Mem
  | m, [] => m
  | m, a :: l => marks wp (if (walk m cr3 wp a.1 a.2).isSome then mark m cr3 a.1 a.2 else m) l

end Walk

/-! ## Slots -/

variable {t u : U32} {i j : Nat} {m : Mem}

def Aligned (t : U32) : Prop := t.toNat % 0x1000 = 0

theorem aligned_frameOf (e : U32) : Aligned (frameOf e) := by
  unfold Aligned frameOf
  rw [toNat_and_page]
  omega

theorem frameOf_of_aligned (h : Aligned t) : frameOf t = t := BitVec.eq_of_toNat_eq (by
  unfold Aligned at h
  rw [frameOf, toNat_and_page]
  omega)

/-- The rights beside an aligned page do not change which it is. -/
theorem frameOf_or (h : Aligned t) : frameOf (t ||| 0x7) = t := by
  have h7 : (0x7 : U32) &&& 0xFFFFF000 = 0 := by decide
  have ht := frameOf_of_aligned h
  unfold frameOf at ht ⊢
  rw [BitVec.and_or_distrib_right, ht, h7]
  exact BitVec.or_zero

theorem dirIndex_lt (x : U32) : dirIndex x < 1024 := by
  have := x.isLt
  unfold dirIndex
  omega

theorem tableIndex_lt (x : U32) : tableIndex x < 1024 := Nat.mod_lt _ (by decide)

theorem toNat_slot (ht : Aligned t) (hi : i < 1024) : (slot t i).toNat = t.toNat + 4 * i :=
  toNat_add_ofNat (by
    have := t.isLt
    unfold Aligned at ht
    omega)

theorem slot_fits (ht : Aligned t) (hi : i < 1024) : (slot t i).toNat + 4 ≤ 2 ^ 32 := by
  have := t.isLt
  rw [toNat_slot ht hi]
  unfold Aligned at ht
  omega

/-- **Slots are apart**, of one table or of two. -/
theorem load_store_slot (ht : Aligned t) (hu : Aligned u) (hi : i < 1024) (hj : j < 1024) (v : U32) :
    load (store m (slot u j) v) (slot t i) = if t = u ∧ i = j then v else load m (slot t i) := by
  by_cases h : t = u ∧ i = j
  · rw [if_pos h, h.1, h.2, load_store_same]
  · rw [if_neg h]
    have hk := keeps_store m (slot u j) v (slot_fits hu hj)
    refine hk.load_eq (slot_fits ht hi) ?_
    rw [toNat_slot ht hi, toNat_slot hu hj]
    have hne : t.toNat = u.toNat → i ≠ j := fun htu hij => h ⟨BitVec.eq_of_toNat_eq htu, hij⟩
    unfold Aligned at ht hu
    omega

/-- A memory with any words in the slots of any tables. -/
theorem exists_words (w : Nat → Nat → U32) :
    ∃ m, ∀ t i, Aligned t → i < 1024 → load m (slot t i) = w t.toNat i := by
  refine ⟨fun x => byteOf (w (x.toNat / 0x1000 * 0x1000) (x.toNat % 0x1000 / 4)) (x.toNat % 4), fun t i ht hi => ?_⟩
  rw [← load_store_same (fun _ => 0) (slot t i) (w t.toNat i)]
  refine load_congr fun x hx => ?_
  have hs := toNat_slot ht hi
  have hx' : x.toNat = t.toNat + 4 * i + (x - slot t i).toNat := by
    have := slot_fits ht hi
    rw [BitVec.toNat_sub] at hx ⊢
    omega
  unfold store
  rw [if_pos hx]
  unfold Aligned at ht
  rw [show x.toNat / 0x1000 * 0x1000 = t.toNat by omega, show x.toNat % 0x1000 / 4 = i by omega,
    show x.toNat % 4 = (x - slot t i).toNat by omega]

end PageWalk
