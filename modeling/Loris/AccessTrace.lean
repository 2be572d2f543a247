import Loris.ByteMem
/-!
# AccessTrace — programs over a byte memory and the bytes they access

A program takes a memory to a result, the memory after it and the accesses it makes, in order.  `result` forgets the
accesses; `Touches` says of the bytes accessed that they satisfy a predicate, with one rule for each operation, so that
the accesses of a program are read off its text.
-/
namespace AccessTrace

open ByteMem

/-- A read or a write of `len` bytes. -/
structure Access where
  addr : U32
  len : Nat
  deriving DecidableEq

/-- Every byte of it satisfies `P`. -/
def Access.All (P : U32 → Prop) (a : Access) : Prop := ∀ i, i < a.len → P (a.addr + BitVec.ofNat 32 i)

abbrev Word (P : U32 → Prop) (a : U32) : Prop := Access.All P ⟨a, 4⟩

def Prog (α : Type) := Mem → (α × Mem) × List Access

namespace Prog

variable {α β : Type}

instance : Monad Prog where
  pure a := fun m => ((a, m), [])
  bind t f := fun m => ((f (t m).1.1 (t m).1.2).1, (t m).2 ++ (f (t m).1.1 (t m).1.2).2)

def readWord (a : U32) : Prog U32 := fun m => ((load m a, m), [⟨a, 4⟩])
def readByte (a : U32) : Prog Byte := fun m => ((m a, m), [⟨a, 1⟩])
def writeWord (a v : U32) : Prog Unit := fun m => (((), store m a v), [⟨a, 4⟩])
def writeByte (a : U32) (b : Byte) : Prog Unit := fun m => (((), storeByte m a b), [⟨a, 1⟩])

/-- What the program returns, and the memory it leaves. -/
def result (t : Prog α) (m : Mem) : α × Mem := (t m).1

/-- Every byte that the program accesses from `m` on satisfies `P`. -/
def Touches (P : U32 → Prop) (t : Prog α) (m : Mem) : Prop := ∀ a ∈ (t m).2, a.All P

variable {P : U32 → Prop} {m : Mem}

@[simp] theorem result_pure (a : α) : (pure a : Prog α).result m = (a, m) := by
  simp only [result, pure]

@[simp] theorem result_bind (t : Prog α) (f : α → Prog β) :
    (t >>= f).result m = (f (t.result m).1).result (t.result m).2 := by
  simp only [result, bind]

@[simp] theorem result_readWord (a : U32) : (readWord a).result m = (load m a, m) := by
  simp only [result, readWord]

@[simp] theorem result_readByte (a : U32) : (readByte a).result m = (m a, m) := by
  simp only [result, readByte]

@[simp] theorem result_writeWord (a v : U32) : (writeWord a v).result m = ((), store m a v) := by
  simp only [result, writeWord]

@[simp] theorem result_writeByte (a : U32) (b : Byte) : (writeByte a b).result m = ((), storeByte m a b) := by
  simp only [result, writeByte]

@[simp] theorem result_ite (c : Prop) [Decidable c] (t u : Prog α) :
    (if c then t else u).result m = if c then t.result m else u.result m := by split <;> rfl

@[simp] theorem touches_pure (a : α) : Touches P (pure a : Prog α) m := fun _ h => by cases h

@[simp] theorem touches_bind (t : Prog α) (f : α → Prog β) :
    Touches P (t >>= f) m ↔ Touches P t m ∧ Touches P (f (t.result m).1) (t.result m).2 := List.forall_mem_append

@[simp] theorem touches_readWord (a : U32) : Touches P (readWord a) m ↔ Word P a := List.forall_mem_singleton

@[simp] theorem touches_readByte (a : U32) : Touches P (readByte a) m ↔ P a := by
  refine List.forall_mem_singleton.trans ⟨fun h => ?_, fun h i hi => ?_⟩
  · have := h 0 Nat.zero_lt_one
    rwa [BitVec.add_zero] at this
  · obtain rfl : i = 0 := Nat.lt_one_iff.1 hi
    show P (a + 0#32)
    rwa [BitVec.add_zero]

@[simp] theorem touches_writeWord (a v : U32) : Touches P (writeWord a v) m ↔ Word P a := List.forall_mem_singleton

@[simp] theorem touches_writeByte (a : U32) (b : Byte) : Touches P (writeByte a b) m ↔ P a :=
  touches_readByte a (m := m)

@[simp] theorem touches_ite (c : Prop) [Decidable c] (t u : Prog α) :
    Touches P (if c then t else u) m ↔ (c → Touches P t m) ∧ (¬ c → Touches P u m) := by
  split <;> simp [*]

theorem word_of_range {lo hi : Nat} (hP : ∀ x : U32, lo ≤ x.toNat → x.toNat < hi → P x) {a : U32} (hhi : hi ≤ 2 ^ 32)
    (hlo : lo ≤ a.toNat) (ha : a.toNat + 4 ≤ hi) : Word P a := fun i hi' => by
  have hi4 : i < 4 := hi'
  have he : (a + BitVec.ofNat 32 i).toNat = a.toNat + i := by
    rw [BitVec.toNat_add, BitVec.toNat_ofNat]
    omega
  exact hP (a + BitVec.ofNat 32 i) (by omega) (by omega)

theorem word_first {a : U32} (h : Word P a) : P a := by
  have := h 0 (show 0 < 4 by decide)
  rwa [BitVec.add_zero] at this

end Prog

end AccessTrace
