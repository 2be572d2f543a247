import Mathlib.Data.FinEnum
import Mathlib.Data.Nat.Basic
/-!
# ByteMem — a 32-bit little-endian byte memory

A memory is a total function from 32-bit addresses to bytes.  A word store writes the four bytes at `a, a+1, a+2, a+3`
(modulo `2^32`); byte `x` is one of them exactly when `x - a`, taken in 32 bits, is below four.  Everything a client
needs is a read-back lemma and a frame lemma for each operation: `load_store_same`, `store_apply_of_ge`,
`load_congr`, and the same stated over address ranges that do not wrap (`Keeps`).
-/
namespace ByteMem

abbrev U32 := BitVec 32
abbrev Byte := BitVec 8
abbrev Mem := U32 → Byte

/-- Byte `k` of a word, the least significant one first. -/
def byteOf (v : U32) (k : Nat) : Byte := BitVec.ofNat 8 (v.toNat / 256 ^ k)

/-- The word at `a`. -/
def load (m : Mem) (a : U32) : U32 :=
  BitVec.ofNat 32 ((m a).toNat + 0x100 * (m (a + 1)).toNat + 0x10000 * (m (a + 2)).toNat
    + 0x1000000 * (m (a + 3)).toNat)

def storeByte (m : Mem) (a : U32) (b : Byte) : Mem := fun x => if x = a then b else m x

/-- The memory after the word `v` is stored at `a`. -/
def store (m : Mem) (a v : U32) : Mem := fun x =>
  if (x - a).toNat < 4 then byteOf v (x - a).toNat else m x

/-- The half word at `a`. -/
def loadHalf (m : Mem) (a : U32) : BitVec 16 := BitVec.ofNat 16 ((m a).toNat + 0x100 * (m (a + 1)).toNat)

/-- The memory after the half word `v` is stored at `a`. -/
def storeHalf (m : Mem) (a : U32) (v : BitVec 16) : Mem := fun x =>
  if (x - a).toNat < 2 then BitVec.ofNat 8 (v.toNat / 256 ^ (x - a).toNat) else m x

/-- The memory after the `n` bytes at `a` are set to `b`. -/
def fill (m : Mem) (a : U32) (b : Byte) (n : Nat) : Mem := fun x => if (x - a).toNat < n then b else m x

/-! ## Reading back -/

theorem add_sub_self (a k : U32) : a + k - a = k := by
  rw [BitVec.add_comm, BitVec.add_sub_cancel]

theorem toNat_add_ofNat {p : U32} {i : Nat} (h : p.toNat + i < 2 ^ 32) :
    (p + BitVec.ofNat 32 i).toNat = p.toNat + i := by
  rw [BitVec.toNat_add, BitVec.toNat_ofNat]
  omega

@[simp] theorem load_store_same (m : Mem) (a v : U32) : load (store m a v) a = v := by
  unfold load store byteOf
  simp only [add_sub_self, BitVec.sub_self]
  apply BitVec.eq_of_toNat_eq
  simp
  omega

@[simp] theorem loadHalf_storeHalf_same (m : Mem) (a : U32) (v : BitVec 16) : loadHalf (storeHalf m a v) a = v := by
  unfold loadHalf storeHalf
  simp only [add_sub_self, BitVec.sub_self]
  apply BitVec.eq_of_toNat_eq
  simp
  omega

@[simp] theorem storeByte_same (m : Mem) (a : U32) (b : Byte) : storeByte m a b a = b := by
  simp [storeByte]

theorem storeByte_apply_of_ne (m : Mem) {a x : U32} (b : Byte) (h : x ≠ a) : storeByte m a b x = m x := by
  simp [storeByte, h]

theorem store_apply_of_ge (m : Mem) {a x : U32} (v : U32) (h : 4 ≤ (x - a).toNat) : store m a v x = m x := by
  unfold store; rw [if_neg (by omega)]

theorem load_congr {m m' : Mem} {a : U32} (h : ∀ x, (x - a).toNat < 4 → m' x = m x) : load m' a = load m a := by
  have hoffset : ∀ k : U32, k.toNat < 4 → m' (a + k) = m (a + k) := fun k hk => h _ (by rwa [add_sub_self])
  unfold load
  rw [h a (by simp), hoffset 1 (by decide), hoffset 2 (by decide), hoffset 3 (by decide)]

theorem load_fill_zero (m : Mem) (a b : U32) (n : Nat) (h : ∀ x, (x - b).toNat < 4 → (x - a).toNat < n) :
    load (fill m a 0 n) b = 0 := by
  have hoffset : ∀ k : U32, k.toNat < 4 → (b + k - a).toNat < n := fun k hk => h _ (by rwa [add_sub_self])
  unfold load fill
  rw [if_pos (h b (by simp)), if_pos (hoffset 1 (by decide)), if_pos (hoffset 2 (by decide)),
    if_pos (hoffset 3 (by decide))]
  rfl

/-! ## Frames over ranges -/

/-- **Nothing outside `[lo, hi)` changed.** -/
def Keeps (lo hi : Nat) (m m' : Mem) : Prop := ∀ x : U32, x.toNat < lo ∨ hi ≤ x.toNat → m' x = m x

theorem Keeps.refl (lo hi : Nat) (m : Mem) : Keeps lo hi m m := fun _ _ => rfl

theorem Keeps.trans {lo hi : Nat} {m₁ m₂ m₃ : Mem} (h₁ : Keeps lo hi m₁ m₂) (h₂ : Keeps lo hi m₂ m₃) :
    Keeps lo hi m₁ m₃ := fun x hx => (h₂ x hx).trans (h₁ x hx)

theorem Keeps.mono {lo hi a b : Nat} {m m' : Mem} (h : Keeps lo hi m m') (hlo : a ≤ lo) (hhi : hi ≤ b) :
    Keeps a b m m' := fun x hx => h x (by omega)

theorem keeps_store (m : Mem) (a v : U32) (h : a.toNat + 4 ≤ 2 ^ 32) :
    Keeps a.toNat (a.toNat + 4) m (store m a v) := fun x hx =>
  store_apply_of_ge m v (by rw [BitVec.toNat_sub]; omega)

theorem keeps_storeByte (m : Mem) (a : U32) (b : Byte) :
    Keeps a.toNat (a.toNat + 1) m (storeByte m a b) := fun x hx =>
  storeByte_apply_of_ne m b (fun h => by subst h; omega)

theorem keeps_fill (m : Mem) (a : U32) (b : Byte) (n : Nat) (h : a.toNat + n ≤ 2 ^ 32) :
    Keeps a.toNat (a.toNat + n) m (fill m a b n) := fun x hx => by
  unfold fill; rw [if_neg]; rw [BitVec.toNat_sub]; omega

theorem Keeps.load_eq {lo hi : Nat} {m m' : Mem} (h : Keeps lo hi m m') {a : U32} (hw : a.toNat + 4 ≤ 2 ^ 32)
    (ha : a.toNat + 4 ≤ lo ∨ hi ≤ a.toNat) : load m' a = load m a :=
  load_congr fun x hx => h x (by rw [BitVec.toNat_sub] at hx; omega)

theorem keeps_storeHalf (m : Mem) (a : U32) (v : BitVec 16) (h : a.toNat + 2 ≤ 2 ^ 32) :
    Keeps a.toNat (a.toNat + 2) m (storeHalf m a v) := fun x hx => by
  unfold storeHalf; rw [if_neg]; rw [BitVec.toNat_sub]; omega

theorem Keeps.loadHalf_eq {lo hi : Nat} {m m' : Mem} (h : Keeps lo hi m m') {a : U32} (hw : a.toNat + 2 ≤ 2 ^ 32)
    (ha : a.toNat + 2 ≤ lo ∨ hi ≤ a.toNat) : loadHalf m' a = loadHalf m a := by
  have h1 : (a + 1).toNat = a.toNat + 1 := toNat_add_ofNat (i := 1) (by omega)
  unfold loadHalf
  rw [h a (by omega), h (a + 1) (by omega)]

/-! ## Page masks -/

theorem toNat_and_offset (x : U32) : (x &&& 0xFFF).toNat = x.toNat % 0x1000 := by
  rw [BitVec.toNat_and]
  exact Nat.and_two_pow_sub_one_eq_mod x.toNat 12

theorem toNat_and_one (x : U32) : (x &&& 1).toNat = x.toNat % 2 := by
  rw [BitVec.toNat_and]
  exact Nat.and_two_pow_sub_one_eq_mod x.toNat 1

theorem toNat_and_page (x : U32) : (x &&& 0xFFFFF000).toNat = x.toNat / 0x1000 * 0x1000 := by
  have h : x &&& (0xFFFFF000 : U32) = (x >>> 12) <<< 12 := by
    apply BitVec.eq_of_getLsbD_eq
    intro i hi
    have hm : ∀ i, i < 32 → (0xFFFFF000#32).getLsbD i = decide (12 ≤ i) := by decide
    rw [BitVec.getLsbD_and, show (0xFFFFF000 : U32) = 0xFFFFF000#32 from rfl, hm i hi]
    by_cases h12 : 12 ≤ i
    · simp [h12, hi, show ¬ i < 12 by omega]
    · simp [h12, show i < 12 by omega]
  rw [h]
  simp [Nat.shiftRight_eq_div_pow, Nat.shiftLeft_eq]
  omega

theorem toNat_and_bit12 (x : U32) : (x &&& 0x1000).toNat = x.toNat / 0x1000 % 2 * 0x1000 := by
  have h : x &&& (0x1000 : U32) = ((x >>> 12) &&& (1 : U32)) <<< 12 := by
    apply BitVec.eq_of_getLsbD_eq
    intro i hi
    have hm : ∀ i, i < 32 → (0x1000#32).getLsbD i = decide (i = 12) := by decide
    rw [BitVec.getLsbD_and, show (0x1000 : U32) = 0x1000#32 from rfl, hm i hi]
    by_cases h12 : i = 12
    · subst h12; simp
    · by_cases h13 : i < 12
      · simp [h12, h13]
      · have : ¬ i - 12 = 0 := by omega
        simp [h12, h13, hi, this]
  rw [h]
  simp [Nat.shiftRight_eq_div_pow, Nat.shiftLeft_eq]
  omega

theorem and_page_ne_zero {x : U32} (h : 0x1000 ≤ x.toNat) : x &&& 0xFFFFF000 ≠ 0 := fun h0 => by
  have := toNat_and_page x
  rw [h0] at this
  simp at this; omega

/-! ## Sequences of stores -/

/-- The memory after the bytes of `l` are stored in turn. -/
def stores (m : Mem) (l : List (U32 × Byte)) : Mem := l.foldl (fun m w => storeByte m w.1 w.2) m

/-- The byte that the last store to `x` puts there. -/
def lastStore (x : U32) : List (U32 × Byte) → Option Byte
  | [] => none
  | w :: l => (lastStore x l).or (if x = w.1 then some w.2 else none)

theorem stores_apply (x : U32) : ∀ (l : List (U32 × Byte)) (m : Mem), stores m l x = (lastStore x l).getD (m x)
  | [], _ => rfl
  | w :: l, m => by
    show stores (storeByte m w.1 w.2) l x = _
    rw [stores_apply x l, lastStore]
    cases lastStore x l with
    | some v => rfl
    | none =>
      unfold storeByte
      split <;> simp [*]

theorem load_eq_iff {m m' : Mem} {a : U32} : load m' a = load m a ↔ ∀ i, i < 4 →
    m' (a + BitVec.ofNat 32 i) = m (a + BitVec.ofNat 32 i) := by
  constructor
  · intro h i hi
    have hn := congrArg BitVec.toNat h
    unfold load at hn
    rw [BitVec.toNat_ofNat, BitVec.toNat_ofNat] at hn
    have h0 : a + BitVec.ofNat 32 0 = a := BitVec.add_zero a
    apply BitVec.eq_of_toNat_eq
    obtain rfl | rfl | rfl | rfl : i = 0 ∨ i = 1 ∨ i = 2 ∨ i = 3 := by omega
    · rw [h0]
      omega
    · show (m' (a + 1)).toNat = (m (a + 1)).toNat
      omega
    · show (m' (a + 2)).toNat = (m (a + 2)).toNat
      omega
    · show (m' (a + 3)).toNat = (m (a + 3)).toNat
      omega
  · intro h
    have h0 := h 0 (by decide)
    rw [show a + BitVec.ofNat 32 0 = a from BitVec.add_zero a] at h0
    unfold load
    rw [h0, show m' (a + 1) = m (a + 1) from h 1 (by decide), show m' (a + 2) = m (a + 2) from h 2 (by decide),
      show m' (a + 3) = m (a + 3) from h 3 (by decide)]

theorem byteOf_load (m : Mem) (a : U32) {i : Nat} (hi : i < 4) : byteOf (load m a) i = m (a + BitVec.ofNat 32 i) := by
  have hmod : (BitVec.ofNat 32 i).toNat = i := by
    rw [BitVec.toNat_ofNat]
    omega
  rw [← load_eq_iff.1 (load_store_same m a (load m a)) i hi]
  unfold store
  rw [add_sub_self, hmod, if_pos hi]

end ByteMem
