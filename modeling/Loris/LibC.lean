import Loris.ByteMem
import Mathlib.Data.List.Basic
/-!
# LibC — `memcpy`, `memmove`, `strcpy`, `strcmp` and `strlen` of `libc/string`

A `char *` that is only read is the stream of the bytes from it on (`bytesFrom`), and `IsString` says which list a
NUL-terminated stream holds.  The loops over strings take fuel: without a NUL they do not end.
-/
namespace Loris

open ByteMem

/-- The bytes from a pointer on. -/
def bytesFrom (m : Mem) (p : U32) : Nat → Byte := fun i => m (p + BitVec.ofNat 32 i)

/-- The bytes of a string literal. -/
def literal (l : List Byte) : Nat → Byte := fun i => l.getD i 0

/-- `memcpy`, after `n` rounds of its loop. -/
def memcpy (m : Mem) (dst src : U32) : Nat → Mem
  | 0 => m
  | n + 1 =>
    let m := memcpy m dst src n
    storeByte m (dst + BitVec.ofNat 32 n) (m (src + BitVec.ofNat 32 n))

/-- The second loop of `memmove`, from the last of the bytes down. -/
def copyDown (dst src : U32) : Nat → Mem → Mem
  | 0, m => m
  | i + 1, m => copyDown dst src i (storeByte m (dst + BitVec.ofNat 32 i) (m (src + BitVec.ofNat 32 i)))

/-- `memmove`.  Its first loop is that of `memcpy`. -/
def memmove (m : Mem) (dst src : U32) (size : Nat) : Mem :=
  if dst < src then memcpy m dst src size else copyDown dst src size m

/-- The loop of `strcpy`, and the store behind it. -/
def strcpyLoop : Nat → Mem → U32 → U32 → Option Mem
  | 0, _, _, _ => none
  | n + 1, m, destination, source =>
    if m source ≠ 0 then strcpyLoop n (storeByte m destination (m source)) (destination + 1) (source + 1)
    else some (storeByte m destination 0)

def strcpy (fuel : Nat) (m : Mem) (destination source : U32) : Option Mem :=
  if destination = 0 then some m else strcpyLoop fuel m destination source

/-- `strcpy` of a literal. -/
def strcpyLiteral (m : Mem) (destination : U32) : List Byte → Mem
  | [] => storeByte m destination 0
  | b :: l => strcpyLiteral (storeByte m destination b) (destination + 1) l

/-- `strcmp`. -/
def strcmp : Nat → (Nat → Byte) → (Nat → Byte) → Option Int
  | 0, _, _ => none
  | n + 1, X, Y =>
    if X 0 ≠ 0 ∧ X 0 = Y 0 then strcmp n (fun i => X (i + 1)) (fun i => Y (i + 1))
    else some ((X 0).toNat - (Y 0).toNat)

/-- The loop of `strlen` from `len` on. -/
def strlenLoop : Nat → (Nat → Byte) → Nat → Option Nat
  | 0, _, _ => none
  | n + 1, str, len => if str len ≠ 0 then strlenLoop n str (len + 1) else some len

def strlen (fuel : Nat) (str : Nat → Byte) : Option Nat := strlenLoop fuel str 0

/-- The stream is `l`, and a NUL behind it. -/
def IsString : (Nat → Byte) → List Byte → Prop
  | X, [] => X 0 = 0
  | X, b :: l => b ≠ 0 ∧ X 0 = b ∧ IsString (fun i => X (i + 1)) l

/-- The string at `p`. -/
def StringAt (m : Mem) (p : U32) (l : List Byte) : Prop := IsString (bytesFrom m p) l

variable {m m' : Mem} {p dst src : U32} {l l' : List Byte}

theorem bytesFrom_zero (m : Mem) (p : U32) : bytesFrom m p 0 = m p := congrArg m (BitVec.add_zero p)

theorem bytesFrom_succ (m : Mem) (p : U32) : (fun i => bytesFrom m p (i + 1)) = bytesFrom m (p + 1) := by
  funext i
  unfold bytesFrom
  rw [BitVec.add_assoc, Nat.add_comm i 1]
  exact congrArg (fun x => m (p + x)) (BitVec.ofNat_add ..)

theorem stringAt_nil : StringAt m p [] ↔ m p = 0 := by
  unfold StringAt IsString
  rw [bytesFrom_zero]

theorem stringAt_cons {b : Byte} : StringAt m p (b :: l) ↔ b ≠ 0 ∧ m p = b ∧ StringAt m (p + 1) l := by
  show b ≠ 0 ∧ bytesFrom m p 0 = b ∧ IsString (fun i => bytesFrom m p (i + 1)) l ↔ _
  rw [bytesFrom_zero, bytesFrom_succ]
  rfl

theorem isString_literal : ∀ {l : List Byte}, 0 ∉ l → IsString (literal l) l
  | [], _ => rfl
  | b :: l, h => by
    rw [List.mem_cons, not_or] at h
    exact ⟨fun h0 => h.1 h0.symm, rfl, isString_literal h.2⟩

theorem isString_length : ∀ {l : List Byte} {X : Nat → Byte}, IsString X l → X l.length = 0
  | [], _, h => h
  | _ :: l, _, h => isString_length (l := l) h.2.2

theorem strlenLoop_spec : ∀ {l : List Byte} {X : Nat → Byte} {i : Nat}, IsString (fun j => X (i + j)) l →
    ∀ fuel, l.length < fuel → strlenLoop fuel X i = some (i + l.length)
  | [], X, i, h, fuel + 1, _ => by
    have h0 : X i = 0 := h
    unfold strlenLoop
    rw [if_neg (not_not.2 h0)]
    rfl
  | b :: l, X, i, ⟨hb, h0, h⟩, fuel + 1, hf => by
    have h' : IsString (fun j => X (i + 1 + j)) l := by
      simpa only [Nat.add_assoc, Nat.add_comm 1] using h
    unfold strlenLoop
    rw [if_pos (by rw [show X i = b from h0]; exact hb), strlenLoop_spec h' fuel (Nat.lt_of_succ_lt_succ hf),
      List.length_cons]
    congr 1
    omega

theorem strlen_spec {l : List Byte} {X : Nat → Byte} (h : IsString X l) {fuel : Nat} (hf : l.length < fuel) :
    strlen fuel X = some l.length := by
  have := strlenLoop_spec (X := X) (i := 0) (by simpa only [Nat.zero_add] using h) fuel hf
  rwa [Nat.zero_add] at this

theorem strlenLoop_stops : ∀ {fuel : Nat} {X : Nat → Byte} {i len : Nat}, strlenLoop fuel X i = some len →
    X len = 0 ∧ ∀ j, i ≤ j → j < len → X j ≠ 0
  | fuel + 1, X, i, len, h => by
    unfold strlenLoop at h
    split at h <;> rename_i hi
    · obtain ⟨h0, hne⟩ := strlenLoop_stops h
      refine ⟨h0, fun j hij hj => ?_⟩
      rcases Nat.eq_or_lt_of_le hij with rfl | hlt
      · exact hi
      · exact hne j hlt hj
    · obtain rfl := Option.some.inj h
      exact ⟨not_not.1 hi, fun j hij hj => absurd hj (Nat.not_lt_of_le hij)⟩

/-- Addresses repeat after 2^32 bytes, so `strlen` stops before. -/
theorem strlen_lt {fuel len : Nat} (h : strlen fuel (bytesFrom m p) = some len) : len < 2 ^ 32 := by
  obtain ⟨h0, hne⟩ := strlenLoop_stops h
  by_contra hle
  have hsame : BitVec.ofNat 32 (len - 2 ^ 32) = BitVec.ofNat 32 len := BitVec.eq_of_toNat_eq (by
    rw [BitVec.toNat_ofNat, BitVec.toNat_ofNat]
    omega)
  refine hne (len - 2 ^ 32) (Nat.zero_le _) (by omega) ?_
  unfold bytesFrom
  rw [hsame]
  exact h0

theorem isString_ne : ∀ {l : List Byte} {X : Nat → Byte}, IsString X l → ∀ j, j < l.length → X j ≠ 0
  | b :: _, _, ⟨hb, h0, _⟩, 0, _ => by rw [h0]; exact hb
  | _ :: l, _, ⟨_, _, h⟩, j + 1, hj => isString_ne (l := l) h j (Nat.lt_of_succ_lt_succ hj)

theorem isString_take : ∀ {l : List Byte} {X : Nat → Byte} {n : Nat}, IsString X l → n ≤ l.length →
    (List.range n).map X = l.take n
  | _, _, 0, _, _ => rfl
  | b :: l, X, n + 1, ⟨_, h0, h⟩, hn => by
    rw [List.range_succ_eq_map, List.map_cons, List.map_map, List.take_succ_cons, h0]
    exact congrArg (b :: ·) (isString_take h (Nat.le_of_succ_le_succ hn))

theorem StringAt.drop : ∀ {l : List Byte} {p : U32} {n : Nat}, StringAt m p l → n ≤ l.length →
    StringAt m (p + BitVec.ofNat 32 n) (l.drop n)
  | _, p, 0, h, _ => by simpa using h
  | b :: l, p, n + 1, h, hn => by
    have := ((stringAt_cons.1 h).2.2).drop (n := n) (Nat.le_of_succ_le_succ hn)
    rw [List.drop_succ_cons, Nat.add_comm n, BitVec.ofNat_add, ← BitVec.add_assoc]
    exact this

/-- A string is shorter than the address space: behind it the bytes would come again. -/
theorem StringAt.length_lt (h : StringAt m p l) : l.length < 2 ^ 32 := by
  refine Nat.lt_of_not_le fun hle => ?_
  have hend := isString_length h
  refine isString_ne h (l.length - 2 ^ 32) (by omega) ?_
  unfold bytesFrom at *
  rwa [show BitVec.ofNat 32 (l.length - 2 ^ 32) = BitVec.ofNat 32 l.length from
    BitVec.eq_of_toNat_eq (by rw [BitVec.toNat_ofNat, BitVec.toNat_ofNat]; omega)]

theorem toNat_succ {p : U32} (h : p.toNat + 1 < 2 ^ 32) : (p + 1).toNat = p.toNat + 1 := by
  rw [BitVec.toNat_add]
  exact Nat.mod_eq_of_lt h

theorem StringAt.congr : ∀ {l : List Byte} {p : U32}, StringAt m p l → p.toNat + l.length < 2 ^ 32 →
    (∀ x : U32, p.toNat ≤ x.toNat → x.toNat ≤ p.toNat + l.length → m' x = m x) → StringAt m' p l
  | [], p, h, _, hx => by
    rw [stringAt_nil] at *
    rw [hx p (Nat.le_refl _) (Nat.le_add_right _ _), h]
  | b :: l, p, h, hw, hx => by
    rw [stringAt_cons] at *
    rw [List.length_cons] at hw hx
    have hp := toNat_succ (p := p) (by omega)
    exact ⟨h.1, (hx p (by omega) (by omega)).trans h.2.1,
      h.2.2.congr (by omega) fun x h1 h2 => hx x (by omega) (by omega)⟩

theorem StringAt.keeps {lo hi : Nat} (h : StringAt m p l) (hk : Keeps lo hi m m') (hw : p.toNat + l.length < 2 ^ 32)
    (ha : p.toNat + l.length < lo ∨ hi ≤ p.toNat) : StringAt m' p l :=
  h.congr hw fun x h1 h2 => hk x (by omega)

theorem keeps_strcpyLiteral : ∀ {l : List Byte} {m : Mem} {dst : U32}, dst.toNat + l.length < 2 ^ 32 →
    Keeps dst.toNat (dst.toNat + l.length + 1) m (strcpyLiteral m dst l)
  | [], m, dst, _ => keeps_storeByte m dst 0
  | b :: l, m, dst, h => by
    rw [List.length_cons] at *
    have hd := toNat_succ (p := dst) (by omega)
    exact ((keeps_storeByte m dst b).mono (by omega) (by omega)).trans
      ((keeps_strcpyLiteral (l := l) (by omega)).mono (by omega) (by omega))

/-- **`strcpy`** of a string to a place apart from it. -/
theorem strcpyLoop_spec : ∀ {l : List Byte} {m : Mem} {dst src : U32}, StringAt m src l →
    dst.toNat + l.length < 2 ^ 32 → src.toNat + l.length < 2 ^ 32 →
      (dst.toNat + l.length < src.toNat ∨ src.toNat + l.length < dst.toNat) →
        ∃ m', (∀ fuel, l.length < fuel → strcpyLoop fuel m dst src = some m') ∧ StringAt m' dst l ∧
          Keeps dst.toNat (dst.toNat + l.length + 1) m m'
  | [], m, dst, src, h, hd, _, _ => by
    rw [stringAt_nil] at h
    refine ⟨storeByte m dst 0, fun fuel hf => ?_, by rw [stringAt_nil, storeByte_same], keeps_storeByte m dst 0⟩
    obtain ⟨fuel, rfl⟩ : ∃ n, fuel = n + 1 := ⟨fuel - 1, by omega⟩
    unfold strcpyLoop
    rw [if_neg (not_not.2 h)]
  | b :: l, m, dst, src, h, hd, hs, ha => by
    obtain ⟨hb, h0, h⟩ := stringAt_cons.1 h
    rw [List.length_cons] at hd hs ha
    have hd1 := toNat_succ (p := dst) (by omega)
    have hs1 := toNat_succ (p := src) (by omega)
    have hk := keeps_storeByte m dst b
    obtain ⟨m', hm', hstr, hk'⟩ := @strcpyLoop_spec l _ (dst + 1) _ (h.keeps hk (by omega) (by omega)) (by omega)
      (by omega) (by omega)
    refine ⟨m', fun fuel hf => ?_, stringAt_cons.2 ⟨hb, ?_, hstr⟩,
      (hk.mono (by omega) ?_).trans (hk'.mono (by omega) ?_)⟩
    · rw [List.length_cons] at hf
      obtain ⟨fuel, rfl⟩ : ∃ n, fuel = n + 1 := ⟨fuel - 1, by omega⟩
      unfold strcpyLoop
      rw [if_pos (by rw [h0]; exact hb), h0, hm' fuel (by omega)]
    · rw [hk' dst (by omega), storeByte_same]
    · rw [List.length_cons]; omega
    · rw [List.length_cons]; omega

theorem keeps_memcpy : ∀ {n : Nat}, dst.toNat + n ≤ 2 ^ 32 → Keeps dst.toNat (dst.toNat + n) m (memcpy m dst src n)
  | 0, _ => Keeps.refl _ _ m
  | n + 1, h => by
    have hn : (dst + BitVec.ofNat 32 n).toNat = dst.toNat + n := by
      rw [BitVec.toNat_add, BitVec.toNat_ofNat]
      omega
    exact ((keeps_memcpy (n := n) (by omega)).mono (by omega) (by omega)).trans
      ((keeps_storeByte _ (dst + BitVec.ofNat 32 n) _).mono (by omega) (by omega))

/-- **`memcpy`** to a place that does not start within the source. -/
theorem memcpy_spec : ∀ {n : Nat}, dst.toNat + n ≤ 2 ^ 32 → src.toNat + n ≤ 2 ^ 32 →
    (dst.toNat ≤ src.toNat ∨ src.toNat + n ≤ dst.toNat) → ∀ i, i < n →
      bytesFrom (memcpy m dst src n) dst i = bytesFrom m src i
  | n + 1, hd, hs, ha, i, hi => by
    have hk := @keeps_memcpy m dst src n (by omega)
    unfold memcpy
    by_cases hin : i = n
    · subst hin
      refine (storeByte_same ..).trans (hk _ ?_)
      rw [toNat_add_ofNat (by omega)]
      omega
    · refine Eq.trans (storeByte_apply_of_ne _ _ fun he => hin ?_)
        (memcpy_spec (by omega) (by omega) (by omega) i (by omega))
      have := congrArg BitVec.toNat he
      rw [toNat_add_ofNat (by omega), toNat_add_ofNat (by omega)] at this
      omega

theorem keeps_copyDown : ∀ {n : Nat} {m : Mem}, dst.toNat + n ≤ 2 ^ 32 →
    Keeps dst.toNat (dst.toNat + n) m (copyDown dst src n m)
  | 0, m, _ => Keeps.refl _ _ m
  | n + 1, m, h => by
    have hn := toNat_add_ofNat (p := dst) (i := n) (by omega)
    exact ((keeps_storeByte m (dst + BitVec.ofNat 32 n) _).mono (by omega) (by omega)).trans
      ((keeps_copyDown (n := n) (by omega)).mono (by omega) (by omega))

/-- **The second loop** copies to a place that does not start below the source: what it reads lies below what it has
stored. -/
theorem copyDown_spec : ∀ {n : Nat} {m : Mem}, dst.toNat + n ≤ 2 ^ 32 → src.toNat + n ≤ 2 ^ 32 →
    src.toNat ≤ dst.toNat → ∀ i, i < n → bytesFrom (copyDown dst src n m) dst i = bytesFrom m src i
  | n + 1, m, hd, hs, ha, i, hi => by
    have hn := toNat_add_ofNat (p := dst) (i := n) (by omega)
    unfold copyDown
    by_cases hin : i = n
    · subst hin
      refine (keeps_copyDown (by omega) _ ?_).trans (storeByte_same ..)
      omega
    · refine (copyDown_spec (by omega) (by omega) ha i (by omega)).trans (storeByte_apply_of_ne _ _ fun he => ?_)
      have := congrArg BitVec.toNat he
      rw [hn, toNat_add_ofNat (by omega)] at this
      omega

/-- **`memmove` copies at once**, however the ranges overlap; where they do not, `memcpy` leaves the same memory. -/
theorem memmove_copies {n : Nat} (hd : dst.toNat + n ≤ 2 ^ 32) (hs : src.toNat + n ≤ 2 ^ 32) :
    (∀ i, i < n → bytesFrom (memmove m dst src n) dst i = bytesFrom m src i) ∧
      Keeps dst.toNat (dst.toNat + n) m (memmove m dst src n) ∧
      ((dst.toNat + n ≤ src.toNat ∨ src.toNat + n ≤ dst.toNat) → memcpy m dst src n = memmove m dst src n) := by
  have hkeep : Keeps dst.toNat (dst.toNat + n) m (memmove m dst src n) := by
    unfold memmove
    split
    · exact keeps_memcpy hd
    · exact keeps_copyDown hd
  have hcopy : ∀ i, i < n → bytesFrom (memmove m dst src n) dst i = bytesFrom m src i := by
    unfold memmove
    split
    · next hlt => exact memcpy_spec hd hs (Or.inl (Nat.le_of_lt (BitVec.lt_def.1 hlt)))
    · next hge => exact copyDown_spec hd hs (Nat.le_of_not_lt fun h => hge (BitVec.lt_def.2 h))
  refine ⟨hcopy, hkeep, fun hapart => funext fun x => ?_⟩
  by_cases hx : x.toNat < dst.toNat ∨ dst.toNat + n ≤ x.toNat
  · rw [keeps_memcpy hd x hx, hkeep x hx]
  · -- a byte of the destination
    obtain ⟨i, hi, rfl⟩ : ∃ i, i < n ∧ dst + BitVec.ofNat 32 i = x := by
      refine ⟨x.toNat - dst.toNat, by omega, BitVec.eq_of_toNat_eq ?_⟩
      have := x.isLt
      rw [toNat_add_ofNat (by omega)]
      omega
    exact (memcpy_spec hd hs (by omega) i hi).trans (hcopy i hi).symm

theorem memmove_copies_overlap : (∀ i, i < 16 →
    bytesFrom (memmove (fun x => x.setWidth 8) 0x1001 0x1000 16) 0x1001 i =
      bytesFrom (fun x => x.setWidth 8) 0x1000 i) ∧
    Keeps 0x1001 0x1011 (fun x => x.setWidth 8) (memmove (fun x => x.setWidth 8) 0x1001 0x1000 16) := by
  obtain ⟨hcopy, hkeep, -⟩ :=
    @memmove_copies (fun x => x.setWidth 8) 0x1001 0x1000 16 (by decide) (by decide)
  exact ⟨hcopy, hkeep⟩

end Loris
