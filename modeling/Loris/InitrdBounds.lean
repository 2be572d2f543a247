import Loris.InitrdFiles
import Mathlib.Data.List.TakeWhile
/-!
# InitrdBounds — what `initrd_read` and the name copy of `initialise_initrd` touch

A read is clamped to the file when the sum of its offset and size does not wrap, and only then (`read_within_file`).  A
name is copied as far as its first NUL, wherever that is; it stays in its node exactly when a NUL comes among the
field's 64 bytes or right behind them (`names_bounded`).
-/
namespace Loris

open ByteMem

/-! ## `memcpy` and `strcpy`, byte by byte -/

theorem memcpy_apply_of_ne {m : Mem} {dst src x : U32} : ∀ {n : Nat}, (∀ i, i < n → x ≠ dst + BitVec.ofNat 32 i) →
    memcpy m dst src n x = m x
  | 0, _ => rfl
  | n + 1, h => (storeByte_apply_of_ne _ _ (h n (Nat.lt_succ_self n))).trans
      (memcpy_apply_of_ne fun i hi => h i (Nat.lt_succ_of_lt hi))

theorem add_ofNat_ne (p : U32) {i j : Nat} (hi : i < 2 ^ 32) (hj : j < 2 ^ 32) (h : i ≠ j) :
    p + BitVec.ofNat 32 i ≠ p + BitVec.ofNat 32 j := fun he => by
  have := congrArg BitVec.toNat (BitVec.add_right_inj p |>.1 he)
  rw [BitVec.toNat_ofNat, BitVec.toNat_ofNat] at this
  omega

theorem memcpy_apply {m : Mem} {dst src : U32} : ∀ {n : Nat}, n ≤ 2 ^ 32 →
    (∀ i j, i < n → j < n → src + BitVec.ofNat 32 i ≠ dst + BitVec.ofNat 32 j) → ∀ i, i < n →
      memcpy m dst src n (dst + BitVec.ofNat 32 i) = m (src + BitVec.ofNat 32 i)
  | n + 1, hn, ha, i, hi => by
    have hsrc : memcpy m dst src n (src + BitVec.ofNat 32 n) = m (src + BitVec.ofNat 32 n) :=
      memcpy_apply_of_ne fun j hj => ha n j (Nat.lt_succ_self n) (Nat.lt_succ_of_lt hj)
    unfold memcpy
    by_cases hin : i = n
    · subst hin
      rw [storeByte_same, hsrc]
    · rw [storeByte_apply_of_ne _ _ (add_ofNat_ne dst (by omega) (by omega) hin)]
      exact memcpy_apply (by omega) (fun i j hi hj => ha i j (by omega) (by omega)) i (by omega)

/-- The addresses that the loop of `strcpy` stores to. -/
def strcpyWrites : Nat → Mem → U32 → U32 → List U32
  | 0, _, _, _ => []
  | n + 1, m, destination, source =>
    if m source ≠ 0 then
      destination :: strcpyWrites n (storeByte m destination (m source)) (destination + 1) (source + 1)
    else [destination]

theorem add_ofNat_succ (p : U32) (t : Nat) : p + BitVec.ofNat 32 t + 1 = p + BitVec.ofNat 32 (t + 1) := by
  rw [BitVec.add_assoc, BitVec.ofNat_add]
  rfl

/-- A copy that comes to its own output, and found no NUL before, does not end. -/
theorem strcpyLoop_endless {dst src : U32} (hne : dst ≠ src) : ∀ {n t : Nat} {m : Mem}, (dst - src).toNat ≤ t →
    (∀ j, j < t → m (dst + BitVec.ofNat 32 j) ≠ 0) →
      strcpyLoop n m (dst + BitVec.ofNat 32 t) (src + BitVec.ofNat 32 t) = none
  | 0, _, _, _, _ => rfl
  | n + 1, t, m, ht, hm => by
    have hd : 0 < (dst - src).toNat := Nat.pos_of_ne_zero fun h0 => hne <| by
      rw [← BitVec.sub_add_cancel dst src, show dst - src = 0 from BitVec.eq_of_toNat_eq h0]
      exact BitVec.zero_add src
    have hsrc : src + BitVec.ofNat 32 t = dst + BitVec.ofNat 32 (t - (dst - src).toNat) := by
      have hsum : BitVec.ofNat 32 t = (dst - src) + BitVec.ofNat 32 (t - (dst - src).toNat) := by
        refine BitVec.eq_of_toNat_eq ?_
        rw [BitVec.toNat_add, BitVec.toNat_ofNat, BitVec.toNat_ofNat]
        omega
      rw [hsum, ← BitVec.add_assoc, BitVec.add_comm src, BitVec.sub_add_cancel]
    have hread : m (src + BitVec.ofNat 32 t) ≠ 0 := by
      rw [hsrc]
      exact hm _ (by omega)
    unfold strcpyLoop
    rw [if_pos hread, add_ofNat_succ, add_ofNat_succ]
    refine strcpyLoop_endless hne (by omega) fun j hj => ?_
    by_cases he : dst + BitVec.ofNat 32 j = dst + BitVec.ofNat 32 t
    · rw [he, storeByte_same]
      exact hread
    · rw [storeByte_apply_of_ne _ _ he]
      refine hm j (Nat.lt_of_le_of_ne (Nat.lt_succ_iff.1 hj) fun hjt => he (by rw [hjt]))

/-- What a copy that ends has stored stays. -/
theorem strcpyLoop_stays {dst src : U32} (hne : dst ≠ src) {m' : Mem} : ∀ {n t : Nat} {m : Mem},
    t ≤ (dst - src).toNat → (∀ j, j < t → m (dst + BitVec.ofNat 32 j) ≠ 0) →
      strcpyLoop n m (dst + BitVec.ofNat 32 t) (src + BitVec.ofNat 32 t) = some m' →
        ∀ j, j < t → m' (dst + BitVec.ofNat 32 j) = m (dst + BitVec.ofNat 32 j)
  | n + 1, t, m, ht, hm, h, j, hj => by
    have hlt := (dst - src).isLt
    have hother : ∀ b, storeByte m (dst + BitVec.ofNat 32 t) b (dst + BitVec.ofNat 32 j) =
      m (dst + BitVec.ofNat 32 j) :=
      fun b => storeByte_apply_of_ne _ _ (add_ofNat_ne dst (by omega) (by omega) (by omega))
    by_cases hD : t = (dst - src).toNat
    · rw [strcpyLoop_endless hne (by omega) hm] at h
      cases h
    · unfold strcpyLoop at h
      split at h <;> rename_i hread
      · rw [add_ofNat_succ, add_ofNat_succ] at h
        refine (strcpyLoop_stays hne (by omega) (fun i hi => ?_) h j (by omega)).trans (hother _)
        by_cases hit : i = t
        · rw [hit, storeByte_same]
          exact hread
        · rw [storeByte_apply_of_ne _ _ (add_ofNat_ne dst (by omega) (by omega) hit)]
          exact hm i (by omega)
      · rw [← Option.some.inj h]
        exact hother 0

/-- **A copy that finds no NUL in the first `k + 1` bytes** stores a byte that is none at the `k`-th place. -/
theorem strcpyLoop_beyond {dst src : U32} {k : Nat} (hk : k < (dst - src).toNat)
    (ha : ∀ i j, i ≤ k → j ≤ k → src + BitVec.ofNat 32 i ≠ dst + BitVec.ofNat 32 j) {m' : Mem} :
    ∀ {n t : Nat} {m : Mem}, t ≤ k + 1 → (∀ j, j < t → m (dst + BitVec.ofNat 32 j) ≠ 0) →
      (∀ j, t ≤ j → j ≤ k → m (src + BitVec.ofNat 32 j) ≠ 0) →
        strcpyLoop n m (dst + BitVec.ofNat 32 t) (src + BitVec.ofNat 32 t) = some m' → m' (dst + BitVec.ofNat 32 k) ≠ 0
  | n, t, m, ht, hm, hs, h => by
    have hlt := (dst - src).isLt
    have hne : dst ≠ src := fun he => by
      rw [he, BitVec.sub_self] at hk
      exact absurd hk (Nat.not_lt_zero k)
    by_cases htk : t = k + 1
    · rw [strcpyLoop_stays hne (by omega) hm h k (by omega)]
      exact hm k (by omega)
    · cases n with
      | zero => cases h
      | succ n =>
        unfold strcpyLoop at h
        rw [if_pos (hs t (Nat.le_refl t) (by omega)), add_ofNat_succ, add_ofNat_succ] at h
        refine strcpyLoop_beyond hk ha (by omega) (fun j hj => ?_) (fun j hj hjk => ?_) h
        · by_cases hjt : j = t
          · rw [hjt, storeByte_same]
            exact hs t (Nat.le_refl t) (by omega)
          · rw [storeByte_apply_of_ne _ _ (add_ofNat_ne dst (by omega) (by omega) hjt)]
            exact hm j (by omega)
        · rw [storeByte_apply_of_ne _ _ (ha j t hjk (by omega))]
          exact hs j (by omega) hjk

theorem strcpyWrites_within : ∀ {l : List Byte} {m : Mem} {dst src : U32}, StringAt m src l →
    dst.toNat + l.length < 2 ^ 32 → src.toNat + l.length < 2 ^ 32 →
      (dst.toNat + l.length < src.toNat ∨ src.toNat + l.length < dst.toNat) →
        ∀ fuel, ∀ x ∈ strcpyWrites fuel m dst src, dst.toNat ≤ x.toNat ∧ x.toNat ≤ dst.toNat + l.length
  | _, _, _, _, _, _, _, _, 0, _, hx => absurd hx List.not_mem_nil
  | [], m, dst, src, h, _, _, _, fuel + 1, x, hx => by
    rw [stringAt_nil] at h
    unfold strcpyWrites at hx
    rw [if_neg (not_not.2 h), List.mem_singleton] at hx
    rw [hx]
    exact ⟨Nat.le_refl _, Nat.le_add_right _ _⟩
  | b :: l, m, dst, src, h, hd, hs, ha, fuel + 1, x, hx => by
    obtain ⟨hb, h0, h⟩ := stringAt_cons.1 h
    rw [List.length_cons] at hd hs ha ⊢
    have hd1 := toNat_succ (p := dst) (by omega)
    have hs1 := toNat_succ (p := src) (by omega)
    unfold strcpyWrites at hx
    rw [if_pos (by rw [h0]; exact hb), List.mem_cons] at hx
    obtain rfl | hx := hx
    · omega
    · have := strcpyWrites_within (h.keeps (keeps_storeByte m dst (m src)) (by omega) (by omega)) (by omega) (by omega)
        (by omega) fuel x hx
      omega

/-- The bytes of a field of `n` bytes up to its first NUL are a string exactly when one comes among them or right behind
them. -/
theorem isString_takeWhile : ∀ {n : Nat} {X : Nat → Byte},
    IsString X (((List.range n).map X).takeWhile (· ≠ 0)) ↔ ∃ j, j ≤ n ∧ X j = 0
  | 0, X => ⟨fun h => ⟨0, Nat.le_refl 0, h⟩, fun ⟨j, hj, h⟩ => by rw [Nat.le_zero.1 hj] at h; exact h⟩
  | n + 1, X => by
    rw [List.range_succ_eq_map, List.map_cons, List.map_map]
    by_cases h0 : X 0 = 0
    · rw [List.takeWhile_cons_of_neg (by simpa using h0)]
      exact ⟨fun _ => ⟨0, Nat.zero_le _, h0⟩, fun _ => h0⟩
    · rw [List.takeWhile_cons_of_pos (by simpa using h0)]
      have ih := @isString_takeWhile n fun i => X (i + 1)
      constructor
      · rintro ⟨-, -, h⟩
        obtain ⟨j, hj, hX⟩ := ih.1 h
        exact ⟨j + 1, Nat.succ_le_succ hj, hX⟩
      · rintro ⟨j, hj, hX⟩
        cases j with
        | zero => exact absurd hX h0
        | succ j => exact ⟨h0, rfl, ih.2 ⟨j, Nat.le_of_succ_le_succ hj, hX⟩⟩

namespace Ramdisk

/-! ## `initrd_read` -/

/-- What a read of the file gives: `size` bytes from `offset` on, as far as the file goes. -/
def readCount (length offset size : U32) : Nat :=
  if offset.toNat ≤ length.toNat then min size.toNat (length.toNat - offset.toNat) else 0

/-- **The read returns and copies what the file has** from `offset` on, and nothing else changes. -/
structure ReadsFile (s : Ramdisk) (node offset size buffer : U32) : Prop where
  count : (s.initrdRead node offset size buffer).1.toNat =
    readCount (load s.mem (fieldLength (s.headerOf node))) offset size
  /-- Each byte is one of the file, as far as the buffer is apart from the bytes that are read. -/
  bytes : ∀ n, n = (s.initrdRead node offset size buffer).1.toNat →
    (∀ i j, i < n → j < n → load s.mem (fieldOffset (s.headerOf node)) + offset + BitVec.ofNat 32 i ≠
      buffer + BitVec.ofNat 32 j) → ∀ i, i < n →
        offset.toNat + i < (load s.mem (fieldLength (s.headerOf node))).toNat ∧
        bytesFrom (s.initrdRead node offset size buffer).2.mem buffer i =
          bytesFrom s.mem (load s.mem (fieldOffset (s.headerOf node))) (offset.toNat + i)
  frame : ∀ x, (∀ i, i < (s.initrdRead node offset size buffer).1.toNat → x ≠ buffer + BitVec.ofNat 32 i) →
    (s.initrdRead node offset size buffer).2.mem x = s.mem x
  rest : (s.initrdRead node offset size buffer).2 = { s with mem := (s.initrdRead node offset size buffer).2.mem }

/-- **A read stays within the file exactly when `offset + size` does not wrap**, or `offset` is already behind it. -/
theorem read_within_file (s : Ramdisk) (node offset size buffer : U32) :
    ReadsFile s node offset size buffer ↔
      (load s.mem (fieldLength (s.headerOf node))).toNat < offset.toNat ∨ offset.toNat + size.toNat < 2 ^ 32 := by
  obtain ⟨length, hlength⟩ : ∃ l, l = load s.mem (fieldLength (s.headerOf node)) := ⟨_, rfl⟩
  have hread : s.initrdRead node offset size buffer = if offset > length then (0, s)
      else (if offset + size > length then length - offset else size, { s with
        mem := memcpy s.mem buffer (load s.mem (fieldOffset (s.headerOf node)) + offset)
          (if offset + size > length then length - offset else size).toNat }) := by
    rw [hlength]
    rfl
  have hl := length.isLt
  have hsz := size.isLt
  by_cases hbehind : length.toNat < offset.toNat
  · -- nothing is copied
    rw [if_pos (show offset > length from hbehind)] at hread
    rw [← hlength]
    refine ⟨fun _ => Or.inl hbehind, fun _ => ⟨?_, fun n hn _ i hi => ?_, fun x _ => ?_, ?_⟩⟩
    · rw [hread, ← hlength]
      unfold readCount
      rw [if_neg (by omega)]
      rfl
    · rw [hn, hread] at hi
      exact absurd hi (Nat.not_lt_zero i)
    · rw [hread]
    · rw [hread]
  · rw [if_neg (show ¬ offset > length from hbehind)] at hread
    have hsub : (length - offset).toNat = length.toNat - offset.toNat := by
      rw [BitVec.toNat_sub]
      omega
    have hgt : offset + size > length ↔ length.toNat < (offset.toNat + size.toNat) % 2 ^ 32 := by
      rw [gt_iff_lt, BitVec.lt_def, BitVec.toNat_add]
    obtain ⟨n, hn⟩ : ∃ n, n = if offset + size > length then length - offset else size := ⟨_, rfl⟩
    rw [← hn] at hread
    have hcount : n.toNat = min size.toNat (length.toNat - offset.toNat) ↔ offset.toNat + size.toNat < 2 ^ 32 := by
      rw [hn]
      split <;> rename_i hc <;> rw [hgt] at hc
      · rw [hsub]
        omega
      · omega
    have hrc : readCount length offset size = min size.toNat (length.toNat - offset.toNat) := by
      unfold readCount
      rw [if_pos (by omega)]
    rw [← hlength]
    constructor
    · intro h
      have := h.count
      rw [hread, ← hlength, hrc] at this
      exact Or.inr (hcount.1 this)
    · intro h
      have hmin := hcount.2 (h.resolve_left hbehind)
      refine ⟨?_, fun k hk ha i hi => ?_, fun x hx => ?_, ?_⟩
      · rw [hread, ← hlength, hrc]
        exact hmin
      · rw [hread] at hk ⊢
        replace hk : k = n.toNat := hk
        subst hk
        rw [← hlength]
        refine ⟨by omega, (memcpy_apply (by omega) ha i hi).trans ?_⟩
        unfold bytesFrom
        rw [BitVec.add_assoc, BitVec.ofNat_add, BitVec.ofNat_toNat, BitVec.setWidth_eq]
      · rw [hread] at hx ⊢
        exact memcpy_apply_of_ne hx
      · rw [hread]

/-- A ramdisk of one file of two bytes, at 0x1050. -/
def twoBytes : Ramdisk := { oneFile with
  mem := fun x => if x = 0x1048 then 0x50 else if x = 0x1049 then 0x10 else if x = 0x104C then 2 else
    if x = 0x1050 ∨ x = 0x1051 then 7 else 0
  file_headers := 0x1004 }

/-- From its second byte on, a read of `0xFFFFFFFF` bytes returns, and copies, that many. -/
theorem read_beyond_file : ¬ ReadsFile twoBytes 0 1 0xFFFFFFFF 0x8000 := fun h =>
  absurd h.count (by decide)

/-! ## The names of `initialise_initrd` -/

/-- The bytes of a header's name field up to its first NUL, or all 64. -/
def nameField (m : Mem) (header : U32) : List Byte :=
  ((List.range 64).map (bytesFrom m (fieldName header))).takeWhile (· ≠ 0)

/-- The memory at the copy of the `i`-th name, after the relocation of the offset. -/
def relocated (s : Ramdisk) (location : U32) (i : Nat) : Mem :=
  let header := s.fileHeader (BitVec.ofNat 32 i)
  store s.mem (fieldOffset header) (load s.mem (fieldOffset header) + location)

/-- Every store of the copy of the `i`-th name goes to the 128 bytes of the node's name. -/
def CopyWithin (s : Ramdisk) (location : U32) (i : Nat) : Prop :=
  ∀ fuel, ∀ x ∈ strcpyWrites fuel (s.relocated location i) (s.rootNode (BitVec.ofNat 32 i))
    (fieldName (s.fileHeader (BitVec.ofNat 32 i))),
      (s.rootNode (BitVec.ofNat 32 i)).toNat ≤ x.toNat ∧ x.toNat < (s.rootNode (BitVec.ofNat 32 i)).toNat + 128

/-- `r` is the state of the loop of `initialise_initrd` after `i` rounds. -/
def Rounds (st : Storage) (s : Ramdisk) (location : U32) : Nat → Ramdisk → Prop
  | 0, r => r = s.makeRoots st location
  | i + 1, r => ∃ q, Rounds st s location i q ∧
      ∃ steps, ∀ fuel, steps ≤ fuel → q.makeNode fuel location (BitVec.ofNat 32 i) = some r

/-- **Names are bounded**: every round of the loop is reached and ends, stores the name as its field has it and nothing
outside the node's name; and `initialise_initrd` returns with all of them. -/
structure NamesBounded (st : Storage) (s : Ramdisk) (location : U32) (n : Nat) : Prop where
  round : ∀ i, i < n → ∃ q r, Rounds st s location i q ∧ CopyWithin q location i ∧
    (∃ steps, ∀ fuel, steps ≤ fuel → q.makeNode fuel location (BitVec.ofNat 32 i) = some r) ∧
      StringAt r.mem (nodeAt st i) (nameField s.mem (headerAt location i))
  returns : ∃ s' steps, (∀ fuel, steps ≤ fuel → initialiseInitrd fuel st s location = some s') ∧
    ∀ i, i < n → StringAt s'.mem (nodeAt st i) (nameField s.mem (headerAt location i))

/-- After `k` rounds over names that are bounded. -/
structure Naming (st : Storage) (s : Ramdisk) (location : U32) (n : Nat) (q : Ramdisk) (k : Nat) : Prop where
  header : q.initrd_header = location
  headers : q.file_headers = location + sizeofInitrdHeader
  rootNodes : q.root_nodes = st.nodes
  bytes : ∀ x : U32, location.toNat ≤ x.toNat → x.toNat < location.toNat + (4 + 76 * n) →
    (∀ j, j < k → x.toNat < location.toNat + 4 + 76 * j + 68 ∨ location.toNat + 4 + 76 * j + 72 ≤ x.toNat) →
      q.mem x = s.mem x
  name : ∀ j, j < k → StringAt q.mem (nodeAt st j) (nameField s.mem (headerAt location j))

variable {st : Storage} {s q r : Ramdisk} {location : U32} {size n k : Nat}

theorem Naming.fileHeader (h : Naming st s location n q k) (i : Nat) :
    q.fileHeader (BitVec.ofNat 32 i) = headerAt location i := fileHeader_eq h.headers i

theorem Naming.rootNode (h : Naming st s location n q k) (i : Nat) : q.rootNode (BitVec.ofNat 32 i) = nodeAt st i :=
  rootNode_eq h.rootNodes i

theorem length_nameField (m : Mem) (header : U32) : (nameField m header).length ≤ 64 := by
  have h : (nameField m header).length ≤ ((List.range 64).map (bytesFrom m (fieldName header))).length :=
    (List.takeWhile_sublist _).length_le
  rwa [List.length_map, List.length_range] at h

theorem toNat_round (hfit : location.toNat + (4 + 76 * n) ≤ 2 ^ 32) (hp : Private st location (4 + 76 * n) n)
    (hk : k < n) :
    (fieldName (headerAt location k)).toNat = location.toNat + 4 + 76 * k + 1 ∧
      (fieldOffset (headerAt location k)).toNat = location.toNat + 4 + 76 * k + 68 ∧
      (nodeAt st k).toNat = st.nodes.toNat + 184 * k ∧ nodeAt st k ≠ 0 ∧ (nodeAt st k).toNat + 184 ≤ 2 ^ 32 ∧
      ((nodeAt st k).toNat + 184 ≤ location.toNat ∨ location.toNat + (4 + 76 * n) ≤ (nodeAt st k).toNat) := by
  obtain ⟨h1, h2, -⟩ := @toNat_fields location k (by omega)
  have hnode := toNat_nodeAt hp hk
  have hnodes := hp.fits.2.2
  have himage := hp.image.2.2
  unfold Apart at himage
  refine ⟨h1, h2, hnode, fun h0 => hp.nonnull.2.2 (BitVec.eq_of_toNat_eq ?_), by omega, by omega⟩
  rw [h0] at hnode
  have hz : (0 : U32).toNat = 0 := rfl
  omega

theorem Naming.relocated (h : Naming st s location n q k) (hfit : location.toNat + (4 + 76 * n) ≤ 2 ^ 32) (hk : k < n) :
    Keeps (location.toNat + 4 + 76 * k + 68) (location.toNat + 4 + 76 * k + 72) q.mem (q.relocated location k) ∧
      ∀ j, j ≤ 64 → bytesFrom (q.relocated location k) (fieldName (headerAt location k)) j =
        bytesFrom s.mem (fieldName (headerAt location k)) j := by
  obtain ⟨h1, h2, -⟩ := @toNat_fields location k (by omega)
  have hkeep : Keeps (location.toNat + 4 + 76 * k + 68) (location.toNat + 4 + 76 * k + 72) q.mem
      (q.relocated location k) := by
    unfold Ramdisk.relocated
    rw [h.fileHeader]
    exact (keeps_store q.mem (fieldOffset (headerAt location k)) _ (by omega)).mono (by omega) (by omega)
  refine ⟨hkeep, fun j hj => ?_⟩
  have hj' := toNat_add_ofNat (p := fieldName (headerAt location k)) (i := j) (by omega)
  exact (hkeep _ (by omega)).trans (h.bytes _ (by omega) (by omega) fun i hi => by omega)

/-- **A round over a name that is bounded.** -/
theorem Naming.makeNode (h : Naming st s location n q k) (hfit : location.toNat + (4 + 76 * n) ≤ 2 ^ 32)
    (hp : Private st location (4 + 76 * n) n) (hk : k < n)
    (hnul : ∃ j, j ≤ 64 ∧ bytesFrom s.mem (fieldName (headerAt location k)) j = 0) :
    ∃ r, (∀ fuel, 65 ≤ fuel → q.makeNode fuel location (BitVec.ofNat 32 k) = some r) ∧ CopyWithin q location k ∧
      StringAt r.mem (nodeAt st k) (nameField s.mem (headerAt location k)) ∧ Naming st s location n r (k + 1) := by
  obtain ⟨h1, h2, hnode, hne, hroom, hapart⟩ := toNat_round hfit hp hk
  obtain ⟨hkeep, hbytes⟩ := h.relocated hfit hk
  have hlen := length_nameField s.mem (headerAt location k)
  have hstr : StringAt (q.relocated location k) (fieldName (headerAt location k))
      (nameField s.mem (headerAt location k)) := by
    refine StringAt.congr (isString_takeWhile.2 hnul) (by omega) fun x hlo hhi => ?_
    have hx := hbytes (x.toNat - (fieldName (headerAt location k)).toNat) (by omega)
    unfold bytesFrom at hx
    rwa [show fieldName (headerAt location k) + BitVec.ofNat 32 (x.toNat - (fieldName (headerAt location k)).toNat) = x
      from BitVec.eq_of_toNat_eq (by rw [toNat_add_ofNat (by omega)]; omega)] at hx
  obtain ⟨m', hm', hname, hcopy⟩ := @strcpyLoop_spec _ _ (nodeAt st k) _ hstr (by omega) (by omega) (by omega)
  refine ⟨{ q with
    mem := m'
    nodes := fun p => if p = nodeAt st k then
        ⟨fsFile, BitVec.ofNat 32 k, load m' (fieldLength (headerAt location k)), some .initrd_read, none, none⟩
      else q.nodes p }, fun fuel hf => ?_, fun fuel x hx => ?_, hname,
    h.header, h.headers, h.rootNodes, fun x hlo hhi hx => ?_, fun j hj => ?_⟩
  · have hrun := hm' fuel (by omega)
    unfold Ramdisk.relocated at hrun
    simp only [h.fileHeader] at hrun
    simp only [Ramdisk.makeNode, strcpy, h.fileHeader, h.rootNode, if_neg hne, hrun, Option.map_some]
  · rw [h.rootNode, h.fileHeader] at hx
    have := strcpyWrites_within hstr (by omega) (by omega) (by omega) fuel x hx
    rw [h.rootNode]
    omega
  · exact (hcopy x (by omega)).trans ((hkeep x (by have := hx k (Nat.lt_succ_self k); omega)).trans
      (h.bytes x hlo hhi fun j hj => hx j (Nat.lt_succ_of_lt hj)))
  · by_cases hjk : j = k
    · subst hjk
      exact hname
    · have hjn : j < n := by omega
      obtain ⟨-, -, hnodej, -, -, hapartj⟩ := toNat_round hfit hp hjn
      have hlenj := length_nameField s.mem (headerAt location j)
      exact ((h.name j (by omega)).keeps hkeep (by omega) (by omega)).keeps hcopy (by omega) (by omega)

/-- **A round over a name that is not bounded** leaves no NUL at its end. -/
theorem Naming.makeNode_beyond (h : Naming st s location n q k) (hfit : location.toNat + (4 + 76 * n) ≤ 2 ^ 32)
    (hp : Private st location (4 + 76 * n) n) (hk : k < n)
    (hnul : ∀ j, j ≤ 64 → bytesFrom s.mem (fieldName (headerAt location k)) j ≠ 0) {fuel : Nat}
    (hr : q.makeNode fuel location (BitVec.ofNat 32 k) = some r) :
    ¬ StringAt r.mem (nodeAt st k) (nameField s.mem (headerAt location k)) := by
  obtain ⟨h1, h2, hnode, hne, hroom, hapart⟩ := toNat_round hfit hp hk
  obtain ⟨-, hbytes⟩ := h.relocated hfit hk
  intro hname
  have hall : nameField s.mem (headerAt location k) =
      (List.range 64).map (bytesFrom s.mem (fieldName (headerAt location k))) := by
    refine List.takeWhile_eq_self_iff.2 fun b hb => ?_
    obtain ⟨j, hj, rfl⟩ := List.mem_map.1 hb
    have := List.mem_range.1 hj
    simpa using hnul j (by omega)
  -- the copy ends, and its 65th byte is none of the name's
  unfold Ramdisk.makeNode strcpy at hr
  simp only [h.fileHeader, h.rootNode, if_neg hne] at hr
  obtain ⟨m', hm', rfl⟩ := Option.map_eq_some_iff.1 hr
  have hm'' : strcpyLoop fuel (q.relocated location k) (nodeAt st k + BitVec.ofNat 32 0)
      (fieldName (headerAt location k) + BitVec.ofNat 32 0) = some m' := by
    unfold Ramdisk.relocated
    rw [h.fileHeader]
    simpa only [BitVec.ofNat_eq_ofNat, BitVec.add_zero] using hm'
  have hbeyond := @strcpyLoop_beyond (nodeAt st k) (fieldName (headerAt location k)) 64
    (by rw [BitVec.toNat_sub]; omega)
    (fun i j hi hj he => by
      have := congrArg BitVec.toNat he
      rw [toNat_add_ofNat (by omega), toNat_add_ofNat (by omega)] at this
      omega)
    m' fuel 0 (q.relocated location k) (by omega) (fun j hj => absurd hj (Nat.not_lt_zero j))
    (fun j _ hj => by
      have := hbytes j hj
      unfold bytesFrom at this
      rw [this]
      exact hnul j hj) hm''
  have hend := isString_length hname
  rw [hall, List.length_map, List.length_range] at hend
  exact hbeyond hend

theorem naming_makeRoots (hp : Private st location (4 + 76 * n) n) :
    Naming st s location n (s.makeRoots st location) 0 :=
  ⟨rfl, rfl, rfl, fun _ hlo hhi _ => makeRoots_mem hp hlo hhi, fun j hj => absurd hj (Nat.not_lt_zero j)⟩

/-- **The rounds before the first unbounded name.** -/
theorem naming_rounds (hfit : location.toNat + (4 + 76 * n) ≤ 2 ^ 32) (hp : Private st location (4 + 76 * n) n) :
    ∀ {k : Nat}, k ≤ n → (∀ i, i < k → ∃ j, j ≤ 64 ∧ bytesFrom s.mem (fieldName (headerAt location i)) j = 0) →
      ∃ q, Rounds st s location k q ∧ Naming st s location n q k
  | 0, _, _ => ⟨_, rfl, naming_makeRoots hp⟩
  | k + 1, hk, hnul => by
    obtain ⟨q, hq, h⟩ := naming_rounds (k := k) hfit hp (by omega) fun i hi => hnul i (by omega)
    obtain ⟨r, hr, -, -, h'⟩ := h.makeNode hfit hp (by omega) (hnul k (by omega))
    exact ⟨r, ⟨q, hq, 65, hr⟩, h'⟩

theorem Rounds.unique : ∀ {k : Nat} {q r : Ramdisk}, Rounds st s location k q → Rounds st s location k r → q = r
  | 0, _, _, rfl, rfl => rfl
  | _ + 1, _, _, ⟨_, hq, n₁, h₁⟩, ⟨_, hq', n₂, h₂⟩ => by
    obtain rfl := Rounds.unique hq hq'
    have := h₁ (n₁ + n₂) (by omega)
    rw [h₂ (n₁ + n₂) (by omega)] at this
    exact (Option.some.inj this).symm

theorem Naming.makeNodes (hfit : location.toNat + (4 + 76 * n) ≤ 2 ^ 32) (hp : Private st location (4 + 76 * n) n)
    (hcount : (load s.mem location).toNat = n)
    (hnul : ∀ i, i < n → ∃ j, j ≤ 64 ∧ bytesFrom s.mem (fieldName (headerAt location i)) j = 0) :
    ∀ (d : Nat) {q : Ramdisk} {k : Nat}, k + d = n → Naming st s location n q k →
      ∃ s', (∀ fuel steps, 65 ≤ fuel → d < steps → makeNodes fuel location steps q (BitVec.ofNat 32 k) = some s') ∧
        Naming st s location n s' n
  | d, q, k, hkd, h => by
    have hload : load q.mem q.initrd_header = load s.mem location := by
      rw [h.header]
      refine load_congr fun x hx => ?_
      rw [BitVec.toNat_sub] at hx
      have := x.isLt
      exact h.bytes x (by omega) (by omega) fun j hj => by omega
    have hlt : BitVec.ofNat 32 k < load q.mem q.initrd_header ↔ k < n := by
      rw [hload, BitVec.lt_def, hcount, BitVec.toNat_ofNat]
      omega
    cases d with
    | zero =>
      refine ⟨q, fun fuel steps _ hs => ?_, (show k = n from hkd) ▸ h⟩
      obtain ⟨steps, rfl⟩ : ∃ e, steps = e + 1 := ⟨steps - 1, by omega⟩
      unfold Ramdisk.makeNodes
      rw [if_neg (by rw [hlt]; omega)]
    | succ d =>
      obtain ⟨r, hr, -, -, h'⟩ := h.makeNode hfit hp (by omega) (hnul k (by omega))
      obtain ⟨s', hs', hend⟩ := Naming.makeNodes hfit hp hcount hnul d (by omega) h'
      refine ⟨s', fun fuel steps hf hs => ?_, hend⟩
      obtain ⟨steps, rfl⟩ : ∃ e, steps = e + 1 := ⟨steps - 1, by omega⟩
      have hnext := hs' fuel steps hf (by omega)
      rw [BitVec.ofNat_add] at hnext
      unfold Ramdisk.makeNodes
      rw [if_pos (hlt.2 (by omega)), hr fuel hf, Option.bind_some]
      exact hnext

/-- **Names are bounded exactly when each has a NUL** among the 64 bytes of its field or right behind them, over any
image. -/
theorem names_bounded (hfit : location.toNat + (4 + 76 * (load s.mem location).toNat) ≤ 2 ^ 32)
    (hp : Private st location (4 + 76 * (load s.mem location).toNat) (load s.mem location).toNat) :
    NamesBounded st s location (load s.mem location).toNat ↔
      ∀ i, i < (load s.mem location).toNat →
        ∃ j, j ≤ 64 ∧ bytesFrom s.mem (fieldName (headerAt location i)) j = 0 := by
  obtain ⟨n, hn⟩ : ∃ n, n = (load s.mem location).toNat := ⟨_, rfl⟩
  rw [← hn] at hfit hp ⊢
  constructor
  · -- at the first name that is not bounded the rounds are as they should be
    intro h i
    induction i using Nat.strong_induction_on with
    | _ i ih =>
      intro hi
      obtain ⟨q, r, hq, -, ⟨steps, hr⟩, hname⟩ := h.round i hi
      obtain ⟨q', hq', hnaming⟩ := naming_rounds hfit hp (Nat.le_of_lt hi) fun j hj => ih j hj (by omega)
      obtain rfl := hq.unique hq'
      refine Decidable.by_contra fun hno => ?_
      exact hnaming.makeNode_beyond hfit hp hi (fun j hj h0 => hno ⟨j, hj, h0⟩) (hr steps (Nat.le_refl _)) hname
  · intro hnul
    refine ⟨fun i hi => ?_, ?_⟩
    · obtain ⟨q, hq, h⟩ := naming_rounds hfit hp (Nat.le_of_lt hi) fun j hj => hnul j (by omega)
      obtain ⟨r, hr, hcopy, hname, -⟩ := h.makeNode hfit hp hi (hnul i hi)
      exact ⟨q, r, hq, hcopy, ⟨65, hr⟩, hname⟩
    · obtain ⟨s', hs', h⟩ := Naming.makeNodes hfit hp hn.symm hnul n (Nat.zero_add n) (naming_makeRoots hp)
      exact ⟨s', n + 65, fun fuel hf => hs' fuel fuel (by omega) (by omega), h.name⟩

theorem names_bounded_twoFiles : NamesBounded placement twoFiles 0x1000 (load twoFiles.mem 0x1000).toNat := by
  have h2 : (load twoFiles.mem 0x1000).toNat = 2 := by decide
  have hp : Private placement 0x1000 (4 + 76 * 2) 2 := private_placement (by decide) (by decide)
  refine (names_bounded (by rw [h2]; decide) (by rw [h2]; exact hp)).2 fun i hi => ⟨1, by decide, ?_⟩
  rw [h2] at hi
  have hends : ∀ i, i < 2 → bytesFrom twoFiles.mem (fieldName (headerAt 0x1000 i)) 1 = 0 := by decide
  exact hends i hi

/-- An image of one file whose name takes all 64 bytes, with a byte of padding behind it that is no NUL. -/
def longName : Ramdisk := { oneFile with
  mem := fun x => if x = 0x1000 then 1 else if 0x1005 ≤ x ∧ x ≤ 0x1045 then 0x61 else 0 }

theorem name_unbounded : (load longName.mem 0x1000).toNat = 1 ∧ ¬ NamesBounded placement longName 0x1000 1 := by
  refine ⟨by decide, fun h => ?_⟩
  have hp : Private placement 0x1000 (4 + 76 * 1) 1 := private_placement (by decide) (by decide)
  obtain ⟨q, r, rfl, -, ⟨steps, hr⟩, hname⟩ := h.round 0 Nat.one_pos
  exact (naming_makeRoots hp).makeNode_beyond (by decide) hp Nat.one_pos
    (by decide +kernel) (hr steps (Nat.le_refl _)) hname

end Ramdisk

end Loris
