import Loris.LibC
/-!
# StringOrder — `strcmp` beside `memcmp`, and the order of strings

Both compare bytes as unsigned numbers, so both decide the lexicographic order of lists of bytes: `strcmp` by the sign
of its result, `memcmp` on as many bytes as reach the terminator of the shorter string.
-/
namespace Loris

open ByteMem

/-- The loop of `memcmp` from `i` on, with `n` rounds to go. -/
def memcmpLoop (a b : Nat → Byte) (i : Nat) : Nat → Int
  | 0 => 0
  | n + 1 => if a i < b i then -1 else if b i < a i then 1 else memcmpLoop a b (i + 1) n

def memcmp (a b : Nat → Byte) (size : Nat) : Int := memcmpLoop a b 0 size

/-- `strcmp` on two buffers, where a read behind the end of one fails. -/
def strcmpIn : List Byte → List Byte → Option Int
  | x :: X, y :: Y => if x ≠ 0 ∧ x = y then strcmpIn X Y else some (x.toNat - y.toNat)
  | _, _ => none

/-- The sign of `r` is that of the order of the two strings. -/
structure Orders (r : Int) (x y : List Byte) : Prop where
  neg : r < 0 ↔ x < y
  zero : r = 0 ↔ x = y

variable {x y z : List Byte} {X Y Z : Nat → Byte} {r s t : Int}

namespace Orders

theorem pos (h : Orders r x y) : 0 < r ↔ y < x := by
  have hn := h.neg
  have h0 := h.zero
  rcases Std.lt_trichotomy x y with hlt | rfl | hgt
  · exact iff_of_false (fun hr => by have := hn.2 hlt; omega) (Std.not_gt_of_lt hlt)
  · exact iff_of_false (fun hr => by have := h0.2 rfl; omega) Std.lt_irrefl
  · refine iff_of_true ?_ hgt
    have h1 : ¬r < 0 := fun hr => Std.not_gt_of_lt hgt (hn.1 hr)
    have h2 : r ≠ 0 := fun hr => Std.lt_irrefl (h0.1 hr ▸ hgt)
    omega

/-- **The order decides the sign.** -/
theorem sign_eq (h : Orders r x y) (h' : Orders s x y) : r.sign = s.sign := by
  rcases Std.lt_trichotomy x y with hlt | he | hgt
  · rw [Int.sign_eq_neg_one_of_neg (h.neg.2 hlt), Int.sign_eq_neg_one_of_neg (h'.neg.2 hlt)]
  · rw [h.zero.2 he, h'.zero.2 he]
  · rw [Int.sign_eq_one_of_pos (h.pos.2 hgt), Int.sign_eq_one_of_pos (h'.pos.2 hgt)]

theorem swap (h : Orders r x y) : Orders (-r) y x :=
  ⟨by rw [← h.pos]; omega, by rw [eq_comm (a := y), ← h.zero]; omega⟩

theorem trans (h : Orders r x y) (h' : Orders s y z) (h'' : Orders t x z) (hr : r ≤ 0) (hs : s ≤ 0) :
    t ≤ 0 ∧ (t = 0 → r = 0 ∧ s = 0) := by
  have hxy : x < y ∨ x = y := (Int.le_iff_lt_or_eq.1 hr).imp h.neg.1 h.zero.1
  have hyz : y < z ∨ y = z := (Int.le_iff_lt_or_eq.1 hs).imp h'.neg.1 h'.zero.1
  rcases hxy with hxy | rfl
  · have hxz : x < z := hyz.elim (Std.lt_trans hxy) fun he => he ▸ hxy
    have ht := h''.neg.2 hxz
    exact ⟨by omega, by omega⟩
  · have h0 := h.zero.2 rfl
    rcases hyz with hyz | rfl
    · have ht := h''.neg.2 hyz
      exact ⟨by omega, by omega⟩
    · have h1 := h'.zero.2 rfl
      have h2 := h''.zero.2 rfl
      exact ⟨by omega, fun _ => ⟨h0, h1⟩⟩

theorem cons {b : Byte} (h : Orders r x y) : Orders r (b :: x) (b :: y) :=
  ⟨h.neg.trans (by rw [List.cons_lt_cons_self]), h.zero.trans (by rw [List.cons_inj_right])⟩

end Orders

/-- Two strings whose first bytes differ, the terminators counted, are ordered as these. -/
theorem first_differs (hX : IsString X x) (hY : IsString Y y) (hne : X 0 ≠ Y 0) :
    (x < y ↔ (X 0).toNat < (Y 0).toNat) ∧ x ≠ y := by
  cases x with
  | nil =>
    have hX0 : X 0 = 0 := hX
    cases y with
    | nil => exact absurd (hX0.trans (Eq.symm hY)) hne
    | cons c y =>
      refine ⟨iff_of_true (List.nil_lt_cons c y) ?_, (List.cons_ne_nil c y).symm⟩
      have h0 : (0 : Byte).toNat = 0 := rfl
      have hc : (Y 0).toNat ≠ (X 0).toNat := fun h => hne (BitVec.eq_of_toNat_eq h.symm)
      rw [hX0, h0] at *
      omega
  | cons b x =>
    obtain ⟨hb, hX0, -⟩ := hX
    cases y with
    | nil =>
      refine ⟨iff_of_false (List.not_lt_nil _) ?_, List.cons_ne_nil b x⟩
      rw [show Y 0 = 0 from hY]
      exact Nat.not_lt_zero _
    | cons c y =>
      rw [hX0, hY.2.1] at hne ⊢
      rw [List.cons_lt_cons_iff, BitVec.lt_def]
      exact ⟨or_iff_left fun h => hne h.1, fun h => hne (List.head_eq_of_cons_eq h)⟩

/-- Two strings whose first bytes agree end here or go on together. -/
theorem first_agrees (hX : IsString X x) (hY : IsString Y y) (he : X 0 = Y 0) :
    (X 0 = 0 ∧ x = [] ∧ y = []) ∨ (X 0 ≠ 0 ∧ ∃ x' y', x = X 0 :: x' ∧ y = X 0 :: y' ∧
      IsString (fun i => X (i + 1)) x' ∧ IsString (fun i => Y (i + 1)) y') := by
  cases x with
  | nil =>
    have hX0 : X 0 = 0 := hX
    cases y with
    | nil => exact Or.inl ⟨hX0, rfl, rfl⟩
    | cons c y => exact absurd (hY.2.1.symm.trans (he.symm.trans hX0)) hY.1
  | cons b x =>
    obtain ⟨hb, rfl, hX⟩ := hX
    cases y with
    | nil => exact absurd (he.trans hY) hb
    | cons c y =>
      obtain ⟨-, rfl, hY⟩ := hY
      exact Or.inr ⟨hb, x, y, rfl, by rw [he], hX, hY⟩

theorem orders_differ (hX : IsString X x) (hY : IsString Y y) (hne : X 0 ≠ Y 0)
    (hr : r < 0 ↔ (X 0).toNat < (Y 0).toNat) (hr0 : r ≠ 0) : Orders r x y :=
  ⟨hr.trans (first_differs hX hY hne).1.symm, iff_of_false hr0 (first_differs hX hY hne).2⟩

theorem terminated (hX : IsString X x) : ∃ l, x ++ [0] = X 0 :: l := by
  cases x with
  | nil => exact ⟨[], by rw [show X 0 = 0 from hX]; rfl⟩
  | cons b x => exact ⟨x ++ [0], by rw [hX.2.1]; rfl⟩

/-- What `strcmp` returns on two buffers it returns on all memory that begins with them. -/
theorem strcmp_of_strcmpIn : ∀ {fuel : Nat} {x y : List Byte} {X Y : Nat → Byte}, strcmpIn x y = some r →
    (∀ i, (h : i < x.length) → X i = x[i]) → (∀ i, (h : i < y.length) → Y i = y[i]) → x.length ≤ fuel →
    strcmp fuel X Y = some r
  | fuel, [], _, _, _, h, _, _, _ => by simp [strcmpIn] at h
  | fuel, _ :: _, [], _, _, h, _, _, _ => by simp [strcmpIn] at h
  | fuel + 1, b :: x, c :: y, X, Y, h, hX, hY, hf => by
    have hX0 : X 0 = b := hX 0 (Nat.succ_pos _)
    have hY0 : Y 0 = c := hY 0 (Nat.succ_pos _)
    rw [strcmpIn] at h
    rw [strcmp, hX0, hY0]
    split at h
    · next hc =>
      rw [if_pos hc]
      exact strcmp_of_strcmpIn h (fun i hi => hX (i + 1) (Nat.succ_lt_succ hi))
        (fun i hi => hY (i + 1) (Nat.succ_lt_succ hi)) (Nat.le_of_succ_le_succ hf)
    · next hc => rw [if_neg hc, h]

/-- **`strcmp` decides the order of the strings**, and reads nothing behind their terminators. -/
theorem strcmp_spec : ∀ {fuel : Nat} {x y : List Byte} {X Y : Nat → Byte}, IsString X x → IsString Y y →
    x.length < fuel → ∃ r, strcmp fuel X Y = some r ∧ Orders r x y ∧ strcmpIn (x ++ [0]) (y ++ [0]) = some r
  | fuel + 1, x, y, X, Y, hX, hY, hf => by
    unfold strcmp
    by_cases he : X 0 = Y 0
    · rcases first_agrees hX hY he with ⟨h0, rfl, rfl⟩ | ⟨h0, x', y', rfl, rfl, hX', hY'⟩
      · refine ⟨0, ?_, ⟨by simp, by simp⟩, rfl⟩
        rw [if_neg fun h => h.1 h0, ← he, Int.sub_self]
      · obtain ⟨r, hr, ho, hin⟩ := strcmp_spec hX' hY' (Nat.lt_of_succ_lt_succ hf)
        refine ⟨r, by rw [if_pos ⟨h0, he⟩, hr], ho.cons, ?_⟩
        rw [List.cons_append, List.cons_append, strcmpIn, if_pos ⟨h0, rfl⟩, hin]
    · obtain ⟨l, hl⟩ := terminated hX
      obtain ⟨l', hl'⟩ := terminated hY
      have hne : (X 0).toNat ≠ (Y 0).toNat := fun h => he (BitVec.eq_of_toNat_eq h)
      refine ⟨_, if_neg fun h => he h.2, orders_differ hX hY he (by omega) (by omega), ?_⟩
      rw [hl, hl', strcmpIn, if_neg fun h => he h.2]

theorem memcmpLoop_agree {i n : Nat} (he : X i = Y i) : memcmpLoop X Y i (n + 1) = memcmpLoop X Y (i + 1) n := by
  rw [memcmpLoop, he, if_neg Std.lt_irrefl, if_neg Std.lt_irrefl]

theorem memcmpLoop_differ {i n : Nat} (hne : X i ≠ Y i) :
    (memcmpLoop X Y i (n + 1) < 0 ↔ (X i).toNat < (Y i).toNat) ∧ memcmpLoop X Y i (n + 1) ≠ 0 := by
  have hne' : (X i).toNat ≠ (Y i).toNat := fun h => hne (BitVec.eq_of_toNat_eq h)
  by_cases hlt : (X i).toNat < (Y i).toNat
  · rw [memcmpLoop, if_pos (BitVec.lt_def.2 hlt)]
    exact ⟨iff_of_true (by decide) hlt, by decide⟩
  · rw [memcmpLoop, if_neg fun h => hlt (BitVec.lt_def.1 h), if_pos (BitVec.lt_def.2 (by omega))]
    exact ⟨iff_of_false (by decide) hlt, by decide⟩

/-- **`memcmp` decides the same order** on as many bytes as reach the terminator of the shorter string. -/
theorem memcmpLoop_spec : ∀ {n i : Nat} {x y : List Byte}, IsString (fun j => X (i + j)) x →
    IsString (fun j => Y (i + j)) y → min x.length y.length = n → Orders (memcmpLoop X Y i (n + 1)) x y
  | n, i, x, y, hX, hY, hn => by
    by_cases he : X i = Y i
    · rw [memcmpLoop_agree he]
      rcases first_agrees hX hY he with ⟨-, rfl, rfl⟩ | ⟨-, x', y', rfl, rfl, hX', hY'⟩
      · subst hn
        exact ⟨by simp [memcmpLoop], by simp [memcmpLoop]⟩
      · -- the terminator of the shorter string is still to come
        simp only [List.length_cons] at hn
        obtain ⟨n, rfl⟩ : ∃ k, n = k + 1 := ⟨n - 1, by omega⟩
        refine (memcmpLoop_spec ?_ ?_ (by omega)).cons
        · simpa only [Nat.add_assoc, Nat.add_comm 1] using hX'
        · simpa only [Nat.add_assoc, Nat.add_comm 1] using hY'
    · obtain ⟨hr, hr0⟩ := memcmpLoop_differ (n := n) he
      exact orders_differ hX hY he hr hr0

theorem memcmp_spec (hX : IsString X x) (hY : IsString Y y) :
    Orders (memcmp X Y (min x.length y.length + 1)) x y :=
  memcmpLoop_spec (by simpa only [Nat.zero_add] using hX) (by simpa only [Nat.zero_add] using hY) rfl

/-- **`strcmp` is the order that `memcmp` decides**: the sign is `memcmp`'s up to the terminator of the shorter string,
zero on equal strings only, reversed by an exchange and transitive; and no byte behind a terminator is read. -/
theorem strcmp_is_order (hX : IsString X x) (hY : IsString Y y) (hZ : IsString Z z) {fuel : Nat}
    (hx : x.length < fuel) (hy : y.length < fuel) :
    ∃ (a b : Nat) (r s t u : Int), strlen fuel X = some a ∧ strlen fuel Y = some b ∧
      strcmp fuel X Y = some r ∧ strcmp fuel Y X = some s ∧ strcmp fuel Y Z = some t ∧ strcmp fuel X Z = some u ∧
      r.sign = (memcmp X Y (min a b + 1)).sign ∧ (r = 0 ↔ x = y) ∧ s.sign = -r.sign ∧
      (r ≤ 0 → t ≤ 0 → u ≤ 0 ∧ (u = 0 → r = 0 ∧ t = 0)) ∧ strcmpIn (x ++ [0]) (y ++ [0]) = some r := by
  obtain ⟨r, hr, hxy, hin⟩ := strcmp_spec hX hY hx
  obtain ⟨s, hs, hyx, -⟩ := strcmp_spec hY hX hy
  obtain ⟨t, ht, hyz, -⟩ := strcmp_spec hY hZ hy
  obtain ⟨u, hu, hxz, -⟩ := strcmp_spec hX hZ hx
  refine ⟨x.length, y.length, r, s, t, u, strlen_spec hX hx, strlen_spec hY hy, hr, hs, ht, hu,
    hxy.sign_eq (memcmp_spec hX hY), hxy.zero, ?_, hxy.trans hyz hxz, hin⟩
  rw [hyx.sign_eq hxy.swap, Int.sign_neg]

theorem strcmp_is_order_high : ∃ r t : Int, strcmp 4 (literal [0x61, 0x80]) (literal [0x61, 0x7f, 0x62]) = some r ∧
    strcmp 4 (literal [0x61, 0x7f, 0x62]) (literal [0x61]) = some t ∧
    r.sign = (memcmp (literal [0x61, 0x80]) (literal [0x61, 0x7f, 0x62]) 3).sign := by
  obtain ⟨a, b, r, s, t, u, ha, hb, hr, -, ht, -, hsign, -⟩ :=
    @strcmp_is_order [0x61, 0x80] [0x61, 0x7f, 0x62] [0x61] (literal [0x61, 0x80]) (literal [0x61, 0x7f, 0x62])
      (literal [0x61]) (isString_literal (by decide)) (isString_literal (by decide)) (isString_literal (by decide)) 4
      (by decide) (by decide)
  obtain rfl : 2 = a := Option.some.inj ((show strlen 4 (literal [0x61, 0x80]) = some 2 by decide).symm.trans ha)
  obtain rfl : 3 = b := Option.some.inj ((show strlen 4 (literal [0x61, 0x7f, 0x62]) = some 3 by decide).symm.trans hb)
  exact ⟨r, t, hr, ht, hsign⟩

end Loris
