import Mathlib.Data.List.Perm.Basic
/-!
# Cut — lists of pieces that cut an interval

A piece has a start and a positive length.  `Cuts a b l` says that the pieces of `l`, in order, cut `[a, b)` without
gap or overlap.  The rules below take a cut apart at an append, replace one piece by a cut of it, and compare two cuts
of one interval.
-/
namespace Cut

class Piece (α : Type) where
  start : α → Nat
  len : α → Nat

export Piece (start len)

variable {α : Type} [Piece α]

def Cuts : Nat → Nat → List α → Prop
  | a, b, [] => a = b
  | a, b, x :: l => start x = a ∧ 0 < len x ∧ Cuts (a + len x) b l

@[simp] theorem cuts_nil (a b : Nat) : Cuts a b ([] : List α) ↔ a = b := Iff.rfl

@[simp] theorem cuts_cons (a b : Nat) (x : α) (l : List α) :
    Cuts a b (x :: l) ↔ start x = a ∧ 0 < len x ∧ Cuts (a + len x) b l := Iff.rfl

instance decidableCuts : ∀ (a b : Nat) (l : List α), Decidable (Cuts a b l)
  | a, b, [] => inferInstanceAs (Decidable (a = b))
  | a, b, x :: l =>
    have := decidableCuts (a + len x) b l
    inferInstanceAs (Decidable (start x = a ∧ 0 < len x ∧ Cuts (a + len x) b l))

theorem cuts_append : ∀ {a b : Nat} {l r : List α}, Cuts a b (l ++ r) ↔ ∃ c, Cuts a c l ∧ Cuts c b r
  | a, b, [], r => by simp
  | a, b, x :: l, r => by
    simp only [List.cons_append, cuts_cons, cuts_append (l := l)]
    constructor
    · rintro ⟨h1, h2, c, h3, h4⟩; exact ⟨c, ⟨h1, h2, h3⟩, h4⟩
    · rintro ⟨c, ⟨h1, h2, h3⟩, h4⟩; exact ⟨h1, h2, c, h3, h4⟩

theorem Cuts.end_unique : ∀ {a b c : Nat} {l : List α}, Cuts a b l → Cuts a c l → b = c
  | _, _, _, [], h1, h2 => h1.symm.trans h2
  | _, _, _, _ :: _, ⟨_, _, h1⟩, ⟨_, _, h2⟩ => h1.end_unique h2

theorem Cuts.le : ∀ {a b : Nat} {l : List α}, Cuts a b l → a ≤ b
  | _, _, [], h => Nat.le_of_eq h
  | _, _, _ :: _, ⟨_, _, h⟩ => by have := h.le; omega

theorem Cuts.bounds : ∀ {a b : Nat} {l : List α}, Cuts a b l → ∀ x ∈ l,
    a ≤ start x ∧ 0 < len x ∧ start x + len x ≤ b
  | a, b, y :: l, ⟨h1, h2, h3⟩, x, hx => by
    rcases List.mem_cons.1 hx with rfl | hx
    · have := h3.le; omega
    · have := h3.bounds x hx; omega

theorem Cuts.length_mul_le {n : Nat} : ∀ {a b : Nat} {l : List α}, Cuts a b l → (∀ x ∈ l, n ≤ len x) →
    a + n * l.length ≤ b
  | _, _, [], h, _ => by simp only [cuts_nil] at h; simp [h]
  | a, b, x :: l, ⟨_, _, h⟩, hn => by
    have h1 := h.length_mul_le fun y hy => hn y (List.mem_cons_of_mem _ hy)
    have h2 := hn x (List.mem_cons_self ..)
    rw [List.length_cons, Nat.mul_add]; omega

theorem Cuts.pairwise : ∀ {a b : Nat} {l : List α}, Cuts a b l → l.Pairwise (fun x y => start x + len x ≤ start y)
  | _, _, [], _ => List.Pairwise.nil
  | a, b, x :: l, ⟨h1, _, h3⟩ => List.Pairwise.cons (fun y hy => by have := h3.bounds y hy; omega) h3.pairwise

/-- **Two different pieces of a cut are apart.** -/
theorem Cuts.apart {a b : Nat} {l : List α} (h : Cuts a b l) {x y : α} (hx : x ∈ l) (hy : y ∈ l) (hne : x ≠ y) :
    start x + len x ≤ start y ∨ start y + len y ≤ start x := by
  obtain ⟨i, hi, rfl⟩ := List.mem_iff_getElem.1 hx
  obtain ⟨j, hj, rfl⟩ := List.mem_iff_getElem.1 hy
  have hp := List.pairwise_iff_getElem.1 h.pairwise
  rcases Nat.lt_trichotomy i j with hlt | rfl | hlt
  · exact .inl (hp i j hi hj hlt)
  · exact absurd rfl hne
  · exact .inr (hp j i hj hi hlt)

theorem Cuts.eq_of_start {a b : Nat} {l : List α} (h : Cuts a b l) {x y : α} (hx : x ∈ l) (hy : y ∈ l)
    (hs : start x = start y) : x = y := by
  by_contra hne
  have h1 := h.bounds x hx
  have h2 := h.bounds y hy
  rcases h.apart hx hy hne with h3 | h3 <;> omega

theorem Cuts.eq_of_end {a b : Nat} {l : List α} (h : Cuts a b l) {x y : α} (hx : x ∈ l) (hy : y ∈ l)
    (he : start x + len x = start y + len y) : x = y := by
  by_contra hne
  have h1 := h.bounds x hx
  have h2 := h.bounds y hy
  rcases h.apart hx hy hne with h3 | h3 <;> omega

theorem Cuts.nodup {a b : Nat} {l : List α} (h : Cuts a b l) : (l.map start).Nodup := by
  rw [List.nodup_iff_pairwise_ne, List.pairwise_map]
  exact (h.pairwise.imp_of_mem fun {x y} hx _ hxy => by have := h.bounds x hx; omega)

theorem Cuts.eq_nil {a : Nat} : ∀ {l : List α}, Cuts a a l → l = []
  | [], _ => rfl
  | x :: l, ⟨_, h2, h3⟩ => by have := h3.le; omega

/-- **A piece may be replaced by a cut of it.** -/
theorem Cuts.splice {a b : Nat} {pre post mid : List α} {x : α} (h : Cuts a b (pre ++ x :: post))
    (hm : Cuts (start x) (start x + len x) mid) : Cuts a b (pre ++ mid ++ post) := by
  obtain ⟨c, h1, h2, -, h4⟩ := cuts_append.1 h
  rw [h2] at hm
  exact cuts_append.2 ⟨c + len x, cuts_append.2 ⟨c, h1, hm⟩, h4⟩

/-- **Around a stretch of a cut** the pieces cut what is left on each side. -/
theorem Cuts.around {a b c d : Nat} {pre mid post : List α} (h : Cuts a b (pre ++ mid ++ post)) (hm : Cuts c d mid)
    (hne : mid ≠ []) : Cuts a c pre ∧ Cuts d b post := by
  obtain ⟨d', hd, hpost⟩ := cuts_append.1 h
  obtain ⟨c', hpre, hmid⟩ := cuts_append.1 hd
  have hc : c' = c := by
    cases mid with
    | nil => exact absurd rfl hne
    | cons x mid => exact hmid.1.symm.trans hm.1
  subst hc
  obtain rfl := hmid.end_unique hm
  exact ⟨hpre, hpost⟩

/-- A stretch of a cut may be cut anew. -/
theorem Cuts.replace {a b c d : Nat} {pre mid mid' post : List α} (h : Cuts a b (pre ++ mid ++ post))
    (hm : Cuts c d mid) (hne : mid ≠ []) (hm' : Cuts c d mid') : Cuts a b (pre ++ mid' ++ post) := by
  obtain ⟨h1, h2⟩ := h.around hm hne
  exact cuts_append.2 ⟨d, cuts_append.2 ⟨c, h1, hm'⟩, h2⟩

theorem Cuts.split {a b : Nat} {pre post : List α} {x : α} (h : Cuts a b (pre ++ x :: post)) :
    Cuts a (start x) pre ∧ 0 < len x ∧ Cuts (start x + len x) b post := by
  obtain ⟨c, h1, rfl, h3, h4⟩ := cuts_append.1 h
  exact ⟨h1, h3, h4⟩

/-- **Two cuts of one interval are equal**, when two pieces with one start are. -/
theorem Cuts.unique : ∀ {a b : Nat} {l r : List α}, Cuts a b l → Cuts a b r →
    (∀ x ∈ l, ∀ y ∈ r, start x = start y → x = y) → l = r
  | _, _, [], [], _, _, _ => rfl
  | a, b, [], y :: r, h, ⟨_, h2, h3⟩, _ => by have := h3.le; simp only [cuts_nil] at h; omega
  | a, b, x :: l, [], ⟨_, h2, h3⟩, h, _ => by have := h3.le; simp only [cuts_nil] at h; omega
  | a, b, x :: l, y :: r, ⟨h1, _, h3⟩, ⟨g1, _, g3⟩, he => by
    obtain rfl := he x (by simp) y (by simp) (h1.trans g1.symm)
    rw [h3.unique g3 fun u hu v hv => he u (List.mem_cons_of_mem _ hu) v (List.mem_cons_of_mem _ hv)]

theorem Cuts.suffix : ∀ {c d b : Nat} {l post : List α}, Cuts c b l → Cuts d b post → c ≤ d →
    (∀ x ∈ post, x ∈ l) → ∃ mid, l = mid ++ post ∧ Cuts c d mid
  | c, d, b, [], post, h, hp, hcd, _ => by
    have hdb := hp.le
    simp only [cuts_nil] at h
    obtain rfl : d = b := by omega
    rw [hp.eq_nil]
    exact ⟨[], rfl, h⟩
  | c, d, b, y :: l, post, h, hp, hcd, hin => by
    obtain ⟨h1, h2, h3⟩ := h
    rcases Nat.lt_or_ge c d with hlt | hge
    · -- `y` lies before `d`, so none of `post` is `y`
      have hy : ∀ x ∈ post, x ≠ y := fun x hx he => by have := (hp.bounds x hx).1; subst he; omega
      have hin' : ∀ x ∈ post, x ∈ l := fun x hx => (List.mem_cons.1 (hin x hx)).resolve_left (hy x hx)
      have hle : c + len y ≤ d := by
        cases post with
        | nil => simp only [cuts_nil] at hp; have := h3.le; omega
        | cons q post => have := (h3.bounds q (hin' q (by simp))).1; have := hp.1; omega
      obtain ⟨mid, rfl, hm⟩ := h3.suffix hp hle hin'
      exact ⟨y :: mid, rfl, h1, h2, hm⟩
    · obtain rfl : c = d := by omega
      refine ⟨[], ?_, rfl⟩
      have hl : Cuts c b (y :: l) := ⟨h1, h2, h3⟩
      refine hl.unique hp fun u hu v hv huv => hl.eq_of_start hu (hin v hv) huv

/-- **A cut that keeps every piece but one cuts that one.** -/
theorem Cuts.middle : ∀ {a b : Nat} {pre post l : List α} {x : α}, Cuts a b (pre ++ x :: post) → Cuts a b l →
    (∀ y ∈ pre ++ post, y ∈ l) → ∃ mid, l = pre ++ mid ++ post ∧ Cuts (start x) (start x + len x) mid
  | a, b, [], post, l, x, ⟨h1, h2, h3⟩, hl, hin => by
    obtain ⟨mid, rfl, hm⟩ := hl.suffix h3 (by omega) fun y hy => hin y (by simpa using hy)
    exact ⟨mid, rfl, by rw [h1]; exact hm⟩
  | a, b, p :: pre, post, [], x, _, _, hin => absurd (hin p (by simp)) (by simp)
  | a, b, p :: pre, post, y :: l, x, ⟨h1, h2, h3⟩, hl, hin => by
    obtain rfl : p = y := hl.eq_of_start (hin p (by simp)) (by simp) (h1.trans hl.1.symm)
    have hne : ∀ z ∈ pre ++ post, z ≠ p := fun z hz he => by
      have hz' : z ∈ pre ++ x :: post := by simp only [List.mem_append, List.mem_cons] at hz ⊢; tauto
      have := (h3.bounds z hz').1
      subst he; omega
    obtain ⟨mid, rfl, hm⟩ := Cuts.middle h3 hl.2.2 fun z hz =>
      (List.mem_cons.1 (hin z (by simp only [List.cons_append, List.mem_cons]; exact .inr hz))).resolve_left (hne z hz)
    exact ⟨mid, rfl, hm⟩

theorem Cuts.cover : ∀ {a b : Nat} {l : List α}, Cuts a b l → ∀ n, a ≤ n → n < b →
    ∃ x ∈ l, start x ≤ n ∧ n < start x + len x
  | a, b, [], h, n, h1, h2 => by simp only [cuts_nil] at h; omega
  | a, b, x :: l, ⟨h1, h2, h3⟩, n, hn1, hn2 => by
    by_cases hx : n < a + len x
    · exact ⟨x, by simp, by omega, by omega⟩
    · obtain ⟨y, hy, hy1⟩ := h3.cover n (by omega) hn2
      exact ⟨y, by simp [hy], hy1⟩

/-- **Two cuts with the same solid pieces have the same gaps**, when neither has two gaps next to each other. -/
theorem Cuts.len_eq_of_gaps {a b : Nat} {l r : List α} {p : α → Prop} (hl : Cuts a b l) (hr : Cuts a b r)
    (hsl : ∀ x ∈ l, ∀ y ∈ l, ¬ p x → ¬ p y → start x + len x ≠ start y)
    (hsr : ∀ x ∈ r, ∀ y ∈ r, ¬ p x → ¬ p y → start x + len x ≠ start y)
    (hp : ∀ x, p x → (x ∈ l ↔ x ∈ r)) {x y : α} (hx : x ∈ l) (hy : y ∈ r) (hxy : start x = start y) :
    len x = len y := by
  -- a gap of one list that ends inside a gap of the other is followed by a solid piece of both
  have key : ∀ {l r : List α}, Cuts a b l → Cuts a b r →
      (∀ x ∈ l, ∀ y ∈ l, ¬ p x → ¬ p y → start x + len x ≠ start y) → (∀ x, p x → (x ∈ l ↔ x ∈ r)) →
      ∀ {x y : α}, x ∈ l → y ∈ r → start x = start y → ¬ p x → ¬ start x + len x < start y + len y := by
    intro l r hl hr hsl hp x y hx hy hxy hpx hlt
    have hxb := hl.bounds x hx
    have hyb := hr.bounds y hy
    obtain ⟨z, hz, hz1, hz2⟩ := hl.cover (start x + len x) (by omega) (by omega)
    have hzx := hl.apart hz hx fun h => by subst h; omega
    have hzs : start x + len x = start z := by omega
    have hzp : p z := by
      by_contra hzp
      exact hsl x hx z hz hpx hzp hzs
    have := hr.apart ((hp z hzp).1 hz) hy fun h => by subst h; omega
    omega
  by_cases hpx : p x
  · rw [hr.eq_of_start ((hp x hpx).1 hx) hy hxy]
  · by_cases hpy : p y
    · rw [hl.eq_of_start hx ((hp y hpy).2 hy) hxy]
    · have h1 := key hl hr hsl hp hx hy hxy hpx
      have h2 := key hr hl hsr (fun z hz => (hp z hz).symm) hy hx hxy.symm hpy
      omega

end Cut
