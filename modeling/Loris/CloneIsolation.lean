import Loris.CloneTable
/-!
# CloneIsolation — a clone shares no page of its own

`clone_directory` makes a table for each table of the source that is not the kernel's, and a frame for each of its
pages.  `SlotsCloned` carries the pages that were made (`NewPage`) through the loop over the slots: their frames were
clear, are marked, and no two are one, so that the copies that `copy_page_physical` makes of them do not disturb each
other (`clone_isolates`).  `Serves` is what is assumed of `kmalloc_ap`; at boot it holds of the placement address
(`serves_placement`).
-/
namespace Loris

open ByteMem

/-! ## Pages of the physical memory -/

/-- `copy_page_physical(c.1, c.2)` on the physical memory. -/
def copyPage (ram : Mem) (c : U32 × U32) : Mem := fun x =>
  if (x - c.2).toNat < 0x1000 then ram (c.1 + (x - c.2)) else ram x

/-- The copies in turn. -/
def copyPages (ram : Mem) (l : List (U32 × U32)) : Mem := l.foldl copyPage ram

/-- The page at `a` has no byte in the page at `b`. -/
def PageApart (a b : U32) : Prop := ∀ i, i < 0x1000 → 0x1000 ≤ (a + BitVec.ofNat 32 i - b).toNat

theorem copyPages_other {x : U32} : ∀ {l : List (U32 × U32)} (ram : Mem), (∀ c ∈ l, 0x1000 ≤ (x - c.2).toNat) →
    copyPages ram l x = ram x
  | [], _, _ => rfl
  | c :: l, ram, h => by
    show copyPages (copyPage ram c) l x = _
    rw [copyPages_other _ fun d hd => h d (List.mem_cons_of_mem c hd)]
    exact if_neg (Nat.not_lt.2 (h c List.mem_cons_self))

/-- **Each page is copied** when no copy writes over another one or over the source of one. -/
theorem copyPages_copied : ∀ {l : List (U32 × U32)} (ram : Mem), l.Pairwise (fun c d => PageApart c.2 d.2) →
    (∀ c ∈ l, ∀ d ∈ l, PageApart c.1 d.2) → ∀ c ∈ l, ∀ i, i < 0x1000 →
      copyPages ram l (c.2 + BitVec.ofNat 32 i) = ram (c.1 + BitVec.ofNat 32 i)
  | [], _, _, _ => fun c hc => absurd hc List.not_mem_nil
  | d :: l, ram, hp, hs => fun c hc i hi => by
    obtain ⟨hd, hp⟩ := List.pairwise_cons.1 hp
    show copyPages (copyPage ram d) l _ = _
    rcases List.mem_cons.1 hc with rfl | hc
    · rw [copyPages_other _ fun e he => hd e he i hi]
      unfold copyPage
      rw [add_sub_self, if_pos]
      rw [BitVec.toNat_ofNat]
      omega
    · rw [copyPages_copied _ hp
        (fun e he f hf => hs e (List.mem_cons_of_mem d he) f (List.mem_cons_of_mem d hf)) c hc i hi]
      exact if_neg (Nat.not_lt.2 (hs c (List.mem_cons_of_mem d hc) d List.mem_cons_self i hi))

/-- Where a frame starts. -/
def frameStart (f : BitVec 20) : U32 := f.setWidth 32 * 0x1000

theorem toNat_frameStart (f : BitVec 20) : (frameStart f).toNat = f.toNat * 0x1000 := by
  unfold frameStart
  rw [BitVec.toNat_mul, BitVec.toNat_setWidth, show (0x1000 : U32).toNat = 0x1000 from rfl]
  have := f.isLt
  omega

theorem pageApart_frames {f g : BitVec 20} (h : f ≠ g) : PageApart (frameStart f) (frameStart g) := fun i hi => by
  have hne : f.toNat ≠ g.toNat := fun he => h (BitVec.eq_of_toNat_eq he)
  have hf := toNat_frameStart f
  have hg := toNat_frameStart g
  have hf' := f.isLt
  have hg' := g.isLt
  rw [BitVec.toNat_sub, toNat_add_ofNat (by omega), hf, hg]
  omega

namespace Kernel

/-! ## What is assumed of `kmalloc_ap` -/

/-- The same kernel, the directories, the page tables and the bitmap apart. -/
def SameStorage (k k' : Kernel) : Prop :=
  k' = { k with directories := k'.directories, pageTables := k'.pageTables, frames := k'.frames }

/-- **`kmalloc_ap` gives private storage** at `p`, of the 8196 bytes that are cleared there: apart from the directories
`dirs` and the page tables `tables`, which it does not touch.  It marks at most `cost` frames and clears none. -/
structure Gives (alloc : Allocator) (cost : Nat) (size : U32) (dirs tables : List U32) (k : Kernel) (p : U32)
    (phys : Option U32) (k₁ : Kernel) : Prop where
  kmalloc : kmalloc alloc k size true = some (p, phys, k₁)
  nonnull : p ≠ 0
  fits : p.toNat + 8196 ≤ 2 ^ 32
  dirsApart : ∀ d ∈ dirs, Apart d.toNat 8196 p.toNat 8196
  tablesApart : ∀ t ∈ tables, Apart t.toNat 0x1000 p.toNat 8196
  directories : ∀ d ∈ dirs, k₁.directories d = k.directories d
  pages : ∀ t ∈ tables, ∀ l, l < 1024 → k₁.page ⟨t, l⟩ = k.page ⟨t, l⟩
  kernel_directory : k₁.kernel_directory = k.kernel_directory
  nframes : k₁.frames.nframes = k.frames.nframes
  marked : ∀ f, k.frames.bit f = true → k₁.frames.bit f = true
  frames : ∀ M, k.frames.freeBelow M ≤ k₁.frames.freeBelow M + cost

/-- `kmalloc_ap` gives `n` page tables in turn, whatever is done with directories, tables and frames in between. -/
def ServesTables (alloc : Allocator) (cost : Nat) (dirs : List U32) : Nat → List U32 → Kernel → Prop
  | 0, _, _ => True
  | n + 1, tables, k => ∀ k₂, SameStorage k k₂ →
    ∃ p phys k₁, Gives alloc cost sizeofPageTable dirs tables k₂ p phys k₁ ∧
      ServesTables alloc cost dirs n (p :: tables) (k₁.clear p 8196)

/-- `kmalloc_ap` gives a directory, and then a table for each of its slots. -/
def Serves (alloc : Allocator) (cost : Nat) (dirs tables : List U32) (k : Kernel) : Prop :=
  ∃ dir phys k₁, Gives alloc cost sizeofPageDirectory dirs tables k dir phys k₁ ∧
    ServesTables alloc cost (dir :: dirs) 1024 tables (k₁.clear dir 8196)

/-! ## The loop over the slots -/

/-- The slot `j` of `src` has a table that is not the kernel's. -/
def Own (k : Kernel) (src : U32) (j : Nat) : Prop :=
  (k.directories src).tables j ≠ 0 ∧ (k.directories k.kernel_directory).tables j ≠ (k.directories src).tables j

instance (k : Kernel) (src : U32) (j : Nat) : Decidable (k.Own src j) := inferInstanceAs (Decidable (_ ∧ _))

/-- The entry `l` of the table in the slot `j`. -/
def slotPage (k : Kernel) (src : U32) (j l : Nat) : Page := k.page ⟨(k.directories src).tables j, l⟩

/-- The frames that the `n` slots from `i` on may take. -/
def framesNeeded (cost : Nat) (k : Kernel) (src : U32) : Nat → Nat → Nat
  | 0, _ => 0
  | n + 1, i => (if k.Own src i then cost + k.pages ((k.directories src).tables i) 1024 0 else 0) +
      framesNeeded cost k src n (i + 1)

/-- A page that was made for the entry `entry` of the slot `slot`. -/
structure NewPage where
  slot : Nat
  entry : Nat
  frame : U32

variable {k k' k₁ k₂ : Kernel} {dir src table : U32} {dirs tables tables₂ : List U32} {M cost n i : Nat}

/-- **The clone, the source and the kernel's directory are in use**, and the clone is neither of the others. -/
structure Source (k : Kernel) (dir src : U32) (dirs tables : List U32) : Prop where
  clone : dir ∈ dirs
  self : src ∈ dirs ∧ src ≠ dir
  kernel : k.kernel_directory ∈ dirs ∧ k.kernel_directory ≠ dir
  used : ∀ j, j < 1024 → (k.directories src).tables j ≠ 0 → (k.directories src).tables j ∈ tables
  dirsFit : ∀ d ∈ dirs, d.toNat + 8196 ≤ 2 ^ 32
  tablesFit : ∀ t ∈ tables, t.toNat + 0x1000 ≤ 2 ^ 32

/-- **What the loop of `clone_directory` leaves** of `n` slots from `i` on: `tab j` is the table that the slot `j` got,
and `new` the pages. -/
structure SlotsCloned (M : Nat) (dirs tables : List U32) (dir src : U32) (n i : Nat) (k k' : Kernel) (tab : Nat → U32)
    (new : List NewPage) : Prop where
  kernel_directory : k'.kernel_directory = k.kernel_directory
  nframes : k'.frames.nframes = k.frames.nframes
  marked : ∀ f, k.frames.bit f = true → k'.frames.bit f = true
  directories : ∀ d ∈ dirs, d ≠ dir → k'.directories d = k.directories d
  pages : ∀ t ∈ tables, ∀ l, l < 1024 → k'.page ⟨t, l⟩ = k.page ⟨t, l⟩
  kept : ∀ j, ¬ (i ≤ j ∧ j < i + n ∧ (k.directories src).tables j ≠ 0) →
    (k'.directories dir).tables j = (k.directories dir).tables j
  shared : ∀ j, i ≤ j → j < i + n → (k.directories src).tables j ≠ 0 → ¬ k.Own src j →
    (k'.directories dir).tables j = (k.directories src).tables j
  own : ∀ j, i ≤ j → j < i + n → k.Own src j → (k'.directories dir).tables j = tab j ∧ tab j ≠ 0 ∧
    ∀ t ∈ tables, Apart t.toNat 0x1000 (tab j).toNat 0x1000
  tabs : ∀ j l, i ≤ j → j < l → l < i + n → k.Own src j → k.Own src l → Apart (tab j).toNat 0x1000 (tab l).toNat 0x1000
  empty : ∀ j l, i ≤ j → j < i + n → k.Own src j → l < 1024 → (k.slotPage src j l).frame = 0 →
    k'.page ⟨tab j, l⟩ = Page.zero
  made : ∀ j l, (∃ f, ⟨j, l, f⟩ ∈ new) ↔
    (i ≤ j ∧ j < i + n) ∧ k.Own src j ∧ l < 1024 ∧ (k.slotPage src j l).frame ≠ 0
  entry : ∀ c ∈ new, k'.page ⟨tab c.slot, c.entry⟩ = cloneOf (k.slotPage src c.slot c.entry) (c.frame.setWidth 20)
  free : ∀ c ∈ new, c.frame.toNat < M ∧ k.frames.bit c.frame.toNat = false ∧ k'.frames.bit c.frame.toNat = true
  distinct : new.Pairwise fun c d => (c.slot = d.slot → c.entry ≠ d.entry) ∧ c.frame ≠ d.frame

/-- The source reads the same. -/
structure SameSource (k k' : Kernel) (src : U32) : Prop where
  self : k'.directories src = k.directories src
  kernel : k'.directories k'.kernel_directory = k.directories k.kernel_directory
  pages : ∀ j l, j < 1024 → l < 1024 → (k.directories src).tables j ≠ 0 → k'.slotPage src j l = k.slotPage src j l

theorem SameSource.own (h : SameSource k k' src) (j : Nat) : k'.Own src j ↔ k.Own src j := by
  unfold Own
  rw [h.self, h.kernel]

theorem SlotsCloned.sameSource {tab : Nat → U32} {new : List NewPage}
    (h : SlotsCloned M dirs tables dir src n i k k' tab new)
    (hs : Source k dir src dirs tables) : SameSource k k' src where
  self := h.directories src hs.self.1 hs.self.2
  kernel := by rw [h.kernel_directory, h.directories _ hs.kernel.1 hs.kernel.2]
  pages j l hj hl h0 := by
    unfold slotPage
    rw [h.directories src hs.self.1 hs.self.2]
    exact h.pages _ (hs.used j hj h0) l hl

theorem SlotsCloned.made_of_mem {tab : Nat → U32} {new : List NewPage} {c : NewPage}
    (h : SlotsCloned M dirs tables dir src n i k k' tab new) (hc : c ∈ new) : (i ≤ c.slot ∧ c.slot < i + n) ∧
      k.Own src c.slot ∧ c.entry < 1024 ∧ (k.slotPage src c.slot c.entry).frame ≠ 0 :=
  (h.made c.slot c.entry).1 ⟨c.frame, hc⟩

/-- The pages of a slot and of the slots behind it. -/
theorem SlotsCloned.made_append {tab : Nat → U32} {new₁ new₂ : List NewPage} (hs : Source k dir src dirs tables)
    (hin : i + (n + 1) ≤ 1024) (h₁ : SlotsCloned M dirs tables dir src 1 i k k₂ tab new₁)
    (h₂ : SlotsCloned M dirs tables₂ dir src n (i + 1) k₂ k' tab new₂) (j l : Nat) :
    (∃ f, ⟨j, l, f⟩ ∈ new₁ ++ new₂) ↔
      (i ≤ j ∧ j < i + (n + 1)) ∧ k.Own src j ∧ l < 1024 ∧ (k.slotPage src j l).frame ≠ 0 := by
  have hss := h₁.sameSource hs
  constructor
  · rintro ⟨f, hf⟩
    rcases List.mem_append.1 hf with hf | hf
    · obtain ⟨⟨hlo, hhi⟩, hrest⟩ := h₁.made_of_mem hf
      exact ⟨⟨hlo, Nat.lt_of_lt_of_le hhi (by omega)⟩, hrest⟩
    · obtain ⟨⟨hlo, hhi⟩, ho, hl, h0⟩ := h₂.made_of_mem hf
      have ho' := (hss.own j).1 ho
      rw [hss.pages j l (Nat.lt_of_lt_of_le hhi (by omega)) hl ho'.1] at h0
      exact ⟨⟨Nat.le_of_succ_le hlo, Nat.lt_of_lt_of_le hhi (by omega)⟩, ho', hl, h0⟩
  · rintro ⟨⟨hlo, hhi⟩, ho, hl, h0⟩
    by_cases hji : j = i
    · obtain ⟨f, hf⟩ := (h₁.made j l).2 ⟨⟨hlo, by omega⟩, ho, hl, h0⟩
      exact ⟨f, List.mem_append_left _ hf⟩
    · rw [← hss.pages j l (by omega) hl ho.1] at h0
      obtain ⟨f, hf⟩ := (h₂.made j l).2 ⟨⟨by omega, by omega⟩, (hss.own j).2 ho, hl, h0⟩
      exact ⟨f, List.mem_append_right _ hf⟩

/-- **A slot, and the slots behind it.** -/
theorem SlotsCloned.cons {tab : Nat → U32} {new₁ new₂ : List NewPage} (hs : Source k dir src dirs tables)
    (hin : i + (n + 1) ≤ 1024) (h₁ : SlotsCloned M dirs tables dir src 1 i k k₂ tab new₁)
    (h₂ : SlotsCloned M dirs tables₂ dir src n (i + 1) k₂ k' tab new₂) (hsub : ∀ t ∈ tables, t ∈ tables₂)
    (htab : k.Own src i → tab i ∈ tables₂) : SlotsCloned M dirs tables dir src (n + 1) i k k' tab (new₁ ++ new₂) := by
  have hss := h₁.sameSource hs
  have hpage : ∀ j l, j < 1024 → l < 1024 → k.Own src j → k₂.slotPage src j l = k.slotPage src j l :=
    fun j l hj hl ho => hss.pages j l hj hl ho.1
  exact {
    kernel_directory := h₂.kernel_directory.trans h₁.kernel_directory
    nframes := h₂.nframes.trans h₁.nframes
    marked := fun f hf => h₂.marked f (h₁.marked f hf)
    directories := fun d hd hne => (h₂.directories d hd hne).trans (h₁.directories d hd hne)
    pages := fun t ht l hl => (h₂.pages t (hsub t ht) l hl).trans (h₁.pages t ht l hl)
    kept := fun j hj => by
      rw [h₂.kept j fun hc => hj ⟨by omega, by omega, by rw [← hss.self]; exact hc.2.2⟩,
        h₁.kept j fun hc => hj ⟨by omega, by omega, hc.2.2⟩]
    shared := fun j hlo hhi h0 ho => by
      by_cases hji : j = i
      · rw [h₂.kept j fun hc => by omega, h₁.shared j hlo (by omega) h0 ho]
      · rw [h₂.shared j (by omega) (by omega) (by rwa [hss.self]) (fun hc => ho ((hss.own j).1 hc)), hss.self]
    own := fun j hlo hhi ho => by
      by_cases hji : j = i
      · rw [h₂.kept j fun hc => by omega]
        exact h₁.own j hlo (by omega) ho
      · obtain ⟨ht, h0, hap⟩ := h₂.own j (by omega) (by omega) ((hss.own j).2 ho)
        exact ⟨ht, h0, fun t hm => hap t (hsub t hm)⟩
    tabs := fun j l hlo hjl hhi hj hl => by
      have hl₂ := (hss.own l).2 hl
      by_cases hji : j = i
      · subst hji
        exact (h₂.own l (by omega) (by omega) hl₂).2.2 _ (htab hj)
      · exact h₂.tabs j l (by omega) hjl (by omega) ((hss.own j).2 hj) hl₂
    empty := fun j l hlo hhi ho hl h0 => by
      by_cases hji : j = i
      · subst hji
        rw [h₂.pages _ (htab ho) l hl]
        exact h₁.empty j l (Nat.le_refl j) (by omega) ho hl h0
      · exact h₂.empty j l (by omega) (by omega) ((hss.own j).2 ho) hl (by rwa [hpage j l (by omega) hl ho])
    made := SlotsCloned.made_append hs hin h₁ h₂
    entry := fun c hc => by
      rcases List.mem_append.1 hc with hc | hc
      · obtain ⟨⟨hlo, hhi⟩, ho, hl, -⟩ := h₁.made_of_mem hc
        have hci : c.slot = i := by omega
        rw [h₂.pages _ (by rw [hci] at ho ⊢; exact htab ho) _ hl, h₁.entry c hc]
      · obtain ⟨⟨hlo, hhi⟩, ho, hl, -⟩ := h₂.made_of_mem hc
        rw [h₂.entry c hc, hpage _ _ (by omega) hl ((hss.own _).1 ho)]
    free := fun c hc => by
      rcases List.mem_append.1 hc with hc | hc
      · obtain ⟨hlt, hfree, hmark⟩ := h₁.free c hc
        exact ⟨hlt, hfree, h₂.marked _ hmark⟩
      · obtain ⟨hlt, hfree, hmark⟩ := h₂.free c hc
        refine ⟨hlt, Bool.eq_false_iff.2 fun hb => ?_, hmark⟩
        rw [h₁.marked _ hb] at hfree
        cases hfree
    distinct := by
      refine List.pairwise_append.2 ⟨h₁.distinct, h₂.distinct, fun c hc d hd => ⟨fun he => ?_, fun he => ?_⟩⟩
      · have h1 := (h₁.made_of_mem hc).1
        have h2 := (h₂.made_of_mem hd).1
        omega
      · -- the frame of a page of the slot is marked by the time that the others get theirs
        have h1 := (h₁.free c hc).2.2
        rw [he, (h₂.free d hd).2.1] at h1
        cases h1 }

theorem SlotsCloned.nil (M : Nat) (dirs tables : List U32) (dir src : U32) (i : Nat) (k : Kernel) (tab : Nat → U32) :
    SlotsCloned M dirs tables dir src 0 i k k tab [] where
  kernel_directory := rfl
  nframes := rfl
  marked _ hf := hf
  directories _ _ _ := rfl
  pages _ _ _ _ := rfl
  kept _ _ := rfl
  shared j hlo hhi := by omega
  own j hlo hhi := by omega
  tabs j l hlo hjl hhi := by omega
  empty j l hlo hhi := by omega
  made j l := ⟨fun ⟨_, hf⟩ => absurd hf List.not_mem_nil, fun h => by omega⟩
  entry c hc := absurd hc List.not_mem_nil
  free c hc := absurd hc List.not_mem_nil
  distinct := List.Pairwise.nil

theorem SlotsCloned.unmade (tab : Nat → U32) (hno : ¬ k.Own src i) (hf : k₂.frames = k.frames)
    (hp : k₂.pageTables = k.pageTables) (hk : k₂.kernel_directory = k.kernel_directory)
    (hd : ∀ d, d ≠ dir → k₂.directories d = k.directories d) (hslot : ∀ j, (k₂.directories dir).tables j =
      if j = i ∧ (k.directories src).tables i ≠ 0 then (k.directories src).tables i else (k.directories dir).tables j) :
    SlotsCloned M dirs tables dir src 1 i k k₂ tab [] where
  kernel_directory := hk
  nframes := by rw [hf]
  marked f hb := by rwa [hf]
  directories d _ hne := hd d hne
  pages t _ l _ := by
    unfold page
    rw [hp]
  kept j hj := by
    rw [hslot, if_neg]
    rintro ⟨rfl, h0⟩
    exact hj ⟨Nat.le_refl j, Nat.lt_succ_self j, h0⟩
  shared j hlo hhi h0 _ := by
    obtain rfl : j = i := by omega
    rw [hslot, if_pos ⟨rfl, h0⟩]
  own j hlo hhi ho := by
    obtain rfl : j = i := by omega
    exact absurd ho hno
  tabs j l hlo hjl hhi := by omega
  empty j l hlo hhi ho := by
    obtain rfl : j = i := by omega
    exact absurd ho hno
  made j l := by
    refine ⟨fun ⟨_, hf⟩ => absurd hf List.not_mem_nil, fun ⟨⟨hlo, hhi⟩, ho, _⟩ => ?_⟩
    obtain rfl : j = i := by omega
    exact absurd ho hno
  entry c hc := absurd hc List.not_mem_nil
  free c hc := absurd hc List.not_mem_nil
  distinct := List.Pairwise.nil

/-- The pages that the slot `i` gets. -/
def newPages (k : Kernel) (t : U32) (i : Nat) (idx : Nat → U32) : List NewPage :=
  ((List.range' 0 1024).filter fun l => k.Holds t l).map fun l => ⟨i, l, idx l⟩

theorem mem_newPages {t : U32} {idx : Nat → U32} {c : NewPage} : c ∈ newPages k t i idx ↔
    c.slot = i ∧ c.entry < 1024 ∧ k.Holds t c.entry ∧ c.frame = idx c.entry := by
  unfold newPages
  rw [List.mem_map]
  constructor
  · rintro ⟨l, hl, rfl⟩
    obtain ⟨hr, hh⟩ := List.mem_filter.1 hl
    exact ⟨rfl, by have := List.mem_range'_1.1 hr; simp only; omega, of_decide_eq_true hh, rfl⟩
  · rintro ⟨hs, hl, hh, hf⟩
    refine ⟨c.entry, List.mem_filter.2 ⟨List.mem_range'_1.2 ⟨Nat.zero_le _, by omega⟩, decide_eq_true hh⟩, ?_⟩
    rw [← hs, ← hf]

/-- No two of them are one entry, or have one frame. -/
theorem newPages_distinct {t : U32} {idx : Nat → U32} (hM : M ≤ 2 ^ 20) (hc : EntriesCloned M table t 1024 0 k₁ k' idx)
    (hheld : ∀ l, l < 1024 → (k₁.Holds t l ↔ k.Holds t l)) :
    (newPages k t i idx).Pairwise fun c d => (c.slot = d.slot → c.entry ≠ d.entry) ∧ c.frame ≠ d.frame := by
  unfold newPages
  refine List.pairwise_map.2 (List.Pairwise.imp_of_mem ?_ (List.Pairwise.filter _ (List.pairwise_lt_range' ..)))
  intro l y hl hy hly
  obtain ⟨hlr, hlh⟩ := List.mem_filter.1 hl
  obtain ⟨hyr, hyh⟩ := List.mem_filter.1 hy
  have hy' := (List.mem_range'_1.1 hyr).2
  exact ⟨fun _ => Nat.ne_of_lt hly, hc.distinct hM l y (Nat.zero_le _) hly (by omega)
    ((hheld l (by omega)).2 (of_decide_eq_true hlh)) ((hheld y (by omega)).2 (of_decide_eq_true hyh))⟩

theorem Gives.tables_ne {alloc : Allocator} {size : U32} {phys : Option U32}
    (h : Gives alloc cost size dirs tables k table phys k₁) {t : U32} (ht : t ∈ tables) : t ≠ table := fun he => by
  have := h.tablesApart t ht
  rw [he] at this
  unfold Apart at this
  omega

theorem Gives.clear {alloc : Allocator} {size : U32} {phys : Option U32}
    (h : Gives alloc cost size dirs tables k table phys k₁) (hs : Source k dir src dirs tables) :
    (∀ d ∈ dirs, (k₁.clear table 8196).directories d = k.directories d) ∧
      ∀ t ∈ tables, ∀ l, l < 1024 → (k₁.clear table 8196).page ⟨t, l⟩ = k.page ⟨t, l⟩ := by
  refine ⟨fun d hd => ?_, fun t ht l hl => ?_⟩
  · rw [clear_directory h.fits (hs.dirsFit d hd) (h.dirsApart d hd), h.directories d hd]
  · rw [clear_page h.fits (hs.tablesFit t ht) (h.tablesApart t ht), h.pages t ht l hl]

/-- **A slot that gets a table of its own.** -/
theorem SlotsCloned.withTable {alloc : Allocator} {phys : Option U32} {tab : Nat → U32} {idx : Nat → U32} {x : U32}
    (hs : Source k dir src dirs tables) (hM : M ≤ 2 ^ 20) (hi : i < 1024) (hown : k.Own src i) (ht : tab i = table)
    (hg : Gives alloc cost sizeofPageTable dirs tables k table phys k₁)
    (hc : EntriesCloned M table ((k.directories src).tables i) 1024 0 (k₁.clear table 8196) k' idx) :
    SlotsCloned M dirs tables dir src 1 i k (k'.setSlot dir i table x) tab
      (newPages k ((k.directories src).tables i) i idx) := by
  obtain ⟨t, hsource⟩ : ∃ t, (k.directories src).tables i = t := ⟨_, rfl⟩
  have htables : t ∈ tables := hsource ▸ hs.used i hi hown.1
  rw [hsource] at hc ⊢
  obtain ⟨hdirs, hpages⟩ := hg.clear hs
  have hsame := hc.same
  unfold SameButPages at hsame
  have hkd : k'.directories = (k₁.clear table 8196).directories := by rw [hsame]
  have hheld : ∀ l, l < 1024 → ((k₁.clear table 8196).Holds t l ↔ k.Holds t l) := fun l hl => by
    unfold Holds
    rw [hpages t htables l hl]
  have hpage : ∀ l, k.slotPage src i l = k.page ⟨t, l⟩ := fun l => by
    unfold slotPage
    rw [hsource]
  have hslot : ∀ j, ((k'.setSlot dir i table x).directories dir).tables j =
      if j = i then table else (k.directories dir).tables j := fun j => by
    unfold setSlot
    rw [setDirectory_self]
    simp only
    rw [hkd, hdirs dir hs.clone]
  have hapart : ∀ y ∈ tables, Apart y.toNat 0x1000 table.toNat 0x1000 := fun y hy => by
    have := hg.tablesApart y hy
    unfold Apart at this ⊢
    omega
  have hrange : ∀ {j : Nat}, i ≤ j → j < i + 1 → j = i := fun hlo hhi => by omega
  exact {
    kernel_directory := by
      show k'.kernel_directory = _
      rw [hsame]
      exact hg.kernel_directory
    nframes := hc.nframes.trans hg.nframes
    marked := fun f hf => (hc.bits f).2 (Or.inl (hg.marked f hf))
    directories := fun d hd hne => by
      refine (setDirectory_other _ _ hne).trans ?_
      rw [hkd, hdirs d hd]
    pages := fun y hy l hl => (hc.other ⟨y, l⟩ fun hq => hg.tables_ne hy hq.1).trans (hpages y hy l hl)
    kept := fun j hj => by
      rw [hslot, if_neg]
      rintro rfl
      exact hj ⟨Nat.le_refl j, Nat.lt_succ_self j, hown.1⟩
    shared := fun j hlo hhi h0 ho => by
      rw [hrange hlo hhi] at ho
      exact absurd hown ho
    own := fun j hlo hhi ho => by
      obtain rfl := hrange hlo hhi
      rw [hslot, if_pos rfl, ht]
      exact ⟨rfl, hg.nonnull, hapart⟩
    tabs := fun j l hlo hjl hhi => by omega
    empty := fun j l hlo hhi ho hl h0 => by
      obtain rfl := hrange hlo hhi
      rw [ht]
      refine (hc.other ⟨table, l⟩ fun hq => ?_).trans ?_
      · rw [hpage] at h0
        exact (hheld l hl).1 hq.2.2.2 h0
      · rw [page_clear hl, if_pos (cleared_self hl)]
    made := fun j l => by
      constructor
      · rintro ⟨f, hf⟩
        obtain ⟨rfl, hl, hh, -⟩ := mem_newPages.1 hf
        exact ⟨⟨Nat.le_refl _, Nat.lt_succ_self _⟩, hown, hl, by rw [hpage]; exact hh⟩
      · rintro ⟨⟨hlo, hhi⟩, ho, hl, h0⟩
        obtain rfl := hrange hlo hhi
        rw [hpage] at h0
        exact ⟨idx l, mem_newPages.2 ⟨rfl, hl, h0, rfl⟩⟩
    entry := fun c hcm => by
      obtain ⟨hsl, hl, hh, hf⟩ := mem_newPages.1 hcm
      rw [hsl, ht, hf, hpage, ← hpages t htables _ hl]
      exact hc.entry _ (Nat.zero_le _) (by omega) ((hheld _ hl).2 hh)
    free := fun c hcm => by
      obtain ⟨hsl, hl, hh, hf⟩ := mem_newPages.1 hcm
      have hh' := (hheld _ hl).2 hh
      obtain ⟨hlt, hbit⟩ := hc.free _ (Nat.zero_le _) (by omega) hh'
      rw [hf]
      refine ⟨hlt, Bool.eq_false_iff.2 fun hb => ?_, (hc.bits _).2 (Or.inr ⟨c.entry, Nat.zero_le _, by omega, hh', ?_⟩)⟩
      · have := hg.marked _ hb
        rw [show k₁.frames.bit _ = (k₁.clear table 8196).frames.bit _ from rfl, hbit] at this
        cases this
      · rw [toNat_frame (Nat.lt_of_lt_of_le hlt hM)]
    distinct := newPages_distinct hM hc hheld }

theorem SlotsCloned.congr_tab {tab tab' : Nat → U32} {new : List NewPage}
    (h : SlotsCloned M dirs tables dir src n i k k' tab new) (ht : ∀ j, i ≤ j → j < i + n → tab' j = tab j) :
    SlotsCloned M dirs tables dir src n i k k' tab' new :=
  { h with
    own := fun j hlo hhi ho => by
      rw [ht j hlo hhi]
      exact h.own j hlo hhi ho
    tabs := fun j l hlo hjl hhi hj hl => by
      rw [ht j hlo (by omega), ht l (by omega) hhi]
      exact h.tabs j l hlo hjl hhi hj hl
    empty := fun j l hlo hhi ho hl h0 => by
      rw [ht j hlo hhi]
      exact h.empty j l hlo hhi ho hl h0
    entry := fun c hc => by
      have hr := (h.made_of_mem hc).1
      rw [ht _ hr.1 hr.2]
      exact h.entry c hc }

/-- The copies of the pages. -/
def copiesFor (k : Kernel) (src : U32) (new : List NewPage) : List (U32 × U32) :=
  new.map fun c => (frameAddress (k.slotPage src c.slot c.entry), frameStart (c.frame.setWidth 20))

theorem SlotsCloned.copies_congr {tab : Nat → U32} {new : List NewPage} (hin : i + n ≤ 1024)
    (h : SlotsCloned M dirs tables dir src n i k₂ k' tab new) (hs : SameSource k k₂ src) :
    copiesFor k₂ src new = copiesFor k src new :=
  List.map_congr_left fun c hc => by
    obtain ⟨hr, ho, hl, -⟩ := h.made_of_mem hc
    rw [hs.pages _ _ (by omega) hl ((hs.own _).1 ho).1]

theorem copiesOf_slot {t : U32} {idx : Nat → U32} (ht : (k.directories src).tables i = t)
    (hp : ∀ l, l < 1024 → k'.page ⟨t, l⟩ = k.page ⟨t, l⟩)
    (he : ∀ l, l < 1024 → k.Holds t l → (k'.page ⟨table, l⟩).frame = (idx l).setWidth 20) :
    copiesOf table t k' (List.range' 0 1024) = copiesFor k src (newPages k t i idx) := by
  unfold copiesOf copiesFor newPages
  have hfilter : (List.range' 0 1024).filter (fun l => decide (k'.Holds t l)) =
      (List.range' 0 1024).filter fun l => decide (k.Holds t l) := List.filter_congr fun l hl => by
    have := (List.mem_range'_1.1 hl).2
    refine decide_eq_decide.2 ?_
    unfold Holds
    rw [hp l (by omega)]
  rw [hfilter, List.map_map]
  refine List.map_congr_left fun l hl => ?_
  obtain ⟨hr, hh⟩ := List.mem_filter.1 hl
  have := (List.mem_range'_1.1 hr).2
  show (_, _) = (frameAddress (k.slotPage src i l), frameStart ((idx l).setWidth 20))
  unfold slotPage
  rw [ht, hp l (by omega), ← he l (by omega) (of_decide_eq_true hh)]
  rfl

theorem framesNeeded_congr (hs : SameSource k k₂ src) : ∀ {n i : Nat}, i + n ≤ 1024 →
    framesNeeded cost k₂ src n i = framesNeeded cost k src n i
  | 0, _, _ => rfl
  | n + 1, i, hin => by
    unfold framesNeeded
    rw [framesNeeded_congr hs (by omega)]
    by_cases ho : k.Own src i
    · have hp : k₂.pages ((k.directories src).tables i) 1024 0 = k.pages ((k.directories src).tables i) 1024 0 :=
        pages_congr fun l _ hl => by
          have := hs.pages i l (by omega) (by omega) ho.1
          unfold slotPage at this
          rwa [hs.self] at this
      rw [if_pos ho, if_pos ((hs.own i).2 ho), hs.self, hp]
    · rw [if_neg ho, if_neg fun h => ho ((hs.own i).1 h)]

theorem SameStorage.trans {k₃ : Kernel} (h : SameStorage k k₂) (h' : SameStorage k₂ k₃) : SameStorage k k₃ := by
  unfold SameStorage at *
  rw [h', h]

theorem ServesTables.same {alloc : Allocator} (h : ServesTables alloc cost dirs n tables k) (hk : SameStorage k k₂) :
    ServesTables alloc cost dirs n tables k₂ := by
  cases n with
  | zero => trivial
  | succ n => exact fun k₃ hk₃ => h k₃ (hk.trans hk₃)

theorem ServesTables.fewer {alloc : Allocator} : ∀ {n : Nat} {tables : List U32} {k : Kernel},
    ServesTables alloc cost dirs (n + 1) tables k → ServesTables alloc cost dirs n tables k
  | 0, _, _, _ => trivial
  | _ + 1, _, _, h => fun k₂ hk => by
    obtain ⟨p, phys, k₁, hg, hrest⟩ := h k₂ hk
    exact ⟨p, phys, k₁, hg, hrest.fewer⟩

theorem Source.next (hs : Source k dir src dirs tables) (hss : SameSource k k₂ src)
    (hk : k₂.kernel_directory = k.kernel_directory) (hsub : ∀ t ∈ tables, t ∈ tables₂)
    (hfit : ∀ t ∈ tables₂, t.toNat + 0x1000 ≤ 2 ^ 32) : Source k₂ dir src dirs tables₂ where
  clone := hs.clone
  self := hs.self
  kernel := by
    rw [hk]
    exact hs.kernel
  used j hj h0 := by
    rw [hss.self] at h0 ⊢
    exact hsub _ (hs.used j hj h0)
  dirsFit := hs.dirsFit
  tablesFit := hfit

theorem cloneSlots_unmade (alloc : Allocator) (n : Nat) (ho : ¬ k.Own src i) :
    ∃ k₂, SameStorage k k₂ ∧ k₂.frames = k.frames ∧
      (∀ tab, SlotsCloned M dirs tables dir src 1 i k k₂ tab []) ∧
      cloneSlots alloc dir src (n + 1) i k = cloneSlots alloc dir src n (i + 1) k₂ := by
  by_cases h0 : (k.directories src).tables i = 0
  · refine ⟨k, rfl, rfl, fun tab => .unmade tab ho rfl rfl rfl (fun _ _ => rfl) fun j => ?_, ?_⟩
    · rw [if_neg fun hj => hj.2 h0]
    · rw [cloneSlots]
      simp only [if_pos h0]
  · have hker : (k.directories k.kernel_directory).tables i = (k.directories src).tables i := by
      by_contra hne
      exact ho ⟨h0, hne⟩
    refine ⟨k.setSlot dir i ((k.directories src).tables i) ((k.directories src).tablesPhysical i), rfl, rfl,
      fun tab => .unmade tab ho rfl rfl rfl (fun d hne => setDirectory_other _ _ hne) fun j => ?_, ?_⟩
    · unfold setSlot
      rw [setDirectory_self]
      simp only [h0, ne_eq, not_false_eq_true, and_true]
    · rw [cloneSlots]
      simp only [if_neg h0, if_pos hker]

theorem cloneSlots_own {alloc : Allocator} (hM : M ≤ 2 ^ 20) (hin : i < 1024) (hs : Source k dir src dirs tables)
    (hserve : ServesTables alloc cost dirs (n + 1) tables k) (hsc : M ≤ k.frames.scanned) (ho : k.Own src i)
    (henough : cost + k.pages ((k.directories src).tables i) 1024 0 ≤ k.frames.freeBelow M) :
    ∃ k₂ table new, Source k₂ dir src dirs (table :: tables) ∧ ServesTables alloc cost dirs n (table :: tables) k₂ ∧
      k.frames.freeBelow M ≤ k₂.frames.freeBelow M + (cost + k.pages ((k.directories src).tables i) 1024 0) ∧
      (∀ tab : Nat → U32, tab i = table → SlotsCloned M dirs tables dir src 1 i k k₂ tab new) ∧
      cloneSlots alloc dir src (n + 1) i k =
        (cloneSlots alloc dir src n (i + 1) k₂).map fun r => (copiesFor k src new ++ r.1, r.2) := by
  obtain ⟨t, hsource⟩ : ∃ t, (k.directories src).tables i = t := ⟨_, rfl⟩
  have ht : t ∈ tables := hsource ▸ hs.used i hin ho.1
  obtain ⟨table, phys, k₁, hg, hrest⟩ := hserve k rfl
  have hpages : k₁.pages t 1024 0 = k.pages t 1024 0 := pages_congr fun l _ hl => hg.pages t ht l (by omega)
  have hfew := hg.frames M
  rw [hsource] at henough
  have hsc₁ : M ≤ k₁.frames.scanned := by
    unfold Frames.scanned at hsc ⊢
    rwa [hg.nframes]
  obtain ⟨k', idx, hc, hrun⟩ := cloneTable_spec hg.kmalloc (hg.tables_ne ht) hsc₁ (by omega)
  obtain ⟨hdirs, hkeep⟩ := hg.clear hs
  have hslot := fun (tab : Nat → U32) (htab : tab i = table) =>
    SlotsCloned.withTable (x := phys.getD k'.uninit ||| 0x7) hs hM hin ho htab hg (hsource.symm ▸ hc)
  have hone := hslot (fun _ => table) rfl
  have hss := hone.sameSource hs
  have hsame := hc.same
  unfold SameButPages at hsame
  refine ⟨k'.setSlot dir i table (phys.getD k'.uninit ||| 0x7), table, _, hs.next hss hone.kernel_directory
    (fun y hy => List.mem_cons_of_mem _ hy) (fun y hy => ?_), ServesTables.same hrest ?_, ?_, hslot, ?_⟩
  · rcases List.mem_cons.1 hy with rfl | hy
    · have := hg.fits
      omega
    · exact hs.tablesFit y hy
  · unfold SameStorage setSlot setDirectory
    rw [hsame]
  · have henough₁ := hc.enough
    have hle : (k₁.clear table 8196).pages t 1024 0 ≤ k₁.pages t 1024 0 := pages_clear_le
    rw [hsource]
    show _ ≤ k'.frames.freeBelow M + _
    have hfr : (k₁.clear table 8196).frames = k₁.frames := rfl
    rw [hfr] at henough₁
    omega
  · have hcopies : copiesOf table t k' (List.range' 0 1024) = copiesFor k src (newPages k t i idx) := by
      have hpage : ∀ l, l < 1024 → (k₁.clear table 8196).page ⟨t, l⟩ = k.page ⟨t, l⟩ := hkeep t ht
      refine copiesOf_slot hsource (fun l hl => (hc.source (hg.tables_ne ht) l).trans (hpage l hl)) fun l hl hh => ?_
      rw [hc.entry l (Nat.zero_le l) (by omega) (by unfold Holds; rw [hpage l hl]; exact hh)]
      rfl
    obtain ⟨h0, hker⟩ := ho
    rw [hsource] at h0 hker ⊢
    rw [cloneSlots]
    simp only [hsource, if_neg h0, if_neg hker, hrun, Option.bind_some, hcopies]

/-- **The loop of `clone_directory`**, while frames are free for what it makes. -/
theorem cloneSlots_spec {alloc : Allocator} (hM : M ≤ 2 ^ 20) : ∀ {n i : Nat} {tables : List U32} {k : Kernel},
    i + n = 1024 → Source k dir src dirs tables → ServesTables alloc cost dirs n tables k → M ≤ k.frames.scanned →
    framesNeeded cost k src n i ≤ k.frames.freeBelow M →
    ∃ k' tab new, SlotsCloned M dirs tables dir src n i k k' tab new ∧
      cloneSlots alloc dir src n i k = some (copiesFor k src new, k')
  | 0, i, tables, k, _, _, _, _, _ => ⟨k, fun _ => 0, [], .nil M dirs tables dir src i k _, rfl⟩
  | n + 1, i, tables, k, hin, hs, hserve, hsc, henough => by
    unfold framesNeeded at henough
    by_cases ho : k.Own src i
    · rw [if_pos ho] at henough
      obtain ⟨k₂, table, new₁, hs₂, hserve₂, hfew, hslot, hrun⟩ :=
        cloneSlots_own hM (by omega) hs hserve hsc ho (by omega)
      have hone := hslot (fun _ => table) rfl
      have hss := hone.sameSource hs
      have hsc₂ : M ≤ k₂.frames.scanned := by
        unfold Frames.scanned at hsc ⊢
        rwa [hone.nframes]
      obtain ⟨k', tab, new₂, hc, hrun'⟩ := cloneSlots_spec (i := i + 1) hM (by omega) hs₂ hserve₂ hsc₂
        (by rw [framesNeeded_congr hss (by omega)]; omega)
      refine ⟨k', fun j => if j = i then table else tab j, new₁ ++ new₂, .cons hs (by omega) (hslot _ (if_pos rfl))
        (hc.congr_tab fun j hlo _ => if_neg (by omega)) (fun y hy => List.mem_cons_of_mem _ hy) (fun _ => ?_), ?_⟩
      · rw [if_pos rfl]
        exact List.mem_cons_self
      · rw [hrun, hrun', Option.map_some, hc.copies_congr (by omega) hss]
        unfold copiesFor
        rw [List.map_append]
    · rw [if_neg ho, Nat.zero_add] at henough
      obtain ⟨k₂, hst, hfr, hslot, hrun⟩ := @cloneSlots_unmade k dir src dirs tables M i alloc n ho
      have hss := (hslot fun _ => 0).sameSource hs
      obtain ⟨k', tab, new, hc, hrun'⟩ := cloneSlots_spec (i := i + 1) hM (by omega)
        (hs.next hss (hslot fun _ => 0).kernel_directory (fun _ hy => hy) hs.tablesFit) (hserve.fewer.same hst)
        (by rw [hfr]; exact hsc) (by rw [framesNeeded_congr hss (by omega), hfr]; exact henough)
      refine ⟨k', tab, [] ++ new, .cons hs (by omega) (hslot tab) hc (fun _ hy => hy) (fun h => absurd h ho), ?_⟩
      rw [hrun, hrun', hc.copies_congr (by omega) hss]
      rfl

/-! ## The clone -/

/-- **The frames in use are marked**: frame 0, and those of the pages of `src`. -/
structure Marked (k : Kernel) (src : U32) : Prop where
  zero : k.frames.bit 0 = true
  pages : ∀ j l, j < 1024 → l < 1024 → (k.directories src).tables j ≠ 0 → (k.slotPage src j l).frame ≠ 0 →
    k.frames.bit (k.slotPage src j l).frame.toNat = true

/-- The directories `dirs` and the tables `tables` are in use: the kernel's, and those of `src`. -/
structure InUse (k : Kernel) (src : U32) (dirs tables : List U32) : Prop where
  self : src ∈ dirs
  kernel : k.kernel_directory ∈ dirs
  used : ∀ j, j < 1024 → (k.directories src).tables j ≠ 0 → (k.directories src).tables j ∈ tables
  dirsFit : ∀ d ∈ dirs, d.toNat + 8196 ≤ 2 ^ 32
  tablesFit : ∀ t ∈ tables, t.toNat + 0x1000 ≤ 2 ^ 32

/-- **The clone `dir` of `src` is isolated**: from `k` and the physical memory `ram` before the call to `k'` and `ram'`
after it. -/
structure Isolated (tables : List U32) (k k' : Kernel) (ram ram' : Mem) (src dir : U32) : Prop where
  slots : ∀ j, j < 1024 → ((k'.directories dir).tables j = 0 ↔ (k.directories src).tables j = 0)
  shared : ∀ j, j < 1024 → (k.directories src).tables j ≠ 0 →
    ((k'.directories dir).tables j = (k.directories src).tables j ↔
      (k.directories k.kernel_directory).tables j = (k.directories src).tables j)
  fresh : ∀ j, j < 1024 → k.Own src j →
    (∀ t ∈ tables, Apart t.toNat 0x1000 ((k'.directories dir).tables j).toNat 0x1000) ∧
    ∀ l, l < j → k.Own src l →
      Apart ((k'.directories dir).tables l).toNat 0x1000 ((k'.directories dir).tables j).toNat 0x1000
  holds : ∀ j l, j < 1024 → l < 1024 → k.Own src j → ((k'.slotPage dir j l).frame ≠ 0 ↔ (k.slotPage src j l).frame ≠ 0)
  new : ∀ j l, j < 1024 → l < 1024 → k.Own src j → (k'.slotPage dir j l).frame ≠ 0 →
    k.frames.bit (k'.slotPage dir j l).frame.toNat = false ∧ k'.frames.bit (k'.slotPage dir j l).frame.toNat = true
  distinct : ∀ j l m n, j < 1024 → l < 1024 → m < 1024 → n < 1024 → k.Own src j → k.Own src m →
    (k'.slotPage dir j l).frame ≠ 0 → (k'.slotPage dir j l).frame = (k'.slotPage dir m n).frame → j = m ∧ l = n
  content : ∀ j l i, j < 1024 → l < 1024 → i < 0x1000 → k.Own src j → (k.slotPage src j l).frame ≠ 0 →
    ram' (frameAddress (k'.slotPage dir j l) + BitVec.ofNat 32 i) =
      ram (frameAddress (k.slotPage src j l) + BitVec.ofNat 32 i)
  source : k'.directories src = k.directories src ∧ ∀ j l, j < 1024 → l < 1024 → (k.directories src).tables j ≠ 0 →
    k'.slotPage src j l = k.slotPage src j l
  sourceFrames : ∀ j l i, j < 1024 → l < 1024 → i < 0x1000 → (k.directories src).tables j ≠ 0 →
    (k.slotPage src j l).frame ≠ 0 →
      ram' (frameAddress (k.slotPage src j l) + BitVec.ofNat 32 i) =
        ram (frameAddress (k.slotPage src j l) + BitVec.ofNat 32 i)

theorem SlotsCloned.slotPage_new {tab : Nat → U32} {new : List NewPage}
    (h : SlotsCloned M dirs tables dir src n i k k' tab new) {c : NewPage} (hc : c ∈ new) :
    (k'.slotPage dir c.slot c.entry).frame = c.frame.setWidth 20 := by
  obtain ⟨⟨hlo, hhi⟩, ho, -, -⟩ := h.made_of_mem hc
  unfold slotPage
  rw [(h.own c.slot hlo hhi ho).1, h.entry c hc]
  rfl

section Isolating

variable {tab : Nat → U32} {new : List NewPage} (h : SlotsCloned M dirs tables dir src 1024 0 k k' tab new)

include h

theorem SlotsCloned.own_slot {j : Nat} (hj : j < 1024) (ho : k.Own src j) : (k'.directories dir).tables j = tab j ∧
    tab j ≠ 0 ∧ ∀ t ∈ tables, Apart t.toNat 0x1000 (tab j).toNat 0x1000 :=
  h.own j (Nat.zero_le j) (by omega) ho

/-- A page of the clone that holds a frame was made for one of the source. -/
theorem SlotsCloned.made_for {j l : Nat} (hj : j < 1024) (hl : l < 1024) (ho : k.Own src j)
    (h0 : (k.slotPage src j l).frame ≠ 0) : ∃ f, ⟨j, l, f⟩ ∈ new ∧ (k'.slotPage dir j l).frame = f.setWidth 20 := by
  obtain ⟨f, hf⟩ := (h.made j l).2 ⟨⟨Nat.zero_le j, by omega⟩, ho, hl, h0⟩
  exact ⟨f, hf, h.slotPage_new hf⟩

theorem SlotsCloned.slots_iff (hzero : ∀ j, j < 1024 → (k.directories dir).tables j = 0) {j : Nat} (hj : j < 1024) :
    (k'.directories dir).tables j = 0 ↔ (k.directories src).tables j = 0 := by
  by_cases h0 : (k.directories src).tables j = 0
  · rw [h.kept j fun hc => hc.2.2 h0, hzero j hj]
    exact iff_of_true rfl h0
  · refine iff_of_false ?_ h0
    by_cases ho : k.Own src j
    · rw [(h.own_slot hj ho).1]
      exact (h.own_slot hj ho).2.1
    · rwa [h.shared j (Nat.zero_le j) (by omega) h0 ho]

section Frames

variable (hM : M ≤ 2 ^ 20)

include hM

theorem SlotsCloned.width {c : NewPage} (hc : c ∈ new) : (c.frame.setWidth 20).toNat = c.frame.toNat := by
  have := (h.free c hc).1
  rw [BitVec.toNat_setWidth]
  omega

theorem SlotsCloned.holds_iff (hzero : k.frames.bit 0 = true) {j l : Nat} (hj : j < 1024) (hl : l < 1024)
    (ho : k.Own src j) : (k'.slotPage dir j l).frame ≠ 0 ↔ (k.slotPage src j l).frame ≠ 0 := by
  by_cases h0 : (k.slotPage src j l).frame = 0
  · refine iff_of_false ?_ (not_not.2 h0)
    unfold slotPage
    rw [(h.own_slot hj ho).1, h.empty j l (Nat.zero_le j) (by omega) ho hl h0]
    exact not_not.2 rfl
  · obtain ⟨f, hf, hframe⟩ := h.made_for hj hl ho h0
    refine iff_of_true (fun hf0 => ?_) h0
    have hz := (h.free _ hf).2.1
    rw [← h.width hM hf, ← hframe, hf0, show (0 : BitVec 20).toNat = 0 from rfl, hzero] at hz
    cases hz

/-- Two pages that were made hold two frames. -/
theorem SlotsCloned.frame_unique {c d : NewPage} (hc : c ∈ new) (hd : d ∈ new)
    (he : c.frame.setWidth 20 = d.frame.setWidth 20) : c = d := by
  by_contra hne
  have : Std.Symm fun c d : NewPage => c.frame ≠ d.frame := ⟨fun _ _ h => h.symm⟩
  refine (h.distinct.imp fun h => h.2).forall hc hd hne (BitVec.eq_of_toNat_eq ?_)
  rw [← h.width hM hc, ← h.width hM hd, he]

/-- No copy writes over another one. -/
theorem SlotsCloned.copies_apart : (copiesFor k src new).Pairwise fun c d => PageApart c.2 d.2 := by
  refine List.pairwise_map.2 (h.distinct.imp_of_mem fun {c d} hc hd hcd => pageApart_frames fun he => hcd.2 ?_)
  refine BitVec.eq_of_toNat_eq ?_
  rw [← h.width hM hc, ← h.width hM hd, he]

/-- No copy writes over a frame that was marked. -/
theorem SlotsCloned.marked_apart {f : BitVec 20} (hf : k.frames.bit f.toNat = true) :
    ∀ c ∈ copiesFor k src new, PageApart (frameStart f) c.2 := fun c hc => by
  obtain ⟨d, hd, rfl⟩ := List.mem_map.1 hc
  refine pageApart_frames fun he => ?_
  have := (h.free d hd).2.1
  rw [← h.width hM hd, ← he, hf] at this
  cases this

/-- **Each page of the clone is a copy** of its source's. -/
theorem SlotsCloned.copied (hm : Marked k src) (ram : Mem) {j l i : Nat} (hj : j < 1024) (hl : l < 1024)
    (hi : i < 0x1000) (ho : k.Own src j) (h0 : (k.slotPage src j l).frame ≠ 0) :
    copyPages ram (copiesFor k src new) (frameAddress (k'.slotPage dir j l) + BitVec.ofNat 32 i) =
      ram (frameAddress (k.slotPage src j l) + BitVec.ofNat 32 i) := by
  obtain ⟨f, hf, hframe⟩ := h.made_for hj hl ho h0
  have hc : (frameAddress (k.slotPage src j l), frameStart (f.setWidth 20)) ∈ copiesFor k src new :=
    List.mem_map.2 ⟨_, hf, rfl⟩
  have hcopy := copyPages_copied ram (h.copies_apart hM) (fun c hc d hd => ?_) _ hc i hi
  · rw [show frameAddress (k'.slotPage dir j l) = frameStart (f.setWidth 20) from congrArg frameStart hframe]
    exact hcopy
  · obtain ⟨e, he, rfl⟩ := List.mem_map.1 hc
    obtain ⟨⟨-, hlt⟩, ho', hl', h0'⟩ := h.made_of_mem he
    exact h.marked_apart hM (hm.pages _ _ (by omega) hl' ho'.1 h0') d hd

end Frames

/-- **The loop isolates the clone** that starts without tables. -/
theorem SlotsCloned.isolated (hM : M ≤ 2 ^ 20) (hs : Source k dir src dirs tables) (hm : Marked k src)
    (hzero : ∀ j, j < 1024 → (k.directories dir).tables j = 0) (ram : Mem) :
    Isolated tables k k' ram (copyPages ram (copiesFor k src new)) src dir := by
  have hss := h.sameSource hs
  refine ⟨fun j hj => h.slots_iff hzero hj, fun j hj h0 => ?_, fun j hj ho => ⟨fun t ht => ?_, fun l hl hol => ?_⟩,
    fun j l hj hl ho => h.holds_iff hM hm.zero hj hl ho, fun j l hj hl ho h0 => ?_,
    fun j l m n hj hl hm' hn hj' hm'' h0 he => ?_, fun j l i hj hl hi ho h0 => h.copied hM hm ram hj hl hi ho h0,
    ⟨hss.self, fun j l hj hl h0 => hss.pages j l hj hl h0⟩, fun j l i hj hl hi hne h0 => ?_⟩
  · by_cases ho : k.Own src j
    · refine iff_of_false (fun he => ?_) ho.2
      have hap := (h.own_slot hj ho).2.2 _ (hs.used j hj h0)
      rw [← (h.own_slot hj ho).1, he] at hap
      unfold Apart at hap
      omega
    · refine iff_of_true (h.shared j (Nat.zero_le j) (by omega) h0 ho) ?_
      by_contra hne
      exact ho ⟨h0, hne⟩
  · rw [(h.own_slot hj ho).1]
    exact (h.own_slot hj ho).2.2 t ht
  · rw [(h.own_slot hj ho).1, (h.own_slot (by omega) hol).1]
    exact h.tabs l j (Nat.zero_le l) hl (by omega) hol ho
  · obtain ⟨f, hf, hframe⟩ := h.made_for hj hl ho ((h.holds_iff hM hm.zero hj hl ho).1 h0)
    rw [hframe, h.width hM hf]
    exact (h.free _ hf).2
  · obtain ⟨f, hf, hframe⟩ := h.made_for hj hl hj' ((h.holds_iff hM hm.zero hj hl hj').1 h0)
    rw [he] at h0
    obtain ⟨g, hg, hframe'⟩ := h.made_for hm' hn hm'' ((h.holds_iff hM hm.zero hm' hn hm'').1 h0)
    rw [hframe, hframe'] at he
    cases h.frame_unique hM hf hg he
    exact ⟨rfl, rfl⟩
  · exact copyPages_other ram fun c hc => h.marked_apart hM (hm.pages j l hj hl hne h0) c hc i hi

end Isolating

theorem Isolated.of_same {ram ram' : Mem} (h : Isolated tables k₂ k' ram ram' src dir) (hss : SameSource k k₂ src)
    (hmark : ∀ f, k.frames.bit f = true → k₂.frames.bit f = true) : Isolated tables k k' ram ram' src dir := by
  obtain ⟨hslots, hshared, hfresh, hholds, hnew, hdistinct, hcontent, hsource, hframes⟩ := h
  rw [hss.self] at hslots hshared hsource hframes
  rw [hss.kernel] at hshared
  simp only [hss.own] at hfresh hholds hnew hdistinct hcontent
  refine ⟨hslots, hshared, hfresh, fun j l hj hl ho => ?_, fun j l hj hl ho h0 => ?_, hdistinct,
    fun j l i hj hl hi ho h0 => ?_, ⟨hsource.1, fun j l hj hl h0 => ?_⟩, fun j l i hj hl hi hne h0 => ?_⟩
  · rw [← hss.pages j l hj hl ho.1]
    exact hholds j l hj hl ho
  · obtain ⟨hfree, hmarked⟩ := hnew j l hj hl ho h0
    refine ⟨Bool.eq_false_iff.2 fun hb => ?_, hmarked⟩
    rw [hmark _ hb] at hfree
    cases hfree
  · rw [← hss.pages j l hj hl ho.1] at h0 ⊢
    exact hcontent j l i hj hl hi ho h0
  · rw [← hss.pages j l hj hl h0]
    exact hsource.2 j l hj hl h0
  · rw [← hss.pages j l hj hl hne] at h0 ⊢
    exact hframes j l i hj hl hi hne h0

/-- **`clone_directory` isolates its clone**, while `kmalloc_ap` serves it and frames are free. -/
theorem clone_isolates {alloc : Allocator} (hm : Marked k src) (hu : InUse k src dirs tables)
    (hs : Serves alloc cost dirs tables k)
    (henough : cost + framesNeeded cost k src 1024 0 ≤ k.frames.freeBelow (min k.frames.scanned (2 ^ 20))) (ram : Mem) :
    ∃ dir copies k', cloneDirectory alloc k src = some (dir, copies, k') ∧
      (∀ d ∈ dirs, Apart d.toNat 8196 dir.toNat 8196) ∧ Isolated tables k k' ram (copyPages ram copies) src dir := by
  obtain ⟨dir, phys, k₁, hg, hserve⟩ := hs
  have hne : ∀ d ∈ dirs, d ≠ dir := fun d hd he => by
    have := hg.dirsApart d hd
    rw [he] at this
    unfold Apart at this
    omega
  obtain ⟨k₂, hk₂⟩ : ∃ k₂, (k₁.clear dir 8196).setDirectory dir { (k₁.clear dir 8196).directories dir with
    physicalAddress := phys.getD (k₁.clear dir 8196).uninit + 0x1000 } = k₂ := ⟨_, rfl⟩
  have hfr : k₂.frames = k₁.frames := by
    rw [← hk₂]
    rfl
  have hmark : ∀ f, k.frames.bit f = true → k₂.frames.bit f = true := fun f hf => by
    rw [hfr]
    exact hg.marked f hf
  have hdir : ∀ d ∈ dirs, k₂.directories d = k.directories d := fun d hd => by
    rw [← hk₂, setDirectory_other _ _ (hne d hd), clear_directory hg.fits (hu.dirsFit d hd) (hg.dirsApart d hd),
      hg.directories d hd]
  have hker : k₂.kernel_directory = k.kernel_directory := by
    rw [← hg.kernel_directory, ← hk₂]
    rfl
  have hpage : ∀ t ∈ tables, ∀ l, l < 1024 → k₂.page ⟨t, l⟩ = k.page ⟨t, l⟩ := fun t ht l hl => by
    rw [← hg.pages t ht l hl, ← clear_page (k := k₁) hg.fits (hu.tablesFit t ht) (hg.tablesApart t ht), ← hk₂]
    rfl
  have hss : SameSource k k₂ src := by
    refine ⟨hdir src hu.self, by rw [hker, hdir _ hu.kernel], fun j l hj hl h0 => ?_⟩
    unfold slotPage
    rw [hdir src hu.self]
    exact hpage _ (hu.used j hj h0) l hl
  have hsource : Source k₂ dir src (dir :: dirs) tables := by
    refine ⟨List.mem_cons_self, ⟨List.mem_cons_of_mem _ hu.self, hne _ hu.self⟩, ?_, fun j hj h0 => ?_, fun d hd => ?_,
      hu.tablesFit⟩
    · rw [hker]
      exact ⟨List.mem_cons_of_mem _ hu.kernel, hne _ hu.kernel⟩
    · rw [hss.self] at h0 ⊢
      exact hu.used j hj h0
    · rcases List.mem_cons.1 hd with rfl | hd
      · exact hg.fits
      · exact hu.dirsFit d hd
  have hmarked : Marked k₂ src := by
    refine ⟨hmark 0 hm.zero, fun j l hj hl hne h0 => ?_⟩
    rw [hss.self] at hne
    rw [hss.pages j l hj hl hne] at h0 ⊢
    exact hmark _ (hm.pages j l hj hl hne h0)
  have hscanned : k₂.frames.scanned = k.frames.scanned := by
    unfold Frames.scanned
    rw [hfr, hg.nframes]
  have hfew := hg.frames (min k.frames.scanned (2 ^ 20))
  obtain ⟨k', tab, new, hc, hrun⟩ := cloneSlots_spec (n := 1024) (i := 0) (M := min k.frames.scanned (2 ^ 20))
    (Nat.min_le_right ..) rfl hsource (hserve.same (by rw [← hk₂]; rfl)) (by rw [hscanned]; exact Nat.min_le_left ..)
    (by rw [framesNeeded_congr hss (by omega), hfr]; omega)
  have hzero : ∀ j, j < 1024 → (k₂.directories dir).tables j = 0 := fun j hj => by
    rw [← hk₂, setDirectory_self]
    have := (clear_self (k := k₁) (p := dir) hj).1
    simp only [this]
  refine ⟨dir, _, k', ?_, hg.dirsApart, (hc.isolated (Nat.min_le_right ..) hsource hmarked hzero ram).of_same hss hmark⟩
  unfold cloneDirectory
  rw [hg.kmalloc, Option.bind_some, show sizeofPageDirectory.toNat = 8196 from rfl]
  simp only [hk₂, hrun, Option.map_some]

/-! ## At boot -/

theorem gives_placement {alloc : Allocator} (size : U32) (hk : k.kheap = 0) (hp : 0x1000 ≤ k.placement_address.toNat)
    (hd : ∀ d ∈ dirs, d.toNat + 8196 ≤ k.placement_address.toNat)
    (ht : ∀ t ∈ tables, t.toNat + 0x1000 ≤ k.placement_address.toNat)
    (hroom : k.placement_address.toNat + 0x4000 ≤ 2 ^ 32) :
    Gives alloc 0 size dirs tables k (nextPage k.placement_address) (some (nextPage k.placement_address))
      { k with placement_address := nextPage k.placement_address + size } := by
  have hnext := toNat_nextPage (p := k.placement_address) (by omega)
  refine ⟨kmalloc_aligned hk hp size, fun h0 => ?_, by omega, fun d hm => ?_, fun t hm => ?_, fun _ _ => rfl,
    fun _ _ _ _ => rfl, rfl, rfl, fun _ hf => hf, fun _ => Nat.le_refl _⟩
  · rw [h0, show (0 : U32).toNat = 0 from rfl] at hnext
    omega
  · have := hd d hm
    unfold Apart
    omega
  · have := ht t hm
    unfold Apart
    omega

theorem servesTables_placement {alloc : Allocator} : ∀ {n : Nat} {tables : List U32} {k : Kernel}, k.kheap = 0 →
    0x1000 ≤ k.placement_address.toNat → (∀ d ∈ dirs, d.toNat + 8196 ≤ k.placement_address.toNat) →
    (∀ t ∈ tables, t.toNat + 0x1000 ≤ k.placement_address.toNat) →
    k.placement_address.toNat + n * 0x2000 + 0x2000 ≤ 2 ^ 32 → ServesTables alloc 0 dirs n tables k
  | 0, _, _, _, _, _, _, _ => trivial
  | n + 1, tables, k, hk, hp, hd, ht, hroom => fun k₂ hk₂ => by
    unfold SameStorage at hk₂
    have hpl : k₂.placement_address = k.placement_address := by rw [hk₂]
    have hnext := toNat_nextPage (p := k.placement_address) (by omega)
    have hend : (nextPage k.placement_address + sizeofPageTable).toNat =
        (nextPage k.placement_address).toNat + 0x1000 := by
      rw [BitVec.toNat_add, show sizeofPageTable.toNat = 0x1000 from rfl]
      omega
    have hg := @gives_placement k₂ dirs tables alloc sizeofPageTable (by rw [hk₂]; exact hk) (by rwa [hpl])
      (by rwa [hpl]) (by rwa [hpl]) (by rw [hpl]; omega)
    refine ⟨_, _, _, hg, ?_⟩
    rw [hpl]
    refine servesTables_placement (by show k₂.kheap = 0; rw [hk₂]; exact hk) ?_ (fun d hm => ?_) (fun t hm => ?_) ?_
    · show 0x1000 ≤ (nextPage k.placement_address + sizeofPageTable).toNat
      omega
    · have := hd d hm
      show _ ≤ (nextPage k.placement_address + sizeofPageTable).toNat
      omega
    · show _ ≤ (nextPage k.placement_address + sizeofPageTable).toNat
      rcases List.mem_cons.1 hm with rfl | hm
      · omega
      · have := ht t hm
        omega
    · show (nextPage k.placement_address + sizeofPageTable).toNat + n * 0x2000 + 0x2000 ≤ _
      omega

/-- **`kmalloc_ap` serves a clone at boot**, from a placement address above what is in use. -/
theorem serves_placement (alloc : Allocator) (hk : k.kheap = 0) (hp : 0x1000 ≤ k.placement_address.toNat)
    (hd : ∀ d ∈ dirs, d.toNat + 8196 ≤ k.placement_address.toNat)
    (ht : ∀ t ∈ tables, t.toNat + 0x1000 ≤ k.placement_address.toNat)
    (hroom : k.placement_address.toNat + 1026 * 0x2000 + 0x2000 ≤ 2 ^ 32) : Serves alloc 0 dirs tables k := by
  have hnext := toNat_nextPage (p := k.placement_address) (by omega)
  have hend : (nextPage k.placement_address + sizeofPageDirectory).toNat =
      (nextPage k.placement_address).toNat + 8196 := by
    rw [BitVec.toNat_add, show sizeofPageDirectory.toNat = 8196 from rfl]
    omega
  refine ⟨_, _, _, gives_placement sizeofPageDirectory hk hp hd ht (by omega),
    servesTables_placement hk ?_ (fun d hm => ?_)
    (fun t hm => ?_) ?_⟩
  · show 0x1000 ≤ (nextPage k.placement_address + sizeofPageDirectory).toNat
    omega
  · show _ ≤ (nextPage k.placement_address + sizeofPageDirectory).toNat
    rcases List.mem_cons.1 hm with rfl | hm
    · omega
    · have := hd d hm
      omega
  · have := ht t hm
    show _ ≤ (nextPage k.placement_address + sizeofPageDirectory).toNat
    omega
  · show (nextPage k.placement_address + sizeofPageDirectory).toNat + 1024 * 0x2000 + 0x2000 ≤ _
    omega

theorem framesNeeded_one {j : Nat} (h : ∀ l, k.Own src l → l = j) : ∀ {n i : Nat}, framesNeeded cost k src n i ≤
    if j < i then 0 else cost + k.pages ((k.directories src).tables j) 1024 0
  | 0, _ => Nat.zero_le _
  | n + 1, i => by
    unfold framesNeeded
    have hrest := @framesNeeded_one j h n (i + 1)
    by_cases ho : k.Own src i
    · obtain rfl := h i ho
      rw [if_pos (Nat.lt_succ_self i)] at hrest
      rw [if_pos ho, if_neg (Nat.lt_irrefl i)]
      omega
    · rw [if_neg ho]
      split
      · rw [if_pos (by omega)] at hrest
        omega
      · split at hrest
        · omega
        · omega

/-- A kernel whose directory at 0x8000 has a table of its own at 0x5000, with two pages, and behind it the table at
0x6000 of the kernel's directory. -/
def twoSlots : Kernel := { imageAt1M with
  frames := ⟨64, fun i => if i = 0 then 0xF else 0⟩
  pageTables := fun t i => if t = 0x5000 ∧ i = 0 then ⟨true, true, true, false, false, 0, 1⟩
    else if t = 0x5000 ∧ i = 3 then ⟨true, false, true, false, false, 0, 2⟩
    else if t = 0x6000 ∧ i = 0 then ⟨true, true, false, false, false, 0, 3⟩ else Page.zero
  directories := fun d => { PageDirectory.zero with
    tables := fun i => if i = 0 ∧ d = 0x8000 then 0x5000 else if i = 1 then 0x6000 else 0 }
  kernel_directory := 0xB000 }

theorem twoSlots_used {j : Nat} (h : (twoSlots.directories 0x8000).tables j ≠ 0) : j = 0 ∨ j = 1 := by
  by_contra hj
  rw [not_or] at hj
  exact h ((if_neg fun h => hj.1 h.1).trans (if_neg hj.2))

theorem twoSlots_own {j : Nat} (h : twoSlots.Own 0x8000 j) : j = 0 :=
  (twoSlots_used h.1).resolve_right fun h1 => by
    subst h1
    exact h.2 rfl

theorem twoSlots_marked : Marked twoSlots 0x8000 := by
  refine ⟨by decide, fun j l _ _ hj hl => ?_⟩
  have hentry : l = 0 ∨ l = 3 := by
    by_contra hno
    rw [not_or] at hno
    refine hl ?_
    show (if _ then _ else if _ then _ else if _ then _ else Page.zero).frame = 0
    rw [if_neg fun h => hno.1 h.2, if_neg fun h => hno.2 h.2, if_neg fun h => hno.1 h.2]
    rfl
  rcases twoSlots_used hj with rfl | rfl
  · rcases hentry with rfl | rfl <;> decide
  · rcases hentry with rfl | rfl
    · decide
    · exact absurd rfl hl

theorem clone_isolates_twoSlots : ∃ dir copies k',
    cloneDirectory (Kernel.alloc 0) twoSlots 0x8000 = some (dir, copies, k') ∧
    (∀ d ∈ ([0x8000, 0xB000] : List U32), Apart d.toNat 8196 dir.toNat 8196) ∧
    Isolated [0x5000, 0x6000] twoSlots k' (fun x => x.setWidth 8) (copyPages (fun x => x.setWidth 8) copies) 0x8000
      dir := by
  have huse : InUse twoSlots 0x8000 [0x8000, 0xB000] [0x5000, 0x6000] := by
    refine ⟨by simp, by simp [twoSlots], fun j _ hj => ?_, fun d hd => ?_, fun t ht => ?_⟩
    · rcases twoSlots_used hj with rfl | rfl
      · exact List.mem_cons_self
      · exact List.mem_cons_of_mem _ List.mem_cons_self
    · simp only [List.mem_cons, List.not_mem_nil, or_false] at hd
      rcases hd with rfl | rfl <;> decide
    · simp only [List.mem_cons, List.not_mem_nil, or_false] at ht
      rcases ht with rfl | rfl <;> decide
  have hserve : Serves (Kernel.alloc 0) 0 [0x8000, 0xB000] [0x5000, 0x6000] twoSlots := by
    refine serves_placement _ rfl (by show 0x1000 ≤ (0x100000 : U32).toNat; decide) (fun d hd => ?_) (fun t ht => ?_)
      (by show (0x100000 : U32).toNat + 1026 * 0x2000 + 0x2000 ≤ _; decide)
    · show _ ≤ (0x100000 : U32).toNat
      simp only [List.mem_cons, List.not_mem_nil, or_false] at hd
      rcases hd with rfl | rfl <;> decide
    · show _ ≤ (0x100000 : U32).toNat
      simp only [List.mem_cons, List.not_mem_nil, or_false] at ht
      rcases ht with rfl | rfl <;> decide
  refine clone_isolates twoSlots_marked huse hserve ?_ _
  have hone := @framesNeeded_one twoSlots 0x8000 0 0 (fun l ho => twoSlots_own ho) 1024 0
  have hpages : twoSlots.pages 0x5000 1024 0 ≤ twoSlots.frames.freeBelow 64 := by decide +kernel
  rw [Nat.min_eq_left (by show 64 ≤ _; decide), Nat.zero_add]
  exact (hone.trans (Nat.le_of_eq (Nat.zero_add _))).trans hpages

end Kernel

end Loris
