import Loris.BestFit
import Loris.Merging
/-!
# FreeInside — when `Free` away from the end keeps the heap well-formed

The heap a correct `Free` leaves is determined by the live blocks: between them one hole each (`freed_unique`).
`free_iff` says for which blocks the code reaches it: a hole on the right is swallowed with its footer still pointing
to the swallowed header.
-/
namespace Loris

open ByteMem Cut

/-- No two holes stand next to each other. -/
def Separated (segs : List Seg) : Prop :=
  ∀ s ∈ segs, ∀ t ∈ segs, s.hole = true → t.hole = true → s.addr.toNat + s.size.toNat ≠ t.addr.toNat

instance (segs : List Seg) : Decidable (Separated segs) := by unfold Separated; infer_instance

/-- **What `Free` of the block `b` is to leave**: a well-formed heap without adjacent holes, the other live blocks as
they were, and the freed bytes in one hole. -/
structure FreedWell (segs : List Seg) (b : Seg) (m : Mem) (k' : Kernel) (segs' : List Seg) : Prop where
  wellFormed : WellFormed k'.heap k'.mem segs'
  separated : Separated segs'
  live : ∀ s, s.hole = false → (s ∈ segs' ↔ s ∈ segs ∧ s ≠ b)
  untouched : ∀ s ∈ segs, s.hole = false → s ≠ b → ∀ x : U32, s.addr.toNat ≤ x.toNat →
    x.toNat < s.addr.toNat + s.size.toNat → k'.mem x = m x
  freed : ∃! M, M ∈ segs' ∧ M.hole = true ∧ M.addr.toNat ≤ b.addr.toNat ∧
    b.addr.toNat + b.size.toNat ≤ M.addr.toNat + M.size.toNat

section Spec

variable {h : Heap} {m : Mem} {base : Nat} {segs segs' pre left right post : List Seg} {b M : Seg}

theorem separated_merged (hc : Cuts base h.endAddress.toNat (pre ++ (left ++ b :: right) ++ post))
    (hs : Separated (pre ++ (left ++ b :: right) ++ post))
    (ha : Around m (pre ++ (left ++ b :: right) ++ post) b pre left
      right post)
    (hl : left = [] → ∀ L ∈ pre ++ (left ++ b :: right) ++ post, L.hole = true →
      L.addr.toNat + L.size.toNat ≠ b.addr.toNat)
    (hr : right = [] → ∀ R ∈ pre ++ (left ++ b :: right) ++ post, R.hole = true →
      R.addr.toNat ≠ b.addr.toNat + b.size.toNat)
    (hM : Cuts M.addr.toNat (M.addr.toNat + M.size.toNat) (left ++ b :: right)) :
    Separated (pre ++ [M] ++ post) := by
  have hout : ∀ s ∈ pre ++ [M] ++ post, s ≠ M → s ∈ pre ++ (left ++ b :: right) ++ post := fun s hs hne => by
    simp only [List.mem_append, List.mem_singleton] at hs ⊢
    rcases hs with (hs | hs) | hs
    · exact .inl (.inl hs)
    · exact absurd hs hne
    · exact .inr hs
  have hMr := M.room
  intro s hsm t htm hsh hth he
  by_cases hsM : s = M
  · by_cases htM : t = M
    · subst hsM htM; omega
    · -- a hole right behind the merged one
      have ht := hout t htm htM
      subst hsM
      rcases ha.right with ⟨rfl, -⟩ | ⟨R, rfl, hR⟩
      · obtain ⟨c, -, h1, -, h2⟩ := cuts_append.1 hM
        simp only [Seg.start_eq, Seg.len_eq, cuts_nil] at h1 h2
        exact hr rfl t ht hth (by omega)
      · obtain ⟨c, -, h1, -, h2, -, h3⟩ := cuts_append.1 hM
        simp only [Seg.start_eq, Seg.len_eq, cuts_nil] at h1 h2 h3
        exact hs R (by simp) t ht hR hth (by omega)
  · by_cases htM : t = M
    · have hsm' := hout s hsm hsM
      subst htM
      rcases ha.left with ⟨rfl, -⟩ | ⟨L, rfl, hL, -⟩
      · have h1 := hM.1
        simp only [Seg.start_eq] at h1
        exact hl rfl s hsm' hsh (by omega)
      · have h1 := hM.1
        simp only [Seg.start_eq] at h1
        exact hs s hsm' L (by simp) hsh hL (by omega)
    · exact hs s (hout s hsm hsM) t (hout t htm htM) hsh hth he

theorem mem_mid {s : Seg} {mid : List Seg} : s ∈ pre ++ mid ++ post ↔ s ∈ mid ∨ s ∈ pre ++ post := by
  simp only [List.mem_append]; tauto

theorem live_merged (hi : Inv h m base (pre ++ (left ++ b :: right) ++ post))
    (ha : Around m (pre ++ (left ++ b :: right) ++ post) b pre left right post) (hMh : M.hole = true) {s : Seg}
    (hs : s.hole = false) :
    s ∈ pre ++ [M] ++ post ↔ s ∈ pre ++ (left ++ b :: right) ++ post ∧ s ≠ b := by
  have hmid : ∀ t, t ∈ left ++ b :: right → t.hole = false → t = b := fun t ht hth => by
    rcases List.mem_append.1 ht with ht | ht
    · rcases ha.left with ⟨rfl, -⟩ | ⟨L, rfl, hL, -⟩
      · cases ht
      · rw [List.mem_singleton.1 ht, hL] at hth; cases hth
    · rcases List.mem_cons.1 ht with rfl | ht
      · rfl
      · rcases ha.right with ⟨rfl, -⟩ | ⟨R, rfl, hR⟩
        · cases ht
        · rw [List.mem_singleton.1 ht, hR] at hth; cases hth
  have hsM : s ≠ M := fun h' => by rw [h', hMh] at hs; cases hs
  have hout : s ∈ pre ++ post → s ≠ b := fun hso he => by
    obtain ⟨d, hd, -⟩ := cuts_append.1 hi.cut
    obtain ⟨c, -, hc⟩ := cuts_append.1 hd
    have h1 := cut_around hi.cut hc (by simp) s hso
    have h2 := hc.bounds b (by simp)
    have h3 := s.room
    subst he
    simp only [Seg.start_eq, Seg.len_eq] at h2; omega
  rw [mem_mid, mem_mid, List.mem_singleton]
  constructor
  · rintro (h1 | h1)
    · exact absurd h1 hsM
    · exact ⟨.inr h1, hout h1⟩
  · rintro ⟨h1 | h1, hne⟩
    · exact absurd (hmid s h1 hs) hne
    · exact .inr h1

/-- **The live blocks determine the heap** a correct `Free` leaves. -/
theorem freed_unique {k' : Kernel} (hi : Inv h m base (pre ++ (left ++ b :: right) ++ post))
    (ha : Around m (pre ++ (left ++ b :: right) ++ post) b pre left right post)
    (htied : ∀ s ∈ pre ++ (left ++ b :: right) ++ post, s.tied = true) (hsep : Separated (pre ++ [M] ++ post))
    (hMh : M.hole = true) (hMt : M.tied = true)
    (hM : Cuts M.addr.toNat (M.addr.toNat + M.size.toNat) (left ++ b :: right))
    (hf : FreedWell (pre ++ (left ++ b :: right) ++ post) b m k' segs') (hc' : Cuts base h.endAddress.toNat segs') :
    segs' = pre ++ [M] ++ post := by
  have hMr := M.room
  have hexp : Cuts base h.endAddress.toNat (pre ++ [M] ++ post) :=
    hi.cut.replace hM (by simp) ⟨rfl, by simp only [Seg.len_eq]; omega, rfl⟩
  have hlive : ∀ s, s.hole = false → (s ∈ segs' ↔ s ∈ pre ++ [M] ++ post) := fun s hs =>
    (hf.live s hs).trans (live_merged hi ha hMh hs).symm
  refine hc'.unique hexp fun x hx y hy hxy => ?_
  have hlen := hc'.len_eq_of_gaps hexp (p := fun s : Seg => s.hole = false)
    (fun x hx y hy h1 h2 => hf.separated x hx y hy (by simpa using h1) (by simpa using h2))
    (fun x hx y hy h1 h2 => hsep x hx y hy (by simpa using h1) (by simpa using h2)) hlive hx hy hxy
  by_cases hxh : x.hole = false
  · exact hexp.eq_of_start ((hlive x hxh).1 hx) hy hxy
  · by_cases hyh : y.hole = false
    · exact hc'.eq_of_start hx ((hlive y hyh).2 hy) hxy
    · have hyt : y.tied = true := by
        rcases List.mem_append.1 hy with hy | hy
        · rcases List.mem_append.1 hy with hy | hy
          · exact htied y (by simp [hy])
          · rw [List.mem_singleton.1 hy]; exact hMt
        · exact htied y (by simp [hy])
      exact Seg.ext_of (BitVec.eq_of_toNat_eq hxy) (BitVec.eq_of_toNat_eq hlen)
        (((Bool.not_eq_false _).mp hxh).trans ((Bool.not_eq_false _).mp hyh).symm)
        ((hf.wellFormed.tied x hx).trans hyt.symm)

end Spec

section Exact

variable {k k' : Kernel} {segs segs' pre left right post : List Seg} {b : Seg}

theorem around_inside (hwf : WellFormed k.heap k.mem segs) (hb : b ∈ segs)
    (hend : b.addr.toNat + b.size.toNat ≠ k.heap.endAddress.toNat)
    (hendR : ∀ R ∈ segs, R.hole = true → R.addr.toNat = b.addr.toNat + b.size.toNat →
      R.addr.toNat + R.size.toNat ≠ k.heap.endAddress.toNat)
    (hfirst : b.addr.toNat = k.heap.startAddress.toNat → LeftClear k.mem b.addr) :
    ∃ pre left right post, Around k.mem segs b pre left right post ∧ post ≠ [] ∧
      (left = [] → ∀ L ∈ segs, L.hole = true → L.addr.toNat + L.size.toNat ≠ b.addr.toNat) ∧
      (right = [] → ∀ R ∈ segs, R.hole = true → R.addr.toNat ≠ b.addr.toNat + b.size.toNat) := by
  obtain ⟨pre, left, right, post, ha, hl, hr⟩ := exists_around hwf.toInv hb (fun L hL _ _ => hwf.tied L hL) hfirst
    fun he => absurd he hend
  exact ⟨pre, left, right, post, ha, ha.post_ne_nil hwf.toInv hend hendR, hl, hr⟩

/-- **`Free` keeps the heap well-formed** when no hole is on the right, and there is one on the left or a free slot. -/
theorem freedWell_of (hwf : WellFormed k.heap k.mem segs) (hsep : Separated segs) (hlive : b.hole = false)
    (ha : Around k.mem segs b pre left [] post) (hpost : post ≠ [])
    (hl : left = [] → ∀ L ∈ segs, L.hole = true → L.addr.toNat + L.size.toNat ≠ b.addr.toNat)
    (hr : ∀ R ∈ segs, R.hole = true → R.addr.toNat ≠ b.addr.toNat + b.size.toNat)
    (hroom : left = [] → k.heap.index.size.toNat < heapIndexSize.toNat) :
    ∃ k' segs', k.free (b.addr + sizeofHeader) = some k' ∧ FreedWell segs b k.mem k' segs' := by
  obtain ⟨k', M, hk', hrel⟩ := Kernel.free_inside hwf.toInv ha hlive hpost fun h1 _ => hroom h1
  obtain rfl := ha.split
  have hM := hrel.cut
  have hbM := hM.bounds b (by simp)
  refine ⟨k', pre ++ [M] ++ post, hk', ⟨by rw [hrel.bounds.1]; exact hrel.inv, fun s hs => ?_⟩, ?_, ?_, ?_, ?_⟩
  · rcases mem_mid.1 hs with hs | hs
    · rw [List.mem_singleton.1 hs, hrel.tied]; rfl
    · exact hwf.tied s (mem_mid.2 (.inr hs))
  · exact separated_merged hwf.cut hsep ha hl (fun _ => hr) hM
  · exact fun s hs => live_merged hwf.toInv ha hrel.hole hs
  · intro s hs hsl hsb
    have hout := (mem_mid.1 ((live_merged hwf.toInv ha hrel.hole hsl).2 ⟨hs, hsb⟩)).resolve_left fun h' => by
      rw [List.mem_singleton.1 h', hrel.hole] at hsl; cases hsl
    exact untouched_live hwf.toMarks (hrel.frame.mono (Nat.le_refl _) hbM.2.2) hs
      (cut_around hwf.cut hM (by simp) s hout)
  · refine ⟨M, ⟨by simp, hrel.hole, hbM.1, hbM.2.2⟩, fun N ⟨hN, _, h1, h2⟩ => ?_⟩
    by_contra hne
    have hbr := b.room
    have := hrel.inv.cut.apart hN (y := M) (by simp) hne
    simp only [Seg.start_eq, Seg.len_eq] at this hbM
    omega

/-- A hole on the right is lost: the merged hole's footer points to the swallowed header. -/
theorem not_freedWell_right {R : Seg} (hwf : WellFormed k.heap k.mem segs) (hsep : Separated segs)
    (hlive : b.hole = false) (ha : Around k.mem segs b pre left [R] post) (hpost : post ≠ [])
    (hl : left = [] → ∀ L ∈ segs, L.hole = true → L.addr.toNat + L.size.toNat ≠ b.addr.toNat)
    (hk' : k.free (b.addr + sizeofHeader) = some k') : ¬ FreedWell segs b k.mem k' segs' := by
  intro hf
  obtain ⟨k'', M, hk'', hrel⟩ := Kernel.free_inside hwf.toInv ha hlive hpost fun _ h => by cases h
  obtain rfl := Option.some.inj (hk'.symm.trans hk'')
  obtain rfl := ha.split
  have hM := hrel.cut
  have hR : R ∈ pre ++ (left ++ b :: [R]) ++ post := by simp
  obtain ⟨c, -, hbs, -, hRs, -, hRe⟩ := cuts_append.1 hM
  simp only [Seg.start_eq, Seg.len_eq, cuts_nil] at hbs hRs hRe
  have hbr := b.room
  have hcut' := hf.wellFormed.cut
  rw [hrel.bounds.1, hrel.bounds.2] at hcut'
  let N : Seg := ⟨M.addr, M.size, true, true, M.room⟩
  have hsegs : segs' = pre ++ [N] ++ post :=
    freed_unique (M := N) hwf.toInv ha hwf.tied
    (separated_merged hwf.cut hsep ha hl (fun h => by cases h) hM) rfl rfl hM
      hf hcut'
  have hNf := (hf.wellFormed.footer N (by simp [hsegs]) rfl).2
  -- the footer of `R` is that of `N`, and was not written
  obtain ⟨hRw, hRw'⟩ := hwf.within R hR
  have hRr := R.room
  have hMe : N.addr.toNat + N.size.toNat = R.addr.toNat + R.size.toNat := by simp only [N]; omega
  have hRf := Seg.toNat_footer hRw'
  have hfoot : N.footer = R.footer := BitVec.eq_of_toNat_eq (by
    rw [hRf, Seg.toNat_footer (by omega), hMe])
  have hread : footerHeader k'.mem R.footer = footerHeader k.mem R.footer := load_congr fun x hx => by
    have hbelow := hwf.below
    have e4 := toNat_add_four (a := R.footer) (by omega)
    rw [BitVec.toNat_sub] at hx
    exact hrel.frame x (by omega) (.inr (by omega))
  rw [hfoot, hread, (hwf.footer R hR (hwf.tied R hR)).2] at hNf
  have := congrArg BitVec.toNat hNf
  have hMs := hM.bounds b (by simp)
  simp only [Seg.start_eq, N] at this hMs
  omega

/-- With nothing to join and no free slot the index overflows. -/
theorem not_freedWell_full (hwf : WellFormed k.heap k.mem segs) (hlive : b.hole = false)
    (ha : Around k.mem segs b pre [] [] post) (hpost : post ≠ [])
    (hfull : ¬ k.heap.index.size.toNat < heapIndexSize.toNat)
    (hk' : k.free (b.addr + sizeofHeader) = some k') : ¬ FreedWell segs b k.mem k' segs' := by
  intro hf
  obtain ⟨k'', hk'', hsz⟩ := Kernel.free_index_size hwf.toInv ha hlive hpost
  obtain rfl := Option.some.inj (hk'.symm.trans hk'')
  have h1 := hwf.size
  have h2 := hf.wellFormed.size
  have h3 : heapIndexSize.toNat = 0x20000 := rfl
  rw [hsz, BitVec.toNat_add] at h2
  simp at h2; omega

end Exact

/-- **`Free` of a block that does not reach the end of the heap**, nor with a hole on its right, keeps the heap
well-formed exactly when no hole is on its right and either a hole is on its left or the index has a free slot.  For
the first segment, what lies below it must not look like a footer. -/
theorem free_iff {k : Kernel} {segs : List Seg} {b : Seg} (hwf : WellFormed k.heap k.mem segs) (hsep : Separated segs)
    (hb : b ∈ segs) (hlive : b.hole = false) (hend : b.addr.toNat + b.size.toNat ≠ k.heap.endAddress.toNat)
    (hendR : ∀ R ∈ segs, R.hole = true → R.addr.toNat = b.addr.toNat + b.size.toNat →
      R.addr.toNat + R.size.toNat ≠ k.heap.endAddress.toNat)
    (hfirst : b.addr.toNat = k.heap.startAddress.toNat → LeftClear k.mem b.addr) :
    (∃ k' segs', k.free (b.addr + sizeofHeader) = some k' ∧ FreedWell segs b k.mem k' segs') ↔
      (∀ R ∈ segs, R.hole = true → R.addr.toNat ≠ b.addr.toNat + b.size.toNat) ∧
      ((∃ L ∈ segs, L.hole = true ∧ L.addr.toNat + L.size.toNat = b.addr.toNat) ∨
        k.heap.index.size.toNat < heapIndexSize.toNat) := by
  obtain ⟨pre, left, right, post, ha, hpost, hl, hr⟩ := around_inside hwf hb hend hendR hfirst
  constructor
  · rintro ⟨k', segs', hk', hf⟩
    rcases ha.right with ⟨rfl, -⟩ | ⟨R, rfl, -⟩
    · refine ⟨hr rfl, ?_⟩
      rcases ha.left with ⟨rfl, -⟩ | ⟨L, rfl, hL, -⟩
      · refine .inr ?_
        by_contra hfull
        exact not_freedWell_full hwf hlive ha hpost hfull hk' hf
      · have hcut := hwf.cut
        rw [ha.split] at hcut
        obtain ⟨d, hd, -⟩ := cuts_append.1 hcut
        obtain ⟨c, -, hLs, -, hbs, -⟩ := cuts_append.1 hd
        simp only [Seg.start_eq, Seg.len_eq] at hLs hbs
        exact .inl ⟨L, by rw [ha.split]; simp, hL, by omega⟩
    · exact absurd hf (not_freedWell_right hwf hsep hlive ha hpost hl hk')
  · rintro ⟨hright, hleft⟩
    rcases ha.right with ⟨rfl, -⟩ | ⟨R, rfl, hR⟩
    · refine freedWell_of hwf hsep hlive ha hpost hl hright fun h0 => hleft.resolve_left ?_
      rintro ⟨L, hL, hLh, hLe⟩
      exact hl h0 L hL hLh hLe
    · have hcut := hwf.cut
      rw [ha.split] at hcut
      obtain ⟨d, hd, -⟩ := cuts_append.1 hcut
      obtain ⟨c, -, hmid⟩ := cuts_append.1 hd
      obtain ⟨e, -, hbs, -, hRs, -⟩ := cuts_append.1 hmid
      simp only [Seg.start_eq, Seg.len_eq] at hbs hRs
      exact absurd (by omega) (hright R (by rw [ha.split]; simp) hR)

def blockA : Seg := ⟨0xC0080000, 0x100, false, true, smallHole.room⟩
def blockB : Seg := ⟨0xC0080100, 0x100, false, true, smallHole.room⟩
def holeB : Seg := ⟨0xC0080100, 0x100, true, true, smallHole.room⟩
def blockC : Seg := ⟨0xC0080200, 0xE00, false, true, largeHole.room⟩

/-- A kernel with a heap of one page, cut into three. -/
def onePage (segs : List Seg) : Kernel :=
  Kernel.ofHeap ⟨⟨0xC0000000, BitVec.ofNat 32 (holes segs).length, heapIndexSize⟩, 0xC0080000, 0xC0081000, 0,
    false, false⟩
    (layout 0xC0000000 segs)

theorem free_between_live : ∃ k' segs', (onePage [blockA, blockB, blockC]).free (blockB.addr + sizeofHeader) = some k' ∧
    FreedWell [blockA, blockB, blockC] blockB (onePage [blockA, blockB, blockC]).mem k' segs' :=
  (free_iff (k := onePage [blockA, blockB, blockC]) (b := blockB) (by decide +kernel) (by decide +kernel)
    (by decide +kernel) rfl (by decide +kernel) (by decide +kernel) (by decide +kernel)).2 (by decide +kernel)

/-- A block with a hole on its right. -/
theorem free_before_hole :
    WellFormed (onePage [blockA, holeB, blockC]).heap (onePage [blockA, holeB, blockC]).mem [blockA, holeB, blockC] ∧
    Separated [blockA, holeB, blockC] ∧
    ¬ ∃ k' segs', (onePage [blockA, holeB, blockC]).free (blockA.addr + sizeofHeader) = some k' ∧
      FreedWell [blockA, holeB, blockC] blockA (onePage [blockA, holeB, blockC]).mem k' segs' := by
  have hwf : WellFormed (onePage [blockA, holeB, blockC]).heap (onePage [blockA, holeB, blockC]).mem
      [blockA, holeB, blockC] := by decide +kernel
  have hsep : Separated [blockA, holeB, blockC] := by decide +kernel
  refine ⟨hwf, hsep, fun ⟨k', segs', hk', hf⟩ => ?_⟩
  have ha : Around (onePage [blockA, holeB, blockC]).mem [blockA, holeB, blockC] blockA [] [] [holeB] [blockC] :=
    ⟨rfl, .inl ⟨rfl, by decide +kernel⟩, .inr ⟨holeB, rfl, rfl⟩⟩
  exact not_freedWell_right hwf hsep rfl ha (by simp) (fun _ => by decide +kernel) hk' hf

end Loris
