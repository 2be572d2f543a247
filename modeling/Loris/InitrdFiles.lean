import Loris.Initrd
import Loris.StringOrder
import Mathlib.Data.List.GetD
/-!
# InitrdFiles — the files of the ramdisk, by name and by content

After `initialise_initrd` the search of `initrd_finddir` comes to the node with the name, and the reads of a caller join
to the content, whatever the chunk size.
-/
namespace Loris

open ByteMem

namespace Ramdisk

variable {m : Mem} {st : Storage} {s : Ramdisk} {location node name : U32} {size i j k fuel : Nat} {files : List File}
  {f : File} {l : List Byte}

/-! ## Finding -/

/-- **The loop of `initrd_finddir`** from the `k`-th node on. -/
theorem Loading.finddirLoop (h : Loading m st location size files s files.length)
    (hp : Private st location size files.length) (hl : StringAt s.mem name l) :
    ∀ (d : Nat) {k : Nat}, k + d = files.length →
      ∃ r, (∀ fuel n, l.length < fuel → d < n → finddirLoop fuel s name n (BitVec.ofNat 32 k) = some r) ∧
        (r = 0 ∧ (∀ j f, k ≤ j → files[j]? = some f → f.name ≠ l) ∨
          ∃ (j : Nat) (f : File), files[j]? = some f ∧ f.name = l ∧ r = nodeAt st j ∧
            ∀ i g, k ≤ i → i < j → files[i]? = some g → g.name ≠ l)
  | d, k, hkd => by
    have hlen := hp.fits.2.2
    have hslt : (BitVec.ofNat 32 k).slt s.nroot_nodes = true ↔ k < files.length := by
      have hk : (BitVec.ofNat 32 k).toNat = k := by
        rw [BitVec.toNat_ofNat]
        omega
      have hc := h.count
      rw [BitVec.slt_iff_toInt_lt, BitVec.toInt_eq_toNat_of_lt (by omega), BitVec.toInt_eq_toNat_of_lt (by omega)]
      omega
    have hroot : s.rootNode (BitVec.ofNat 32 k) = nodeAt st k := by
      unfold Ramdisk.rootNode nodeAt
      rw [h.rootNodes]
    cases d with
    | zero =>
      refine ⟨0, fun fuel n _ hn => ?_, .inl ⟨rfl, fun j f hj hf => ?_⟩⟩
      · obtain ⟨n, rfl⟩ : ∃ e, n = e + 1 := ⟨n - 1, by omega⟩
        unfold Ramdisk.finddirLoop
        rw [if_neg (by rw [hslt]; omega)]
      · have := (List.getElem?_eq_some_iff.1 hf).1
        omega
    | succ d =>
      have hk : k < files.length := by omega
      obtain ⟨f, hf⟩ : ∃ f, files[k]? = some f := ⟨_, List.getElem?_eq_getElem hk⟩
      obtain ⟨r', hr', hcase⟩ := h.finddirLoop hp hl d (k := k + 1) (by omega)
      have hstep : ∀ fuel n, l.length < fuel → d + 1 < n →
          Ramdisk.finddirLoop fuel s name n (BitVec.ofNat 32 k) = if l = f.name then some (nodeAt st k) else some r' :=
            fun fuel n hfuel hn => by
        obtain ⟨n, rfl⟩ : ∃ e, n = e + 1 := ⟨n - 1, by omega⟩
        obtain ⟨r, hr, ho, -⟩ := strcmp_spec hl (h.name k _ hk hf) hfuel
        have hr0 := ho.zero
        have hnext := hr' fuel n hfuel (by omega)
        rw [BitVec.ofNat_add] at hnext
        unfold Ramdisk.finddirLoop
        rw [if_pos (hslt.2 hk), hroot, hr, Option.bind_some]
        by_cases hz : r = 0
        · rw [if_pos hz, if_pos (hr0.1 hz)]
        · rw [if_neg hz, if_neg fun he => hz (hr0.2 he)]
          exact hnext
      by_cases he : l = f.name
      · refine ⟨nodeAt st k, fun fuel n hfuel hn => ?_, .inr ⟨k, f, hf, he.symm, rfl, fun i g hi hik => by omega⟩⟩
        rw [hstep fuel n hfuel hn, if_pos he]
      · -- the rest is searched, and this one is not of the name
        have hk' : ∀ {j : Nat} {f' : File}, k ≤ j → (k + 1 ≤ j → f'.name ≠ l) → files[j]? = some f' → f'.name ≠ l :=
          fun {j f'} hj hrest hf' => by
            by_cases hjk : j = k
            · subst hjk
              rw [← Option.some.inj (hf.symm.trans hf')]
              exact fun he' => he he'.symm
            · exact hrest (by omega)
        refine ⟨r', fun fuel n hfuel hn => ?_, ?_⟩
        · rw [hstep fuel n hfuel hn, if_neg he]
        · rcases hcase with ⟨h0, hall⟩ | ⟨j, g, hg, hname, hr, hall⟩
          · exact .inl ⟨h0, fun j f' hj hf' => hk' hj (fun hj => hall j f' hj hf') hf'⟩
          · exact .inr ⟨j, g, hg, hname, hr, fun i g' hi hij hg' => hk' hi (fun hi => hall i g' hi hij hg') hg'⟩

theorem Loading.finddirFs (h : Loading m st location size files s files.length)
    (hp : Private st location size files.length) (hl : StringAt s.mem name l) (hdev : l ≠ nameDev)
    (hfuel : l.length < fuel) (hn : files.length < fuel) : ∃ r, finddirFs fuel s st.root name = some r ∧
      (r = 0 ∧ (∀ (j : Nat) (f : File), files[j]? = some f → f.name ≠ l) ∨
        ∃ (j : Nat) (f : File), files[j]? = some f ∧ f.name = l ∧ r = nodeAt st j) := by
  obtain ⟨r, hr, ho, -⟩ := strcmp_spec hl (isString_literal (l := nameDev) (by decide)) hfuel
  have hr0 := ho.zero
  obtain ⟨r', hr', hcase⟩ := h.finddirLoop hp hl files.length (k := 0) (by omega)
  refine ⟨r', ?_, hcase.imp (fun ⟨h0, hall⟩ => ⟨h0, fun j f hf => hall j f (Nat.zero_le j) hf⟩)
    fun ⟨j, f, hf, hname, hr, _⟩ => ⟨j, f, hf, hname, hr⟩⟩
  unfold Ramdisk.finddirFs
  rw [h.rootNode, if_neg (by decide)]
  show s.initrdFinddir fuel st.root name = _
  unfold Ramdisk.initrdFinddir
  rw [if_pos h.root.symm, hr, Option.bind_some, if_neg fun hz => hdev (hr0.1 hz)]
  exact hr' fuel fuel hfuel hn

/-! ## Reading -/

/-- The file header of a node. -/
def headerOf (s : Ramdisk) (node : U32) : U32 := s.fileHeader (s.nodes node).inode

/-- The file `f` can be read through `node`, from an image of `size` bytes. -/
structure Readable (location : U32) (size : Nat) (s : Ramdisk) (node : U32) (f : File) : Prop where
  read : (s.nodes node).read = some .initrd_read
  header : location.toNat ≤ (s.headerOf node).toNat ∧
    (s.headerOf node).toNat + 76 ≤ location.toNat + size
  length : (load s.mem (fieldLength (s.headerOf node))).toNat = f.content.length
  inside : 0 < f.content.length → location.toNat ≤ (load s.mem (fieldOffset (s.headerOf node))).toNat ∧
    (load s.mem (fieldOffset (s.headerOf node))).toNat + f.content.length ≤ location.toNat + size
  content : ∀ j, j < f.content.length →
    bytesFrom s.mem (load s.mem (fieldOffset (s.headerOf node))) j = f.content.getD j 0

/-- A buffer apart from the image. -/
structure Buffer (location : U32) (size : Nat) (buffer c : U32) : Prop where
  fits : buffer.toNat + c.toNat ≤ 2 ^ 32
  apart : Apart location.toNat size buffer.toNat c.toNat

theorem Readable.keeps (h : Readable location size s node f) (hfit : location.toNat + size ≤ 2 ^ 32) {m' : Mem}
    (hm : ∀ x : U32, location.toNat ≤ x.toNat → x.toNat < location.toNat + size → m' x = s.mem x) :
    Readable location size { s with mem := m' } node f := by
  obtain ⟨hlo, hhi⟩ := h.header
  have hword : ∀ {c : U32}, c.toNat + 4 ≤ 76 → load m' (s.headerOf node + c) =
      load s.mem (s.headerOf node + c) := fun {c} hc => load_congr fun x hx => by
    have hc' : (s.headerOf node + c).toNat = (s.headerOf node).toNat + c.toNat := by
      rw [BitVec.toNat_add]
      omega
    rw [BitVec.toNat_sub, hc'] at hx
    have := x.isLt
    exact hm x (by omega) (by omega)
  have hoff : load m' (fieldOffset (s.headerOf node)) =
      load s.mem (fieldOffset (s.headerOf node)) := hword (c := 68) (by decide)
  have hlen : load m' (fieldLength (s.headerOf node)) =
      load s.mem (fieldLength (s.headerOf node)) := hword (c := 72) (by decide)
  refine ⟨h.read, h.header, (congrArg BitVec.toNat hlen).trans h.length, fun hpos => ?_, fun j hj => ?_⟩
  · show _ ≤ (load m' (fieldOffset (s.headerOf node))).toNat ∧ (load m' (fieldOffset (s.headerOf node))).toNat + _ ≤ _
    rw [hoff]
    exact h.inside hpos
  · show bytesFrom m' (load m' (fieldOffset (s.headerOf node))) j = _
    have hin := h.inside (Nat.lt_of_le_of_lt (Nat.zero_le j) hj)
    rw [hoff, ← h.content j hj]
    have hj' := toNat_add_ofNat (p := load s.mem (fieldOffset (s.headerOf node))) (i := j) (by omega)
    exact hm _ (by omega) (by omega)

/-- **A read of a file**: the bytes from the offset on, as many as asked for and as there are. -/
theorem Readable.reads (h : Readable location size s node f) (hfit : location.toNat + size ≤ 2 ^ 32)
    {offset c buffer : U32} (hw : offset.toNat + c.toNat < 2 ^ 32) (hb : Buffer location size buffer c) :
    ∃ (n : U32) (m' : Mem), s.readFs node offset c buffer = (n, { s with mem := m' }) ∧
      n.toNat = min c.toNat (f.content.length - offset.toNat) ∧
      Keeps buffer.toNat (buffer.toNat + n.toNat) s.mem m' ∧
      (List.range n.toNat).map (bytesFrom m' buffer) = (f.content.drop offset.toNat).take c.toNat := by
  obtain ⟨hb, ha⟩ := hb
  have hlen := h.length
  have hread : s.readFs node offset c buffer = s.initrdRead node offset c buffer := by
    unfold Ramdisk.readFs
    rw [h.read]
  unfold Apart at ha
  rw [hread, Ramdisk.initrdRead]
  show ∃ n m', (if offset > load s.mem (fieldLength (s.headerOf node)) then (0, s) else _) = _ ∧ _
  by_cases hbehind : f.content.length < offset.toNat
  · have hnone : (0 : U32).toNat = min c.toNat (f.content.length - offset.toNat) := by
      rw [Nat.sub_eq_zero_of_le (Nat.le_of_lt hbehind), Nat.min_zero]
      rfl
    refine ⟨0, s.mem, if_pos (by rw [gt_iff_lt, BitVec.lt_def, hlen]; exact hbehind), hnone, Keeps.refl _ _ _, ?_⟩
    rw [List.drop_of_length_le (by omega)]
    exact List.take_nil.symm
  rw [if_neg (by rw [gt_iff_lt, BitVec.lt_def, hlen]; exact hbehind)]
  obtain ⟨n, hn⟩ : ∃ n, n = (if offset + c > load s.mem (fieldLength (s.headerOf node))
      then load s.mem (fieldLength (s.headerOf node)) - offset else c) := ⟨_, rfl⟩
  have hmin : n.toNat = min c.toNat (f.content.length - offset.toNat) := by
    have hsum : (offset + c).toNat = offset.toNat + c.toNat := by
      rw [BitVec.toNat_add]
      omega
    have hsub : (load s.mem (fieldLength (s.headerOf node)) - offset).toNat = f.content.length - offset.toNat := by
      rw [BitVec.toNat_sub, hlen]
      omega
    rw [hn]
    split
    · rename_i hgt
      rw [gt_iff_lt, BitVec.lt_def, hlen, hsum] at hgt
      rw [hsub]
      omega
    · rename_i hle
      rw [gt_iff_lt, BitVec.lt_def, hlen, hsum] at hle
      omega
  refine ⟨n, memcpy s.mem buffer (load s.mem (fieldOffset (s.headerOf node)) + offset) n.toNat, ?_, hmin,
    keeps_memcpy (by omega), ?_⟩
  · rw [hn]
    rfl
  refine List.ext_getElem (by simp [hmin]) fun i hi hi' => ?_
  simp only [List.length_map, List.length_range] at hi
  have hpos : offset.toNat + i < f.content.length := by omega
  obtain ⟨hlo, hhi⟩ := h.inside (by omega)
  have hadd : (load s.mem (fieldOffset (s.headerOf node)) + offset).toNat =
      (load s.mem (fieldOffset (s.headerOf node))).toNat + offset.toNat := by
    rw [BitVec.toNat_add]
    omega
  simp only [List.getElem_map, List.getElem_range, List.getElem_take, List.getElem_drop]
  rw [memcpy_spec (by omega) (by omega) (by omega) i hi]
  have hcontent := h.content (offset.toNat + i) hpos
  rw [List.getD_eq_getElem _ _ hpos] at hcontent
  rw [← hcontent]
  refine congrArg s.mem (BitVec.eq_of_toNat_eq ?_)
  rw [toNat_add_ofNat (by omega), toNat_add_ofNat (by omega)]
  omega

/-- **One read**: the next bytes of the file, as many as fit. -/
theorem Readable.readFs (h : Readable location size s node f) (hfit : location.toNat + size ≤ 2 ^ 32)
    {total c buffer : U32} (ht : total.toNat ≤ f.content.length) (hc : f.content.length + c.toNat < 2 ^ 32)
    (hb : Buffer location size buffer c) :
    (readFs s node total c buffer).1.toNat = min c.toNat (f.content.length - total.toNat) ∧
      Readable location size (readFs s node total c buffer).2 node f ∧
      (List.range (readFs s node total c buffer).1.toNat).map (bytesFrom (readFs s node total c buffer).2.mem buffer) =
        (f.content.drop total.toNat).take c.toNat := by
  obtain ⟨n, m', hread, hmin, hkeep, hbytes⟩ := h.reads hfit (show total.toNat + c.toNat < 2 ^ 32 by omega) hb
  have hap := hb.apart
  unfold Apart at hap
  rw [hread]
  exact ⟨hmin, h.keeps hfit fun x hx hx' => hkeep x (by omega), hbytes⟩

/-- **The caller's loop** joins to what is left of the file. -/
theorem Readable.readAll (hfit : location.toNat + size ≤ 2 ^ 32) {c : U32} (hc0 : c ≠ 0) {buffer : Nat → U32}
    (hb : ∀ j, Buffer location size (buffer j) c) : ∀ (d : Nat) {s : Ramdisk} {total : U32} {j n : Nat},
      Readable location size s node f → f.content.length + c.toNat < 2 ^ 32 → total.toNat ≤ f.content.length →
        f.content.length - total.toNat ≤ d → d < n →
          ∃ s', readAll c buffer n j s node total = some (f.content.drop total.toNat, s')
  | d, s, total, j, n + 1, h, hc, ht, hd, hn => by
    obtain ⟨hcount, hread', hbytes⟩ := h.readFs hfit ht hc (hb j)
    have hcpos : 0 < c.toNat := Nat.pos_of_ne_zero fun h0 => hc0 (BitVec.eq_of_toNat_eq h0)
    unfold Ramdisk.readAll
    by_cases hend : total.toNat = f.content.length
    · have h0 : (s.readFs node total c (buffer j)).1 = 0 := BitVec.eq_of_toNat_eq (by rw [hcount]; simp; omega)
      refine ⟨(s.readFs node total c (buffer j)).2, ?_⟩
      simp only [h0, if_true]
      rw [hend, List.drop_length]
    · have h0 : (s.readFs node total c (buffer j)).1 ≠ 0 := fun h0 => by
        rw [h0] at hcount
        simp at hcount
        omega
      have hnext : (total + (s.readFs node total c (buffer j)).1).toNat =
          total.toNat + min c.toNat (f.content.length - total.toNat) := by
        rw [BitVec.toNat_add, hcount]
        omega
      obtain ⟨d, rfl⟩ : ∃ e, d = e + 1 := ⟨d - 1, by omega⟩
      obtain ⟨s', hs'⟩ := @Readable.readAll hfit c hc0 buffer hb d _ (total + (s.readFs node total c (buffer j)).1)
        (j + 1) n hread' hc (by omega) (by omega) (by omega)
      refine ⟨s', ?_⟩
      simp only [if_neg h0]
      rw [hs', Option.map_some, hbytes, hnext]
      have hdrop : f.content.drop (total.toNat + min c.toNat (f.content.length - total.toNat)) =
          (f.content.drop total.toNat).drop c.toNat := by
        rw [List.drop_drop]
        by_cases hle : c.toNat ≤ f.content.length - total.toNat
        · rw [Nat.min_eq_left hle]
        · rw [List.drop_of_length_le (by omega), List.drop_of_length_le (by omega)]
      rw [hdrop, List.take_append_drop]

/-! ## The ramdisk -/

theorem index_unique (hdistinct : files.Pairwise fun f g => f.name ≠ g.name) {i j : Nat} {f g : File}
    (hi : files[i]? = some f) (hj : files[j]? = some g) (hfg : f.name = g.name) : i = j := by
  have hi' := List.getElem?_eq_some_iff.1 hi
  have hj' := List.getElem?_eq_some_iff.1 hj
  rw [List.pairwise_iff_getElem] at hdistinct
  rcases Nat.lt_trichotomy i j with hlt | heq | hlt
  · exact absurd (hi'.2 ▸ hj'.2 ▸ hfg) (hdistinct i j hi'.1 hj'.1 hlt)
  · exact heq
  · exact absurd (hi'.2 ▸ hj'.2 ▸ hfg.symm) (hdistinct j i hj'.1 hi'.1 hlt)

theorem Loading.readable (h : Loading m st location size files s files.length) (him : Image m location size files)
    (hf : files[i]? = some f) : Readable location size s (nodeAt st i) f ∧
      (s.nodes (nodeAt st i)).length.toNat = f.content.length := by
  have hi := (List.getElem?_eq_some_iff.1 hf).1
  have hfit := him.fits
  have hhead := him.headers
  have hnode := h.node i f hi hf
  obtain ⟨hin1, hin2⟩ := him.inside i f hf
  obtain ⟨h1, h2, h3⟩ := @toNat_fields location i (by omega)
  have hheader : s.headerOf (nodeAt st i) = headerAt location i := by
    unfold headerOf fileHeader headerAt
    rw [hnode, h.headers]
  have hat : (headerAt location i).toNat = location.toNat + 4 + 76 * i := by
    unfold fieldName at h1
    rw [BitVec.toNat_add] at h1
    have := (headerAt location i).isLt
    have h1' : (1 : U32).toNat = 1 := rfl
    omega
  have hoff := h.offset i hi
  have hlen : load s.mem (fieldLength (headerAt location i)) = load m (fieldLength (headerAt location i)) :=
    h.load_eq (by omega) (by omega) hfit fun j hj => by omega
  have hpos : ∀ {j : Nat}, j < f.content.length → (load m (fieldOffset (headerAt location i)) + location).toNat =
      location.toNat + (load m (fieldOffset (headerAt location i))).toNat := fun hj => by
    rw [BitVec.toNat_add]
    omega
  refine ⟨⟨by rw [hnode], ?_, ?_, fun hj => ?_, fun j hj => ?_⟩, ?_⟩
  · show _ ≤ (s.headerOf (nodeAt st i)).toNat ∧ (s.headerOf (nodeAt st i)).toNat + 76 ≤ _
    rw [hheader, hat]
    omega
  · rw [hheader, hlen, him.length i f hf]
  · rw [hheader, hoff, hpos hj]
    omega
  · rw [hheader, hoff, ← him.content i f hf j hj, BitVec.add_comm location]
    have hat' := toNat_add_ofNat (p := load m (fieldOffset (headerAt location i)) + location) (i := j)
      (by rw [hpos hj]; omega)
    rw [hpos hj] at hat'
    exact h.bytes _ (by omega) (by omega) fun k hk => by omega
  · rw [hnode]
    exact him.length i f hf

/-- **The ramdisk, end to end.**  Over an image of files with distinct names, `initialise_initrd` ends; `finddir_fs` on
the root then finds a node for each file, with its length, and nothing for any other name; and a caller that reads the
node in chunks, of any size and into any buffers, gets the content. -/
theorem ramdisk {s : Ramdisk} (him : Image s.mem location size files)
    (hdistinct : files.Pairwise fun f g => f.name ≠ g.name) (hdev : ∀ f ∈ files, f.name ≠ nameDev)
    (hp : Private st location size files.length) :
    ∃ s' steps, (∀ fuel, steps ≤ fuel → initialiseInitrd fuel st s location = some s') ∧
      (∀ f ∈ files, ∀ name, StringAt s'.mem name f.name → ∃ node steps,
        (∀ fuel, steps ≤ fuel → finddirFs fuel s' s'.initrd_root name = some node) ∧ node ≠ 0 ∧
        (s'.nodes node).length.toNat = f.content.length ∧
        ∀ (c : U32) (buffer : Nat → U32), c ≠ 0 → f.content.length + c.toNat < 2 ^ 32 →
          (∀ j, Buffer location size (buffer j) c) → ∃ steps, ∀ fuel, steps ≤ fuel →
            ∃ s'', readAll c buffer fuel 0 s' node 0 = some (f.content, s'')) ∧
      ∀ name l, StringAt s'.mem name l → l ≠ nameDev → (∀ f ∈ files, f.name ≠ l) → ∃ steps, ∀ fuel, steps ≤ fuel →
        finddirFs fuel s' s'.initrd_root name = some 0 := by
  have hfit := him.fits
  obtain ⟨s', hinit, h, -⟩ := (loading_makeRoots him hp (s := s) rfl).makeNodes him hp files.length (Nat.zero_add _)
  refine ⟨s', files.length + 65, fun fuel hf => hinit fuel fuel (by omega) (by omega), fun f hf name hname => ?_,
    fun name l hname hl hall => ⟨files.length + l.length + 1, fun fuel hf => ?_⟩⟩
  · obtain ⟨i, hi⟩ := List.mem_iff_getElem?.1 hf
    have hi' := (List.getElem?_eq_some_iff.1 hi).1
    obtain ⟨hread, hlen⟩ := h.readable him hi
    refine ⟨nodeAt st i, files.length + f.name.length + 1, fun fuel hfuel => ?_, fun h0 => ?_, hlen,
      fun c buffer hc hfile hb => ⟨f.content.length + 1, fun fuel hfuel => ?_⟩⟩
    · obtain ⟨r, hr, hcase⟩ := @Loading.finddirFs _ _ _ _ _ _ fuel _ _ h hp hname (hdev f hf) (by omega) (by omega)
      rw [h.root, hr]
      rcases hcase with ⟨-, hno⟩ | ⟨j, g, hj, hg, rfl⟩
      · exact absurd rfl (hno i f hi)
      · rw [index_unique hdistinct hi hj hg.symm]
    · have hat := toNat_nodeAt hp hi'
      rw [h0] at hat
      have hz : (0 : U32).toNat = 0 := rfl
      exact hp.nonnull.2.2 (BitVec.eq_of_toNat_eq (by omega))
    · exact hread.readAll hfit hc hb f.content.length hfile (Nat.zero_le _) (by omega) (by omega)
  · obtain ⟨r, hr, hcase⟩ := @Loading.finddirFs _ _ _ _ _ _ fuel _ _ h hp hname hl (by omega) (by omega)
    rw [h.root, hr]
    rcases hcase with ⟨rfl, -⟩ | ⟨j, g, hj, hg, -⟩
    · rfl
    · exact absurd hg (hall g (List.mem_of_getElem? hj))

/-- An image of one file, at 0x1000. -/
def oneFile : Ramdisk where
  mem := fun x => if x = 0x1000 then 1 else if x = 0x1005 then 0x61 else if x = 0x1048 then 80 else
    if x = 0x104C then 1 else if x = 0x1050 then 7 else 0
  nodes := fun _ => directory
  initrd_header := 0
  file_headers := 0
  initrd_root := 0
  initrd_dev := 0
  root_nodes := 0
  nroot_nodes := 0

theorem oneFile_image : Image oneFile.mem 0x1000 81 [⟨[0x61], [7]⟩] := by
  have hone : ∀ {i : Nat} {f : File}, [(⟨[0x61], [7]⟩ : File)][i]? = some f → i = 0 ∧ f = ⟨[0x61], [7]⟩ :=
    fun {i f} hf => by
      cases i with
      | zero => exact ⟨rfl, (Option.some.inj hf).symm⟩
      | succ i => simp at hf
  refine ⟨by decide, by decide, by decide, fun i f hf => ?_, fun i f hf => ?_, fun i f hf => ?_, fun i f hf => ?_⟩
  · obtain ⟨rfl, rfl⟩ := hone hf
    exact ⟨stringAt_cons.2 ⟨by decide, by decide, stringAt_nil.2 (by decide)⟩, by decide⟩
  · obtain ⟨rfl, rfl⟩ := hone hf
    decide
  · obtain ⟨rfl, rfl⟩ := hone hf
    decide
  · obtain ⟨rfl, rfl⟩ := hone hf
    decide

/-- `kmalloc` in the placement region. -/
def placement : Storage := ⟨0x2000, 0x3000, 0x4000, fun _ m => m⟩

theorem private_placement {size n : Nat} (hs : size ≤ 0x1000) (hn : n ≤ 0x1000) : Private placement 0x1000 size n := by
  have h1 : (0x1000 : U32).toNat = 0x1000 := rfl
  have h2 : placement.root.toNat = 0x2000 := rfl
  have h3 : placement.dev.toNat = 0x3000 := rfl
  have h4 : placement.nodes.toNat = 0x4000 := rfl
  exact ⟨⟨by decide, by decide, by decide⟩, ⟨by decide, by decide, by omega⟩,
    ⟨.inl (by decide), .inl (by rw [h2, h4]; decide), .inl (by rw [h3, h4]; decide)⟩,
    ⟨.inl (by omega), .inl (by omega), .inl (by omega)⟩, fun _ _ _ _ _ => rfl⟩

/-- An image of two files, at 0x1000. -/
def twoFiles : Ramdisk := { oneFile with
  mem := fun x => if x = 0x1000 then 2 else if x = 0x1005 then 0x61 else if x = 0x1048 then 156 else
    if x = 0x104C then 5 else if x = 0x1051 then 0x62 else if x = 0x1094 then 161 else if x = 0x1098 then 2 else
      if 0x109C ≤ x ∧ x < 0x10A3 then BitVec.setWidth 8 (x - 0x109B) else 0 }

def abFiles : List File := [⟨[0x61], [1, 2, 3, 4, 5]⟩, ⟨[0x62], [6, 7]⟩]

theorem abFiles_cases {P : Nat → File → Prop} (h0 : P 0 ⟨[0x61], [1, 2, 3, 4, 5]⟩) (h1 : P 1 ⟨[0x62], [6, 7]⟩) :
    ∀ i f, abFiles[i]? = some f → P i f
  | 0, _, hf => Option.some.inj hf ▸ h0
  | 1, _, hf => Option.some.inj hf ▸ h1
  | i + 2, _, hf => by simp [abFiles] at hf

theorem twoFiles_image : Image twoFiles.mem 0x1000 163 abFiles :=
  ⟨by decide, by decide, by decide,
    abFiles_cases ⟨stringAt_cons.2 ⟨by decide, by decide, stringAt_nil.2 (by decide)⟩, by decide⟩
      ⟨stringAt_cons.2 ⟨by decide, by decide, stringAt_nil.2 (by decide)⟩, by decide⟩,
    abFiles_cases (by decide) (by decide), abFiles_cases (by decide) (by decide),
    abFiles_cases (by decide) (by decide)⟩

theorem twoFiles_above {x : U32} (h : 0x10A3 ≤ x.toNat) : twoFiles.mem x = 0 := by
  have hne : ∀ a : U32, a.toNat < 0x10A3 → x ≠ a := fun a ha he => by
    rw [he] at h
    omega
  show (if _ then _ else _) = (0 : Byte)
  rw [if_neg (hne _ (by decide)), if_neg (hne _ (by decide)), if_neg (hne _ (by decide)), if_neg (hne _ (by decide)),
    if_neg (hne _ (by decide)), if_neg (hne _ (by decide)), if_neg (hne _ (by decide)), if_neg]
  rintro ⟨-, hlt⟩
  exact absurd (BitVec.lt_def.1 hlt) (Nat.not_lt.2 h)

/-- Both files of the image are found and read, two bytes at a time. -/
theorem ramdisk_twoFiles : ∃ s' steps,
    (∀ fuel, steps ≤ fuel → initialiseInitrd fuel placement twoFiles 0x1000 = some s') ∧
    ∀ f ∈ abFiles, ∀ name, StringAt s'.mem name f.name → ∃ node steps, ∀ fuel, steps ≤ fuel →
      finddirFs fuel s' s'.initrd_root name = some node ∧
        ∃ s'', readAll 2 (fun j => 0x5000 + 2 * BitVec.ofNat 32 (j % 8)) fuel 0 s' node 0 = some (f.content, s'') := by
  have hshort : ∀ f ∈ abFiles, f.content.length + (2 : U32).toNat < 2 ^ 32 := by decide
  obtain ⟨s', steps, hinit, hfiles, -⟩ := ramdisk (s := twoFiles) twoFiles_image (by decide) (by decide)
    (private_placement (by decide) (by decide))
  refine ⟨s', steps, hinit, fun f hf name hname => ?_⟩
  obtain ⟨node, n₁, hfind, -, -, hread⟩ := hfiles f hf name hname
  have hbuffer : ∀ j : Nat, Buffer 0x1000 163 (0x5000 + 2 * BitVec.ofNat 32 (j % 8)) 2 := fun j => by
    have hj : j % 8 < 8 := Nat.mod_lt j (by decide)
    have hbound : ∀ i, i < 8 → 0x5000 ≤ (0x5000 + 2 * BitVec.ofNat 32 i : U32).toNat ∧
        (0x5000 + 2 * BitVec.ofNat 32 i : U32).toNat < 0x6000 := by decide
    obtain ⟨hlo, hhi⟩ := hbound _ hj
    have h2 : (2 : U32).toNat = 2 := rfl
    have h1 : (0x1000 : U32).toNat = 0x1000 := rfl
    exact ⟨by omega, .inl (by omega)⟩
  obtain ⟨n₂, hread⟩ := hread 2 _ (by decide) (hshort f hf) hbuffer
  exact ⟨node, n₁ + n₂, fun fuel hf => ⟨hfind fuel (by omega), hread fuel (by omega)⟩⟩

end Ramdisk

end Loris
