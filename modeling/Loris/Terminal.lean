import Loris.ByteMem
import Loris.RingLog
/-!
# Terminal — `TTY` of `kernel/arch/i386`, on the text memory at `0xB8000`

The screen is a ring of the last 2000 characters: the invariant `Shows` ties the memory to the list of all characters
drawn so far with their colours, `PutChar` keeps it with one more character, and `Write` is `PutChar` again and again.
-/
namespace Loris

open ByteMem RingLog

def vgaWidth : U32 := 80
def vgaHeight : U32 := 25
def vgaMemory : U32 := 0xB8000

inductive VgaColor where
  | black | blue | green | cyan | red | magenta | brown | lightGrey
  | darkGrey | lightBlue | lightGreen | lightCyan | lightRed | lightMagenta | lightBrown | white
  deriving DecidableEq

def vgaEntryColor (fg bg : VgaColor) : Byte := BitVec.ofNat 8 fg.ctorIdx ||| BitVec.ofNat 8 bg.ctorIdx <<< 4

def vgaEntry (uc color : Byte) : BitVec 16 := uc.setWidth 16 ||| color.setWidth 16 <<< 8

/-- The variables of the terminal, and the memory.  `stored` lists the addresses of all stores since `Initialise`; the
code has no such variable. -/
structure TTY where
  mem : Mem
  terminal_row : U32
  terminal_column : U32
  terminal_color : Byte
  terminal_buffer : U32
  stored : List U32

/-- A character and the colour it is drawn in. -/
abbrev Glyph := Byte × Byte

inductive TtyCall where
  | setColor (color : Byte)
  | putChar (c : Byte)
  | write (data : U32) (size : Nat)

namespace TTY

/-- `terminal_buffer[index] = v`. -/
def setEntry (s : TTY) (index : U32) (v : BitVec 16) : TTY :=
  { s with
    mem := storeHalf s.mem (s.terminal_buffer + 2 * index) v
    stored := s.stored ++ [s.terminal_buffer + 2 * index] }

/-- The inner loop of `Initialise` in row `y`, after `n` rounds. -/
def blankRow (s : TTY) (y : Nat) : Nat → TTY
  | 0 => s
  | n + 1 =>
    let s := blankRow s y n
    s.setEntry (BitVec.ofNat 32 y * vgaWidth + BitVec.ofNat 32 n) (vgaEntry 0x20 s.terminal_color)

/-- The outer loop, after `n` rounds. -/
def blankRows (s : TTY) : Nat → TTY
  | 0 => s
  | n + 1 => blankRow (blankRows s n) n vgaWidth.toNat

def initialise (m : Mem) : TTY :=
  blankRows ⟨m, 0, 0, vgaEntryColor .lightGrey .black, vgaMemory, []⟩ vgaHeight.toNat

def setColor (s : TTY) (color : Byte) : TTY := { s with terminal_color := color }

def putEntryAt (s : TTY) (c color : Byte) (x y : U32) : TTY := s.setEntry (y * vgaWidth + x) (vgaEntry c color)

def putChar (s : TTY) (c : Byte) : TTY :=
  let s := s.putEntryAt c s.terminal_color s.terminal_column s.terminal_row
  let s := { s with terminal_column := s.terminal_column + 1 }
  if s.terminal_column = vgaWidth then
    let s := { s with terminal_column := 0, terminal_row := s.terminal_row + 1 }
    if s.terminal_row = vgaHeight then { s with terminal_row := 0 } else s
  else s

/-- `Write`, after `n` rounds of its loop. -/
def write (s : TTY) (data : U32) : Nat → TTY
  | 0 => s
  | n + 1 =>
    let s := write s data n
    s.putChar (s.mem (data + BitVec.ofNat 32 n))

/-- What `Write` has drawn after `n` rounds. -/
def written (s : TTY) (data : U32) : Nat → List Glyph
  | 0 => []
  | n + 1 => written s data n ++
    [((write s data n).mem (data + BitVec.ofNat 32 n), (write s data n).terminal_color)]

def call (s : TTY) : TtyCall → TTY
  | .setColor color => s.setColor color
  | .putChar c => s.putChar c
  | .write data size => s.write data size

def draws (s : TTY) : TtyCall → List Glyph
  | .setColor _ => []
  | .putChar c => [(c, s.terminal_color)]
  | .write data size => s.written data size

def run (s : TTY) (l : List TtyCall) : TTY := l.foldl call s

/-- All characters that a run draws, in the colours set when they are. -/
def drawn (s : TTY) : List TtyCall → List Glyph
  | [] => []
  | c :: l => s.draws c ++ drawn (s.call c) l

/-- `Write` in pieces. -/
def pieces (data : U32) : List Nat → List TtyCall
  | [] => []
  | n :: l => .write data n :: pieces (data + BitVec.ofNat 32 n) l

/-- Where cell `k` of the screen is. -/
def cellAddress (k : Nat) : U32 := vgaMemory + 2 * BitVec.ofNat 32 k

def cell (s : TTY) (k : Nat) : BitVec 16 := loadHalf s.mem (cellAddress k)

/-- A blank in the colour of `Initialise`. -/
def blank : BitVec 16 := vgaEntry 0x20 (vgaEntryColor .lightGrey .black)

/-! ## The screen is a ring -/

theorem toNat_cellAddress {k : Nat} (hk : k < 2000) : (cellAddress k).toNat = 0xB8000 + 2 * k := by
  have h2 : (2 * BitVec.ofNat 32 k).toNat = 2 * k := by
    rw [BitVec.toNat_mul, BitVec.toNat_ofNat, show (2 : U32).toNat = 2 from rfl]
    omega
  rw [cellAddress, BitVec.toNat_add, h2, show vgaMemory.toNat = 0xB8000 from rfl]
  omega

/-- All stores since `Initialise` were to cells of the screen. -/
structure OnScreen (m : Mem) (s : TTY) : Prop where
  buffer : s.terminal_buffer = vgaMemory
  stored : ∀ a ∈ s.stored, ∃ k, k < 2000 ∧ a = cellAddress k
  keeps : Keeps 0xB8000 0xB8FA0 m s.mem

/-- **The invariant**: `d` is what has been drawn since `Initialise`, and the screen shows the end of it. -/
structure Shows (m : Mem) (s : TTY) (d : List Glyph) : Prop extends OnScreen m s where
  column : s.terminal_column.toNat = d.length % 80
  row : s.terminal_row.toNat = d.length / 80 % 25
  cell : ∀ k, k < 2000 → s.cell k = ((latest 2000 k d).map fun g => vgaEntry g.1 g.2).getD blank

variable {m : Mem} {s : TTY} {d : List Glyph} {k j : Nat} {i : U32} {v : BitVec 16}

namespace OnScreen

/-- Where a store goes. -/
theorem address (h : OnScreen m s) (hi : i = BitVec.ofNat 32 k) : s.terminal_buffer + 2 * i = cellAddress k := by
  rw [h.buffer, hi, cellAddress]

theorem keeps_setEntry (h : OnScreen m s) (hi : i = BitVec.ofNat 32 k) (hk : k < 2000) :
    Keeps (0xB8000 + 2 * k) (0xB8000 + 2 * k + 2) s.mem (s.setEntry i v).mem := by
  have := keeps_storeHalf s.mem (cellAddress k) v (by rw [toNat_cellAddress hk]; omega)
  rwa [toNat_cellAddress hk, ← h.address hi] at this

theorem setEntry (h : OnScreen m s) (hi : i = BitVec.ofNat 32 k) (hk : k < 2000) : OnScreen m (s.setEntry i v) where
  buffer := h.buffer
  stored a ha := (List.mem_append.1 ha).elim (h.stored a) fun hnew =>
    ⟨k, hk, (List.mem_singleton.1 hnew).trans (h.address hi)⟩
  keeps := h.keeps.trans ((h.keeps_setEntry hi hk).mono (by omega) (by omega))

/-- **A store fills one cell** and leaves the others. -/
theorem cell_setEntry (h : OnScreen m s) (hi : i = BitVec.ofNat 32 k) (hk : k < 2000) (hj : j < 2000) :
    (s.setEntry i v).cell j = if k = j then v else s.cell j := by
  split
  · next he =>
    subst he
    show loadHalf (storeHalf s.mem (s.terminal_buffer + 2 * i) v) (cellAddress k) = v
    rw [h.address hi, loadHalf_storeHalf_same]
  · next he =>
    have hn := toNat_cellAddress hj
    exact (h.keeps_setEntry hi hk).loadHalf_eq (by omega) (by omega)

end OnScreen

theorem index_eq {x y : U32} {n : Nat} (hx : x.toNat = n % 80) (hy : y.toNat = n / 80 % 25) :
    y * vgaWidth + x = BitVec.ofNat 32 (n % 2000) := by
  have hn : n % 2000 = n % 80 + 80 * (n / 80 % 25) := Nat.mod_mul (x := n) (a := 80) (b := 25)
  apply BitVec.eq_of_toNat_eq
  rw [BitVec.toNat_add, BitVec.toNat_mul, BitVec.toNat_ofNat, hx, hy, show vgaWidth.toNat = 80 from rfl, hn]
  omega

/-- `PutChar` once its entry is stored. -/
def advance (s : TTY) : TTY :=
  if s.terminal_column + 1 = vgaWidth then
    if s.terminal_row + 1 = vgaHeight then { s with terminal_column := 0, terminal_row := 0 }
    else { s with terminal_column := 0, terminal_row := s.terminal_row + 1 }
  else { s with terminal_column := s.terminal_column + 1 }

theorem putChar_eq (s : TTY) (c : Byte) :
    s.putChar c = (s.putEntryAt c s.terminal_color s.terminal_column s.terminal_row).advance := rfl

/-- What the cursor does, and that it is all. -/
theorem advance_spec {n : Nat} (hc : s.terminal_column.toNat = n % 80) (hr : s.terminal_row.toNat = n / 80 % 25) :
    s.advance.terminal_column.toNat = (n + 1) % 80 ∧ s.advance.terminal_row.toNat = (n + 1) / 80 % 25 ∧
      s.advance = { s with
        terminal_column := s.advance.terminal_column
        terminal_row := s.advance.terminal_row } := by
  have hc1 := toNat_add_ofNat (p := s.terminal_column) (i := 1) (by omega)
  have hr1 := toNat_add_ofNat (p := s.terminal_row) (i := 1) (by omega)
  unfold advance
  split
  · next hw =>
    have hw' : s.terminal_column.toNat + 1 = 80 := hc1.symm.trans (congrArg BitVec.toNat hw)
    split
    · next hh =>
      have hh' : s.terminal_row.toNat + 1 = 25 := hr1.symm.trans (congrArg BitVec.toNat hh)
      exact ⟨by show 0 = _; omega, by show 0 = _; omega, rfl⟩
    · next hh =>
      have hh' : s.terminal_row.toNat + 1 ≠ 25 := fun h => hh (BitVec.eq_of_toNat_eq (hr1.trans h))
      exact ⟨by show 0 = _; omega, hr1.trans (by omega), rfl⟩
  · next hw =>
    have hw' : s.terminal_column.toNat + 1 ≠ 80 := fun h => hw (BitVec.eq_of_toNat_eq (hc1.trans h))
    exact ⟨hc1.trans (by omega), by show s.terminal_row.toNat = _; omega, rfl⟩

/-- **`PutChar` keeps the invariant** with one more character. -/
theorem Shows.putChar (h : Shows m s d) (c : Byte) : Shows m (s.putChar c) (d ++ [(c, s.terminal_color)]) := by
  have hi := index_eq h.column h.row
  have hk : d.length % 2000 < 2000 := Nat.mod_lt _ (by decide)
  have hset := h.toOnScreen.setEntry (v := vgaEntry c s.terminal_color) hi hk
  obtain ⟨hcol, hrow, hrest⟩ := @advance_spec (s.putEntryAt c s.terminal_color s.terminal_column s.terminal_row)
    d.length h.column h.row
  rw [putChar_eq]
  rw [hrest]
  refine { buffer := hset.buffer, stored := hset.stored, keeps := hset.keeps, column := ?_, row := ?_, cell := ?_ }
  · rw [List.length_append]
    exact hcol
  · rw [List.length_append]
    exact hrow
  · intro j hj
    refine (h.toOnScreen.cell_setEntry hi hk hj).trans ?_
    rw [latest_concat]
    split
    · rfl
    · exact h.cell j hj

theorem Shows.setColor (h : Shows m s d) (color : Byte) : Shows m (s.setColor color) d :=
  { h with }

theorem Shows.write (h : Shows m s d) (data : U32) : ∀ n, Shows m (s.write data n) (d ++ s.written data n)
  | 0 => by rw [written, List.append_nil]; exact h
  | n + 1 => by
    rw [written, ← List.append_assoc]
    exact (h.write data n).putChar _

theorem Shows.call (h : Shows m s d) : ∀ c, Shows m (s.call c) (d ++ s.draws c)
  | .setColor color => by rw [draws, List.append_nil]; exact h.setColor color
  | .putChar c => h.putChar c
  | .write data n => h.write data n

/-- **Every run keeps it.** -/
theorem Shows.run : ∀ {l : List TtyCall} {s : TTY} {d : List Glyph}, Shows m s d → Shows m (s.run l) (d ++ s.drawn l)
  | [], _, _, h => by rw [drawn, List.append_nil]; exact h
  | c :: l, _, _, h => by
    rw [drawn, ← List.append_assoc]
    exact (h.call c).run

/-! ## `Initialise` -/

/-- `n` cells are blank, and the cursor is at the first. -/
structure Blanked (m : Mem) (s : TTY) (n : Nat) : Prop extends OnScreen m s where
  color : s.terminal_color = vgaEntryColor .lightGrey .black
  column : s.terminal_column = 0
  row : s.terminal_row = 0
  cell : ∀ j, j < n → s.cell j = blank

theorem Blanked.setEntry (h : Blanked m s k) (hi : i = BitVec.ofNat 32 k) (hk : k < 2000) :
    Blanked m (s.setEntry i (vgaEntry 0x20 s.terminal_color)) (k + 1) :=
  { h.toOnScreen.setEntry hi hk with
    color := h.color
    column := h.column
    row := h.row
    cell := fun j hj => by
      rw [h.toOnScreen.cell_setEntry hi hk (by omega), h.color]
      split
      · rfl
      · exact h.cell j (by omega) }

theorem Blanked.blankRow {y : Nat} (h : Blanked m s (80 * y)) (hy : y < 25) : ∀ {n : Nat}, n ≤ 80 →
    Blanked m (s.blankRow y n) (80 * y + n)
  | 0, _ => h
  | n + 1, hn => by
    refine (h.blankRow hy (by omega)).setEntry (BitVec.eq_of_toNat_eq ?_) (by omega)
    rw [BitVec.toNat_add, BitVec.toNat_mul, BitVec.toNat_ofNat, BitVec.toNat_ofNat, BitVec.toNat_ofNat,
      show vgaWidth.toNat = 80 from rfl]
    omega

theorem Blanked.blankRows (h : Blanked m s 0) : ∀ {n : Nat}, n ≤ 25 → Blanked m (s.blankRows n) (80 * n)
  | 0, _ => h
  | n + 1, hn => (h.blankRows (by omega)).blankRow (by omega) (Nat.le_refl 80)

/-- **`Initialise` shows an empty sequence.** -/
theorem shows_initialise (m : Mem) : Shows m (initialise m) [] := by
  have hstart : Blanked m ⟨m, 0, 0, vgaEntryColor .lightGrey .black, vgaMemory, []⟩ 0 :=
    { buffer := rfl, stored := fun _ h => (List.not_mem_nil h).elim, keeps := Keeps.refl _ _ _, color := rfl,
      column := rfl, row := rfl, cell := fun _ h => absurd h (Nat.not_lt_zero _) }
  have h : Blanked m (initialise m) 2000 := hstart.blankRows (Nat.le_refl 25)
  refine { h.toOnScreen with column := ?_, row := ?_, cell := fun k hk => h.cell k hk }
  · rw [h.column]; rfl
  · rw [h.row]; rfl

/-! ## Pieces of a `Write` -/

theorem write_add (s : TTY) (data : U32) (a : Nat) : ∀ b,
    s.write data (a + b) = (s.write data a).write (data + BitVec.ofNat 32 a) b
  | 0 => rfl
  | b + 1 => by
    have hp : data + BitVec.ofNat 32 (a + b) = data + BitVec.ofNat 32 a + BitVec.ofNat 32 b := by
      rw [BitVec.ofNat_add, BitVec.add_assoc]
    rw [← Nat.add_assoc, write, write, write_add s data a b, hp]

/-- **A `Write` in pieces** is the `Write`. -/
theorem run_pieces : ∀ (l : List Nat) (s : TTY) (data : U32), s.run (pieces data l) = s.write data (l.foldr (· + ·) 0)
  | [], _, _ => rfl
  | n :: l, s, data => by
    rw [List.foldr_cons, write_add, ← run_pieces l]
    rfl

theorem putChar_color (s : TTY) (c : Byte) : (s.putChar c).terminal_color = s.terminal_color := by
  rw [putChar_eq, advance]
  split
  · split <;> rfl
  · rfl

theorem write_color (s : TTY) (data : U32) : ∀ n, (s.write data n).terminal_color = s.terminal_color
  | 0 => rfl
  | n + 1 => (putChar_color ..).trans (write_color s data n)

/-- What is not read from the screen is drawn as it is when the `Write` begins. -/
theorem Shows.written_eq (h : Shows m s d) {data : U32} : ∀ {n : Nat}, data.toNat + n ≤ 2 ^ 32 →
    (data.toNat + n ≤ 0xB8000 ∨ 0xB8FA0 ≤ data.toNat) →
      s.written data n = (List.range n).map fun j => (s.mem (data + BitVec.ofNat 32 j), s.terminal_color)
  | 0, _, _ => rfl
  | n + 1, hw, ha => by
    have hn := toNat_add_ofNat (p := data) (i := n) (by omega)
    have hout : (data + BitVec.ofNat 32 n).toNat < 0xB8000 ∨ 0xB8FA0 ≤ (data + BitVec.ofNat 32 n).toNat := by omega
    have hsame : (s.write data n).mem (data + BitVec.ofNat 32 n) = s.mem (data + BitVec.ofNat 32 n) :=
      ((h.write data n).keeps _ hout).trans (h.keeps _ hout).symm
    rw [written, h.written_eq (by omega) (by omega), List.range_succ, List.map_append, hsame, write_color]
    rfl

/-- **The terminal is a ring of its last 2000 characters**, for every run from `Initialise`: where the cursor is, where
the stores go, what every cell shows, what a `Write` draws, and that its pieces do not matter. -/
theorem terminal_is_ring (m : Mem) (l : List TtyCall) :
    ((initialise m).run l).terminal_column.toNat = ((initialise m).drawn l).length % 80 ∧
    ((initialise m).run l).terminal_row.toNat = ((initialise m).drawn l).length / 80 % 25 ∧
    (∀ a ∈ ((initialise m).run l).stored, ∃ k, k < 2000 ∧ a = cellAddress k) ∧
    Keeps 0xB8000 0xB8FA0 m ((initialise m).run l).mem ∧
    (∀ n, (hn : n < ((initialise m).drawn l).length) →
      (∀ i, n < i → i < ((initialise m).drawn l).length → i % 2000 ≠ n % 2000) →
      ((initialise m).run l).cell (n % 2000) =
        vgaEntry ((initialise m).drawn l)[n].1 ((initialise m).drawn l)[n].2) ∧
    (∀ k, k < 2000 → (∀ i, i < ((initialise m).drawn l).length → i % 2000 ≠ k) →
      ((initialise m).run l).cell k = blank) ∧
    (∀ data size, data.toNat + size ≤ 2 ^ 32 → (data.toNat + size ≤ 0xB8000 ∨ 0xB8FA0 ≤ data.toNat) →
      ((initialise m).run l).written data size = (List.range size).map fun j =>
        (((initialise m).run l).mem (data + BitVec.ofNat 32 j), ((initialise m).run l).terminal_color)) ∧
    ∀ data sizes, ((initialise m).run l).run (pieces data sizes) =
      ((initialise m).run l).write data (sizes.foldr (· + ·) 0) := by
  have h : Shows m ((initialise m).run l) ((initialise m).drawn l) := (shows_initialise m).run
  refine ⟨h.column, h.row, h.stored, h.keeps, fun n hn hlast => ?_, fun k hk hnone => ?_,
    fun data size hw ha => h.written_eq hw ha, fun data sizes => run_pieces ..⟩
  · rw [h.cell _ (Nat.mod_lt _ (by decide)), latest_eq_some hn rfl hlast]
    rfl
  · rw [h.cell k hk, latest_eq_none hnone]
    rfl

end TTY

end Loris
