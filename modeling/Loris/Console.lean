import Loris.Printf
import Loris.Terminal
/-!
# Console — `printf`, `puts` and the keyboard handler, on the terminal

`putchar` writes to the terminal, so `printf` changes the memory that it reads its format and its strings from.  As long
as these lie apart from the screen, every call draws its rendering and nothing else (`Drawing.loop`), and a run of calls
draws one rendering after another, whatever the rest of the kernel does to the rest of memory between them.
-/
namespace Loris

open ByteMem

/-- `bytes[i]`, as it is when it is read. -/
def Source.byte (s : TTY) : Source → Nat → Byte
  | .memory data, i => s.mem (data + BitVec.ofNat 32 i)
  | .char c, _ => c

/-- `putchar`: a `Write` of its local `c`, which is one `PutChar`. -/
def putcharTo (s : TTY) (ic : Int) : TTY × Int := (s.putChar (BitVec.ofInt 8 ic), putchar ic)

/-- `print` from byte `i` on, with `n` bytes to go. -/
def printTo (data : Source) (s : TTY) (i : Nat) : Nat → TTY × Bool
  | 0 => (s, true)
  | n + 1 =>
    let r := putcharTo s (data.byte s i).toNat
    if r.2 = eof then (r.1, false) else printTo data r.1 (i + 1) n

/-- The locals of `printf`, and the terminal. -/
structure Console where
  tty : TTY
  format : U32
  parameters : Nat → U32
  written : U32

/-- The loop of `printf`. -/
def consoleLoop (fuel : Nat) : Nat → Console → Option (Int × TTY)
  | 0, _ => none
  | n + 1, c =>
    if c.tty.mem c.format = 0 then some (c.written.toInt, c.tty)
    else
      (nextPiece fuel c.tty.mem c.format c.parameters).bind fun piece =>
        let maxrem := intMax - c.written
        if maxrem < piece.length then some (-1, c.tty)
        else
          let r := printTo piece.data c.tty 0 piece.length.toNat
          if r.2 then consoleLoop fuel n ⟨r.1, piece.format, piece.parameters, c.written + piece.length⟩
          else some (-1, r.1)

/-- `printf` to the terminal: its result, and the terminal behind it. -/
def printfTo (fuel : Nat) (s : TTY) (format : U32) (parameters : Nat → U32) : Option (Int × TTY) :=
  consoleLoop fuel fuel ⟨s, format, parameters, 0⟩

/-- Where the literals `"%s\n"` of `puts` and `"%c"` of `keyboard_handler` are. -/
structure Literals where
  line : U32
  character : U32

def puts (fuel : Nat) (lits : Literals) (s : TTY) (string : U32) : Option (Int × TTY) :=
  printfTo fuel s lits.line fun _ => string

/-- `CharacterMap`; all keys behind F12 are undefined. -/
def characterMap (scancode : Byte) : Byte :=
  ([0, 27, '1'.toNat, '2'.toNat, '3'.toNat, '4'.toNat, '5'.toNat, '6'.toNat, '7'.toNat, '8'.toNat,
    '9'.toNat, '0'.toNat, '-'.toNat, '='.toNat, 8,
    9,
    'q'.toNat, 'w'.toNat, 'e'.toNat, 'r'.toNat,
    't'.toNat, 'y'.toNat, 'u'.toNat, 'i'.toNat, 'o'.toNat, 'p'.toNat, '['.toNat, ']'.toNat, 10,
    0,
    'a'.toNat, 's'.toNat, 'd'.toNat, 'f'.toNat, 'g'.toNat, 'h'.toNat, 'j'.toNat, 'k'.toNat, 'l'.toNat, ';'.toNat,
    39, 96, 0,
    92, 'z'.toNat, 'x'.toNat, 'c'.toNat, 'v'.toNat, 'b'.toNat, 'n'.toNat,
    'm'.toNat, ','.toNat, '.'.toNat, '/'.toNat, 0,
    '*'.toNat,
    0, ' '.toNat, 0,
    0, 0, 0, 0, 0, 0, 0, 0, 0, 0,
    0, 0, 0, 0, 0, '-'.toNat, 0, 0, 0, '+'.toNat, 0, 0, 0, 0, 0,
    0, 0, 0, 0, 0] : List Nat).map (BitVec.ofNat 8) |>.getD scancode.toNat 0

/-- `keyboard_handler` for the byte that `inb` reads. -/
def keyboardHandler (fuel : Nat) (lits : Literals) (s : TTY) (scancode : Byte) : Option TTY :=
  if scancode &&& 0x80 ≠ 0 then some s
  else (printfTo fuel s lits.character fun _ => (characterMap scancode).setWidth 32).map Prod.snd

/-! ## The screen apart -/

/-- The string at `p`, apart from the screen. -/
structure Legible (m : Mem) (p : U32) (l : List Byte) : Prop where
  string : StringAt m p l
  nowrap : p.toNat + l.length < 2 ^ 32
  apart : p.toNat + l.length < 0xB8000 ∨ 0xB8FA0 ≤ p.toNat

/-- An argument as `va_arg` reads it, its string apart from the screen. -/
def LegibleArg (m : Mem) (w : U32) : Arg → Prop
  | .char c => w.setWidth 8 = c
  | .str l => Legible m w l

def LegibleArgs (m : Mem) (parameters : Nat → U32) (args : List Arg) : Prop :=
  ∀ i a, args[i]? = some a → LegibleArg m (parameters i) a

/-- What `data` points to is `l`, whatever the screen shows. -/
def Source.Holds (m : Mem) (data : Source) (l : List Byte) : Prop :=
  ∀ s : TTY, Keeps 0xB8000 0xB8FA0 m s.mem → ∀ j b, l[j]? = some b → data.byte s j = b

variable {m m' : Mem} {s : TTY} {d : List Glyph} {p : U32} {parameters : Nat → U32} {f l chunk R : List Byte}
  {args args' : List Arg} {data : Source}

theorem Legible.keeps (h : Legible m p l) (hk : Keeps 0xB8000 0xB8FA0 m m') : Legible m' p l :=
  ⟨h.string.keeps hk h.nowrap h.apart, h.nowrap, h.apart⟩

theorem LegibleArgs.keeps (h : LegibleArgs m parameters args) (hk : Keeps 0xB8000 0xB8FA0 m m') :
    LegibleArgs m' parameters args := fun i a hi => by
  have := h i a hi
  cases a with
  | char c => exact this
  | str l => exact this.keeps hk

theorem LegibleArgs.argsAt (h : LegibleArgs m parameters args) : ArgsAt m parameters args := fun i a hi => by
  have := h i a hi
  cases a with
  | char c => exact this
  | str l => exact this.string

theorem Legible.drop {n : Nat} (h : Legible m p l) (hn : n ≤ l.length) :
    Legible m (p + BitVec.ofNat 32 n) (l.drop n) := by
  have hw := h.nowrap
  have ha := h.apart
  have hp := toNat_add_ofNat (p := p) (i := n) (by omega)
  exact ⟨h.string.drop hn, by rw [hp, List.length_drop]; omega, by rw [hp, List.length_drop]; omega⟩

theorem strings_legible (m : Mem) : Strings m (Legible m) (LegibleArg m) where
  string := Legible.string
  drop := Legible.drop
  char := id
  str := id

/-- A piece that begins a legible string stays what it is. -/
theorem Source.Begins.holds (h : data.Begins (Legible m) chunk) : data.Holds m chunk := fun s hk j b hj => by
  cases h with
  | char => exact List.mem_singleton.1 (List.mem_of_getElem? hj) ▸ rfl
  | @memory p l n hp hn =>
    obtain ⟨hjn, hjl⟩ := List.getElem?_eq_some_iff.1 hj
    rw [List.length_take] at hjn
    have hmem := isString_take (hp.keeps hk).string (show j + 1 ≤ l.length by omega)
    have hget := congrArg (·[j]?) hmem
    simp only [List.getElem?_map, List.getElem?_range (show j < j + 1 by omega), Option.map_some,
      List.getElem?_take_of_lt (show j < j + 1 by omega)] at hget
    rw [List.getElem?_take_of_lt (by omega), ← hget] at hj
    exact Option.some.inj hj

/-! ## What a call draws -/

/-- The characters of `l` in the colour `color`. -/
def glyphs (color : Byte) (l : List Byte) : List Glyph := l.map (·, color)

/-- The terminal once the characters of `l` are put to it. -/
def TTY.puts (s : TTY) (l : List Byte) : TTY := l.foldl TTY.putChar s

theorem TTY.puts_color (s : TTY) : ∀ l : List Byte, (s.puts l).terminal_color = s.terminal_color
  | [] => rfl
  | b :: l => ((s.putChar b).puts_color l).trans (s.putChar_color b)

theorem TTY.puts_append (s : TTY) (l l' : List Byte) : s.puts (l ++ l') = (s.puts l).puts l' := List.foldl_append

open TTY in
theorem shows_puts : ∀ {l : List Byte} {s : TTY} {d : List Glyph}, Shows m s d →
    Shows m (s.puts l) (d ++ glyphs s.terminal_color l)
  | [], s, d, h => by
    show Shows m s (d ++ [])
    rw [List.append_nil]
    exact h
  | b :: l, s, d, h => by
    have := shows_puts (l := l) (h.putChar b)
    rw [putChar_color, List.append_assoc] at this
    exact this

/-- **`print`** draws what its data holds. -/
theorem printTo_eq : ∀ {l : List Byte} {s : TTY} {d : List Glyph} {i : Nat}, TTY.Shows m s d →
    (∀ s' : TTY, Keeps 0xB8000 0xB8FA0 m s'.mem → ∀ j b, l[j]? = some b → data.byte s' (i + j) = b) →
      printTo data s i l.length = (s.puts l, true)
  | [], _, _, _, _, _ => rfl
  | b :: l, s, d, i, h, hl => by
    have hb : data.byte s i = b := hl s h.keeps 0 b rfl
    have hne : ¬ putchar b.toNat = eof := fun h => by
      unfold putchar eof at h
      omega
    have hchar : BitVec.ofInt 8 (b.toNat : Int) = b := by
      rw [BitVec.ofInt_natCast, BitVec.ofNat_toNat, BitVec.setWidth_eq]
    have hrest : ∀ s' : TTY, Keeps 0xB8000 0xB8FA0 m s'.mem → ∀ j c, l[j]? = some c → data.byte s' (i + 1 + j) = c :=
      fun s' hk j c hj => by
        rw [Nat.add_assoc, Nat.add_comm 1]
        exact hl s' hk (j + 1) c hj
    unfold printTo putcharTo
    simp only [List.length_cons]
    rw [hb, if_neg hne, hchar]
    exact printTo_eq (h.putChar b) hrest

/-- What is left to do is to draw `R`, and `out` has been drawn. -/
structure Drawing (m : Mem) (s : TTY) (c : Console) (f : List Byte) (args : List Arg) (out R : List Byte) : Prop where
  tty : c.tty = s.puts out
  format : Legible m c.format f
  parameters : LegibleArgs m c.parameters args
  rest : render f args = some R
  count : c.written.toNat = out.length
  bound : out.length ≤ intMax.toNat

theorem consoleLoop_next {fuel n : Nat} {c : Console} {piece : Printf.Piece} (hb : c.tty.mem c.format ≠ 0)
    (hp : nextPiece fuel c.tty.mem c.format c.parameters = some piece) : consoleLoop fuel (n + 1) c =
      if intMax - c.written < piece.length then some (-1, c.tty)
      else if (printTo piece.data c.tty 0 piece.length.toNat).2 then
        consoleLoop fuel n ⟨(printTo piece.data c.tty 0 piece.length.toNat).1, piece.format, piece.parameters,
          c.written + piece.length⟩
      else some (-1, (printTo piece.data c.tty 0 piece.length.toNat).1) := by
  rw [consoleLoop, if_neg hb, hp, Option.bind_some]

/-- **The whole loop**: the rendering is drawn, or -1 is returned when it is too long, and a part of it is drawn. -/
theorem Drawing.loop (hs : TTY.Shows m s d) : ∀ {n : Nat} {c : Console} {f : List Byte} {args : List Arg}
    {out R : List Byte}, f.length ≤ n → Drawing m s c f args out R → ∃ r drawn steps,
      (∀ fuel k, steps ≤ fuel → n < k → consoleLoop fuel k c = some (r, s.puts drawn)) ∧
      (if out.length + R.length ≤ intMax.toNat then r = out.length + R.length ∧ drawn = out ++ R
        else r = -1 ∧ drawn <+: out ++ R ∧ drawn ≠ out ++ R)
  | n, c, [], args, out, R, _, h => by
    have hmax : intMax.toNat = 0x7FFFFFFF := rfl
    have hbound := h.bound
    have hshow := shows_puts (l := out) hs
    have hnul := stringAt_nil.1 (h.format.keeps hshow.keeps).string
    obtain rfl : [] = R := Option.some.inj h.rest
    refine ⟨out.length, out, 0, fun fuel k _ hk => ?_, ?_⟩
    · obtain ⟨k, rfl⟩ : ∃ j, k = j + 1 := ⟨k - 1, by omega⟩
      unfold consoleLoop
      rw [h.tty, if_pos hnul, BitVec.toInt_eq_toNat_of_lt (by rw [h.count]; omega), h.count]
    · rw [List.length_nil, Nat.add_zero, if_pos hbound, List.append_nil]
      exact ⟨(Int.add_zero _).symm, rfl⟩
  | 0, _, _ :: _, _, _, _, hn, _ => absurd hn (Nat.not_succ_le_zero _)
  | n + 1, c, b :: f, args, out, R, hn, h => by
    have hmax : intMax.toNat = 0x7FFFFFFF := rfl
    have hcount := h.count
    have hbound := h.bound
    have hshow := shows_puts (l := out) hs
    have hk := hshow.keeps
    rw [← h.tty] at hshow hk
    obtain ⟨piece, chunk, f', R', args', steps, hpiece, rfl, hlen, hbegins, hf', hargs', hrest, hlt⟩ :=
      (strings_legible c.tty.mem).next_piece (h.format.keeps hk) (h.parameters.keeps hk) (List.cons_ne_nil b f) h.rest
    have hb : c.tty.mem c.format ≠ 0 := by
      rw [(stringAt_cons.1 (h.format.keeps hk).string).2.1]
      exact (stringAt_cons.1 h.format.string).1
    have hrem : intMax - c.written < piece.length ↔ intMax.toNat < out.length + chunk.length := by
      rw [BitVec.lt_def, BitVec.toNat_sub, hlen, hcount]
      omega
    by_cases hover : intMax.toNat < out.length + chunk.length
    · refine ⟨-1, out, steps, fun fuel k hfuel hk => ?_, ?_⟩
      · obtain ⟨k, rfl⟩ : ∃ j, k = j + 1 := ⟨k - 1, by omega⟩
        rw [consoleLoop_next hb (hpiece fuel hfuel), if_pos (hrem.2 hover), h.tty]
      · rw [if_neg (by rw [List.length_append]; omega)]
        refine ⟨rfl, List.prefix_append .., fun he => ?_⟩
        have := congrArg List.length he
        rw [List.length_append, List.length_append] at this
        omega
    · have hback : Keeps 0xB8000 0xB8FA0 c.tty.mem m := fun x hx => (hk x hx).symm
      have hprint := @printTo_eq m piece.data chunk c.tty _ 0 hshow fun s' hk' j b hj => by
        rw [Nat.zero_add]
        exact hbegins.holds s' (hback.trans hk') j b hj
      rw [← hlen] at hprint
      have hnext : Drawing m s ⟨c.tty.puts chunk, piece.format, piece.parameters, c.written + piece.length⟩ f' args'
          (out ++ chunk) R' :=
        { tty := by rw [TTY.puts_append, h.tty]
          format := hf'.keeps hback
          parameters := LegibleArgs.keeps hargs' hback
          rest := hrest
          count := by rw [BitVec.toNat_add, hlen, hcount, List.length_append]; omega
          bound := by rw [List.length_append]; omega }
      obtain ⟨r, drawn, steps', hrun, hres⟩ := hnext.loop hs (n := n) (by omega)
      refine ⟨r, drawn, steps + steps', fun fuel k hfuel hk => ?_, ?_⟩
      · obtain ⟨k, rfl⟩ : ∃ j, k = j + 1 := ⟨k - 1, by omega⟩
        rw [consoleLoop_next hb (hpiece fuel (by omega)), if_neg (mt hrem.1 hover), hprint, if_pos rfl]
        exact hrun fuel k (by omega) (by omega)
      · rw [List.append_assoc, List.length_append, Nat.add_assoc] at hres
        rw [List.length_append]
        split at hres <;> rename_i hle
        · rw [if_pos hle]
          exact ⟨hres.1.trans (by push_cast; omega), hres.2⟩
        · rw [if_neg hle]
          exact hres

/-! ## Runs -/

inductive ConsoleCall where
  | setColor (color : Byte)
  | printf (format : U32) (parameters : Nat → U32)
  | puts (string : U32)
  | key (scancode : Byte)

/-- The rest of the kernel has left `m` in memory; the screen it does not write to. -/
def TTY.elsewhere (s : TTY) (m : Mem) : TTY :=
  { s with mem := fun x => if 0xB8000 ≤ x.toNat ∧ x.toNat < 0xB8FA0 then s.mem x else m x }

/-- A call: the terminal behind it, and its result if it has one. -/
def consoleCall (fuel : Nat) (lits : Literals) (s : TTY) : ConsoleCall → Option (TTY × List Int)
  | .setColor color => some (s.setColor color, [])
  | .printf format parameters => (printfTo fuel s format parameters).map fun r => (r.2, [r.1])
  | .puts string => (puts fuel lits s string).map fun r => (r.2, [r.1])
  | .key scancode => (keyboardHandler fuel lits s scancode).map fun s => (s, [])

/-- A run of calls, each behind what the rest of the kernel has done to memory. -/
def consoleRun (fuel : Nat) (lits : Literals) (s : TTY) : List (Mem × ConsoleCall) → Option (TTY × List Int)
  | [] => some (s, [])
  | (m, call) :: l =>
    (consoleCall fuel lits (s.elsewhere m) call).bind fun r =>
      (consoleRun fuel lits r.1 l).map fun t => (t.1, r.2 ++ t.2)

def lineFormat : List Byte := [percent, letterS, 0x0A]
def characterFormat : List Byte := [percent, letterC]

/-- What a call must find in memory. -/
def Callable (lits : Literals) (m : Mem) : ConsoleCall → Prop
  | .setColor _ => True
  | .printf format parameters => ∃ f args R, Legible m format f ∧ LegibleArgs m parameters args ∧ render f args = some R
  | .puts string => Legible m lits.line lineFormat ∧ ∃ l, Legible m string l
  | .key _ => Legible m lits.character characterFormat

/-- What is drawn of `R`, and what is returned. -/
def Outcome (R drawn : List Byte) (r : Int) : Prop :=
  if R.length ≤ intMax.toNat then r = R.length ∧ drawn = R else r = -1 ∧ drawn <+: R ∧ drawn ≠ R

/-- **What a run of calls draws**, beginning with the colour `color`, and what the calls return. -/
inductive Draws : Byte → List (Mem × ConsoleCall) → List Glyph → List Int → Prop
  | nil {color : Byte} : Draws color [] [] []
  | setColor {color color' : Byte} {m : Mem} {l : List (Mem × ConsoleCall)} {d : List Glyph} {r : List Int} :
    Draws color' l d r → Draws color ((m, .setColor color') :: l) d r
  | printf {color : Byte} {m : Mem} {l : List (Mem × ConsoleCall)} {d : List Glyph} {r : List Int} {format : U32}
    {parameters : Nat → U32} {f : List Byte} {args : List Arg} {R drawn : List Byte} {n : Int} :
    StringAt m format f → ArgsAt m parameters args → render f args = some R → Outcome R drawn n → Draws color l d r →
      Draws color ((m, .printf format parameters) :: l) (glyphs color drawn ++ d) (n :: r)
  | puts {color : Byte} {m : Mem} {l : List (Mem × ConsoleCall)} {d : List Glyph} {r : List Int} {string : U32}
    {line drawn : List Byte} {n : Int} :
    StringAt m string line → Outcome (line ++ [0x0A]) drawn n → Draws color l d r →
      Draws color ((m, .puts string) :: l) (glyphs color drawn ++ d) (n :: r)
  | pressed {color : Byte} {m : Mem} {l : List (Mem × ConsoleCall)} {d : List Glyph} {r : List Int} {scancode : Byte} :
    scancode.toNat < 128 → Draws color l d r →
      Draws color ((m, .key scancode) :: l) (glyphs color [characterMap scancode] ++ d) r
  | released {color : Byte} {m : Mem} {l : List (Mem × ConsoleCall)} {d : List Glyph} {r : List Int} {scancode : Byte} :
    128 ≤ scancode.toNat → Draws color l d r → Draws color ((m, .key scancode) :: l) d r

theorem shows_elsewhere (h : TTY.Shows m s d) (m' : Mem) : TTY.Shows m' (s.elsewhere m') d :=
  { h with
    keeps := fun x hx => if_neg (by omega)
    cell := fun k hk => by
      have ha := TTY.toNat_cellAddress hk
      have ha1 : (TTY.cellAddress k + 1).toNat = 0xB8000 + 2 * k + 1 := by
        rw [BitVec.toNat_add, ha, show (1 : U32).toNat = 1 from rfl]
        omega
      rw [← h.cell k hk]
      unfold TTY.cell TTY.elsewhere loadHalf
      simp only [ha, ha1]
      rw [if_pos (by omega), if_pos (by omega)] }

/-- **One call of `printf`.** -/
theorem printfTo_draws (h : TTY.Shows m s d) (hf : Legible m p f) (ha : LegibleArgs m parameters args)
    (hR : render f args = some R) : ∃ r drawn steps, (∀ fuel, steps ≤ fuel →
      printfTo fuel s p parameters = some (r, s.puts drawn)) ∧ Outcome R drawn r := by
  have hstart : Drawing m s ⟨s, p, parameters, 0⟩ f args [] R :=
    { tty := rfl, format := hf, parameters := ha, rest := hR, count := rfl, bound := Nat.zero_le _ }
  obtain ⟨r, drawn, steps, hrun, hres⟩ := hstart.loop h (Nat.le_refl _)
  refine ⟨r, drawn, steps + f.length + 1, fun fuel hfuel => hrun fuel fuel (by omega) (by omega), ?_⟩
  simpa [Outcome] using hres

theorem pressed_iff : ∀ scancode : Byte, scancode &&& 0x80 = 0 ↔ scancode.toNat < 128 := by decide

theorem render_line (l : List Byte) : render lineFormat [.str l] = some (l ++ [0x0A]) := rfl

theorem render_character (c : Byte) : render characterFormat [.char c] = some [c] := rfl

/-- **One call** draws what it should. -/
theorem consoleCall_draws {lits : Literals} {call : ConsoleCall} (h : TTY.Shows m s d) (hc : Callable lits m call) :
    ∃ s' drawn rs steps, (∀ fuel, steps ≤ fuel → consoleCall fuel lits s call = some (s', rs)) ∧
      TTY.Shows m s' (d ++ drawn) ∧ ∀ l g r, Draws s'.terminal_color l g r →
        Draws s.terminal_color ((m, call) :: l) (drawn ++ g) (rs ++ r) := by
  cases call with
  | setColor color =>
    refine ⟨s.setColor color, [], [], 0, fun _ _ => rfl, ?_, fun l g r hg => .setColor hg⟩
    rw [List.append_nil]
    exact h.setColor color
  | printf format parameters =>
    obtain ⟨f, args, R, hf, ha, hR⟩ := hc
    obtain ⟨r, drawn, steps, hrun, hout⟩ := printfTo_draws h hf ha hR
    refine ⟨s.puts drawn, _, [r], steps, fun fuel hfuel => ?_, shows_puts h, fun l g r hg => ?_⟩
    · rw [consoleCall, hrun fuel hfuel]
      rfl
    · rw [s.puts_color] at hg
      exact .printf hf.string ha.argsAt hR hout hg
  | puts string =>
    obtain ⟨hline, l, hl⟩ := hc
    have ha : LegibleArgs m (fun _ => string) [.str l] := fun i a hi => by
      obtain rfl := List.mem_singleton.1 (List.mem_of_getElem? hi)
      exact hl
    obtain ⟨r, drawn, steps, hrun, hout⟩ := printfTo_draws h hline ha (render_line l)
    refine ⟨s.puts drawn, _, [r], steps, fun fuel hfuel => ?_, shows_puts h, fun l g r hg => ?_⟩
    · rw [consoleCall, puts, hrun fuel hfuel]
      rfl
    · rw [s.puts_color] at hg
      exact .puts hl.string hout hg
  | key scancode =>
    by_cases hpress : scancode &&& 0x80 = 0
    · have ha : LegibleArgs m (fun _ => (characterMap scancode).setWidth 32) [.char (characterMap scancode)] :=
        fun i a hi => by
          obtain rfl := List.mem_singleton.1 (List.mem_of_getElem? hi)
          exact BitVec.setWidth_setWidth_of_le _ (by decide)
      obtain ⟨r, drawn, steps, hrun, hout⟩ := printfTo_draws h hc ha (render_character _)
      rw [Outcome, List.length_singleton, if_pos (by decide)] at hout
      obtain ⟨-, rfl⟩ := hout
      refine ⟨s.puts [characterMap scancode], _, [], steps, fun fuel hfuel => ?_, shows_puts h, fun l g r hg => ?_⟩
      · rw [consoleCall, keyboardHandler, if_neg (not_not.2 hpress), hrun fuel hfuel]
        rfl
      · rw [s.puts_color] at hg
        exact .pressed ((pressed_iff scancode).1 hpress) hg
    · refine ⟨s, [], [], 0, fun fuel _ => ?_, ?_, fun l g r hg => ?_⟩
      · rw [consoleCall, keyboardHandler, if_pos hpress]
        rfl
      · rw [List.append_nil]
        exact h
      · exact .released (Nat.le_of_not_lt (mt (pressed_iff scancode).2 hpress)) hg

/-- **Every run of calls**, from any terminal that shows something. -/
theorem consoleRun_draws {lits : Literals} : ∀ {l : List (Mem × ConsoleCall)} {m : Mem} {s : TTY} {d : List Glyph},
    TTY.Shows m s d → (∀ e ∈ l, Callable lits e.1 e.2) → ∃ s' g rs steps,
      (∀ fuel, steps ≤ fuel → consoleRun fuel lits s l = some (s', rs)) ∧ Draws s.terminal_color l g rs ∧
        ∃ m', TTY.Shows m' s' (d ++ g)
  | [], m, s, d, h, _ => ⟨s, [], [], 0, fun _ _ => rfl, .nil, m, by rw [List.append_nil]; exact h⟩
  | (m', call) :: l, m, s, d, h, hl => by
    obtain ⟨t, drawn, rs, steps, hcall, ht, hdraws⟩ :=
      consoleCall_draws (shows_elsewhere h m') (hl (m', call) List.mem_cons_self)
    obtain ⟨s', g, rs', steps', hrun, hg, m'', hs'⟩ := consoleRun_draws ht fun e he => hl e (List.mem_cons_of_mem _ he)
    refine ⟨s', drawn ++ g, rs ++ rs', steps + steps', fun fuel hfuel => ?_, hdraws l g rs' hg, m'', ?_⟩
    · rw [consoleRun, hcall fuel (by omega), Option.bind_some, hrun fuel (by omega)]
      rfl
    · rw [← List.append_assoc]
      exact hs'

/-- **The console**: from `Initialise` on, every run of calls that find their strings apart from the screen ends, and
the screen and the cursor are those of a ring of 2000 cells filled with what the calls should draw. -/
theorem console_shows (m : Mem) {lits : Literals} {l : List (Mem × ConsoleCall)}
    (hl : ∀ e ∈ l, Callable lits e.1 e.2) : ∃ s' d rs steps,
      (∀ fuel, steps ≤ fuel → consoleRun fuel lits (TTY.initialise m) l = some (s', rs)) ∧
        Draws (TTY.initialise m).terminal_color l d rs ∧ s'.terminal_column.toNat = d.length % 80 ∧
          s'.terminal_row.toNat = d.length / 80 % 25 ∧ ∀ k, k < 2000 →
            s'.cell k = ((RingLog.latest 2000 k d).map fun g => vgaEntry g.1 g.2).getD TTY.blank := by
  obtain ⟨s', d, rs, steps, hrun, hdraws, m', hs⟩ := consoleRun_draws (TTY.shows_initialise m) hl
  exact ⟨s', d, rs, steps, hrun, hdraws, hs.column, hs.row, hs.cell⟩

/-- `"%s\n"` at 0x1000, `"%c"` at 0x1004 and `"a"` at 0x1007. -/
def smallStrings : Mem := fun x => (lineFormat ++ [0] ++ characterFormat ++ [0, 0x61]).getD (x.toNat - 0x1000) 0

/-- A line, and the key Q pressed and released. -/
theorem console_shows_key : ∃ s' d rs steps, (∀ fuel, steps ≤ fuel →
    consoleRun fuel ⟨0x1000, 0x1004⟩ (TTY.initialise smallStrings)
      [(smallStrings, .puts 0x1007), (smallStrings, .key 0x10), (smallStrings, .key 0x90)] = some (s', rs)) ∧
    Draws (TTY.initialise smallStrings).terminal_color
      [(smallStrings, .puts 0x1007), (smallStrings, .key 0x10), (smallStrings, .key 0x90)] d rs ∧
    s'.terminal_column.toNat = d.length % 80 := by
  have hline : Legible smallStrings 0x1000 lineFormat :=
    ⟨by simp only [lineFormat, stringAt_cons, stringAt_nil]; decide, by decide, by decide⟩
  have hcharacter : Legible smallStrings 0x1004 characterFormat :=
    ⟨by simp only [characterFormat, stringAt_cons, stringAt_nil]; decide, by decide, by decide⟩
  have hstring : Legible smallStrings 0x1007 [0x61] :=
    ⟨by simp only [stringAt_cons, stringAt_nil]; decide, by decide, by decide⟩
  obtain ⟨s', d, rs, steps, hrun, hdraws, hcolumn, -⟩ := @console_shows smallStrings ⟨0x1000, 0x1004⟩
    [(smallStrings, .puts 0x1007), (smallStrings, .key 0x10), (smallStrings, .key 0x90)] (by
      simp only [List.forall_mem_cons, List.not_mem_nil, false_implies, implies_true, and_true]
      exact ⟨⟨hline, _, hstring⟩, hcharacter, hcharacter⟩)
  exact ⟨s', d, rs, steps, hrun, hdraws, hcolumn⟩

end Loris
