import Loris.LibC
import Mathlib.Data.List.TakeWhile
/-!
# Printf — `printf` of `libc/stdio` against its reference rendering

`printf` is one round of its loop after another (`printfStep`): a run of literal text, one `%c`, one `%s`, or all from a
`%` on that it does not know.  `nextPiece` is what a round prints, wherever it prints it to, and `render` says what the
format means.  A piece is the next part of the rendering (`Strings.next_piece`), which a round emits and counts
(`Rendering.round`), so a call emits all of it or, if that is longer than `INT_MAX`, a part of it (`printf_renders`).
-/
namespace Loris

open ByteMem

def eof : Int := -1
def intMax : U32 := 0x7FFFFFFF
def percent : Byte := 0x25
def letterC : Byte := 0x63
def letterS : Byte := 0x73

/-- `putchar`; what it writes is recorded by `print`. -/
def putchar (ic : Int) : Int := ic

/-- `print`: the bytes it writes, and whether `putchar` took them all. -/
def print : List Byte → List Byte × Bool
  | [] => ([], true)
  | b :: bytes =>
    if putchar b.toNat = eof then ([b], false)
    else
      let r := print bytes
      (b :: r.1, r.2)

/-- The locals of `printf`, and what was written so far.  `va_arg` reads the next of `parameters`. -/
structure Printf where
  format : U32
  parameters : Nat → U32
  written : U32
  emitted : List Byte

/-- What a round of the loop ends with. -/
inductive PrintfStep where
  | next (s : Printf)
  | returns (r : Int) (emitted : List Byte)

/-- `while (format[amount] && format[amount] != '%') amount++;`. -/
def literalRun : Nat → Mem → U32 → U32 → Option U32
  | 0, _, _, _ => none
  | n + 1, m, format, amount =>
    if m (format + amount) ≠ 0 ∧ m (format + amount) ≠ percent then literalRun n m format (amount + 1) else some amount

/-- `if (maxrem < length) return -1; if (!print(bytes, length)) return -1; written += length;` and the round goes on at
`format` with `parameters`. -/
def Printf.printed (s : Printf) (bytes : List Byte) (format : U32) (parameters : Nat → U32) : PrintfStep :=
  let maxrem := intMax - s.written
  if maxrem < BitVec.ofNat 32 bytes.length then .returns (-1) s.emitted
  else
    let r := print bytes
    if r.2 then .next ⟨format, parameters, s.written + BitVec.ofNat 32 bytes.length, s.emitted ++ r.1⟩
    else .returns (-1) (s.emitted ++ r.1)

/-- The `length` bytes at `p`. -/
def bytesAt (m : Mem) (p : U32) (length : Nat) : List Byte := (List.range length).map (bytesFrom m p)

/-- One round of the loop of `printf`, or its end. -/
def printfStep (fuel : Nat) (m : Mem) (s : Printf) : Option PrintfStep :=
  if m s.format = 0 then some (.returns s.written.toInt s.emitted)
  else if m s.format ≠ percent ∨ m (s.format + 1) = percent then
    let format := if m s.format = percent then s.format + 1 else s.format
    (literalRun fuel m format 1).map fun amount =>
      s.printed (bytesAt m format amount.toNat) (format + amount) s.parameters
  else if m (s.format + 1) = letterC then
    let c : Byte := (s.parameters 0).setWidth 8
    some (s.printed [c] (s.format + 1 + 1) fun i => s.parameters (i + 1))
  else if m (s.format + 1) = letterS then
    let str := s.parameters 0
    (strlen fuel (bytesFrom m str)).map fun len =>
      s.printed (bytesAt m str len) (s.format + 1 + 1) fun i => s.parameters (i + 1)
  else
    (strlen fuel (bytesFrom m s.format)).map fun len =>
      s.printed (bytesAt m s.format len) (s.format + BitVec.ofNat 32 len) s.parameters

/-- The loop of `printf`. -/
def printfLoop (fuel : Nat) (m : Mem) : Nat → Printf → Option (Int × List Byte)
  | 0, _ => none
  | n + 1, s =>
    (printfStep fuel m s).bind fun
      | .next s => printfLoop fuel m n s
      | .returns r emitted => some (r, emitted)

/-- `printf`: its result, and what it emits. -/
def printf (fuel : Nat) (m : Mem) (format : U32) (parameters : Nat → U32) : Option (Int × List Byte) :=
  printfLoop fuel m fuel ⟨format, parameters, 0, []⟩

/-! ## The reference -/

/-- An argument: what `%c` reads, or what `%s` reads. -/
inductive Arg where
  | char (c : Byte)
  | str (l : List Byte)

/-- The next argument, for `%c` and for `%s`. -/
def nextChar : List Arg → Option (Byte × List Arg)
  | .char c :: args => some (c, args)
  | _ => none

def nextStr : List Arg → Option (List Byte × List Arg)
  | .str l :: args => some (l, args)
  | _ => none

/-- **What a format means**: literal text is copied, `%%` is `%`, `%c` and `%s` take the next argument, and the first
other `%` ends it: what is left is copied. -/
def render : List Byte → List Arg → Option (List Byte)
  | [], _ => some []
  | [b], _ => some [b]
  | b :: c :: f, args =>
    if b ≠ percent then (render (c :: f) args).map (b :: ·)
    else if c = percent then (render f args).map (percent :: ·)
    else if c = letterC then (nextChar args).bind fun (x, args) => (render f args).map (x :: ·)
    else if c = letterS then (nextStr args).bind fun (l, args) => (render f args).map (l ++ ·)
    else some (b :: c :: f)

/-- An argument as `va_arg` reads it. -/
def ArgAt (m : Mem) (w : U32) : Arg → Prop
  | .char c => w.setWidth 8 = c
  | .str l => StringAt m w l

/-- The arguments, one after the other. -/
def ArgsAt (m : Mem) (parameters : Nat → U32) (args : List Arg) : Prop :=
  ∀ i a, args[i]? = some a → ArgAt m (parameters i) a

/-- The states of the loop that rounds lead to. -/
inductive Printf.Reaches (m : Mem) (s : Printf) : Printf → Prop
  | start : Reaches m s s
  | round {t u : Printf} : Reaches m s t → (∃ steps, ∀ fuel, steps ≤ fuel → printfStep fuel m t = some (.next u)) →
    Reaches m s u

/-- What the `data` of `print` points to: memory, or the local `c` of `printf`. -/
inductive Source where
  | memory (data : U32)
  | char (c : Byte)

/-- What a round of the loop of `printf` prints, and what it goes on with. -/
structure Printf.Piece where
  data : Source
  length : U32
  format : U32
  parameters : Nat → U32

/-- The piece of a round, by what the format begins with. -/
def nextPiece (fuel : Nat) (m : Mem) (format : U32) (parameters : Nat → U32) : Option Printf.Piece :=
  if m format ≠ percent ∨ m (format + 1) = percent then
    let format := if m format = percent then format + 1 else format
    (literalRun fuel m format 1).map fun amount => ⟨.memory format, amount, format + amount, parameters⟩
  else if m (format + 1) = letterC then
    some ⟨.char ((parameters 0).setWidth 8), 1, format + 1 + 1, fun i => parameters (i + 1)⟩
  else if m (format + 1) = letterS then
    (strlen fuel (bytesFrom m (parameters 0))).map fun len =>
      ⟨.memory (parameters 0), BitVec.ofNat 32 len, format + 1 + 1, fun i => parameters (i + 1)⟩
  else
    (strlen fuel (bytesFrom m format)).map fun len =>
      ⟨.memory format, BitVec.ofNat 32 len, format + BitVec.ofNat 32 len, parameters⟩

/-- The `length` bytes that `data` points to. -/
def Source.bytes (m : Mem) : Source → Nat → List Byte
  | .memory data, length => bytesAt m data length
  | .char c, _ => [c]

/-- What a round reads its strings by: `P` holds of the format and of the strings, `A` of the arguments. -/
structure Strings (m : Mem) (P : U32 → List Byte → Prop) (A : U32 → Arg → Prop) : Prop where
  string {p : U32} {l : List Byte} : P p l → StringAt m p l
  drop {p : U32} {l : List Byte} {n : Nat} : P p l → n ≤ l.length → P (p + BitVec.ofNat 32 n) (l.drop n)
  char {w : U32} {c : Byte} : A w (.char c) → w.setWidth 8 = c
  str {w : U32} {l : List Byte} : A w (.str l) → P w l

/-- `data` is a character, or points to a string that begins with the bytes. -/
inductive Source.Begins (P : U32 → List Byte → Prop) : Source → List Byte → Prop
  | memory {p : U32} {l : List Byte} {n : Nat} : P p l → n ≤ l.length → Begins P (.memory p) (l.take n)
  | char {c : Byte} : Begins P (.char c) [c]

/-- **A piece** of the rendering, and what is left of the format and of the arguments behind it. -/
def Next (m : Mem) (P : U32 → List Byte → Prop) (A : U32 → Arg → Prop) (p : U32) (parameters : Nat → U32)
    (f R : List Byte) : Prop :=
  ∃ (piece : Printf.Piece) (chunk f' R' : List Byte) (args' : List Arg) (steps : Nat),
    (∀ fuel, steps ≤ fuel → nextPiece fuel m p parameters = some piece) ∧ R = chunk ++ R' ∧
      piece.length.toNat = chunk.length ∧ piece.data.Begins P chunk ∧ P piece.format f' ∧
      (∀ i a, args'[i]? = some a → A (piece.parameters i) a) ∧ render f' args' = some R' ∧ f'.length < f.length

variable {m : Mem} {s t : Printf} {p : U32} {parameters : Nat → U32} {f f' R R' chunk : List Byte}
  {args args' : List Arg} {P : U32 → List Byte → Prop} {A : U32 → Arg → Prop}

/-! ## The pieces of a round -/

theorem print_eq : ∀ bytes : List Byte, print bytes = (bytes, true)
  | [] => rfl
  | b :: bytes => by
    have hb : ¬ putchar b.toNat = eof := fun h => by
      unfold putchar eof at h
      omega
    unfold print
    rw [if_neg hb, print_eq bytes]

theorem literalRun_spec {format : U32} : ∀ {rest : List Byte} {a : Nat}, StringAt m (format + BitVec.ofNat 32 a) rest →
    ∀ n, rest.length < n → literalRun n m format (BitVec.ofNat 32 a) =
      some (BitVec.ofNat 32 (a + (rest.takeWhile (· ≠ percent)).length))
  | [], a, h, n + 1, _ => by
    unfold literalRun
    rw [if_neg fun hh => hh.1 (stringAt_nil.1 h)]
    rfl
  | b :: rest, a, h, n + 1, hn => by
    obtain ⟨hb, h0, h'⟩ := stringAt_cons.1 h
    unfold literalRun
    rw [h0]
    by_cases hp : b = percent
    · rw [if_neg fun hh => hh.2 hp, List.takeWhile_cons_of_neg (by simpa using hp)]
      rfl
    · have hnext : format + BitVec.ofNat 32 a + 1 = format + BitVec.ofNat 32 (a + 1) := by
        rw [BitVec.add_assoc, BitVec.ofNat_add]
        rfl
      rw [hnext] at h'
      rw [if_pos ⟨hb, hp⟩, List.takeWhile_cons_of_pos (by simpa using hp), List.length_cons]
      have := literalRun_spec h' n (Nat.lt_of_succ_lt_succ hn)
      rw [BitVec.ofNat_add] at this
      refine this.trans ?_
      rw [Nat.add_assoc, Nat.add_comm 1]

theorem render_cons {b : Byte} (hb : b ≠ percent) (f : List Byte) (args : List Arg) :
    render (b :: f) args = (render f args).map (b :: ·) := by
  cases f with
  | nil => rfl
  | cons c f =>
    rw [render]
    exact if_pos hb

theorem render_run : ∀ (rest : List Byte) (args : List Arg), render rest args =
    (render (rest.drop (rest.takeWhile (· ≠ percent)).length) args).map
      (rest.take (rest.takeWhile (· ≠ percent)).length ++ ·)
  | [], _ => rfl
  | b :: rest, args => by
    by_cases hp : b = percent
    · rw [List.takeWhile_cons_of_neg (by simpa using hp)]
      exact Option.map_id'.symm
    · rw [List.takeWhile_cons_of_pos (by simpa using hp), List.length_cons, List.drop_succ_cons, List.take_succ_cons,
        render_cons hp, render_run rest args, Option.map_map]
      rfl

theorem nextChar_eq {c : Byte} (h : nextChar args = some (c, args')) : args = .char c :: args' := by
  unfold nextChar at h
  split at h
  · rw [Option.some.injEq, Prod.mk.injEq] at h
    rw [h.1, h.2]
  · cases h

theorem nextStr_eq {l : List Byte} (h : nextStr args = some (l, args')) : args = .str l :: args' := by
  unfold nextStr at h
  split at h
  · rw [Option.some.injEq, Prod.mk.injEq] at h
    rw [h.1, h.2]
  · cases h

/-! ## The next piece -/

theorem Strings.tail {b : Byte} {l : List Byte} (hs : Strings m P A) (h : P p (b :: l)) : P (p + 1) l :=
  hs.drop (n := 1) h (by rw [List.length_cons]; omega)

theorem Strings.whole {l : List Byte} (hs : Strings m P A) (h : P p l) : (Source.memory p).Begins P l ∧
    P (p + BitVec.ofNat 32 l.length) [] ∧ (BitVec.ofNat 32 l.length).toNat = l.length := by
  have hbegins := Source.Begins.memory h (Nat.le_refl l.length)
  have hdrop := hs.drop h (Nat.le_refl l.length)
  rw [List.take_length] at hbegins
  rw [List.drop_length] at hdrop
  refine ⟨hbegins, hdrop, ?_⟩
  rw [BitVec.toNat_ofNat]
  exact Nat.mod_eq_of_lt (hs.string h).length_lt

theorem Source.Begins.bytes {data : Source} (hs : Strings m P A) (h : data.Begins P chunk) :
    data.bytes m chunk.length = chunk := by
  cases h with
  | memory hp hn =>
    rw [List.length_take_of_le hn]
    exact isString_take (hs.string hp) hn
  | char => rfl

theorem Strings.next_literal (hs : Strings m P A) {format : U32} {b : Byte} {rest : List Byte}
    (ha : ∀ i a, args[i]? = some a → A (parameters i) a) (hlit : m p ≠ percent ∨ m (p + 1) = percent)
    (hformat : (if m p = percent then p + 1 else p) = format) (hl : P format (b :: rest))
    (hf : rest.length < f.length) (hR : some R = (render rest args).map (b :: ·)) : Next m P A p parameters f R := by
  have htake := (List.takeWhile_sublist (l := rest) (· ≠ percent)).length_le
  have hlen := (hs.string hl).length_lt
  rw [List.length_cons] at hlen
  rw [render_run, Option.map_map] at hR
  obtain ⟨R', hR', hRR⟩ := Option.map_eq_some_iff.1 hR.symm
  have hle : (rest.takeWhile (· ≠ percent)).length + 1 ≤ (b :: rest).length := by
    rw [List.length_cons]
    omega
  have hdrop := hs.drop hl hle
  have hbegins := Source.Begins.memory hl hle
  rw [List.drop_succ_cons] at hdrop
  rw [List.take_succ_cons] at hbegins
  refine ⟨⟨.memory format, BitVec.ofNat 32 ((rest.takeWhile (· ≠ percent)).length + 1), _, parameters⟩, _, _, R', args,
    rest.length + 1, fun fuel hfuel => ?_, hRR.symm, ?_, hbegins, hdrop, ha, hR', ?_⟩
  · have hrun := @literalRun_spec m format rest 1 (stringAt_cons.1 (hs.string hl)).2.2 fuel (by omega)
    unfold nextPiece
    rw [if_pos hlit]
    simp only [hformat]
    rw [show (1 : U32) = BitVec.ofNat 32 1 from rfl, hrun, Option.map_some, Nat.add_comm 1]
  · rw [BitVec.toNat_ofNat, List.length_cons, List.length_take]
    omega
  · rw [List.length_drop]
    omega

theorem Strings.next_verbatim (hs : Strings m P A) (hl : P p f) (ha : ∀ i a, args[i]? = some a → A (parameters i) a)
    (hf : f ≠ []) (hp : m p = percent) (h1 : m (p + 1) ≠ percent) (hc : m (p + 1) ≠ letterC)
    (hstr : m (p + 1) ≠ letterS) : Next m P A p parameters f f := by
  obtain ⟨hbegins, hend, hlen⟩ := hs.whole hl
  refine ⟨⟨.memory p, BitVec.ofNat 32 f.length, _, parameters⟩, f, [], [], args, f.length + 1, fun fuel hfuel => ?_,
    (List.append_nil f).symm, hlen, hbegins, hend, ha, rfl, List.length_pos_iff.2 hf⟩
  unfold nextPiece
  rw [if_neg (by rw [hp]; exact fun hh => hh.elim (fun h' => h' rfl) h1), if_neg hc, if_neg hstr,
    strlen_spec (hs.string hl) (by omega), Option.map_some]

theorem Strings.next_character (hs : Strings m P A) {g : List Byte} {x : Byte} (hl : P p (percent :: letterC :: g))
    (ha : ∀ i a, (Arg.char x :: args)[i]? = some a → A (parameters i) a) (hR : render g args = some R) :
    Next m P A p parameters (percent :: letterC :: g) (x :: R) := by
  obtain ⟨hb, h0, hg⟩ := stringAt_cons.1 (hs.string hl)
  obtain ⟨-, h1, -⟩ := stringAt_cons.1 hg
  have hchar : (parameters 0).setWidth 8 = x := hs.char (ha 0 _ rfl)
  refine ⟨⟨.char x, 1, p + 1 + 1, fun i => parameters (i + 1)⟩, [x], g, R, args, 0, fun fuel _ => ?_, rfl, rfl,
    .char, hs.tail (hs.tail hl), fun i a hi => ha (i + 1) a hi, hR, ?_⟩
  · unfold nextPiece
    rw [h0, h1, if_neg (by decide), if_pos rfl, hchar]
  · rw [List.length_cons, List.length_cons]
    omega

theorem Strings.next_string (hs : Strings m P A) {g l : List Byte} (hl : P p (percent :: letterS :: g))
    (ha : ∀ i a, (Arg.str l :: args)[i]? = some a → A (parameters i) a) (hR : render g args = some R) :
    Next m P A p parameters (percent :: letterS :: g) (l ++ R) := by
  obtain ⟨hb, h0, hg⟩ := stringAt_cons.1 (hs.string hl)
  obtain ⟨-, h1, -⟩ := stringAt_cons.1 hg
  have hstr : P (parameters 0) l := hs.str (ha 0 _ rfl)
  obtain ⟨hbegins, -, hlen⟩ := hs.whole hstr
  refine ⟨⟨.memory (parameters 0), BitVec.ofNat 32 l.length, p + 1 + 1, fun i => parameters (i + 1)⟩, l, g, R, args,
    l.length + 1, fun fuel hfuel => ?_, rfl, hlen, hbegins, hs.tail (hs.tail hl), fun i a hi => ha (i + 1) a hi, hR, ?_⟩
  · unfold nextPiece
    rw [h0, h1, if_neg (by decide), if_neg (by decide), if_pos rfl, strlen_spec (hs.string hstr) (by omega),
      Option.map_some]
  · rw [List.length_cons, List.length_cons]
    omega

/-- **The next piece**, by what the format begins with. -/
theorem Strings.next_piece (hs : Strings m P A) (hl : P p f) (ha : ∀ i a, args[i]? = some a → A (parameters i) a)
    (hf : f ≠ []) (hrest : render f args = some R) : Next m P A p parameters f R := by
  obtain ⟨b, g, rfl⟩ := List.exists_cons_of_ne_nil hf
  obtain ⟨-, h0, hg⟩ := stringAt_cons.1 (hs.string hl)
  by_cases hp : b = percent
  · subst hp
    cases g with
    | nil =>
      have hnul := stringAt_nil.1 hg
      obtain rfl : [percent] = R := Option.some.inj hrest
      exact hs.next_verbatim hl ha hf h0 (by rw [hnul]; decide) (by rw [hnul]; decide) (by rw [hnul]; decide)
    | cons c g =>
      obtain ⟨-, h1, -⟩ := stringAt_cons.1 hg
      rw [render, if_neg (not_not.2 rfl)] at hrest
      by_cases hcp : c = percent
      · subst hcp
        rw [if_pos rfl] at hrest
        refine hs.next_literal ha (Or.inr h1) (if_pos h0) (hs.tail hl) ?_ hrest.symm
        rw [List.length_cons, List.length_cons]
        omega
      rw [if_neg hcp] at hrest
      by_cases hcc : c = letterC
      · subst hcc
        rw [if_pos rfl] at hrest
        obtain ⟨⟨x, args'⟩, hx, hrest⟩ := Option.bind_eq_some_iff.1 hrest
        obtain ⟨R', hR', rfl⟩ := Option.map_eq_some_iff.1 hrest
        obtain rfl := nextChar_eq hx
        exact hs.next_character hl ha hR'
      rw [if_neg hcc] at hrest
      by_cases hcs : c = letterS
      · subst hcs
        rw [if_pos rfl] at hrest
        obtain ⟨⟨l, args'⟩, hx, hrest⟩ := Option.bind_eq_some_iff.1 hrest
        obtain ⟨R', hR', rfl⟩ := Option.map_eq_some_iff.1 hrest
        obtain rfl := nextStr_eq hx
        exact hs.next_string hl ha hR'
      rw [if_neg hcs] at hrest
      obtain rfl := Option.some.inj hrest
      exact hs.next_verbatim hl ha hf h0 (by rw [h1]; exact hcp) (by rw [h1]; exact hcc) (by rw [h1]; exact hcs)
  · rw [render_cons hp] at hrest
    exact hs.next_literal ha (Or.inl (by rw [h0]; exact hp)) (if_neg (by rw [h0]; exact hp)) hl (Nat.lt_succ_self _)
      hrest.symm

/-! ## A round -/

/-- **A round** prints the next piece. -/
theorem printfStep_next {fuel : Nat} {piece : Printf.Piece} (h0 : m s.format ≠ 0)
    (hp : nextPiece fuel m s.format s.parameters = some piece) : printfStep fuel m s =
      some (s.printed (piece.data.bytes m piece.length.toNat) piece.format piece.parameters) := by
  have hofNat : ∀ {q : U32} {len : Nat}, strlen fuel (bytesFrom m q) = some len → (BitVec.ofNat 32 len).toNat = len :=
    fun h => by
      rw [BitVec.toNat_ofNat]
      exact Nat.mod_eq_of_lt (strlen_lt h)
  unfold nextPiece at hp
  unfold printfStep
  rw [if_neg h0]
  split at hp <;> rename_i hlit
  · obtain ⟨amount, hrun, rfl⟩ := Option.map_eq_some_iff.1 hp
    rw [if_pos hlit]
    simp only [hrun, Option.map_some, Source.bytes]
  rw [if_neg hlit]
  split at hp <;> rename_i hc
  · obtain rfl := Option.some.inj hp
    rw [if_pos hc]
    rfl
  rw [if_neg hc]
  split at hp <;> rename_i hs <;> obtain ⟨len, hlen, rfl⟩ := Option.map_eq_some_iff.1 hp
  · rw [if_pos hs]
    simp only [hlen, Option.map_some, Source.bytes, hofNat hlen]
  · rw [if_neg hs]
    simp only [hlen, Option.map_some, Source.bytes, hofNat hlen]

theorem strings_plain (m : Mem) : Strings m (StringAt m) (ArgAt m) where
  string := id
  drop := StringAt.drop
  char := id
  str := id

/-- What is left to do is to render `f` with `args`, which is `R`, and `written` counts what was emitted. -/
structure Rendering (m : Mem) (s : Printf) (f : List Byte) (args : List Arg) (R : List Byte) : Prop where
  format : StringAt m s.format f
  parameters : ArgsAt m s.parameters args
  rest : render f args = some R
  count : s.written.toNat = s.emitted.length
  bound : s.emitted.length ≤ intMax.toNat

/-- **A round** emits the next part of the rendering and goes on with what is left, or returns -1 when that part is too
long. -/
def Round (m : Mem) (s : Printf) (f R : List Byte) : Prop :=
  ∃ (chunk f' R' : List Byte) (args' : List Arg) (steps : Nat), R = chunk ++ R' ∧ f'.length < f.length ∧
    ((∃ s', (∀ fuel, steps ≤ fuel → printfStep fuel m s = some (.next s')) ∧ Rendering m s' f' args' R' ∧
        s'.emitted = s.emitted ++ chunk) ∨
      intMax.toNat < s.emitted.length + chunk.length ∧
        ∀ fuel, steps ≤ fuel → printfStep fuel m s = some (.returns (-1) s.emitted))

theorem Rendering.printed (h : Rendering m s f args R) {format' : U32} {parameters' : Nat → U32} {steps : Nat}
    (hR : R = chunk ++ R') (hf : f'.length < f.length) (hformat : StringAt m format' f')
    (hargs : ArgsAt m parameters' args') (hrest : render f' args' = some R') (hlen : chunk.length < 2 ^ 32)
    (hstep : ∀ fuel, steps ≤ fuel → printfStep fuel m s = some (s.printed chunk format' parameters')) :
    Round m s f R := by
  have hmax : intMax.toNat = 0x7FFFFFFF := rfl
  have hcount := h.count
  have hbound := h.bound
  have hchunk : (BitVec.ofNat 32 chunk.length).toNat = chunk.length := by
    rw [BitVec.toNat_ofNat]
    omega
  have hrem : intMax - s.written < BitVec.ofNat 32 chunk.length ↔ intMax.toNat < s.emitted.length + chunk.length := by
    rw [BitVec.lt_def, BitVec.toNat_sub, hchunk, hcount]
    omega
  refine ⟨chunk, f', R', args', steps, hR, hf, ?_⟩
  unfold Printf.printed at hstep
  rw [print_eq] at hstep
  by_cases hover : intMax.toNat < s.emitted.length + chunk.length
  · refine Or.inr ⟨hover, fun fuel hfuel => ?_⟩
    rw [hstep fuel hfuel]
    simp only [if_pos (hrem.2 hover)]
  · refine Or.inl ⟨⟨format', parameters', s.written + BitVec.ofNat 32 chunk.length, s.emitted ++ chunk⟩,
      fun fuel hfuel => ?_, ⟨hformat, hargs, hrest, ?_, ?_⟩, rfl⟩
    · rw [hstep fuel hfuel]
      simp only [if_neg (mt hrem.1 hover), if_true]
    · rw [BitVec.toNat_add, hchunk, hcount, List.length_append]
      omega
    · rw [List.length_append]
      omega

/-- **One round** emits the next piece, or returns -1. -/
theorem Rendering.round (h : Rendering m s f args R) (hf : f ≠ []) : Round m s f R := by
  have hs := strings_plain m
  obtain ⟨piece, chunk, f', R', args', steps, hpiece, hR, hlen, hbegins, hf', hargs', hrest, hlt⟩ :=
    hs.next_piece h.format h.parameters hf h.rest
  obtain ⟨b, g, rfl⟩ := List.exists_cons_of_ne_nil hf
  obtain ⟨hb, h0, -⟩ := stringAt_cons.1 h.format
  refine h.printed hR hlt hf' hargs' hrest (hlen ▸ piece.length.isLt) fun fuel (hfuel : steps ≤ fuel) => ?_
  rw [printfStep_next (by rw [h0]; exact hb) (hpiece fuel hfuel), hlen, hbegins.bytes hs]

/-! ## The loop -/

theorem Rendering.done (h : Rendering m s [] args R) (fuel : Nat) :
    R = [] ∧ printfStep fuel m s = some (.returns s.emitted.length s.emitted) := by
  have hmax : intMax.toNat = 0x7FFFFFFF := rfl
  have hbound := h.bound
  refine ⟨(Option.some.inj h.rest).symm, ?_⟩
  unfold printfStep
  rw [if_pos (stringAt_nil.1 h.format), BitVec.toInt_eq_toNat_of_lt (by rw [h.count]; omega), h.count]

/-- **The whole loop.** -/
theorem Rendering.loop : ∀ {n : Nat} {s : Printf} {f : List Byte} {args : List Arg} {R : List Byte}, f.length ≤ n →
    Rendering m s f args R → ∃ r out steps, (∀ fuel k, steps ≤ fuel → n < k → printfLoop fuel m k s = some (r, out)) ∧
      (if s.emitted.length + R.length ≤ intMax.toNat then r = s.emitted.length + R.length ∧ out = s.emitted ++ R
        else r = -1 ∧ out <+: s.emitted ++ R ∧ out ≠ s.emitted ++ R)
  | n, s, [], args, R, _, h => by
    refine ⟨s.emitted.length, s.emitted, 0, fun fuel k _ hk => ?_, ?_⟩
    · obtain ⟨k, rfl⟩ : ∃ j, k = j + 1 := ⟨k - 1, by omega⟩
      unfold printfLoop
      rw [(h.done fuel).2]
      rfl
    · rw [(h.done 0).1, List.length_nil, Nat.add_zero, if_pos h.bound, List.append_nil]
      exact ⟨(Int.add_zero _).symm, rfl⟩
  | 0, _, _ :: _, _, _, hn, _ => absurd hn (Nat.not_succ_le_zero _)
  | n + 1, s, b :: f, args, R, hn, h => by
    obtain ⟨chunk, f', R', args', steps, rfl, hf, hcase⟩ := h.round (List.cons_ne_nil b f)
    have hbound := h.bound
    have hunfold : ∀ fuel k, n + 1 < k → printfLoop fuel m k s = (printfStep fuel m s).bind fun
        | .next s => printfLoop fuel m (k - 1) s
        | .returns r emitted => some (r, emitted) := fun fuel k hk => by
      obtain ⟨k, rfl⟩ : ∃ j, k = j + 1 := ⟨k - 1, by omega⟩
      rfl
    rcases hcase with ⟨s', hstep, h', hemit⟩ | ⟨hover, hstep⟩
    · obtain ⟨r, out, steps', hrun, hres⟩ := h'.loop (n := n) (by omega)
      refine ⟨r, out, steps + steps', fun fuel k hfuel hk => ?_, ?_⟩
      · rw [hunfold fuel k hk, hstep fuel (by omega)]
        exact hrun fuel (k - 1) (by omega) (by omega)
      · rw [hemit, List.append_assoc] at hres
        rw [List.length_append] at hres ⊢
        split at hres <;> rename_i hle
        · rw [if_pos (by omega)]
          refine ⟨hres.1.trans ?_, hres.2⟩
          push_cast
          omega
        · rw [if_neg (by omega)]
          exact hres
    · refine ⟨-1, s.emitted, steps, fun fuel k hfuel hk => ?_, ?_⟩
      · rw [hunfold fuel k hk, hstep fuel hfuel]
        rfl
      · rw [if_neg (by rw [List.length_append]; omega)]
        refine ⟨rfl, List.prefix_append _ _, fun he => ?_⟩
        have := congrArg List.length he
        rw [List.length_append, List.length_append] at this
        omega

/-- Every state that rounds lead to has something to render, and its count is right. -/
theorem Rendering.reaches (h : Rendering m s f args R) (ht : s.Reaches m t) :
    ∃ f' args' R', Rendering m t f' args' R' := by
  induction ht with
  | start => exact ⟨f, args, R, h⟩
  | round _ hround ih =>
    obtain ⟨f', args', R', h'⟩ := ih
    obtain ⟨steps, hround⟩ := hround
    by_cases hf : f' = []
    · subst hf
      have := hround steps (Nat.le_refl _)
      rw [(h'.done steps).2] at this
      cases this
    · obtain ⟨chunk, f'', R'', args'', steps', -, -, ⟨u, hstep, hu, -⟩ | ⟨-, hstep⟩⟩ := h'.round hf
      · have := hround (steps + steps') (by omega)
        rw [hstep (steps + steps') (by omega)] at this
        cases this
        exact ⟨f'', args'', R'', hu⟩
      · have := hround (steps + steps') (by omega)
        rw [hstep (steps + steps') (by omega)] at this
        cases this

/-- **`printf` matches its reference rendering** `R`: it emits `R` and returns its length, or, if that is above
`INT_MAX`, emits a proper prefix of `R` and returns -1; and at every round the count is the number of bytes emitted. -/
theorem printf_renders {format : U32} {parameters : Nat → U32} (hf : StringAt m format f)
    (ha : ArgsAt m parameters args) (hR : render f args = some R) :
    (∃ r out steps, (∀ fuel, steps ≤ fuel → printf fuel m format parameters = some (r, out)) ∧
      (if R.length ≤ intMax.toNat then r = R.length ∧ out = R else r = -1 ∧ out <+: R ∧ out ≠ R)) ∧
    ∀ t, Printf.Reaches m ⟨format, parameters, 0, []⟩ t →
      t.written.toNat = t.emitted.length ∧ t.emitted.length ≤ intMax.toNat := by
  have h : Rendering m ⟨format, parameters, 0, []⟩ f args R := ⟨hf, ha, hR, rfl, Nat.zero_le _⟩
  refine ⟨?_, fun t ht => ?_⟩
  · obtain ⟨r, out, steps, hrun, hres⟩ := h.loop (Nat.le_refl _)
    refine ⟨r, out, steps + f.length + 1, fun fuel hfuel => hrun fuel fuel (by omega) (by omega), ?_⟩
    simpa using hres
  · obtain ⟨f', args', R', h'⟩ := h.reaches ht
    exact ⟨h'.count, h'.bound⟩

/-- The format `"%%a%c%"` at 0x1000. -/
def smallFormat : Mem := fun x =>
  if x = 0x1000 ∨ x = 0x1001 ∨ x = 0x1003 ∨ x = 0x1005 then percent else if x = 0x1002 then 0x61
    else if x = 0x1004 then letterC else 0

theorem printf_renders_small : ∃ steps, ∀ fuel, steps ≤ fuel →
    printf fuel smallFormat 0x1000 (fun _ => 0x62) = some (4, [percent, 0x61, 0x62, percent]) := by
  obtain ⟨⟨r, out, steps, hrun, hres⟩, -⟩ := @printf_renders smallFormat
    [percent, percent, 0x61, percent, letterC, percent] [percent, 0x61, 0x62, percent] [.char 0x62] 0x1000
    (fun _ => 0x62)
    (by simp only [stringAt_cons, stringAt_nil]; decide)
    (fun i a hi => by
      cases i with
      | zero =>
        rw [← Option.some.inj hi]
        exact (by decide : ((0x62 : U32).setWidth 8 : Byte) = 0x62)
      | succ i => cases hi)
    (by decide)
  rw [if_pos (by decide)] at hres
  obtain ⟨rfl, rfl⟩ := hres
  exact ⟨steps, hrun⟩

end Loris
