import Loris.Tasking
/-!
# Interrupts — `irq_handler` and the end-of-interrupt

`irq_handler` sends the end-of-interrupt once its handler has returned.  The timer's handler calls `switch_task`, which
leaves by a jump whenever there is a current task, and comes back to no `irq_handler`.  What was dispatched is
acknowledged, where a task runs, exactly when every timer interrupt so far found `current_task` null
(`acknowledged_iff`).
-/
namespace Loris

open ByteMem Runs

/-- `Timer::TickHandler`, up to where control first leaves `switch_task`. -/
def Machine.tickHandler (resume : U32) (m : Machine) : Exit :=
  let m := { m with ticks := m.ticks + 1 }
  if m.current_task = 0 then .returns m else (m.enterSwitch resume).afterReadEip

/-- The machine, and what went to and from the interrupt controllers. -/
structure IrqState where
  machine : Machine
  /-- The code of a task runs; otherwise `switch_task` does, at the instruction behind `read_eip`. -/
  inTask : Bool
  dispatched : List U32
  /-- The ports and values of `outb`. -/
  sent : List (BitVec 16 × Byte)

inductive IrqEvent where
  /-- An interrupt is dispatched to `irq_handler`. -/
  | interrupt (int_no : U32)
  /-- The code of a task leaves the machine as it is here. -/
  | runs (m : Machine)
  /-- `switch_task` goes on, resumed. -/
  | resumes

namespace IrqState

def outb (s : IrqState) (port : BitVec 16) (value : Byte) : IrqState := { s with sent := s.sent ++ [(port, value)] }

/-- `irq_handler` behind the call of the handler. -/
def acknowledge (s : IrqState) (int_no : U32) : IrqState :=
  let s := if int_no ≥ 40 then s.outb 0xA0 0x20 else s
  s.outb 0x20 0x20

/-- `irq_routines`: the timer's handler, and handlers that return. -/
def irqRoutines (others : Nat → Option (Machine → Machine)) (resume : U32) : Nat → Option (Machine → Exit)
  | 0 => some (Machine.tickHandler resume)
  | i + 1 => (others (i + 1)).map fun f m => .returns (f m)

/-- What follows when control leaves a handler. -/
def finish (resume : U32) (s : IrqState) (int_no : U32) : Exit → IrqState
  | .returns m => acknowledge { s with machine := m } int_no
  | .jumps m => { s with machine := m, inTask := m.eip ≠ resume }

/-- `irq_handler`. -/
def irqHandler (others : Nat → Option (Machine → Machine)) (resume : U32) (s : IrqState) (int_no : U32) : IrqState :=
  let s := { s with dispatched := s.dispatched ++ [int_no] }
  match irqRoutines others resume (int_no - 32).toNat with
  | none => s.acknowledge int_no
  | some handler => s.finish resume int_no (handler s.machine)

def step (others : Nat → Option (Machine → Machine)) (resume : U32) (s : IrqState) : IrqEvent → Option IrqState
  | .interrupt int_no => if 32 ≤ int_no ∧ int_no ≤ 47 then some (s.irqHandler others resume int_no) else none
  | .runs m => if s.inTask then some { s with machine := m } else none
  -- only the timer's handler calls `switch_task`
  | .resumes => if s.inTask then none else some (s.finish resume 32 s.machine.afterReadEip)

def Step (others : Nat → Option (Machine → Machine)) (resume : U32) (s : IrqState) (e : IrqEvent) (t : IrqState) :
    Prop :=
  s.step others resume e = some t

/-- Each interrupt dispatched has been acknowledged once to the master, and once to the slave when it came from there.
-/
def Acknowledged (s : IrqState) : Prop :=
  s.sent.count (0x20, 0x20) = s.dispatched.length ∧
    s.sent.count (0xA0, 0x20) = s.dispatched.countP fun int_no => 40 ≤ int_no

/-- A timer interrupt finds no current task. -/
def TickIdle (s : IrqState) (e : IrqEvent) : Prop := e = .interrupt 32 → s.machine.current_task = 0

/-- Some interrupt has not been acknowledged. -/
def Behind (s : IrqState) : Prop := s.sent.count (0x20, 0x20) < s.dispatched.length

variable {others : Nat → Option (Machine → Machine)} {resume : U32} {s t : IrqState} {e : IrqEvent} {n : U32}

theorem step_interrupt : Step others resume s (.interrupt n) t ↔
    (32 ≤ n ∧ n ≤ 47) ∧ t = s.irqHandler others resume n := by
  simp only [Step, step, Option.ite_none_right_eq_some, Option.some.injEq]
  exact and_congr_right fun _ => eq_comm

theorem step_runs {m : Machine} : Step others resume s (.runs m) t ↔ s.inTask = true ∧ t = { s with machine := m } := by
  simp only [Step, step, Option.ite_none_right_eq_some, Option.some.injEq]
  exact and_congr_right fun _ => eq_comm

theorem step_resumes : Step others resume s .resumes t ↔
    ¬ s.inTask = true ∧ t = s.finish resume 32 s.machine.afterReadEip := by
  simp only [Step, step, Option.ite_none_left_eq_some, Option.some.injEq]
  exact and_congr_right fun _ => eq_comm

theorem acknowledge_counts (s : IrqState) (n : U32) :
    (s.acknowledge n).sent.count (0x20, 0x20) = s.sent.count (0x20, 0x20) + 1 ∧
      (s.acknowledge n).sent.count (0xA0, 0x20) = s.sent.count (0xA0, 0x20) + if 40 ≤ n then 1 else 0 := by
  unfold acknowledge outb
  split <;> simp [List.count_append, *]

theorem acknowledge_dispatched (s : IrqState) (n : U32) : (s.acknowledge n).dispatched = s.dispatched := by
  unfold acknowledge
  split <;> rfl

theorem Acknowledged.returns (h : s.Acknowledged) (m : Machine) :
    Acknowledged (acknowledge { s with machine := m, dispatched := s.dispatched ++ [n] } n) := by
  obtain ⟨h1, h2⟩ := acknowledge_counts { s with machine := m, dispatched := s.dispatched ++ [n] } n
  refine ⟨?_, ?_⟩
  · rw [h1, acknowledge_dispatched, List.length_append]
    exact congrArg (· + 1) h.1
  · rw [h2, acknowledge_dispatched, List.countP_append]
    simp only [List.countP_singleton, decide_eq_true_eq]
    exact congrArg (· + _) h.2

theorem irqHandler_cases (s : IrqState) :
    ((∃ m, s.irqHandler others resume n = acknowledge { s with machine := m, dispatched := s.dispatched ++ [n] } n) ∧
        (n = 32 → s.machine.current_task = 0)) ∨
      s.machine.current_task ≠ 0 ∧ n = 32 ∧ (s.irqHandler others resume n).sent = s.sent ∧
        (s.irqHandler others resume n).dispatched = s.dispatched ++ [n] := by
  unfold irqHandler
  by_cases hn : n = 32
  · subst hn
    simp only [show ((32 : U32) - 32).toNat = 0 from rfl, irqRoutines]
    unfold Machine.tickHandler
    by_cases hcur : s.machine.current_task = 0
    · rw [if_pos hcur]
      exact .inl ⟨⟨_, rfl⟩, fun _ => hcur⟩
    · rw [if_neg hcur, Machine.afterReadEip_eq]
      exact .inr ⟨hcur, trivial, rfl, rfl⟩
  · refine .inl ⟨?_, fun h => absurd h hn⟩
    obtain ⟨i, hi⟩ : ∃ i, (n - 32).toNat = i + 1 := by
      refine ⟨(n - 32).toNat - 1, ?_⟩
      have h0 : (n - 32).toNat ≠ 0 := fun h0 => hn (by
        have h1 : n - 32 = 0 := BitVec.eq_of_toNat_eq h0
        rw [← BitVec.sub_add_cancel n 32, h1]
        rfl)
      omega
    simp only [hi, irqRoutines]
    cases others (i + 1) with
    | none => exact ⟨s.machine, rfl⟩
    | some f => exact ⟨f s.machine, rfl⟩

/-- **A step under the guard** leaves no interrupt behind, and a task running. -/
theorem Acknowledged.step (h : s.Acknowledged) (hin : s.inTask = true) (hg : s.TickIdle e)
    (hs : Step others resume s e t) : t.Acknowledged ∧ t.inTask = true := by
  cases e with
  | interrupt n =>
    obtain ⟨-, rfl⟩ := step_interrupt.1 hs
    rcases irqHandler_cases (n := n) s with ⟨⟨m, hm⟩, -⟩ | ⟨hcur, rfl, -⟩
    · rw [hm]
      refine ⟨h.returns m, ?_⟩
      unfold acknowledge
      split <;> exact hin
    · exact absurd (hg rfl) hcur
  | runs m =>
    obtain ⟨-, rfl⟩ := step_runs.1 hs
    exact ⟨h, hin⟩
  | resumes => exact absurd hin (step_resumes.1 hs).1

theorem Acknowledged.lost (h : s.Acknowledged) (hg : ¬ s.TickIdle e) (hs : Step others resume s e t) : t.Behind := by
  unfold TickIdle at hg
  rw [Classical.not_imp] at hg
  obtain ⟨rfl, hcur⟩ := hg
  obtain ⟨-, rfl⟩ := step_interrupt.1 hs
  rcases irqHandler_cases (n := 32) s with ⟨-, h0⟩ | ⟨-, -, hsent, hdis⟩
  · exact absurd (h0 rfl) hcur
  · unfold Behind
    rw [hsent, hdis, h.1, List.length_append]
    exact Nat.lt_succ_self _

/-- **What is behind stays behind.** -/
theorem Behind.step (h : s.Behind) (hs : Step others resume s e t) : t.Behind := by
  unfold Behind at *
  cases e with
  | interrupt n =>
    obtain ⟨-, rfl⟩ := step_interrupt.1 hs
    rcases irqHandler_cases (n := n) s with ⟨⟨m, hm⟩, -⟩ | ⟨-, -, hsent, hdis⟩
    · rw [hm, (acknowledge_counts _ n).1, acknowledge_dispatched, List.length_append]
      exact Nat.succ_lt_succ h
    · rw [hsent, hdis, List.length_append]
      exact Nat.lt_succ_of_lt h
  | runs m =>
    obtain ⟨-, rfl⟩ := step_runs.1 hs
    exact h
  | resumes =>
    obtain ⟨-, rfl⟩ := step_resumes.1 hs
    rw [Machine.afterReadEip_eq]
    exact h

theorem Behind.run : ∀ {l : List IrqEvent} {s : IrqState}, s.Behind → Reaches (Step others resume) s l t → t.Behind
  | [], _, h, hr => by
    obtain rfl := hr
    exact h
  | _ :: _, _, h, ⟨_, hu, hr⟩ => (h.step hu).run hr

theorem Acknowledged.run_iff : ∀ {l : List IrqEvent} {s : IrqState}, s.Acknowledged → s.inTask = true →
    Reaches (Step others resume) s l t → (t.Acknowledged ↔ Guarded (Step others resume) TickIdle s l)
  | [], s, h, _, hr => by
    obtain rfl := hr
    exact ⟨fun _ => trivial, fun _ => h⟩
  | e :: l, s, h, hin, ⟨u, hu, hr⟩ => by
    by_cases hg : s.TickIdle e
    · obtain ⟨hu', hin'⟩ := h.step hin hg hu
      rw [hu'.run_iff hin' hr]
      exact ⟨fun hl => ⟨hg, fun v hv => Option.some.inj (hu.symm.trans hv) ▸ hl⟩, fun hl => hl.2 u hu⟩
    · have hb : t.Behind := (h.lost hg hu).run hr
      exact ⟨fun ht => absurd ht.1 (Nat.ne_of_lt hb), fun hl => absurd hl.1 hg⟩

/-- Before the first interrupt. -/
def start (m : Machine) : IrqState := ⟨m, true, [], []⟩

end IrqState

open IrqState in
/-- **The end-of-interrupt**: where the code of a task runs, every interrupt so far has been acknowledged exactly when
every timer interrupt so far found `current_task` null. -/
theorem acknowledged_iff {others : Nat → Option (Machine → Machine)} {resume : U32} {m : Machine} {l : List IrqEvent}
    {t : IrqState} (hr : Reaches (Step others resume) (start m) l t) :
    t.inTask = true → (t.Acknowledged ↔ ∀ l₁ e l₂ u, l = l₁ ++ e :: l₂ → Reaches (Step others resume) (start m) l₁ u →
      u.TickIdle e) := by
  have h0 : (start m).Acknowledged := ⟨rfl, rfl⟩
  rw [← guarded_iff]
  exact fun _ => h0.run_iff rfl hr

open IrqState in
theorem acknowledged_key_clock : ∃ t, Reaches (Step (fun _ => none) 0x100600) (start twoTasks.machine)
    [.interrupt 33, .interrupt 40] t ∧ t.Acknowledged := by
  have hr : ∃ t, Reaches (Step (fun _ => none) 0x100600) (start twoTasks.machine) [.interrupt 33, .interrupt 40] t ∧
      t.inTask = true := ⟨_, ⟨_, rfl, _, rfl, rfl⟩, rfl⟩
  obtain ⟨t, hr, ht⟩ := hr
  refine ⟨t, hr, (acknowledged_iff hr ht).2 fun l₁ e l₂ u hl _ he => ?_⟩
  have hmem : e ∈ [IrqEvent.interrupt 33, .interrupt 40] := hl ▸ List.mem_append_right _ List.mem_cons_self
  rw [he] at hmem
  simp at hmem

open IrqState in
/-- The first tick after a `fork` runs the new task, and is not acknowledged. -/
theorem first_tick_behind : ∃ t, Reaches (Step (fun _ => none) 0x100600) (start twoTasks.machine) [.interrupt 32] t ∧
    t.inTask = true ∧ ¬ t.Acknowledged :=
  ⟨_, ⟨_, rfl, rfl⟩, by decide, fun h => absurd h.1 (by decide)⟩

end Loris
