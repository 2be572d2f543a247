import Loris.Kernel
import Loris.Runs
/-!
# Tasking — `switch_task` and what a resumed task does

A machine with the registers a context switch moves, the tasks, and the stack frames of the calls of `switch_task`.
The code after `read_eip` runs twice for a switched task: when it saves its context, and when it is resumed.  The saved
`eip` is the address of that code, so a resumed task saves once more and switches once more.  Each call does what a
switch should for as long as the tasks selected never called `switch_task`, which is for fewer ticks than there are
tasks (`switch_iff`).
-/
namespace Loris

open ByteMem Runs

structure Task where
  id : U32
  esp : U32
  ebp : U32
  eip : U32
  page_directory : U32
  next : U32

/-- `task->eip = eip; task->esp = esp; task->ebp = ebp`. -/
def Task.save (t : Task) (eip esp ebp : U32) : Task := { t with eip := eip, esp := esp, ebp := ebp }

/-- The locals of `switch_task`.  They live in its frame, at fixed offsets from EBP. -/
structure Locals where
  esp : U32
  ebp : U32
  eip : U32

structure Machine where
  eax : U32
  ecx : U32
  esp : U32
  ebp : U32
  eip : U32
  cr3 : U32
  interrupts : Bool
  /-- The frames of `switch_task`, by their EBP. -/
  locals : U32 → Locals
  tasks : U32 → Task
  directories : U32 → PageDirectory
  current_task : U32
  ready_queue : U32
  current_directory : U32
  ticks : U32

/-- How control leaves `switch_task`: it returns to the caller of the frame at EBP, or `perform_task_switch` jumps. -/
inductive Exit where
  | returns (m : Machine)
  | jumps (m : Machine)

def Exit.machine : Exit → Machine
  | .returns m => m
  | .jumps m => m

namespace Machine

def setLocals (m : Machine) (l : Locals) : Machine := { m with locals := fun b => if b = m.ebp then l else m.locals b }

def setTask (m : Machine) (p : U32) (t : Task) : Machine := { m with tasks := fun q => if q = p then t else m.tasks q }

/-- `read_eip` pops its return address into EAX and jumps there. -/
def readEip (resume : U32) (m : Machine) : Machine := { m with eax := resume, eip := resume }

/-- The store of `0x12345` into EAX is commented out: EAX is left with the physical address. -/
def performTaskSwitch (m : Machine) (eip physical ebp esp : U32) : Machine :=
  { m with ecx := eip, eax := physical, ebp := ebp, esp := esp, cr3 := physical, interrupts := true, eip := eip }

/-- `current_task->next`, or `ready_queue` at the end. -/
def successor (m : Machine) (t : U32) : U32 := if (m.tasks t).next = 0 then m.ready_queue else (m.tasks t).next

/-- `switch_task` up to the jump of `read_eip`, whose call is followed by the instruction at `resume`. -/
def enterSwitch (resume : U32) (m : Machine) : Machine :=
  (m.setLocals ⟨m.esp, m.ebp, (m.locals m.ebp).eip⟩).readEip resume

/-- `switch_task` from `resume` on. -/
def afterReadEip (m : Machine) : Exit :=
  -- what is in EAX becomes `eip`; `esp` and `ebp` are what the frame holds
  let saved : Locals := { m.locals m.ebp with eip := m.eax }
  let m := m.setLocals saved
  let m := m.setTask m.current_task ((m.tasks m.current_task).save saved.eip saved.esp saved.ebp)
  let m := { m with current_task := m.successor m.current_task }
  let t := m.tasks m.current_task
  let m := m.setLocals ⟨t.esp, t.ebp, t.eip⟩
  let m := { m with current_directory := t.page_directory }
  .jumps (m.performTaskSwitch t.eip (m.directories m.current_directory).physicalAddress t.ebp t.esp)

/-- From the instruction at `resume`, control leaves `switch_task` by `e` after `n` switches. -/
inductive Execs (resume : U32) : Machine → Nat → Exit → Prop where
  | returns {m m'} (h : m.afterReadEip = .returns m') : Execs resume m 0 (.returns m')
  | leaves {m m'} (h : m.afterReadEip = .jumps m') (hm : m'.eip ≠ resume) : Execs resume m 1 (.jumps m')
  | resumes {m m' n e} (h : m.afterReadEip = .jumps m') (hm : m'.eip = resume) (h' : Execs resume m' n e) :
      Execs resume m (n + 1) e

/-- A call of `switch_task`. -/
inductive SwitchTask (resume : U32) : Machine → Nat → Exit → Prop where
  | idle {m} (h : m.current_task = 0) : SwitchTask resume m 0 (.returns m)
  | runs {m n e} (h : m.current_task ≠ 0) (h' : Execs resume (m.enterSwitch resume) n e) : SwitchTask resume m n e

/-- `Timer::TickHandler`. -/
def TickHandler (resume : U32) (m : Machine) : Nat → Exit → Prop :=
  SwitchTask resume { m with ticks := m.ticks + 1 }

end Machine

namespace Machine

variable {resume : U32} {m m' : Machine} {n : Nat} {e : Exit}

/-- The machine after one pass over the code from `resume` on. -/
def switched (m : Machine) : Machine := m.afterReadEip.machine

theorem afterReadEip_eq (m : Machine) : m.afterReadEip = .jumps m.switched := rfl

@[simp] theorem enterSwitch_tasks : (m.enterSwitch resume).tasks = m.tasks := rfl
@[simp] theorem enterSwitch_current_task : (m.enterSwitch resume).current_task = m.current_task := rfl
@[simp] theorem enterSwitch_ready_queue : (m.enterSwitch resume).ready_queue = m.ready_queue := rfl
@[simp] theorem enterSwitch_directories : (m.enterSwitch resume).directories = m.directories := rfl
@[simp] theorem enterSwitch_eax : (m.enterSwitch resume).eax = resume := rfl
@[simp] theorem enterSwitch_ebp : (m.enterSwitch resume).ebp = m.ebp := rfl

theorem enterSwitch_locals : (m.enterSwitch resume).locals m.ebp = ⟨m.esp, m.ebp, (m.locals m.ebp).eip⟩ := by
  simp [enterSwitch, readEip, setLocals]

theorem switched_tasks (m : Machine) (t : U32) : m.switched.tasks t = if t = m.current_task then
    (m.tasks t).save m.eax (m.locals m.ebp).esp (m.locals m.ebp).ebp else m.tasks t := by
  by_cases h : t = m.current_task
  · subst h; simp [switched, afterReadEip, Exit.machine, performTaskSwitch, setTask, setLocals]
  · simp [switched, afterReadEip, Exit.machine, performTaskSwitch, setTask, setLocals, h]

@[simp] theorem switched_ready_queue (m : Machine) : m.switched.ready_queue = m.ready_queue := rfl

@[simp] theorem switched_directories (m : Machine) : m.switched.directories = m.directories := rfl

theorem switched_successor (m : Machine) : m.switched.successor = m.successor := by
  funext t
  simp only [successor, switched_ready_queue, switched_tasks]
  by_cases h : t = m.current_task <;> simp [h, Task.save]

@[simp] theorem switched_current_task (m : Machine) : m.switched.current_task = m.successor m.current_task := by
  show successor _ _ = _
  unfold successor
  simp [setTask, setLocals, Task.save]

theorem switched_context (m : Machine) :
    m.switched.eip = (m.switched.tasks m.switched.current_task).eip ∧
    m.switched.esp = (m.switched.tasks m.switched.current_task).esp ∧
    m.switched.ebp = (m.switched.tasks m.switched.current_task).ebp ∧
    m.switched.cr3 =
      (m.directories (m.switched.tasks m.switched.current_task).page_directory).physicalAddress :=
  ⟨rfl, rfl, rfl, rfl⟩

theorem Execs.pos (h : Execs resume m n e) : 0 < n := by
  cases h with
  | returns h => rw [afterReadEip_eq] at h; cases h
  | leaves h hm => exact Nat.one_pos
  | resumes h hm h' => exact Nat.succ_pos _

theorem execs_one : Execs resume m 1 e ↔ m.switched.eip ≠ resume ∧ e = .jumps m.switched := by
  constructor
  · intro h
    cases h with
    | leaves h hm =>
      rw [afterReadEip_eq, Exit.jumps.injEq] at h
      subst h; exact ⟨hm, rfl⟩
    | resumes h hm h' => exact absurd h'.pos (by omega)
  · rintro ⟨hm, rfl⟩
    exact .leaves m.afterReadEip_eq hm

theorem Execs.of_ne (hm : m.switched.eip ≠ resume) (h : Execs resume m n e) : n = 1 ∧ e = .jumps m.switched := by
  cases h with
  | returns h => rw [afterReadEip_eq] at h; cases h
  | leaves h hm =>
    rw [afterReadEip_eq, Exit.jumps.injEq] at h
    subst h; exact ⟨rfl, rfl⟩
  | resumes h hm' h' =>
    rw [afterReadEip_eq, Exit.jumps.injEq] at h
    subst h; exact absurd hm' hm

end Machine

/-- A machine, and the ESP and EBP with which each task that called `switch_task` did so last. -/
structure Sched where
  machine : Machine
  saved : U32 → Option (U32 × U32)

/-- A timer interrupt: the ESP and EBP of the running task inside the call of `switch_task`. -/
structure Tick where
  esp : U32
  ebp : U32

namespace Sched

variable {resume : U32} {s t : Sched} {c : Tick}

def interrupted (s : Sched) (c : Tick) : Machine := { s.machine with esp := c.esp, ebp := c.ebp }

/-- The task the next call selects. -/
def selected (s : Sched) : U32 := s.machine.successor s.machine.current_task

def Step (resume : U32) (s : Sched) (c : Tick) (t : Sched) : Prop :=
  ∃ n e, Machine.TickHandler resume (s.interrupted c) n e ∧
    t = ⟨e.machine, fun x => if x = s.machine.current_task then some (c.esp, c.ebp) else s.saved x⟩

/-- Where the selected task goes on: a task that called `switch_task` returns from that call, to the caller of its
frame; any other goes on at its `eip`. -/
def Resumed (s : Sched) (e : Exit) : Prop :=
  match s.saved s.selected with
  | some (esp, ebp) => ∃ m, e = .returns m ∧ m.esp = esp ∧ m.ebp = ebp
  | none => ∃ m, e = .jumps m ∧ m.eip = (s.machine.tasks s.selected).eip ∧ m.esp = (s.machine.tasks s.selected).esp ∧
      m.ebp = (s.machine.tasks s.selected).ebp

/-- **One switch, and nothing lost.**  The running task's context is saved, the selected task is resumed, and no other
task's context is overwritten. -/
def SwitchedWell (resume : U32) (s : Sched) (c : Tick) : Prop :=
  ∃ e, Machine.TickHandler resume (s.interrupted c) 1 e ∧ e.machine.current_task = s.selected ∧ s.Resumed e ∧
    e.machine.tasks s.machine.current_task = (s.machine.tasks s.machine.current_task).save resume c.esp c.ebp ∧
    ∀ x, x ≠ s.machine.current_task → e.machine.tasks x = s.machine.tasks x

end Sched

/-- `f` leads from `a` through `l` and then to `o`. -/
def Links (f : U32 → U32) : U32 → List U32 → U32 → Prop
  | a, [], o => f a = o
  | a, b :: l, o => f a = b ∧ Links f b l o

theorem links_append {f : U32 → U32} : ∀ {a b o : U32} {l r : List U32},
    Links f a (l ++ b :: r) o ↔ Links f a l b ∧ Links f b r o
  | a, b, o, [], r => Iff.rfl
  | a, b, o, c :: l, r => by simp only [List.cons_append, Links, links_append (l := l), and_assoc]

/-- The tasks `q`, linked from `ready_queue` to the null pointer. -/
structure ReadyQueue (m : Machine) (q : List U32) : Prop where
  links : ∃ l, q = m.ready_queue :: l ∧ Links (fun t => (m.tasks t).next) m.ready_queue l 0
  nodup : q.Nodup
  nonnull : 0 ∉ q

theorem ReadyQueue.ring {m : Machine} {q : List U32} (h : ReadyQueue m q) (hcur : m.current_task ∈ q) :
    ∃ l, q.Perm (m.current_task :: l) ∧ Links m.successor m.current_task l m.current_task := by
  obtain ⟨l, rfl, hl⟩ := h.links
  -- in the middle of the queue `successor` is `next`; at its end it is the head
  have hsucc : ∀ {t : U32} {l : List U32}, 0 ∉ l → Links (fun t => (m.tasks t).next) t l 0 →
      Links m.successor t l m.ready_queue := by
    intro t l h0 hl
    induction l generalizing t with
    | nil => simp only [Links] at hl ⊢; simp [Machine.successor, hl]
    | cons b l ih =>
      simp only [List.mem_cons, not_or] at h0
      obtain ⟨hb, hl⟩ := hl
      have hb0 : (m.tasks t).next ≠ 0 := fun h' => h0.1 (h'.symm.trans hb)
      exact ⟨(if_neg hb0).trans hb, ih h0.2 hl⟩
  have hq := hsucc (fun h0 => h.nonnull (List.mem_cons_of_mem _ h0)) hl
  rcases List.mem_cons.1 hcur with heq | hmem
  · rw [heq]; exact ⟨l, List.Perm.refl _, hq⟩
  · obtain ⟨a, b, rfl⟩ := List.append_of_mem hmem
    obtain ⟨ha, hb⟩ := links_append.1 hq
    refine ⟨b ++ m.ready_queue :: a, ?_, links_append.2 ⟨hb, ha⟩⟩
    rw [← List.cons_append]
    exact (List.perm_append_comm : ((m.ready_queue :: a) ++ m.current_task :: b).Perm _)

namespace Sched

/-- From `current_task`, the tasks in the order they are selected: those of `l`, which have not called `switch_task`
yet, and then `o`, the first to have called it. -/
structure Ahead (resume : U32) (s : Sched) (l : List U32) (o : U32) : Prop where
  links : Links s.machine.successor s.machine.current_task l o
  nodup : (s.machine.current_task :: l).Nodup
  nonnull : 0 ∉ s.machine.current_task :: l
  fresh : ∀ t ∈ s.machine.current_task :: l, s.saved t = none ∧ (s.machine.tasks t).eip ≠ resume
  first : (o = s.machine.current_task ∧ l ≠ []) ∨ s.saved o ≠ none ∧ (s.machine.tasks o).eip = resume

variable {resume : U32} {s t : Sched} {c : Tick} {l : List U32} {o b : U32}

/-- The machine at `resume`, when the running task calls `switch_task`. -/
def saving (resume : U32) (s : Sched) (c : Tick) : Machine :=
  ({ s.interrupted c with ticks := s.machine.ticks + 1 } : Machine).enterSwitch resume

theorem tickHandler_iff (h : s.machine.current_task ≠ 0) {n : Nat} {e : Exit} :
    Machine.TickHandler resume (s.interrupted c) n e ↔ Machine.Execs resume (s.saving resume c) n e := by
  constructor
  · intro h'
    cases h' with
    | idle h0 => exact absurd h0 h
    | runs h0 h' => exact h'
  · exact .runs h

theorem saving_switched_tasks (x : U32) : (s.saving resume c).switched.tasks x =
    if x = s.machine.current_task then (s.machine.tasks x).save resume c.esp c.ebp else s.machine.tasks x := by
  rw [Machine.switched_tasks]
  have : (s.saving resume c).locals (s.saving resume c).ebp = ⟨c.esp, c.ebp, (s.machine.locals c.ebp).eip⟩ :=
    Machine.enterSwitch_locals
  rw [this]; rfl

theorem saving_switched_current : (s.saving resume c).switched.current_task = s.selected :=
  Machine.switched_current_task _

/-- **A task that never called `switch_task` is switched to once**, and the run goes on with one task fewer ahead. -/
theorem Ahead.step (h : Ahead resume s (b :: l) o) :
    SwitchedWell resume s c ∧ ∀ t, Step resume s c t → ∃ o', Ahead resume t l o' := by
  have hcur : s.machine.current_task ≠ 0 := fun h0 => h.nonnull (by simp [h0])
  have hsel : s.selected = b := h.links.1
  obtain ⟨hbs, hbeip⟩ := h.fresh b (by simp)
  have hne : b ≠ s.machine.current_task := fun hb => (List.nodup_cons.1 h.nodup).1 (by simp [hb])
  obtain ⟨heip, hesp, hebp, -⟩ := (s.saving resume c).switched_context
  rw [saving_switched_current, saving_switched_tasks, hsel, if_neg hne] at heip hesp hebp
  have hout : (s.saving resume c).switched.eip ≠ resume := by rw [heip]; exact hbeip
  constructor
  · refine ⟨_, (tickHandler_iff hcur).2 (Machine.execs_one.2 ⟨hout, rfl⟩), saving_switched_current, ?_, ?_, ?_⟩
    · simp only [Resumed, hsel, hbs]
      exact ⟨_, rfl, heip, hesp, hebp⟩
    · exact (saving_switched_tasks _).trans (if_pos rfl)
    · exact fun x hx => (saving_switched_tasks x).trans (if_neg hx)
  · rintro t ⟨n, e, he, rfl⟩
    obtain ⟨-, rfl⟩ := ((tickHandler_iff hcur).1 he).of_ne hout
    refine ⟨o, ?_⟩
    have hcur' : (s.saving resume c).switched.current_task = b := saving_switched_current.trans hsel
    have hsucc : (s.saving resume c).switched.successor = s.machine.successor := Machine.switched_successor _
    refine ⟨?_, ?_, ?_, ?_, .inr ?_⟩
    · simp only [Exit.machine, hcur', hsucc]; exact h.links.2
    · simp only [Exit.machine, hcur']; exact (List.nodup_cons.1 h.nodup).2
    · simp only [Exit.machine, hcur']; exact fun h0 => h.nonnull (List.mem_cons_of_mem _ h0)
    · simp only [Exit.machine, hcur']
      intro x hx
      have hxc : x ≠ s.machine.current_task := fun hx' => (List.nodup_cons.1 h.nodup).1 (hx' ▸ hx)
      rw [if_neg hxc, saving_switched_tasks, if_neg hxc]
      exact h.fresh x (List.mem_cons_of_mem _ hx)
    · simp only [Exit.machine, saving_switched_tasks]
      by_cases ho : o = s.machine.current_task
      · simp [ho, Task.save]
      · rw [if_neg ho, if_neg ho]
        exact h.first.resolve_left fun h' => ho h'.1

/-- **A task that called `switch_task` switches again** when it is selected. -/
theorem Ahead.not_switchedWell (h : Ahead resume s [] o) : ¬ SwitchedWell resume s c := by
  have hcur : s.machine.current_task ≠ 0 := fun h0 => h.nonnull (by simp [h0])
  obtain ⟨hso, heip⟩ := h.first.resolve_left fun h' => h'.2 rfl
  have hsel : s.selected = o := h.links
  have hne : o ≠ s.machine.current_task := fun ho => hso (by rw [ho]; exact (h.fresh _ (by simp)).1)
  rintro ⟨e, he, -⟩
  have hout := (Machine.execs_one.1 ((tickHandler_iff hcur).1 he)).1
  rw [(s.saving resume c).switched_context.1, saving_switched_current, saving_switched_tasks, hsel, if_neg hne] at hout
  exact hout heip

theorem Ahead.guarded_iff : ∀ {s : Sched} {ticks : List Tick} {l : List U32} {o : U32}, Ahead resume s l o →
    (Guarded (Step resume) (SwitchedWell resume) s ticks ↔ ticks.length ≤ l.length)
  | _, [], _, _, _ => by simp [Guarded]
  | _, c :: _, [], _, h => by simp [Guarded, h.not_switchedWell (c := c)]
  | s, c :: ticks, b :: l, _, h => by
    obtain ⟨hwell, hnext⟩ := h.step (c := c)
    obtain ⟨e, he, -⟩ := hwell
    obtain ⟨o', h'⟩ := hnext _ ⟨1, e, he, rfl⟩
    simp only [Guarded, List.length_cons, Nat.add_le_add_iff_right]
    constructor
    · rintro ⟨-, hg⟩; exact h'.guarded_iff.1 (hg _ ⟨1, e, he, rfl⟩)
    · refine fun hlen => ⟨h.step.1, fun t ht => ?_⟩
      obtain ⟨o', h'⟩ := hnext t ht
      exact h'.guarded_iff.2 hlen

end Sched

/-- **Context switching.**  For a ready queue of two tasks or more that have not called `switch_task`, every tick
performs one switch and resumes the task it selects exactly when there are fewer ticks than tasks. -/
theorem switch_iff {resume : U32} {s : Sched} {q : List U32} (hq : ReadyQueue s.machine q) (h2 : 2 ≤ q.length)
    (hcur : s.machine.current_task ∈ q) (hfresh : ∀ t ∈ q, s.saved t = none ∧ (s.machine.tasks t).eip ≠ resume)
    (ticks : List Tick) :
    (∀ l₁ c l₂ t, ticks = l₁ ++ c :: l₂ → Reaches (Sched.Step resume) s l₁ t → Sched.SwitchedWell resume t c) ↔
      ticks.length < q.length := by
  obtain ⟨l, hperm, hlinks⟩ := hq.ring hcur
  have hlen : q.length = l.length + 1 := hperm.length_eq
  have h : Sched.Ahead resume s l s.machine.current_task :=
    ⟨hlinks, hperm.nodup_iff.1 hq.nodup, fun h0 => hq.nonnull (hperm.mem_iff.2 h0),
      fun t ht => hfresh t (hperm.mem_iff.2 ht), .inl ⟨rfl, fun hl => by simp [hl] at hlen; omega⟩⟩
  rw [← Runs.guarded_iff, h.guarded_iff, hlen, Nat.lt_succ_iff]

/-- Two tasks at 0x1000 and 0x2000; the first is running, the second was made by `fork`. -/
def twoTasks : Sched where
  machine :=
    { eax := 0, ecx := 0, esp := 0, ebp := 0, eip := 0, cr3 := 0, interrupts := true
      locals := fun _ => ⟨0, 0, 0⟩
      tasks := fun p => if p = 0x1000 then ⟨1, 0, 0, 0, 0, 0x2000⟩ else ⟨2, 0x8000, 0x8010, 0x100500, 0, 0⟩
      directories := fun _ => PageDirectory.zero
      current_task := 0x1000
      ready_queue := 0x1000
      current_directory := 0
      ticks := 0 }
  saved := fun _ => none

theorem twoTasks_readyQueue : ReadyQueue twoTasks.machine [0x1000, 0x2000] :=
  ⟨⟨[0x2000], rfl, rfl, rfl⟩, by decide, by decide⟩

theorem twoTasks_fresh : ∀ t ∈ [0x1000, 0x2000],
    twoTasks.saved t = none ∧ (twoTasks.machine.tasks t).eip ≠ (0x100600 : U32) := by
  simp [twoTasks]

theorem switch_to_child : Sched.SwitchedWell 0x100600 twoTasks ⟨0x9000, 0x9010⟩ :=
  (switch_iff twoTasks_readyQueue (by decide) (by decide) twoTasks_fresh [⟨0x9000, 0x9010⟩]).2 (by decide) [] _ [] _ rfl
    rfl

theorem switch_back : ReadyQueue twoTasks.machine [0x1000, 0x2000] ∧ ∃ t,
    Reaches (Sched.Step 0x100600) twoTasks [⟨0x9000, 0x9010⟩] t ∧ ¬ Sched.SwitchedWell 0x100600 t ⟨0x8000, 0x8010⟩ := by
  have h : Sched.Ahead 0x100600 twoTasks [0x2000] 0x1000 :=
    ⟨⟨rfl, rfl⟩, by decide, by decide, twoTasks_fresh, .inl ⟨rfl, by simp⟩⟩
  obtain ⟨hwell, hnext⟩ := h.step (c := ⟨0x9000, 0x9010⟩)
  obtain ⟨e, he, -⟩ := hwell
  obtain ⟨o, ho⟩ := hnext _ ⟨1, e, he, rfl⟩
  exact ⟨twoTasks_readyQueue, _, ⟨_, ⟨1, e, he, rfl⟩, rfl⟩, ho.not_switchedWell⟩

end Loris
