import Ezos.Lib.Intrusive
import Ezos.Lib.Run
import Ezos.Proc.Process

/-!
# Tasks, wait queues and the scheduler (`kernel/task.c`)

`-1` in a head or a `wait_next` is `none`, so that a queue object that is zero from the start has
the head `some 0`. A step is what runs with interrupts off: `task_sleep` up to where it loses the CPU
or halts, the tail that it runs when it wakes up from `hlt`, an interrupt.
-/

namespace Ezos.Sched

open Lib Lib.Intrusive

set_option autoImplicit false

abbrev TaskId := Proc.TaskId

def taskTimeslice : Nat := 10

inductive TaskState | unused | ready | running | blocked | zombie
deriving DecidableEq, Repr

/-- The queue objects of the kernel: five static ones with the head `-1`, `wq_sleep` of the shell's
`sleep` command, and one in each pipe. -/
inductive Queue
  | kb | netrx | reap | self | pingGap
  | sleepCmd
  | pipe (p : Proc.PipeId)
deriving DecidableEq

/-- Where a task stands when another one runs: in `schedule` under `task_sleep`, at the `hlt` of
`task_sleep`, behind the `wq_remove` after it, or anywhere else. -/
inductive Pos
  | outside
  | inSleep (q : Queue)
  | halted (q : Queue)
  | tailing (q : Queue)
deriving DecidableEq

structure Task where
  state : TaskState
  ticks : Nat
  isUser : Bool
  waitNext : Option TaskId
  wakeTick : U32
  waitQ : Option Queue
  pos : Pos

structure State where
  tasks : TaskId → Task
  heads : Queue → Option TaskId
  current : TaskId
  now : U32
  pipeUsed : Proc.PipeId → Bool

def State.links (s : State) (i : TaskId) : Option TaskId := (s.tasks i).waitNext

def State.waits (s : State) (i : TaskId) : Option Queue := (s.tasks i).waitQ

def State.put (s : State) (i : TaskId) (k : Task) : State :=
  { s with tasks := Function.update s.tasks i k }

def wqPush (s : State) (q : Queue) (i : TaskId) : State :=
  { s with
    tasks := Function.update s.tasks i { s.tasks i with waitNext := s.heads q, waitQ := some q }
    heads := Function.update s.heads q (some i) }

def State.store (s : State) (q : Queue) (v : Option TaskId) : Place TaskId → State
  | .head => { s with heads := Function.update s.heads q v }
  | .after j => s.put j { s.tasks j with waitNext := v }

def wqRemove (s : State) (q : Queue) (i : TaskId) : State :=
  match seek s.links (s.heads q) i (Proc.maxTasks + 1) .head with
  | none => s
  | some p =>
    let s' := s.store q (s.tasks i).waitNext p
    s'.put i { s'.tasks i with waitNext := none, waitQ := none }

def Task.woken (k : Task) : Task :=
  { k with
    waitNext := none
    waitQ := none
    wakeTick := 0
    state := if k.state = .blocked then .ready else k.state }

/-- The loop of `task_wake_all`. It cuts every link it has followed, so it passes each task at most
twice. -/
def wakeChain (T : TaskId → Task) : Nat → Option TaskId → TaskId → Task
  | 0, _ => T
  | _ + 1, none => T
  | n + 1, some i => wakeChain (Function.update T i (T i).woken) n (T i).waitNext

def taskWakeAll (s : State) (q : Queue) : State :=
  { s with
    tasks := wakeChain s.tasks (2 * Proc.maxTasks + 1) (s.heads q)
    heads := Function.update s.heads q none }

def due (s : State) (k : Task) : Bool := decide (0 ≤ (s.now - k.wakeTick).toInt)

/-- What `task_timer_tick` does for one task. -/
def expire (s : State) (i : TaskId) : State :=
  let k := s.tasks i
  if k.state ≠ .blocked ∨ k.wakeTick = 0 ∨ due s k = false then s
  else
    let s' := match k.waitQ with
      | some q => wqRemove s q i
      | none => s
    s'.put i { s'.tasks i with wakeTick := 0, state := .ready }

def taskTimerTick (s : State) : State := (List.finRange Proc.maxTasks).foldl expire s

def Task.runnable (k : Task) : Bool := decide (k.state = .ready ∨ k.state = .running)

theorem mod_lt_tasks (n : Nat) : n % Proc.maxTasks < Proc.maxTasks := Nat.mod_lt n (Nat.zero_lt_succ 7)

/-- `(g_current + i) % MAX_TASKS` for `i = k + 1`. -/
def rotate (c k : TaskId) : TaskId := ⟨(c.val + (k.val + 1)) % Proc.maxTasks, mod_lt_tasks _⟩

def pick (s : State) : TaskId :=
  (((List.finRange Proc.maxTasks).map (rotate s.current)).find? fun i => (s.tasks i).runnable).getD
    s.current

/-- The task that gets the CPU. One that sleeps goes on behind `schedule` in `task_sleep`: it is not
BLOCKED, clears its deadline and returns. -/
def Task.dispatch (k : Task) : Task :=
  match k.pos with
  | .inSleep _ =>
    { k with state := .running, ticks := taskTimeslice, wakeTick := 0, pos := .outside }
  | _ => { k with state := .running, ticks := taskTimeslice }

def Task.preempt (k : Task) : Task :=
  { k with ticks := k.ticks - 1, state := if k.state = .running then .ready else k.state }

def schedule (s : State) : State :=
  let cur := s.tasks s.current
  if cur.state = .running ∧ 0 < cur.ticks - 1 then s.put s.current { cur with ticks := cur.ticks - 1 }
  else if pick s = s.current then s.put s.current { cur with ticks := taskTimeslice }
  else
    { s with
      tasks := Function.update (Function.update s.tasks s.current cur.preempt) (pick s)
        (s.tasks (pick s)).dispatch
      current := pick s }

def irq0 (s : State) : State := schedule (taskTimerTick { s with now := s.now + 1 })

/-- `task_sleep` up to the switch or the `hlt`. -/
def taskSleep (s : State) (q : Queue) (timeout : U32) : State :=
  let me := s.current
  let s₁ := s.put me
    { s.tasks me with
      wakeTick := if timeout ≠ 0 then s.now + timeout else 0
      state := .blocked
      pos := .inSleep q }
  let s₂ := schedule (wqPush s₁ q me)
  if s₂.current = me then s₂.put me { s₂.tasks me with pos := .halted q } else s₂

/-- `if (t->wait_q == wq) wq_remove(wq, me)`. -/
def leaveQueue (s : State) (q : Queue) : State :=
  if (s.tasks s.current).waitQ = some q then wqRemove s q s.current else s

def returnRunning (s : State) : State :=
  s.put s.current { s.tasks s.current with wakeTick := 0, state := .running, pos := .outside }

def freeSlot (s : State) : Option TaskId :=
  (List.finRange Proc.maxTasks).find? fun i => decide ((s.tasks i).state = .unused)

/-- `task_create`, `task_create_process` and the child of `task_fork`. -/
def newTask (isUser : Bool) : Task := ⟨.ready, taskTimeslice, isUser, none, 0, none, .outside⟩

def taskYield (s : State) : State :=
  schedule (s.put s.current { s.tasks s.current with ticks := 0 })

def processExit (s : State) : State :=
  let s₁ := s.put s.current { s.tasks s.current with state := .zombie }
  let s₂ := taskWakeAll s₁ .reap
  match (s₂.tasks s₂.current).waitQ with
  | some q => taskWakeAll s₂ q
  | none => s₂

def Task.reaped (k : Task) : Task :=
  if k.state = .zombie ∧ k.isUser = false then { k with state := .unused } else k

theorem zero_lt_tasks : 0 < Proc.maxTasks := Nat.zero_lt_succ 7

def shell : TaskId := ⟨0, zero_lt_tasks⟩

/-- After `task_init`: static data that is not initialised is zero. -/
def boot : State where
  tasks i :=
    if i = shell then ⟨.running, taskTimeslice, false, none, 0, none, .outside⟩
    else ⟨.unused, 0, false, none, 0, none, .outside⟩
  heads
    | .sleepCmd | .pipe _ => some shell
    | _ => none
  current := shell
  now := 0
  pipeUsed _ := false

inductive Op
  | sleep (q : Queue) (timeout : U32)
  | resume
  /-- The same, with a timer switch behind `wq_remove`. -/
  | resumeCut
  | finish
  | timer
  | yield
  /-- `task_wake_all`, by an interrupt or by the running task. -/
  | wakeAll (q : Queue)
  | create (isUser : Bool)
  | taskExit
  | processExit
  /-- The `schedule` of a task that has exited. -/
  | giveUp
  /-- `task_wait_pid_opt` takes the exit code of `z`. -/
  | collect (z : TaskId)
  | reapZombies
  | makePipe (p : Proc.PipeId)
  | freePipe (p : Proc.PipeId)

def State.run (s : State) : Op → State
  | .sleep q timeout => taskSleep s q timeout
  | .resume =>
    match (s.tasks s.current).pos with
    | .halted q => returnRunning (leaveQueue s q)
    | _ => s
  | .resumeCut =>
    match (s.tasks s.current).pos with
    | .halted q =>
      let s' := leaveQueue s q
      irq0 (s'.put s'.current { s'.tasks s'.current with pos := .tailing q })
    | _ => s
  | .finish => returnRunning s
  | .timer => irq0 s
  | .yield => taskYield s
  | .wakeAll q => taskWakeAll s q
  | .create isUser =>
    match freeSlot s with
    | none => s
    | some i => s.put i (newTask isUser)
  | .taskExit => taskYield (s.put s.current { s.tasks s.current with state := .zombie })
  | .processExit => processExit s
  | .giveUp => schedule s
  | .collect z => s.put z { s.tasks z with state := .unused, isUser := false }
  | .reapZombies => { s with tasks := fun i => (s.tasks i).reaped }
  | .makePipe p =>
    { s with
      heads := Function.update s.heads (.pipe p) none
      pipeUsed := Function.update s.pipeUsed p true }
  | .freePipe p => { taskWakeAll s (.pipe p) with pipeUsed := Function.update s.pipeUsed p false }

/-- The queue is there: a pipe has one from `fd_pipe` on. -/
def InUse (s : State) : Queue → Prop
  | .pipe p => s.pipeUsed p = true
  | _ => True

def Running (s : State) : Prop :=
  (s.tasks s.current).state = .running ∧ (s.tasks s.current).pos = .outside

def Allowed (s : State) : Op → Prop
  | .sleep q _ => Running s ∧ InUse s q ∧ (q = .sleepCmd → s.current = shell)
  | .resume => ∃ q, (s.tasks s.current).pos = .halted q
  | .resumeCut => (∃ q, (s.tasks s.current).pos = .halted q) ∧ (s.run .resumeCut).current ≠ s.current
  | .finish => ∃ q, (s.tasks s.current).pos = .tailing q
  | .timer => True
  | .yield => Running s
  | .wakeAll q => InUse s q ∧ q ≠ .sleepCmd
  | .create _ => True
  | .taskExit => Running s ∧ (s.tasks s.current).isUser = false
  | .processExit => Running s ∧ (s.tasks s.current).isUser = true
  | .giveUp => (s.tasks s.current).state = .zombie
  | .collect z => Running s ∧ (s.tasks z).state = .zombie
  | .reapZombies => (s.tasks s.current).state ≠ .zombie
  | .makePipe p => s.pipeUsed p = false
  | .freePipe p => s.pipeUsed p = true

def Step (s : State) (o : Op) (s' : State) : Prop := Allowed s o ∧ s' = s.run o

instance (s : State) : (q : Queue) → Decidable (InUse s q)
  | .pipe _ => inferInstanceAs (Decidable (_ = _))
  | .kb | .netrx | .reap | .self | .pingGap | .sleepCmd => inferInstanceAs (Decidable True)

instance (s : State) : Decidable (Running s) := inferInstanceAs (Decidable (_ ∧ _))

/-- The task is in the tail of a `task_sleep`. -/
def Pos.isHalted : Pos → Bool
  | .halted _ => true
  | _ => false

def Pos.isTailing : Pos → Bool
  | .tailing _ => true
  | _ => false

theorem isHalted_iff (x : Pos) : x.isHalted = true ↔ ∃ q, x = .halted q := by
  cases x <;> simp [Pos.isHalted]

theorem isTailing_iff (x : Pos) : x.isTailing = true ↔ ∃ q, x = .tailing q := by
  cases x <;> simp [Pos.isTailing]

instance (x : Pos) : Decidable (∃ q, x = .halted q) := decidable_of_iff _ (isHalted_iff x)

instance (x : Pos) : Decidable (∃ q, x = .tailing q) := decidable_of_iff _ (isTailing_iff x)

instance (s : State) : (o : Op) → Decidable (Allowed s o)
  | .sleep _ _ => inferInstanceAs (Decidable (_ ∧ _ ∧ (_ → _)))
  | .resume | .finish => inferInstanceAs (Decidable (∃ _, _ = _))
  | .resumeCut | .wakeAll _ | .taskExit | .processExit | .collect _ => inferInstanceAs (Decidable (_ ∧ _))
  | .timer | .create _ => inferInstanceAs (Decidable True)
  | .yield => inferInstanceAs (Decidable (Running s))
  | .giveUp | .makePipe _ | .freePipe _ => inferInstanceAs (Decidable (_ = _))
  | .reapZombies => inferInstanceAs (Decidable (_ ≠ _))

end Ezos.Sched
