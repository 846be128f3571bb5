import Ezos.Proc.Fd
import Ezos.Lib.Run

/-!
# Processes at their descriptors (`kernel/task.c`, `kernel/syscall.c`)

One step is what a task does to tables and pipes without another task running in between. The kernel
runs with interrupts off except after the `sti` that ends a critical section of a pipe, so a step
ends at the end of a call, where a call sleeps, or where the timer takes the CPU away after such a
`sti`. `schedule` picks only READY and RUNNING tasks: these and BLOCKED ones are `live`, and a ZOMBIE
does nothing once it has lost the CPU.
-/

namespace Ezos.Proc

open Lib

set_option autoImplicit false

def maxTasks : Nat := 8
abbrev TaskId := Fin maxTasks

inductive Life | unused | live | zombie
deriving DecidableEq, Repr

/-- Where a task stands that does not run: outside a call on pipes, in the loop of `fd_read` or
`fd_write`, or in `fd_close` between the `sti` and the clearing of the entry. -/
inductive Pc
  | user
  | reading (p : PipeId) (n : Nat)
  | writing (p : PipeId) (data : List U8)
  | closing (f : Fd)
deriving DecidableEq

structure Task where
  life : Life
  isUser : Bool
  fds : Table
  pc : Pc

structure State where
  pipes : Pipes
  tasks : TaskId → Task

def boot : State where
  pipes := fun _ => bssPipe
  tasks := fun i => ⟨if i.val = 0 then .live else .unused, false, fdTableInit, .user⟩

inductive Op
  | create (isUser : Bool)
  | pipe (t : TaskId) (mem : Bool)
  | openFile (t : TaskId) (ok writing : Bool)
  | close (t : TaskId) (fd rc : Int)
  /-- `fd_close` of a pipe end, and the timer switches after its `sti`. -/
  | closeCut (t : TaskId) (f : Fd)
  | finishClose (t : TaskId)
  | fork (t : TaskId) (mem : Bool)
  | read (t : TaskId) (fd : Int) (n : Nat)
  | write (t : TaskId) (fd : Int) (data : List U8)
  /-- One turn of the loop of `fd_read` or `fd_write`. -/
  | turn (t : TaskId)
  | exit (t : TaskId)
  /-- `process_exit`, and the timer switches in its closing loop: at descriptor `f`, before the entry
  is cleared (`mid`) or after. -/
  | exitCut (t : TaskId) (f : Fd) (mid : Bool)
  | waitPid (t z : TaskId)
  | taskExit (t : TaskId)
  | reapZombie (z : TaskId)

def freeSlot (s : State) : Option TaskId :=
  (List.finRange maxTasks).find? fun i => decide ((s.tasks i).life = .unused)

def State.put (s : State) (ps : Pipes) (t : TaskId) (k : Task) : State :=
  ⟨ps, Function.update s.tasks t k⟩

@[simp] theorem put_pipes (s : State) (ps : Pipes) (t : TaskId) (k : Task) :
    (s.put ps t k).pipes = ps := rfl

@[simp] theorem put_tasks_self (s : State) (ps : Pipes) (t : TaskId) (k : Task) :
    (s.put ps t k).tasks t = k := Function.update_self _ _ _

theorem put_tasks_ne (s : State) (ps : Pipes) {t i : TaskId} (k : Task) (h : i ≠ t) :
    (s.put ps t k).tasks i = s.tasks i := Function.update_of_ne h _ _

def Task.turned (k : Task) : Turn → Task
  | .returns _ _ => { k with pc := .user }
  | .sleeps => k

def turnOf (s : State) (t : TaskId) : Option (PipeId × Turn × Pipe) :=
  match (s.tasks t).pc with
  | .reading p n => some (p, pipeRead (s.pipes p) n)
  | .writing p data => some (p, pipeWrite (s.pipes p) data)
  | _ => none

def State.run (s : State) : Op → State
  | .create isUser =>
    match freeSlot s with
    | none => s
    | some c => s.put s.pipes c ⟨.live, isUser, fdTableInit, .user⟩
  | .pipe t mem =>
    let r := fdPipe s.pipes (s.tasks t).fds mem
    s.put r.2.1 t { s.tasks t with fds := r.2.2 }
  | .openFile t ok writing =>
    s.put s.pipes t { s.tasks t with fds := fdOpen (s.tasks t).fds ok writing }
  | .close t fd rc =>
    let r := fdClose s.pipes (s.tasks t).fds fd rc
    s.put r.2.1 t { s.tasks t with fds := r.2.2 }
  | .closeCut t f =>
    s.put (pipeClose s.pipes ((s.tasks t).fds f)) t { s.tasks t with pc := .closing f }
  | .finishClose t =>
    match (s.tasks t).pc with
    | .closing f =>
      s.put s.pipes t
        { s.tasks t with fds := Function.update (s.tasks t).fds f .free, pc := .user }
    | _ => s
  | .fork t mem =>
    match mem, freeSlot s with
    | true, some c =>
      let r := fdTableDup s.pipes (s.tasks t).fds
      s.put r.1 c ⟨.live, true, r.2, .user⟩
    | _, _ => s
  | .read t fd n =>
    match fdReadEnter (s.tasks t).fds fd n with
    | .loops p => s.put s.pipes t { s.tasks t with pc := .reading p n }
    | _ => s
  | .write t fd data =>
    match fdWriteEnter (s.tasks t).fds fd data.length with
    | .loops p => s.put s.pipes t { s.tasks t with pc := .writing p data }
    | _ => s
  | .turn t =>
    match turnOf s t with
    | some (p, r, q) => s.put (Function.update s.pipes p q) t ((s.tasks t).turned r)
    | none => s
  | .exit t =>
    let r := closeAll s.pipes (s.tasks t).fds userFds
    s.put r.1 t { s.tasks t with life := .zombie, fds := r.2 }
  | .exitCut t f mid =>
    let r := closeAll s.pipes (s.tasks t).fds (userFds.filter (· < f))
    if mid then
      s.put (pipeClose r.1 (r.2 f)) t
        { s.tasks t with life := .zombie, fds := r.2, pc := .closing f }
    else
      s.put (closeEntry r.1 r.2 f 0).2.1 t
        { s.tasks t with life := .zombie, fds := (closeEntry r.1 r.2 f 0).2.2 }
  | .waitPid _ z => s.put s.pipes z { s.tasks z with life := .unused, isUser := false }
  | .taskExit t => s.put s.pipes t { s.tasks t with life := .zombie }
  | .reapZombie z =>
    let r := closeAll s.pipes (s.tasks z).fds userFds
    s.put r.1 z { s.tasks z with life := .unused, fds := r.2 }

def Idle (s : State) (t : TaskId) : Prop := (s.tasks t).life = .live ∧ (s.tasks t).pc = .user

def IsUser (s : State) (t : TaskId) : Prop := (s.tasks t).isUser = true

/-- When a step may be taken. Only user processes make pipes; a thread leaves by `task_exit`, and its
slot is swept by `task_reap_zombies`. A cut needs the interrupts that the close of a pipe end turns
on. -/
def Allowed (s : State) : Op → Prop
  | .create _ => True
  | .pipe t _ | .fork t _ | .exit t => Idle s t ∧ IsUser s t
  | .openFile t _ _ | .close t _ _ | .read t _ _ | .write t _ _ => Idle s t
  | .closeCut t f => Idle s t ∧ ((s.tasks t).fds f).type = .pipe
  | .finishClose t => (s.tasks t).life = .live ∧ ∃ f, (s.tasks t).pc = .closing f
  | .turn t => (s.tasks t).life = .live
  | .exitCut t f mid =>
    Idle s t ∧ IsUser s t ∧ f ∈ userFds ∧
      (∃ g ∈ userFds, g ≤ f ∧ ((s.tasks t).fds g).type = .pipe) ∧
      (mid = true → ((s.tasks t).fds f).type = .pipe)
  | .waitPid t z => Idle s t ∧ (s.tasks z).life = .zombie
  | .taskExit t => Idle s t ∧ ¬IsUser s t
  | .reapZombie z => (s.tasks z).life = .zombie ∧ ¬IsUser s z

def Step (s : State) (o : Op) (s' : State) : Prop := Allowed s o ∧ s' = s.run o

instance (s : State) (t : TaskId) : Decidable (Idle s t) := inferInstanceAs (Decidable (_ ∧ _))

instance (s : State) (t : TaskId) : Decidable (IsUser s t) := inferInstanceAs (Decidable (_ = _))

instance (s : State) : (o : Op) → Decidable (Allowed s o)
  | .create _ => inferInstanceAs (Decidable True)
  | .pipe _ _ | .fork _ _ | .exit _ => inferInstanceAs (Decidable (_ ∧ _))
  | .openFile t _ _ | .close t _ _ | .read t _ _ | .write t _ _ => inferInstanceAs (Decidable (Idle s t))
  | .closeCut _ _ | .finishClose _ | .waitPid _ _ => inferInstanceAs (Decidable (_ ∧ _))
  | .turn _ => inferInstanceAs (Decidable (_ = _))
  | .exitCut _ _ _ | .taskExit _ | .reapZombie _ => inferInstanceAs (Decidable (_ ∧ _))

def State.runAll (s : State) (os : List Op) : State := os.foldl State.run s

variable {s : State} {t : TaskId} {p : PipeId}

attribute [local simp] State.run

theorem freeSlot_unused {c : TaskId} (h : freeSlot s = some c) : (s.tasks c).life = .unused := by
  have hc := List.find?_some h
  exact of_decide_eq_true hc

theorem run_create (s : State) (isUser : Bool) :
    s.run (.create isUser) = s ∨ ∃ c, freeSlot s = some c ∧
      s.run (.create isUser) = s.put s.pipes c ⟨.live, isUser, fdTableInit, .user⟩ := by
  cases hc : freeSlot s with
  | none => exact .inl (by simp only [State.run, hc])
  | some c => exact .inr ⟨c, rfl, by simp only [State.run, hc]⟩

theorem run_fork (s : State) (t : TaskId) (mem : Bool) :
    s.run (.fork t mem) = s ∨ ∃ c, freeSlot s = some c ∧
      s.run (.fork t mem) = s.put (fdTableDup s.pipes (s.tasks t).fds).1 c
        ⟨.live, true, (fdTableDup s.pipes (s.tasks t).fds).2, .user⟩ := by
  cases mem with
  | false => exact .inl rfl
  | true =>
    cases hc : freeSlot s with
    | none => exact .inl (by simp only [State.run, hc])
    | some c => exact .inr ⟨c, rfl, by simp only [State.run, hc]⟩

theorem fdReadEnter_loops {T : Table} {fd : Int} {n : Nat} (h : fdReadEnter T fd n = .loops p) :
    0 < n ∧ ∃ f, T f = .pipeEnd p false := by
  unfold fdReadEnter at h
  cases hf : fdOf fd with
  | none => simp only [hf, reduceCtorEq] at h
  | some f =>
    rcases hT : T f with ⟨type, writable, data⟩
    cases type <;> simp only [hf, hT, reduceCtorEq] at h
    cases data with
    | none => simp only [reduceCtorEq] at h
    | some p' =>
      cases writable <;> simp only [Bool.false_eq_true, if_true, if_false, reduceCtorEq] at h
      by_cases hn : n = 0
      · simp only [hn, if_true, reduceCtorEq] at h
      · simp only [hn, if_false, Enter.loops.injEq] at h
        exact ⟨Nat.pos_of_ne_zero hn, f, by rw [hT, h, Entry.pipeEnd]⟩

theorem fdWriteEnter_loops {T : Table} {fd : Int} {n : Nat} (h : fdWriteEnter T fd n = .loops p) :
    0 < n ∧ ∃ f, T f = .pipeEnd p true := by
  unfold fdWriteEnter at h
  cases hf : fdOf fd with
  | none => simp only [hf, reduceCtorEq] at h
  | some f =>
    rcases hT : T f with ⟨type, writable, data⟩
    cases type <;> simp only [hf, hT, reduceCtorEq] at h
    cases data with
    | none => simp only [reduceCtorEq] at h
    | some p' =>
      cases writable <;> simp only [Bool.not_false, Bool.not_true, Bool.false_eq_true, if_true,
        if_false, reduceCtorEq] at h
      by_cases hn : n = 0
      · simp only [hn, if_true, reduceCtorEq] at h
      · simp only [hn, if_false, Enter.loops.injEq] at h
        exact ⟨Nat.pos_of_ne_zero hn, f, by rw [hT, h, Entry.pipeEnd]⟩

theorem run_read (s : State) (t : TaskId) (fd : Int) (n : Nat) :
    s.run (.read t fd n) = s ∨ ∃ p, (0 < n ∧ ∃ f, (s.tasks t).fds f = .pipeEnd p false) ∧
      s.run (.read t fd n) = s.put s.pipes t { s.tasks t with pc := .reading p n } := by
  cases he : fdReadEnter (s.tasks t).fds fd n with
  | loops p => exact .inr ⟨p, fdReadEnter_loops he, by simp only [State.run, he]⟩
  | _ => exact .inl (by simp only [State.run, he])

theorem run_write (s : State) (t : TaskId) (fd : Int) (data : List U8) :
    s.run (.write t fd data) = s ∨
      ∃ p, (0 < data.length ∧ ∃ f, (s.tasks t).fds f = .pipeEnd p true) ∧
      s.run (.write t fd data) = s.put s.pipes t { s.tasks t with pc := .writing p data } := by
  cases he : fdWriteEnter (s.tasks t).fds fd data.length with
  | loops p => exact .inr ⟨p, fdWriteEnter_loops he, by simp only [State.run, he]⟩
  | _ => exact .inl (by simp only [State.run, he])

theorem turnOf_eq_some {r : Turn} {q : Pipe} (h : turnOf s t = some (p, r, q)) :
    (∃ n, (s.tasks t).pc = .reading p n ∧ (r, q) = pipeRead (s.pipes p) n) ∨
      ∃ data, (s.tasks t).pc = .writing p data ∧ (r, q) = pipeWrite (s.pipes p) data := by
  unfold turnOf at h
  split at h
  · rename_i p' n hpc
    obtain ⟨rfl, hr⟩ := Prod.mk.inj (Option.some.inj h)
    exact .inl ⟨n, hpc, hr.symm⟩
  · rename_i p' data hpc
    obtain ⟨rfl, hr⟩ := Prod.mk.inj (Option.some.inj h)
    exact .inr ⟨data, hpc, hr.symm⟩
  · cases h

theorem run_turn (s : State) (t : TaskId) :
    s.run (.turn t) = s ∨ ∃ p r q, turnOf s t = some (p, r, q) ∧
      s.run (.turn t) = s.put (Function.update s.pipes p q) t ((s.tasks t).turned r) := by
  cases ht : turnOf s t with
  | none => exact .inl (by simp only [State.run, ht])
  | some r => exact .inr ⟨r.1, r.2.1, r.2.2, rfl, by simp only [State.run, ht]⟩

theorem run_finishClose {f : Fd} (h : (s.tasks t).pc = .closing f) :
    s.run (.finishClose t) = s.put s.pipes t
      { s.tasks t with fds := Function.update (s.tasks t).fds f .free, pc := .user } := by
  simp only [State.run, h]

@[simp] theorem turned_life (k : Task) (r : Turn) : (k.turned r).life = k.life := by
  cases r <;> rfl

end Ezos.Proc
