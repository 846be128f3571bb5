import Ezos.Proc.SchedQueues

/-!
# Sleeping for a time

Whoever is switched out in `task_sleep` keeps all but its link in every step, until the queue is
woken or a tick finds its deadline due. The invariants of the wait queues hold here for all runs, with
a cut of the tail and with the queue of the `sleep` command.
-/

namespace Ezos.Sched

open Lib Lib.Intrusive

set_option autoImplicit false

variable {s s' t u : State} {q r : Queue} {i j : TaskId} {k : Task} {o : Op} {ops : List Op}
  {w d : U32} {O C : Prop}

def Keeps (i : TaskId) (s s' : State) : Prop := ∃ v, s'.tasks i = { s.tasks i with waitNext := v }

theorem keeps_of_eq (h : s'.tasks i = s.tasks i) : Keeps i s s' := ⟨(s.tasks i).waitNext, h⟩

theorem keeps_put (h : i ≠ j) : Keeps i s (s.put j k) := keeps_of_eq (put_ne h)

theorem Keeps.trans (h : Keeps i s t) (h' : Keeps i t u) : Keeps i s u := by
  obtain ⟨v, hv⟩ := h
  obtain ⟨v', hv'⟩ := h'
  exact ⟨v', by rw [hv', hv]⟩

/-- Task `i` has lost the CPU in the `task_sleep` for `q` and has the deadline `w`. -/
structure Asleep (i : TaskId) (q : Queue) (w : U32) (s : State) : Prop where
  state : (s.tasks i).state = .blocked
  waitQ : (s.tasks i).waitQ = some q
  wakeTick : (s.tasks i).wakeTick = w
  pos : (s.tasks i).pos = .inSleep q

theorem Asleep.keeps (h : Asleep i q w s) (hk : Keeps i s s') : Asleep i q w s' := by
  obtain ⟨v, hv⟩ := hk
  constructor
  · rw [hv]
    exact h.state
  · rw [hv]
    exact h.waitQ
  · rw [hv]
    exact h.wakeTick
  · rw [hv]
    exact h.pos

theorem Asleep.ne_current (h : Asleep i q w s) (hg : Good O C s) : i ≠ s.current := by
  rintro rfl
  exact hg.current q h.pos

theorem Asleep.ne_of_state (h : Asleep i q w s) (hj : (s.tasks j).state ≠ .blocked) : i ≠ j := by
  rintro rfl
  exact hj h.state

theorem Asleep.schedule (h : Asleep i q w s) (hne : i ≠ s.current) : Keeps i s (schedule s) := by
  rcases schedule_cases s with ⟨n, he⟩ | ⟨-, hr, he⟩
  · rw [he]
    exact keeps_put hne
  · rw [he]
    have hp : i ≠ pick s := h.ne_of_state (runnable_not_blocked hr)
    exact keeps_of_eq ((put_ne hp).trans (put_ne hne))

theorem leaveQueue_keeps (hg : Good O C s) (hne : i ≠ s.current) : Keeps i s (leaveQueue s q) := by
  unfold leaveQueue
  split
  · rename_i hq
    exact (removed_of_wires hg.wires hq).others i hne
  · exact keeps_of_eq rfl

theorem leaveQueue_current (hg : Good O C s) : (leaveQueue s q).current = s.current := by
  unfold leaveQueue
  split
  · rename_i hq
    exact (removed_of_wires hg.wires hq).current
  · rfl

theorem cutTail_keeps (hg : Good O C s) (hne : i ≠ s.current) : Keeps i s (cutTail s q) := by
  refine (leaveQueue_keeps hg hne).trans (keeps_put ?_)
  rwa [leaveQueue_current hg]

theorem returnRunning_keeps (hne : i ≠ s.current) : Keeps i s (returnRunning s) := keeps_put hne

theorem Asleep.wakeAll (h : Asleep i q w s) (hg : Good O C s) (hr : Proper s r) (hne : r ≠ q) :
    Keeps i s (taskWakeAll s r) := by
  refine keeps_of_eq ((wakeAll_task hg.wires hr i).trans (if_neg ?_))
  rw [h.waitQ]
  exact fun he => hne (Option.some.inj he).symm

theorem wqRemove_now : (wqRemove s q i).now = s.now := by
  unfold wqRemove
  split
  · rfl
  · rename_i p _
    cases p <;> rfl

theorem expire_now : (expire s i).now = s.now := by
  unfold expire
  dsimp only
  split
  · rfl
  · split
    · exact wqRemove_now
    · rfl

theorem foldl_expire_now (L : List TaskId) : (L.foldl expire s).now = s.now := by
  induction L generalizing s with
  | nil => rfl
  | cons j L ih => exact ih.trans expire_now

theorem foldl_expire_pipeUsed (hg : Good O C s) (L : List TaskId) :
    (L.foldl expire s).pipeUsed = s.pipeUsed := by
  induction L generalizing s with
  | nil => rfl
  | cons j L ih =>
    refine (ih (hg.expire j)).trans ?_
    rcases expire_cases hg.wires j with he | ⟨-, he⟩ | ⟨r, k, hr, -, -, -, he⟩
    · rw [he]
    · rw [he]
      rfl
    · rw [he]
      exact (removed_of_wires hg.wires hr).pipeUsed

theorem schedule_now : (schedule s).now = s.now := by
  rcases schedule_cases s with ⟨n, he⟩ | ⟨-, -, he⟩ <;> rw [he] <;> rfl

theorem leaveQueue_now : (leaveQueue s q).now = s.now := by
  unfold leaveQueue
  split
  · exact wqRemove_now
  · rfl

theorem irq0_now : (irq0 s).now = s.now + 1 :=
  schedule_now.trans (foldl_expire_now (s := { s with now := s.now + 1 }) _)

theorem expire_keeps_other (hg : Good O C s) (hne : i ≠ j) : Keeps i s (expire s j) := by
  rcases expire_cases hg.wires j with he | ⟨-, he⟩ | ⟨r, k, hr, -, -, -, he⟩
  · exact keeps_of_eq (by rw [he])
  · rw [he]
    exact keeps_put hne
  · rw [he]
    exact Keeps.trans ((removed_of_wires hg.wires hr).others i hne) (keeps_put hne)

def Ahead (w now : U32) : Prop := w = 0 ∨ (now - w).toInt < 0

theorem Asleep.expire (h : Asleep i q w s) (hg : Good O C s) (hd : Ahead w s.now) (j : TaskId) :
    Keeps i s (expire s j) := by
  by_cases hij : i = j
  · subst hij
    have hstay : Sched.expire s i = s := by
      refine if_pos (.inr ?_)
      rw [due, h.wakeTick]
      exact hd.imp_right fun hlt => decide_eq_false (Int.not_le.mpr hlt)
    exact keeps_of_eq (by rw [hstay])
  · exact expire_keeps_other hg hij

theorem Asleep.foldl_expire (h : Asleep i q w s) (hg : Good O C s) (hd : Ahead w s.now)
    (L : List TaskId) : Keeps i s (L.foldl Sched.expire s) := by
  induction L generalizing s with
  | nil => exact keeps_of_eq rfl
  | cons j L ih =>
    have hk := h.expire hg hd j
    refine hk.trans (ih (h.keeps hk) (hg.expire j) ?_)
    rwa [expire_now]

theorem foldl_expire_keeps_other (hg : Good O C s) {L : List TaskId} (hi : i ∉ L) :
    Keeps i s (L.foldl expire s) := by
  induction L generalizing s with
  | nil => exact keeps_of_eq rfl
  | cons j L ih =>
    have hk : Keeps i s (expire s j) := expire_keeps_other hg (List.ne_of_not_mem_cons hi)
    exact hk.trans (ih (hg.expire j) (List.not_mem_of_not_mem_cons hi))

def tick (s : State) : State := taskTimerTick { s with now := s.now + 1 }

theorem Asleep.tick (h : Asleep i q w s) (hg : Good O C s) (hd : Ahead w (s.now + 1)) :
    Keeps i s (tick s) := by
  have h' : Asleep i q w { s with now := s.now + 1 } := ⟨h.state, h.waitQ, h.wakeTick, h.pos⟩
  obtain ⟨v, hv⟩ := h'.foldl_expire (hg.congr_now (s.now + 1)) hd (List.finRange Proc.maxTasks)
  refine ⟨v, ?_⟩
  rw [Sched.tick, taskTimerTick, hv]

theorem Good.tick (hg : Good O C s) : Good O C (tick s) := (hg.congr_now _).timerTick

theorem Asleep.irq0 (h : Asleep i q w s) (hg : Good O C s) (hd : Ahead w (s.now + 1)) :
    Keeps i s (irq0 s) := by
  have hk := h.tick hg hd
  have h' := h.keeps hk
  exact hk.trans (h'.schedule (h'.ne_current hg.tick))

theorem Asleep.expire_due (h : Asleep i q w s) (hg : Good O C s) (hw : w ≠ 0)
    (hd : 0 ≤ (s.now - w).toInt) :
    ((Sched.expire s i).tasks i).state = .ready ∧ ((Sched.expire s i).tasks i).waitQ = none := by
  have hrun : Sched.expire s i = (wqRemove s q i).put i
      { (wqRemove s q i).tasks i with wakeTick := 0, state := .ready } := by
    refine (if_neg ?_).trans ?_
    · rw [due, h.wakeTick, h.state]
      rintro (hb | hb | hb)
      · exact hb rfl
      · exact hw hb
      · exact absurd hd (of_decide_eq_false hb)
    · simp only [h.waitQ]
  rw [hrun, put_self]
  refine ⟨rfl, ?_⟩
  rw [(removed_of_wires hg.wires h.waitQ).self]

theorem Asleep.tick_due (h : Asleep i q w s) (hg : Good O C s) (hw : w ≠ 0)
    (hd : 0 ≤ (s.now + 1 - w).toInt) :
    ((Sched.tick s).tasks i).state = .ready ∧ ((Sched.tick s).tasks i).waitQ = none := by
  have h₀ : Asleep i q w { s with now := s.now + 1 } := ⟨h.state, h.waitQ, h.wakeTick, h.pos⟩
  have hg₀ : Good O C { s with now := s.now + 1 } := hg.congr_now _
  obtain ⟨A, B, hAB⟩ := List.append_of_mem (List.mem_finRange i)
  have hnd : (A ++ i :: B).Nodup := hAB ▸ List.nodup_finRange Proc.maxTasks
  obtain ⟨hi, -⟩ := List.nodup_cons.mp (List.nodup_middle.mp hnd)
  have h₁ := h₀.keeps (foldl_expire_keeps_other hg₀ fun hA => hi (List.mem_append_left B hA))
  have hdue := h₁.expire_due (hg₀.foldl_expire A) hw (by rwa [foldl_expire_now])
  have hlast := foldl_expire_keeps_other ((hg₀.foldl_expire A).expire i)
    (fun hB => hi (List.mem_append_right A hB))
  have hrun : Sched.tick s = B.foldl Sched.expire (Sched.expire (A.foldl Sched.expire
      { s with now := s.now + 1 }) i) := by
    rw [Sched.tick, taskTimerTick, hAB, List.foldl_append, List.foldl_cons]
  obtain ⟨v, hv⟩ := hlast
  rw [hrun, hv]
  exact hdue

/-! ## Steps and runs -/

def Op.isTick : Op → Bool
  | .timer | .resumeCut => true
  | _ => false

def ticks (ops : List Op) : Nat := ops.countP Op.isTick

/-- The operation calls `task_wake_all` on the queue. -/
def Wakes (s : State) (q : Queue) : Op → Prop
  | .wakeAll r => r = q
  | .freePipe p => .pipe p = q
  | .processExit => .reap = q ∨ (s.tasks s.current).waitQ = some q
  | _ => False

def QuietStep (q : Queue) (s : State) (o : Op) (s' : State) : Prop := Step s o s' ∧ ¬Wakes s q o

/-- What an operation with a tick does before `task_timer_tick`. -/
def beforeTick (s : State) : Op → State
  | .resumeCut =>
    match (s.tasks s.current).pos with
    | .halted q => cutTail s q
    | _ => s
  | _ => s

theorem run_tick (ha : Allowed s o) (ho : o.isTick = true) :
    s.run o = schedule (tick (beforeTick s o)) := by
  cases o with
  | timer => rfl
  | resumeCut =>
    obtain ⟨⟨q, hp⟩, -⟩ := ha
    rw [run_resumeCut hp]
    simp only [beforeTick, hp]
    rfl
  | _ => cases ho

theorem cleanFor_true : CleanFor True True s o := by
  cases o <;> first | trivial | exact fun _ => trivial

theorem Good.beforeTick (hg : Good True True s) (ha : Allowed s o) : Good True True (beforeTick s o) := by
  cases o with
  | resumeCut =>
    obtain ⟨⟨q, hp⟩, -⟩ := ha
    simp only [Sched.beforeTick, hp]
    exact hg.cutTail hp fun _ => trivial
  | _ => exact hg

theorem Asleep.beforeTick (h : Asleep i q w s) (hg : Good O C s) : Keeps i s (beforeTick s o) := by
  cases o with
  | resumeCut =>
    simp only [Sched.beforeTick]
    split
    · exact cutTail_keeps hg (h.ne_current hg)
    · exact keeps_of_eq rfl
  | _ => exact keeps_of_eq rfl

theorem beforeTick_now : (beforeTick s o).now = s.now := by
  cases o with
  | resumeCut =>
    simp only [beforeTick]
    split
    · exact leaveQueue_now
    · rfl
  | _ => rfl

theorem run_now (ha : Allowed s o) :
    (s.run o).now = if o.isTick then s.now + 1 else s.now := by
  cases o with
  | sleep q timeout =>
    refine Eq.trans ?_ (schedule_now (s := queued s q timeout))
    rw [State.run, taskSleep_eq]
    split <;> rfl
  | resume =>
    obtain ⟨q, hp⟩ := ha
    simp only [State.run, hp]
    exact leaveQueue_now
  | resumeCut =>
    obtain ⟨⟨q, hp⟩, -⟩ := ha
    rw [run_resumeCut hp, irq0_now]
    exact congrArg (· + 1) leaveQueue_now
  | timer => exact irq0_now
  | yield => exact schedule_now
  | create isUser =>
    simp only [State.run]
    split <;> rfl
  | taskExit => exact schedule_now
  | processExit =>
    simp only [State.run, processExit]
    split <;> rfl
  | giveUp => exact schedule_now
  | _ => rfl

/-- A sleeper keeps all but its link in a step that does not wake its queue, where its deadline lies
ahead of the tick of the step. -/
theorem Asleep.step (h : Asleep i q w s) (hg : Good True True s) (hs : QuietStep q s o s')
    (hd : o.isTick = true → Ahead w (s.now + 1)) : Asleep i q w s' := by
  obtain ⟨⟨ha, rfl⟩, hq⟩ := hs
  have hne := h.ne_current hg
  refine h.keeps ?_
  cases o with
  | sleep r timeout =>
    have hk : Keeps i s (queued s r timeout) := keeps_of_eq (Function.update_of_ne hne _ _)
    have hsch := hk.trans ((h.keeps hk).schedule hne)
    rw [State.run, taskSleep_eq]
    split
    · exact hsch.trans (keeps_put hne)
    · exact hsch
  | resume =>
    obtain ⟨r, hp⟩ := ha
    simp only [State.run, hp]
    refine (leaveQueue_keeps hg hne).trans (returnRunning_keeps ?_)
    rwa [leaveQueue_current hg]
  | resumeCut =>
    obtain ⟨⟨r, hp⟩, -⟩ := ha
    have hk : Keeps i s (cutTail s r) := cutTail_keeps hg hne
    have hnow : (cutTail s r).now = s.now := leaveQueue_now
    rw [run_resumeCut hp]
    refine hk.trans ((h.keeps hk).irq0 (hg.cutTail hp fun _ => trivial) ?_)
    rw [hnow]
    exact hd rfl
  | finish => exact returnRunning_keeps hne
  | timer => exact h.irq0 hg (hd rfl)
  | yield =>
    have hk := keeps_put (s := s) (k := { s.tasks s.current with ticks := 0 }) hne
    exact hk.trans ((h.keeps hk).schedule hne)
  | wakeAll r => exact h.wakeAll hg ha hq
  | create isUser =>
    cases hf : freeSlot s with
    | none =>
      simp only [State.run, hf]
      exact keeps_of_eq rfl
    | some j =>
      simp only [State.run, hf]
      refine keeps_put (h.ne_of_state ?_)
      rw [freeSlot_unused hf]
      exact TaskState.noConfusion
  | taskExit =>
    have hk := keeps_put (s := s) (k := { s.tasks s.current with state := .zombie }) hne
    have hk' := hk.trans (keeps_put (k := { (s.put s.current
      { s.tasks s.current with state := .zombie }).tasks s.current with ticks := 0 }) hne)
    exact hk'.trans ((h.keeps hk').schedule hne)
  | processExit =>
    have hk := keeps_put (s := s) (k := { s.tasks s.current with state := .zombie }) hne
    have hz := hg.wires.off_of_state ha.1.1 TaskState.noConfusion
    have hg₁ : Good True True (s.put s.current { s.tasks s.current with state := .zombie }) :=
      hg.put_off hz hz TaskState.noConfusion fun _ => hg.current
    rw [State.run, processExit_eq hg ha.1]
    exact hk.trans ((h.keeps hk).wakeAll hg₁ ⟨trivial, Queue.noConfusion⟩ fun he => hq (.inl he))
  | giveUp => exact h.schedule hne
  | collect z =>
    refine keeps_put (h.ne_of_state ?_)
    rw [ha.2]
    exact TaskState.noConfusion
  | reapZombies =>
    refine keeps_of_eq (if_neg fun hz => ?_)
    rw [h.state] at hz
    cases hz.1
  | makePipe p => exact keeps_of_eq rfl
  | freePipe p => exact h.wakeAll hg ⟨ha, Queue.noConfusion⟩ hq

def Left (w now : U32) (n : Nat) : Prop := w = 0 ∨ w = now + BitVec.ofNat 32 n ∧ n < 2 ^ 31

theorem Left.ahead {now : U32} {n : Nat} (h : Left w now n) (hn : 2 ≤ n) : Ahead w (now + 1) := by
  rcases h with h | ⟨rfl, hlt⟩
  · exact .inl h
  · refine .inr (BitVec.toInt_neg_iff.mpr ?_)
    bv_omega

theorem Left.tick {now : U32} {n : Nat} (h : Left w now n) (hn : 0 < n) : Left w (now + 1) (n - 1) := by
  rcases h with h | ⟨rfl, hlt⟩
  · exact .inl h
  · refine .inr ⟨?_, by omega⟩
    bv_omega

theorem Asleep.run {n : Nat} (h : Asleep i q w s) (hg : Good True True s) (hw : Left w s.now n)
    (hr : Run (QuietStep q) s ops t) (hn : ticks ops < n) :
    Asleep i q w t ∧ Good True True t ∧ Left w t.now (n - ticks ops) := by
  induction hr generalizing n with
  | nil => exact ⟨h, hg, hw⟩
  | @cons s s' t o os hs hr ih =>
    have hg' : Good True True s' := hg.step hs.1 cleanFor_true
    have hnow : s'.now = if o.isTick then s.now + 1 else s.now := by
      rw [hs.1.2]
      exact run_now hs.1.1
    rw [ticks, List.countP_cons] at hn ⊢
    cases ho : o.isTick with
    | false =>
      rw [ho] at hn hnow
      have h' := h.step hg hs fun he => absurd (ho.symm.trans he) Bool.false_ne_true
      refine ih h' hg' ?_ hn
      rwa [hnow]
    | true =>
      rw [ho, if_pos rfl] at hn
      rw [ho, if_pos rfl] at hnow
      have h' := h.step hg hs fun _ => hw.ahead (by omega)
      have hw' : Left w s'.now (n - 1) := by
        rw [hnow]
        exact hw.tick (by omega)
      obtain ⟨ht, hgt, hwt⟩ := ih h' hg' hw' (by unfold ticks; omega)
      refine ⟨ht, hgt, ?_⟩
      rw [if_pos rfl, Nat.add_comm, ← Nat.sub_sub]
      exact hwt

/-! ## The sleep -/

structure SleepsFor (s : State) (q : Queue) (d : U32) : Prop where
  /-- Before `d` ticks have gone by, only waking the queue ends it. -/
  early : ∀ ops t, Run (QuietStep q) (taskSleep s q d) ops t → ticks ops < d.toNat →
    (t.tasks s.current).state = .blocked ∧ t.waits s.current = some q
  /-- `task_timer_tick` ends it in the tick that makes up `d`. -/
  onTime : ∀ ops t o, Run (QuietStep q) (taskSleep s q d) ops t → ticks ops + 1 = d.toNat →
    Allowed t o → o.isTick = true →
    ((tick (beforeTick t o)).tasks s.current).state = .ready ∧
      (tick (beforeTick t o)).waits s.current = none ∧
      ∃ L, Linked (tick (beforeTick t o)).links ((tick (beforeTick t o)).heads q) L ∧ s.current ∉ L

theorem asleep_of_switch (hd : 0 < d.toNat) (hsw : (taskSleep s q d).current ≠ s.current) :
    Asleep s.current q (s.now + d) (taskSleep s q d) := by
  have hself : (queued s q d).tasks s.current = asleep s q d := Function.update_self _ _ _
  have hd0 : d ≠ 0 := by
    rintro rfl
    exact absurd hd (Nat.lt_irrefl 0)
  have hstart : Asleep s.current q (s.now + d) (queued s q d) := by
    constructor <;> rw [hself]
    · rfl
    · rfl
    · exact if_pos hd0
    · rfl
  rw [taskSleep_eq] at hsw ⊢
  split at hsw
  · rename_i hc
    exact absurd hc hsw
  · rename_i hc
    rw [if_neg hc]
    rcases schedule_cases (queued s q d) with ⟨n, he⟩ | ⟨hne, -, he⟩
    · rw [he] at hc
      exact absurd rfl hc
    · have hme : s.current ≠ pick (queued s q d) := Ne.symm hne
      have htask : (schedule (queued s q d)).tasks s.current = (asleep s q d).preempt := by
        rw [he]
        refine (put_ne hme).trans ?_
        rw [show (queued s q d).current = s.current from rfl, put_self, hself]
      constructor <;> rw [htask]
      · exact (preempt_blocked _).mpr rfl
      · rfl
      · exact if_pos hd0
      · rfl

theorem left_of_sleep (hd : d.toNat < 2 ^ 31) : Left (s.now + d) s.now d.toNat := by
  refine .inr ⟨?_, hd⟩
  rw [BitVec.ofNat_toNat, BitVec.setWidth_eq]

theorem run_timers (s : State) (q : Queue) (n : Nat) :
    ∃ t, Run (QuietStep q) s (List.replicate n .timer) t := by
  induction n generalizing s with
  | zero => exact ⟨s, .nil s⟩
  | succ n ih =>
    obtain ⟨t, ht⟩ := ih (s.run .timer)
    exact ⟨t, .cons ⟨⟨trivial, rfl⟩, id⟩ ht⟩

theorem ticks_timers (n : Nat) : ticks (List.replicate n .timer) = n := by
  rw [ticks, List.countP_replicate]
  exact if_pos rfl

theorem Good.off_chain (hg : Good O C s) (hq : Proper s q) (hi : s.waits i = none) :
    ∃ L, Linked s.links (s.heads q) L ∧ i ∉ L := by
  obtain ⟨L, hL, -, hmem⟩ := hg.wires.wired q hq
  refine ⟨L, hL, fun hiL => ?_⟩
  rw [(hmem i).mp hiL] at hi
  cases hi

theorem good_of_run (hr : Run Step boot ops s) : Good True True s :=
  Run.invariant (I := Good True True) (fun hI h => hI.step h cleanFor_true) hr good_boot

section Sleeper
variable (hg₀ : Good True True s) (ha : Allowed s (.sleep q d)) (hd : 0 < d.toNat)
  (hd' : d.toNat < 2 ^ 31) (hsw : (taskSleep s q d).current ≠ s.current)
include hg₀ ha hd hd' hsw

theorem asleep_run (hr : Run (QuietStep q) (taskSleep s q d) ops t) (hn : ticks ops < d.toNat) :
    Asleep s.current q (s.now + d) t ∧ Good True True t ∧ Left (s.now + d) t.now (d.toNat - ticks ops) := by
  have hg : Good True True (taskSleep s q d) := hg₀.step ⟨ha, rfl⟩ cleanFor_true
  have hnow : (taskSleep s q d).now = s.now := run_now ha
  refine (asleep_of_switch hd hsw).run hg ?_ hr hn
  rw [hnow]
  exact left_of_sleep hd'

theorem not_sleepsFor (hbad : s.now + d = 0 ∨ q = .sleepCmd) : ¬SleepsFor s q d := by
  intro h
  obtain ⟨t, ht⟩ := run_timers (taskSleep s q d) q (d.toNat - 1)
  have hn : ticks (List.replicate (d.toNat - 1) .timer) = d.toNat - 1 := ticks_timers _
  have hbt : beforeTick t .timer = t := rfl
  obtain ⟨hst, -, L, hL, hi⟩ := h.onTime _ t .timer ht (by omega) trivial rfl
  rw [hbt] at hst hL
  obtain ⟨hslt, hgt, -⟩ := asleep_run hg₀ ha hd hd' hsw ht (by omega)
  rcases hbad with h0 | hq
  · have hstay := (hslt.keeps (hslt.tick hgt (.inl h0))).state
    rw [hst] at hstay
    cases hstay
  · subst hq
    rw [hgt.tick.wires.cmd] at hL
    cases L with
    | nil => exact Option.some_ne_none _ hL
    | cons j L =>
      obtain rfl := Option.some.inj hL.1
      exact hi (List.mem_cons.mpr (.inl (ha.2.2 rfl)))

theorem sleepsFor_of_deadline (h0 : s.now + d ≠ 0) (hq : q ≠ .sleepCmd) : SleepsFor s q d where
  early os t ht hn := by
    obtain ⟨hslt, -, -⟩ := asleep_run hg₀ ha hd hd' hsw ht hn
    exact ⟨hslt.state, hslt.waitQ⟩
  onTime os t o ht hn hat hot := by
    obtain ⟨hslt, hgt, hlt⟩ := asleep_run hg₀ ha hd hd' hsw ht (by omega)
    have hslb := hslt.keeps (hslt.beforeTick (o := o) hgt)
    have hgb := hgt.beforeTick hat
    have hdue : 0 ≤ ((beforeTick t o).now + 1 - (s.now + d)).toInt := by
      rw [beforeTick_now]
      rcases hlt with hlt | ⟨hlt, -⟩
      · exact absurd hlt h0
      · have hone : d.toNat - ticks os = 1 := by omega
        rw [hlt, hone]
        simp
    obtain ⟨hst, hw⟩ := hslb.tick_due hgb h0 hdue
    have huse : InUse (beforeTick t o) q := ((hgb.wires.tasks _).on q hslb.waitQ).1.1
    exact ⟨hst, hw, hgb.tick.off_chain ⟨huse.congr (foldl_expire_pipeUsed (hgb.congr_now _) _), hq⟩ hw⟩

end Sleeper

/-- A timed sleep keeps its time but for a deadline of 0, which counts as none, and on the queue of the
`sleep` command, which never loses its task. -/
theorem timedSleep_iff {ops : List Op} (hr : Run Step boot ops s) (ha : Allowed s (.sleep q d))
    (hd : 0 < d.toNat) (hd' : d.toNat < 2 ^ 31) (hsw : (taskSleep s q d).current ≠ s.current) :
    SleepsFor s q d ↔ s.now + d ≠ 0 ∧ q ≠ .sleepCmd := by
  have hg := good_of_run hr
  constructor
  · intro h
    exact ⟨fun h0 => not_sleepsFor hg ha hd hd' hsw (.inl h0) h,
      fun hq => not_sleepsFor hg ha hd hd' hsw (.inr hq) h⟩
  · rintro ⟨h0, hq⟩
    exact sleepsFor_of_deadline hg ha hd hd' hsw h0 hq

theorem timedSleep_shell : SleepsFor (boot.run (.create true)) .pingGap 1 := by
  have hrun : Run Step boot [.create true] (boot.run (.create true)) := .cons ⟨trivial, rfl⟩ (.nil _)
  apply (timedSleep_iff hrun (by decide) (by decide) (by decide) (by decide)).mpr
  exact ⟨by decide, Queue.noConfusion⟩

def alone (now : U32) (slice : Nat) : State :=
  { boot with
    now := now
    tasks := fun i =>
      if i = shell then ⟨.running, slice, false, none, 0, none, .outside⟩
      else ⟨.unused, 0, false, none, 0, none, .outside⟩ }

theorem alone_state {now : U32} {slice : Nat} (hi : ((alone now slice).tasks i).state ≠ .unused) :
    i = shell ∧ ((alone now slice).tasks i).state = .running := by
  simp only [alone] at hi ⊢
  split at hi
  · rename_i h
    exact ⟨h, by rw [if_pos h]⟩
  · exact absurd rfl hi

theorem alone_tick (now : U32) (slice : Nat) : tick (alone now slice) = alone (now + 1) slice := by
  have hstay : ∀ L : List TaskId, L.foldl expire (alone (now + 1) slice) = alone (now + 1) slice := by
    intro L
    induction L with
    | nil => rfl
    | cons j L ih =>
      have hj : expire (alone (now + 1) slice) j = alone (now + 1) slice := by
        refine if_pos (.inl fun hb => ?_)
        have hused : ((alone (now + 1) slice).tasks j).state ≠ .unused := by
          rw [hb]
          exact TaskState.noConfusion
        have hu := (alone_state hused).2
        rw [hb] at hu
        cases hu
      rw [List.foldl_cons, hj, ih]
  exact hstay _

theorem alone_timer (now : U32) (slice : Nat) :
    ∃ slice', (alone now slice).run .timer = alone (now + 1) slice' := by
  have hrun : (alone now slice).run .timer = schedule (tick (alone now slice)) := run_tick trivial rfl
  rw [hrun, alone_tick]
  rcases schedule_cases (alone (now + 1) slice) with ⟨n, he⟩ | ⟨hne, hr, -⟩
  · refine ⟨n, he.trans ?_⟩
    simp only [State.put, alone, boot, if_true, State.mk.injEq, and_true]
    funext j
    by_cases hj : j = shell
    · rw [hj, Function.update_self, if_pos rfl]
    · rw [Function.update_of_ne hj, if_neg hj, if_neg hj]
  · refine absurd ?_ hne
    have hu : ((alone (now + 1) slice).tasks (pick (alone (now + 1) slice))).state ≠ .unused := fun hu => by
      rw [Task.runnable, hu] at hr
      cases hr
    exact (alone_state hu).1

theorem run_alone (n : Nat) (now : U32) (slice : Nat) :
    ∃ slice', Run Step (alone now slice) (List.replicate n .timer)
      (alone (now + BitVec.ofNat 32 n) slice') := by
  induction n generalizing now slice with
  | zero => exact ⟨slice, by simpa using Run.nil _⟩
  | succ n ih =>
    obtain ⟨slice₁, h₁⟩ := alone_timer now slice
    obtain ⟨slice₂, h₂⟩ := ih (now + 1) slice₁
    refine ⟨slice₂, .cons ⟨trivial, h₁.symm⟩ ?_⟩
    have hnow : now + BitVec.ofNat 32 (n + 1) = now + 1 + BitVec.ofNat 32 n := by bv_omega
    rw [hnow]
    exact h₂

def wrapOps : List Op := List.replicate (2 ^ 32 - 1) .timer ++ [.create true]

/-- A sleep of one tick whose deadline is 0 is not kept, nor one on the queue of the `sleep` command. -/
theorem timedSleep_lost :
    (∃ s, Run Step boot wrapOps s ∧ Allowed s (.sleep .pingGap 1) ∧
      (taskSleep s .pingGap 1).current ≠ s.current ∧ ¬SleepsFor s .pingGap 1) ∧
      ¬SleepsFor (boot.run (.create true)) .sleepCmd 1 := by
  constructor
  · obtain ⟨slice, hr⟩ := run_alone (2 ^ 32 - 1) 0 taskTimeslice
    have hr' : Run Step boot wrapOps ((alone (0 + BitVec.ofNat 32 (2 ^ 32 - 1)) slice).run (.create true)) :=
      Run.append hr (.cons ⟨trivial, rfl⟩ (.nil _))
    have ha : Allowed ((alone (0 + BitVec.ofNat 32 (2 ^ 32 - 1)) slice).run (.create true))
        (.sleep .pingGap 1) := ⟨⟨rfl, rfl⟩, trivial, Queue.noConfusion⟩
    have hsw : (taskSleep ((alone (0 + BitVec.ofNat 32 (2 ^ 32 - 1)) slice).run (.create true)) .pingGap
        1).current = worker := rfl
    have hne := ne_of_eq_of_ne hsw (by decide : worker ≠ shell)
    have hzero : ((alone (0 + BitVec.ofNat 32 (2 ^ 32 - 1)) slice).run (.create true)).now + 1 = 0 := by
      rw [run_now (o := .create true) trivial]
      exact (by decide : (0 : U32) + BitVec.ofNat 32 (2 ^ 32 - 1) + 1 = 0)
    exact ⟨_, hr', ha, hne, not_sleepsFor (good_of_run hr') ha (by decide) (by decide) hne (.inl hzero)⟩
  · have hr : Run Step boot [.create true] (boot.run (.create true)) := .cons ⟨trivial, rfl⟩ (.nil _)
    exact not_sleepsFor (good_of_run hr) (by decide) (by decide) (by decide)
      (by decide) (.inr rfl)

/-!
## Round robin

A READY task is passed over only while the CPU goes round to it: a switch takes the first task behind the current one that can
run, and a time slice ends after ten ticks. Queues do not matter for this.
-/

variable {s'' : State}

def gap (c i : TaskId) : Nat := (i.val + (Proc.maxTasks - 1 - c.val)) % Proc.maxTasks

def rank (s : State) (i : TaskId) : Nat := taskTimeslice * gap s.current i + max 1 (s.tasks s.current).ticks

structure Stays (s u : State) : Prop where
  current : u.current = s.current
  ticks : (u.tasks s.current).ticks ≤ (s.tasks s.current).ticks
  used : (s.tasks s.current).state ≠ .unused → (u.tasks s.current).state ≠ .unused
  ready : ∀ i, s.current ≠ i → (s.tasks i).state = .ready → (u.tasks i).state = .ready

namespace Stays

theorem of_eq (hc : s'.current = s.current) (h : s'.tasks = s.tasks) : Stays s s' := by
  constructor
  · exact hc
  all_goals rw [h]
  · exact fun hu => hu
  · exact fun _ _ hr => hr

theorem refl (s : State) : Stays s s := of_eq rfl rfl

theorem trans (h : Stays s s') (h' : Stays s' s'') : Stays s s'' := by
  have hc := h.current
  have hticks := h'.ticks
  have hused := h'.used
  rw [hc] at hticks hused
  exact ⟨h'.current.trans hc, Nat.le_trans hticks h.ticks, fun hu => hused (h.used hu),
    fun i hi hr => h'.ready i (by rwa [hc]) (h.ready i hi hr)⟩

theorem put {k : Task} (ht : k.ticks ≤ (s.tasks j).ticks) (hu : (s.tasks j).state ≠ .unused → k.state ≠ .unused)
    (hr : s.current ≠ j → (s.tasks j).state = .ready → k.state = .ready) : Stays s (s.put j k) := by
  have htask : ∀ m, (s.put j k).tasks m = if m = j then k else s.tasks m := fun m => Function.update_apply _ _ _ _
  refine ⟨rfl, ?_, fun h => ?_, fun i hi h => ?_⟩ <;> rw [htask] <;> split
  · subst j
    exact ht
  · exact Nat.le_refl _
  · subst j
    exact hu h
  · exact h
  · subst j
    exact hr hi h
  · exact h

theorem other {k : Task} (hj : (s.tasks j).state ≠ .ready) (hc : j ≠ s.current) : Stays s (s.put j k) := by
  refine ⟨rfl, ?_, fun hu => ?_, fun i _ hr => ?_⟩
  · rw [put_ne hc.symm]
  · rwa [put_ne hc.symm]
  · rw [put_ne, hr]
    rintro rfl
    exact hj hr

end Stays

theorem stays_wqRemove (q : Queue) (i : TaskId) : Stays s (wqRemove s q i) := by
  unfold wqRemove
  split
  · exact .refl s
  · rename_i p _
    have hstore : Stays s (s.store q (s.tasks i).waitNext p) := by
      cases p with
      | head => exact .of_eq rfl rfl
      | after j => exact .put (Nat.le_refl _) id fun _ => id
    exact hstore.trans (.put (Nat.le_refl _) id fun _ => id)

theorem stays_expire (i : TaskId) : Stays s (expire s i) := by
  have hready : ∀ u : State, Stays u (u.put i { u.tasks i with wakeTick := 0, state := .ready }) := fun u =>
    .put (Nat.le_refl _) (fun _ => TaskState.noConfusion) fun _ _ => rfl
  unfold expire
  dsimp only
  split
  · exact .refl s
  · split
    · exact (stays_wqRemove _ i).trans (hready _)
    · exact hready s

theorem stays_tick : Stays s (tick s) := by
  have hfold : ∀ (L : List TaskId) (u : State), Stays u (L.foldl expire u) := by
    intro L
    induction L with
    | nil => exact .refl
    | cons i L ih => exact fun u => (stays_expire i).trans (ih _)
  have hnow : Stays s { s with now := s.now + 1 } := .of_eq rfl rfl
  exact hnow.trans (hfold _ _)

theorem wakeChain_keeps (n : Nat) (T : TaskId → Task) (h : Option TaskId) (j : TaskId) :
    (wakeChain T n h j).ticks = (T j).ticks ∧
      ((wakeChain T n h j).state = (T j).state ∨ (wakeChain T n h j).state = .ready) := by
  induction n generalizing T h with
  | zero => exact ⟨rfl, Or.inl rfl⟩
  | succ n ih =>
    cases h with
    | none => exact ⟨rfl, Or.inl rfl⟩
    | some i =>
      obtain ⟨hticks, hstate⟩ := ih (Function.update T i (T i).woken) (T i).waitNext
      rw [wakeChain]
      by_cases hji : j = i
      · subst hji
        rw [Function.update_self] at hticks hstate
        refine ⟨hticks, hstate.elim (fun he => ?_) Or.inr⟩
        rw [he, Task.woken]
        dsimp only
        split
        · exact Or.inr rfl
        · exact Or.inl rfl
      · rw [Function.update_of_ne hji] at hticks hstate
        exact ⟨hticks, hstate⟩

theorem stays_wakeAll (q : Queue) : Stays s (taskWakeAll s q) := by
  have h := wakeChain_keeps (2 * Proc.maxTasks + 1) s.tasks (s.heads q)
  refine ⟨rfl, Nat.le_of_eq (h _).1, fun hu => ?_, fun i _ hr => (h i).2.elim (fun he => he.trans hr) id⟩
  rcases (h s.current).2 with he | he
  · exact fun hz => hu (he.symm.trans hz)
  · exact fun hz => TaskState.noConfusion (he.symm.trans hz)

structure Timed (s : State) : Prop where
  used : (s.tasks s.current).state ≠ .unused
  le : (s.tasks s.current).ticks ≤ taskTimeslice

theorem timed_put {k : Task} (hu : k.state ≠ .unused) (hl : k.ticks ≤ taskTimeslice) : Timed (s.put s.current k) := by
  constructor <;> rw [show (s.put s.current k).current = s.current from rfl, put_self] <;> assumption

theorem schedule_switch (hne : pick s ≠ s.current)
    (h : ¬ ((s.tasks s.current).state = .running ∧ 0 < (s.tasks s.current).ticks - 1)) :
    schedule s = { (s.put s.current (s.tasks s.current).preempt).put (pick s) (s.tasks (pick s)).dispatch with
      current := pick s } := (if_neg h).trans (if_neg hne)

theorem dispatch_ticks (k : Task) : k.dispatch.ticks = taskTimeslice := by
  unfold Task.dispatch
  split <;> rfl

theorem timed_schedule (hu : (s.tasks s.current).state ≠ .unused) (hl : (s.tasks s.current).ticks ≤ taskTimeslice) :
    Timed (schedule s) := by
  by_cases hr : (s.tasks s.current).state = .running ∧ 0 < (s.tasks s.current).ticks - 1
  · have hrun : schedule s = s.put s.current { s.tasks s.current with ticks := (s.tasks s.current).ticks - 1 } := if_pos hr
    rw [hrun]
    exact timed_put hu (Nat.le_trans (Nat.sub_le _ _) hl)
  by_cases hp : pick s = s.current
  · have hrun : schedule s = s.put s.current { s.tasks s.current with ticks := taskTimeslice } :=
      (if_neg hr).trans (if_pos hp)
    rw [hrun]
    exact timed_put hu (Nat.le_refl taskTimeslice)
  · rw [schedule_switch hp hr]
    have hself : ∀ u : State, ((u.put (pick s) (s.tasks (pick s)).dispatch).tasks (pick s)) = (s.tasks (pick s)).dispatch :=
      fun u => put_self
    constructor <;> dsimp only <;> rw [hself]
    · rw [(dispatch_fields _).2.2.1]
      exact TaskState.noConfusion
    · rw [dispatch_ticks]

theorem gap_rotate (c k : TaskId) : gap c (rotate c k) = k.val := by
  have hc := c.isLt
  have hk := k.isLt
  unfold gap rotate Proc.maxTasks at *
  dsimp only
  omega

theorem gap_between {c : TaskId} (h : gap c j < gap c i) : gap j i + gap c j + 1 = gap c i := by
  have hi := i.isLt
  have hj := j.isLt
  have hc := c.isLt
  unfold gap Proc.maxTasks at *
  omega

theorem gap_lt (hne : s.current ≠ i) : gap s.current i < Proc.maxTasks - 1 := by
  have hi := i.isLt
  have hc := s.current.isLt
  have hval : s.current.val ≠ i.val := fun h => hne (Fin.ext h)
  unfold gap Proc.maxTasks at *
  omega

theorem gap_inj {c : TaskId} (h : gap c i = gap c j) : i = j := by
  have hi := i.isLt
  have hj := j.isLt
  have hc := c.isLt
  unfold gap Proc.maxTasks at *
  exact Fin.ext (by omega)

/-- The tasks are looked at in the order of their distance. -/
theorem pick_gap (hrun : (s.tasks i).runnable = true) : (s.tasks (pick s)).runnable = true ∧ gap s.current (pick s) ≤ gap s.current i := by
  have hlt : gap s.current i < Proc.maxTasks := Nat.mod_lt _ (Nat.zero_lt_succ 7)
  have hi : rotate s.current ⟨gap s.current i, hlt⟩ = i := gap_inj (gap_rotate _ _)
  have hmem : i ∈ (List.finRange Proc.maxTasks).map (rotate s.current) :=
    List.mem_map.mpr ⟨⟨gap s.current i, hlt⟩, List.mem_finRange _, hi⟩
  have hsorted : ((List.finRange Proc.maxTasks).map (rotate s.current)).Pairwise fun x y => gap s.current x < gap s.current y := by
    refine List.pairwise_map.mpr ((List.pairwise_lt_finRange Proc.maxTasks).imp fun h => ?_)
    rw [gap_rotate, gap_rotate]
    exact h
  unfold pick
  cases hf : ((List.finRange Proc.maxTasks).map (rotate s.current)).find? fun j => (s.tasks j).runnable with
  | none => exact absurd hrun (List.find?_eq_none.mp hf i hmem)
  | some j =>
    obtain ⟨hj, as, bs, hlist, has⟩ := List.find?_eq_some_iff_append.mp hf
    refine ⟨hj, ?_⟩
    rw [hlist] at hmem hsorted
    rw [Option.getD_some]
    rcases List.mem_append.mp hmem with hin | hin
    · have hno := has i hin
      rw [hrun] at hno
      cases hno
    · rcases List.mem_cons.mp hin with rfl | hin
      · exact Nat.le_refl _
      · have hpair := (List.pairwise_append.mp hsorted).2.1
        exact Nat.le_of_lt (List.rel_of_pairwise_cons hpair hin)

theorem runnable_of_ready (h : (s.tasks i).state = .ready) : (s.tasks i).runnable = true := decide_eq_true (Or.inl h)

/-- A turn of the scheduler that passes a READY task over brings it nearer, by a tick at least. -/
theorem schedule_passed (hready : (s.tasks i).state = .ready) (hne : s.current ≠ i) (hpass : (schedule s).current ≠ i) :
    ((schedule s).tasks i).state = .ready ∧ rank (schedule s) i + 1 ≤ rank s i := by
  by_cases hr : (s.tasks s.current).state = .running ∧ 0 < (s.tasks s.current).ticks - 1
  · have hrun : schedule s = s.put s.current { s.tasks s.current with ticks := (s.tasks s.current).ticks - 1 } := if_pos hr
    have hrank : rank (schedule s) i = taskTimeslice * gap s.current i + max 1 ((s.tasks s.current).ticks - 1) := by
      rw [hrun, rank, show (s.put s.current { s.tasks s.current with ticks := (s.tasks s.current).ticks - 1 }).current =
        s.current from rfl, put_self]
    refine ⟨by rw [hrun, put_ne hne.symm, hready], ?_⟩
    rw [hrank, rank]
    omega
  obtain ⟨hpick, hgap⟩ := pick_gap (runnable_of_ready hready)
  have hsw : pick s ≠ s.current := by
    intro he
    have hlt := gap_lt hne
    have hself : gap s.current s.current = Proc.maxTasks - 1 := by
      have hc := s.current.isLt
      unfold gap Proc.maxTasks at *
      omega
    rw [he, hself] at hgap
    omega
  have hrun := schedule_switch hsw hr
  have hcur : (schedule s).current = pick s := by rw [hrun]
  have hpi : pick s ≠ i := hcur ▸ hpass
  have hlt : gap s.current (pick s) < gap s.current i :=
    Nat.lt_of_le_of_ne hgap fun he => hpi (gap_inj he)
  have hbetween := gap_between hlt
  have htask : ∀ j, (schedule s).tasks j = ((s.put s.current (s.tasks s.current).preempt).put (pick s)
      (s.tasks (pick s)).dispatch).tasks j := fun j => by rw [hrun]
  refine ⟨?_, ?_⟩
  · rw [htask, put_ne hpi.symm, put_ne hne.symm, hready]
  · rw [rank, hcur, htask, put_self, dispatch_ticks, rank, max_eq_right (show 1 ≤ taskTimeslice by decide)]
    have hmul : taskTimeslice * (gap (pick s) i + 1) ≤ taskTimeslice * gap s.current i :=
      Nat.mul_le_mul_left _ (by omega)
    rw [Nat.mul_add, Nat.mul_one] at hmul
    omega

theorem stays_current {k : Task} (ht : k.ticks ≤ (s.tasks s.current).ticks) (hu : k.state ≠ .unused) :
    Stays s (s.put s.current k) := .put ht (fun _ => hu) fun hne => absurd rfl hne

theorem stays_returnRunning : Stays s (returnRunning s) := stays_current (Nat.le_refl _) TaskState.noConfusion

theorem stays_leaveQueue (q : Queue) : Stays s (leaveQueue s q) := by
  unfold leaveQueue
  split
  · exact stays_wqRemove _ _
  · exact .refl s

theorem stays_beforeTick : Stays s (beforeTick s o) := by
  unfold beforeTick
  split
  · split
    · exact (stays_leaveQueue _).trans (.put (Nat.le_refl _) id fun _ => id)
    · exact .refl s
  · exact .refl s

theorem stays_processExit : Stays s (processExit s) := by
  have hexit : Stays s (s.put s.current { s.tasks s.current with state := .zombie }) :=
    stays_current (Nat.le_refl _) TaskState.noConfusion
  unfold processExit
  dsimp only
  split
  · exact hexit.trans ((stays_wakeAll .reap).trans (stays_wakeAll _))
  · exact hexit.trans (stays_wakeAll .reap)

/-- A step leaves the CPU where it is, or ends with `schedule`. -/
theorem step_cases (ht : Timed s) (hs : Step s o s') :
    (o.isTick = false ∧ Stays s s') ∨ ∃ u, Stays s u ∧ Stays (schedule u) s' := by
  obtain ⟨ha, rfl⟩ := hs
  cases o with
  | sleep q timeout =>
    have hasleep : Stays s (s.put s.current (asleep s q timeout)) := stays_current (Nat.le_refl _) TaskState.noConfusion
    refine Or.inr ⟨queued s q timeout, hasleep.trans (.of_eq rfl rfl), ?_⟩
    change Stays _ (taskSleep s q timeout)
    rw [taskSleep_eq]
    split
    · exact .put (Nat.le_refl _) id fun _ => id
    · exact .refl _
  | resume =>
    obtain ⟨q, hp⟩ := ha
    have hrun : s.run .resume = returnRunning (leaveQueue s q) := by simp only [State.run, hp]
    rw [hrun]
    exact Or.inl ⟨rfl, (stays_leaveQueue q).trans stays_returnRunning⟩
  | resumeCut =>
    rw [run_tick ha rfl]
    exact Or.inr ⟨_, stays_beforeTick.trans stays_tick, .refl _⟩
  | finish => exact Or.inl ⟨rfl, stays_returnRunning⟩
  | timer => exact Or.inr ⟨_, stays_tick, .refl _⟩
  | yield =>
    have hu : Stays s (s.put s.current { s.tasks s.current with ticks := 0 }) := stays_current (Nat.zero_le _) ht.used
    exact Or.inr ⟨_, hu, .refl _⟩
  | wakeAll q => exact Or.inl ⟨rfl, stays_wakeAll q⟩
  | create isUser =>
    refine Or.inl ⟨rfl, ?_⟩
    cases hf : freeSlot s with
    | none =>
      have hrun : s.run (.create isUser) = s := by simp only [State.run, hf]
      rw [hrun]
      exact .refl s
    | some j =>
      have hunused := freeSlot_unused hf
      have hrun : s.run (.create isUser) = s.put j (newTask isUser) := by simp only [State.run, hf]
      rw [hrun]
      refine .other ?_ ?_
      · rw [hunused]
        exact TaskState.noConfusion
      · rintro rfl
        exact ht.used hunused
  | taskExit =>
    have hexit : Stays s (s.put s.current { s.tasks s.current with state := .zombie }) :=
      stays_current (Nat.le_refl _) TaskState.noConfusion
    generalize hv : s.put s.current { s.tasks s.current with state := .zombie } = v at hexit
    have hz : (v.tasks v.current).state ≠ .unused := by
      rw [hexit.current]
      exact hexit.used ht.used
    have hu : Stays v (v.put v.current { v.tasks v.current with ticks := 0 }) := stays_current (Nat.zero_le _) hz
    refine Or.inr ⟨_, hexit.trans hu, ?_⟩
    rw [← hv]
    exact .refl _
  | processExit => exact Or.inl ⟨rfl, stays_processExit⟩
  | giveUp => exact Or.inr ⟨s, .refl s, .refl _⟩
  | collect z =>
    obtain ⟨⟨hrun, -⟩, hz⟩ := ha
    refine Or.inl ⟨rfl, .other ?_ ?_⟩
    · rw [hz]
      exact TaskState.noConfusion
    · rintro rfl
      rw [hz] at hrun
      cases hrun
  | reapZombies =>
    have hticks : ∀ j, ((s.run .reapZombies).tasks j).ticks = (s.tasks j).ticks := fun j => by
      change (s.tasks j).reaped.ticks = _
      unfold Task.reaped
      split <;> rfl
    have hstate : ∀ j, (s.tasks j).state ≠ .zombie → ((s.run .reapZombies).tasks j).state = (s.tasks j).state :=
      fun j hj => congrArg Task.state (if_neg fun hz => hj hz.1)
    refine Or.inl ⟨rfl, rfl, Nat.le_of_eq (hticks _), fun hu => ?_, fun i _ hi => ?_⟩
    · rwa [hstate _ ha]
    · rw [hstate i (by rw [hi]; exact TaskState.noConfusion), hi]
  | makePipe p => exact Or.inl ⟨rfl, .of_eq rfl rfl⟩
  | freePipe p => exact Or.inl ⟨rfl, (stays_wakeAll (.pipe p)).trans (.of_eq rfl rfl)⟩

theorem timed_step (ht : Timed s) (hs : Step s o s') : Timed s' := by
  rcases step_cases ht hs with ⟨-, h⟩ | ⟨u, h, h'⟩
  · constructor <;> rw [h.current]
    · exact h.used ht.used
    · exact Nat.le_trans h.ticks ht.le
  · have hc := h.current
    have hu : Timed (schedule u) := by
      refine timed_schedule ?_ ?_ <;> rw [hc]
      · exact h.used ht.used
      · exact Nat.le_trans h.ticks ht.le
    constructor <;> rw [h'.current]
    · exact h'.used hu.used
    · exact Nat.le_trans h'.ticks hu.le

def PassedStep (i : TaskId) (s : State) (o : Op) (s' : State) : Prop := Step s o s' ∧ s'.current ≠ i

theorem rank_le (h : Stays s s') : rank s' i ≤ rank s i := by
  unfold rank
  rw [h.current]
  have hticks := h.ticks
  omega

theorem passed_step (ht : Timed s) (hready : (s.tasks i).state = .ready) (hne : s.current ≠ i)
    (hs : PassedStep i s o s') :
    (s'.tasks i).state = .ready ∧ rank s' i + (if o.isTick then 1 else 0) ≤ rank s i := by
  rcases step_cases ht hs.1 with ⟨htick, h⟩ | ⟨u, h, h'⟩
  · rw [htick]
    exact ⟨h.ready i hne hready, rank_le h⟩
  · have hcur : (schedule u).current ≠ i := h'.current ▸ hs.2
    have hu : u.current ≠ i := h.current.symm ▸ hne
    obtain ⟨hpassed, hrank⟩ := schedule_passed (h.ready i hne hready) hu hcur
    refine ⟨h'.ready i hcur hpassed, ?_⟩
    have hbefore : rank u i ≤ rank s i := rank_le h
    have hafter : rank s' i ≤ rank (schedule u) i := rank_le h'
    split <;> omega

theorem passed_run (hr : Run (PassedStep i) s ops t) (ht : Timed s) (hready : (s.tasks i).state = .ready)
    (hne : s.current ≠ i) : (t.tasks i).state = .ready ∧ rank t i + ticks ops ≤ rank s i := by
  induction hr with
  | nil s => exact ⟨hready, Nat.le_refl _⟩
  | @cons s u t o ops hs _ ih =>
    obtain ⟨hu, hstep⟩ := passed_step ht hready hne hs
    obtain ⟨hend, hrest⟩ := ih (timed_step ht hs.1) hu hs.2
    refine ⟨hend, ?_⟩
    rw [ticks, List.countP_cons]
    unfold ticks at hrest
    omega

/-- No task starves: in any order of steps a READY task stays READY until it gets the CPU, and this takes at most a slice for
each task that is looked at before it, and one more. -/
theorem ready_task_runs {before : List Op} (hb : Run Step boot before s) (hready : (s.tasks i).state = .ready)
    (hne : s.current ≠ i) (hr : Run (PassedStep i) s ops t) :
    (t.tasks i).state = .ready ∧ ticks ops < taskTimeslice * (gap s.current i + 1) ∧ gap s.current i + 1 < Proc.maxTasks := by
  have hboot : Timed boot := ⟨by decide, by decide⟩
  have ht : Timed s := hb.invariant (fun hI hs => timed_step hI hs) hboot
  obtain ⟨hend, hrank⟩ := passed_run hr ht hready hne
  refine ⟨hend, ?_, ?_⟩
  · have hle := ht.le
    unfold rank taskTimeslice at *
    omega
  · have hlt := gap_lt hne
    unfold Proc.maxTasks at *
    omega

theorem ready_task_runs_worker :
    (((boot.run (.create true)).run .timer).tasks worker).state = .ready ∧ 1 < taskTimeslice * (gap shell worker + 1) := by
  have hplays : Plays Allowed State.run boot [.create true] := by decide
  have hpassed : Plays (fun s o => Allowed s o ∧ (s.run o).current ≠ worker) State.run (boot.run (.create true)) [.timer] := by
    decide
  obtain ⟨hready, hticks, -⟩ := ready_task_runs (Run.of_plays (fun _ _ ha => ⟨ha, rfl⟩) hplays) (by decide) (by decide)
    (Run.of_plays (fun s o (h : Allowed s o ∧ (s.run o).current ≠ worker) =>
      (⟨⟨h.1, rfl⟩, h.2⟩ : PassedStep worker s o (s.run o))) hpassed)
  exact ⟨hready, hticks⟩

end Ezos.Sched
