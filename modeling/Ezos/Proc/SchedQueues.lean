import Ezos.Proc.PipeFifo
import Ezos.Proc.Sched

/-!
# The wait queues

A task is BLOCKED just while it is on a queue, and then it stands in the `task_sleep` for that queue.
Two things break this: the queue of the `sleep` command starts with a head that names task 0, and in
the tail of `task_sleep` the interrupts are on while the task, already off the queue, is still BLOCKED.
-/

namespace Ezos.Sched

open Lib Lib.Intrusive

set_option autoImplicit false

variable {s s' : State} {q : Queue} {i : TaskId} {k : Task}

def Task.sleepsOn (k : Task) (q : Queue) : Prop :=
  k.pos = .inSleep q ∨ k.pos = .halted q ∨ k.pos = .tailing q

structure WaitQueues (s : State) (Q : Queue → Prop) : Prop where
  /-- A chain ends, repeats no task, and holds the tasks whose `wait_q` is the queue. -/
  chain : ∀ q, Q q → ∃ L, Linked s.links (s.heads q) L ∧ L.Nodup ∧ ∀ i, i ∈ L ↔ s.waits i = some q
  one : ∀ q q' L L' i, Q q → Q q' → Linked s.links (s.heads q) L → Linked s.links (s.heads q') L' →
    i ∈ L → i ∈ L' → q = q'
  /-- A task that waits without a deadline is on the queue that it sleeps on. -/
  blocked : ∀ i, (s.tasks i).state = .blocked → (s.tasks i).wakeTick = 0 →
    ∃ q L, Q q ∧ (s.tasks i).sleepsOn q ∧ Linked s.links (s.heads q) L ∧ i ∈ L
  woken : ∀ q, Q q → ∀ i, (s.tasks i).sleepsOn q → ((taskWakeAll s q).tasks i).state ≠ .blocked

def Proper (s : State) (q : Queue) : Prop := InUse s q ∧ q ≠ .sleepCmd

/-- Nobody sleeps on the queue of the `sleep` command, and the timer does not switch in the tail of a
`task_sleep` that an unrelated interrupt has ended. -/
def Clean (s : State) : Op → Prop
  | .sleep q _ => q ≠ .sleepCmd
  | .resumeCut => (s.tasks s.current).state ≠ .blocked
  | _ => True

instance (s : State) : (o : Op) → Decidable (Clean s o)
  | .sleep _ _ | .resumeCut => inferInstanceAs (Decidable (_ ≠ _))
  | .resume | .finish | .timer | .yield | .wakeAll _ | .create _ | .taskExit | .processExit | .giveUp
  | .collect _ | .reapZombies | .makePipe _ | .freePipe _ => inferInstanceAs (Decidable True)

def CleanStep (s : State) (o : Op) (s' : State) : Prop := Step s o s' ∧ Clean s o

/-- The steps that stay allowed when a cut of the tail (`O`) or the queue of the `sleep` command (`C`) is. -/
def CleanFor (O C : Prop) (s : State) : Op → Prop
  | .sleep q _ => q = .sleepCmd → C
  | .resumeCut => (s.tasks s.current).state = .blocked → O
  | _ => True

theorem cleanFor_of_clean {o : Op} (h : Clean s o) : CleanFor False False s o := by
  cases o with
  | sleep q timeout => exact fun he => h he
  | resumeCut => exact fun he => h he
  | _ => trivial

structure Task.Ok (P : Queue → Prop) (O : Prop) (k : Task) : Prop where
  off : k.waitQ = none → k.state = .blocked → O ∧ ∃ q, k.pos = .tailing q
  on : ∀ q, k.waitQ = some q → P q ∧ k.state = .blocked ∧ (k.pos = .inSleep q ∨ k.pos = .halted q)

variable {P : Queue → Prop} {O C : Prop}

theorem Task.Ok.waitQ_of_state (h : k.Ok P O) (hk : k.state ≠ .blocked) : k.waitQ = none := by
  cases hw : k.waitQ with
  | none => rfl
  | some q => exact absurd (h.on q hw).2.1 hk

theorem ok_off (hw : k.waitQ = none) (hk : k.state ≠ .blocked) : k.Ok P O where
  off _ hb := absurd hb hk
  on q hq := by
    rw [hw] at hq
    cases hq

theorem Task.Ok.mono {P' : Queue → Prop} (h : k.Ok P O) (hP : ∀ q, k.waitQ = some q → P q → P' q) :
    k.Ok P' O :=
  ⟨h.off, fun q hq => ⟨hP q hq (h.on q hq).1, (h.on q hq).2⟩⟩

theorem Task.Ok.congr {k' : Task} (h : k.Ok P O) (hw : k'.waitQ = k.waitQ)
    (hs : k'.state = .blocked ↔ k.state = .blocked) (hp : k'.pos = k.pos) : k'.Ok P O where
  off hn hb := by
    rw [hp]
    exact h.off (hw.symm.trans hn) (hs.mp hb)
  on q hq := by
    rw [hs, hp]
    exact h.on q (hw.symm.trans hq)

def Rests (C : Prop) (s : State) (i : TaskId) (q : Queue) : Prop :=
  InUse s q ∧ (q = .sleepCmd → C ∧ i = shell)

/-- The invariant, but for the current task. The head of the queue of the `sleep` command always names
the shell, which is its own successor there. -/
structure Wires (O C : Prop) (s : State) : Prop where
  wired : Wired s.links s.waits s.heads (Proper s)
  tasks : ∀ i, (s.tasks i).Ok (Rests C s i) O
  cmd : s.heads .sleepCmd = some shell
  loop : s.waits shell = some .sleepCmd → s.links shell = some shell

structure Good (O C : Prop) (s : State) : Prop where
  wires : Wires O C s
  /-- The current task is not in the middle of `task_sleep`. -/
  current : ∀ q, (s.tasks s.current).pos ≠ .inSleep q

@[simp] theorem put_current : (s.put i k).current = s.current := rfl
@[simp] theorem put_heads : (s.put i k).heads = s.heads := rfl
@[simp] theorem put_self : (s.put i k).tasks i = k := Function.update_self _ _ _

theorem put_ne {j : TaskId} (h : j ≠ i) : (s.put i k).tasks j = s.tasks j := Function.update_of_ne h _ _

theorem links_put : (s.put i k).links = Function.update s.links i k.waitNext := by
  funext j
  by_cases hj : j = i
  · subst hj
    rw [State.links, put_self, Function.update_self]
  · rw [State.links, put_ne hj, Function.update_of_ne hj, State.links]

theorem waits_put : (s.put i k).waits = Function.update s.waits i k.waitQ := by
  funext j
  by_cases hj : j = i
  · subst hj
    rw [State.waits, put_self, Function.update_self]
  · rw [State.waits, put_ne hj, Function.update_of_ne hj, State.waits]

theorem ok_put {P : TaskId → Queue → Prop} (h : ∀ j, (s.tasks j).Ok (P j) O) (hk : k.Ok (P i) O)
    (j : TaskId) : ((s.put i k).tasks j).Ok (P j) O := by
  by_cases hj : j = i
  · subst hj
    rwa [put_self]
  · rw [put_ne hj]
    exact h j

theorem Wires.put (h : Wires O C s) (hw : k.waitQ = (s.tasks i).waitQ)
    (hn : (s.tasks i).waitQ ≠ none → k.waitNext = (s.tasks i).waitNext) (hk : k.Ok (Rests C s i) O) :
    Wires O C (s.put i k) := by
  have hwaits : (s.put i k).waits = s.waits := by
    rw [waits_put, hw]
    exact Function.update_eq_self i s.waits
  have hlinks : ∀ j, s.waits j ≠ none → (s.put i k).links j = s.links j := by
    intro j hj
    rw [links_put]
    by_cases hji : j = i
    · subst hji
      rw [Function.update_self]
      exact hn hj
    · exact Function.update_of_ne hji _ _
  refine ⟨?_, ok_put h.tasks hk, h.cmd, fun hsh => ?_⟩
  · rw [hwaits]
    exact h.wired.congr hlinks
  · rw [hwaits] at hsh
    rw [hlinks shell (by rw [hsh]; exact Option.some_ne_none _)]
    exact h.loop hsh

theorem Wires.push (h : Wires O C s) (hi : (s.tasks i).waitQ = none) (hw : k.waitQ = some q)
    (hn : k.waitNext = s.heads q) (hk : k.Ok (Rests C s i) O) :
    Wires O C { s with
      tasks := Function.update s.tasks i k
      heads := Function.update s.heads q (some i) } := by
  have hl : (s.put i k).links = Function.update s.links i (s.heads q) := by rw [links_put, hn]
  have ho : (s.put i k).waits = Function.update s.waits i (some q) := by rw [waits_put, hw]
  refine ⟨?_, ok_put h.tasks hk, ?_, fun hsh => ?_⟩
  · have hp := Wired.push (q := q) h.wired hi
    rwa [← hl, ← ho] at hp
  · dsimp only
    by_cases hq : q = .sleepCmd
    · subst hq
      rw [Function.update_self, ((hk.on _ hw).1.2 rfl).2]
    · rw [Function.update_of_ne (Ne.symm hq)]
      exact h.cmd
  · have hsh' : (s.put i k).waits shell = some .sleepCmd := hsh
    refine (congrFun hl shell).trans ?_
    rw [ho] at hsh'
    by_cases hi' : shell = i
    · subst hi'
      rw [Function.update_self] at hsh' ⊢
      rw [Option.some.inj hsh']
      exact h.cmd
    · rw [Function.update_of_ne hi'] at hsh' ⊢
      exact h.loop hsh'

/-! ## Off a queue -/

theorem links_store {v : Option TaskId} (p : Place TaskId) :
    (s.store q v p).links = match p with
      | .head => s.links
      | .after j => Function.update s.links j v := by
  cases p with
  | head => rfl
  | after j => exact links_put

theorem waits_store {v : Option TaskId} (p : Place TaskId) : (s.store q v p).waits = s.waits := by
  cases p with
  | head => rfl
  | after j => exact waits_put.trans (Function.update_eq_self j s.waits)

theorem store_task {v : Option TaskId} (p : Place TaskId) (j : TaskId) :
    ∃ w, (s.store q v p).tasks j = { s.tasks j with waitNext := w } := by
  cases p with
  | head => exact ⟨(s.tasks j).waitNext, rfl⟩
  | after l =>
    by_cases hj : j = l
    · subst hj
      exact ⟨v, put_self⟩
    · exact ⟨(s.tasks j).waitNext, put_ne hj⟩

structure Removed (s : State) (q : Queue) (i : TaskId) (s' : State) : Prop where
  wired : Wired s'.links s'.waits s'.heads (Proper s)
  cmd : s'.heads .sleepCmd = some shell
  loop : s'.waits shell = some .sleepCmd → s'.links shell = some shell
  self : s'.tasks i = { s.tasks i with waitNext := none, waitQ := none }
  others : ∀ j, j ≠ i → ∃ w, s'.tasks j = { s.tasks j with waitNext := w }
  current : s'.current = s.current
  pipeUsed : s'.pipeUsed = s.pipeUsed

/-- A task that waits has a place on its queue; on the queue of the `sleep` command that is the head,
which goes on to name it. -/
theorem Wires.place (h : Wires O C s) (hi : (s.tasks i).waitQ = some q) :
    ∃ p, seek s.links (s.heads q) i (Proc.maxTasks + 1) .head = some p ∧
      (∀ j, s.waits j ≠ some q → (unlink s.links (s.heads q) i p).1 j = s.links j) ∧
      Wired (unlink s.links (s.heads q) i p).1 (Function.update s.waits i none)
        (Function.update s.heads q (unlink s.links (s.heads q) i p).2) (Proper s) ∧
      (q = .sleepCmd → (unlink s.links (s.heads q) i p).2 = some shell) := by
  obtain ⟨huse, hshell⟩ := ((h.tasks i).on q hi).1
  by_cases hq : q = .sleepCmd
  · subst hq
    obtain ⟨-, rfl⟩ := hshell rfl
    refine ⟨.head, ?_, fun j hj => Function.update_of_ne ?_ _ _, ?_, fun _ => h.loop hi⟩
    · simp [seek, load, h.cmd]
    · rintro rfl
      exact hj hi
    · exact h.wired.leave (fun hp => hp.2 rfl) hi
  · obtain ⟨p, hseek, hlinks, hw⟩ := h.wired.remove (n := Proc.maxTasks + 1) ⟨huse, hq⟩ hi
      (by rw [Fintype.card_fin]; exact Nat.lt_succ_self _)
    exact ⟨p, hseek, hlinks, hw, fun he => absurd he hq⟩

theorem removed_of_wires (h : Wires O C s) (hi : (s.tasks i).waitQ = some q) :
    Removed s q i (wqRemove s q i) := by
  obtain ⟨p, hseek, hothers, hw, hcmd⟩ := h.place hi
  have hrun : wqRemove s q i = (s.store q (s.tasks i).waitNext p).put i
      { (s.store q (s.tasks i).waitNext p).tasks i with waitNext := none, waitQ := none } := by
    simp only [wqRemove, hseek]
  have hlinks : (wqRemove s q i).links = (unlink s.links (s.heads q) i p).1 := by
    rw [hrun, links_put, links_store]
    cases p <;> rfl
  have hheads : (wqRemove s q i).heads =
      Function.update s.heads q (unlink s.links (s.heads q) i p).2 := by
    rw [hrun, put_heads]
    cases p with
    | head => rfl
    | after j => exact (Function.update_eq_self q s.heads).symm
  have hwaits : (wqRemove s q i).waits = Function.update s.waits i none := by
    rw [hrun, waits_put, waits_store]
  refine ⟨?_, ?_, fun hsh => ?_, ?_, fun j hj => ?_, ?_, ?_⟩
  · rw [hlinks, hheads, hwaits]
    exact hw
  · rw [hheads]
    by_cases hq : q = .sleepCmd
    · rw [hq, Function.update_self, ← hq]
      exact hcmd hq
    · rw [Function.update_of_ne (Ne.symm hq)]
      exact h.cmd
  · rw [hwaits] at hsh
    by_cases his : shell = i
    · rw [his, Function.update_self] at hsh
      cases hsh
    · rw [Function.update_of_ne his] at hsh
      rw [hlinks, hothers shell ?_]
      · exact h.loop hsh
      · rw [hsh]
        intro he
        exact his (((h.tasks i).on q hi).1.2 (Option.some.inj he).symm).2.symm
  · obtain ⟨w, hself⟩ := store_task (s := s) (q := q) (v := (s.tasks i).waitNext) p i
    rw [hrun, put_self, hself]
  · rw [hrun, put_ne hj]
    exact store_task p j
  · rw [hrun]
    cases p <;> rfl
  · rw [hrun]
    cases p <;> rfl

theorem InUse.congr (hu : s'.pipeUsed = s.pipeUsed) (h : InUse s q) : InUse s' q := by
  cases q with
  | pipe p =>
    rw [InUse, hu]
    exact h
  | _ => trivial

theorem inUse_eq (hu : s'.pipeUsed = s.pipeUsed) : InUse s' = InUse s := by
  funext q
  exact propext ⟨InUse.congr hu.symm, InUse.congr hu⟩

theorem proper_eq (hu : s'.pipeUsed = s.pipeUsed) : Proper s' = Proper s := by
  funext q
  rw [Proper, Proper, inUse_eq hu]

theorem rests_eq (hu : s'.pipeUsed = s.pipeUsed) (i : TaskId) : Rests C s' i = Rests C s i := by
  funext q
  rw [Rests, Rests, inUse_eq hu]

theorem Removed.put (hr : Removed s q i s') (h : Wires O C s) (hw : k.waitQ = none)
    (hk : k.state = .blocked → O ∧ ∃ r, k.pos = .tailing r) : Wires O C (s'.put i k) := by
  have hwaits : (s'.put i k).waits = s'.waits := by
    have hself : k.waitQ = s'.waits i := by rw [hw, State.waits, hr.self]
    rw [waits_put, hself]
    exact Function.update_eq_self i s'.waits
  have hlinks : ∀ j, s'.waits j ≠ none → (s'.put i k).links j = s'.links j := by
    intro j hj
    rw [links_put]
    refine Function.update_of_ne ?_ _ _
    rintro rfl
    rw [State.waits, hr.self] at hj
    exact hj rfl
  refine ⟨?_, fun j => ?_, hr.cmd, fun hsh => ?_⟩
  · have hprop : Proper (s'.put i k) = Proper s := proper_eq hr.pipeUsed
    rw [hwaits, hprop]
    exact hr.wired.congr hlinks
  · have hrest : Rests C (s'.put i k) j = Rests C s j := rests_eq hr.pipeUsed j
    rw [hrest]
    by_cases hj : j = i
    · subst hj
      rw [put_self]
      refine ⟨fun _ hb => hk hb, fun r hr => ?_⟩
      rw [hw] at hr
      cases hr
    · obtain ⟨w, he⟩ := hr.others j hj
      rw [put_ne hj, he]
      exact (h.tasks j).congr rfl Iff.rfl rfl
  · rw [hwaits] at hsh
    rw [hlinks shell (by rw [hsh]; exact Option.some_ne_none _)]
    exact hr.loop hsh

theorem wakeChain_apply {T : TaskId → Task} {L : List TaskId} {n : Nat} {h : Option TaskId}
    (hL : Linked (fun i => (T i).waitNext) h L) (hnd : L.Nodup) (hn : L.length < n) (j : TaskId) :
    wakeChain T n h j = if j ∈ L then (T j).woken else T j := by
  induction L generalizing T n h with
  | nil =>
    cases n with
    | zero => exact absurd hn (Nat.not_lt_zero _)
    | succ n =>
      have hnil : h = none := hL
      rw [hnil, wakeChain, if_neg List.not_mem_nil]
  | cons i L ih =>
    cases n with
    | zero => exact absurd hn (Nat.not_lt_zero _)
    | succ n =>
      obtain ⟨hi, hnd⟩ := List.nodup_cons.mp hnd
      have hrest : Linked (fun j => (Function.update T i (T i).woken j).waitNext) (T i).waitNext L := by
        refine linked_congr (fun j hj => ?_) hL.2
        rw [Function.update_of_ne (ne_of_mem_of_not_mem hj hi)]
      rw [hL.1, wakeChain, ih hrest hnd (Nat.lt_of_succ_lt_succ hn)]
      by_cases hj : j = i
      · subst hj
        rw [if_neg hi, if_pos List.mem_cons_self, Function.update_self]
      · rw [Function.update_of_ne hj]
        simp only [List.mem_cons, hj, false_or]

theorem wakeAll_task (h : Wires O C s) (hq : Proper s q) (j : TaskId) :
    (taskWakeAll s q).tasks j = if (s.tasks j).waitQ = some q then (s.tasks j).woken else s.tasks j := by
  obtain ⟨L, hL, hnd, hmem⟩ := h.wired q hq
  have hlen : L.length < 2 * Proc.maxTasks + 1 := by
    have hcard := hnd.length_le_card
    rw [Fintype.card_fin] at hcard
    omega
  have ha := wakeChain_apply hL hnd hlen j
  have hj : j ∈ L ↔ (s.tasks j).waitQ = some q := hmem j
  simp only [hj] at ha
  exact ha

theorem Wires.wakeAll (h : Wires O C s) (hq : Proper s q) : Wires O C (taskWakeAll s q) := by
  have hon : ∀ i, (taskWakeAll s q).waits i = if s.waits i = some q then none else s.waits i := by
    intro i
    rw [State.waits, wakeAll_task h hq]
    by_cases hi : (s.tasks i).waitQ = some q
    · rw [if_pos hi]
      exact (if_pos hi).symm
    · rw [if_neg hi]
      exact (if_neg hi).symm
  have hlinks : ∀ i, s.waits i ≠ some q → (taskWakeAll s q).links i = s.links i := by
    intro i hi
    have hi' : (s.tasks i).waitQ ≠ some q := hi
    rw [State.links, wakeAll_task h hq, if_neg hi', State.links]
  refine ⟨h.wired.clear hon hlinks, fun j => ?_, ?_, fun hsh => ?_⟩
  · have hrest : Rests C (taskWakeAll s q) j = Rests C s j := rests_eq rfl j
    rw [wakeAll_task h hq, hrest]
    split
    · refine ok_off rfl ?_
      simp only [Task.woken]
      split
      · exact TaskState.noConfusion
      · assumption
    · exact h.tasks j
  · exact (Function.update_of_ne (Ne.symm hq.2) _ _).trans h.cmd
  · rw [hon] at hsh
    split at hsh
    · cases hsh
    · rename_i hne
      rw [hlinks shell hne]
      exact h.loop hsh

theorem wakeAll_pos (h : Wires O C s) (hq : Proper s q) (j : TaskId) :
    ((taskWakeAll s q).tasks j).pos = (s.tasks j).pos := by
  rw [wakeAll_task h hq]
  split <;> rfl

theorem Good.wakeAll (h : Good O C s) (hq : Proper s q) : Good O C (taskWakeAll s q) where
  wires := h.wires.wakeAll hq
  current r := by
    rw [wakeAll_pos h.wires hq]
    exact h.current r

theorem expire_cases (h : Wires O C s) (i : TaskId) :
    expire s i = s ∨
      (s.tasks i).waitQ = none ∧
        expire s i = s.put i { s.tasks i with wakeTick := 0, state := .ready } ∨
      ∃ q k, (s.tasks i).waitQ = some q ∧ k.waitQ = none ∧ k.state = .ready ∧
        k.pos = (s.tasks i).pos ∧ expire s i = (wqRemove s q i).put i k := by
  by_cases hc : (s.tasks i).state ≠ .blocked ∨ (s.tasks i).wakeTick = 0 ∨ due s (s.tasks i) = false
  · exact .inl (if_pos hc)
  · cases hq : (s.tasks i).waitQ with
    | none =>
      refine .inr (.inl ⟨rfl, (if_neg hc).trans ?_⟩)
      simp only [hq]
    | some q =>
      have hself := (removed_of_wires h hq).self
      refine .inr (.inr ⟨q, { (wqRemove s q i).tasks i with wakeTick := 0, state := .ready }, rfl, ?_,
        rfl, ?_, ?_⟩)
      · rw [hself]
      · rw [hself]
      · refine (if_neg hc).trans ?_
        simp only [hq]

theorem Good.put_off (h : Good O C s) (hi : (s.tasks i).waitQ = none) (hw : k.waitQ = none)
    (hs : k.state ≠ .blocked) (hp : i = s.current → ∀ q, k.pos ≠ .inSleep q) : Good O C (s.put i k) where
  wires := h.wires.put (hw.trans hi.symm) (fun hne => absurd hi hne) (ok_off hw hs)
  current q := by
    rw [put_current]
    by_cases hc : s.current = i
    · rw [hc, put_self]
      exact hp hc.symm q
    · rw [put_ne hc]
      exact h.current q

theorem Good.expire (h : Good O C s) (i : TaskId) : Good O C (expire s i) := by
  rcases expire_cases h.wires i with he | ⟨hq, he⟩ | ⟨q, k, hq, hw, hk, hp, he⟩
  · rwa [he]
  · rw [he]
    refine h.put_off hq hq TaskState.noConfusion fun hc => ?_
    rw [hc]
    exact h.current
  · have hr := removed_of_wires h.wires hq
    rw [he]
    refine ⟨hr.put h.wires hw fun hb => ?_, fun r => ?_⟩
    · rw [hk] at hb
      cases hb
    rw [put_current, hr.current]
    by_cases hc : s.current = i
    · rw [← hc] at hp ⊢
      rw [put_self, hp]
      exact h.current r
    · obtain ⟨w, ho⟩ := hr.others s.current hc
      rw [put_ne hc, ho]
      exact h.current r

theorem Good.foldl_expire (h : Good O C s) (L : List TaskId) : Good O C (L.foldl Sched.expire s) := by
  induction L generalizing s with
  | nil => exact h
  | cons i L ih => exact ih (h.expire i)

theorem Good.timerTick (h : Good O C s) : Good O C (taskTimerTick s) := h.foldl_expire _

theorem Good.congr_now (h : Good O C s) (now : U32) : Good O C { s with now := now } :=
  ⟨⟨h.wires.wired, h.wires.tasks, h.wires.cmd, h.wires.loop⟩, h.current⟩

theorem pick_runnable (h : pick s ≠ s.current) : (s.tasks (pick s)).runnable = true := by
  unfold pick at h ⊢
  cases hf : ((List.finRange Proc.maxTasks).map (rotate s.current)).find?
      fun i => (s.tasks i).runnable with
  | none =>
    rw [hf] at h
    exact absurd rfl h
  | some i =>
    have hi := List.find?_some hf
    exact hi

theorem schedule_cases (s : State) :
    (∃ n, schedule s = s.put s.current { s.tasks s.current with ticks := n }) ∨
    (pick s ≠ s.current ∧ (s.tasks (pick s)).runnable = true ∧
      schedule s = { (s.put s.current (s.tasks s.current).preempt).put (pick s)
        (s.tasks (pick s)).dispatch with current := pick s }) := by
  by_cases hr : (s.tasks s.current).state = .running ∧ 0 < (s.tasks s.current).ticks - 1
  · exact .inl ⟨(s.tasks s.current).ticks - 1, if_pos hr⟩
  · by_cases hp : pick s = s.current
    · exact .inl ⟨taskTimeslice, (if_neg hr).trans (if_pos hp)⟩
    · exact .inr ⟨hp, pick_runnable hp, (if_neg hr).trans (if_neg hp)⟩

theorem runnable_not_blocked (h : k.runnable = true) : k.state ≠ .blocked := by
  intro hb
  rcases of_decide_eq_true h with hs | hs
  · rw [hb] at hs
    cases hs
  · rw [hb] at hs
    cases hs

theorem dispatch_fields (k : Task) :
    k.dispatch.waitNext = k.waitNext ∧ k.dispatch.waitQ = k.waitQ ∧ k.dispatch.state = .running ∧
      ∀ q, k.dispatch.pos ≠ .inSleep q := by
  unfold Task.dispatch
  split
  · exact ⟨rfl, rfl, rfl, fun _ => Pos.noConfusion⟩
  · rename_i hpos
    exact ⟨rfl, rfl, rfl, hpos⟩

theorem preempt_blocked (k : Task) : k.preempt.state = .blocked ↔ k.state = .blocked := by
  unfold Task.preempt
  dsimp only
  split
  · rename_i hr
    rw [hr]
    exact iff_of_false TaskState.noConfusion TaskState.noConfusion
  · rfl

theorem Wires.rewrite (h : Wires O C s) (hw : k.waitQ = (s.tasks i).waitQ)
    (hn : k.waitNext = (s.tasks i).waitNext) (hs : k.state = .blocked ↔ (s.tasks i).state = .blocked)
    (hp : k.pos = (s.tasks i).pos) : Wires O C (s.put i k) :=
  h.put hw (fun _ => hn) ((h.tasks i).congr hw hs hp)

theorem Wires.switch (h : Wires O C s) (hne : pick s ≠ s.current)
    (hr : (s.tasks (pick s)).runnable = true) :
    Wires O C { (s.put s.current (s.tasks s.current).preempt).put (pick s)
      (s.tasks (pick s)).dispatch with current := pick s } := by
  have h₁ : Wires O C (s.put s.current (s.tasks s.current).preempt) :=
    h.rewrite rfl rfl (preempt_blocked _) rfl
  have hnb := runnable_not_blocked hr
  have hoff := (h.tasks (pick s)).waitQ_of_state hnb
  obtain ⟨hn, hw, hs, -⟩ := dispatch_fields (s.tasks (pick s))
  have h₂ : Wires O C ((s.put s.current (s.tasks s.current).preempt).put (pick s)
      (s.tasks (pick s)).dispatch) := by
    refine h₁.put ?_ (fun _ => ?_) (ok_off (hw.trans hoff) ?_)
    · rw [put_ne hne, hw]
    · rw [put_ne hne, hn]
    · rw [hs]
      exact TaskState.noConfusion
  exact ⟨h₂.wired, h₂.tasks, h₂.cmd, h₂.loop⟩

theorem Good.schedule (h : Good O C s) : Good O C (schedule s) := by
  rcases schedule_cases s with ⟨n, he⟩ | ⟨hne, hr, he⟩
  · rw [he]
    refine ⟨h.wires.rewrite rfl rfl Iff.rfl rfl, fun q => ?_⟩
    rw [put_current, put_self]
    exact h.current q
  · rw [he]
    refine ⟨h.wires.switch hne hr, fun q => ?_⟩
    simp only [put_self]
    exact (dispatch_fields _).2.2.2 q

theorem Good.irq0 (h : Good O C s) : Good O C (irq0 s) := ((h.congr_now (s.now + 1)).timerTick).schedule

/-- The current task as `task_sleep` leaves it to `schedule`. -/
def asleep (s : State) (q : Queue) (timeout : U32) : Task :=
  { s.tasks s.current with
    wakeTick := if timeout ≠ 0 then s.now + timeout else 0
    state := .blocked
    pos := .inSleep q
    waitNext := s.heads q
    waitQ := some q }

def queued (s : State) (q : Queue) (timeout : U32) : State :=
  { s with
    tasks := Function.update s.tasks s.current (asleep s q timeout)
    heads := Function.update s.heads q (some s.current) }

theorem taskSleep_eq (s : State) (q : Queue) (timeout : U32) :
    taskSleep s q timeout =
      if (schedule (queued s q timeout)).current = s.current then
        (schedule (queued s q timeout)).put s.current
          { (schedule (queued s q timeout)).tasks s.current with pos := .halted q }
      else schedule (queued s q timeout) := by
  have hpush : wqPush (s.put s.current
      { s.tasks s.current with
        wakeTick := if timeout ≠ 0 then s.now + timeout else 0
        state := .blocked
        pos := .inSleep q }) q s.current = queued s q timeout := by
    simp only [wqPush, State.put, Function.update_self, Function.update_idem, queued, asleep]
  rw [taskSleep, hpush]

theorem asleep_ok (hq : Rests C s s.current q) (timeout : U32) :
    (asleep s q timeout).Ok (Rests C s s.current) O where
  off h := by cases h
  on r h := by
    obtain rfl : q = r := Option.some.inj h
    exact ⟨hq, rfl, .inl rfl⟩

theorem Wires.queued (h : Wires O C s) (hrun : Running s) (hq : Rests C s s.current q) (timeout : U32) :
    Wires O C (queued s q timeout) := by
  have hoff : (s.tasks s.current).waitQ = none :=
    (h.tasks s.current).waitQ_of_state (by rw [hrun.1]; exact TaskState.noConfusion)
  exact h.push hoff rfl rfl (asleep_ok hq timeout)

theorem Good.sleep (h : Good O C s) (hrun : Running s) (hq : Rests C s s.current q) (timeout : U32) :
    Good O C (taskSleep s q timeout) := by
  have hw : Wires O C (queued s q timeout) := h.wires.queued hrun hq timeout
  have hcur : (queued s q timeout).current = s.current := rfl
  have hself : (queued s q timeout).tasks s.current = asleep s q timeout := Function.update_self _ _ _
  rw [taskSleep_eq]
  rcases schedule_cases (queued s q timeout) with ⟨n, he⟩ | ⟨hne, hr, he⟩
  · -- nobody else can run: the task halts, still on the queue
    have h₁ := hw.rewrite (i := s.current) (k := { asleep s q timeout with ticks := n })
      (by rw [hself]) (by rw [hself]) (by rw [hself]) (by rw [hself])
    have hstay : Sched.schedule (queued s q timeout) =
        (queued s q timeout).put s.current { asleep s q timeout with ticks := n } := by
      rw [he, hcur, hself]
    rw [hstay, put_current, if_pos hcur, put_self]
    refine ⟨h₁.put (by rw [put_self]) (fun _ => by rw [put_self]) ⟨fun hn => ?_, fun r hr => ?_⟩, ?_⟩
    · cases hn
    · obtain rfl : q = r := Option.some.inj hr
      exact ⟨hq, rfl, .inr rfl⟩
    · intro r
      simp only [put_current, hcur, put_self]
      exact Pos.noConfusion
  · rw [he, if_neg (by rwa [hcur] at hne)]
    refine ⟨hw.switch hne hr, fun r => ?_⟩
    simp only [put_self]
    exact (dispatch_fields _).2.2.2 r

theorem Wires.halted (h : Wires O C s) (hp : (s.tasks i).pos = .halted q) :
    (s.tasks i).waitQ = some q ∨ (s.tasks i).waitQ = none := by
  cases hw : (s.tasks i).waitQ with
  | none => exact .inr rfl
  | some r =>
    obtain ⟨-, -, hr | hr⟩ := (h.tasks i).on r hw
    · rw [hp] at hr
      cases hr
    · rw [hp] at hr
      cases hr
      exact .inl rfl

theorem Good.returnRunning (h : Good O C s) (hw : (s.tasks s.current).waitQ = none) :
    Good O C (returnRunning s) :=
  h.put_off hw hw TaskState.noConfusion fun _ _ => Pos.noConfusion

theorem Good.leave (h : Good O C s) (hp : (s.tasks s.current).pos = .halted q) {f : Task → Task}
    (hw : ∀ j, j.waitQ = none → (f j).waitQ = none) (hf : ∀ j r, (f j).pos ≠ .inSleep r)
    (hb : ∀ j, (j.state = .blocked → (s.tasks s.current).state = .blocked) → (f j).state = .blocked →
      O ∧ ∃ r, (f j).pos = .tailing r) :
    Good O C ((leaveQueue s q).put (leaveQueue s q).current
      (f ((leaveQueue s q).tasks (leaveQueue s q).current))) := by
  rcases h.wires.halted hp with hq | hq
  · have hr := removed_of_wires h.wires hq
    have hrun : leaveQueue s q = wqRemove s q s.current := if_pos hq
    rw [hrun, hr.current]
    refine ⟨hr.put h.wires (hw _ ?_) (hb _ ?_), fun r => ?_⟩
    · rw [hr.self]
    · rw [hr.self]
      exact id
    · rw [put_current, hr.current, put_self]
      exact hf _ r
  · have hrun : leaveQueue s q = s := if_neg (by rw [hq]; exact (Option.some_ne_none q).symm)
    rw [hrun]
    refine ⟨h.wires.put ((hw _ hq).trans hq.symm) (fun hne => absurd hq hne) ⟨fun _ => hb _ id, ?_⟩,
      fun r => ?_⟩
    · intro r hr
      rw [hw _ hq] at hr
      cases hr
    · rw [put_current, put_self]
      exact hf _ r

theorem Good.resume (h : Good O C s) (hp : (s.tasks s.current).pos = .halted q) :
    Good O C (Sched.returnRunning (leaveQueue s q)) :=
  h.leave (f := fun k => { k with wakeTick := 0, state := .running, pos := .outside }) hp (fun _ => id)
    (fun _ _ => Pos.noConfusion) fun _ _ => TaskState.noConfusion

/-- The task behind the `wq_remove` in its tail. -/
def cutTail (s : State) (q : Queue) : State :=
  (leaveQueue s q).put (leaveQueue s q).current
    { (leaveQueue s q).tasks (leaveQueue s q).current with pos := .tailing q }

theorem Good.cutTail (h : Good O C s) (hp : (s.tasks s.current).pos = .halted q)
    (hO : (s.tasks s.current).state = .blocked → O) : Good O C (cutTail s q) :=
  h.leave (f := fun k => { k with pos := .tailing q }) hp (fun _ => id) (fun _ _ => Pos.noConfusion)
    fun _ hk hb => ⟨hO (hk hb), q, rfl⟩

theorem run_resumeCut (hp : (s.tasks s.current).pos = .halted q) :
    s.run .resumeCut = irq0 (cutTail s q) := by
  simp only [State.run, hp, cutTail]

/-! ## Every step -/

theorem freeSlot_unused (h : freeSlot s = some i) : (s.tasks i).state = .unused := by
  have hi := List.find?_some h
  exact of_decide_eq_true hi

theorem Wires.off_of_state (h : Wires O C s) {st : TaskState} (hs : (s.tasks i).state = st)
    (hst : st ≠ .blocked) : (s.tasks i).waitQ = none :=
  (h.tasks i).waitQ_of_state (hs ▸ hst)

theorem Good.yield (h : Good O C s) (hw : (s.tasks s.current).waitQ = none)
    (hs : (s.tasks s.current).state ≠ .blocked) : Good O C (taskYield s) := by
  refine Good.schedule (h.put_off hw ?_ ?_ fun _ => ?_)
  · exact hw
  · exact hs
  · exact h.current

theorem processExit_eq (h : Good O C s) (hrun : Running s) :
    processExit s = taskWakeAll (s.put s.current { s.tasks s.current with state := .zombie }) .reap := by
  have hw := h.wires.off_of_state hrun.1 TaskState.noConfusion
  have h₁ : Good O C (s.put s.current { s.tasks s.current with state := .zombie }) :=
    h.put_off hw hw TaskState.noConfusion fun _ => h.current
  have hoff := wakeAll_task h₁.wires (q := .reap) ⟨trivial, Queue.noConfusion⟩ s.current
  rw [put_self, if_neg (by rw [hw]; exact (Option.some_ne_none _).symm)] at hoff
  have hnone : ((taskWakeAll (s.put s.current { s.tasks s.current with state := .zombie }) .reap).tasks
      s.current).waitQ = none := by
    rw [hoff]
    exact hw
  unfold processExit
  dsimp only
  split
  · rename_i q hq
    exact absurd (hnone.symm.trans hq) (Option.some_ne_none q).symm
  · rfl

theorem Good.processExit (h : Good O C s) (hrun : Running s) : Good O C (processExit s) := by
  have hw := h.wires.off_of_state hrun.1 TaskState.noConfusion
  have h₁ : Good O C (s.put s.current { s.tasks s.current with state := .zombie }) :=
    h.put_off hw hw TaskState.noConfusion fun _ => h.current
  rw [processExit_eq h hrun]
  exact h₁.wakeAll ⟨trivial, Queue.noConfusion⟩

theorem reaped_fields (k : Task) :
    k.reaped.waitNext = k.waitNext ∧ k.reaped.waitQ = k.waitQ ∧ k.reaped.pos = k.pos ∧
      (k.reaped.state = .blocked ↔ k.state = .blocked) := by
  unfold Task.reaped
  split
  · rename_i hz
    refine ⟨rfl, rfl, rfl, ?_⟩
    rw [hz.1]
    exact iff_of_false TaskState.noConfusion TaskState.noConfusion
  · exact ⟨rfl, rfl, rfl, Iff.rfl⟩

theorem Good.reapZombies (h : Good O C s) : Good O C (s.run .reapZombies) where
  wires := by
    have hl : (s.run .reapZombies).links = s.links := funext fun i => (reaped_fields (s.tasks i)).1
    have ho : (s.run .reapZombies).waits = s.waits := funext fun i => (reaped_fields (s.tasks i)).2.1
    refine ⟨?_, fun i => ?_, h.wires.cmd, ?_⟩
    · rw [hl, ho]
      exact h.wires.wired
    · obtain ⟨-, hw, hp, hs⟩ := reaped_fields (s.tasks i)
      exact (h.wires.tasks i).congr hw hs hp
    · rw [hl, ho]
      exact h.wires.loop
  current q := by
    have hp := (reaped_fields (s.tasks s.current)).2.2.1
    exact fun he => h.current q (hp.symm.trans he)

theorem Wires.off_free_pipe (h : Wires O C s) {p : Proc.PipeId} (hp : s.pipeUsed p = false)
    (i : TaskId) : (s.tasks i).waitQ ≠ some (.pipe p) := by
  intro hw
  have hu : s.pipeUsed p = true := ((h.tasks i).on _ hw).1.1
  rw [hp] at hu
  cases hu

theorem inUse_makePipe {p : Proc.PipeId} :
    InUse (s.run (.makePipe p)) q ↔ q = .pipe p ∨ InUse s q := by
  cases q with
  | pipe r =>
    simp only [InUse, State.run, Function.update_apply, Queue.pipe.injEq]
    by_cases hr : r = p
    · simp only [hr, if_true, true_or]
    · simp only [hr, if_false, false_or]
  | _ => simp only [InUse, reduceCtorEq, false_or]

theorem Good.makePipe (h : Good O C s) {p : Proc.PipeId} (hp : s.pipeUsed p = false) :
    Good O C (s.run (.makePipe p)) where
  wires := by
    have hheads : (s.run (.makePipe p)).heads = Function.update s.heads (.pipe p) none := rfl
    refine ⟨fun q hq => ?_, fun i => (h.wires.tasks i).mono fun q _ hq => ?_, ?_, h.wires.loop⟩
    · have hlinks : (s.run (.makePipe p)).links = s.links := rfl
      rw [hheads, hlinks]
      by_cases hqp : q = .pipe p
      · subst hqp
        refine ⟨[], ?_, List.nodup_nil, fun i => ?_⟩
        · exact Function.update_self _ _ _
        · exact iff_of_false List.not_mem_nil (h.wires.off_free_pipe hp i)
      · rw [Function.update_of_ne hqp]
        exact h.wires.wired q ⟨(inUse_makePipe.mp hq.1).resolve_left hqp, hq.2⟩
    · exact ⟨inUse_makePipe.mpr (.inr hq.1), hq.2⟩
    · rw [hheads, Function.update_of_ne Queue.noConfusion]
      exact h.wires.cmd
  current := h.current

theorem inUse_freePipe {p : Proc.PipeId} :
    InUse (s.run (.freePipe p)) q ↔ q ≠ .pipe p ∧ InUse s q := by
  cases q with
  | pipe r =>
    simp only [InUse, State.run, Function.update_apply, ne_eq, Queue.pipe.injEq]
    by_cases hr : r = p
    · simp only [hr, if_true, Bool.false_eq_true, not_true_eq_false, false_and]
    · simp only [hr, if_false, not_false_eq_true, true_and]
  | _ => simp only [InUse, ne_eq, reduceCtorEq, not_false_eq_true, and_true]

theorem Good.freePipe (h : Good O C s) {p : Proc.PipeId} (hp : s.pipeUsed p = true) :
    Good O C (s.run (.freePipe p)) := by
  have hq : Proper s (.pipe p) := ⟨hp, Queue.noConfusion⟩
  have h₁ := h.wakeAll hq
  have huse : InUse (taskWakeAll s (.pipe p)) = InUse s := inUse_eq rfl
  refine ⟨⟨h₁.wires.wired.mono fun q hq' => ?_, fun i => (h₁.wires.tasks i).mono fun q hw hq' => ?_,
    h₁.wires.cmd, h₁.wires.loop⟩, h₁.current⟩
  · exact ⟨huse ▸ (inUse_freePipe.mp hq'.1).2, hq'.2⟩
  · refine ⟨inUse_freePipe.mpr ⟨?_, huse ▸ hq'.1⟩, hq'.2⟩
    rintro rfl
    rw [wakeAll_task h.wires hq] at hw
    split at hw
    · cases hw
    · contradiction

theorem Good.step {o : Op} (h : Good O C s) (hs : Step s o s') (hclean : CleanFor O C s o) :
    Good O C s' := by
  obtain ⟨ha, rfl⟩ := hs
  cases o with
  | sleep q timeout => exact h.sleep ha.1 ⟨ha.2.1, fun hq => ⟨hclean hq, ha.2.2 hq⟩⟩ timeout
  | resume =>
    obtain ⟨q, hp⟩ := ha
    simp only [State.run, hp]
    exact h.resume hp
  | resumeCut =>
    obtain ⟨⟨q, hp⟩, -⟩ := ha
    rw [run_resumeCut hp]
    exact (h.cutTail hp hclean).irq0
  | finish =>
    obtain ⟨q, hp⟩ := ha
    refine h.returnRunning ?_
    cases hw : (s.tasks s.current).waitQ with
    | none => rfl
    | some r =>
      obtain ⟨-, -, hr | hr⟩ := (h.wires.tasks s.current).on r hw
      · rw [hp] at hr
        cases hr
      · rw [hp] at hr
        cases hr
  | timer => exact h.irq0
  | yield =>
    have hnb : (s.tasks s.current).state ≠ .blocked := by
      rw [ha.1]
      exact TaskState.noConfusion
    exact h.yield ((h.wires.tasks _).waitQ_of_state hnb) hnb
  | wakeAll q => exact h.wakeAll ha
  | create isUser =>
    cases hf : freeSlot s with
    | none =>
      simp only [State.run, hf]
      exact h
    | some i =>
      simp only [State.run, hf]
      exact h.put_off (h.wires.off_of_state (freeSlot_unused hf) TaskState.noConfusion) rfl
        TaskState.noConfusion fun _ _ => Pos.noConfusion
  | taskExit =>
    have hw := h.wires.off_of_state ha.1.1 TaskState.noConfusion
    have h₁ : Good O C (s.put s.current { s.tasks s.current with state := .zombie }) :=
      h.put_off hw hw TaskState.noConfusion fun _ => h.current
    refine h₁.yield ?_ ?_
    · rw [put_current, put_self]
      exact hw
    · rw [put_current, put_self]
      exact TaskState.noConfusion
  | processExit => exact h.processExit ha.1
  | giveUp => exact h.schedule
  | collect z =>
    have hw := h.wires.off_of_state ha.2 TaskState.noConfusion
    refine h.put_off hw hw TaskState.noConfusion fun hz => ?_
    rw [hz]
    exact h.current
  | reapZombies => exact h.reapZombies
  | makePipe p => exact h.makePipe ha
  | freePipe p => exact h.freePipe ha

theorem good_boot : Good O C boot where
  wires := by
    have hoff : ∀ i, (boot.tasks i).waitQ = none ∧ (boot.tasks i).state ≠ .blocked := by
      intro i
      simp only [boot]
      split
      · exact ⟨rfl, TaskState.noConfusion⟩
      · exact ⟨rfl, TaskState.noConfusion⟩
    refine ⟨fun q hq => ⟨[], ?_, List.nodup_nil, fun i => ?_⟩, fun i => ok_off (hoff i).1 (hoff i).2, rfl,
      fun hsh => ?_⟩
    · cases q with
      | sleepCmd => exact absurd rfl hq.2
      | pipe p => exact absurd hq.1 Bool.false_ne_true
      | _ => exact rfl
    · refine iff_of_false List.not_mem_nil ?_
      rw [State.waits, (hoff i).1]
      exact (Option.some_ne_none q).symm
    · exact absurd ((hoff shell).1.symm.trans hsh) (Option.some_ne_none _).symm
  current q := by
    simp only [boot, if_true]
    exact Pos.noConfusion

theorem Good.waitQueues (h : Good False False s) : WaitQueues s (Proper s) where
  chain := h.wires.wired
  one q q' L L' i hq hq' hL hL' hi hi' := by
    obtain ⟨M, hM, -, hmem⟩ := h.wires.wired q hq
    obtain ⟨M', hM', -, hmem'⟩ := h.wires.wired q' hq'
    obtain rfl := linked_unique hL hM
    obtain rfl := linked_unique hL' hM'
    exact Option.some.inj (((hmem i).mp hi).symm.trans ((hmem' i).mp hi'))
  blocked i hb _ := by
    cases hw : (s.tasks i).waitQ with
    | none => exact ((h.wires.tasks i).off hw hb).1.elim
    | some q =>
      obtain ⟨hq, -, hpos⟩ := (h.wires.tasks i).on q hw
      have hprop : Proper s q := ⟨hq.1, fun he => (hq.2 he).1⟩
      obtain ⟨L, hL, -, hmem⟩ := h.wires.wired q hprop
      exact ⟨q, L, hprop, hpos.imp_right .inl, hL, (hmem i).mpr hw⟩
  woken q hq i hsl := by
    rw [wakeAll_task h.wires hq]
    split
    · simp only [Task.woken]
      split
      · exact TaskState.noConfusion
      · assumption
    · rename_i hne
      intro hb
      cases hw : (s.tasks i).waitQ with
      | none => exact ((h.wires.tasks i).off hw hb).1
      | some r =>
        refine hne (hw.trans (congrArg some ?_))
        obtain ⟨-, -, hr | hr⟩ := (h.wires.tasks i).on r hw <;>
          rcases hsl with hs | hs | hs <;> rw [hr] at hs <;> cases hs <;> rfl

/-- In every run without such a switch the wait queues are in order. -/
theorem run_waitQueues {ops : List Op} (h : Run CleanStep boot ops s) : WaitQueues s (Proper s) :=
  (Run.invariant (I := Good False False) (fun hI h => hI.step h.1 (cleanFor_of_clean h.2)) h
    good_boot).waitQueues

def worker : TaskId := ⟨1, Proc.one_lt_tasks⟩

def haltOps : List Op :=
  [.create true, .sleep .pingGap 1, .makePipe Proc.firstPipe, .sleep (.pipe Proc.firstPipe) 0]

def wakeOps : List Op := haltOps ++ [.timer, .wakeAll (.pipe Proc.firstPipe)]

theorem run_waitQueues_wake :
    WaitQueues (wakeOps.foldl State.run boot) (Proper (wakeOps.foldl State.run boot)) ∧
      ((wakeOps.foldl State.run boot).tasks worker).state = .ready := by
  have hplays : Plays (fun s o => Allowed s o ∧ Clean s o) State.run boot wakeOps := by decide
  exact ⟨run_waitQueues (Run.of_plays (fun _ _ h => ⟨⟨h.1, rfl⟩, h.2⟩) hplays), by decide⟩

def lostOps : List Op := haltOps ++ [.resumeCut]

def lost : State := lostOps.foldl State.run boot

/-- At the start task 0 is on the chain of `wq_sleep`; and a task that waits for its pipe without a
deadline comes to be on no queue, BLOCKED. -/
theorem queues_broken :
    ¬WaitQueues boot (InUse boot) ∧ Run Step boot lostOps lost ∧ ¬WaitQueues lost (Proper lost) := by
  have hplays : Plays Allowed State.run boot lostOps := by decide
  refine ⟨fun h => ?_, Run.of_plays (fun _ _ ha => ⟨ha, rfl⟩) hplays, fun h => ?_⟩
  · obtain ⟨L, hL, -, hmem⟩ := h.chain .sleepCmd trivial
    cases L with
    | nil => exact absurd hL (Option.some_ne_none shell)
    | cons i L =>
      have hi := (hmem i).mp List.mem_cons_self
      obtain rfl : shell = i := Option.some.inj hL.1
      exact absurd hi (by decide)
  · obtain ⟨q, L, hq, -, hL, hi⟩ := h.blocked worker (by decide) (by decide)
    obtain ⟨M, hM, -, hmem⟩ := h.chain q hq
    obtain rfl := linked_unique hL hM
    have hw : lost.waits worker = none := by decide
    exact absurd (((hmem worker).mp hi).symm.trans hw) (Option.some_ne_none q)

end Ezos.Sched
