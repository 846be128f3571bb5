import Ezos.Proc.PipeFifo

/-!
# The reference counts are exact while no close is cut

`process_exit` has made the task a ZOMBIE before it closes the first descriptor, and closing a pipe
end turns the interrupts on. A timer switch then takes the CPU for ever: the descriptors that are
left stay open, and keep their counts after the task is reaped.
-/

namespace Ezos.Proc

open Lib Lib.Tally

set_option autoImplicit false

variable {s : State} {t : TaskId} {k : Task} {ps : Pipes} {p : PipeId} {w : Bool}

def State.descriptors (s : State) (p : PipeId) (w : Bool) : Nat :=
  total (fun k => if k.life = .unused then 0 else ends p w k.fds) s.tasks

structure Counted (s : State) : Prop where
  counts : ∀ p w, (s.pipes p).ref w = s.descriptors p w
  pool : ∀ p, (s.pipes p).used = false ↔ (s.pipes p).ref false = 0 ∧ (s.pipes p).ref true = 0

/-- The timer does not switch between the `sti` of a close and the clearing of the entry, nor in an
exit that still has pipe ends to close. -/
def Clean (s : State) : Op → Prop
  | .closeCut _ _ => False
  | .exitCut t f mid => mid = false ∧ ∀ g, f < g → ((s.tasks t).fds g).type ≠ .pipe
  | _ => True

instance (s : State) : (o : Op) → Decidable (Clean s o)
  | .closeCut _ _ => inferInstanceAs (Decidable False)
  | .exitCut _ _ _ => inferInstanceAs (Decidable (_ ∧ _))
  | .create _ | .pipe _ _ | .openFile _ _ _ | .close _ _ _ | .finishClose _ | .fork _ _
  | .read _ _ _ | .write _ _ _ | .turn _ | .exit _ | .waitPid _ _ | .taskExit _ | .reapZombie _ =>
    inferInstanceAs (Decidable True)

def CleanStep (s : State) (o : Op) (s' : State) : Prop := Step s o s' ∧ Clean s o

/-! ## Tables -/

def NoPipe (T : Table) : Prop := ∀ f, (T f).type ≠ .pipe

structure Task.Tidy (k : Task) : Prop where
  pc : ∀ f, k.pc ≠ .closing f
  streams : k.life ≠ .unused → ∀ f, f ∉ userFds → (k.fds f).type ≠ .pipe
  zombie : k.life = .zombie → NoPipe k.fds
  thread : k.life ≠ .unused → k.isUser = false → NoPipe k.fds

theorem tidy_unused {u : Bool} {T : Table} {pc : Pc} (hpc : ∀ f, pc ≠ .closing f) :
    Task.Tidy ⟨.unused, u, T, pc⟩ where
  pc := hpc
  streams h := absurd rfl h
  zombie h := by cases h
  thread h := absurd rfl h

theorem tidy_noPipe {l : Life} {u : Bool} {T : Table} {pc : Pc} (hpc : ∀ f, pc ≠ .closing f)
    (hT : NoPipe T) : Task.Tidy ⟨l, u, T, pc⟩ :=
  ⟨hpc, fun _ f _ => hT f, fun _ => hT, fun _ _ => hT⟩

theorem tidy_live (hl : k.life = .live) (hpc : ∀ f, k.pc ≠ .closing f)
    (hs : ∀ f, f ∉ userFds → (k.fds f).type ≠ .pipe) (ht : k.isUser = false → NoPipe k.fds) :
    k.Tidy where
  pc := hpc
  streams _ := hs
  zombie h := by
    rw [hl] at h
    cases h
  thread _ := ht

theorem Task.Tidy.table (h : k.Tidy) {T : Table}
    (hT : ∀ f, (k.fds f).type ≠ .pipe → (T f).type ≠ .pipe) {pc : Pc} (hpc : ∀ f, pc ≠ .closing f) :
    Task.Tidy ⟨k.life, k.isUser, T, pc⟩ where
  pc := hpc
  streams hl f hf := hT f (h.streams hl f hf)
  zombie hl f := hT f (h.zombie hl f)
  thread hl hu f := hT f (h.thread hl hu f)

theorem fdClose_not_pipe {T : Table} {fd rc : Int} {f : Fd} (h : (T f).type ≠ .pipe) :
    ((fdClose ps T fd rc).2.2 f).type ≠ .pipe := by
  unfold fdClose
  split
  · exact h
  · exact closeEntry_not_pipe rc h

theorem closeAll_noPipe {T : Table} (h : ∀ f, f ∉ userFds → (T f).type ≠ .pipe) :
    NoPipe (closeAll ps T userFds).2 := by
  intro f
  by_cases hf : f ∈ userFds
  · exact closeAll_not_pipe userFds (.inr hf)
  · exact closeAll_not_pipe userFds (.inl (h f hf))

theorem exitCut_noPipe {T : Table} {f : Fd} (hs : ∀ g, g ∉ userFds → (T g).type ≠ .pipe)
    (hafter : ∀ g, f < g → (T g).type ≠ .pipe) :
    NoPipe (closeEntry (closeAll ps T (userFds.filter (· < f))).1
      (closeAll ps T (userFds.filter (· < f))).2 f 0).2.2 := by
  intro g
  rcases lt_trichotomy g f with hg | hg | hg
  · refine closeEntry_not_pipe 0 (closeAll_not_pipe _ ?_)
    by_cases hm : g ∈ userFds
    · exact .inr (List.mem_filter.mpr ⟨hm, decide_eq_true hg⟩)
    · exact .inl (hs g hm)
  · subst hg
    exact closeEntry_self 0
  · exact closeEntry_not_pipe 0 (closeAll_not_pipe _ (.inl (hafter g hg)))

theorem fdPipe_streams {T : Table} {mem : Bool} {f : Fd} (hf : f ∉ userFds) (h : (T f).type ≠ .pipe) :
    ((fdPipe ps T mem).2.2 f).type ≠ .pipe := by
  rcases fdPipe_cases ps T mem with he | ⟨p, -, q, he⟩ | ⟨p, r, v, -, -, -, -, hr, hv, he⟩
  · rwa [he]
  · rwa [he]
  · have hfr : f ≠ r := fun h' => hf (h' ▸ hr)
    have hfv : f ≠ v := fun h' => hf (h' ▸ hv)
    rw [he]
    simp only [Function.update_of_ne hfv, Function.update_of_ne hfr]
    exact h

theorem tidy_put (hs : ∀ i, (s.tasks i).Tidy) (hk : k.Tidy) (i : TaskId) :
    ((s.put ps t k).tasks i).Tidy := by
  by_cases hi : i = t
  · subst hi
    rwa [put_tasks_self]
  · rw [put_tasks_ne s ps k hi]
    exact hs i

theorem Task.Tidy.turned (h : k.Tidy) (r : Turn) : (k.turned r).Tidy := by
  cases r with
  | sleeps => exact h
  | returns r bytes => exact h.table (fun _ => id) fun _ => Pc.noConfusion

theorem CleanStep.tidy {s' : State} {o : Op} (hs : ∀ i, (s.tasks i).Tidy) (h : CleanStep s o s')
    (i : TaskId) : (s'.tasks i).Tidy := by
  obtain ⟨⟨ha, rfl⟩, hclean⟩ := h
  have hi := hs i
  cases o with
  | create isUser =>
    rcases run_create s isUser with he | ⟨c, -, he⟩
    · rwa [he]
    · rw [he]
      exact tidy_put hs (tidy_noPipe (fun _ => Pc.noConfusion) init_not_pipe) i
  | pipe t mem =>
    refine tidy_put hs (tidy_live ?_ ?_ (fun f hf => ?_) fun hu => ?_) i
    · exact ha.1.1
    · exact (hs t).pc
    · exact fdPipe_streams hf ((hs t).streams (idle_life ha.1) f hf)
    · exact absurd (ha.2.symm.trans hu) (by decide)
  | openFile t ok writing =>
    refine tidy_put hs ((hs t).table (fun f hf => ?_) (hs t).pc) i
    exact fun h' => hf ((fdOpen_type _ ok writing f).mp h')
  | close t fd rc =>
    exact tidy_put hs ((hs t).table (fun f hf => fdClose_not_pipe hf) (hs t).pc) i
  | closeCut t f => exact hclean.elim
  | finishClose t =>
    obtain ⟨-, f, hpc⟩ := ha
    exact absurd hpc ((hs t).pc f)
  | fork t mem =>
    rcases run_fork s t mem with he | ⟨c, -, he⟩
    · rwa [he]
    · rw [he]
      refine tidy_put hs (tidy_live rfl (fun _ => Pc.noConfusion) (fun f hf => ?_) fun hu => ?_) i
      · exact @dup_not_pipe s.pipes _ f ((hs t).streams (idle_life ha.1) f hf)
      · cases hu
  | read t fd n =>
    rcases run_read s t fd n with he | ⟨p, -, he⟩
    · rwa [he]
    · rw [he]
      exact tidy_put hs ((hs t).table (fun _ => id) fun _ => Pc.noConfusion) i
  | write t fd data =>
    rcases run_write s t fd data with he | ⟨p, -, he⟩
    · rwa [he]
    · rw [he]
      exact tidy_put hs ((hs t).table (fun _ => id) fun _ => Pc.noConfusion) i
  | turn t =>
    rcases run_turn s t with he | ⟨p, r, q, -, he⟩
    · rwa [he]
    · rw [he]
      exact tidy_put hs ((hs t).turned r) i
  | exit t =>
    refine tidy_put hs (tidy_noPipe (hs t).pc ?_) i
    exact closeAll_noPipe ((hs t).streams (idle_life ha.1))
  | exitCut t f mid =>
    obtain ⟨rfl, hafter⟩ := hclean
    refine tidy_put hs (tidy_noPipe (hs t).pc ?_) i
    exact exitCut_noPipe ((hs t).streams (idle_life ha.1)) hafter
  | waitPid t z => exact tidy_put hs (tidy_unused (hs z).pc) i
  | taskExit t =>
    refine tidy_put hs (tidy_noPipe (hs t).pc ?_) i
    exact (hs t).thread (idle_life ha.1) (Bool.eq_false_iff.mpr ha.2)
  | reapZombie z => exact tidy_put hs (tidy_unused (hs z).pc) i

structure Exact (s : State) : Prop where
  sound : Sound s
  tidy : ∀ i, (s.tasks i).Tidy
  equal : ∀ p w, (s.pipes p).ref w = s.openEnds p w

theorem Balanced.equal {ps' : Pipes} {n n' : PipeId → Bool → Nat} (h : Balanced ps n ps' n')
    (he : ∀ p w, (ps p).ref w = n p w) (p : PipeId) (w : Bool) : (ps' p).ref w = n' p w := by
  have hb := h p w
  have hn := he p w
  omega

theorem Task.Tidy.no_ends (h : k.Tidy) (hz : k.life = .zombie) : k.openEnds p w = 0 := by
  have hl : k.life ≠ .unused := by
    rw [hz]
    exact Life.noConfusion
  rw [openEnds_of_pc hl h.pc]
  exact ends_of_no_pipe (h.zombie hz)

theorem CleanStep.equal {s' : State} {o : Op} (hs : Exact s) (h : CleanStep s o s') (p : PipeId)
    (w : Bool) : (s'.pipes p).ref w = s'.openEnds p w := by
  cases o with
  | fork t mem =>
    obtain ⟨⟨ha, rfl⟩, -⟩ := h
    rcases run_fork s t mem with he | ⟨c, hc, he⟩
    · rw [he]
      exact hs.equal p w
    · rw [he]
      obtain ⟨href, hopen⟩ := fork_counts (t := t) hs.sound hc p w
      have heq := hs.equal p w
      have hmax := openEnds_le (s := s.put (fdTableDup s.pipes (s.tasks t).fds).1 c
        ⟨.live, true, (fdTableDup s.pipes (s.tasks t).fds).2, .user⟩) (p := p) (w := w)
      rw [href]
      omega
  | waitPid t z =>
    obtain ⟨⟨ha, rfl⟩, -⟩ := h
    have hk : (s.run (.waitPid t z)).openEnds p w + (s.tasks z).openEnds p w = s.openEnds p w :=
      openEnds_forget rfl
    rw [(hs.tidy z).no_ends ha.2] at hk
    exact (hs.equal p w).trans hk.symm
  | reapZombie z =>
    obtain ⟨⟨ha, rfl⟩, -⟩ := h
    have hk : (s.run (.reapZombie z)).openEnds p w + (s.tasks z).openEnds p w = s.openEnds p w :=
      openEnds_forget rfl
    have hno := (hs.tidy z).zombie ha.1
    have hc : Covers s.pipes (tableEnds (s.tasks z).fds) := fun p w =>
      (ends_of_no_pipe hno).le.trans (Nat.zero_le _)
    have hb := balanced_closeAll userFds hc p w
    have h0 : tableEnds (s.tasks z).fds p w = 0 := ends_of_no_pipe hno
    have h1 : tableEnds (closeAll s.pipes (s.tasks z).fds userFds).2 p w = 0 :=
      ends_of_no_pipe fun f => closeAll_not_pipe userFds (.inl (hno f))
    have hrun : (s.run (.reapZombie z)).pipes = (closeAll s.pipes (s.tasks z).fds userFds).1 := rfl
    have heq := hs.equal p w
    rw [(hs.tidy z).no_ends ha.1] at hk
    rw [hrun]
    omega
  | _ => exact (h.1.balanced hs.sound trivial).equal hs.equal p w

theorem Exact.step {s' : State} {o : Op} (hs : Exact s) (h : CleanStep s o s') : Exact s' :=
  ⟨hs.sound.step h.1, h.tidy hs.tidy, h.equal hs⟩

theorem exact_boot : Exact boot where
  sound := sound_boot
  tidy _ := tidy_noPipe (fun _ => Pc.noConfusion) init_not_pipe
  equal p w := by
    rw [openEnds_boot]
    cases w <;> rfl

theorem Exact.counted (hs : Exact s) : Counted s where
  counts p w := by
    rw [hs.equal]
    refine total_congr fun i => ?_
    by_cases hl : (s.tasks i).life = .unused
    · rw [if_pos hl, openEnds_unused hl]
    · rw [if_neg hl, openEnds_of_pc hl (hs.tidy i).pc]
  pool p := by
    have hu := (hs.sound.pool p).used_iff
    rw [← Bool.not_eq_true, hu, not_or, not_not, not_not]

/-- In every run without such a switch the counts are exact. -/
theorem run_counted {ops : List Op} (h : Run CleanStep boot ops s) : Counted s :=
  (Run.invariant (I := Exact) Exact.step h exact_boot).counted

theorem three_lt_fds : 3 < maxOpenFds := by decide

def readFd : Fd := ⟨3, three_lt_fds⟩
def shellTask : TaskId := ⟨0, Nat.zero_lt_succ 7⟩

def orderlyOps : List Op :=
  [.create true, .pipe firstTask true, .fork firstTask true, .close firstTask 4 0, .exit firstTask,
    .waitPid shellTask firstTask]

theorem run_counted_orderly : Counted (boot.runAll orderlyOps) := by
  have hplays : Plays (fun s o => Allowed s o ∧ Clean s o) State.run boot orderlyOps := by
    decide
  exact run_counted (Run.of_plays (fun _ _ h => ⟨⟨h.1, rfl⟩, h.2⟩) hplays)

def cutOps : List Op :=
  [.create true, .pipe firstTask true, .exitCut firstTask readFd false, .waitPid shellTask firstTask]

theorem cut_not_counted : Run Step boot cutOps (boot.runAll cutOps) ∧ ¬Counted (boot.runAll cutOps) := by
  have hplays : Plays Allowed State.run boot cutOps := by decide
  refine ⟨Run.of_plays (fun _ _ ha => ⟨ha, rfl⟩) hplays, fun h => ?_⟩
  have hcounts := h.counts firstPipe true
  exact absurd hcounts (by decide)

/-!
## Sleepers on a pipe

A reader that finds its pipe empty, or a writer that finds it full, is asleep until a call moves bytes or an end is closed. The
check and the entry in the queue are one step.
-/

variable {s' : State} {i : TaskId} {T : Table} {e : Entry} {q q' : Pipe} {o : Op}

def Entry.endOf (p : PipeId) (e : Entry) : Bool := decide (e.type = .pipe ∧ e.data = some p)

def endIn (p : PipeId) (T : Table) (fs : List Fd) : Bool := fs.any fun f => (T f).endOf p

/-- The step calls `task_wake_all` on the queue of the pipe: a turn that moves bytes, and every close of an end. -/
def wakes (s : State) (p : PipeId) : Op → Bool
  | .turn t =>
    match (s.tasks t).pc with
    | .reading p' _ => decide (p' = p ∧ 0 < (s.pipes p).count)
    | .writing p' _ => decide (p' = p ∧ (s.pipes p).refR ≠ 0 ∧ (s.pipes p).count < pipeBuf)
    | _ => false
  | .close t fd _ => (fdOf fd).any fun f => ((s.tasks t).fds f).endOf p
  | .closeCut t f => ((s.tasks t).fds f).endOf p
  | .exit t | .reapZombie t => endIn p (s.tasks t).fds userFds
  | .exitCut t f _ => endIn p (s.tasks t).fds (userFds.filter (· < f)) || ((s.tasks t).fds f).endOf p
  | _ => false

def Task.waitsFor (k : Task) : Option PipeId :=
  match k.pc with
  | .reading p _ | .writing p _ => some p
  | _ => none

/-- A task is asleep from a turn that ends in `task_sleep` on, until its pipe is woken or it takes another turn. -/
def asleepAfter (s : State) (a : TaskId → Bool) : Op → TaskId → Bool
  | .turn t, i =>
    if i = t then decide ((turnOf s i).map (fun r => r.2.1) = some .sleeps)
    else a i && !((s.tasks i).waitsFor.any fun p => wakes s p (.turn t))
  | o, i => a i && !((s.tasks i).waitsFor.any fun p => wakes s p o)

def SleepStep (x : State × (TaskId → Bool)) (o : Op) (y : State × (TaskId → Bool)) : Prop :=
  Step x.1 o y.1 ∧ y.2 = asleepAfter x.1 x.2 o

structure Waiting (s : State) (i : TaskId) : Prop where
  live : (s.tasks i).life = .live
  waits : (∃ p n, (s.tasks i).pc = .reading p n ∧ (s.pipes p).count = 0 ∧ (s.pipes p).refW ≠ 0) ∨
    ∃ p data, (s.tasks i).pc = .writing p data ∧ pipeBuf ≤ (s.pipes p).count ∧ (s.pipes p).refR ≠ 0

def Kept (q q' : Pipe) : Prop := q'.count = q.count ∧ (q.refR ≠ 0 → q'.refR ≠ 0) ∧ (q.refW ≠ 0 → q'.refW ≠ 0)

theorem Kept.of_eq (h : q' = q) : Kept q q' := h ▸ ⟨rfl, id, id⟩

theorem Kept.trans {q'' : Pipe} (h : Kept q q') (h' : Kept q' q'') : Kept q q'' :=
  ⟨h'.1.trans h.1, h'.2.1 ∘ h.2.1, h'.2.2 ∘ h.2.2⟩

theorem kept_bump {w : Bool} : Kept q (q.bump w) := by
  have hup : ∀ n : Nat, n ≠ 0 → (if n < 0xFFFF then n + 1 else n) ≠ 0 := by
    intro n hn
    split <;> omega
  cases w with
  | false => exact ⟨rfl, hup _, id⟩
  | true => exact ⟨rfl, id, hup _⟩

theorem pipeClose_other (h : e.type = .pipe) (hp : e.endOf p = false) : pipeClose ps e p = ps p := by
  unfold pipeClose
  cases hd : e.data with
  | none => rfl
  | some p' =>
    have hne : p ≠ p' := by
      rintro rfl
      exact of_decide_eq_false hp ⟨h, hd⟩
    exact Function.update_of_ne hne _ _

theorem closeEntry_other {f : Fd} {rc : Int} (hp : (T f).endOf p = false) : (closeEntry ps T f rc).2.1 p = ps p := by
  unfold closeEntry
  split
  · exact pipeClose_other ‹_› hp
  · rfl
  · rfl

theorem closeAll_other {fs : List Fd} (hp : endIn p T fs = false) : (closeAll ps T fs).1 p = ps p := by
  induction fs generalizing ps T with
  | nil => rfl
  | cons f fs ih =>
    have hall := List.any_eq_false.mp hp
    refine (ih (List.any_eq_false.mpr fun g hg => ?_)).trans (closeEntry_other (Bool.eq_false_iff.mpr (hall f List.mem_cons_self)))
    by_cases hgf : g = f
    · subst hgf
      exact fun h => closeEntry_self 0 (of_decide_eq_true h).1
    · rw [closeEntry_of_ne hgf]
      exact hall g (List.mem_cons_of_mem f hg)

theorem kept_dupAll (fs : List Fd) : Kept (ps p) (dupAll ps T fs p) := by
  induction fs generalizing ps with
  | nil => exact .of_eq rfl
  | cons f fs ih =>
    refine Kept.trans ?_ ih
    rcases dupEntry_cases ps (T f) with ⟨p', -, -, he⟩ | ⟨he, -⟩
    · rw [he]
      by_cases hp : p = p'
      · subst hp
        rw [Function.update_self]
        exact kept_bump
      · exact .of_eq (Function.update_of_ne hp _ _)
    · exact .of_eq (congrFun he p)

theorem kept_fdPipe {mem : Bool} (hu : (ps p).used = true) : Kept (ps p) ((fdPipe ps T mem).2.1 p) := by
  have hne : ∀ p', (ps p').used = false → p ≠ p' := by
    rintro p' hf rfl
    exact Bool.false_ne_true (hf.symm.trans hu)
  rcases fdPipe_cases ps T mem with he | ⟨p', hf, q, he⟩ | ⟨p', r, v, hf, -, -, -, -, -, he⟩ <;> rw [he]
  · exact .of_eq rfl
  · exact .of_eq (Function.update_of_ne (hne p' hf) _ _)
  · exact .of_eq (Function.update_of_ne (hne p' hf) _ _)

theorem kept_turn (hw : wakes s p (.turn t) = false) : Kept (s.pipes p) ((s.run (.turn t)).pipes p) := by
  rcases run_turn s t with he | ⟨p', r, q, ht, he⟩
  · exact .of_eq (congrFun (congrArg State.pipes he) p)
  rw [he, put_pipes]
  by_cases hp : p = p'
  · subst hp
    rw [Function.update_self]
    refine .of_eq ?_
    unfold wakes at hw
    dsimp only at hw
    rcases turnOf_eq_some ht with ⟨n, hpc, hq⟩ | ⟨data, hpc, hq⟩ <;> rw [hpc] at hw
    · rw [pipeRead, if_neg fun hc => of_decide_eq_false hw ⟨rfl, hc⟩] at hq
      split at hq <;> exact (Prod.mk.inj hq).2
    · rw [pipeWrite] at hq
      split at hq
      · exact (Prod.mk.inj hq).2
      · rename_i href
        rw [if_neg fun hc => of_decide_eq_false hw ⟨rfl, href, hc⟩] at hq
        exact (Prod.mk.inj hq).2
  · exact .of_eq (Function.update_of_ne hp _ _)

/-- A pipe in use that a step does not wake keeps what its sleepers have looked at. -/
theorem Step.kept (h : Step s o s') (hw : wakes s p o = false) (hu : (s.pipes p).used = true) :
    Kept (s.pipes p) (s'.pipes p) := by
  obtain ⟨ha, rfl⟩ := h
  have hsame : ∀ {u : State}, u.pipes = s.pipes → Kept (s.pipes p) (u.pipes p) := fun he => .of_eq (congrFun he p)
  cases o with
  | create isUser => rcases run_create s isUser with he | ⟨c, -, he⟩ <;> rw [he] <;> exact hsame rfl
  | pipe t mem => exact kept_fdPipe hu
  | openFile t ok writing => exact hsame rfl
  | close t fd rc =>
    change Kept _ ((fdClose s.pipes (s.tasks t).fds fd rc).2.1 p)
    unfold fdClose
    cases hf : fdOf fd with
    | none => exact .of_eq rfl
    | some f =>
      rw [wakes, hf] at hw
      exact .of_eq (closeEntry_other hw)
  | closeCut t f => exact .of_eq (pipeClose_other ha.2 hw)
  | finishClose t =>
    obtain ⟨-, f, hpc⟩ := ha
    rw [run_finishClose hpc]
    exact hsame rfl
  | fork t mem =>
    rcases run_fork s t mem with he | ⟨c, -, he⟩ <;> rw [he]
    · exact hsame rfl
    · exact kept_dupAll _
  | read t fd n => rcases run_read s t fd n with he | ⟨p', -, he⟩ <;> rw [he] <;> exact hsame rfl
  | write t fd data => rcases run_write s t fd data with he | ⟨p', -, he⟩ <;> rw [he] <;> exact hsame rfl
  | turn t => exact kept_turn hw
  | exit t => exact .of_eq (closeAll_other hw)
  | exitCut t f mid =>
    obtain ⟨hbefore, hf⟩ := Bool.or_eq_false_iff.mp hw
    have hself : (closeAll s.pipes (s.tasks t).fds (userFds.filter (· < f))).2 f = (s.tasks t).fds f :=
      closeAll_of_not_mem _ fun hm => absurd (of_decide_eq_true (List.mem_filter.mp hm).2) (lt_irrefl f)
    rw [← hself] at hf
    cases mid with
    | false => exact .of_eq ((closeEntry_other hf).trans (closeAll_other hbefore))
    | true =>
      refine .of_eq ((pipeClose_other ?_ hf).trans (closeAll_other hbefore))
      rw [hself]
      exact ha.2.2.2.2 rfl
  | waitPid t z => exact hsame rfl
  | taskExit t => exact hsame rfl
  | reapZombie z => exact .of_eq (closeAll_other hw)

/-- Nobody but a task itself, in a turn, moves it out of its loop. -/
theorem Step.same_task (h : Step s o s') (hl : (s.tasks i).life = .live) (hp : (s.tasks i).waitsFor = some p)
    (ho : ∀ t, o = .turn t → i ≠ t) : s'.tasks i = s.tasks i := by
  obtain ⟨ha, rfl⟩ := h
  have hidle : ∀ {t}, Idle s t → i ≠ t := by
    rintro t ⟨-, hpc⟩ rfl
    rw [Task.waitsFor, hpc] at hp
    cases hp
  have hnot : ∀ {t}, (s.tasks t).life ≠ .live → i ≠ t := by
    rintro t hno rfl
    exact hno hl
  cases o with
  | create isUser =>
    rcases run_create s isUser with he | ⟨c, hc, he⟩ <;> rw [he]
    exact put_tasks_ne _ _ _ (hnot (by rw [freeSlot_unused hc]; exact Life.noConfusion))
  | pipe t mem => exact put_tasks_ne _ _ _ (hidle ha.1)
  | openFile t ok writing => exact put_tasks_ne _ _ _ (hidle ha)
  | close t fd rc => exact put_tasks_ne _ _ _ (hidle ha)
  | closeCut t f => exact put_tasks_ne _ _ _ (hidle ha.1)
  | finishClose t =>
    obtain ⟨-, f, hpc⟩ := ha
    rw [run_finishClose hpc]
    refine put_tasks_ne _ _ _ ?_
    rintro rfl
    rw [Task.waitsFor, hpc] at hp
    cases hp
  | fork t mem =>
    rcases run_fork s t mem with he | ⟨c, hc, he⟩ <;> rw [he]
    exact put_tasks_ne _ _ _ (hnot (by rw [freeSlot_unused hc]; exact Life.noConfusion))
  | read t fd n =>
    rcases run_read s t fd n with he | ⟨p', -, he⟩ <;> rw [he]
    exact put_tasks_ne _ _ _ (hidle ha)
  | write t fd data =>
    rcases run_write s t fd data with he | ⟨p', -, he⟩ <;> rw [he]
    exact put_tasks_ne _ _ _ (hidle ha)
  | turn t =>
    rcases run_turn s t with he | ⟨p', r, q, -, he⟩ <;> rw [he]
    exact put_tasks_ne _ _ _ (ho t rfl)
  | exit t => exact put_tasks_ne _ _ _ (hidle ha.1)
  | exitCut t f mid => cases mid <;> exact put_tasks_ne _ _ _ (hidle ha.1)
  | waitPid t z => exact put_tasks_ne _ _ _ (hnot (by rw [ha.2]; exact Life.noConfusion))
  | taskExit t => exact put_tasks_ne _ _ _ (hidle ha.1)
  | reapZombie z => exact put_tasks_ne _ _ _ (hnot (by rw [ha.1]; exact Life.noConfusion))

theorem Waiting.kept (h : Waiting s i) (ht : s'.tasks i = s.tasks i)
    (hk : ∀ p, (s.tasks i).waitsFor = some p → (s.pipes p).used = true → Kept (s.pipes p) (s'.pipes p))
    (hok : ∀ p, PipeOk (s.pipes p)) : Waiting s' i := by
  have hused : ∀ p w, (s.pipes p).ref w ≠ 0 → (s.pipes p).used = true := fun p w hne => by
    by_contra hu
    exact hne ((hok p).ref_of_free (Bool.eq_false_iff.mpr hu))
  refine ⟨ht ▸ h.live, ?_⟩
  rw [ht]
  rcases h.waits with ⟨p, n, hpc, hc, hr⟩ | ⟨p, data, hpc, hc, hr⟩
  · obtain ⟨hcount, -, hw⟩ := hk p (by rw [Task.waitsFor, hpc]) (hused p true hr)
    exact Or.inl ⟨p, n, hpc, hcount.trans hc, hw hr⟩
  · obtain ⟨hcount, href, -⟩ := hk p (by rw [Task.waitsFor, hpc]) (hused p false hr)
    exact Or.inr ⟨p, data, hpc, hcount.symm ▸ hc, href hr⟩

theorem waiting_of_sleeps (hl : (s.tasks i).life = .live) (ht : (turnOf s i).map (fun r => r.2.1) = some .sleeps) :
    Waiting s i := by
  obtain ⟨⟨p, r, q⟩, hturn, hr⟩ := Option.map_eq_some_iff.mp ht
  dsimp only at hr
  subst hr
  refine ⟨hl, ?_⟩
  rcases turnOf_eq_some hturn with ⟨n, hpc, hq⟩ | ⟨data, hpc, hq⟩
  · refine Or.inl ⟨p, n, hpc, ?_⟩
    rw [pipeRead] at hq
    split at hq
    · cases hq
    · split at hq
      · cases hq
      · exact ⟨Nat.eq_zero_of_not_pos ‹_›, ‹_›⟩
  · refine Or.inr ⟨p, data, hpc, ?_⟩
    rw [pipeWrite] at hq
    split at hq
    · cases hq
    · split at hq
      · cases hq
      · exact ⟨Nat.le_of_not_lt ‹_›, ‹_›⟩

theorem Waiting.not_woken (h : Waiting s i) (hp : (s.tasks i).waitsFor = some p) : wakes s p (.turn i) = false := by
  unfold wakes
  dsimp only
  rcases h.waits with ⟨p', n, hpc, hc, -⟩ | ⟨p', data, hpc, hc, -⟩ <;>
    (rw [Task.waitsFor, hpc] at hp; cases hp; rw [hpc]) <;> refine decide_eq_false ?_
  · exact fun hw => absurd hc (Nat.pos_iff_ne_zero.mp hw.2)
  · exact fun hw => absurd hw.2.2 (Nat.not_lt.mpr hc)

theorem run_turn_sleeps (ht : (turnOf s i).map (fun r => r.2.1) = some .sleeps) : (s.run (.turn i)).tasks i = s.tasks i := by
  obtain ⟨⟨p, r, q⟩, hturn, hr⟩ := Option.map_eq_some_iff.mp ht
  dsimp only at hr
  subst hr
  rcases run_turn s i with he | ⟨p', r', q', hturn', he⟩
  · rw [he]
  · rw [hturn] at hturn'
    cases hturn'
    rw [he, put_tasks_self]
    rfl

theorem asleepAfter_of_ne {a : TaskId → Bool} (ho : ∀ t, o = .turn t → i ≠ t) :
    asleepAfter s a o i = (a i && !((s.tasks i).waitsFor.any fun p => wakes s p o)) := by
  cases o with
  | turn t => exact if_neg (ho t rfl)
  | _ => rfl

structure Sleepers (x : State × (TaskId → Bool)) : Prop where
  sound : Sound x.1
  waiting : ∀ i, x.2 i = true → Waiting x.1 i

theorem Sleepers.step {x y : State × (TaskId → Bool)} (h : Sleepers x) (hs : SleepStep x o y) : Sleepers y := by
  obtain ⟨hstep, ha⟩ := hs
  refine ⟨h.sound.step hstep, fun i hi => ?_⟩
  rw [ha] at hi
  have hok := h.sound.pool
  by_cases ho : ∀ t, o = .turn t → i ≠ t
  · rw [asleepAfter_of_ne ho] at hi
    obtain ⟨hasleep, hw⟩ := Bool.and_eq_true_iff.mp hi
    have hwait := h.waiting i hasleep
    have hsome : ∃ p, (x.1.tasks i).waitsFor = some p := by
      rcases hwait.waits with ⟨p, n, hpc, -⟩ | ⟨p, data, hpc, -⟩ <;> exact ⟨p, by rw [Task.waitsFor, hpc]⟩
    obtain ⟨p, hp⟩ := hsome
    rw [hp, Option.any_some, Bool.not_eq_true'] at hw
    refine hwait.kept (hstep.same_task hwait.live hp ho) (fun p' hp' hu => ?_) hok
    obtain rfl : p = p' := Option.some.inj (hp.symm.trans hp')
    exact hstep.kept hw hu
  · obtain ⟨t, rfl, hit⟩ := by
      simpa only [not_forall, exists_prop, ne_eq, not_not] using ho
    subst hit
    have ht : (turnOf x.1 i).map (fun r => r.2.1) = some .sleeps := of_decide_eq_true ((if_pos rfl).symm.trans hi)
    have hwait := waiting_of_sleeps hstep.1 ht
    obtain ⟨hlive, hrun⟩ := hstep
    rw [hrun]
    exact hwait.kept (run_turn_sleeps ht) (fun p hp _ => kept_turn (hwait.not_woken hp)) hok

def sleepRun (x : State × (TaskId → Bool)) (o : Op) : State × (TaskId → Bool) := (x.1.run o, asleepAfter x.1 x.2 o)

def sleepOps : List Op := [.create true, .pipe firstTask true, .read firstTask 3 1, .turn firstTask]

end Ezos.Proc
