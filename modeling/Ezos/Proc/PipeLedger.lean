import Ezos.Proc.PipeCounts

/-!
# The reference counts over runs

Whatever is cut short, no reference count falls below the number of open ends: a close that was cut
has counted down, and an exit that was cut leaves counts too high, never too low.
-/

namespace Ezos.Proc

open Lib Lib.Tally

set_option autoImplicit false

variable {s : State} {t : TaskId} {k : Task} {ps : Pipes} {p : PipeId} {w : Bool}

def Task.Calm (k : Task) : Prop := k.life = .zombie → k.isUser = false → k.pc = .user

structure Sound (s : State) : Prop where
  pool : ∀ p, PipeOk (s.pipes p)
  covers : Covers s.pipes s.openEnds
  calm : ∀ t, (s.tasks t).Calm

theorem openEnds_put :
    (s.put ps t k).openEnds p w + (s.tasks t).openEnds p w = s.openEnds p w + k.openEnds p w :=
  total_update

theorem openEnds_task_le : (s.tasks t).openEnds p w ≤ s.openEnds p w := le_total t

theorem openEnds_le : s.openEnds p w ≤ 0xFFFF := by
  have hT : ∀ T : Table, ends p w T ≤ 16 := fun T => by
    have h := total_le (f := T) fun f => weight_le (p := p) (w := w) (e := T f)
    rwa [Fintype.card_fin, Nat.mul_one] at h
  have hk : ∀ i, (s.tasks i).openEnds p w ≤ 16 := fun i => by
    unfold Task.openEnds
    split
    · exact Nat.zero_le _
    · exact hT _
  have h := total_le hk
  rw [Fintype.card_fin] at h
  exact h.trans (by decide)

theorem openEnds_of_pc (hl : k.life ≠ .unused) (hpc : ∀ f, k.pc ≠ .closing f) :
    k.openEnds p w = ends p w k.fds := by
  rw [Task.openEnds, if_neg hl]
  unfold Task.held
  split
  · rename_i f hf
    exact absurd hf (hpc f)
  · rfl

theorem openEnds_user (hl : k.life ≠ .unused) (hpc : k.pc = .user) :
    k.openEnds p w = ends p w k.fds :=
  openEnds_of_pc hl fun f => by
    rw [hpc]
    exact Pc.noConfusion

theorem openEnds_closing (hl : k.life ≠ .unused) {f : Fd} (hpc : k.pc = .closing f) :
    k.openEnds p w = ends p w (Function.update k.fds f .free) := by
  rw [Task.openEnds, if_neg hl, Task.held, hpc]

theorem openEnds_unused (hl : k.life = .unused) : k.openEnds p w = 0 := if_pos hl

def taskEnds (k : Task) (p : PipeId) (w : Bool) : Nat := k.openEnds p w

theorem balanced_put (h : Balanced s.pipes (taskEnds (s.tasks t)) ps (taskEnds k)) :
    Balanced s.pipes s.openEnds ps (s.put ps t k).openEnds := by
  intro p w
  have hp : (s.put ps t k).openEnds p w + (s.tasks t).openEnds p w =
      s.openEnds p w + k.openEnds p w := openEnds_put
  have hk := h p w
  have hle := openEnds_task_le (s := s) (t := t) (p := p) (w := w)
  unfold taskEnds at hk
  omega

theorem balanced_refl {n n' : PipeId → Bool → Nat} (h : ∀ p w, n p w = n' p w) :
    Balanced ps n ps n' := fun p w => by rw [h]

theorem balanced_put_same (h : ∀ p w, (s.tasks t).openEnds p w = k.openEnds p w) :
    Balanced s.pipes s.openEnds s.pipes (s.put s.pipes t k).openEnds :=
  balanced_put (balanced_refl h)

theorem idle_pc (h : Idle s t) (f : Fd) : (s.tasks t).pc ≠ .closing f := by
  rw [h.2]
  exact Pc.noConfusion

theorem idle_life (h : Idle s t) : (s.tasks t).life ≠ .unused := by
  rw [h.1]
  exact Life.noConfusion

theorem taskEnds_idle (h : Idle s t) : taskEnds (s.tasks t) = tableEnds (s.tasks t).fds := by
  funext p w
  exact openEnds_of_pc (idle_life h) (idle_pc h)

theorem Sound.covers_table (hs : Sound s) (h : Idle s t) :
    Covers s.pipes (tableEnds (s.tasks t).fds) := by
  intro p w
  have hle := openEnds_task_le (s := s) (t := t) (p := p) (w := w)
  have hc := hs.covers p w
  have he : (s.tasks t).openEnds p w = tableEnds (s.tasks t).fds p w :=
    congrFun (congrFun (taskEnds_idle h) p) w
  omega

theorem Sound.used_of_entry (hs : Sound s) (h : Idle s t) {f : Fd} (ht : ((s.tasks t).fds f).type = .pipe)
    (hd : ((s.tasks t).fds f).data = some p) : (s.pipes p).used = true := by
  have hw : ((s.tasks t).fds f).weight p ((s.tasks t).fds f).writable = 1 := by
    rw [weight_of_data ht hd, if_pos ⟨rfl, rfl⟩]
  have hle := weight_le_ends (T := (s.tasks t).fds) (f := f) (p := p)
    (w := ((s.tasks t).fds f).writable)
  have hc := hs.covers_table h p ((s.tasks t).fds f).writable
  unfold tableEnds at hc
  refine (hs.pool p).used_iff.mpr ?_
  cases hb : ((s.tasks t).fds f).writable
  · rw [hb] at hw hle hc
    exact .inl (by omega)
  · rw [hb] at hw hle hc
    exact .inr (by omega)

/-! ## Each step -/

theorem pipeRead_keeps {q : Pipe} {n : Nat} :
    (pipeRead q n).2.used = q.used ∧ ∀ w, (pipeRead q n).2.ref w = q.ref w := by
  unfold pipeRead
  split
  · exact ⟨rfl, fun _ => rfl⟩
  · split <;> exact ⟨rfl, fun _ => rfl⟩

theorem pipeWrite_keeps {q : Pipe} {data : List U8} :
    (pipeWrite q data).2.used = q.used ∧ ∀ w, (pipeWrite q data).2.ref w = q.ref w := by
  unfold pipeWrite
  split
  · exact ⟨rfl, fun _ => rfl⟩
  · split <;> exact ⟨rfl, fun _ => rfl⟩

theorem turnOf_keeps {r : Turn} {q : Pipe} (h : turnOf s t = some (p, r, q)) :
    q.used = (s.pipes p).used ∧ ∀ w, q.ref w = (s.pipes p).ref w := by
  rcases turnOf_eq_some h with ⟨n, -, he⟩ | ⟨data, -, he⟩
  · obtain rfl : q = (pipeRead (s.pipes p) n).2 := congrArg Prod.snd he
    exact pipeRead_keeps
  · obtain rfl : q = (pipeWrite (s.pipes p) data).2 := congrArg Prod.snd he
    exact pipeWrite_keeps

theorem turned_held {r : Turn} (hl : k.life ≠ .unused) (hpc : ∀ f, k.pc ≠ .closing f) :
    (k.turned r).openEnds p w = k.openEnds p w := by
  cases r with
  | sleeps => rfl
  | returns r bytes =>
    have hl' : ((k.turned (.returns r bytes)).life) ≠ .unused := hl
    rw [openEnds_of_pc hl hpc, openEnds_of_pc hl' fun f => Pc.noConfusion]
    rfl

theorem balanced_pipe (hs : Sound s) (mem : Bool) :
    Balanced s.pipes (tableEnds (s.tasks t).fds) (fdPipe s.pipes (s.tasks t).fds mem).2.1
      (tableEnds (fdPipe s.pipes (s.tasks t).fds mem).2.2) := by
  rcases fdPipe_cases s.pipes (s.tasks t).fds mem with he | ⟨p, hu, q, he⟩ |
    ⟨p, r, v, hu, hne, hr, hv, -, -, he⟩
  · rw [he]
    exact fun _ _ => rfl
  · rw [he]
    intro p' w
    by_cases hp : p' = p
    · subst hp
      have h0 := (hs.pool p').ref_of_free (w := w) hu
      have h1 := (pipeOk_free (q := q)).ref_of_free (w := w) rfl
      simp only [Function.update_self]
      omega
    · simp only [Function.update_of_ne hp]
  · rw [he]
    intro p' w
    have h1 := ends_update (p := p') (w := w) (T := Function.update (s.tasks t).fds r (.pipeEnd p false))
      (f := v) (e := .pipeEnd p true)
    have h2 := ends_update (p := p') (w := w) (T := (s.tasks t).fds) (f := r) (e := .pipeEnd p false)
    rw [Function.update_of_ne (Ne.symm hne), weight_pipeEnd] at h1
    rw [weight_pipeEnd] at h2
    have hwr : ((s.tasks t).fds r).weight p' w = 0 :=
      weight_of_not_pipe fun h' => by rw [hr] at h'; cases h'
    have hwv : ((s.tasks t).fds v).weight p' w = 0 :=
      weight_of_not_pipe fun h' => by rw [hv] at h'; cases h'
    unfold tableEnds
    by_cases hp : p' = p
    · subst hp
      have h0 := (hs.pool p').ref_of_free (w := w) hu
      have hnew : newPipe.ref w = 1 := by cases w <;> rfl
      simp only [Function.update_self]
      cases w <;> simp only [Bool.false_eq_true, Bool.true_eq_false, and_true, and_false, if_true,
        if_false] at h1 h2 <;> omega
    · rw [if_neg fun h' => hp h'.1.symm] at h1 h2
      simp only [Function.update_of_ne hp]
      omega

theorem pipeOk_fdPipe {T : Table} {mem : Bool} (h : ∀ p, PipeOk (ps p)) (p : PipeId) :
    PipeOk ((fdPipe ps T mem).2.1 p) := by
  rcases fdPipe_cases ps T mem with he | ⟨p', -, q, he⟩ | ⟨p', r, v, -, -, -, -, -, -, he⟩
  · rw [he]
    exact h p
  · rw [he]
    by_cases hp : p = p'
    · subst hp
      simp only [Function.update_self]
      exact pipeOk_free
    · simp only [Function.update_of_ne hp]
      exact h p
  · rw [he]
    by_cases hp : p = p'
    · subst hp
      simp only [Function.update_self]
      exact pipeOk_newPipe
    · simp only [Function.update_of_ne hp]
      exact h p

theorem fdOpen_cases (T : Table) (ok writing : Bool) :
    fdOpen T ok writing = T ∨
      ∃ f, (T f).type = .free ∧ fdOpen T ok writing = Function.update T f ⟨.file, writing, none⟩ := by
  unfold fdOpen
  split
  · rename_i f fs hf
    have hmem : f ∈ freeFds T := hf ▸ List.mem_cons_self
    exact .inr ⟨f, of_decide_eq_true (List.mem_filter.mp hmem).2, rfl⟩
  · exact .inl rfl

theorem fdOpen_type (T : Table) (ok writing : Bool) (f : Fd) :
    ((fdOpen T ok writing) f).type = .pipe ↔ (T f).type = .pipe := by
  rcases fdOpen_cases T ok writing with he | ⟨g, hg, he⟩
  · rw [he]
  · rw [he]
    by_cases hf : f = g
    · subst hf
      rw [Function.update_self, hg]
      exact iff_of_false FdType.noConfusion FdType.noConfusion
    · rw [Function.update_of_ne hf]

theorem ends_fdOpen (T : Table) (ok writing : Bool) : ends p w (fdOpen T ok writing) = ends p w T := by
  rcases fdOpen_cases T ok writing with he | ⟨f, hf, he⟩
  · rw [he]
  · have h := ends_update (p := p) (w := w) (T := T) (f := f) (e := ⟨.file, writing, none⟩)
    have hfile : Entry.weight p w ⟨.file, writing, none⟩ = 0 := weight_of_not_pipe FdType.noConfusion
    have hfree : (T f).weight p w = 0 := weight_of_not_pipe fun h' => by rw [hf] at h'; cases h'
    rw [he]
    omega

theorem balanced_table (h : Idle s t) (hl : k.life ≠ .unused)
    (hpc : ∀ f, k.pc ≠ .closing f)
    (hb : Balanced s.pipes (tableEnds (s.tasks t).fds) ps (tableEnds k.fds)) :
    Balanced s.pipes s.openEnds ps (s.put ps t k).openEnds := by
  apply balanced_put
  rw [taskEnds_idle h]
  have hk : taskEnds k = tableEnds k.fds := by
    funext p w
    exact openEnds_of_pc hl hpc
  rwa [hk]

theorem balanced_cut (h : Idle s t) (hl : k.life ≠ .unused) {f : Fd} (hpc : k.pc = .closing f)
    (hb : Balanced s.pipes (tableEnds (s.tasks t).fds) ps
      (tableEnds (Function.update k.fds f .free))) :
    Balanced s.pipes s.openEnds ps (s.put ps t k).openEnds := by
  apply balanced_put
  rw [taskEnds_idle h]
  have hk : taskEnds k = tableEnds (Function.update k.fds f .free) := by
    funext p w
    exact openEnds_closing hl hpc
  rwa [hk]

theorem fork_counts (hs : Sound s) {c : TaskId} (hc : freeSlot s = some c) (p : PipeId)
    (w : Bool) :
    let r := fdTableDup s.pipes (s.tasks t).fds
    let s' := s.put r.1 c ⟨.live, true, r.2, .user⟩
    (s'.pipes p).ref w = min ((s.pipes p).ref w + ends p w (s.tasks t).fds) 0xFFFF ∧
      s'.openEnds p w = s.openEnds p w + ends p w (s.tasks t).fds := by
  intro r s'
  refine ⟨ref_fdTableDup ((hs.pool p).fits w), ?_⟩
  have hp : s'.openEnds p w + (s.tasks c).openEnds p w =
      s.openEnds p w + Task.openEnds p w ⟨.live, true, r.2, .user⟩ := openEnds_put
  have hk : Task.openEnds p w ⟨.live, true, r.2, .user⟩ = ends p w (s.tasks t).fds :=
    (openEnds_user Life.noConfusion rfl).trans (@ends_fdTableDup s.pipes (s.tasks t).fds p w)
  rw [openEnds_unused (freeSlot_unused hc), hk] at hp
  exact hp

theorem openEnds_forget (hl : k.life = .unused) :
    (s.put ps t k).openEnds p w + (s.tasks t).openEnds p w = s.openEnds p w := by
  have hp : (s.put ps t k).openEnds p w + (s.tasks t).openEnds p w =
      s.openEnds p w + k.openEnds p w := openEnds_put
  rwa [openEnds_unused hl] at hp

theorem closeAll_before {T : Table} (f : Fd) :
    (closeAll ps T (userFds.filter (· < f))).2 f = T f := by
  refine closeAll_of_not_mem _ fun h => ?_
  have hlt := (List.mem_filter.mp h).2
  exact absurd (of_decide_eq_true hlt) (lt_irrefl f)

theorem balanced_exitCut (hs : Sound s) {f : Fd} {mid : Bool} (h : Allowed s (.exitCut t f mid)) :
    Balanced s.pipes s.openEnds (s.run (.exitCut t f mid)).pipes
      (s.run (.exitCut t f mid)).openEnds := by
  obtain ⟨hi, -, -, -, hmid⟩ := h
  have hc := hs.covers_table hi
  have hall := balanced_closeAll (userFds.filter (· < f)) hc
  have hpc := idle_pc hi
  cases mid with
  | false =>
    exact balanced_table hi Life.noConfusion hpc
      (hall.trans (balanced_closeEntry (hall.covers hc) 0))
  | true =>
    have hf : ((closeAll s.pipes (s.tasks t).fds (userFds.filter (· < f))).2 f).type = .pipe := by
      rw [closeAll_before]
      exact hmid rfl
    exact balanced_cut hi Life.noConfusion rfl (hall.trans (balanced_pipeClose hf (hall.covers hc)))

theorem balanced_same {n : PipeId → Bool → Nat} : Balanced ps n ps n := fun _ _ => rfl

theorem balanced_turn (h : (s.tasks t).life = .live) :
    Balanced s.pipes s.openEnds (s.run (.turn t)).pipes (s.run (.turn t)).openEnds := by
  have hl : (s.tasks t).life ≠ .unused := by
    rw [h]
    exact Life.noConfusion
  rcases run_turn s t with he | ⟨p, r, q, ht, he⟩
  · rw [he]
    exact balanced_same
  · rw [he]
    have hpc : ∀ f, (s.tasks t).pc ≠ .closing f := by
      rcases turnOf_eq_some ht with ⟨n, hpc, -⟩ | ⟨data, hpc, -⟩
      · exact fun f => hpc ▸ Pc.noConfusion
      · exact fun f => hpc ▸ Pc.noConfusion
    have href := (turnOf_keeps ht).2
    refine balanced_put fun p' w => ?_
    rw [taskEnds, taskEnds, turned_held hl hpc, put_pipes]
    by_cases hp : p' = p
    · subst hp
      rw [Function.update_self, href]
    · rw [Function.update_of_ne hp]

theorem balanced_finishClose (h : Allowed s (.finishClose t)) :
    Balanced s.pipes s.openEnds (s.run (.finishClose t)).pipes (s.run (.finishClose t)).openEnds := by
  obtain ⟨hl, f, hpc⟩ := h
  have hl' : (s.tasks t).life ≠ .unused := by
    rw [hl]
    exact Life.noConfusion
  rw [run_finishClose hpc]
  refine balanced_put_same fun p w => ?_
  rw [openEnds_closing hl' hpc]
  exact (openEnds_user (k := ⟨_, _, Function.update (s.tasks t).fds f .free, .user⟩) hl' rfl).symm

theorem balanced_pc (h : Idle s t) {pc : Pc} (hpc : ∀ f, pc ≠ .closing f) :
    Balanced s.pipes s.openEnds s.pipes (s.put s.pipes t { s.tasks t with pc := pc }).openEnds :=
  balanced_table h (idle_life h) hpc balanced_same

theorem Step.balanced {s s' : State} {o : Op} (hs : Sound s) (h : Step s o s')
    (ho : match o with | .fork _ _ | .waitPid _ _ | .reapZombie _ => False | _ => True) :
    Balanced s.pipes s.openEnds s'.pipes s'.openEnds := by
  obtain ⟨ha, rfl⟩ := h
  cases o with
  | create isUser =>
    rcases run_create s isUser with he | ⟨c, hc, he⟩
    · rw [he]
      exact balanced_same
    · rw [he]
      refine balanced_put_same fun p w => ?_
      rw [openEnds_unused (freeSlot_unused hc), openEnds_user Life.noConfusion rfl, ends_init]
  | pipe t mem => exact balanced_table ha.1 (idle_life ha.1) (idle_pc ha.1) (balanced_pipe hs mem)
  | openFile t ok writing =>
    exact balanced_table ha (idle_life ha) (idle_pc ha)
      (balanced_refl fun p w => (ends_fdOpen (s.tasks t).fds ok writing).symm)
  | close t fd rc =>
    exact balanced_table ha (idle_life ha) (idle_pc ha) (balanced_fdClose (hs.covers_table ha) fd rc)
  | closeCut t f =>
    exact balanced_cut ha.1 (idle_life ha.1) rfl (balanced_pipeClose ha.2 (hs.covers_table ha.1))
  | finishClose t => exact balanced_finishClose ha
  | fork t mem => exact ho.elim
  | read t fd n =>
    rcases run_read s t fd n with he | ⟨p, -, he⟩
    · rw [he]
      exact balanced_same
    · rw [he]
      exact balanced_pc ha fun _ => Pc.noConfusion
  | write t fd data =>
    rcases run_write s t fd data with he | ⟨p, -, he⟩
    · rw [he]
      exact balanced_same
    · rw [he]
      exact balanced_pc ha fun _ => Pc.noConfusion
  | turn t => exact balanced_turn ha
  | exit t =>
    exact balanced_table ha.1 Life.noConfusion (idle_pc ha.1)
      (balanced_closeAll userFds (hs.covers_table ha.1))
  | exitCut t f mid => exact balanced_exitCut hs ha
  | waitPid t z => exact ho.elim
  | taskExit t => exact balanced_table ha.1 Life.noConfusion (idle_pc ha.1) balanced_same
  | reapZombie z => exact ho.elim

theorem PipeOk.congr {q q' : Pipe} (h : PipeOk q) (hq : q'.used = q.used ∧ ∀ w, q'.ref w = q.ref w) :
    PipeOk q' := by
  refine ⟨?_, fun w => ?_⟩
  · rw [hq.1, hq.2, hq.2]
    exact h.used_iff
  · rw [hq.2]
    exact h.fits w

theorem Step.pool {s' : State} {o : Op} (hs : Sound s) (h : Step s o s') (p : PipeId) :
    PipeOk (s'.pipes p) := by
  obtain ⟨ha, rfl⟩ := h
  have hp := hs.pool p
  cases o with
  | create isUser => rcases run_create s isUser with he | ⟨c, -, he⟩ <;> rwa [he]
  | pipe t mem => exact pipeOk_fdPipe hs.pool p
  | openFile t ok writing => exact hp
  | close t fd rc => exact pipeOk_fdClose hs.pool p
  | closeCut t f => exact pipeOk_pipeClose hs.pool p
  | finishClose t =>
    obtain ⟨-, f, hpc⟩ := ha
    rwa [run_finishClose hpc]
  | fork t mem =>
    rcases run_fork s t mem with he | ⟨c, -, he⟩
    · rwa [he]
    · rw [he]
      exact pipeOk_dupAll _ hs.pool (fun f p => hs.used_of_entry ha.1) p
  | read t fd n => rcases run_read s t fd n with he | ⟨p', -, he⟩ <;> rwa [he]
  | write t fd data => rcases run_write s t fd data with he | ⟨p', -, he⟩ <;> rwa [he]
  | turn t =>
    rcases run_turn s t with he | ⟨p', r, q, ht, he⟩
    · rwa [he]
    · rw [he, put_pipes]
      by_cases hp' : p = p'
      · subst hp'
        rw [Function.update_self]
        exact hp.congr (turnOf_keeps ht)
      · rwa [Function.update_of_ne hp']
  | exit t => exact pipeOk_closeAll userFds hs.pool p
  | exitCut t f mid =>
    have hall := pipeOk_closeAll (T := (s.tasks t).fds) (userFds.filter (· < f)) hs.pool
    cases mid with
    | false => exact pipeOk_closeEntry hall 0 p
    | true => exact pipeOk_pipeClose hall p
  | waitPid t z => exact hp
  | taskExit t => exact hp
  | reapZombie z => exact pipeOk_closeAll userFds hs.pool p

theorem covers_reapZombie (hs : Sound s) {z : TaskId} (h : Allowed s (.reapZombie z)) :
    Covers (s.run (.reapZombie z)).pipes (s.run (.reapZombie z)).openEnds := by
  obtain ⟨hz, hu⟩ := h
  have hpc := hs.calm z hz (Bool.eq_false_iff.mpr hu)
  have hl : (s.tasks z).life ≠ .unused := by
    rw [hz]
    exact Life.noConfusion
  intro p w
  have he : ∀ p w, (s.tasks z).openEnds p w = ends p w (s.tasks z).fds := fun p w =>
    openEnds_user hl hpc
  have hc : Covers s.pipes (tableEnds (s.tasks z).fds) := fun p w =>
    (he p w).symm.le.trans (openEnds_task_le.trans (hs.covers p w))
  have hb := balanced_closeAll userFds hc p w
  have hk : (s.run (.reapZombie z)).openEnds p w + (s.tasks z).openEnds p w = s.openEnds p w :=
    openEnds_forget rfl
  rw [he] at hk
  have hle := hs.covers p w
  have hrun : (s.run (.reapZombie z)).pipes = (closeAll s.pipes (s.tasks z).fds userFds).1 := rfl
  unfold tableEnds at hb
  rw [hrun]
  omega

theorem Step.covers {s' : State} {o : Op} (hs : Sound s) (h : Step s o s') :
    Covers s'.pipes s'.openEnds := by
  cases o with
  | fork t mem =>
    obtain ⟨ha, rfl⟩ := h
    rcases run_fork s t mem with he | ⟨c, hc, he⟩
    · rw [he]
      exact hs.covers
    · rw [he]
      intro p w
      obtain ⟨href, hopen⟩ := fork_counts (t := t) hs hc p w
      have hle := hs.covers p w
      have hmax := openEnds_le (s := s.put (fdTableDup s.pipes (s.tasks t).fds).1 c
        ⟨.live, true, (fdTableDup s.pipes (s.tasks t).fds).2, .user⟩) (p := p) (w := w)
      rw [href]
      omega
  | waitPid t z =>
    obtain ⟨-, rfl⟩ := h
    intro p w
    have hk : (s.run (.waitPid t z)).openEnds p w + (s.tasks z).openEnds p w = s.openEnds p w :=
      openEnds_forget rfl
    exact (Nat.le_of_add_right_le hk.le).trans (hs.covers p w)
  | reapZombie z =>
    obtain ⟨ha, rfl⟩ := h
    exact covers_reapZombie hs ha
  | _ => exact (h.balanced hs trivial).covers hs.covers

theorem calm_put (hs : Sound s) (hk : k.Calm) (i : TaskId) : ((s.put ps t k).tasks i).Calm := by
  by_cases hi : i = t
  · subst hi
    rwa [put_tasks_self]
  · rw [put_tasks_ne s ps k hi]
    exact hs.calm i

theorem calm_of_life (h : k.life ≠ .zombie) : k.Calm := fun hz => absurd hz h

theorem calm_of_live (h : k.life = .live) : k.Calm := calm_of_life (by rw [h]; exact Life.noConfusion)

theorem calm_of_user (h : k.isUser = true) : k.Calm := fun _ hu => by
  rw [h] at hu
  cases hu

theorem Step.calm {s' : State} {o : Op} (hs : Sound s) (h : Step s o s') (i : TaskId) :
    (s'.tasks i).Calm := by
  obtain ⟨ha, rfl⟩ := h
  have hi := hs.calm i
  cases o with
  | create isUser =>
    rcases run_create s isUser with he | ⟨c, -, he⟩
    · rwa [he]
    · rw [he]
      exact calm_put hs (calm_of_live rfl) i
  | finishClose t =>
    obtain ⟨hl, f, hpc⟩ := ha
    rw [run_finishClose hpc]
    refine calm_put hs (calm_of_live ?_) i
    exact hl
  | fork t mem =>
    rcases run_fork s t mem with he | ⟨c, -, he⟩
    · rwa [he]
    · rw [he]
      exact calm_put hs (calm_of_live rfl) i
  | read t fd n =>
    rcases run_read s t fd n with he | ⟨p, -, he⟩
    · rwa [he]
    · rw [he]
      refine calm_put hs (calm_of_live ?_) i
      exact ha.1
  | write t fd data =>
    rcases run_write s t fd data with he | ⟨p, -, he⟩
    · rwa [he]
    · rw [he]
      refine calm_put hs (calm_of_live ?_) i
      exact ha.1
  | turn t =>
    rcases run_turn s t with he | ⟨p, r, q, -, he⟩
    · rwa [he]
    · rw [he]
      exact calm_put hs (calm_of_live ((turned_life _ _).trans ha)) i
  | exitCut t f mid =>
    cases mid
    all_goals
      refine calm_put hs (calm_of_user ?_) i
      exact ha.2.1
  | exit t =>
    refine calm_put hs (calm_of_user ?_) i
    exact ha.2
  | taskExit t =>
    refine calm_put hs (fun _ _ => ?_) i
    exact ha.1.2
  | waitPid t z => exact calm_put hs (calm_of_life Life.noConfusion) i
  | reapZombie z => exact calm_put hs (calm_of_life Life.noConfusion) i
  | pipe t mem | closeCut t f =>
    refine calm_put hs (calm_of_live ?_) i
    exact ha.1.1
  | openFile t ok writing | close t fd rc =>
    refine calm_put hs (calm_of_live ?_) i
    exact ha.1

theorem Sound.step {s' : State} {o : Op} (hs : Sound s) (h : Step s o s') : Sound s' :=
  ⟨h.pool hs, h.covers hs, h.calm hs⟩

theorem openEnds_boot : boot.openEnds p w = 0 := by
  refine total_eq_zero.mpr fun i => ?_
  unfold Task.openEnds
  split
  · rfl
  · exact ends_init

theorem sound_boot : Sound boot where
  pool _ := pipeOk_bss
  covers _ _ := openEnds_boot.le.trans (Nat.zero_le _)
  calm _ _ _ := rfl

end Ezos.Proc
