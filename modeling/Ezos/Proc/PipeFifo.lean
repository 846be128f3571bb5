import Ezos.Proc.PipeLedger

/-!
# A pipe is a queue

Beside the state stands what the reads have returned and the writes have accepted since the pipe was
made. The bytes of the ring are the difference.
-/

namespace Ezos.Proc

open Lib

set_option autoImplicit false

variable {s : State} {t : TaskId} {k : Task} {ps : Pipes} {p : PipeId} {q : Pipe} {n : Nat}
  {data bs : List U8}

def Pipe.bytes (q : Pipe) : List U8 := Ring.contents q.buf pipeBuf q.tail (q.tail + q.count)

structure RingOk (q : Pipe) : Prop where
  room : q.count ≤ pipeBuf
  head_eq : q.head = (q.tail + q.count) % pipeBuf

def Turn.bytes : Turn → List U8
  | .returns _ bytes => bytes
  | .sleeps => []

theorem bytes_of_empty (h : q.count = 0) : q.bytes = [] :=
  Ring.contents_eq_nil (by rw [h, Nat.add_zero])

theorem copyOut_eq {buf : Nat → U8} {tail k : Nat} :
    copyOut buf tail k = Ring.contents buf pipeBuf tail (tail + k) := by
  rw [Ring.contents, Nat.add_sub_cancel_left]
  rfl

theorem contents_copyIn {buf : Nat → U8} {lo hi head : Nat} (hle : lo ≤ hi)
    (hhead : head % pipeBuf = hi % pipeBuf) (hroom : hi - lo + bs.length ≤ pipeBuf) :
    Ring.contents (copyIn buf head bs) pipeBuf lo (hi + bs.length) =
      Ring.contents buf pipeBuf lo hi ++ bs := by
  induction bs generalizing buf head hi with
  | nil => rw [copyIn, List.length_nil, Nat.add_zero, List.append_nil]
  | cons b bs ih =>
    rw [List.length_cons] at hroom ⊢
    have hnext : (head + 1) % pipeBuf = (hi + 1) % pipeBuf := by
      rw [Nat.add_mod, hhead, ← Nat.add_mod]
    have h := @ih (Ring.put buf (head % pipeBuf) b) (hi + 1) (head + 1) (hle.trans (Nat.le_succ hi))
      hnext (by omega)
    rw [hhead, Ring.contents_push hle (by omega)] at h
    rw [copyIn, hhead, ← Nat.add_assoc, Nat.add_right_comm, h, List.append_assoc]
    rfl

theorem ringOk_of_empty (ht : q.tail = 0) (hc : q.count = 0) (hh : q.head = 0) : RingOk q := by
  refine ⟨?_, ?_⟩
  · rw [hc]
    exact Nat.zero_le _
  · rw [ht, hc, hh]
    rfl

theorem pipeRead_cases (q : Pipe) (n : Nat) :
    (∃ k, k = min n q.count ∧ 0 < q.count ∧ pipeRead q n = (.returns k (copyOut q.buf q.tail k),
      { q with tail := (q.tail + k) % pipeBuf, count := q.count - k })) ∨
    (q.count = 0 ∧ q.refW = 0 ∧ pipeRead q n = (.returns 0 [], q)) ∨
    (q.count = 0 ∧ q.refW ≠ 0 ∧ pipeRead q n = (.sleeps, q)) := by
  by_cases hpos : 0 < q.count
  · refine .inl ⟨if n < q.count then n else q.count, by split <;> omega, hpos, ?_⟩
    exact if_pos hpos
  · by_cases hw : q.refW = 0
    · exact .inr (.inl ⟨by omega, hw, (if_neg hpos).trans (if_pos hw)⟩)
    · exact .inr (.inr ⟨by omega, hw, (if_neg hpos).trans (if_neg hw)⟩)

theorem pipeWrite_cases (q : Pipe) (data : List U8) :
    (q.refR = 0 ∧ pipeWrite q data = (.returns (-1) [], q)) ∨
    (∃ k, k = min data.length (pipeBuf - q.count) ∧ q.refR ≠ 0 ∧ q.count < pipeBuf ∧
      pipeWrite q data = (.returns k (data.take k),
        { q with
          buf := copyIn q.buf q.head (data.take k)
          head := (q.head + k) % pipeBuf
          count := q.count + k })) ∨
    (q.refR ≠ 0 ∧ pipeBuf ≤ q.count ∧ pipeWrite q data = (.sleeps, q)) := by
  by_cases hr : q.refR = 0
  · exact .inl ⟨hr, if_pos hr⟩
  · by_cases hc : q.count < pipeBuf
    · refine .inr (.inl ⟨if data.length < pipeBuf - q.count then data.length else pipeBuf - q.count,
        by split <;> omega, hr, hc, ?_⟩)
      exact (if_neg hr).trans (if_pos hc)
    · exact .inr (.inr ⟨hr, Nat.le_of_not_lt hc, (if_neg hr).trans (if_neg hc)⟩)

theorem pipeRead_ring (h : RingOk q) :
    RingOk (pipeRead q n).2 ∧ q.bytes = (pipeRead q n).1.bytes ++ (pipeRead q n).2.bytes := by
  rcases pipeRead_cases q n with ⟨k, hk, -, he⟩ | ⟨-, -, he⟩ | ⟨-, -, he⟩
  · have hsum : q.tail + q.count = q.tail + k + (q.count - k) := by omega
    rw [he]
    refine ⟨⟨(Nat.sub_le _ _).trans h.room, ?_⟩, ?_⟩
    · simp only [h.head_eq, Nat.mod_add_mod, hsum]
    · simp only [Turn.bytes, Pipe.bytes, copyOut_eq, Ring.contents_mod]
      rw [← hsum]
      exact Ring.contents_append _ (Nat.le_add_right _ _) (by omega)
  · rw [he]
    exact ⟨h, rfl⟩
  · rw [he]
    exact ⟨h, rfl⟩

theorem pipeWrite_ring (h : RingOk q) :
    RingOk (pipeWrite q data).2 ∧ (pipeWrite q data).2.bytes = q.bytes ++ (pipeWrite q data).1.bytes := by
  have hroom := h.room
  rcases pipeWrite_cases q data with ⟨-, he⟩ | ⟨k, hk, -, -, he⟩ | ⟨-, -, he⟩
  · rw [he]
    exact ⟨h, (List.append_nil _).symm⟩
  · rw [he]
    refine ⟨⟨by simp only; omega, ?_⟩, ?_⟩
    · simp only [h.head_eq, Nat.mod_add_mod, Nat.add_assoc]
    · have hlen : (data.take k).length = k := List.length_take_of_le (by omega)
      have hc : Ring.contents (copyIn q.buf q.head (data.take k)) pipeBuf q.tail
          (q.tail + q.count + (data.take k).length) = q.bytes ++ data.take k :=
        contents_copyIn (Nat.le_add_right _ _) (by rw [h.head_eq, Nat.mod_mod]) (by omega)
      rwa [hlen, Nat.add_assoc] at hc
  · rw [he]
    exact ⟨h, (List.append_nil _).symm⟩

structure Traffic where
  accepted : PipeId → List U8
  returned : PipeId → List U8

def noTraffic : Traffic := ⟨fun _ => [], fun _ => []⟩

def Traffic.reset (l : Traffic) (p : PipeId) : Traffic :=
  ⟨Function.update l.accepted p [], Function.update l.returned p []⟩

def Traffic.accept (l : Traffic) (p : PipeId) (bs : List U8) : Traffic :=
  { l with accepted := Function.update l.accepted p (l.accepted p ++ bs) }

def Traffic.deliver (l : Traffic) (p : PipeId) (bs : List U8) : Traffic :=
  { l with returned := Function.update l.returned p (l.returned p ++ bs) }

def Traffic.after (l : Traffic) (s : State) : Op → Traffic
  | .pipe t mem =>
    match (fdPipe s.pipes (s.tasks t).fds mem).1 with
    | some (_, _, p) => l.reset p
    | none => l
  | .turn t =>
    match (s.tasks t).pc with
    | .reading p n => l.deliver p (pipeRead (s.pipes p) n).1.bytes
    | .writing p data => l.accept p (pipeWrite (s.pipes p) data).1.bytes
    | _ => l
  | _ => l

def TracedStep (x : State × Traffic) (o : Op) (y : State × Traffic) : Prop :=
  Step x.1 o y.1 ∧ y.2 = x.2.after x.1 o

structure Fifo (ps : Pipes) (l : Traffic) : Prop where
  ring : ∀ p, RingOk (ps p)
  bytes : ∀ p, (ps p).used = true → l.accepted p = l.returned p ++ (ps p).bytes

/-! ## Steps that move no byte -/

def Quiet (q q' : Pipe) : Prop :=
  (q'.used = q.used ∧ q'.head = q.head ∧ q'.tail = q.tail ∧ q'.count = q.count ∧ q'.buf = q.buf) ∨
    (q'.used = false ∧ q'.head = 0 ∧ q'.tail = 0 ∧ q'.count = 0)

theorem Quiet.refl (q : Pipe) : Quiet q q := .inl ⟨rfl, rfl, rfl, rfl, rfl⟩

theorem Quiet.trans {q q' q'' : Pipe} (h : Quiet q q') (h' : Quiet q' q'') : Quiet q q'' := by
  rcases h' with ⟨hu, hh, ht, hc, hb⟩ | h'
  · rcases h with ⟨hu', hh', ht', hc', hb'⟩ | ⟨hu', hh', ht', hc'⟩
    · exact .inl ⟨hu.trans hu', hh.trans hh', ht.trans ht', hc.trans hc', hb.trans hb'⟩
    · exact .inr ⟨hu.trans hu', hh.trans hh', ht.trans ht', hc.trans hc'⟩
  · exact .inr h'

theorem quiet_free : Quiet q (pipeFree q) := .inr ⟨rfl, rfl, rfl, rfl⟩

theorem quiet_drop {w : Bool} : Quiet q (q.drop w) := by
  cases w <;> exact .inl ⟨rfl, rfl, rfl, rfl, rfl⟩

theorem quiet_bump {w : Bool} : Quiet q (q.bump w) := by
  cases w <;> exact .inl ⟨rfl, rfl, rfl, rfl, rfl⟩

theorem quiet_update {q' : Pipe} (h : Quiet (ps p) q') (i : PipeId) :
    Quiet (ps i) (Function.update ps p q' i) := by
  by_cases hi : i = p
  · subst hi
    rwa [Function.update_self]
  · rw [Function.update_of_ne hi]
    exact .refl _

theorem quiet_pipeClose (e : Entry) (i : PipeId) : Quiet (ps i) (pipeClose ps e i) := by
  unfold pipeClose
  cases e.data with
  | none => exact .refl _
  | some p =>
    refine quiet_update ?_ i
    split
    · exact quiet_drop.trans quiet_free
    · exact quiet_drop

theorem quiet_closeEntry (T : Table) (f : Fd) (rc : Int) (i : PipeId) :
    Quiet (ps i) ((closeEntry ps T f rc).2.1 i) := by
  unfold closeEntry
  split
  · exact quiet_pipeClose _ i
  · exact .refl _
  · exact .refl _

theorem quiet_fdClose (T : Table) (fd rc : Int) (i : PipeId) :
    Quiet (ps i) ((fdClose ps T fd rc).2.1 i) := by
  unfold fdClose
  split
  · exact .refl _
  · exact quiet_closeEntry T _ rc i

theorem quiet_closeAll (T : Table) (fs : List Fd) (i : PipeId) :
    Quiet (ps i) ((closeAll ps T fs).1 i) := by
  induction fs generalizing ps T with
  | nil => exact .refl _
  | cons f fs ih => exact (quiet_closeEntry T f 0 i).trans (ih _)

theorem quiet_dupAll (T : Table) (fs : List Fd) (i : PipeId) : Quiet (ps i) (dupAll ps T fs i) := by
  induction fs generalizing ps with
  | nil => exact .refl _
  | cons f fs ih =>
    refine Quiet.trans ?_ ih
    rcases dupEntry_cases ps (T f) with ⟨p, -, -, he⟩ | ⟨he, -⟩
    · rw [he]
      exact quiet_update quiet_bump i
    · rw [he]
      exact .refl _

variable {l : Traffic}

theorem Fifo.quiet {ps' : Pipes} (h : Fifo ps l) (hq : ∀ i, Quiet (ps i) (ps' i)) : Fifo ps' l := by
  refine ⟨fun i => ?_, fun i hu => ?_⟩
  · rcases hq i with ⟨-, hh, ht, hc, -⟩ | ⟨-, hh, ht, hc⟩
    · refine ⟨?_, ?_⟩
      · rw [hc]
        exact (h.ring i).room
      · rw [hh, ht, hc]
        exact (h.ring i).head_eq
    · exact ringOk_of_empty ht hc hh
  · rcases hq i with ⟨hu', -, ht, hc, hb⟩ | ⟨hu', -⟩
    · rw [h.bytes i (hu'.symm.trans hu), Pipe.bytes, Pipe.bytes, ht, hc, hb]
    · exact absurd (hu'.symm.trans hu) Bool.false_ne_true

theorem Fifo.update {l' : Traffic} (h : Fifo ps l) (hr : RingOk q)
    (hb : q.used = true → l'.accepted p = l'.returned p ++ q.bytes)
    (hl : ∀ i, i ≠ p → l'.accepted i = l.accepted i ∧ l'.returned i = l.returned i) :
    Fifo (Function.update ps p q) l' := by
  refine ⟨fun i => ?_, fun i hu => ?_⟩
  · by_cases hi : i = p
    · subst hi
      rwa [Function.update_self]
    · rw [Function.update_of_ne hi]
      exact h.ring i
  · by_cases hi : i = p
    · subst hi
      rw [Function.update_self] at hu ⊢
      exact hb hu
    · rw [Function.update_of_ne hi] at hu ⊢
      rw [(hl i hi).1, (hl i hi).2]
      exact h.bytes i hu

theorem fifo_pipe (h : Fifo s.pipes l) (t : TaskId) (mem : Bool) :
    Fifo (s.run (.pipe t mem)).pipes (l.after s (.pipe t mem)) := by
  rcases fdPipe_cases s.pipes (s.tasks t).fds mem with he | ⟨p, -, q, he⟩ |
    ⟨p, r, v, -, -, -, -, -, -, he⟩
  · simp only [Traffic.after, State.run, he, put_pipes]
    exact h
  · simp only [Traffic.after, State.run, he, put_pipes]
    exact h.quiet fun i => quiet_update (.inr ⟨rfl, rfl, rfl, rfl⟩) i
  · simp only [Traffic.after, State.run, he, put_pipes]
    refine h.update (ringOk_of_empty rfl rfl rfl) (fun _ => ?_) fun i hi => ?_
    · simp only [Traffic.reset, Function.update_self]
      exact (bytes_of_empty (q := newPipe) rfl).symm
    · simp only [Traffic.reset, Function.update_of_ne hi]
      exact ⟨trivial, trivial⟩

theorem fifo_turn (h : Fifo s.pipes l) (t : TaskId) :
    Fifo (s.run (.turn t)).pipes (l.after s (.turn t)) := by
  cases hpc : (s.tasks t).pc with
  | user =>
    simp only [Traffic.after, State.run, turnOf, hpc]
    exact h
  | closing f =>
    simp only [Traffic.after, State.run, turnOf, hpc]
    exact h
  | reading p n =>
    simp only [Traffic.after, State.run, turnOf, hpc, put_pipes]
    obtain ⟨hr, hb⟩ := pipeRead_ring (n := n) (h.ring p)
    refine h.update hr (fun hu => ?_) fun i hi => ?_
    · rw [pipeRead_keeps.1] at hu
      simp only [Traffic.deliver, Function.update_self]
      rw [h.bytes p hu, hb, List.append_assoc]
    · simp only [Traffic.deliver, Function.update_of_ne hi]
      exact ⟨trivial, trivial⟩
  | writing p data =>
    simp only [Traffic.after, State.run, turnOf, hpc, put_pipes]
    obtain ⟨hr, hb⟩ := @pipeWrite_ring _ data (h.ring p)
    refine h.update hr (fun hu => ?_) fun i hi => ?_
    · rw [pipeWrite_keeps.1] at hu
      simp only [Traffic.accept, Function.update_self]
      rw [h.bytes p hu, hb, List.append_assoc]
    · simp only [Traffic.accept, Function.update_of_ne hi]
      exact ⟨trivial, trivial⟩

theorem Fifo.step {x y : State × Traffic} {o : Op} (h : Fifo x.1.pipes x.2) (hs : TracedStep x o y) :
    Fifo y.1.pipes y.2 := by
  obtain ⟨s, l⟩ := x
  obtain ⟨s', l'⟩ := y
  obtain ⟨⟨ha, rfl⟩, rfl⟩ := hs
  simp only at h ⊢
  cases o with
  | create isUser => rcases run_create s isUser with he | ⟨c, -, he⟩ <;> rwa [he]
  | pipe t mem => exact fifo_pipe h t mem
  | openFile t ok writing => exact h
  | close t fd rc => exact h.quiet (quiet_fdClose _ fd rc)
  | closeCut t f => exact h.quiet (quiet_pipeClose _)
  | finishClose t =>
    obtain ⟨-, f, hpc⟩ := ha
    rwa [run_finishClose hpc]
  | fork t mem =>
    rcases run_fork s t mem with he | ⟨c, -, he⟩
    · rwa [he]
    · rw [he]
      exact h.quiet (quiet_dupAll _ _)
  | read t fd n => rcases run_read s t fd n with he | ⟨p, -, he⟩ <;> rwa [he]
  | write t fd data => rcases run_write s t fd data with he | ⟨p, -, he⟩ <;> rwa [he]
  | turn t => exact fifo_turn h t
  | exit t => exact h.quiet (quiet_closeAll (s.tasks t).fds userFds)
  | exitCut t f mid =>
    have hall := @quiet_closeAll s.pipes (s.tasks t).fds (userFds.filter (· < f))
    cases mid with
    | false => exact h.quiet fun i => (hall i).trans (quiet_closeEntry _ f 0 i)
    | true => exact h.quiet fun i => (hall i).trans (quiet_pipeClose _ i)
  | waitPid t z => exact h
  | taskExit t => exact h
  | reapZombie z => exact h.quiet (quiet_closeAll (s.tasks z).fds userFds)

def Task.CallOk (k : Task) : Prop :=
  match k.pc with
  | .reading p n => k.life = .live ∧ 0 < n ∧ ∃ f, k.fds f = .pipeEnd p false
  | .writing p data => k.life = .live ∧ 0 < data.length ∧ ∃ f, k.fds f = .pipeEnd p true
  | _ => True

theorem callOk_user (h : k.pc = .user) : k.CallOk := by
  rw [Task.CallOk, h]
  trivial

theorem callOk_closing {f : Fd} (h : k.pc = .closing f) : k.CallOk := by
  rw [Task.CallOk, h]
  trivial

theorem callOk_reading (h : k.pc = .reading p n)
    (hk : k.life = .live ∧ 0 < n ∧ ∃ f, k.fds f = .pipeEnd p false) : k.CallOk := by
  rwa [Task.CallOk, h]

theorem callOk_writing (h : k.pc = .writing p data)
    (hk : k.life = .live ∧ 0 < data.length ∧ ∃ f, k.fds f = .pipeEnd p true) : k.CallOk := by
  rwa [Task.CallOk, h]

theorem Task.CallOk.forget (h : k.CallOk) (hl : k.life ≠ .live) {k' : Task} (hpc : k'.pc = k.pc) :
    k'.CallOk := by
  rw [Task.CallOk] at h ⊢
  rw [hpc]
  cases hk : k.pc with
  | reading p n =>
    rw [hk] at h
    exact absurd h.1 hl
  | writing p data =>
    rw [hk] at h
    exact absurd h.1 hl
  | _ => trivial

theorem callOk_put (hs : ∀ i, (s.tasks i).CallOk) (hk : k.CallOk) (i : TaskId) :
    ((s.put ps t k).tasks i).CallOk := by
  by_cases hi : i = t
  · subst hi
    rwa [put_tasks_self]
  · rw [put_tasks_ne s ps k hi]
    exact hs i

theorem Task.CallOk.turned (h : k.CallOk) (r : Turn) : (k.turned r).CallOk := by
  cases r with
  | sleeps => exact h
  | returns r bytes => exact callOk_user rfl

theorem Step.callOk {s' : State} {o : Op} (hs : ∀ i, (s.tasks i).CallOk) (h : Step s o s')
    (i : TaskId) : (s'.tasks i).CallOk := by
  obtain ⟨ha, rfl⟩ := h
  have hi := hs i
  cases o with
  | create isUser =>
    rcases run_create s isUser with he | ⟨c, -, he⟩
    · rwa [he]
    · rw [he]
      exact callOk_put hs (callOk_user rfl) i
  | finishClose t =>
    obtain ⟨hl, f, hpc⟩ := ha
    rw [run_finishClose hpc]
    exact callOk_put hs (callOk_user rfl) i
  | fork t mem =>
    rcases run_fork s t mem with he | ⟨c, -, he⟩
    · rwa [he]
    · rw [he]
      exact callOk_put hs (callOk_user rfl) i
  | read t fd n =>
    rcases run_read s t fd n with he | ⟨p, hp, he⟩
    · rwa [he]
    · rw [he]
      refine callOk_put hs (callOk_reading rfl ?_) i
      exact ⟨ha.1, hp⟩
  | write t fd data =>
    rcases run_write s t fd data with he | ⟨p, hp, he⟩
    · rwa [he]
    · rw [he]
      refine callOk_put hs (callOk_writing rfl ?_) i
      exact ⟨ha.1, hp⟩
  | turn t =>
    rcases run_turn s t with he | ⟨p, r, q, -, he⟩
    · rwa [he]
    · rw [he]
      exact callOk_put hs ((hs t).turned r) i
  | closeCut t f => exact callOk_put hs (callOk_closing rfl) i
  | exitCut t f mid =>
    cases mid with
    | true => exact callOk_put hs (callOk_closing rfl) i
    | false =>
      refine callOk_put hs (callOk_user ?_) i
      exact ha.1.2
  | waitPid t z =>
    refine callOk_put hs ?_ i
    refine (hs z).forget ?_ rfl
    rw [ha.2]
    exact Life.noConfusion
  | reapZombie z =>
    refine callOk_put hs ?_ i
    refine (hs z).forget ?_ rfl
    rw [ha.1]
    exact Life.noConfusion
  | pipe t mem | exit t | taskExit t =>
    refine callOk_put hs (callOk_user ?_) i
    exact ha.1.2
  | openFile t ok writing | close t fd rc =>
    refine callOk_put hs (callOk_user ?_) i
    exact ha.2

structure PipeFifo (s : State) (l : Traffic) : Prop where
  bytes : ∀ p, (s.pipes p).used = true → l.accepted p = l.returned p ++ (s.pipes p).bytes
  ring : ∀ p, (s.pipes p).count ≤ 4096 ∧
    (s.pipes p).head = ((s.pipes p).tail + (s.pipes p).count) % 4096
  eof : ∀ t p n bs, (s.tasks t).pc = .reading p n → (pipeRead (s.pipes p) n).1 = .returns 0 bs →
    (s.pipes p).bytes = [] ∧ s.openEnds p true = 0
  broken : ∀ t p data bs, (s.tasks t).pc = .writing p data →
    (pipeWrite (s.pipes p) data).1 = .returns (-1) bs → s.openEnds p false = 0
  /-- Without entering the loop a read returns 0 only for `n = 0`. -/
  read_enter : ∀ t fd n, fdReadEnter (s.tasks t).fds fd n = .returns 0 → n = 0
  /-- At a write end a write is not refused before the loop. -/
  write_enter : ∀ t fd f p n, fdOf fd = some f → (s.tasks t).fds f = .pipeEnd p true →
    fdWriteEnter (s.tasks t).fds fd n ≠ .returns (-1)

theorem fdReadEnter_zero {T : Table} {fd : Int} (h : fdReadEnter T fd n = .returns 0) : n = 0 := by
  by_contra hn
  unfold fdReadEnter at h
  repeat' split at h
  all_goals contradiction

theorem fdWriteEnter_end {T : Table} {fd : Int} {f : Fd} (hf : fdOf fd = some f)
    (hT : T f = .pipeEnd p true) : fdWriteEnter T fd n ≠ .returns (-1) := by
  by_cases hn : n = 0
  · simp only [fdWriteEnter, hf, hT, Entry.pipeEnd, hn, Bool.not_true, Bool.false_eq_true, if_false,
      if_true]
    exact fun h => absurd (Enter.returns.inj h) (by decide)
  · simp only [fdWriteEnter, hf, hT, Entry.pipeEnd, hn, Bool.not_true, Bool.false_eq_true, if_false]
    exact Enter.noConfusion

theorem eof_of_read (hs : Sound s) (hc : (s.tasks t).CallOk) (hpc : (s.tasks t).pc = .reading p n)
    (h : (pipeRead (s.pipes p) n).1 = .returns 0 bs) :
    (s.pipes p).bytes = [] ∧ s.openEnds p true = 0 := by
  rw [Task.CallOk, hpc] at hc
  have hn := hc.2.1
  rcases pipeRead_cases (s.pipes p) n with ⟨k, hk, hpos, he⟩ | ⟨hz, hw, -⟩ | ⟨-, -, he⟩
  · rw [he] at h
    have h0 : (k : Int) = 0 := (Turn.returns.inj h).1
    omega
  · have hcov := hs.covers p true
    have href : (s.pipes p).ref true = 0 := hw
    exact ⟨bytes_of_empty hz, by omega⟩
  · rw [he] at h
    cases h

theorem broken_of_write (hs : Sound s) (h : (pipeWrite (s.pipes p) data).1 = .returns (-1) bs) :
    s.openEnds p false = 0 := by
  rcases pipeWrite_cases (s.pipes p) data with ⟨hr, -⟩ | ⟨k, -, -, -, he⟩ | ⟨-, -, he⟩
  · have hcov := hs.covers p false
    have href : (s.pipes p).ref false = 0 := hr
    omega
  · rw [he] at h
    have h0 : (k : Int) = -1 := (Turn.returns.inj h).1
    omega
  · rw [he] at h
    cases h

structure Traced (x : State × Traffic) : Prop where
  sound : Sound x.1
  fifo : Fifo x.1.pipes x.2
  calls : ∀ i, (x.1.tasks i).CallOk

theorem Traced.step {x y : State × Traffic} {o : Op} (h : Traced x) (hs : TracedStep x o y) : Traced y :=
  ⟨h.sound.step hs.1, h.fifo.step hs, hs.1.callOk h.calls⟩

theorem traced_boot : Traced (boot, noTraffic) where
  sound := sound_boot
  fifo := ⟨fun _ => ringOk_of_empty rfl rfl rfl, fun _ h => by cases h⟩
  calls _ := callOk_user rfl

theorem Traced.pipeFifo {l : Traffic} (h : Traced (s, l)) : PipeFifo s l where
  bytes := h.fifo.bytes
  ring p := ⟨(h.fifo.ring p).room, (h.fifo.ring p).head_eq⟩
  eof t _ _ _ hpc he := eof_of_read h.sound (h.calls t) hpc he
  broken _ _ _ _ _ he := broken_of_write h.sound he
  read_enter _ _ _ he := fdReadEnter_zero he
  write_enter _ _ _ _ _ hf hT := fdWriteEnter_end hf hT

/-- In every run, whatever ends are duplicated, closed or abandoned, the pipes are queues. -/
theorem run_pipeFifo {ops : List Op} {l : Traffic} (h : Run TracedStep (boot, noTraffic) ops (s, l)) :
    PipeFifo s l :=
  (Run.invariant (I := Traced) Traced.step h traced_boot).pipeFifo

def tracedRun (x : State × Traffic) (o : Op) : State × Traffic := (x.1.run o, x.2.after x.1 o)

theorem one_lt_tasks : 1 < maxTasks := by decide
theorem two_lt_tasks : 2 < maxTasks := by decide
theorem zero_lt_pipes : 0 < pipeMax := by decide

def firstTask : TaskId := ⟨1, one_lt_tasks⟩
def secondTask : TaskId := ⟨2, two_lt_tasks⟩
def firstPipe : PipeId := ⟨0, zero_lt_pipes⟩

def forkOps : List Op :=
  [.create true, .pipe firstTask true, .write firstTask 4 [1, 2, 3], .turn firstTask,
    .fork firstTask true, .read secondTask 3 2, .turn secondTask]

def forked : State × Traffic := forkOps.foldl tracedRun (boot, noTraffic)

theorem run_pipeFifo_fork :
    PipeFifo forked.1 forked.2 ∧ forked.2.accepted firstPipe = [1, 2, 3] ∧
      forked.2.returned firstPipe = [1, 2] ∧ (forked.1.pipes firstPipe).bytes = [3] := by
  have hplays : Plays (fun x => Allowed x.1) tracedRun (boot, noTraffic) forkOps := by decide
  exact ⟨run_pipeFifo (Run.of_plays (fun _ _ ha => ⟨⟨ha, rfl⟩, rfl⟩) hplays), by decide,
    by decide, by decide⟩

end Ezos.Proc
