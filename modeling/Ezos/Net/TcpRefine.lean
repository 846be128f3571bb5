import Ezos.Net.TcpBlocks

/-!
# Every step of the table is a life of each slot

A slot of the table with the contents of its `rtx` is a `Conn`. Whatever the table does, each slot
takes a list of the events of `TcpLife`.
-/

namespace Ezos.Tcp

open Lib.Serial Lib

set_option autoImplicit false

structure SlotSane (s : Sock) : Prop where
  udp : s.used = true → s.type = .udp → s.state = .unused
  bufs : s.Connected → s.rtx ≠ 0 ∧ s.ooo ≠ 0

theorem SlotSane.of_idle {s : Sock} (h : s.state = .unused) : SlotSane s :=
  ⟨fun _ _ => h, fun hc => absurd h hc.2.1⟩

theorem SlotSane.of_not_used {s : Sock} (h : s.used = false) : SlotSane s :=
  ⟨fun hu => absurd (h.symm.trans hu) (by decide), fun hc => absurd (h.symm.trans hc.1) (by decide)⟩

theorem SlotSane.congr {s s' : Sock} (h : SlotSane s) (hu : s'.used = s.used) (ht : s'.type = s.type)
    (hs : s'.state = s.state) (hb : s'.rtx = s.rtx ∧ s'.ooo = s.ooo) : SlotSane s' := by
  refine ⟨?_, fun hc => ?_⟩
  · rw [hu, ht, hs]
    exact h.udp
  · rw [hb.1, hb.2]
    exact h.bufs ⟨hu ▸ hc.1, hs ▸ hc.2.1, hs ▸ hc.2.2⟩

theorem SlotSane.after {s : Sock} (h : SlotSane s) (buf : Nat → U8) {e : Event} (he : e.Enabled s) :
    SlotSane (s.after buf e) := by
  cases e with
  | fresh => exact .of_idle rfl
  | free => exact .of_idle rfl
  | port => exact .of_idle he
  | listen => exact ⟨fun _ ht => absurd (he.2.symm.trans ht) (by decide), fun hc => absurd rfl hc.2.2⟩
  | adopt => exact h.congr rfl rfl rfl ⟨rfl, rfl⟩
  | bufs rtx ooo ok =>
    refine ⟨?_, fun hc => ?_⟩
    · cases ok <;> exact h.udp
    · have hc' : s.Connected := by cases ok <;> exact hc
      exact absurd (he hc') (h.bufs hc').1
  | connect =>
    obtain ⟨-, ht, -, hb⟩ := he
    exact ⟨fun _ ht' => absurd (ht.symm.trans ht') (by decide), fun _ => hb⟩
  | passive => exact ⟨nofun, fun _ => he.2⟩
  | refuse => exact .of_not_used rfl
  | go => exact h.congr rfl rfl rfl ⟨rfl, rfl⟩
  | segment hp g ticks sent =>
    have hb := handleSegment_blocks s hp ticks g
    have hall : (s.after buf (.segment hp g ticks sent)).type = s.type ∧
        (s.after buf (.segment hp g ticks sent)).rtx = s.rtx ∧
        (s.after buf (.segment hp g ticks sent)).ooo = s.ooo := by
      rw [Sock.after]
      cases (handleSegment s hp ticks g).reply <;> exact ⟨hb.type, hb.block .rtx, hb.block .ooo⟩
    refine ⟨fun _ ht => ?_, fun hc => ?_⟩
    · exact absurd (he.2.1.symm.trans (hall.1.symm.trans ht)) (by decide)
    · rw [hall.2.1, hall.2.2]
      exact h.bufs (connected_of_segment he buf hc)
  | retransmit now sent =>
    rcases after_retransmit s buf now sent with ⟨hf, -⟩ | ⟨k, t, b, hk⟩
    · exact .of_not_used hf
    · rw [hk]
      exact h.congr rfl rfl rfl ⟨rfl, rfl⟩
  | send data ticks sent => cases sent <;> exact h.congr rfl rfl rfl ⟨rfl, rfl⟩
  | fin sent =>
    cases sent with
    | false => exact h.congr rfl rfl rfl ⟨rfl, rfl⟩
    | true =>
      exact ⟨fun _ ht => absurd (he.1.symm.trans ht) (by decide),
        fun hc => h.bufs (connected_of_open hc.1 he.2)⟩
  | reply data ticks sent => cases sent <;> exact h.congr rfl rfl rfl ⟨rfl, rfl⟩
  | recv => exact h.congr rfl rfl rfl ⟨rfl, rfl⟩

theorem SlotSane.run {c d : Conn} {es : List Event} (h : SlotSane c.sock) (hr : Run LifeStep c es d) :
    SlotSane d.sock := by
  refine Run.invariant (I := fun c => SlotSane c.sock) ?_ hr h
  intro c e d hi hstep
  rw [hstep.2.1]
  exact hi.after c.buf hstep.1

def Event.Ok (Q : Conn → Prop) (c : Conn) : Event → Prop
  | .passive _ _ _ _ _ _ _ => Q c
  | _ => True

def StepOk (Q : Conn → Prop) (c : Conn) (e : Event) (d : Conn) : Prop := LifeStep c e d ∧ e.Ok Q c

section Table
variable {σ : Type} {E : Env σ}

def Table.conn (t : Table σ) (i : Slot) : Conn :=
  ⟨t.socks i, if (t.socks i).rtx = 0 then fun _ => 0 else t.heap (t.socks i).rtx⟩

structure Sane (A : Alloc E) (t : Table σ) : Prop where
  buffers : Buffers A t
  slot : ∀ i, SlotSane (t.socks i)

def Leads (A : Alloc E) (Q : Conn → Prop) (t t' : Table σ) : Prop :=
  Sane A t → Sane A t' ∧ ∀ i, ∃ es, Run (StepOk Q) (t.conn i) es (t'.conn i)

variable {A : Alloc E} {Q : Conn → Prop} {t t' u : Table σ} {i : Slot}

theorem Leads.of (hb : Sane A t → Buffers A t')
    (hr : Sane A t → ∀ i, ∃ es, Run (StepOk Q) (t.conn i) es (t'.conn i)) : Leads A Q t t' := by
  intro hs
  refine ⟨⟨hb hs, fun i => ?_⟩, hr hs⟩
  obtain ⟨es, hes⟩ := hr hs i
  exact (hs.slot i).run (hes.mono fun _ _ _ h => h.1)

theorem Leads.refl (A : Alloc E) (Q : Conn → Prop) (t : Table σ) : Leads A Q t t :=
  fun hs => ⟨hs, fun _ => ⟨[], .nil _⟩⟩

theorem Leads.trans (h : Leads A Q t u) (h' : Leads A Q u t') : Leads A Q t t' := by
  intro hs
  obtain ⟨hu, hr⟩ := h hs
  obtain ⟨ht, hr'⟩ := h' hu
  refine ⟨ht, fun i => ?_⟩
  obtain ⟨es, hes⟩ := hr i
  obtain ⟨es', hes'⟩ := hr' i
  exact ⟨es ++ es', hes.append hes'⟩

structure Local (A : Alloc E) (t t' : Table σ) (i : Slot) : Prop where
  socks : ∀ j, j ≠ i → t'.socks j = t.socks j
  heap : ∀ p, (∀ b, p ≠ t.block i b) → t'.heap p = t.heap p
  env : ∀ p, A.live t.env p → A.live t'.env p

theorem Local.conn_of_ne (hl : Local A t t' i) (hb : Buffers A t) {j : Slot} (hj : j ≠ i) :
    t'.conn j = t.conn j := by
  rw [Table.conn, Table.conn, hl.socks j hj]
  by_cases hz : (t.socks j).rtx = 0
  · rw [if_pos hz, if_pos hz]
  · rw [if_neg hz, if_neg hz, hl.heap]
    intro b he
    exact hj (hb.apart j .rtx i b hz he).1

theorem Leads.of_local (hl : Local A t t' i) (hblock : ∀ b, t'.block i b = t.block i b)
    (hr : Sane A t → ∃ es, Run (StepOk Q) (t.conn i) es (t'.conn i)) : Leads A Q t t' := by
  refine .of (fun hs => hs.buffers.same hl.env fun j b => ?_) fun hs j => ?_
  · by_cases hj : j = i
    · exact hj ▸ hblock b
    · rw [Table.block, Table.block, hl.socks j hj]
  · by_cases hj : j = i
    · exact hj ▸ hr hs
    · exact ⟨[], hl.conn_of_ne hs.buffers hj ▸ .nil _⟩

structure Puts (A : Alloc E) (t t' : Table σ) (i : Slot) (s : Sock) (h : Heap) : Prop where
  socks : t'.socks = Function.update t.socks i s
  heap : t'.heap = h
  env : ∀ p, A.live t.env p → A.live t'.env p

theorem puts_set (A : Alloc E) (t : Table σ) (i : Slot) (s : Sock) :
    Puts A t (t.set i s) i s t.heap := ⟨rfl, rfl, fun _ => id⟩

variable {s : Sock} {h : Heap}

theorem Puts.at (hp : Puts A t t' i s h) : t'.socks i = s := by
  rw [hp.socks]
  exact Function.update_self _ _ _

theorem Puts.other (hp : Puts A t t' i s h) (j : Slot) (hj : j ≠ i) : t'.socks j = t.socks j := by
  rw [hp.socks]
  exact Function.update_of_ne hj _ _

theorem Puts.trans {s' : Sock} {h' : Heap} (hp : Puts A t u i s h) (hp' : Puts A u t' i s' h') :
    Puts A t t' i s' h' := by
  refine ⟨?_, hp'.heap, fun p hl => hp'.env p (hp.env p hl)⟩
  rw [hp'.socks, hp.socks, Function.update_idem]

theorem Puts.leads (hp : Puts A t t' i s h) (hblock : ∀ b, s.block b = t.block i b)
    (hheap : Sane A t → ∀ p, (∀ b, p ≠ t.block i b) → h p = t.heap p) (e : Event)
    (he : Sane A t → e.Enabled (t.socks i)) (hsock : Sane A t → s = (t.socks i).after (t.conn i).buf e)
    (hbuf : Sane A t → (if s.rtx = 0 then fun _ => 0 else h s.rtx) = (t.conn i).bufAfter e)
    (hok : e.Ok Q (t.conn i)) : Leads A Q t t' := by
  intro hs
  have hl : Local A t t' i := ⟨hp.other, hp.heap ▸ hheap hs, hp.env⟩
  have hb : ∀ b, t'.block i b = t.block i b := by
    intro b
    rw [Table.block, hp.at]
    exact hblock b
  refine Leads.of_local hl hb (fun hs => ⟨[e], .cons ⟨⟨he hs, ?_, fun _ => ?_⟩, hok⟩ (.nil _)⟩) hs
  · exact hp.at.trans (hsock hs)
  · rw [Table.conn, hp.at, hp.heap]
    exact hbuf hs

theorem Puts.leads_quiet (hp : Puts A t t' i s t.heap) (hblock : ∀ b, s.block b = t.block i b) (e : Event)
    (he : Sane A t → e.Enabled (t.socks i)) (hsock : ∀ buf, s = (t.socks i).after buf e)
    (hbuf : ∀ c : Conn, c.bufAfter e = c.buf) (hok : e.Ok Q (t.conn i)) : Leads A Q t t' := by
  refine hp.leads hblock (fun _ _ _ => rfl) e he (fun _ => hsock _) (fun _ => ?_) hok
  have hrtx : s.rtx = (t.socks i).rtx := hblock .rtx
  rw [hbuf, Table.conn, hrtx]

theorem tcpSendSegEx_puts (A : Alloc E) (t : Table σ) (i : Slot) (o : Out) :
    Puts A t (tcpSendSegEx E t i o).2 i ((t.socks i).noteSent (tcpSendSegEx E t i o).1) t.heap := by
  rw [tcpSendSegEx]
  split
  · exact puts_set A t i _
  · exact ⟨rfl, rfl, A.send _ _ _⟩

theorem sendAny_puts (A : Alloc E) (t : Table σ) (i : Slot) (o : Option Out) :
    ∃ ok, Puts A t (sendAny E t i o) i ((t.socks i).noteIf o ok) t.heap := by
  cases o with
  | none => exact ⟨true, (Function.update_eq_self i t.socks).symm, rfl, fun _ => id⟩
  | some o => exact ⟨_, tcpSendSegEx_puts A t i o⟩

theorem sockRecv_leads (A : Alloc E) (t : Table σ) (i : Slot) (max : Nat) :
    Leads A Q t (sockRecv t i max).2 :=
  (puts_set A t i _).leads_quiet (fun b => by cases b <;> rfl) (.recv _) (fun _ => trivial)
    (fun _ => rfl) (fun _ => rfl) trivial

theorem free_leads (A : Alloc E) (t : Table σ) (i : Slot) : Leads A Q t (t.set i (t.socks i).free) :=
  (puts_set A t i _).leads_quiet (fun b => by cases b <;> rfl) .free (fun _ => trivial)
    (fun _ => rfl) (fun _ => rfl) trivial

theorem sockBind_leads (A : Alloc E) (t : Table σ) (i : Slot) (port : U16) :
    Leads A Q t (sockBind t i port) := by
  rw [sockBind]
  by_cases hg : (!(t.socks i).used || port == 0 ||
      ((t.socks i).type == .tcp && (t.socks i).state != .unused)) = true
  · simp only [hg, if_true]
    exact .refl A Q t
  · simp only [hg, Bool.false_eq_true, if_false]
    split
    · exact .refl A Q t
    · refine (puts_set A t i _).leads_quiet (fun b => by cases b <;> rfl) (.port port) (fun hs => ?_)
        (fun _ => rfl) (fun _ => rfl) trivial
      have hu : (t.socks i).used = true := by
        cases hu : (t.socks i).used with
        | true => rfl
        | false => simp [hu] at hg
      cases ht : (t.socks i).type with
      | udp => exact (hs.slot i).udp hu ht
      | tcp =>
        simp [hu, ht] at hg
        exact hg.2

theorem sockListen_leads (A : Alloc E) (t : Table σ) (i : Slot) : Leads A Q t (sockListen t i) := by
  rw [sockListen]
  by_cases hg : (!(t.socks i).used || (t.socks i).type != .tcp || (t.socks i).localPort == 0) = true
  · simp only [hg, if_true]
    exact .refl A Q t
  · simp only [hg, Bool.false_eq_true, if_false]
    refine (puts_set A t i _).leads_quiet (fun b => by cases b <;> rfl) .listen (fun _ => ?_)
      (fun _ => rfl) (fun _ => rfl) trivial
    simp at hg
    exact ⟨hg.1.1, hg.1.2⟩

theorem sockAccept_leads (A : Alloc E) (t : Table σ) (l : Slot) : Leads A Q t (sockAccept t l) := by
  rw [sockAccept]
  split
  · exact .refl A Q t
  · rename_i i hi
    have ha := Fin.eq_true_of_find?_eq_some hi
    simp only [Bool.and_eq_true, beq_iff_eq] at ha
    exact (puts_set A t i _).leads_quiet (fun b => by cases b <;> rfl) .adopt (fun _ => ⟨ha.1.1, ha.2⟩)
      (fun _ => rfl) (fun _ => rfl) trivial

theorem connectGo_leads (A : Alloc E) (t : Table σ) (i : Slot) : Leads A Q t (connectGo E t i) := by
  rw [connectGo]
  obtain ⟨ok, hp⟩ := sendAny_puts A (t.set i ((t.socks i).synGo t.ticks)) i
    (some ((t.socks i).out tcpSyn (t.socks i).sndNxt []))
  rw [set_socks_self] at hp
  exact ((puts_set A t i _).trans hp).leads_quiet (fun b => by cases b <;> rfl) (.go t.ticks ok)
    (fun _ => trivial) (fun _ => rfl) (fun _ => rfl) trivial

theorem reclaim_leads (A : Alloc E) (t : Table σ) : Leads A Q t (reclaim E t) := by
  have hslot : ∀ i, (reclaim E t).socks i = t.socks i ∨ (reclaim E t).socks i = (t.socks i).free := by
    intro i
    rw [reclaim]
    simp only
    split
    · exact .inr rfl
    · exact .inl rfl
  refine .of (fun hs => hs.buffers.same (fun _ => id) fun i b => ?_) fun hs i => ?_
  · rcases hslot i with he | he
    · rw [Table.block, he, Table.block]
    · rw [Table.block, he, Table.block]
      cases b <;> rfl
  · rcases hslot i with he | he
    · refine ⟨[], ?_⟩
      have hc : (reclaim E t).conn i = t.conn i := by
        rw [Table.conn, Table.conn, he]
        rfl
      rw [hc]
      exact .nil _
    · refine ⟨[.free], .cons ⟨⟨trivial, he, fun _ => ?_⟩, trivial⟩ (.nil _)⟩
      rw [Table.conn, he]
      rfl

theorem retransmit_block (s : Sock) (h : Heap) (now : U32) (b : Buf) :
    (s.retransmit h now).1.block b = s.block b := by
  by_cases hd : s.Due now
  · rcases retransmit_due hd h with he | ⟨-, he⟩ | ⟨-, -, he⟩ | ⟨-, -, he⟩
    all_goals
      rw [he]
      cases b <;> rfl
  · rw [retransmit_idle hd]

theorem noteIf_block (s : Sock) (o : Option Out) (ok : Bool) (b : Buf) :
    (s.noteIf o ok).block b = s.block b := by
  cases o <;> cases b <;> rfl

theorem retransmit_noteIf (s : Sock) (h h' : Heap) (now : U32) (ok : Bool) :
    (s.retransmit h now).1.noteIf (s.retransmit h now).2 ok =
      (s.retransmit h' now).1.noteIf (s.retransmit h' now).2 ok := by
  rw [Sock.retransmit, Sock.retransmit]
  split
  · split
    · rfl
    · simp only
      split
      · rfl
      · split <;> rfl
  · rfl

theorem retransmitSlot_leads (A : Alloc E) (t : Table σ) (now : U32) (i : Slot) :
    Leads A Q t (retransmitSlot E t now i) := by
  rw [retransmitSlot]
  by_cases hg : ((t.socks i).used && (t.socks i).type == .tcp && (t.socks i).rtoTick != 0) = true
  · simp only [hg, if_true]
    have hp : ∀ n : U32, Puts A t { t.set i ((t.socks i).retransmit t.heap now).1 with tcpRtx := n } i
        ((t.socks i).retransmit t.heap now).1 t.heap := fun n => ⟨rfl, rfl, fun _ => id⟩
    obtain ⟨ok, hp'⟩ := sendAny_puts A { t.set i ((t.socks i).retransmit t.heap now).1 with
      tcpRtx := if (decide ((t.socks i).Due now ∧ (t.socks i).rtxTries < tcpRtxMax)) = true then
        t.tcpRtx + 1 else t.tcpRtx } i ((t.socks i).retransmit t.heap now).2
    rw [(hp _).at] at hp'
    refine ((hp _).trans hp').leads_quiet (fun b => ?_) (.retransmit now ok) (fun _ => ?_)
      (fun buf => ?_) (fun _ => rfl) trivial
    · rw [noteIf_block, retransmit_block]
      rfl
    · simp only [Bool.and_eq_true, beq_iff_eq] at hg
      exact hg.1
    · exact retransmit_noteIf _ _ _ _ _
  · simp only [hg, Bool.false_eq_true, if_false]
    exact .refl A Q t

theorem foldl_leads {f : Table σ → Slot → Table σ} (hf : ∀ t i, Leads A Q t (f t i)) (l : List Slot)
    (t : Table σ) : Leads A Q t (l.foldl f t) := by
  induction l generalizing t with
  | nil => exact .refl A Q t
  | cons i l ih => exact (hf t i).trans (ih (f t i))

theorem Leads.of_same (hs : t'.socks = t.socks) (hh : t'.heap = t.heap)
    (he : ∀ p, A.live t.env p → A.live t'.env p) : Leads A Q t t' := by
  refine .of (fun hsane => hsane.buffers.same he fun i b => ?_) fun _ i => ⟨[], ?_⟩
  · rw [Table.block, hs]
    rfl
  · have hc : t'.conn i = t.conn i := by
      rw [Table.conn, Table.conn, hs, hh]
    rw [hc]
    exact .nil _

theorem netTick_leads (A : Alloc E) (t : Table σ) : Leads A Q t (netTick E t) := by
  rw [netTick]
  split
  · exact .refl A Q t
  · have h0 : Leads A Q t { t with lastTick := t.ticks } := .of_same rfl rfl fun _ => id
    exact h0.trans (foldl_leads (fun u i => retransmitSlot_leads A u t.ticks i) _ _)

theorem matchesConn_enabled {g : Segment} (hm : (t.socks i).matchesConn g = true) :
    (t.socks i).used = true ∧ (t.socks i).type = .tcp ∧ (t.socks i).state ≠ .listen := by
  rw [Sock.matchesConn] at hm
  simp only [Bool.and_eq_true, beq_iff_eq, bne_iff_ne] at hm
  exact ⟨hm.1.1.1.1.1, hm.1.1.1.1.2, hm.1.1.2⟩

theorem ackShift_zero (s : Sock) (ack : U32) (p : Ptr) : s.ackShift (fun _ _ => 0) ack p = fun _ => 0 := by
  rw [Sock.ackShift]
  simp only [ite_self]
  split
  · by_cases hp : p = s.rtx
    · rw [hp, Function.update_self]
    · rw [Function.update_of_ne hp]
  · rfl

theorem ackShift_at (s : Sock) (h : Heap) (ack : U32) :
    s.ackShift h ack s.rtx = s.ackShift (fun _ => h s.rtx) ack s.rtx := by
  rw [Sock.ackShift, Sock.ackShift]
  split
  · rw [Function.update_self, Function.update_self]
  · rfl

theorem segment_leads (A : Alloc E) (t : Table σ) (i : Slot) (g : Segment) (n : U32)
    (hm : (t.socks i).matchesConn g = true) :
    let r := handleSegment (t.socks i) t.heap t.ticks g
    Leads A Q t (sendAny E { t.set i r.sock with heap := r.heap, tcpRx := n } i r.reply) := by
  intro r
  have hb := handleSegment_blocks (t.socks i) t.heap t.ticks g
  have hp : Puts A t { t.set i r.sock with heap := r.heap, tcpRx := n } i r.sock r.heap :=
    ⟨rfl, rfl, fun _ => id⟩
  obtain ⟨ok, hp'⟩ := sendAny_puts A { t.set i r.sock with heap := r.heap, tcpRx := n } i r.reply
  rw [hp.at] at hp'
  refine (hp.trans hp').leads (fun b => ?_) (fun _ => hb.heap) (.segment t.heap g t.ticks ok)
    (fun _ => matchesConn_enabled hm) (fun _ => rfl) (fun hs => ?_) trivial
  · rw [noteIf_block]
    exact hb.block b
  · have hrtx : (r.sock.noteIf r.reply ok).rtx = (t.socks i).rtx := by
      have h1 := noteIf_block r.sock r.reply ok .rtx
      exact h1.trans (hb.block .rtx)
    rw [hrtx, Conn.bufAfter, Table.conn]
    by_cases hz : (t.socks i).rtx = 0
    · rw [if_pos hz, if_pos hz, ackShift_zero, ite_self]
    · rw [if_neg hz, if_neg hz, ← ackShift_at]
      refine hb.rtx (fun he => ?_) fun he => ?_
      · exact absurd (hs.buffers.apart i .rtx i .rx hz he).2 (by decide)
      · exact absurd (hs.buffers.apart i .rtx i .ooo hz he).2 (by decide)

structure PutsNew (A : Alloc E) (t t' : Table σ) (i : Slot) (s : Sock) : Prop where
  puts : Puts A t t' i s t.heap
  buffers : Buffers A t → Buffers A t'

theorem PutsNew.leads (hp : PutsNew A t t' i s) (es : List Event)
    (hr : Sane A t → Run (StepOk Q) (t.conn i) es (t'.conn i)) : Leads A Q t t' := by
  refine .of (fun hs => hp.buffers hs.buffers) fun hs j => ?_
  by_cases hj : j = i
  · exact hj ▸ ⟨es, hr hs⟩
  · have hl : Local A t t' i := ⟨hp.puts.other, fun p _ => congrFun hp.puts.heap p, hp.puts.env⟩
    exact ⟨[], hl.conn_of_ne hs.buffers hj ▸ .nil _⟩

theorem PutsNew.of_puts (hp : Puts A t t' i s t.heap) (hb : ∀ b, s.block b = t.block i b) :
    PutsNew A t t' i s := by
  refine ⟨hp, fun h => h.same hp.env fun j b => ?_⟩
  by_cases hj : j = i
  · rw [hj, Table.block, hp.at]
    exact hb b
  · rw [Table.block, Table.block, hp.other j hj]

theorem PutsNew.trans {s' : Sock} (h : PutsNew A t u i s) (h' : PutsNew A u t' i s') :
    PutsNew A t t' i s' := by
  have hp := h'.puts
  rw [h.puts.heap] at hp
  exact ⟨h.puts.trans hp, fun hb => h'.buffers (h.buffers hb)⟩

theorem PutsNew.alloc {c : Buf} {n : Nat} {r : Ptr × σ} (hr : allocIfNull E t.env (t.block i c) n = r)
    (hs : t'.socks = Function.update t.socks i s) (hh : t'.heap = t.heap) (henv : t'.env = r.2)
    (hc : s.block c = r.1) (hb : ∀ b, b ≠ c → s.block b = t.block i b) : PutsNew A t t' i s := by
  have hmono := (allocIfNull_spec A t.env (t.block i c) n).1
  rw [hr, ← henv] at hmono
  have hp : Puts A t t' i s t.heap := ⟨hs, hh, hmono⟩
  refine ⟨hp, fun h => h.alloc (henv.trans (congrArg Prod.snd hr.symm)) rfl ?_ (fun b hne => ?_) hp.other⟩
  · rw [Table.block, hp.at, hr]
    exact hc
  · rw [Table.block, hp.at]
    exact hb b hne

theorem allocIfNull_of_ne {e : σ} {p : Ptr} {n : Nat} {r : Ptr × σ} (hr : allocIfNull E e p n = r)
    (hp : p ≠ 0) : r.1 = p := by
  rw [← hr, allocIfNull, if_neg hp]

theorem tcpBufs_spec (A : Alloc E) (t : Table σ) (i : Slot) : ∃ rtx ooo,
    PutsNew A t (tcpBufs E t i).2 i
      ((t.socks i).after (fun _ => 0) (.bufs rtx ooo (tcpBufs E t i).1)) ∧
    ((t.socks i).rtx ≠ 0 → rtx = (t.socks i).rtx) ∧ ((t.socks i).ooo ≠ 0 → ooo = (t.socks i).ooo) ∧
    ((tcpBufs E t i).1 = true → rtx ≠ 0 ∧ ooo ≠ 0) ∧
    ((t.socks i).rtx ≠ 0 → (t.socks i).ooo ≠ 0 → (tcpBufs E t i).1 = true) := by
  rw [tcpBufs]
  simp only
  generalize hr : allocIfNull E t.env (t.socks i).rtx tcpRtxBuf = r
  have h1 : PutsNew A t { t.set i { t.socks i with rtx := r.1 } with env := r.2 } i
      { t.socks i with rtx := r.1 } := by
    refine .alloc (c := .rtx) hr rfl rfl rfl rfl fun b hb => ?_
    cases b with
    | rtx => exact absurd rfl hb
    | rx | ooo => rfl
  by_cases hz : r.1 = 0
  · rw [if_pos hz]
    refine ⟨r.1, (t.socks i).ooo, h1, allocIfNull_of_ne hr, fun _ => rfl, fun hf => (by cases hf),
      fun hne _ => ?_⟩
    exact absurd ((allocIfNull_of_ne hr hne).symm.trans hz) hne
  · rw [if_neg hz]
    generalize ho : allocIfNull E r.2 (t.socks i).ooo tcpOooBuf = q
    obtain ⟨u, henv, h1⟩ : ∃ u : Table σ, u.env = r.2 ∧ PutsNew A t u i { t.socks i with rtx := r.1 } :=
      ⟨_, rfl, h1⟩
    have h2 : ∀ v : Table σ, ∀ s : Sock, v.socks = Function.update t.socks i s → v.heap = t.heap →
        v.env = q.2 → s.ooo = q.1 → s.rtx = r.1 → s.rx = (t.socks i).rx → PutsNew A t v i s := by
      intro v s hv hh he hooo hrtx hrx
      have ho' : allocIfNull E u.env (u.block i .ooo) tcpOooBuf = q := by
        rw [henv, Table.block, h1.puts.at]
        exact ho
      refine h1.trans (.alloc ho' ?_ (hh.trans h1.puts.heap.symm) he hooo fun b hb => ?_)
      · rw [hv, h1.puts.socks]
        exact (Function.update_idem _ _ _).symm
      · rw [Table.block, h1.puts.at]
        cases b with
        | ooo => exact absurd rfl hb
        | rx => exact hrx
        | rtx => exact hrtx
    by_cases hz' : q.1 = 0
    · rw [if_pos hz']
      refine ⟨r.1, q.1, h2 _ _ rfl rfl rfl rfl rfl rfl, allocIfNull_of_ne hr, allocIfNull_of_ne ho,
        fun hf => (by cases hf), fun _ hne => ?_⟩
      exact absurd ((allocIfNull_of_ne ho hne).symm.trans hz') hne
    · rw [if_neg hz']
      exact ⟨r.1, q.1, h2 _ _ rfl rfl rfl rfl rfl rfl, allocIfNull_of_ne hr, allocIfNull_of_ne ho,
        fun _ => ⟨hz, hz'⟩, fun _ _ => rfl⟩

theorem after_bufs (s : Sock) (buf : Nat → U8) (rtx ooo : Ptr) (ok : Bool) :
    (s.after buf (.bufs rtx ooo ok)).used = s.used ∧ (s.after buf (.bufs rtx ooo ok)).type = s.type ∧
      (s.after buf (.bufs rtx ooo ok)).state = s.state := by
  cases ok <;> exact ⟨rfl, rfl, rfl⟩

theorem PutsNew.leads_event (hp : PutsNew A t t' i s) (e : Event)
    (he : Sane A t → e.Enabled (t.socks i)) (hs : ∀ buf, s = (t.socks i).after buf e)
    (hbuf : ∀ c : Conn, c.bufAfter e = c.buf) (hok : e.Ok Q (t.conn i)) : Leads A Q t t' := by
  refine hp.leads [e] fun hsane => .cons ⟨⟨he hsane, ?_, fun hrtx => ?_⟩, hok⟩ (.nil _)
  · exact hp.puts.at.trans (hs _)
  · have hrtx' : (t'.socks i).rtx = (t.socks i).rtx := hrtx
    rw [hbuf, Table.conn, Table.conn, hrtx', hp.puts.heap]

theorem tcpBufs_leads (A : Alloc E) (t : Table σ) (i : Slot)
    (hc : Sane A t → (t.socks i).Connected → (t.socks i).rtx = 0) : Leads A Q t (tcpBufs E t i).2 := by
  obtain ⟨rtx, ooo, hp, -⟩ := tcpBufs_spec A t i
  exact hp.leads_event (.bufs rtx ooo _) hc (fun _ => rfl) (fun _ => rfl) trivial

theorem freeSlot_spec (h : freeSlot t = some i) : (t.socks i).used = false := by
  have := Fin.eq_true_of_find?_eq_some h
  simpa using this

def OpensAt (E : Env σ) (t : Table σ) (l i : Slot) (g : Segment) : Prop :=
  (tcpBufs E (t.set i ((t.socks i).accepting g l (t.socks l).ownerPid)) i).1 = true

theorem passiveOpen_leads (A : Alloc E) (t : Table σ) (l : Slot) (g : Segment)
    (hi : freeSlot t = some i) (hq : OpensAt E t l i g → Q (t.conn i)) :
    Leads A Q t (passiveOpen E t l i g) := by
  rw [OpensAt] at hq
  have hu := freeSlot_spec hi
  have h0 : PutsNew A t (t.set i ((t.socks i).accepting g l (t.socks l).ownerPid)) i
      ((t.socks i).accepting g l (t.socks l).ownerPid) :=
    .of_puts (puts_set A t i _) fun b => by cases b <;> rfl
  rw [passiveOpen]
  simp only
  generalize t.set i ((t.socks i).accepting g l (t.socks l).ownerPid) = u at *
  obtain ⟨rtx, ooo, hp, -, -, hok, -⟩ := tcpBufs_spec A u i
  rw [h0.puts.at] at hp
  generalize tcpBufs E u i = r at *
  have h1 := h0.trans hp
  have hs := h1.puts.at
  cases hb : r.1 with
  | true =>
    rw [hb] at hs hok
    rw [if_pos rfl]
    have h2 : PutsNew A r.2 (r.2.set i ((r.2.socks i).synReceived (nextIsn r.2) g.seq)) i _ :=
      .of_puts (puts_set A r.2 i _) fun b => by cases b <;> rfl
    obtain ⟨ok, hsend⟩ := sendAny_puts A (r.2.set i ((r.2.socks i).synReceived (nextIsn r.2) g.seq)) i
      (some (((r.2.socks i).synReceived (nextIsn r.2) g.seq).out (tcpSyn ||| tcpAck) (nextIsn r.2) []))
    rw [set_socks_self] at hsend
    refine ((h1.trans h2).trans (.of_puts hsend fun b => ?_)).leads_event
      (.passive rtx ooo g l (t.socks l).ownerPid (nextIsn r.2) ok) (fun _ => ⟨hu, hok rfl⟩)
      (fun buf => ?_) (fun _ => rfl) (hq hb)
    · rw [noteIf_block, Table.block, set_socks_self]
    · rw [hs]
      rfl
  | false =>
    rw [hb] at hs
    rw [if_neg (by decide)]
    have h2 : PutsNew A r.2 (r.2.set i { r.2.socks i with used := false }) i _ :=
      .of_puts (puts_set A r.2 i _) fun b => by cases b <;> rfl
    refine (h1.trans h2).leads_event (.refuse rtx ooo g l (t.socks l).ownerPid) (fun _ => hu)
      (fun buf => ?_) (fun _ => rfl) trivial
    rw [hs]
    rfl

def OpensOk (E : Env σ) (Q : Conn → Prop) (t : Table σ) (g : Segment) : Prop :=
  ∀ l i, findConn t g = none → findListener t g = some l → g.has tcpSyn = true → g.has tcpAck = false →
    freeSlot t = some i → OpensAt E t l i g → Q (t.conn i)

theorem tcpInput_leads (A : Alloc E) (t : Table σ) (g : Segment) (hq : OpensOk E Q t g) :
    Leads A Q t (tcpInput E t g) := by
  unfold tcpInput
  split
  · rename_i i hi
    exact segment_leads A t i g _ (Fin.eq_true_of_find?_eq_some hi)
  · rename_i hnone
    split
    · exact .refl A Q t
    · rename_i l hl
      by_cases hg : (!g.has tcpSyn || g.has tcpAck) = true
      · simp only [hg, if_true]
        exact .refl A Q t
      · simp only [hg, Bool.false_eq_true, if_false]
        simp at hg
        split
        · exact .refl A Q t
        · rename_i i hi
          exact passiveOpen_leads A t l g hi (hq l i hnone hl hg.1 hg.2 hi)

/-! ### Sockets and connections -/

theorem sockAlloc_leads (A : Alloc E) (t : Table σ) (type : SockType) (pid : U32) :
    Leads A Q t (sockAlloc E t type pid).2 ∧ ∀ i, (sockAlloc E t type pid).1 = some i →
      ((sockAlloc E t type pid).2.socks i).used = true ∧
        ((sockAlloc E t type pid).2.socks i).type = type ∧
        ((sockAlloc E t type pid).2.socks i).state = .unused := by
  have h0 : Leads A Q t (reclaim E t) := reclaim_leads A t
  unfold sockAlloc
  simp only
  generalize reclaim E t = u at *
  split
  · exact ⟨h0, nofun⟩
  · rename_i i hi
    generalize hr : allocIfNull E u.env ((u.socks i).fresh type pid).rx netSockBuf = r
    have hnew : ∀ v : Table σ, ∀ s : Sock, v.socks = Function.update u.socks i s → v.heap = u.heap →
        v.env = r.2 → s = (u.socks i).after (fun _ => 0) (.fresh type pid r.1) → Leads A Q u v := by
      intro v s hv hh he hs
      have hp : PutsNew A u v i s := by
        refine .alloc (c := .rx) hr hv hh he (hs ▸ rfl) fun b hb => ?_
        rw [hs]
        cases b with
        | rx => exact absurd rfl hb
        | rtx | ooo => rfl
      exact hp.leads_event (.fresh type pid r.1) (fun _ => freeSlot_spec hi) (fun _ => hs) (fun _ => rfl)
        trivial
    by_cases hz : r.1 = 0
    · rw [if_pos hz]
      refine ⟨h0.trans (hnew _ _ rfl rfl rfl ?_), nofun⟩
      simp only [Sock.after, hz]
      rfl
    · rw [if_neg hz]
      refine ⟨h0.trans (hnew _ _ rfl rfl rfl ?_), fun j hj => ?_⟩
      · simp only [Sock.after, Sock.fresh, ne_eq, hz, not_false_iff, decide_true]
      · cases hj
        simp only [Table.set, Function.update_self]
        exact ⟨rfl, rfl, rfl⟩

theorem connectStart_leads (A : Alloc E) (t : Table σ) (ip : U32) (dport : U16)
    (hi : (t.socks i).used = true ∧ (t.socks i).type = .tcp ∧ (t.socks i).state = .unused) :
    Leads A Q t (connectStart E t i ip dport).2 := by
  unfold connectStart
  simp only
  have h0 : Leads A Q t { t with ephemeral := (ephemeralPort t 200 t.ephemeral).2 } :=
    .of_same rfl rfl fun _ => id
  split
  · exact h0
  · rename_i port hport
    refine h0.trans ?_
    have hi' : ({ t with ephemeral := (ephemeralPort t 200 t.ephemeral).2 } : Table σ).socks i = t.socks i :=
      rfl
    generalize ({ t with ephemeral := (ephemeralPort t 200 t.ephemeral).2 } : Table σ) = u at *
    have hidle : ¬ (u.socks i).Connected := fun hc => hc.2.1 (hi' ▸ hi.2.2)
    have hfail : Leads A Q u (tcpBufs E u i).2 := tcpBufs_leads A u i fun _ hc => absurd hc hidle
    obtain ⟨rtx, ooo, hp, -, -, hok, -⟩ := tcpBufs_spec A u i
    generalize tcpBufs E u i = r at *
    have hs := hp.puts.at
    cases hb : r.1 with
    | true =>
      rw [hb] at hs hok
      rw [if_pos rfl]
      have h2 : PutsNew A r.2 (r.2.set i ((r.2.socks i).connecting port ip dport (nextIsn r.2))) i _ :=
        .of_puts (puts_set A r.2 i _) fun b => by cases b <;> rfl
      refine (hp.trans h2).leads_event (.connect rtx ooo port ip dport (nextIsn r.2))
        (fun _ => ?_) (fun buf => ?_) (fun _ => rfl) trivial
      · rw [hi']
        exact ⟨hi.1, hi.2.1, hi.2.2, hok rfl⟩
      · rw [hs]
        rfl
    | false =>
      rw [if_neg (by decide)]
      exact hfail

theorem scConnect_leads (A : Alloc E) (t : Table σ) (i : Slot) (ip : U32) (dport : U16) :
    Leads A Q t (scConnect E t i ip dport).2 := by
  rw [scConnect]
  by_cases hg : (!(t.socks i).used || (t.socks i).type != .tcp || (t.socks i).state != .unused ||
      (t.socks i).localPort != 0 || ip == 0 || dport == 0) = true
  · simp only [hg, if_true]
    exact .refl A Q t
  · simp only [hg, Bool.false_eq_true, if_false]
    simp at hg
    exact connectStart_leads A t ip dport ⟨hg.1.1.1.1.1, hg.1.1.1.1.2, hg.1.1.1.2⟩

theorem netTcpConnect_leads (A : Alloc E) (t : Table σ) (ip : U32) (dport : U16) :
    Leads A Q t (netTcpConnect E t ip dport).2 := by
  rw [netTcpConnect]
  split
  · exact .refl A Q t
  · obtain ⟨ha, hslot⟩ := sockAlloc_leads A t .tcp 0
    simp only
    split
    · exact ha
    · rename_i i hi
      have hc := ha.trans (connectStart_leads A _ ip dport (hslot i hi))
      split
      · exact hc
      · exact hc.trans (free_leads A _ i)

theorem handOver_puts (A : Alloc E) (t : Table σ) (i : Slot) (data : List U8) (o : Out) :
    let r := tcpSendSegEx E { t.set i ((t.socks i).queue data) with
      heap := (t.socks i).fillRtx t.heap data } i o
    Puts A t r.2 i (((t.socks i).queue data).noteSent r.1) ((t.socks i).fillRtx t.heap data) := by
  intro r
  have h1 : Puts A t { t.set i ((t.socks i).queue data) with heap := (t.socks i).fillRtx t.heap data } i
      ((t.socks i).queue data) ((t.socks i).fillRtx t.heap data) := ⟨rfl, rfl, fun _ => id⟩
  have h2 := tcpSendSegEx_puts A { t.set i ((t.socks i).queue data) with
    heap := (t.socks i).fillRtx t.heap data } i o
  rw [h1.at] at h2
  exact h1.trans h2

theorem Puts.leads_fill {data : List U8} (hp : Puts A t t' i s ((t.socks i).fillRtx t.heap data))
    (hrtx : (t.socks i).rtx ≠ 0) (hblock : ∀ b, s.block b = t.block i b) (e : Event)
    (he : Sane A t → e.Enabled (t.socks i)) (hs : ∀ buf, s = (t.socks i).after buf e)
    (hbuf : ∀ c : Conn, c.bufAfter e = fun k => if k < data.length then data.getD k 0 else c.buf k)
    (hok : e.Ok Q (t.conn i)) : Leads A Q t t' := by
  refine hp.leads hblock (fun _ p hne => Function.update_of_ne (hne .rtx) _ _) e he (fun _ => hs _)
    (fun _ => ?_) hok
  have hb : s.rtx = (t.socks i).rtx := hblock .rtx
  rw [hbuf, hb, if_neg hrtx, Table.conn, if_neg hrtx, Sock.fillRtx, Function.update_self]

theorem sendData_leads (A : Alloc E) (t : Table σ) (i : Slot) (data : List U8) :
    Leads A Q t (sendData E t i data).2 := by
  rw [sendData]
  by_cases hg : (!(t.socks i).isOpen || (t.socks i).rtxLen != 0 || decide (tcpRtxBuf < data.length)) = true
  · simp only [hg, if_true]
    exact .refl A Q t
  · simp only [hg, Bool.false_eq_true, if_false]
    simp at hg
    obtain ⟨⟨hopen, hlen⟩, hdata⟩ := hg
    -- with its buffer the slot sends
    have hsend : ∀ u : Table σ, (u.socks i).rtx ≠ 0 → (u.socks i).isOpen = true →
        (u.socks i).rtxLen = 0 →
        Leads A Q u (
          let s := u.socks i
          let o := s.out (tcpPsh ||| tcpAck) s.sndNxt data
          let r := tcpSendSegEx E { u.set i (s.queue data) with heap := s.fillRtx u.heap data } i o
          let t := r.2
          if r.1 then ((true, t.set i ((t.socks i).armed t.ticks)) : Bool × Table σ)
          else
            let f := t.socks i
            (false, t.set i { f with
              rtxLen := 0, sndNxt := s.sndNxt, track := { f.track with stream := s.track.stream } })).2 := by
      intro u hrtx ho hz
      have hp := handOver_puts A u i data ((u.socks i).out (tcpPsh ||| tcpAck) (u.socks i).sndNxt data)
      simp only at hp ⊢
      generalize tcpSendSegEx E _ i _ = r at *
      have hat := hp.at
      cases hb : r.1 with
      | true =>
        rw [hb] at hat
        rw [if_pos rfl]
        have h2 := hp.trans (hp.heap ▸ puts_set A r.2 i ((r.2.socks i).armed r.2.ticks))
        refine h2.leads_fill hrtx (fun b => ?_) (.send data r.2.ticks true)
          (fun _ => ⟨ho, hz, hdata, hrtx⟩) (fun buf => ?_) (fun _ => rfl) trivial
        · rw [hat]
          cases b <;> rfl
        · rw [hat]
          rfl
      | false =>
        rw [hb] at hat
        rw [if_neg (by decide)]
        have h2 := hp.trans (hp.heap ▸ puts_set A r.2 i { r.2.socks i with
          rtxLen := 0, sndNxt := (u.socks i).sndNxt,
          track := { (r.2.socks i).track with stream := (u.socks i).track.stream } })
        refine h2.leads_fill hrtx (fun b => ?_) (.send data 0 false)
          (fun _ => ⟨ho, hz, hdata, hrtx⟩) (fun buf => ?_) (fun _ => rfl) trivial
        · rw [hat]
          cases b <;> rfl
        · rw [hat]
          simp only [Sock.after, Sock.sent, Sock.queue, Sock.noteSent, ← hz]
          rfl
    by_cases hz : (t.socks i).rtx = 0
    · rw [if_pos hz]
      have h0 : Leads A Q t (tcpBufs E t i).2 := tcpBufs_leads A t i fun _ _ => hz
      obtain ⟨rtx, ooo, hp, -, -, hok, -⟩ := tcpBufs_spec A t i
      generalize tcpBufs E t i = r at *
      have hs := hp.puts.at
      cases hb : r.1 with
      | true =>
        rw [hb] at hs hok
        simp only [Bool.not_true, Bool.false_eq_true, if_false]
        refine h0.trans (hsend r.2 ?_ ?_ ?_)
        · rw [hs]
          exact (hok rfl).1
        · rw [hs]
          exact hopen
        · rw [hs]
          rfl
      | false =>
        simp only [Bool.not_false, if_true]
        exact h0
    · rw [if_neg hz]
      simp only [Bool.not_true, Bool.false_eq_true, if_false]
      exact hsend t hz hopen hlen

theorem scSendto_leads (A : Alloc E) (t : Table σ) (i : Slot) (data : List U8) :
    Leads A Q t (scSendto E t i data).2 := by
  rw [scSendto]
  split
  · exact .refl A Q t
  · exact sendData_leads A t i data

theorem children_leads (A : Alloc E) (t : Table σ) (l : Slot) :
    Leads A Q t { t with socks := fun j =>
      if (t.socks j).used ∧ (t.socks j).parent = some l then (t.socks j).free else t.socks j } := by
  refine .of (fun hs => hs.buffers.same (fun _ => id) fun j b => ?_) fun _ j => ?_
  · simp only [Table.block]
    split
    · cases b <;> rfl
    · rfl
  · by_cases hj : (t.socks j).used ∧ (t.socks j).parent = some l
    · refine ⟨[.free], .cons ⟨⟨trivial, if_pos hj, fun _ => ?_⟩, trivial⟩ (.nil _)⟩
      simp only [Table.conn, if_pos hj]
      rfl
    · refine ⟨[], ?_⟩
      simp only [Table.conn, if_neg hj]
      exact .nil _

theorem tcpClose_leads (A : Alloc E) (t : Table σ) (i : Slot) : Leads A Q t (tcpClose E t i) := by
  rw [tcpClose]
  by_cases hg : (t.socks i).type = .tcp ∧ (t.socks i).isOpen
  · simp only [hg, and_self, if_true]
    have hp := tcpSendSegEx_puts A t i ((t.socks i).out (tcpFin ||| tcpAck) (t.socks i).sndNxt [])
    generalize tcpSendSegEx E t i _ = r at *
    have hat := hp.at
    cases hb : r.1 with
    | true =>
      rw [hb] at hat
      rw [if_pos rfl]
      have h2 := hp.trans (hp.heap ▸ puts_set A r.2 i (r.2.socks i).closing)
      refine h2.leads_quiet (fun b => ?_) (.fin true) (fun _ => hg) (fun buf => ?_) (fun _ => rfl) trivial
      · rw [hat]
        cases b <;> rfl
      · rw [hat]
        rfl
    | false =>
      rw [hb] at hp
      rw [if_neg (by decide)]
      exact hp.leads_quiet (fun b => by cases b <;> rfl) (.fin false) (fun _ => hg) (fun _ => rfl)
        (fun _ => rfl) trivial
  · rw [if_neg hg]
    by_cases hl : (t.socks i).type = .tcp ∧ (t.socks i).state = .listen
    · simp only [hl, and_self, if_true]
      exact (children_leads A t i).trans (free_leads A _ i)
    · simp only [hl, if_false]
      exact free_leads A t i

theorem sockClose_leads (A : Alloc E) (t : Table σ) (i : Slot) : Leads A Q t (sockClose E t i) := by
  rw [sockClose]
  split
  · exact tcpClose_leads A t i
  · exact .refl A Q t

theorem httpdStart_leads (A : Alloc E) (t : Table σ) : Leads A Q t (httpdStart E t).2 := by
  obtain ⟨ha, hslot⟩ := sockAlloc_leads A t .tcp 0
  unfold httpdStart
  simp only
  split
  · exact ha
  · rename_i l hl
    obtain ⟨hu, ht, hst⟩ := hslot l hl
    generalize (sockAlloc E t .tcp 0).2 = u at *
    have hb := ha.trans (tcpBufs_leads A u l fun _ hc => absurd hst hc.2.1)
    obtain ⟨rtx, ooo, hp, -⟩ := tcpBufs_spec A u l
    generalize tcpBufs E u l = r at *
    obtain ⟨hu', ht', hst'⟩ := after_bufs (u.socks l) (fun _ => 0) rtx ooo r.1
    rw [← hp.puts.at] at hu' ht' hst'
    split
    · exact hb.trans (free_leads A r.2 l)
    · have hport : Leads A Q r.2 (r.2.set l { r.2.socks l with localPort := 80 }) :=
        (puts_set A r.2 l _).leads_quiet (fun b => by cases b <;> rfl) (.port 80)
          (fun _ => hst'.trans hst) (fun _ => rfl) (fun _ => rfl) trivial
      split
      · exact (hb.trans hport).trans (free_leads A _ l)
      · refine (hb.trans hport).trans ((puts_set A _ l _).leads_quiet (fun b => by cases b <;> rfl) .listen
          (fun _ => ?_) (fun _ => rfl) (fun _ => rfl) trivial)
        rw [set_socks_self]
        exact ⟨hu'.trans hu, ht'.trans ht⟩

theorem httpdReply_leads (A : Alloc E) (t : Table σ) (c : Slot) (resp : List U8) :
    Leads A Q t (httpdReply E t c resp) := by
  rw [httpdReply]
  by_cases hlen : tcpRtxBuf < resp.length
  · rw [if_pos hlen]
    exact .refl A Q t
  · rw [if_neg hlen]
    obtain ⟨rtx, ooo, hp, hrtx, hooo, hok, hboth⟩ := tcpBufs_spec A t c
    simp only
    generalize tcpBufs E t c = r at *
    have hs := hp.puts.at
    cases hb : r.1 with
    | false =>
      rw [hb] at hp hboth
      simp only [Bool.not_false, if_true]
      refine hp.leads_event (.bufs rtx ooo false) (fun hsane hc => ?_) (fun _ => rfl) (fun _ => rfl) trivial
      obtain ⟨h1, h2⟩ := (hsane.slot c).bufs hc
      exact absurd (hboth h1 h2) (by decide)
    | true =>
      rw [hb] at hs hok hp
      simp only [Bool.not_true, Bool.false_eq_true, if_false]
      have hsend := handOver_puts A r.2 c resp ((r.2.socks c).out (tcpPsh ||| tcpAck) (r.2.socks c).sndNxt resp)
      simp only at hsend
      generalize tcpSendSegEx E _ c _ = q at *
      -- the slot after the answer
      obtain ⟨ticks, hfinal⟩ : ∃ ticks, Puts A r.2 (if q.1 = true then q.2.set c ((q.2.socks c).armed q.2.ticks)
          else q.2) c ((r.2.socks c).sent resp ticks q.1 false) ((r.2.socks c).fillRtx r.2.heap resp) := by
        have hat := hsend.at
        cases hq : q.1 with
        | true =>
          rw [hq] at hat
          refine ⟨q.2.ticks, ?_⟩
          have h2 := hsend.trans (hsend.heap ▸ puts_set A q.2 c ((q.2.socks c).armed q.2.ticks))
          rw [hat] at h2
          rw [if_pos rfl, hat]
          exact h2
        | false =>
          rw [hq] at hsend
          exact ⟨0, hsend⟩
      have hlen' := Nat.le_of_not_lt hlen
      by_cases hconn : (t.socks c).Connected
      · -- a connection has its buffers, and `tcp_bufs` only resets it
        intro hsane
        obtain ⟨h1, h2⟩ := (hsane.slot c).bufs hconn
        obtain rfl := hrtx h1
        obtain rfl := hooo h2
        have hall := hp.puts.trans hfinal
        have hs' : r.2.socks c = (t.socks c).resetBufs := hs
        rw [hs', hp.puts.heap] at hall
        exact hall.leads_fill h1 (fun b => by cases q.1 <;> cases b <;> rfl) (.reply resp ticks q.1)
          (fun _ => ⟨hlen', h1, h2⟩) (fun _ => rfl) (fun _ => rfl) trivial hsane
      · have h0 : Leads A Q t r.2 :=
          hp.leads_event (.bufs rtx ooo true) (fun _ hc => absurd hc hconn) (fun _ => rfl) (fun _ => rfl)
            trivial
        obtain ⟨h1, h2⟩ := hok rfl
        have hrtx' : (r.2.socks c).rtx ≠ 0 := by
          rw [hs]
          exact h1
        refine h0.trans (hfinal.leads_fill hrtx' (fun b => ?_) (.reply resp ticks q.1)
          (fun _ => ⟨hlen', hrtx', ?_⟩) (fun _ => ?_) (fun _ => rfl) trivial)
        · rw [Table.block]
          cases q.1 <;> cases b <;> rfl
        · rw [hs]
          exact h2
        · rw [hs]
          rfl

theorem httpdEnd_leads (A : Alloc E) (t : Table σ) (l : Slot) (c : Option Slot) :
    Leads A Q t (httpdEnd E t l c) := by
  cases c with
  | none => exact tcpClose_leads A t l
  | some c => exact (tcpClose_leads A t l).trans (tcpClose_leads A _ c)

/-- Everything that changes the table. Calls that sleep are cut at the sleeps, and `world` is what
goes on outside TCP in between. -/
inductive TableOp (σ : Type) where
  | input (g : Segment)
  | tick
  | alloc (type : SockType) (pid : U32)
  | bind (i : Slot) (port : U16)
  | listen (i : Slot)
  | accept (l : Slot)
  | connect (i : Slot) (ip : U32) (dport : U16)
  | kernelConnect (ip : U32) (dport : U16)
  | connectGo (i : Slot)
  | connectFail (i : Slot)
  | sendto (i : Slot) (data : List U8)
  | sendChunk (i : Slot) (data : List U8)
  | recv (i : Slot) (max : Nat)
  | close (i : Slot)
  | httpdStart
  | httpdReply (c : Slot) (resp : List U8)
  | httpdEnd (l : Slot) (c : Option Slot)
  | world (ticks udpRx : U32) (env : σ)

def TableOp.run (E : Env σ) (t : Table σ) : TableOp σ → Table σ
  | .input g => tcpInput E t g
  | .tick => netTick E t
  | .alloc type pid => (sockAlloc E t type pid).2
  | .bind i port => sockBind t i port
  | .listen i => sockListen t i
  | .accept l => sockAccept t l
  | .connect i ip dport => (scConnect E t i ip dport).2
  | .kernelConnect ip dport => (netTcpConnect E t ip dport).2
  | .connectGo i => Ezos.Tcp.connectGo E t i
  | .connectFail i => Ezos.Tcp.connectFail t i
  | .sendto i data => (scSendto E t i data).2
  | .sendChunk i data => (netTcpSendChunk E t i data).2
  | .recv i max => (sockRecv t i max).2
  | .close i => sockClose E t i
  | .httpdStart => (Ezos.Tcp.httpdStart E t).2
  | .httpdReply c resp => Ezos.Tcp.httpdReply E t c resp
  | .httpdEnd l c => Ezos.Tcp.httpdEnd E t l c
  | .world ticks udpRx env => { t with ticks := ticks, udpRx := udpRx, env := env }

/-- One operation. The world does not free the table's blocks, and `Q` holds of the slots in which
connections are opened passively. -/
def TableStep (A : Alloc E) (Q : Conn → Prop) (t : Table σ) (op : TableOp σ) (t' : Table σ) : Prop :=
  t' = op.run E t ∧
    match op with
    | .input g => OpensOk E Q t g
    | .world _ _ env => ∀ p, A.live t.env p → A.live env p
    | _ => True

theorem TableStep.leads {op : TableOp σ} (hs : TableStep A Q t op t') : Leads A Q t t' := by
  obtain ⟨rfl, hcond⟩ := hs
  cases op with
  | input g => exact tcpInput_leads A t g hcond
  | tick => exact netTick_leads A t
  | alloc type pid => exact (sockAlloc_leads A t type pid).1
  | bind i port => exact sockBind_leads A t i port
  | listen i => exact sockListen_leads A t i
  | accept l => exact sockAccept_leads A t l
  | connect i ip dport => exact scConnect_leads A t i ip dport
  | kernelConnect ip dport => exact netTcpConnect_leads A t ip dport
  | connectGo i => exact connectGo_leads A t i
  | connectFail i => exact free_leads A t i
  | sendto i data => exact scSendto_leads A t i data
  | sendChunk i data => exact sendData_leads A t i _
  | recv i max => exact sockRecv_leads A t i max
  | close i => exact sockClose_leads A t i
  | httpdStart => exact httpdStart_leads A t
  | httpdReply c resp => exact httpdReply_leads A t c resp
  | httpdEnd l c => exact httpdEnd_leads A t l c
  | world ticks udpRx env => exact .of_same rfl rfl hcond

def bootTable (env : σ) : Table σ where
  socks _ := bootSock
  heap _ _ := 0
  ticks := 0
  lastTick := 0
  tcpRx := 0
  tcpTx := 0
  tcpRtx := 0
  udpRx := 0
  ephemeral := 40000
  env := env

theorem bootTable_sane (A : Alloc E) (env : σ) : Sane A (bootTable env) where
  buffers := ⟨fun _ b hne => absurd (by cases b <;> rfl) hne,
    fun _ b _ _ hne => absurd (by cases b <;> rfl) hne⟩
  slot _ := .of_not_used rfl

theorem run_lives {ops : List (TableOp σ)} {env : σ} (h : Run (TableStep A Q) (bootTable env) ops t) :
    Sane A t ∧ ∀ i, ∃ es, Run (StepOk Q) bootConn es (t.conn i) := by
  refine Run.invariant (I := fun t => Sane A t ∧ ∀ i, ∃ es, Run (StepOk Q) bootConn es (t.conn i)) ?_ h
    ⟨bootTable_sane A env, fun _ => ⟨[], .nil _⟩⟩
  intro s op t hi hstep
  obtain ⟨hsane, hr⟩ := hstep.leads hi.1
  refine ⟨hsane, fun i => ?_⟩
  obtain ⟨es, hes⟩ := hi.2 i
  obtain ⟨es', hes'⟩ := hr i
  exact ⟨es ++ es', hes.append hes'⟩

end Table

end Ezos.Tcp
