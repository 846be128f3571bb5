import Ezos.Net.TcpHandshake

/-!
# The retransmission timer

`Timed` says why a timer is armed: a SYN that is out, or data in `rtx`. The control segments that
are not followed by an armed timer, SYN+ACK and FIN, are outside it.
-/

namespace Ezos.Tcp

open Lib.Serial Lib

set_option autoImplicit false

def Sock.Unsent (s : Sock) : Prop :=
  s.state = .synRcvd ∧ s.track.submitted = false ∧ s.sndNxt = s.sndUna + 1

structure Timed (s : Sock) : Prop where
  rtx : s.rtx ≠ 0
  early : s.state = .synSent ∨ s.state = .synRcvd → s.rtxLen = 0
  syn : s.synUnacked = true → s.state = .synSent ∧
    (s.sndNxt = s.sndUna ∨ s.sndNxt = s.sndUna + 1 ∧ s.rtoTick ≠ 0)
  idle : s.synUnacked = false → s.rtxLen = 0 → s.sndUna = s.sndNxt ∨ s.Unsent
  data : s.rtxLen ≠ 0 → s.rtoTick ≠ 0

/-- What a segment with ACK may do: not open on an old acknowledgement, not acknowledge the data
without the FIN behind it, and not restart the timer at the tick that gives 0. -/
structure AckClean (s : Sock) (g : Segment) (ticks : U32) : Prop where
  handshake : s.state = .synSent → g.has tcpSyn = true → g.ack = s.sndUna → s.sndUna = s.sndNxt
  fin : s.Acks g.ack → s.synUnacked = false → s.rtxLen ≤ (g.ack - s.sndUna).toNat → g.ack = s.sndNxt
  clock : s.Acks g.ack → s.synUnacked = false → (g.ack - s.sndUna).toNat < s.rtxLen →
    ticks + tcpRtoMs ≠ 0

def TimerClean (s : Sock) : Event → Prop
  | .passive _ _ _ _ _ _ sent => sent = false
  | .fin sent => sent = true → s.rtxLen ≠ 0
  | .go ticks _ => ticks + tcpRtoMs ≠ 0 ∧
    (s.Connected → s.state = .synSent ∧ s.synUnacked = true ∧ s.sndNxt = s.sndUna)
  | .segment _ g ticks _ => g.has tcpRst = false → g.has tcpAck = true → AckClean s g ticks
  | .retransmit now _ => s.Due now → now + backoff (s.rtxTries + 1) ≠ 0
  | .send _ ticks sent => sent = true → ticks + tcpRtoMs ≠ 0
  | .reply data ticks sent => sent = true ∧ data ≠ [] ∧ ticks + tcpRtoMs ≠ 0 ∧
    (s.Connected → s.isOpen = true)
  | _ => True

def TimedInv (s : Sock) : Prop := s.Connected → Timed s

def State.awaits : State → Bool
  | .synSent | .synRcvd | .established | .closeWait | .finWait1 | .lastAck => true
  | _ => false

def TimerCovers (s : Sock) : Prop :=
  s.used = true → s.type = .tcp → s.state.awaits = true → s.track.submitted = true →
    s.sndUna ≠ s.sndNxt → s.rtoTick ≠ 0

theorem Timed.covers {s : Sock} (h : Timed s) (hsub : s.track.submitted = true) :
    s.sndUna ≠ s.sndNxt → s.rtoTick ≠ 0 := by
  intro hne
  cases hsyn : s.synUnacked with
  | true =>
    rcases (h.syn hsyn).2 with heq | ⟨-, hrto⟩
    · exact absurd heq.symm hne
    · exact hrto
  | false =>
    by_cases hlen : s.rtxLen = 0
    · rcases h.idle hsyn hlen with heq | ⟨-, hunsent, -⟩
      · exact absurd heq hne
      · exact absurd (hunsent.symm.trans hsub) (by decide)
    · exact h.data hlen

theorem TimedInv.covers {s : Sock} (h : TimedInv s) : TimerCovers s := by
  intro hu _ hst hsub hne
  refine (h ⟨hu, ?_, ?_⟩).covers hsub hne
  · intro he
    rw [he] at hst
    cases hst
  · intro he
    rw [he] at hst
    cases hst

theorem RecvOnly.timed {s s' : Sock} (hr : RecvOnly s s') (h : Timed s) : Timed s' := by
  obtain ⟨w, n, q, l, f, rfl⟩ := hr
  exact ⟨h.rtx, h.early, h.syn, h.idle, h.data⟩

theorem Timed.ackAdvance {s : Sock} {g : Segment} {ticks : U32} (h : Timed s)
    (hc : AckClean s g ticks) : Timed (s.ackAdvance ticks g.ack) := by
  rcases ackAdvance_cases s ticks g.ack with ⟨-, he⟩ | ⟨ha, hsyn, he⟩ | ⟨ha, hsyn, hlen, he⟩ |
    ⟨ha, hsyn, hlen, he⟩
  · rw [he]
    exact h
  · obtain ⟨hst, hn⟩ := h.syn hsyn
    have hlen : s.rtxLen = 0 := h.early (.inl hst)
    have hack : g.ack = s.sndNxt := by
      rcases hn with hn | ⟨hn, -⟩
      · exact absurd ha (not_acks_of_eq hn)
      · exact (acks_one hn).mp ha
    rw [he]
    exact ⟨h.rtx, h.early, nofun, fun _ _ => .inl hack, fun hne => absurd hlen hne⟩
  · rw [he]
    exact ⟨h.rtx, fun _ => rfl, fun h' => absurd (hsyn.symm.trans h') (by decide),
      fun _ _ => .inl (hc.fin ha hsyn hlen), fun hne => absurd rfl hne⟩
  · rw [he]
    refine ⟨h.rtx, fun hst => ?_, fun h' => absurd (hsyn.symm.trans h') (by decide),
      fun _ hz => ?_, fun _ => hc.clock ha hsyn hlen⟩
    · have := h.early hst
      omega
    · exact absurd hz (by simp only; omega)

theorem Timed.acked {s : Sock} {g : Segment} {ticks : U32} (h : Timed s)
    (hc : g.has tcpAck = true → AckClean s g ticks) : Timed (s.acked ticks g) := by
  rw [Sock.acked]
  by_cases hack : g.has tcpAck = true
  · rw [if_pos hack]
    exact h.ackAdvance (hc hack)
  · rw [if_neg hack]
    exact h

theorem Timed.move {a : Sock} {st : State} (h : Timed a) (hs : a.state ≠ .synSent)
    (hr : a.state = .synRcvd → a.sndUna = a.sndNxt) (h1 : st ≠ .synSent) (h2 : st ≠ .synRcvd) :
    Timed { a with state := st } where
  rtx := h.rtx
  early he := absurd he (not_or_intro h1 h2)
  syn he := absurd (h.syn he).1 hs
  idle hsyn hlen := by
    rcases h.idle hsyn hlen with heq | ⟨hst, -⟩
    · exact .inl heq
    · exact .inl (hr hst)
  data := h.data

theorem Timed.acked_synRcvd {s : Sock} {g : Segment} {ticks : U32} (h : Timed s)
    (hst : s.state = .synRcvd) (hack : g.has tcpAck = true) (ha : g.ack = (s.acked ticks g).sndNxt) :
    (s.acked ticks g).sndUna = (s.acked ticks g).sndNxt := by
  rw [Sock.acked, if_pos hack] at ha ⊢
  have hsyn : s.synUnacked = false := by
    by_contra hn
    have := (h.syn (by simpa using hn)).1
    exact absurd (hst.symm.trans this) (by decide)
  have hlen := h.early (.inr hst)
  rcases ackAdvance_cases s ticks g.ack with ⟨hno, he⟩ | ⟨-, -, he⟩ | ⟨-, -, -, he⟩ | ⟨-, -, hlt, -⟩
  · rw [he] at ha ⊢
    rcases h.idle hsyn hlen with heq | ⟨-, -, hn⟩
    · exact heq
    · exact absurd ((acks_one hn).mpr ha) hno
  · rw [he] at ha ⊢
    exact ha
  · rw [he] at ha ⊢
    exact ha
  · omega

theorem Timed.acked_synSent {s : Sock} {g : Segment} {ticks : U32} (h : Timed s)
    (hc : AckClean s g ticks) (hst : s.state = .synSent) (hsyn : g.has tcpSyn = true)
    (hack : g.has tcpAck = true) (ha : g.ack = (s.acked ticks g).sndUna) :
    (s.acked ticks g).sndUna = (s.acked ticks g).sndNxt := by
  rw [Sock.acked, if_pos hack] at ha ⊢
  rcases ackAdvance_cases s ticks g.ack with ⟨-, he⟩ | ⟨hin, hun, he⟩ | ⟨hin, hun, -⟩ | ⟨hin, hun, -⟩
  · rw [he] at ha ⊢
    exact hc.handshake hst hsyn ha
  · rw [he]
    rcases (h.syn hun).2 with hn | ⟨hn, -⟩
    · exact absurd hin (not_acks_of_eq hn)
    · exact (acks_one hn).mp hin
  all_goals
    rcases h.idle hun (h.early (.inl hst)) with heq | ⟨hst', -⟩
    · exact absurd hin (not_acks_of_eq heq.symm)
    · exact absurd (hst.symm.trans hst') (by decide)

theorem Timed.moves {s s' : Sock} {g : Segment} {ticks : U32} (h : Timed s)
    (hc : g.has tcpAck = true → AckClean s g ticks) (hm : Moves (s.acked ticks g) g s') :
    s'.used = false ∨ Timed s' := by
  have ha := h.acked hc
  have hst := acked_state s ticks g
  cases hm with
  | freed hu => exact .inl hu
  | stays _ _ hr => exact .inr (hr.timed ha)
  | opens hs hsyn hack hun hr =>
    have heq := h.acked_synSent (hc hack) (hst.symm.trans hs) hsyn hack hun
    have hlen := ha.early (.inl hs)
    have ho : Timed (s.acked ticks g).opened :=
      ⟨ha.rtx, fun _ => hlen, nofun, fun _ _ => .inl heq, fun hne => absurd hlen hne⟩
    exact .inr (hr.timed ho)
  | accepted hs hack hnx hr =>
    have heq := h.acked_synRcvd (hst.symm.trans hs) hack hnx
    exact .inr (hr.timed (ha.move (by simp [hs]) (fun _ => heq) nofun nofun))
  | acceptedFin hs hack hnx hr =>
    have heq := h.acked_synRcvd (hst.symm.trans hs) hack hnx
    exact .inr (hr.timed (ha.move (by simp [hs]) (fun _ => heq) nofun nofun))
  | peerClosed hs hr =>
    exact .inr (hr.timed (ha.move (by simp [hs]) (fun he => by simp [hs] at he) nofun nofun))
  | finAcked hs _ _ hr =>
    exact .inr (hr.timed (ha.move (by simp [hs]) (fun he => by simp [hs] at he) nofun nofun))

theorem handleState_reply {a : Sock} {h : Heap} {g : Segment}
    (hst : (handleState a h g).sock.state = .synRcvd) : (handleState a h g).reply = none := by
  have hopen : ∀ b : Sock, b.state ≠ .synRcvd → (handleOpen b h g).sock.state ≠ .synRcvd := by
    intro b hb
    rcases handleOpen_cases b h g with ⟨w, n, q, l, f, he⟩ | ⟨-, w, n, q, l, f, he⟩
    · rw [he]
      exact hb
    · rw [he]
      intro hc
      cases hc
  have hfin : ∀ b : Sock, b.state ≠ .synRcvd → (handleFinWait b h g).sock.state ≠ .synRcvd := by
    intro b hb
    rcases handleFinWait_cases b h g with ⟨-, he⟩ | he
    · rw [he]
      intro hc
      cases hc
    · rw [he]
      exact hb
  revert hst
  rw [handleState]
  split
  · rename_i hs
    split
    · exact fun _ => rfl
    · intro hc
      cases hc
  · split
    · exact fun _ => rfl
    · split
      · intro hc
        cases hc
      · exact fun he => absurd he (hopen _ (by simp))
  · rename_i hs
    exact fun he => absurd he (hopen _ (by simp [hs]))
  · rename_i hs
    exact fun he => absurd he (hopen _ (by simp [hs]))
  · split
    · exact fun _ => rfl
    · exact fun _ => rfl
  · rename_i hs
    refine fun he => absurd he (hfin _ ?_)
    split
    · intro hc
      cases hc
    · simp [hs]
  · rename_i hs
    exact fun he => absurd he (hfin _ (by simp [hs]))
  · exact fun _ => rfl
  · exact fun _ => rfl

theorem handleSegment_reply {s : Sock} {h : Heap} {ticks : U32} {g : Segment}
    (hst : (handleSegment s h ticks g).sock.state = .synRcvd) :
    (handleSegment s h ticks g).reply = none := by
  revert hst
  rw [handleSegment]
  split
  · intro hc
    cases hc
  · split
    · exact handleState_reply
    · exact handleState_reply

theorem Timed.noteSent {s : Sock} (h : Timed s) (ok : Bool) (hst : s.state = .synRcvd → ok = false) :
    Timed (s.noteSent ok) where
  rtx := h.rtx
  early := h.early
  syn := h.syn
  idle hsyn hlen := (h.idle hsyn hlen).imp_right fun hu => ⟨hu.1, hst hu.1, hu.2.2⟩
  data := h.data

theorem Timed.noteIf {s : Sock} (h : Timed s) (o : Option Out) (ok : Bool)
    (hst : s.state = .synRcvd → o = none) : Timed (s.noteIf o ok) := by
  cases o with
  | none => exact h
  | some out => exact h.noteSent ok fun he => nomatch hst he

theorem Timed.retransmit {s : Sock} (h : Timed s) (buf : Nat → U8) {now : U32} {sent : Bool}
    (hc : TimerClean s (.retransmit now sent)) :
    (s.after buf (.retransmit now sent)).used = false ∨ Timed (s.after buf (.retransmit now sent)) := by
  rw [Sock.after]
  by_cases hd : s.Due now
  · have hclock := hc hd
    have hrearmed : Timed (s.rearmed now) :=
      ⟨h.rtx, h.early, fun hy => ⟨(h.syn hy).1, (h.syn hy).2.imp_right fun hn => ⟨hn.1, hclock⟩⟩,
        h.idle, fun _ => hclock⟩
    rcases retransmit_due hd (fun _ => buf) with he | ⟨hsyn, he⟩ | ⟨hsyn, hlen, he⟩ | ⟨-, hlen, he⟩
    · rw [he]
      exact .inl rfl
    · rw [he]
      refine .inr (hrearmed.noteIf _ _ fun hst => ?_)
      exact absurd ((h.syn hsyn).1.symm.trans hst) (by decide)
    · rw [he]
      exact .inr ⟨h.rtx, h.early, fun hy => absurd (hsyn.symm.trans hy) (by decide), h.idle,
        fun hne => absurd hlen hne⟩
    · rw [he]
      exact .inr (hrearmed.noteIf _ _ fun hst => absurd (h.early (.inr hst)) hlen)
  · rw [retransmit_idle hd]
    exact .inr h

theorem TimedInv.segment {s : Sock} (h : TimedInv s) {hp : Heap} {g : Segment} {ticks : U32}
    {sent : Bool} (he : Event.Enabled s (.segment hp g ticks sent))
    (hc : TimerClean s (.segment hp g ticks sent)) :
    TimedInv ((handleSegment s hp ticks g).sock.noteIf (handleSegment s hp ticks g).reply sent) := by
  intro hconn
  obtain ⟨hu, hst, -⟩ :=
    noteIf_fields (handleSegment s hp ticks g).sock (handleSegment s hp ticks g).reply sent
  have hused := hu.symm.trans hconn.1
  have hkeep : Timed (handleSegment s hp ticks g).sock := by
    by_cases hrst : g.has tcpRst = true
    · rw [handleSegment, if_pos hrst] at hused
      cases hused
    · have hm := handleSegment_moves s hp ticks g
      have hs : s.Connected := connected_of_segment he (fun _ => 0) hconn
      rcases (h hs).moves (fun hack => hc (by simpa using hrst) hack) hm with hf | ht
      · exact absurd (hf.symm.trans hused) (by decide)
      · exact ht
  exact hkeep.noteIf _ _ handleSegment_reply

theorem TimedInv.of_unused {s : Sock} (h : s.state = .unused ∨ s.state = .listen) : TimedInv s :=
  fun hc => absurd h (not_or_intro hc.2.1 hc.2.2)

theorem TimedInv.of_not_used {s : Sock} (h : s.used = false) : TimedInv s :=
  fun hc => absurd (h.symm.trans hc.1) (by decide)

theorem TimedInv.sent {s : Sock} (h : TimedInv s) (ho : s.isOpen = true) {data : List U8}
    {ticks : U32} {sent : Bool} (hlen : s.rtxLen = 0) (hc : sent = true → ticks + tcpRtoMs ≠ 0) :
    TimedInv (s.sent data ticks sent true) := by
  intro hconn
  obtain ⟨hu, hst, -⟩ := sent_cases s data ticks sent true
  have ht := h ⟨hu.symm.trans hconn.1, hst ▸ hconn.2.1, hst ▸ hconn.2.2⟩
  have hopen := (Sock.isOpen_iff s).mp ho
  cases sent with
  | false => exact ht.noteSent false fun _ => rfl
  | true =>
    refine ⟨ht.rtx, fun he => ?_, fun hy => ?_, fun hy hz => ?_, fun _ => hc rfl⟩
    · rcases hopen with h1 | h1 <;> rcases he with h2 | h2 <;> exact absurd (h1.symm.trans h2) (by decide)
    · have hss := (ht.syn hy).1
      rcases hopen with h1 | h1 <;> exact absurd (h1.symm.trans hss) (by decide)
    · -- nothing was sent, so the sequence numbers are those from before
      have hnil : data = [] := List.eq_nil_of_length_eq_zero hz
      subst hnil
      rcases ht.idle hy hlen with heq | ⟨hss, -⟩
      · left
        exact heq.trans (BitVec.add_zero s.sndNxt).symm
      · rcases hopen with h1 | h1 <;> exact absurd (h1.symm.trans hss) (by decide)

theorem TimedInv.after {s : Sock} (h : TimedInv s) (buf : Nat → U8) {e : Event} (he : e.Enabled s)
    (hc : TimerClean s e) : TimedInv (s.after buf e) := by
  cases e with
  | fresh => exact .of_unused (.inl rfl)
  | free => exact .of_unused (.inl rfl)
  | port => exact .of_unused (.inl he)
  | listen => exact .of_unused (.inr rfl)
  | adopt =>
    intro hconn
    have ht := h hconn
    exact ⟨ht.rtx, ht.early, ht.syn, ht.idle, ht.data⟩
  | bufs rtx ooo ok =>
    intro hconn
    have hconn' : s.Connected := by cases ok <;> exact hconn
    exact absurd (he hconn') (h hconn').rtx
  | connect =>
    intro _
    exact ⟨he.2.2.2.1, fun _ => rfl, fun _ => ⟨rfl, .inl rfl⟩, fun hs => (by cases hs),
      fun hne => absurd rfl hne⟩
  | passive rtx ooo g l pid isn sent =>
    intro _
    exact ⟨he.2.1, fun _ => rfl, fun hs => (by cases hs), fun _ _ => .inr ⟨rfl, hc, rfl⟩,
      fun hne => absurd rfl hne⟩
  | refuse => exact .of_not_used rfl
  | go ticks sent =>
    intro hconn
    obtain ⟨hclock, hown⟩ := hc
    obtain ⟨hst, hsyn, hn⟩ := hown hconn
    have ht := h hconn
    exact ⟨ht.rtx, ht.early, fun _ => ⟨hst, .inr ⟨congrArg (· + 1) hn, hclock⟩⟩,
      fun hy => absurd (hsyn.symm.trans hy) (by decide), fun _ => hclock⟩
  | segment hp g ticks sent => exact h.segment he hc
  | retransmit now sent =>
    intro hconn
    by_cases hs : s.Connected
    · rcases (h hs).retransmit buf hc with hf | ht
      · exact absurd (hf.symm.trans hconn.1) (by decide)
      · exact ht
    · -- the timer does not open a socket
      exfalso
      rcases after_retransmit s buf now sent with ⟨hf, -⟩ | ⟨k, t, b, hk⟩
      · exact absurd (hf.symm.trans hconn.1) (by decide)
      · rw [hk] at hconn
        exact hs hconn
  | send data ticks sent => exact h.sent he.1 he.2.1 hc
  | fin sent =>
    have hopen := (Sock.isOpen_iff s).mp he.2
    intro hconn
    have hs : s.Connected := by
      refine ⟨by cases sent <;> exact hconn.1, ?_, ?_⟩
      all_goals rcases hopen with h1 | h1 <;> simp [h1]
    have ht := h hs
    cases sent with
    | false => exact ht.noteSent false fun _ => rfl
    | true =>
      have hclosing : (s.after buf (.fin true)).state = .finWait1 ∨
          (s.after buf (.fin true)).state = .lastAck := by
        simp only [Sock.after, Sock.closing, if_true]
        split
        · exact .inl rfl
        · exact .inr rfl
      refine ⟨ht.rtx, fun hz => ?_, fun hy => ?_, fun _ hz => absurd hz (hc rfl), ht.data⟩
      · rcases hclosing with h1 | h1 <;> rcases hz with h2 | h2 <;>
          exact absurd (h1.symm.trans h2) (by decide)
      · have hss := (ht.syn hy).1
        rcases hopen with h1 | h1 <;> exact absurd (h1.symm.trans hss) (by decide)
  | reply data ticks sent =>
    obtain ⟨hsent, hne, hclock, hopen⟩ := hc
    subst hsent
    intro hconn
    have hlen : data.length ≠ 0 := fun hz => hne (List.eq_nil_of_length_eq_zero hz)
    refine ⟨(h hconn).rtx, fun hz => ?_, fun hs => (by cases hs), fun _ hz => absurd hz hlen,
      fun _ => hclock⟩
    rcases (Sock.isOpen_iff s).mp (hopen hconn) with h1 | h1 <;> rcases hz with h2 | h2 <;>
      exact absurd (h1.symm.trans h2) (by decide)
  | recv r =>
    intro hconn
    have ht := h hconn
    exact ⟨ht.rtx, ht.early, ht.syn, ht.idle, ht.data⟩

def TimerStep (c : Conn) (e : Event) (d : Conn) : Prop := LifeStep c e d ∧ TimerClean c.sock e

/-- In every life of such steps the timer is armed as long as something sent is unacknowledged. -/
theorem run_timer_covers {es : List Event} {c : Conn} (h : Run TimerStep bootConn es c) :
    TimerCovers c.sock := by
  refine TimedInv.covers (Run.invariant (I := fun c => TimedInv c.sock) ?_ h (.of_not_used rfl))
  rintro s e t hi ⟨⟨he, hd, -⟩, hc⟩
  rw [hd]
  exact hi.after s.buf he hc

theorem run_timer_covers_talk : TimerCovers (follow synSentConn talkEvents).sock ∧
    (follow synSentConn talkEvents).sock.sndNxt - (follow synSentConn talkEvents).sock.sndUna = 2 ∧
    (follow synSentConn talkEvents).sock.rtoTick = 700 := by
  refine ⟨@run_timer_covers (openEvents ++ talkEvents) _ (Run.append (t := synSentConn) ?_ ?_),
    by decide, by decide⟩
  · exact .cons ⟨lifeStep_of_enabled rfl, trivial⟩
      (.cons ⟨lifeStep_of_enabled ⟨rfl, rfl, rfl, by decide, by decide⟩, trivial⟩
        (.cons ⟨lifeStep_of_enabled trivial, by decide, fun _ => ⟨rfl, rfl, rfl⟩⟩ (.nil _)))
  · refine .cons ⟨lifeStep_of_enabled ⟨rfl, rfl, by decide⟩, fun _ _ => ⟨?_, ?_, ?_⟩⟩
      (.cons ⟨lifeStep_of_enabled ⟨?_, ?_, ?_, ?_⟩, fun _ => ?_⟩
        (.cons ⟨lifeStep_of_enabled ⟨?_, ?_, ?_⟩, fun _ _ => ⟨?_, ?_, ?_⟩⟩
          (.cons ⟨lifeStep_of_enabled ⟨?_, ?_⟩, fun _ => ?_⟩ (.nil _))))
    all_goals decide

def passiveEvent : Event :=
  .passive 0x200 0x300 ⟨tcpSyn, 7, 0, 40000, 80, 0x0A000202, []⟩ ⟨0, zero_lt_socks⟩ 1 0x1000 true

theorem synAck_untimed : ∃ c, Run LifeStep bootConn [passiveEvent] c ∧ c.sock.used = true ∧
    c.sock.state = .synRcvd ∧ c.sock.track.submitted = true ∧ c.sock.sndUna ≠ c.sock.sndNxt ∧
    c.sock.rtoTick = 0 ∧ ¬ TimerCovers c.sock := by
  refine ⟨follow bootConn [passiveEvent],
    .cons (lifeStep_of_enabled ⟨rfl, by decide, by decide⟩) (.nil _), rfl, rfl, rfl, by decide, rfl, ?_⟩
  exact fun h => h rfl rfl rfl rfl (by decide) rfl

end Ezos.Tcp
