import Ezos.Net.TcpLife

/-!
# The TCP handshake

`Shake` describes a socket whose SYN is not acknowledged. The segments that break it are a SYN+ACK
of the initial sequence number itself and a bare ACK of the SYN.
-/

namespace Ezos.Tcp

open Lib.Serial Lib

set_option autoImplicit false

structure Shake (s : Sock) : Prop where
  rtx : s.used = true → s.state ≠ .unused → s.state ≠ .listen → s.rtx ≠ 0
  syn : s.used = true → s.state = .synSent →
    s.synUnacked = true ∧ s.sndUna = s.track.isn ∧
      (s.sndNxt = s.track.isn ∨ s.sndNxt = s.track.isn + 1)
  synAck : s.used = true → s.state = .synRcvd →
    s.sndUna = s.track.isn ∧ s.sndNxt = s.track.isn + 1

/-- The steps that keep the handshake sound. A segment for a socket in SYN_SENT with ACK set and RST
clear is neither a SYN+ACK of the initial sequence number nor an ACK of the SYN without SYN; a
`connect` that wakes up and an answer of the HTTP server find no other handshake in their slot. -/
def ShakeClean (s : Sock) : Event → Prop
  | .segment _ g _ _ =>
    s.state = .synSent → g.has tcpRst = false → g.has tcpAck = true →
      if g.has tcpSyn then g.ack ≠ s.sndUna else ¬ s.Acks g.ack
  | .go _ _ => s.state ≠ .synRcvd ∧ (s.state = .synSent → s.sndNxt = s.sndUna)
  | .reply _ _ _ => s.state ≠ .synSent ∧ s.state ≠ .synRcvd
  | _ => True

theorem Shake.noteIf {s : Sock} (h : Shake s) (o : Option Out) (ok : Bool) : Shake (s.noteIf o ok) := by
  rcases noteIf_cases s o ok with he | he
  · rw [he]
    exact h
  · rw [he]
    exact ⟨h.rtx, h.syn, h.synAck⟩

theorem Shake.of_unused {s : Sock} (h : s.used = false) : Shake s :=
  ⟨fun hu => absurd (h.symm.trans hu) Bool.false_ne_true,
    fun hu => absurd (h.symm.trans hu) Bool.false_ne_true,
    fun hu => absurd (h.symm.trans hu) Bool.false_ne_true⟩

theorem Shake.of_past {s : Sock} (hs : s.state ≠ .synSent) (hr : s.state ≠ .synRcvd)
    (hb : s.used = true → s.state ≠ .unused → s.state ≠ .listen → s.rtx ≠ 0) : Shake s :=
  ⟨hb, fun _ h => absurd h hs, fun _ h => absurd h hr⟩

theorem RecvOnly.shake {s s' : Sock} (hr : RecvOnly s s') (h : Shake s) : Shake s' := by
  obtain ⟨w, n, q, l, f, rfl⟩ := hr
  exact ⟨h.rtx, h.syn, h.synAck⟩

structure HandshakeSound (s : Sock) (e : Event) (s' : Sock) : Prop where
  /-- SYN_SENT ends in ESTABLISHED only on a SYN+ACK of the initial sequence number plus one. -/
  opens : s.used = true → s.state = .synSent → s'.state = .established → ∃ h g ticks sent,
    e = .segment h g ticks sent ∧ g.has tcpSyn = true ∧ g.has tcpAck = true ∧ g.ack = s.track.isn + 1
  /-- SYN_RCVD ends there, or in CLOSE_WAIT by way of it, only on an ACK of its own SYN. -/
  accepts : s.used = true → s.state = .synRcvd → s'.state = .established ∨ s'.state = .closeWait →
    ∃ h g ticks sent, e = .segment h g ticks sent ∧ g.has tcpAck = true ∧ g.ack = s.track.isn + 1
  only : s'.used = true → s'.state = .established →
    s.used = true ∧ (s.state = .synSent ∨ s.state = .synRcvd ∨ s.state = .established)
  /-- A segment that leaves the socket in SYN_SENT leaves the SYN to be retransmitted. -/
  keeps : ∀ h g ticks sent, e = .segment h g ticks sent → s.used = true → s.state = .synSent →
    s'.state = .synSent → s'.synUnacked = true ∧ s'.rtoTick = s.rtoTick ∧ s'.rtxTries = s.rtxTries

theorem acked_of_synSent {s : Sock} {g : Segment} (hs : Shake s) (hu : s.used = true)
    (hst : s.state = .synSent) (ticks : U32)
    (hc : g.has tcpAck = true → if g.has tcpSyn then g.ack ≠ s.sndUna else ¬ s.Acks g.ack) :
    s.acked ticks g = s ∧ (g.has tcpSyn = true → g.has tcpAck = true → g.ack ≠ s.sndUna) ∨
    g.has tcpSyn = true ∧ g.has tcpAck = true ∧ g.ack = s.track.isn + 1 ∧
      (s.acked ticks g).sndUna = g.ack ∧ (s.acked ticks g).state = .synSent := by
  obtain ⟨hsyn, huna, hnxt⟩ := hs.syn hu hst
  rw [Sock.acked]
  by_cases hack : g.has tcpAck = true
  · have hc := hc hack
    rw [if_pos hack]
    rcases ackAdvance_cases s ticks g.ack with ⟨hno, he⟩ | ⟨ha, -, he⟩ | ⟨-, hf, -⟩ | ⟨-, hf, -⟩
    · left
      refine ⟨he, fun h _ => ?_⟩
      rw [if_pos h] at hc
      exact hc
    · right
      have hs : g.has tcpSyn = true := by
        by_contra hn
        rw [if_neg hn] at hc
        exact hc ha
      have hn : s.sndNxt = s.track.isn + 1 := by
        rcases hnxt with hn | hn
        · exact absurd ha (not_acks_of_eq (hn.trans huna.symm))
        · exact hn
      rw [he]
      exact ⟨hs, hack, (acks_syn huna hn).mp ha, rfl, hst⟩
    · exact absurd (hsyn.symm.trans hf) (by decide)
    · exact absurd (hsyn.symm.trans hf) (by decide)
  · rw [if_neg hack]
    exact .inl ⟨rfl, fun _ h => absurd h hack⟩

structure SegmentSound (s : Sock) (g : Segment) (s' : Sock) : Prop where
  shake : Shake s'
  opens : s.state = .synSent → s'.state = .established →
    g.has tcpSyn = true ∧ g.has tcpAck = true ∧ g.ack = s.track.isn + 1
  accepts : s.state = .synRcvd → s'.state = .established ∨ s'.state = .closeWait →
    g.has tcpAck = true ∧ g.ack = s.track.isn + 1
  only : s'.used = true → s'.state = .established →
    s.state = .synSent ∨ s.state = .synRcvd ∨ s.state = .established
  keeps : s.state = .synSent → s'.state = .synSent →
    s'.synUnacked = true ∧ s'.rtoTick = s.rtoTick ∧ s'.rtxTries = s.rtxTries

theorem SegmentSound.of_freed {s s' : Sock} {g : Segment} (hu : s'.used = false)
    (hs : s'.state = .unused) : SegmentSound s g s' where
  shake := .of_unused hu
  opens _ h := by
    rw [hs] at h
    cases h
  accepts _ h := by
    rw [hs] at h
    rcases h with h | h <;> cases h
  only h := by
    rw [hu] at h
    cases h
  keeps _ h := by
    rw [hs] at h
    cases h

theorem segmentSound_synSent {s s' : Sock} {g : Segment} {ticks : U32} (hs : Shake s)
    (hu : s.used = true) (hst : s.state = .synSent)
    (hc : g.has tcpAck = true → if g.has tcpSyn then g.ack ≠ s.sndUna else ¬ s.Acks g.ack)
    (hm : Moves (s.acked ticks g) g s') : SegmentSound s g s' := by
  have hnr : s.state ≠ .synRcvd := by simp [hst]
  rcases acked_of_synSent hs hu hst ticks hc with ⟨ha, hack⟩ | ⟨hsyn, hack, hisn, huna, hast⟩
  · rw [ha] at hm
    cases hm with
    | freed h h' => exact .of_freed h h'
    | stays _ _ h =>
      refine ⟨h.shake hs, ?_, fun h => absurd h hnr, fun _ _ => .inl hst, ?_⟩
      · obtain ⟨w, n, q, l, f, rfl⟩ := h
        intro _ he
        exact absurd (hst.symm.trans he) (by decide)
      · obtain ⟨w, n, q, l, f, rfl⟩ := h
        exact fun _ _ => ⟨(hs.syn hu hst).1, rfl, rfl⟩
    | opens _ h1 h2 h3 => exact absurd h3 (hack h1 h2)
    | accepted h => exact absurd h hnr
    | acceptedFin h => exact absurd h hnr
    | peerClosed h => exact absurd (hst.symm.trans h) (by decide)
    | finAcked h => exact absurd (hst.symm.trans h) (by decide)
  · cases hm with
    | freed h h' => exact .of_freed h h'
    | stays h => exact absurd huna.symm (h hast hsyn hack)
    | opens _ _ _ _ h =>
      obtain ⟨u, l, t, k, y, ha⟩ := acked_keeps s ticks g
      rw [ha] at h
      obtain ⟨w, n, q, m, f, rfl⟩ := h
      refine ⟨.of_past nofun nofun fun hu' _ _ => hs.rtx hu' (by simp [hst]) (by simp [hst]),
        fun _ _ => ⟨hsyn, hack, hisn⟩, fun h => absurd h hnr, fun _ _ => .inl hst, nofun⟩
    | accepted h => exact absurd (hast.symm.trans h) (by decide)
    | acceptedFin h => exact absurd (hast.symm.trans h) (by decide)
    | peerClosed h => exact absurd (hast.symm.trans h) (by decide)
    | finAcked h => exact absurd (hast.symm.trans h) (by decide)

theorem segmentSound_synRcvd {s s' : Sock} {g : Segment} {ticks : U32} (hs : Shake s)
    (hu : s.used = true) (hst : s.state = .synRcvd) (hm : Moves (s.acked ticks g) g s') :
    SegmentSound s g s' := by
  obtain ⟨huna, hnxt⟩ := hs.synAck hu hst
  have hns : s.state ≠ .synSent := by simp [hst]
  obtain ⟨u, l, t, k, y, ha⟩ := acked_keeps s ticks g
  have hast := (acked_state s ticks g).trans hst
  have hanxt : (s.acked ticks g).sndNxt = s.track.isn + 1 := by
    rw [ha]
    exact hnxt
  have hbuf : s'.rtx = s.rtx → s'.used = true → s'.state ≠ .unused → s'.state ≠ .listen →
      s'.rtx ≠ 0 := by
    intro hb _ _ _
    rw [hb]
    exact hs.rtx hu (by simp [hst]) (by simp [hst])
  cases hm with
  | freed h h' => exact .of_freed h h'
  | stays _ h h' =>
    -- an acknowledgement would be that of the SYN, and the connection would be open
    have hsame : s.acked ticks g = s := by
      rw [Sock.acked]
      split
      · rename_i hack
        rcases ackAdvance_cases s ticks g.ack with ⟨-, he⟩ | ⟨hin, -⟩ | ⟨hin, -⟩ | ⟨hin, -⟩
        · exact he
        all_goals exact absurd (((acks_syn huna hnxt).mp hin).trans hanxt.symm) (h hast hack)
      · rfl
    rw [hsame] at h'
    refine ⟨h'.shake hs, fun h => absurd h hns, ?_, fun _ _ => .inr (.inl hst), fun h => absurd h hns⟩
    obtain ⟨w, n, q, l, f, rfl⟩ := h'
    intro _ he
    rcases he with he | he <;> exact absurd (hst.symm.trans he) (by decide)
  | opens h => exact absurd (hast.symm.trans h) (by decide)
  | accepted _ hack hn h =>
    rw [ha] at h
    obtain ⟨w, n, q, m, f, rfl⟩ := h
    exact ⟨.of_past (by simp) (by simp) (hbuf rfl), fun h => absurd h hns,
      fun _ _ => ⟨hack, hn.trans hanxt⟩, fun _ _ => .inr (.inl hst), fun h => absurd h hns⟩
  | acceptedFin _ hack hn h =>
    rw [ha] at h
    obtain ⟨w, n, q, m, f, rfl⟩ := h
    exact ⟨.of_past (by simp) (by simp) (hbuf rfl), fun h => absurd h hns,
      fun _ _ => ⟨hack, hn.trans hanxt⟩, fun _ _ => .inr (.inl hst), fun h => absurd h hns⟩
  | peerClosed h => exact absurd (hast.symm.trans h) (by decide)
  | finAcked h => exact absurd (hast.symm.trans h) (by decide)

theorem segmentSound {s : Sock} {h : Heap} {g : Segment} {ticks : U32} {sent : Bool} (hs : Shake s)
    (hu : s.used = true) (hl : s.state ≠ .listen) (hc : ShakeClean s (.segment h g ticks sent)) :
    SegmentSound s g (handleSegment s h ticks g).sock := by
  by_cases hrst : g.has tcpRst = true
  · rw [handleSegment, if_pos hrst]
    exact .of_freed rfl rfl
  · have hm := handleSegment_moves s h ticks g
    have hrst' : g.has tcpRst = false := by simpa using hrst
    by_cases hss : s.state = .synSent
    · exact segmentSound_synSent hs hu hss (hc hss hrst') hm
    · by_cases hsr : s.state = .synRcvd
      · exact segmentSound_synRcvd hs hu hsr hm
      · obtain ⟨u, l, t, k, y, ha⟩ := acked_keeps s ticks g
        have hast := acked_state s ticks g
        obtain ⟨h1, h2, h3, h4, h5⟩ := hm.past (hast ▸ hss) (hast ▸ hsr)
        refine ⟨.of_past h1 h2 fun hu' hun _ => ?_, fun h => absurd h hss, fun h => absurd h hsr,
          fun _ he => .inr (.inr (hast ▸ h4 he)), fun h => absurd h hss⟩
        rw [h3 hu', ha]
        exact hs.rtx hu (fun h => hun (h5 (hast.trans h))) hl

structure Quiet (s s' : Sock) : Prop where
  shake : Shake s'
  only : s'.used = true → s'.state = .established → s.used = true ∧ s.state = .established
  stays : s.used = true → s.state = .synSent ∨ s.state = .synRcvd →
    s'.state ≠ .established ∧ s'.state ≠ .closeWait

theorem Quiet.of_idle {s s' : Sock} (h : s'.state = .unused ∨ s'.state = .listen) : Quiet s s' where
  shake := by
    refine .of_past ?_ ?_ fun _ h1 h2 => ?_
    · rcases h with h | h <;> simp [h]
    · rcases h with h | h <;> simp [h]
    · exact absurd h (not_or_intro h1 h2)
  only _ he := by
    rw [he] at h
    rcases h with h | h <;> cases h
  stays _ _ := by
    rcases h with h | h <;> simp [h]

theorem Quiet.of_not_used {s s' : Sock} (h : s.used = false) (h' : s'.used = false) : Quiet s s' where
  shake := .of_unused h'
  only hu := absurd (h'.symm.trans hu) Bool.false_ne_true
  stays hu := absurd (h.symm.trans hu) Bool.false_ne_true

theorem Quiet.of_past {s s' : Sock} (hs : Shake s) (hu : s'.used = s.used) (hst : s'.state = s.state)
    (hb : s'.rtx = s.rtx) (h1 : s.state ≠ .synSent) (h2 : s.state ≠ .synRcvd) : Quiet s s' where
  shake := by
    refine .of_past (hst ▸ h1) (hst ▸ h2) ?_
    rw [hu, hst, hb]
    exact hs.rtx
  only := by
    rw [hu, hst]
    exact fun h h' => ⟨h, h'⟩
  stays _ h := absurd h (not_or_intro h1 h2)

theorem Quiet.of_same {s s' : Sock} (hs : Shake s) (hu : s'.used = s.used) (hst : s'.state = s.state)
    (hb : s'.rtx = s.rtx) (hsyn : s'.synUnacked = s.synUnacked) (huna : s'.sndUna = s.sndUna)
    (hnxt : s'.sndNxt = s.sndNxt) (hisn : s'.track.isn = s.track.isn) : Quiet s s' := by
  refine ⟨⟨?_, ?_, ?_⟩, ?_, ?_⟩
  · rw [hu, hst, hb]
    exact hs.rtx
  · rw [hu, hst, hsyn, huna, hnxt, hisn]
    exact hs.syn
  · rw [hu, hst, huna, hnxt, hisn]
    exact hs.synAck
  · rw [hu, hst]
    exact fun h h' => ⟨h, h'⟩
  · rw [hst]
    intro _ h
    rcases h with h | h <;> simp [h]

theorem Shake.retransmit {s : Sock} (hs : Shake s) (buf : Nat → U8) (now : U32) (sent : Bool) :
    Quiet s (s.after buf (.retransmit now sent)) := by
  rcases after_retransmit s buf now sent with ⟨-, hf⟩ | ⟨k, t, b, he⟩
  · exact .of_idle (.inl hf)
  · rw [he]
    exact .of_same hs rfl rfl rfl rfl rfl rfl rfl

theorem Shake.go {s : Sock} (hs : Shake s) {ticks : U32} {sent : Bool}
    (hc : ShakeClean s (.go ticks sent)) : Quiet s ((s.synGo ticks).noteSent sent) := by
  obtain ⟨hr, hown⟩ := hc
  by_cases hss : s.state = .synSent
  · refine ⟨⟨hs.rtx, fun hu _ => ?_, fun _ h => absurd h hr⟩, fun _ h => ?_, fun _ _ => ?_⟩
    · obtain ⟨hsyn, huna, -⟩ := hs.syn hu hss
      exact ⟨hsyn, huna, .inr (congrArg (· + 1) ((hown hss).trans huna))⟩
    · exact absurd (hss.symm.trans h) (by decide)
    · exact ⟨fun h => absurd (hss.symm.trans h) (by decide), fun h => absurd (hss.symm.trans h) (by decide)⟩
  · exact .of_past hs rfl rfl rfl hss hr

theorem quiet_of_event {s : Sock} (hs : Shake s) (buf : Nat → U8) {e : Event} (he : e.Enabled s)
    (hc : ShakeClean s e) (hseg : ∀ h g ticks sent, e ≠ .segment h g ticks sent) :
    Quiet s (s.after buf e) := by
  cases e with
  | fresh => exact .of_idle (.inl rfl)
  | free => exact .of_idle (.inl rfl)
  | port => exact .of_idle (.inl he)
  | listen => exact .of_idle (.inr rfl)
  | adopt => exact .of_same hs rfl rfl rfl rfl rfl rfl rfl
  | bufs rtx ooo ok =>
    have hst : (s.after buf (.bufs rtx ooo ok)).state = s.state := by cases ok <;> rfl
    have hu : (s.after buf (.bufs rtx ooo ok)).used = s.used := by cases ok <;> rfl
    by_cases hused : s.used = true
    · refine .of_idle ?_
      rw [hst]
      by_contra hn
      obtain ⟨h1, h2⟩ := not_or.mp hn
      exact hs.rtx hused h1 h2 (he ⟨hused, h1, h2⟩)
    · have hused' : s.used = false := by simpa using hused
      exact .of_not_used hused' (hu.trans hused')
  | connect =>
    obtain ⟨-, -, hst, hb, -⟩ := he
    refine ⟨⟨fun _ _ _ => hb, fun _ _ => ⟨rfl, rfl, .inl rfl⟩, nofun⟩, nofun, fun _ h => ?_⟩
    rw [hst] at h
    rcases h with h | h <;> cases h
  | passive =>
    obtain ⟨hu, hb, -⟩ := he
    exact ⟨⟨fun _ _ _ => hb, nofun, fun _ _ => ⟨rfl, rfl⟩⟩, nofun,
      fun h => absurd (hu.symm.trans h) Bool.false_ne_true⟩
  | refuse => exact .of_not_used he rfl
  | go => exact hs.go hc
  | segment h g ticks sent => exact absurd rfl (hseg h g ticks sent)
  | retransmit now sent => exact hs.retransmit buf now sent
  | send data ticks sent =>
    obtain ⟨hu, hst, hb, -⟩ := sent_cases s data ticks sent true
    have ho := (Sock.isOpen_iff s).mp he.1
    refine .of_past hs hu hst hb ?_ ?_
    · rcases ho with h | h <;> simp [h]
    · rcases ho with h | h <;> simp [h]
  | fin sent =>
    have ho := (Sock.isOpen_iff s).mp he.2
    cases sent with
    | false => exact .of_same hs rfl rfl rfl rfl rfl rfl rfl
    | true =>
      refine ⟨.of_past ?_ ?_ fun hu _ _ => hs.rtx hu ?_ ?_, fun _ h => ?_, fun _ h => ?_⟩
      all_goals rcases ho with h' | h' <;> simp_all [Sock.after, Sock.closing, Sock.noteSent]
  | reply data ticks sent =>
    obtain ⟨hu, hst, hb, -⟩ := sent_cases s.resetBufs data ticks sent false
    exact .of_past hs hu hst hb hc.1 hc.2
  | recv => exact .of_same hs rfl rfl rfl rfl rfl rfl rfl

def ShakeStep (c : Conn) (e : Event) (d : Conn) : Prop := LifeStep c e d ∧ ShakeClean c.sock e

theorem ShakeStep.sound {c d : Conn} {e : Event} (hs : Shake c.sock) (h : ShakeStep c e d) :
    Shake d.sock ∧ HandshakeSound c.sock e d.sock := by
  obtain ⟨⟨he, hd, -⟩, hc⟩ := h
  rw [hd]
  by_cases hseg : ∃ h g ticks sent, e = .segment h g ticks sent
  · obtain ⟨h, g, ticks, sent, rfl⟩ := hseg
    have hsound := segmentSound hs he.1 he.2.2 hc
    obtain ⟨hu, hst, hsyn, hrto, htries⟩ :=
      noteIf_fields (handleSegment c.sock h ticks g).sock (handleSegment c.sock h ticks g).reply sent
    refine ⟨hsound.shake.noteIf _ _, ⟨fun _ hss hest => ?_, fun _ hsr hest => ?_, fun hu' hest => ?_, ?_⟩⟩
    · exact ⟨h, g, ticks, sent, rfl, hsound.opens hss (hst.symm.trans hest)⟩
    · refine ⟨h, g, ticks, sent, rfl, hsound.accepts hsr ?_⟩
      exact hest.imp hst.symm.trans hst.symm.trans
    · exact ⟨he.1, hsound.only (hu.symm.trans hu') (hst.symm.trans hest)⟩
    · intro _ _ _ _ _ _ hss hss'
      obtain ⟨h1, h2, h3⟩ := hsound.keeps hss (hst.symm.trans hss')
      exact ⟨hsyn.trans h1, hrto.trans h2, htries.trans h3⟩
  · have hno : ∀ h g ticks sent, e ≠ .segment h g ticks sent :=
      fun h g ticks sent heq => hseg ⟨h, g, ticks, sent, heq⟩
    have hq := quiet_of_event hs c.buf he hc hno
    refine ⟨hq.shake, ⟨fun hu hss hest => ?_, fun hu hsr hest => ?_, fun hu hest => ?_, ?_⟩⟩
    · exact absurd hest (hq.stays hu (.inl hss)).1
    · rcases hest with hest | hest
      · exact absurd hest (hq.stays hu (.inr hsr)).1
      · exact absurd hest (hq.stays hu (.inr hsr)).2
    · obtain ⟨h1, h2⟩ := hq.only hu hest
      exact ⟨h1, .inr (.inr h2)⟩
    · intro h g ticks sent heq
      exact absurd heq (hno h g ticks sent)

theorem bootConn_shake : Shake bootConn.sock := .of_unused rfl

/-- In every life of clean steps each step keeps the handshake sound. -/
theorem run_handshake_sound {es : List Event} {c d : Conn} {e : Event}
    (h : Run ShakeStep bootConn es c) (hs : ShakeStep c e d) : HandshakeSound c.sock e d.sock := by
  have hshake : Shake c.sock :=
    Run.invariant (I := fun c => Shake c.sock) (fun hi hstep => (ShakeStep.sound hi hstep).1) h
      bootConn_shake
  exact (ShakeStep.sound hshake hs).2

theorem openEvents_run : Run ShakeStep bootConn openEvents synSentConn :=
  .cons ⟨lifeStep_of_enabled rfl, trivial⟩
    (.cons ⟨lifeStep_of_enabled ⟨rfl, rfl, rfl, by decide, by decide⟩, trivial⟩
      (.cons ⟨lifeStep_of_enabled trivial, by simp [ShakeClean]; decide⟩ (.nil _)))

theorem run_handshake_sound_opens : HandshakeSound synSentConn.sock (segmentEvent (synAckOf 0x1001))
    (follow synSentConn [segmentEvent (synAckOf 0x1001)]).sock :=
  run_handshake_sound openEvents_run
    ⟨lifeStep_of_enabled ⟨rfl, rfl, by decide⟩, fun _ _ _ => by decide⟩

/-- With the initial sequence number `0x1000`, a SYN+ACK of `0x1000` opens the connection, and a bare
ACK of `0x1001` stops the retransmission of the SYN in SYN_SENT. -/
theorem synSent_takes_old_ack : Run LifeStep bootConn openEvents synSentConn ∧
    synSentConn.sock.state = .synSent ∧ synSentConn.sock.track.isn = 0x1000 ∧
    synSentConn.sock.synUnacked = true ∧ synSentConn.sock.rtoTick ≠ 0 ∧
    (∃ d, LifeStep synSentConn (segmentEvent (synAckOf 0x1000)) d ∧ d.sock.state = .established) ∧
    (∃ d, LifeStep synSentConn (segmentEvent { synAckOf 0x1001 with flags := tcpAck }) d ∧
      d.sock.state = .synSent ∧ d.sock.synUnacked = false ∧ d.sock.rtoTick = 0) := by
  have hseg : synSentConn.sock.used = true ∧ synSentConn.sock.type = .tcp ∧
      synSentConn.sock.state ≠ .listen := ⟨rfl, rfl, by decide⟩
  refine ⟨?_, by decide, by decide, by decide, by decide, ?_, ?_⟩
  · exact openEvents_life
  · exact ⟨_, lifeStep_segment hseg, by decide⟩
  · exact ⟨_, lifeStep_segment hseg, by decide⟩

end Ezos.Tcp
