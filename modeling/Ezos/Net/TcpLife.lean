import Ezos.Net.Tcp
import Ezos.Lib.Run

/-!
# The life of one socket slot

`Event` lists everything the kernel does to a slot of the socket table, `Conn` is the slot with the
contents of its retransmission buffer. Any order of events is a life; which orders the table
really produces is the subject of `TcpRefine`.
-/

namespace Ezos.Tcp

open Lib.Serial Lib

set_option autoImplicit false

structure Conn where
  sock : Sock
  buf : Nat → U8

inductive Event where
  | fresh (type : SockType) (pid : U32) (rx : Ptr)
  | free
  | port (p : U16)
  | listen
  | adopt
  | bufs (rtx ooo : Ptr) (ok : Bool)
  | connect (rtx ooo : Ptr) (port : U16) (ip : U32) (dport : U16) (isn : U32)
  | passive (rtx ooo : Ptr) (g : Segment) (l : Slot) (pid isn : U32) (sent : Bool)
  | refuse (rtx ooo : Ptr) (g : Segment) (l : Slot) (pid : U32)
  | go (ticks : U32) (sent : Bool)
  | segment (h : Heap) (g : Segment) (ticks : U32) (sent : Bool)
  | retransmit (now : U32) (sent : Bool)
  | send (data : List U8) (ticks : U32) (sent : Bool)
  | fin (sent : Bool)
  | reply (data : List U8) (ticks : U32) (sent : Bool)
  | recv (r : Nat)

def Sock.noteIf (s : Sock) (o : Option Out) (ok : Bool) : Sock :=
  match o with
  | none => s
  | some _ => s.noteSent ok

def Sock.withBufs (s : Sock) (rtx ooo : Ptr) : Sock := { s with rtx := rtx, ooo := ooo }

def Sock.Connected (s : Sock) : Prop := s.used = true ∧ s.state ≠ .unused ∧ s.state ≠ .listen

def Event.Enabled (s : Sock) : Event → Prop
  | .fresh _ _ _ => s.used = false
  | .free => True
  | .port _ => s.state = .unused
  | .listen => s.used = true ∧ s.type = .tcp
  | .adopt => s.used = true ∧ s.state = .established
  | .bufs _ _ _ => s.Connected → s.rtx = 0
  | .connect rtx ooo _ _ _ _ => s.used = true ∧ s.type = .tcp ∧ s.state = .unused ∧ rtx ≠ 0 ∧ ooo ≠ 0
  | .passive rtx ooo _ _ _ _ _ => s.used = false ∧ rtx ≠ 0 ∧ ooo ≠ 0
  | .refuse _ _ _ _ _ => s.used = false
  | .go _ _ => True
  | .segment _ _ _ _ => s.used = true ∧ s.type = .tcp ∧ s.state ≠ .listen
  | .retransmit _ _ => s.used = true ∧ s.type = .tcp
  | .send data _ _ => s.isOpen = true ∧ s.rtxLen = 0 ∧ data.length ≤ tcpRtxBuf ∧ s.rtx ≠ 0
  | .fin _ => s.type = .tcp ∧ s.isOpen = true
  | .reply data _ _ => data.length ≤ tcpRtxBuf ∧ s.rtx ≠ 0 ∧ s.ooo ≠ 0
  | .recv _ => True

def Sock.sent (s : Sock) (data : List U8) (ticks : U32) (sent undo : Bool) : Sock :=
  if sent then ((s.queue data).noteSent true).armed ticks
  else if undo then s.noteSent false
  else (s.queue data).noteSent false

def Sock.after (s : Sock) (buf : Nat → U8) : Event → Sock
  | .fresh type pid rx => { s.fresh type pid with rx := rx, used := decide (rx ≠ 0) }
  | .free => s.free
  | .port p => { s with localPort := p }
  | .listen => { s with state := .listen }
  | .adopt => { s with parent := none }
  | .bufs rtx ooo ok => if ok then (s.withBufs rtx ooo).resetBufs else s.withBufs rtx ooo
  | .connect rtx ooo port ip dport isn => (s.withBufs rtx ooo).resetBufs.connecting port ip dport isn
  | .passive rtx ooo g l pid isn sent =>
    ((((s.accepting g l pid).withBufs rtx ooo).resetBufs).synReceived isn g.seq).noteSent sent
  | .refuse rtx ooo g l pid => { (s.accepting g l pid).withBufs rtx ooo with used := false }
  | .go ticks sent => (s.synGo ticks).noteSent sent
  | .segment h g ticks sent =>
    let r := handleSegment s h ticks g
    r.sock.noteIf r.reply sent
  | .retransmit now sent =>
    let r := s.retransmit (fun _ => buf) now
    r.1.noteIf r.2 sent
  | .send data ticks sent => s.sent data ticks sent true
  | .fin sent => if sent then (s.noteSent true).closing else s.noteSent false
  | .reply data ticks sent => s.resetBufs.sent data ticks sent false
  | .recv r => { s with rxR := r }

def Conn.bufAfter (c : Conn) : Event → Nat → U8
  | .segment _ g _ _ =>
    if g.has tcpRst || !g.has tcpAck then c.buf
    else c.sock.ackShift (fun _ => c.buf) g.ack c.sock.rtx
  | .send data _ _ => fun k => if k < data.length then data.getD k 0 else c.buf k
  | .reply data _ _ => fun k => if k < data.length then data.getD k 0 else c.buf k
  | _ => c.buf

def LifeStep (c : Conn) (e : Event) (d : Conn) : Prop :=
  e.Enabled c.sock ∧ d.sock = c.sock.after c.buf e ∧ (d.sock.rtx = c.sock.rtx → d.buf = c.bufAfter e)

def bootSock : Sock where
  used := false
  type := .udp
  state := .unused
  gotFin := false
  localPort := 0
  peerPort := 0
  peerIp := 0
  ownerPid := 0
  parent := none
  rx := 0
  rxR := 0
  rxW := 0
  sndNxt := 0
  rcvNxt := 0
  sndUna := 0
  rtx := 0
  rtxLen := 0
  rtoTick := 0
  rtxTries := 0
  synUnacked := false
  ooo := 0
  oooSeq := 0
  oooLen := 0
  track := ⟨0, false, [], false, false⟩

def bootConn : Conn := ⟨bootSock, fun _ => 0⟩

def openEvents : List Event :=
  [.fresh .tcp 1 0x100, .connect 0x200 0x300 40000 0x0A000202 80 0x1000, .go 5 true]

def follow (c : Conn) (es : List Event) : Conn :=
  es.foldl (fun c e => ⟨c.sock.after c.buf e, c.bufAfter e⟩) c

def synSentConn : Conn := follow bootConn openEvents

def synAckOf (ack : U32) : Segment := ⟨tcpSyn ||| tcpAck, 7, ack, 80, 40000, 0x0A000202, []⟩

def segmentEvent (g : Segment) : Event := .segment (fun _ _ => 0) g 6 true

theorem lifeStep_of_enabled {c : Conn} {e : Event} (h : e.Enabled c.sock) :
    LifeStep c e ⟨c.sock.after c.buf e, c.bufAfter e⟩ := ⟨h, rfl, fun _ => rfl⟩

theorem openEvents_life : Run LifeStep bootConn openEvents synSentConn :=
  .cons (lifeStep_of_enabled rfl) (.cons (lifeStep_of_enabled ⟨rfl, rfl, rfl, by decide, by decide⟩)
    (.cons (lifeStep_of_enabled trivial) (.nil _)))

def talkEvents : List Event :=
  [segmentEvent (synAckOf 0x1001), .send [1, 2, 3] 8 true,
    segmentEvent { synAckOf 0x1002 with flags := tcpAck, seq := 8 }, .retransmit 300 true]

theorem lifeStep_segment {c : Conn} {g : Segment}
    (h : c.sock.used = true ∧ c.sock.type = .tcp ∧ c.sock.state ≠ .listen) :
    LifeStep c (segmentEvent g) (follow c [segmentEvent g]) := lifeStep_of_enabled h

/-! ### What a segment does to the sending side -/

def RecvOnly (s s' : Sock) : Prop :=
  ∃ w n q l f, s' = { s with rxW := w, rcvNxt := n, oooSeq := q, oooLen := l, gotFin := f }

theorem RecvOnly.refl (s : Sock) : RecvOnly s s := ⟨_, _, _, _, _, rfl⟩

theorem RecvOnly.of_eq {s s' : Sock} (h : s' = s) : RecvOnly s s' := h ▸ .refl s

theorem RecvOnly.trans {s t u : Sock} (h : RecvOnly s t) (h' : RecvOnly t u) : RecvOnly s u := by
  obtain ⟨w, n, q, l, f, rfl⟩ := h
  obtain ⟨w', n', q', l', f', rfl⟩ := h'
  exact ⟨w', n', q', l', f', rfl⟩

theorem storeRing_recvOnly (s : Sock) (h : Heap) (data : List U8) :
    RecvOnly s (storeRing s h data).sock := ⟨_, _, _, _, _, rfl⟩

def Sock.flushable (s : Sock) : Nat := min s.oooLen (spaceIn s.rxR s.rxW)

def flushRun (r : Handled) : List U8 := (List.range r.sock.flushable).map (r.heap r.sock.ooo)

def flushRound (r : Handled) : Handled :=
  let t := storeRing r.sock r.heap (flushRun r)
  ⟨{ t.sock with oooLen := r.sock.oooLen - r.sock.flushable, oooSeq := t.sock.rcvNxt },
    Function.update t.heap r.sock.ooo fun k =>
      if k + r.sock.flushable < r.sock.oooLen then t.heap r.sock.ooo (k + r.sock.flushable)
      else t.heap r.sock.ooo k,
    r.rx + r.sock.flushable, none⟩

theorem flushOoo_succ (fuel : Nat) (r : Handled) : flushOoo (fuel + 1) r =
    if r.sock.oooLen ≠ 0 ∧ r.sock.oooSeq = r.sock.rcvNxt then
      if r.sock.flushable = 0 then r else flushOoo fuel (flushRound r)
    else r := rfl

theorem flushOoo_recvOnly (fuel : Nat) (r : Handled) : RecvOnly r.sock (flushOoo fuel r).sock := by
  induction fuel generalizing r with
  | zero => exact .refl _
  | succ fuel ih =>
    rw [flushOoo_succ]
    split
    · split
      · exact .refl _
      · refine RecvOnly.trans ?_ (ih _)
        exact (storeRing_recvOnly _ _ _).trans ⟨_, _, _, _, _, rfl⟩
    · exact .refl _

theorem storeData_recvOnly (s : Sock) (h : Heap) (g : Segment) : RecvOnly s (storeData s h g).sock := by
  rw [storeData]
  split
  · exact .refl _
  · split
    · exact .refl _
    · split
      · exact (storeRing_recvOnly _ _ _).trans (flushOoo_recvOnly _ _)
      · split
        · exact ⟨_, _, _, _, _, rfl⟩
        · exact .refl _

theorem handleOpen_cases (s : Sock) (h : Heap) (g : Segment) :
    RecvOnly s (handleOpen s h g).sock ∨
    s.state = .established ∧ RecvOnly { s with state := .closeWait } (handleOpen s h g).sock := by
  have hr := storeData_recvOnly s h g
  rw [handleOpen]
  obtain ⟨w, n, q, l, f, hs⟩ := hr
  simp only
  rw [hs]
  split
  · by_cases he : s.state = .established
    · right
      refine ⟨he, ?_⟩
      simp only [he, if_true]
      exact ⟨_, _, _, _, _, rfl⟩
    · left
      simp only [he, if_false]
      exact ⟨_, _, _, _, _, rfl⟩
  · left
    exact ⟨_, _, _, _, _, rfl⟩

inductive Moves (a : Sock) (g : Segment) (s' : Sock) : Prop where
  | freed (h : s'.used = false) (hs : s'.state = .unused)
  | stays (hsent : a.state = .synSent → g.has tcpSyn = true → g.has tcpAck = true → g.ack ≠ a.sndUna)
      (hrcvd : a.state = .synRcvd → g.has tcpAck = true → g.ack ≠ a.sndNxt) (h : RecvOnly a s')
  | opens (hs : a.state = .synSent) (hsyn : g.has tcpSyn = true) (hack : g.has tcpAck = true)
      (ha : g.ack = a.sndUna) (h : RecvOnly a.opened s')
  | accepted (hs : a.state = .synRcvd) (hack : g.has tcpAck = true) (ha : g.ack = a.sndNxt)
      (h : RecvOnly { a with state := .established } s')
  | acceptedFin (hs : a.state = .synRcvd) (hack : g.has tcpAck = true) (ha : g.ack = a.sndNxt)
      (h : RecvOnly { a with state := .closeWait } s')
  | peerClosed (hs : a.state = .established) (h : RecvOnly { a with state := .closeWait } s')
  | finAcked (hs : a.state = .finWait1) (hack : g.has tcpAck = true) (ha : g.ack = a.sndNxt)
      (h : RecvOnly { a with state := .finWait2 } s')

theorem handleFinWait_cases (s : Sock) (h : Heap) (g : Segment) :
    (handleFinWait s h g).sock.used = false ∧ (handleFinWait s h g).sock.state = .unused ∨
      (handleFinWait s h g).sock = s := by
  rw [handleFinWait]
  split
  · exact .inl ⟨rfl, rfl⟩
  · exact .inr rfl

theorem Moves.stays_of {a s' : Sock} {g : Segment} (hs : a.state ≠ .synSent) (hr : a.state ≠ .synRcvd)
    (h : RecvOnly a s') : Moves a g s' :=
  .stays (fun h => absurd h hs) (fun h => absurd h hr) h

theorem handleState_moves (a : Sock) (h : Heap) (g : Segment) : Moves a g (handleState a h g).sock := by
  rw [handleState]
  split
  · rename_i hs
    split
    · rename_i hno
      refine .stays (fun _ h1 h2 h3 => ?_) (fun h => by rw [hs] at h; cases h) (.refl _)
      simp [h1, h2, h3] at hno
    · rename_i hno
      simp only [Bool.or_eq_true, Bool.not_eq_true', bne_iff_ne, not_or, ne_eq, not_not,
        Bool.not_eq_false] at hno
      exact .opens hs hno.1.1 hno.1.2 hno.2 ⟨_, _, _, _, _, rfl⟩
  · rename_i hs
    split
    · rename_i hno
      refine .stays (fun h => by rw [hs] at h; cases h) (fun _ h1 h2 => ?_) (.refl _)
      simp [h1, h2] at hno
    · rename_i hno
      simp only [Bool.or_eq_true, Bool.not_eq_true', bne_iff_ne, not_or, ne_eq, not_not,
        Bool.not_eq_false] at hno
      simp only
      split
      · exact .accepted hs hno.1 hno.2 (.refl _)
      · rcases handleOpen_cases { a with state := .established } h g with hr | ⟨-, hr⟩
        · exact .accepted hs hno.1 hno.2 hr
        · exact .acceptedFin hs hno.1 hno.2 hr
  · rename_i hs
    rcases handleOpen_cases a h g with hr | ⟨-, hr⟩
    · exact .stays_of (by simp [hs]) (by simp [hs]) hr
    · exact .peerClosed hs hr
  · rename_i hs
    rcases handleOpen_cases a h g with hr | ⟨he, -⟩
    · exact .stays_of (by simp [hs]) (by simp [hs]) hr
    · rw [hs] at he
      cases he
  · rename_i hs
    split
    · exact .freed rfl rfl
    · exact .stays_of (by simp [hs]) (by simp [hs]) (.refl _)
  · rename_i hs
    split
    · rename_i hack
      rcases handleFinWait_cases { a with state := .finWait2 } h g with ⟨hf, hf'⟩ | hf
      · exact .freed hf hf'
      · exact .finAcked hs hack.1 hack.2 (.of_eq hf)
    · rcases handleFinWait_cases a h g with ⟨hf, hf'⟩ | hf
      · exact .freed hf hf'
      · exact .stays_of (by simp [hs]) (by simp [hs]) (.of_eq hf)
  · rename_i hs
    rcases handleFinWait_cases a h g with ⟨hf, hf'⟩ | hf
    · exact .freed hf hf'
    · exact .stays_of (by simp [hs]) (by simp [hs]) (.of_eq hf)
  · rename_i hs
    exact .stays_of (by simp [hs]) (by simp [hs]) (.refl _)
  · rename_i hs
    exact .stays_of (by simp [hs]) (by simp [hs]) (.refl _)

theorem Moves.past {a s' : Sock} {g : Segment} (h : Moves a g s') (hs : a.state ≠ .synSent)
    (hr : a.state ≠ .synRcvd) :
    s'.state ≠ .synSent ∧ s'.state ≠ .synRcvd ∧ (s'.used = true → s'.rtx = a.rtx) ∧
      (s'.state = .established → a.state = .established) ∧ (a.state = .unused → s'.state = .unused) := by
  cases h with
  | freed hu hst =>
    exact ⟨by simp [hst], by simp [hst], by simp [hu], by simp [hst], fun _ => hst⟩
  | stays _ _ h =>
    obtain ⟨w, n, q, l, f, rfl⟩ := h
    exact ⟨hs, hr, fun _ => rfl, id, id⟩
  | opens h => exact absurd h hs
  | accepted h => exact absurd h hr
  | acceptedFin h => exact absurd h hr
  | peerClosed he h =>
    obtain ⟨w, n, q, l, f, rfl⟩ := h
    exact ⟨nofun, nofun, fun _ => rfl, nofun, fun h => absurd (he.symm.trans h) (by decide)⟩
  | finAcked he _ _ h =>
    obtain ⟨w, n, q, l, f, rfl⟩ := h
    exact ⟨nofun, nofun, fun _ => rfl, nofun, fun h => absurd (he.symm.trans h) (by decide)⟩

theorem RecvOnly.rtx {s s' : Sock} (h : RecvOnly s s') : s'.rtx = s.rtx := by
  obtain ⟨w, n, q, l, f, rfl⟩ := h
  rfl

theorem Moves.rtx {a s' : Sock} {g : Segment} (h : Moves a g s') : s'.used = false ∨ s'.rtx = a.rtx := by
  cases h with
  | freed hu => exact .inl hu
  | stays _ _ hr => exact .inr hr.rtx
  | opens _ _ _ _ hr => exact .inr hr.rtx
  | accepted _ _ _ hr => exact .inr hr.rtx
  | acceptedFin _ _ _ hr => exact .inr hr.rtx
  | peerClosed _ hr => exact .inr hr.rtx
  | finAcked _ _ _ hr => exact .inr hr.rtx

def Sock.acked (s : Sock) (ticks : U32) (g : Segment) : Sock :=
  if g.has tcpAck then s.ackAdvance ticks g.ack else s

theorem handleSegment_moves (s : Sock) (h : Heap) (ticks : U32) (g : Segment) :
    Moves (s.acked ticks g) g (handleSegment s h ticks g).sock := by
  rw [handleSegment, Sock.acked]
  by_cases hr : g.has tcpRst
  · rw [if_pos hr]
    exact .freed rfl rfl
  · rw [if_neg hr]
    by_cases ha : g.has tcpAck
    · rw [if_pos ha, if_pos ha]
      exact handleState_moves _ _ _
    · rw [if_neg ha, if_neg ha]
      exact handleState_moves _ _ _

theorem acks_syn {s : Sock} {ack isn : U32} (hu : s.sndUna = isn) (hn : s.sndNxt = isn + 1) :
    s.Acks ack ↔ ack = isn + 1 := by
  have hone : (s.sndNxt - s.sndUna).toNat = 1 := by
    rw [hu, hn, show isn + 1 - isn = 1 by grind]
    rfl
  rw [Sock.Acks, ahead_window_iff (by omega), hone, hu]
  constructor
  · rintro ⟨h1, h2⟩
    have h : ack - isn = 1 := BitVec.eq_of_toNat_eq (by
      rw [show ((1 : U32)).toNat = 1 from rfl]
      omega)
    grind
  · rintro rfl
    rw [show isn + 1 - isn = 1 by grind]
    decide

theorem not_acks_of_eq {s : Sock} {ack : U32} (h : s.sndNxt = s.sndUna) : ¬ s.Acks ack := by
  intro ha
  rw [Sock.Acks, h] at ha
  omega

theorem acks_one {s : Sock} {ack : U32} (h : s.sndNxt = s.sndUna + 1) : s.Acks ack ↔ ack = s.sndNxt :=
  (acks_syn rfl h).trans (by rw [h])

theorem ackAdvance_cases (s : Sock) (ticks ack : U32) :
    (¬ s.Acks ack ∧ s.ackAdvance ticks ack = s) ∨
    (s.Acks ack ∧ s.synUnacked = true ∧ s.ackAdvance ticks ack =
      { s with sndUna := ack, synUnacked := false, rtxTries := 0,
               rtoTick := if s.rtxLen = 0 then 0 else s.rtoTick }) ∨
    (s.Acks ack ∧ s.synUnacked = false ∧ s.rtxLen ≤ (ack - s.sndUna).toNat ∧ s.ackAdvance ticks ack =
      { s with sndUna := ack, rtxLen := 0, rtoTick := 0, rtxTries := 0 }) ∨
    (s.Acks ack ∧ s.synUnacked = false ∧ (ack - s.sndUna).toNat < s.rtxLen ∧ s.ackAdvance ticks ack =
      { s with sndUna := ack, rtxLen := s.rtxLen - (ack - s.sndUna).toNat,
               rtoTick := ticks + tcpRtoMs, rtxTries := 0 }) := by
  rw [Sock.ackAdvance]
  by_cases ha : s.Acks ack
  · rw [if_pos ha]
    by_cases hsyn : s.synUnacked = true
    · exact .inr (.inl ⟨ha, hsyn, if_pos hsyn⟩)
    · have hsyn' : s.synUnacked = false := by simpa using hsyn
      rw [if_neg hsyn]
      by_cases hlen : s.rtxLen ≤ (ack - s.sndUna).toNat
      · exact .inr (.inr (.inl ⟨ha, hsyn', hlen, if_pos hlen⟩))
      · exact .inr (.inr (.inr ⟨ha, hsyn', Nat.lt_of_not_le hlen, if_neg hlen⟩))
  · exact .inl ⟨ha, if_neg ha⟩

theorem ackAdvance_keeps (s : Sock) (ticks ack : U32) : ∃ u l t k y, s.ackAdvance ticks ack =
    { s with sndUna := u, rtxLen := l, rtoTick := t, rtxTries := k, synUnacked := y } := by
  rcases ackAdvance_cases s ticks ack with ⟨-, he⟩ | ⟨-, -, he⟩ | ⟨-, -, -, he⟩ | ⟨-, -, -, he⟩
  · exact ⟨_, _, _, _, _, he⟩
  · exact ⟨_, _, _, _, _, he⟩
  · exact ⟨_, _, _, _, _, he⟩
  · exact ⟨_, _, _, _, _, he⟩

theorem acked_keeps (s : Sock) (ticks : U32) (g : Segment) : ∃ u l t k y, s.acked ticks g =
    { s with sndUna := u, rtxLen := l, rtoTick := t, rtxTries := k, synUnacked := y } := by
  rw [Sock.acked]
  split
  · exact ackAdvance_keeps s ticks g.ack
  · exact ⟨_, _, _, _, _, rfl⟩

theorem acked_state (s : Sock) (ticks : U32) (g : Segment) : (s.acked ticks g).state = s.state := by
  obtain ⟨u, l, t, k, y, h⟩ := acked_keeps s ticks g
  rw [h]

def Sock.rearmed (s : Sock) (now : U32) : Sock :=
  { s with rtxTries := s.rtxTries + 1, rtoTick := now + backoff (s.rtxTries + 1) }

theorem retransmit_idle {s : Sock} {now : U32} (h : ¬ s.Due now) (hp : Heap) :
    s.retransmit hp now = (s, none) := if_neg h

theorem retransmit_due {s : Sock} {now : U32} (h : s.Due now) (hp : Heap) :
    s.retransmit hp now = (s.free, some (s.out (tcpRst ||| tcpAck) s.sndNxt [])) ∨
    s.synUnacked = true ∧ s.retransmit hp now = (s.rearmed now, some (s.out tcpSyn s.sndUna [])) ∨
    s.synUnacked = false ∧ s.rtxLen = 0 ∧
      s.retransmit hp now = ({ s.rearmed now with rtoTick := 0 }, none) ∨
    s.synUnacked = false ∧ s.rtxLen ≠ 0 ∧
      s.retransmit hp now = (s.rearmed now, some (s.out (tcpPsh ||| tcpAck) s.sndUna (s.pending hp))) := by
  rw [Sock.retransmit, if_pos h]
  by_cases hmax : tcpRtxMax ≤ s.rtxTries
  · exact .inl (if_pos hmax)
  · rw [if_neg hmax]
    by_cases hsyn : s.synUnacked = true
    · exact .inr (.inl ⟨hsyn, if_pos hsyn⟩)
    · have hsyn' : s.synUnacked = false := by simpa using hsyn
      by_cases hlen : s.rtxLen = 0
      · exact .inr (.inr (.inl ⟨hsyn', hlen, (if_neg hsyn).trans (if_pos hlen)⟩))
      · exact .inr (.inr (.inr ⟨hsyn', hlen, (if_neg hsyn).trans (if_neg hlen)⟩))

theorem noteIf_cases (s : Sock) (o : Option Out) (ok : Bool) :
    s.noteIf o ok = s ∨ s.noteIf o ok = s.noteSent ok := by
  cases o with
  | none => exact .inl rfl
  | some _ => exact .inr rfl

theorem noteIf_fields (s : Sock) (o : Option Out) (ok : Bool) :
    (s.noteIf o ok).used = s.used ∧ (s.noteIf o ok).state = s.state ∧
      (s.noteIf o ok).synUnacked = s.synUnacked ∧ (s.noteIf o ok).rtoTick = s.rtoTick ∧
      (s.noteIf o ok).rtxTries = s.rtxTries := by
  cases o <;> exact ⟨rfl, rfl, rfl, rfl, rfl⟩

theorem sent_cases (s : Sock) (data : List U8) (ticks : U32) (sent undo : Bool) :
    (s.sent data ticks sent undo).used = s.used ∧ (s.sent data ticks sent undo).state = s.state ∧
      (s.sent data ticks sent undo).rtx = s.rtx ∧ (s.sent data ticks sent undo).synUnacked = s.synUnacked := by
  rw [Sock.sent]
  cases sent <;> cases undo <;> exact ⟨rfl, rfl, rfl, rfl⟩

theorem retransmit_cases (s : Sock) (h : Heap) (now : U32) :
    (s.retransmit h now).1.used = false ∧ (s.retransmit h now).1.state = .unused ∨
    ∃ k t, (s.retransmit h now).1 = { s with rtxTries := k, rtoTick := t } := by
  rw [Sock.retransmit]
  split
  · split
    · exact .inl ⟨rfl, rfl⟩
    · simp only
      split
      · exact .inr ⟨_, _, rfl⟩
      · split
        · exact .inr ⟨_, _, rfl⟩
        · exact .inr ⟨_, _, rfl⟩
  · exact .inr ⟨_, _, rfl⟩

theorem Sock.isOpen_iff (s : Sock) : s.isOpen = true ↔ s.state = .established ∨ s.state = .closeWait := by
  rw [Sock.isOpen]
  simp

theorem after_retransmit (s : Sock) (buf : Nat → U8) (now : U32) (sent : Bool) :
    (s.after buf (.retransmit now sent)).used = false ∧
      (s.after buf (.retransmit now sent)).state = .unused ∨
    ∃ k t b, s.after buf (.retransmit now sent) =
      ({ s with rtxTries := k, rtoTick := t } : Sock).noteSent b := by
  have hn := noteIf_cases (s.retransmit (fun _ => buf) now).1 (s.retransmit (fun _ => buf) now).2 sent
  rcases retransmit_cases s (fun _ => buf) now with ⟨hu, hs⟩ | ⟨k, t, he⟩
  · rcases hn with hn | hn
    · exact .inl (by rw [Sock.after, hn]; exact ⟨hu, hs⟩)
    · exact .inl (by rw [Sock.after, hn]; exact ⟨hu, hs⟩)
  · rcases hn with hn | hn
    · exact .inr ⟨k, t, s.track.submitted, by rw [Sock.after, hn, he]; rfl⟩
    · exact .inr ⟨k, t, sent, by rw [Sock.after, hn, he]⟩

theorem connected_of_segment {s : Sock} {h : Heap} {g : Segment} {ticks : U32} {sent : Bool}
    (he : Event.Enabled s (.segment h g ticks sent)) (buf : Nat → U8)
    (hc : (s.after buf (.segment h g ticks sent)).Connected) : s.Connected := by
  refine ⟨he.1, fun hun => ?_, he.2.2⟩
  rw [Sock.after] at hc
  obtain ⟨hu, hst, -⟩ :=
    noteIf_fields (handleSegment s h ticks g).sock (handleSegment s h ticks g).reply sent
  have hst' := acked_state s ticks g
  have hp := (handleSegment_moves s h ticks g).past (by rw [hst', hun]; decide) (by rw [hst', hun]; decide)
  exact hc.2.1 (hst.trans (hp.2.2.2.2 (hst'.trans hun)))

theorem connected_of_open {s : Sock} (hu : s.used = true) (ho : s.isOpen = true) : s.Connected := by
  refine ⟨hu, ?_, ?_⟩
  all_goals rcases (Sock.isOpen_iff s).mp ho with h1 | h1 <;> simp [h1]

end Ezos.Tcp
