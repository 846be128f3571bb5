import Ezos.Lib.Serial
import Ezos.Lib.Ring
import Mathlib.Data.Fin.Tuple.Basic
import Mathlib.Logic.Function.Basic

/-!
# TCP sockets of `kernel/net.c`: what one socket does

A buffer is named by the pointer that `kmalloc` returned for it, 0 being NULL, and `Heap` holds the
contents. This module has everything that touches one socket; the table is in `TcpTable`.
-/

namespace Ezos.Tcp

open Lib.Serial

set_option autoImplicit false

def netMaxSocks : Nat := 8
def netSockBuf : Nat := 4096
def tcpRtoMs : U32 := 200
def tcpRtxMax : Nat := 5
def tcpRtxBuf : Nat := 1536
def tcpOooBuf : Nat := 2048
def tcpTickMs : U32 := 100
/-- `NET_BUILD_MAX - IP_HDR_MIN - TCP_HDR_MIN`. -/
def tcpSegMax : Nat := 1752

def tcpFin : U8 := 0x01
def tcpSyn : U8 := 0x02
def tcpRst : U8 := 0x04
def tcpPsh : U8 := 0x08
def tcpAck : U8 := 0x10

inductive State where
  | unused | listen | synRcvd | synSent | established | closeWait | lastAck | finWait1 | finWait2
deriving DecidableEq

inductive SockType where
  | udp | tcp
deriving DecidableEq

abbrev Ptr := U32
abbrev Heap := Ptr → Nat → U8
abbrev Slot := Fin netMaxSocks

theorem zero_lt_socks : 0 < netMaxSocks := by decide
theorem one_lt_socks : 1 < netMaxSocks := by decide

structure Track where
  isn : U32
  /-- The SYN has been handed to `tcp_send_seg_ex`. -/
  synSent : Bool
  /-- The bytes that the application has had accepted. -/
  stream : List U8
  finSent : Bool
  /-- The last transmission on the socket was taken by the card. -/
  submitted : Bool

structure Sock where
  used : Bool
  type : SockType
  state : State
  gotFin : Bool
  localPort : U16
  peerPort : U16
  peerIp : U32
  ownerPid : U32
  parent : Option Slot
  rx : Ptr
  rxR : Nat
  rxW : Nat
  sndNxt : U32
  rcvNxt : U32
  sndUna : U32
  rtx : Ptr
  rtxLen : Nat
  rtoTick : U32
  rtxTries : Nat
  synUnacked : Bool
  ooo : Ptr
  oooSeq : U32
  oooLen : Nat
  track : Track

structure Segment where
  flags : U8
  seq : U32
  ack : U32
  sport : U16
  dport : U16
  src : U32
  data : List U8

def Segment.has (g : Segment) (f : U8) : Bool := g.flags &&& f != 0

structure Out where
  flags : U8
  seq : U32
  ack : U32
  data : List U8

def Sock.out (s : Sock) (flags : U8) (seq : U32) (data : List U8) : Out := ⟨flags, seq, s.rcvNxt, data⟩

/-- `sock_free`: the buffers stay with the slot. -/
def Sock.free (s : Sock) : Sock :=
  { s with used := false, state := .unused, rtxLen := 0, rtoTick := 0, rtxTries := 0,
           synUnacked := false, oooLen := 0 }

def Sock.resetBufs (s : Sock) : Sock :=
  { s with rtxLen := 0, rtoTick := 0, rtxTries := 0, synUnacked := false, oooLen := 0, oooSeq := 0 }

def Sock.noteSent (s : Sock) (ok : Bool) : Sock := { s with track := { s.track with submitted := ok } }

def spaceIn (r w : Nat) : Nat := (netSockBuf - 1 + r - w) % netSockBuf

def ringStore (b : Nat → U8) (w : Nat) : List U8 → (Nat → U8) × Nat
  | [] => (b, w)
  | c :: cs => ringStore (Lib.Ring.put b w c) ((w + 1) % netSockBuf) cs

/-- `while (n < max && rx_r != rx_w)`: the bytes read and the new read index. -/
def ringRead (b : Nat → U8) (w : Nat) : Nat → Nat → List U8 × Nat
  | 0, r => ([], r)
  | n + 1, r =>
    if r = w then ([], r)
    else
      let rest := ringRead b w n ((r + 1) % netSockBuf)
      (b r :: rest.1, rest.2)

/-- `SC_RECVFROM` and `net_tcp_recv` once their condition holds. -/
def Sock.recv (s : Sock) (h : Heap) (max : Nat) : List U8 × Sock :=
  let got := ringRead (h s.rx) s.rxW max s.rxR
  (got.1, { s with rxR := got.2 })

/-- The acknowledgement is inside `(snd_una, snd_nxt]`. -/
def Sock.Acks (s : Sock) (ack : U32) : Prop := 0 < ahead ack s.sndUna ∧ ahead ack s.sndNxt ≤ 0

instance (s : Sock) (ack : U32) : Decidable (s.Acks ack) := by
  unfold Sock.Acks
  infer_instance

def Sock.ackAdvance (s : Sock) (ticks ack : U32) : Sock :=
  if s.Acks ack then
    let acked := (ack - s.sndUna).toNat
    let s' := { s with sndUna := ack }
    if s.synUnacked then
      { s' with synUnacked := false, rtxTries := 0,
                rtoTick := if s.rtxLen = 0 then 0 else s.rtoTick }
    else if s.rtxLen ≤ acked then { s' with rtxLen := 0, rtoTick := 0, rtxTries := 0 }
    else { s' with rtxLen := s.rtxLen - acked, rtoTick := ticks + tcpRtoMs, rtxTries := 0 }
  else s

def Sock.ackShift (s : Sock) (h : Heap) (ack : U32) : Heap :=
  let acked := (ack - s.sndUna).toNat
  if s.Acks ack ∧ ¬ s.synUnacked ∧ acked < s.rtxLen then
    Function.update h s.rtx fun k => if k + acked < s.rtxLen then h s.rtx (k + acked) else h s.rtx k
  else h

/-- What handling a segment leaves: the socket, the heap, the bytes counted in `g_tcp_rx` and the
segment sent back. -/
structure Handled where
  sock : Sock
  heap : Heap
  rx : Nat
  reply : Option Out

def storeRing (s : Sock) (h : Heap) (data : List U8) : Handled :=
  let stored := ringStore (h s.rx) s.rxW data
  ⟨{ s with rxW := stored.2, rcvNxt := s.rcvNxt + BitVec.ofNat 32 data.length },
    Function.update h s.rx stored.1, data.length, none⟩

def flushOoo : Nat → Handled → Handled
  | 0, r => r
  | fuel + 1, r =>
    let s := r.sock
    if s.oooLen ≠ 0 ∧ s.oooSeq = s.rcvNxt then
      let n := min s.oooLen (spaceIn s.rxR s.rxW)
      if n = 0 then r
      else
        let run := (List.range n).map (r.heap s.ooo)
        let t := storeRing s r.heap run
        let heap := Function.update t.heap s.ooo fun k =>
          if k + n < s.oooLen then t.heap s.ooo (k + n) else t.heap s.ooo k
        flushOoo fuel
          ⟨{ t.sock with oooLen := s.oooLen - n, oooSeq := t.sock.rcvNxt }, heap, r.rx + n, none⟩
    else r

def Sock.TakesOoo (s : Sock) (g : Segment) : Prop :=
  s.ooo ≠ 0 ∧ s.oooLen + g.data.length ≤ tcpOooBuf ∧
    (s.oooLen = 0 ∨ g.seq = s.oooSeq + BitVec.ofNat 32 s.oooLen)

instance (s : Sock) (g : Segment) : Decidable (s.TakesOoo g) := by
  unfold Sock.TakesOoo
  infer_instance

def keepOoo (s : Sock) (h : Heap) (g : Segment) : Handled :=
  ⟨{ s with oooSeq := if s.oooLen = 0 then g.seq else s.oooSeq, oooLen := s.oooLen + g.data.length },
    Function.update h s.ooo fun k =>
      if s.oooLen ≤ k ∧ k < s.oooLen + g.data.length then g.data.getD (k - s.oooLen) 0 else h s.ooo k,
    0, none⟩

def storeData (s : Sock) (h : Heap) (g : Segment) : Handled :=
  if g.data.length = 0 then ⟨s, h, 0, none⟩
  else if ahead g.seq s.rcvNxt < 0 then ⟨s, h, 0, none⟩
  else if g.seq = s.rcvNxt then
    flushOoo s.oooLen (storeRing s h (g.data.take (spaceIn s.rxR s.rxW)))
  else if s.TakesOoo g then keepOoo s h g
  else ⟨s, h, 0, none⟩

def Sock.FinNext (s : Sock) (g : Segment) : Prop :=
  g.has tcpFin ∧ g.seq + BitVec.ofNat 32 g.data.length = s.rcvNxt

instance (s : Sock) (g : Segment) : Decidable (s.FinNext g) := by
  unfold Sock.FinNext
  infer_instance

def Sock.takeFin (s : Sock) : Sock := { s with rcvNxt := s.rcvNxt + 1, gotFin := true }

def Sock.ackOut (s : Sock) : Out := s.out tcpAck s.sndNxt []

def handleOpen (s : Sock) (h : Heap) (g : Segment) : Handled :=
  let r := storeData s h g
  let s := r.sock
  let s := if s.FinNext g then
      { s.takeFin with state := if s.state = .established then .closeWait else s.state }
    else s
  { r with sock := s, reply := if g.data.length ≠ 0 ∨ g.has tcpFin then some s.ackOut else none }

def handleFinWait (s : Sock) (h : Heap) (g : Segment) : Handled :=
  if g.has tcpFin then
    let f := if s.FinNext g then s.takeFin else s
    ⟨f.free, h, 0, some f.ackOut⟩
  else ⟨s, h, 0, none⟩

def Sock.opened (s : Sock) : Sock :=
  { s with state := .established, synUnacked := false, rtoTick := 0, rtxTries := 0 }

def handleState (s : Sock) (h : Heap) (g : Segment) : Handled :=
  match s.state with
  | .synSent =>
    if !g.has tcpSyn || !g.has tcpAck || g.ack != s.sndUna then ⟨s, h, 0, none⟩
    else
      let s := { s.opened with rcvNxt := g.seq + 1 }
      ⟨s, h, 0, some s.ackOut⟩
  | .synRcvd =>
    if !g.has tcpAck || g.ack != s.sndNxt then ⟨s, h, 0, none⟩
    else
      let s := { s with state := .established }
      if g.data.length = 0 ∧ ¬ g.has tcpFin then ⟨s, h, 0, none⟩ else handleOpen s h g
  | .established => handleOpen s h g
  | .closeWait => handleOpen s h g
  | .lastAck => if g.has tcpAck ∧ g.ack = s.sndNxt then ⟨s.free, h, 0, none⟩ else ⟨s, h, 0, none⟩
  | .finWait1 =>
    handleFinWait (if g.has tcpAck ∧ g.ack = s.sndNxt then { s with state := .finWait2 } else s) h g
  | .finWait2 => handleFinWait s h g
  | .unused => ⟨s, h, 0, none⟩
  | .listen => ⟨s, h, 0, none⟩

/-- `tcp_input` once the connection is found. -/
def handleSegment (s : Sock) (h : Heap) (ticks : U32) (g : Segment) : Handled :=
  if g.has tcpRst then ⟨s.free, h, 0, none⟩
  else if g.has tcpAck then handleState (s.ackAdvance ticks g.ack) (s.ackShift h g.ack) g
  else handleState s h g

/-- `TCP_RTO_MS << (tries > 4 ? 4 : tries)`. -/
def backoff (tries : Nat) : U32 := tcpRtoMs <<< min tries 4

def Sock.Due (s : Sock) (now : U32) : Prop :=
  s.state ≠ .unused ∧ s.type = .tcp ∧ s.rtoTick ≠ 0 ∧ 0 ≤ ahead now s.rtoTick

instance (s : Sock) (now : U32) : Decidable (s.Due now) := by
  unfold Sock.Due
  infer_instance

def Sock.pending (s : Sock) (h : Heap) : List U8 := (List.range s.rtxLen).map (h s.rtx)

/-- `tcp_retransmit_check`: the socket after it, and what it sends. -/
def Sock.retransmit (s : Sock) (h : Heap) (now : U32) : Sock × Option Out :=
  if s.Due now then
    if tcpRtxMax ≤ s.rtxTries then (s.free, some (s.out (tcpRst ||| tcpAck) s.sndNxt []))
    else
      let tries := s.rtxTries + 1
      let s := { s with rtxTries := tries, rtoTick := now + backoff tries }
      if s.synUnacked then (s, some (s.out tcpSyn s.sndUna []))
      else if s.rtxLen = 0 then ({ s with rtoTick := 0 }, none)
      else (s, some (s.out (tcpPsh ||| tcpAck) s.sndUna (s.pending h)))
  else (s, none)

/-- The fields of a fresh socket (`sock_alloc`). -/
def Sock.fresh (s : Sock) (type : SockType) (pid : U32) : Sock :=
  { s with used := true, type := type, state := .unused, gotFin := false, localPort := 0,
           peerPort := 0, peerIp := 0, ownerPid := pid, parent := none, rxR := 0, rxW := 0,
           sndNxt := 0, rcvNxt := 0 }

def Sock.accepting (s : Sock) (g : Segment) (parent : Slot) (pid : U32) : Sock :=
  { s with used := true, type := .tcp, state := .synRcvd, localPort := g.dport, peerPort := g.sport,
           peerIp := g.src, gotFin := false, ownerPid := pid, parent := some parent, rxR := 0, rxW := 0 }

def Sock.synReceived (s : Sock) (isn peerSeq : U32) : Sock :=
  { s with sndNxt := isn + 1, sndUna := isn, rcvNxt := peerSeq + 1, track := ⟨isn, true, [], false, false⟩ }

def Sock.connecting (s : Sock) (port : U16) (ip : U32) (dport : U16) (isn : U32) : Sock :=
  { s with localPort := port, peerIp := ip, peerPort := dport, gotFin := false, rxR := 0, rxW := 0,
           rcvNxt := 0, sndNxt := isn, sndUna := isn, state := .synSent, synUnacked := true,
           track := ⟨isn, false, [], false, false⟩ }

def Sock.synGo (s : Sock) (ticks : U32) : Sock :=
  { s with rtoTick := ticks + tcpRtoMs, rtxTries := 0, sndNxt := s.sndNxt + 1,
           track := { s.track with synSent := true } }

/-- The state in which a segment of data is handed to `tcp_send_seg_ex`. -/
def Sock.queue (s : Sock) (data : List U8) : Sock :=
  { s with rtxLen := data.length, sndNxt := s.sndNxt + BitVec.ofNat 32 data.length,
           track := { s.track with stream := s.track.stream ++ data } }

def Sock.fillRtx (s : Sock) (h : Heap) (data : List U8) : Heap :=
  Function.update h s.rtx fun k => if k < data.length then data.getD k 0 else h s.rtx k

def Sock.armed (s : Sock) (ticks : U32) : Sock := { s with rtoTick := ticks + tcpRtoMs, rtxTries := 0 }

/-- The FIN of `tcp_close`, when the card takes it. -/
def Sock.closing (s : Sock) : Sock :=
  { s with sndNxt := s.sndNxt + 1,
           state := if s.state = .established then .finWait1 else .lastAck,
           track := { s.track with finSent := true } }

def Sock.isOpen (s : Sock) : Bool := s.state = .established || s.state = .closeWait

end Ezos.Tcp
