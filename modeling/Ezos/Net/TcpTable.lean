import Ezos.Net.Tcp

/-!
# The socket table

`Env` is what the table uses from outside: the frame builder and the card (`tcp_send_seg_ex` below
the choice of the segment), `kmalloc`, and `task_find`. Calls that sleep are cut at the sleeps:
`connectStart`, then `connectGo` when the MAC is resolved, then the wait for ESTABLISHED.
-/

namespace Ezos.Tcp

open Lib.Serial

set_option autoImplicit false

structure Env (σ : Type) where
  /-- The socket's addresses and the segment; `true` if the card takes the frame. -/
  send : σ → Sock → Out → Bool × σ
  kmalloc : σ → Nat → Ptr × σ
  alive : σ → U32 → Bool

structure Table (σ : Type) where
  socks : Slot → Sock
  heap : Heap
  ticks : U32
  lastTick : U32
  tcpRx : U32
  tcpTx : U32
  tcpRtx : U32
  udpRx : U32
  ephemeral : U16
  env : σ

variable {σ : Type} (E : Env σ)

def Table.set (t : Table σ) (i : Slot) (s : Sock) : Table σ :=
  { t with socks := Function.update t.socks i s }

def tcpSendSegEx (t : Table σ) (i : Slot) (o : Out) : Bool × Table σ :=
  let s := t.socks i
  if tcpSegMax < o.data.length then (false, t.set i (s.noteSent false))
  else
    let r := E.send t.env s o
    (r.1, { t.set i (s.noteSent r.1) with
      env := r.2, tcpTx := if r.1 then t.tcpTx + 1 else t.tcpTx })

def sendAny (t : Table σ) (i : Slot) : Option Out → Table σ
  | none => t
  | some o => (tcpSendSegEx E t i o).2

def allocIfNull (e : σ) (p : Ptr) (size : Nat) : Ptr × σ := if p = 0 then E.kmalloc e size else (p, e)

def tcpBufs (t : Table σ) (i : Slot) : Bool × Table σ :=
  let s := t.socks i
  let rtx := allocIfNull E t.env s.rtx tcpRtxBuf
  let s := { s with rtx := rtx.1 }
  if rtx.1 = 0 then (false, { t.set i s with env := rtx.2 })
  else
    let ooo := allocIfNull E rtx.2 s.ooo tcpOooBuf
    let s := { s with ooo := ooo.1 }
    if ooo.1 = 0 then (false, { t.set i s with env := ooo.2 })
    else (true, { t.set i s.resetBufs with env := ooo.2 })

/-- The ISN that `tcp_input`, `SC_CONNECT` and `net_tcp_connect` compute. -/
def nextIsn (t : Table σ) : U32 := 0x1000 + t.tcpTx * 64000 + t.udpRx

def Sock.matchesConn (s : Sock) (g : Segment) : Bool :=
  s.used && s.type == .tcp && s.localPort == g.dport && s.state != .listen && s.peerPort == g.sport &&
    s.peerIp == g.src

def Sock.listensOn (s : Sock) (g : Segment) : Bool :=
  s.used && s.type == .tcp && s.localPort == g.dport && s.state == .listen

def findConn (t : Table σ) (g : Segment) : Option Slot :=
  Fin.find? fun i => (t.socks i).matchesConn g

def findListener (t : Table σ) (g : Segment) : Option Slot :=
  Fin.findRev? fun i => (t.socks i).listensOn g

def freeSlot (t : Table σ) : Option Slot := Fin.find? fun i => !(t.socks i).used

def passiveOpen (t : Table σ) (l i : Slot) (g : Segment) : Table σ :=
  let t := t.set i ((t.socks i).accepting g l (t.socks l).ownerPid)
  let r := tcpBufs E t i
  let t := r.2
  if r.1 then
    let isn := nextIsn t
    let s := (t.socks i).synReceived isn g.seq
    sendAny E (t.set i s) i (some (s.out (tcpSyn ||| tcpAck) isn []))
  else t.set i { t.socks i with used := false }

def tcpInput (t : Table σ) (g : Segment) : Table σ :=
  match findConn t g with
  | some i =>
    let r := handleSegment (t.socks i) t.heap t.ticks g
    -- the reply goes out before `sock_free`; its result is not looked at
    sendAny E { t.set i r.sock with heap := r.heap, tcpRx := t.tcpRx + BitVec.ofNat 32 r.rx } i r.reply
  | none =>
    match findListener t g with
    | none => t
    | some l =>
      if !g.has tcpSyn || g.has tcpAck then t
      else match freeSlot t with
        | none => t
        | some i => passiveOpen E t l i g

def retransmitSlot (t : Table σ) (now : U32) (i : Slot) : Table σ :=
  let s := t.socks i
  if s.used && s.type == .tcp && s.rtoTick != 0 then
    let r := s.retransmit t.heap now
    let again : Bool := s.Due now ∧ s.rtxTries < tcpRtxMax
    sendAny E { t.set i r.1 with tcpRtx := if again then t.tcpRtx + 1 else t.tcpRtx } i r.2
  else t

def netTick (t : Table σ) : Table σ :=
  if ahead t.ticks t.lastTick < ahead tcpTickMs 0 then t
  else (List.finRange netMaxSocks).foldl (fun u i => retransmitSlot E u t.ticks i)
    { t with lastTick := t.ticks }

def reclaim (t : Table σ) : Table σ :=
  { t with socks := fun i =>
      let s := t.socks i
      if s.used && s.ownerPid != 0 && !E.alive t.env s.ownerPid then s.free else s }

def sockAlloc (t : Table σ) (type : SockType) (pid : U32) : Option Slot × Table σ :=
  let t := reclaim E t
  match freeSlot t with
  | none => (none, t)
  | some i =>
    let s := (t.socks i).fresh type pid
    let rx := allocIfNull E t.env s.rx netSockBuf
    let s := { s with rx := rx.1 }
    if rx.1 = 0 then (none, { t.set i { s with used := false } with env := rx.2 })
    else (some i, { t.set i s with env := rx.2 })

def sockBind (t : Table σ) (i : Slot) (port : U16) : Table σ :=
  let s := t.socks i
  if !s.used || port == 0 || (s.type == .tcp && s.state != .unused) then t
  else if (Fin.find? fun j => (t.socks j).used && j != i && (t.socks j).localPort == port).isSome then t
  else t.set i { s with localPort := port }

def sockListen (t : Table σ) (i : Slot) : Table σ :=
  let s := t.socks i
  if !s.used || s.type != .tcp || s.localPort == 0 then t else t.set i { s with state := .listen }

/-- The child that `SC_ACCEPT` and `net_httpd_once` take from listener `l`. -/
def acceptable (t : Table σ) (l : Slot) : Option Slot :=
  Fin.find? fun i =>
    (t.socks i).used && (t.socks i).parent == some l && (t.socks i).state == .established

def sockAccept (t : Table σ) (l : Slot) : Table σ :=
  match acceptable t l with
  | none => t
  | some i => t.set i { t.socks i with parent := none }

/-- `cand = g_ephemeral++; if (cand < 40000) g_ephemeral = 40000`, at most `tries` times, until a
port is found that no socket uses. -/
def ephemeralPort (t : Table σ) : Nat → U16 → Option U16 × U16
  | 0, cursor => (none, cursor)
  | tries + 1, cursor =>
    let next := if cursor < 40000 then 40000 else cursor + 1
    let conflict := (Fin.find? fun i => (t.socks i).used && (t.socks i).localPort == cursor).isSome
    if conflict || cursor == 0 then ephemeralPort t tries next else (some cursor, next)

/-- The common part of `SC_CONNECT` and `net_tcp_connect` before the ARP resolution. -/
def connectStart (t : Table σ) (i : Slot) (ip : U32) (dport : U16) : Bool × Table σ :=
  let port := ephemeralPort t 200 t.ephemeral
  let t := { t with ephemeral := port.2 }
  match port.1 with
  | none => (false, t)
  | some port =>
    let r := tcpBufs E t i
    let t := r.2
    if r.1 then (true, t.set i ((t.socks i).connecting port ip dport (nextIsn t))) else (false, t)

/-- `SC_CONNECT` up to the ARP resolution. -/
def scConnect (t : Table σ) (i : Slot) (ip : U32) (dport : U16) : Bool × Table σ :=
  let s := t.socks i
  if !s.used || s.type != .tcp || s.state != .unused || s.localPort != 0 || ip == 0 || dport == 0 then
    (false, t)
  else connectStart E t i ip dport

/-- `net_tcp_connect` up to the ARP resolution. -/
def netTcpConnect (t : Table σ) (ip : U32) (dport : U16) : Option Slot × Table σ :=
  if ip == 0 || dport == 0 then (none, t)
  else
    let a := sockAlloc E t .tcp 0
    match a.1 with
    | none => (none, a.2)
    | some i =>
      let r := connectStart E a.2 i ip dport
      if r.1 then (some i, r.2) else (none, r.2.set i (r.2.socks i).free)

def connectGo (t : Table σ) (i : Slot) : Table σ :=
  let s := t.socks i
  sendAny E (t.set i (s.synGo t.ticks)) i (some (s.out tcpSyn s.sndNxt []))

def connectFail (t : Table σ) (i : Slot) : Table σ := t.set i (t.socks i).free

/-- One segment of `SC_SENDTO` or `net_tcp_send`. -/
def sendData (t : Table σ) (i : Slot) (data : List U8) : Bool × Table σ :=
  let s := t.socks i
  if !s.isOpen || s.rtxLen != 0 || tcpRtxBuf < data.length then (false, t)
  else
    let b := if s.rtx = 0 then tcpBufs E t i else (true, t)
    let t := b.2
    if !b.1 then (false, t)
    else
      let s := t.socks i
      let o := s.out (tcpPsh ||| tcpAck) s.sndNxt data
      let r := tcpSendSegEx E { t.set i (s.queue data) with heap := s.fillRtx t.heap data } i o
      let t := r.2
      if r.1 then (true, t.set i ((t.socks i).armed t.ticks))
      else
        let f := t.socks i
        (false, t.set i { f with
          rtxLen := 0, sndNxt := s.sndNxt, track := { f.track with stream := s.track.stream } })

def scSendto (t : Table σ) (i : Slot) (data : List U8) : Bool × Table σ :=
  if !(t.socks i).used || (t.socks i).type != .tcp || data.length == 0 then (false, t)
  else sendData E t i data

/-- A chunk of `net_tcp_send`; after a sleep the slot is used without being looked up again. -/
def netTcpSendChunk (t : Table σ) (i : Slot) (data : List U8) : Bool × Table σ :=
  sendData E t i (data.take tcpRtxBuf)

/-- `SC_RECVFROM` on a TCP socket and `net_tcp_recv`, after the wait. -/
def sockRecv (t : Table σ) (i : Slot) (max : Nat) : List U8 × Table σ :=
  let r := (t.socks i).recv t.heap max
  (r.1, t.set i r.2)

def tcpClose (t : Table σ) (i : Slot) : Table σ :=
  let s := t.socks i
  if s.type = .tcp ∧ s.isOpen then
    let o := s.out (tcpFin ||| tcpAck) s.sndNxt []
    let r := tcpSendSegEx E t i o
    if r.1 then r.2.set i (r.2.socks i).closing else r.2
  else
    let t :=
      if s.type = .tcp ∧ s.state = .listen then
        { t with socks := fun j =>
            if (t.socks j).used ∧ (t.socks j).parent = some i then (t.socks j).free else t.socks j }
      else t
    t.set i (t.socks i).free

def sockClose (t : Table σ) (i : Slot) : Table σ := if (t.socks i).used then tcpClose E t i else t

/-- `net_httpd_once` up to its wait for a connection. -/
def httpdStart (t : Table σ) : Option Slot × Table σ :=
  let a := sockAlloc E t .tcp 0
  match a.1 with
  | none => (none, a.2)
  | some l =>
    let b := tcpBufs E a.2 l
    let t := b.2
    if !b.1 then (none, t.set l (t.socks l).free)
    else
      let t := t.set l { t.socks l with localPort := 80 }
      if (Fin.find? fun j => (t.socks j).used && j != l && (t.socks j).localPort == 80).isSome then
        (none, t.set l (t.socks l).free)
      else (some l, t.set l { t.socks l with state := .listen })

/-- The answer of `net_httpd_once` on its connection `c`: no roll back if the card refuses. -/
def httpdReply (t : Table σ) (c : Slot) (resp : List U8) : Table σ :=
  if tcpRtxBuf < resp.length then t
  else
    let b := tcpBufs E t c
    let t := b.2
    if !b.1 then t
    else
      let s := t.socks c
      let o := s.out (tcpPsh ||| tcpAck) s.sndNxt resp
      let r := tcpSendSegEx E { t.set c (s.queue resp) with heap := s.fillRtx t.heap resp } c o
      let t := r.2
      if r.1 then t.set c ((t.socks c).armed t.ticks) else t

def httpdEnd (t : Table σ) (l : Slot) (c : Option Slot) : Table σ :=
  let t := tcpClose E t l
  match c with
  | none => t
  | some c => tcpClose E t c

end Ezos.Tcp
