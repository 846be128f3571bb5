import Ezos.Net.Dhcp
import Ezos.Net.TcpTable

/-!
# The whole receive and send path of `kernel/net.c`

`Host` is everything below the sockets; a `Stack` is the socket table over it. A send that has to
ask for a MAC waits, and while it waits frames come in and the clock ticks: `Event` is a tree,
because handling a frame may be such a send itself.
-/

namespace Ezos.Net

open Lib.Memory Lib.NetOrder Lib.OnesComplement Lib.Serial Tcp

set_option autoImplicit false

structure PingWait where
  active : Bool
  got : Bool
  id : U16
  seq : U16

structure DnsWait where
  active : Bool
  got : Bool
  rcode : U8
  id : U16
  port : U16
  buf : Mem
  len : Nat

structure Host where
  client : Client
  ping : PingWait
  dns : DnsWait
  /-- What the `k`-th call of `kmalloc` returns. -/
  blocks : Nat → Ptr
  allocs : Nat
  alive : U32 → Bool
  arpReplied : U32
  icmpReplied : U32
  pingMatched : U32
  ipBadCsum : U32
  ipFragDrop : U32

def Host.link (h : Host) : Link := h.client.link

def Host.setLink (h : Host) (l : Link) : Host := { h with client := { h.client with link := l } }

def Host.learn (h : Host) (ip : U32) (mac : Mac) : Host :=
  h.setLink { h.link with arp := arpLearn h.link.arp ip mac }

def putTcpFields (m : Mem) (s : Sock) (o : Out) : Mem :=
  let m := put16 m 34 s.localPort
  let m := put16 m 36 s.peerPort
  let m := put32 m 38 o.seq
  let m := put32 m 42 o.ack
  let m := writeBytes m 46 [80, o.flags]
  let m := put16 m 48 4096
  put16 (put16 m 50 0) 52 0

def l4Sum (srcIp dstIp : U32) (proto : U8) (m : Mem) (a n len : Nat) : Nat :=
  let ps := ofList (bytes32 srcIp ++ bytes32 dstIp ++ [0, proto] ++ bytes16 (BitVec.ofNat 16 len))
  fold (cksumRaw ps 0 12 + cksumRaw m a n)

/-- The frame built in `g_build`; an odd segment is padded with a zero byte. -/
def tcpFrame (build : Mem) (dst src : List U8) (srcIp : U32) (id : U16) (s : Sock) (o : Out) : Mem :=
  let n := tcpHdrMin + o.data.length
  let m := putIpFields (putEth build dst src) n id 6 srcIp s.peerIp
  let m := writeBytes (putTcpFields m s o) 54 o.data
  let m := if n % 2 = 1 then writeBytes m (34 + n) [0] else m
  let m := put16 m 50 (~~~ BitVec.ofNat 16 (l4Sum srcIp s.peerIp 6 m 34 (n + n % 2) n))
  putIpCksum m

def tcpTransmit (l : Link) (s : Sock) (o : Out) : Bool × Link :=
  match arpLookup l.arp s.peerIp with
  | none => (false, l)
  | some mac =>
    let id := l.ipId + 1
    let r := tcpFrame l.build mac.toList l.card.mac.toList l.card.ip id s o
    let sent := l.card.send r (ethHdrLen + (ipHdrMin + tcpHdrMin + o.data.length))
    (sent.1, { l with build := r, ipId := id, card := sent.2 })

def hostEnv : Env Host where
  send h s o := ((tcpTransmit h.link s o).1, h.setLink (tcpTransmit h.link s o).2)
  kmalloc h _ := (h.blocks h.allocs, { h with allocs := h.allocs + 1 })
  alive h pid := h.alive pid

abbrev Stack := Table Host

def setHost (t : Stack) (h : Host) : Stack := { t with env := h }

/-! ### The receive path -/

def l4CsumOk (ip : Mem) (ihl totlen : Nat) : Bool :=
  let proto := ip 9
  let ln := totlen - ihl
  if proto = 17 ∧ ln < udpHdrLen then false
  else if proto = 17 ∧ be16 ip (ihl + 6) = 0 then true
  else if proto = 6 ∧ ln < tcpHdrMin then false
  else if proto ≠ 17 ∧ proto ≠ 6 then true
  else l4Sum (be32 ip 12) (be32 ip 16) proto ip ihl ln ln = 65535

inductive Drop where
  | malformed | badCsum | fragment
deriving DecidableEq

/-- The checks of `net_input` on the IPv4 packet in a frame of `len` bytes: its header length. -/
def ipCheck (f : Mem) (len : Nat) : Except Drop Nat :=
  let ip := shift f ethHdrLen
  let ihl := (ip 0 &&& 0x0F).toNat * 4
  let totlen := (be16 ip 2).toNat
  if len < ethHdrLen + ipHdrMin ∨ ip 0 >>> (4 : Nat) ≠ 4 then .error .malformed
  else if ihl < ipHdrMin ∨ len < ethHdrLen + ihl then .error .malformed
  else if totlen < ihl ∨ 1500 < totlen ∨ len < ethHdrLen + totlen then .error .malformed
  else if cksum ip 0 ihl ≠ 0 then .error .badCsum
  else if be16 ip 6 &&& 0x1FFF ≠ 0 ∨ be16 ip 6 &&& 0x2000 ≠ 0 then .error .fragment
  else if (ip 9 = 17 ∨ ip 9 = 6) ∧ l4CsumOk ip ihl totlen = false then .error .badCsum
  else .ok ihl

def Host.dropped (h : Host) : Drop → Host
  | .malformed => h
  | .badCsum => { h with ipBadCsum := h.ipBadCsum + 1 }
  | .fragment => { h with ipFragDrop := h.ipFragDrop + 1 }

structure Datagram where
  src : U32
  sport : U16
  dport : U16
  data : List U8

def udpParse (ip : Mem) (ihl : Nat) : Option Datagram :=
  let totlen := (be16 ip 2).toNat
  let ulen := (be16 ip (ihl + 4)).toNat
  if totlen < ihl + udpHdrLen ∨ ulen < udpHdrLen ∨ totlen - ihl < ulen then none
  else some ⟨be32 ip 12, be16 ip ihl, be16 ip (ihl + 2), bytesAt ip (ihl + udpHdrLen) (ulen - udpHdrLen)⟩

/-- `udp_deliver`: the record is the source, the length and the data. -/
def udpDeliver (t : Stack) (d : Datagram) : Stack :=
  let port := fun i => (t.socks i).used && (t.socks i).type == .udp && (t.socks i).localPort == d.dport
  match Fin.find? port with
  | none => t
  | some i =>
    let s := t.socks i
    if spaceIn s.rxR s.rxW < 8 + d.data.length then t
    else
      let len : U16 := BitVec.ofNat 16 d.data.length
      let record := bytes32 d.src ++ [d.sport.setWidth 8, (d.sport >>> (8 : Nat)).setWidth 8] ++
        [len.setWidth 8, (len >>> (8 : Nat)).setWidth 8] ++ d.data
      let stored := ringStore (t.heap s.rx) s.rxW record
      { t.set i { s with rxW := stored.2 } with heap := Function.update t.heap s.rx stored.1 }

def udpInput (t : Stack) (ip : Mem) (ihl : Nat) : Stack :=
  match udpParse ip ihl with
  | none => t
  | some d => udpDeliver { t with udpRx := t.udpRx + 1 } d

/-- `dns_input`: `none` if the packet is not the answer waited for. -/
def dnsInput (w : DnsWait) (ip : Mem) (ihl : Nat) : Option DnsWait :=
  if !w.active then none
  else match udpParse ip ihl with
    | none => none
    | some d =>
      let b := ofList d.data
      if d.data.length < 12 ∨ 512 < d.data.length then none
      else if d.sport ≠ 53 ∨ d.dport ≠ w.port then none
      else if be16 b 0 ≠ w.id ∨ b 2 &&& 0x80 = 0 then none
      else some { w with buf := copyIn w.buf 0 d.data.length b, len := d.data.length,
                         rcode := b 3 &&& 0x0F, got := true }

def tcpParse (ip : Mem) (ihl : Nat) : Option Segment :=
  let totlen := (be16 ip 2).toNat
  let doff := (ip (ihl + 12) >>> (4 : Nat)).toNat * 4
  if totlen < ihl + tcpHdrMin ∨ doff < tcpHdrMin ∨ totlen < ihl + doff then none
  else some
    { flags := ip (ihl + 13), seq := be32 ip (ihl + 4), ack := be32 ip (ihl + 8), sport := be16 ip ihl,
      dport := be16 ip (ihl + 2), src := be32 ip 12, data := bytesAt ip (ihl + doff) (totlen - ihl - doff) }

/-- An echo reply on its way to `ipv4_send`. -/
structure Echo where
  dst : U32
  payload : List U8

def icmpInput (h : Host) (ip : Mem) (ihl : Nat) : Host × Option Echo :=
  let iclen := (be16 ip 2).toNat - ihl
  let ic := shift ip ihl
  if iclen < 8 ∨ netBuildMax < iclen then (h, none)
  else if ic 0 = 0 ∧ ic 1 = 0 ∧ h.ping.active ∧ ¬ h.ping.got ∧ be16 ic 4 = h.ping.id ∧
      be16 ic 6 = h.ping.seq then
    ({ h with ping := { h.ping with got := true }, pingMatched := h.pingMatched + 1 }, none)
  else if ic 0 ≠ 8 ∨ ic 1 ≠ 0 then (h, none)
  else
    let p := put16 (writeBytes h.link.build 0 [0, 0]) 2 0
    let p := copyIn p 4 (iclen - 4) (shift ic 4)
    let p := put16 p 2 (cksum p 0 iclen)
    (h.setLink { h.link with build := p }, some ⟨be32 ip 12, bytesAt p 0 iclen⟩)

def macAt (m : Mem) (a : Nat) : Mac := Vector.ofFn fun i => m (a + i)

def arpInput (h : Host) (f : Mem) (len : Nat) : Bool × Host :=
  let a := shift f ethHdrLen
  if len < ethHdrLen + 28 ∨ be16 a 0 ≠ 1 ∨ be16 a 2 ≠ 0x0800 ∨ a 4 ≠ 6 ∨ a 5 ≠ 4 then (false, h)
  else
    let spa := be32 a 14
    let h := h.learn spa (macAt a 8)
    if be16 a 6 = 1 ∧ be32 a 24 = h.link.card.ip then
      let sha := bytesAt a 8 6
      let r := putArp h.link.build 2 sha h.link.card.mac.toList sha h.link.card.ip spa
      let sent := h.link.card.send r (ethHdrLen + 28)
      let h := h.setLink { h.link with build := r, card := sent.2 }
      (true, { h with arpReplied := if sent.1 then h.arpReplied + 1 else h.arpReplied })
    else (true, h)

def Host.ForDhcp (h : Host) (ip : Mem) (ihl : Nat) : Prop :=
  h.client.wait.active ∧ ip 9 = 17 ∧ ihl + udpHdrLen ≤ (be16 ip 2).toNat ∧
    be16 ip ihl = dhcpSrvPort ∧ be16 ip (ihl + 2) = dhcpCliPort

instance (h : Host) (ip : Mem) (ihl : Nat) : Decidable (h.ForDhcp ip ihl) := by
  unfold Host.ForDhcp
  infer_instance

/-- The result of `net_input` (`true` is 0) and, if it ends in an echo reply, what is to be sent. -/
structure Input where
  ok : Bool
  stack : Stack
  echo : Option Echo

def ipDispatch (t : Stack) (ip : Mem) (ihl : Nat) : Input :=
  if ip 9 = 1 then
    let r := icmpInput t.env ip ihl
    ⟨true, setHost t r.1, r.2⟩
  else if ip 9 = 17 then
    match dnsInput t.env.dns ip ihl with
    | some w => ⟨true, setHost t { t.env with dns := w }, none⟩
    | none => ⟨true, udpInput t ip ihl, none⟩
  else if ip 9 = 6 then
    match tcpParse ip ihl with
    | some g => ⟨true, tcpInput hostEnv t g, none⟩
    | none => ⟨true, t, none⟩
  else ⟨true, t, none⟩

def ipInput (t : Stack) (f : Mem) (len : Nat) : Input :=
  match ipCheck f len with
  | .error d => ⟨false, setHost t (t.env.dropped d), none⟩
  | .ok ihl =>
    let ip := shift f ethHdrLen
    let h := t.env.learn (be32 ip 12) (macAt f 6)
    if h.ForDhcp ip ihl then
      ⟨true, setHost t { h with client := { h.client with wait := dhcpInput h.client.wait ip ihl } }, none⟩
    else if be32 ip 16 ≠ h.link.card.ip then ⟨false, setHost t h, none⟩
    else ipDispatch (setHost t h) ip ihl

/-- `net_input` up to the sending of an echo reply. -/
def netInput (t : Stack) (f : Mem) (len : Nat) : Input :=
  if !t.env.link.ready || len < ethHdrLen then ⟨false, t, none⟩
  else if be16 f 12 = 0x0806 then
    let r := arpInput t.env f len
    ⟨r.1, setHost t r.2, none⟩
  else if be16 f 12 ≠ 0x0800 then ⟨false, t, none⟩
  else ipInput t f len

def setClock (t : Stack) (now : U32) : Stack :=
  { t with ticks := now, env := t.env.setLink { t.env.link with ticks := now } }

/-- `net_tick`: DHCP first, then the retransmissions. -/
def hostTick (t : Stack) : Stack :=
  if ahead t.ticks t.lastTick < ahead tcpTickMs 0 then t
  else netTick hostEnv (setHost t { t.env with client := (dhcpRenewCheck t.env.client t.ticks).2 })

inductive Event where
  /-- A frame and its length, and what happens while its own send waits. -/
  | frame (f : Mem) (len : Nat) (during : List Event)
  | tick (now : U32)
  /-- The waiting loop looks for the MAC, and at the deadline. -/
  | look

abbrev Wait := U32 → U32 → Stack → Option Mac × Stack

def askFor (t : Stack) (ip : U32) : Stack := setHost t (t.env.setLink (arpRequest t.env.link ip))

def arpResolve (wait : Wait) (t : Stack) (ip timeout : U32) : Option Mac × Stack :=
  match arpLookup t.env.link.arp ip with
  | some mac => (some mac, t)
  | none => wait ip (t.ticks + timeout) (askFor t ip)

/-- The payload is copied into `g_frame` before the MAC is asked for. -/
def stagePayload (t : Stack) (payload : List U8) : Stack :=
  setHost t (t.env.setLink { t.env.link with frame := writeBytes t.env.link.frame 34 payload })

/-- The headers of a packet of `n` bytes around what is in `g_frame`. -/
def ipFrame (l : Link) (mac : Mac) (dst : U32) (proto : U8) (n : Nat) : Mem :=
  let r := putEth l.frame mac.toList l.card.mac.toList
  putIpCksum (putIpFields r n (l.ipId + 1) proto l.card.ip dst)

def sendStaged (l : Link) (mac : Mac) (dst : U32) (proto : U8) (n : Nat) : Bool × Link :=
  let r := ipFrame l mac dst proto n
  let sent := l.card.send r (ethHdrLen + ipHdrMin + n)
  (sent.1, { l with frame := r, ipId := l.ipId + 1, card := sent.2 })

/-- `ipv4_send_via`: `true` is the result 0. -/
def ipv4SendVia (wait : Wait) (t : Stack) (dst hop : U32) (proto : U8) (payload : List U8) : Bool × Stack :=
  let n := payload.length
  if n = 0 ∨ netBuildMax < ethHdrLen + ipHdrMin + n then (false, t)
  else
    let r := arpResolve wait (stagePayload t payload) hop 3000
    match r.1 with
    | none => (false, r.2)
    | some mac =>
      let sent := sendStaged r.2.env.link mac dst proto n
      (sent.1, setHost r.2 (r.2.env.setLink sent.2))

def sendEcho (wait : Wait) (t : Stack) : Option Echo → Stack
  | none => t
  | some e =>
    let r := ipv4SendVia wait t e.dst e.dst 1 e.payload
    if r.1 then setHost r.2 { r.2.env with icmpReplied := r.2.env.icmpReplied + 1 } else r.2

/-- The datagram that `net_udp_send` builds in `g_build`. -/
def udpDatagram (build : Mem) (src dst : U32) (dport sport : U16) (data : List U8) : Mem :=
  let n := udpHdrLen + data.length
  let p := put16 (put16 build 0 sport) 2 dport
  let p := put16 (put16 p 4 (BitVec.ofNat 16 n)) 6 0
  let p := writeBytes p 8 data
  put16 p 6 (udpChecksum src dst p 0 n)

/-- The state and the datagram with which `net_udp_send` calls `ipv4_send`. -/
def udpBuild (t : Stack) (dst : U32) (dport sport : U16) (data : List U8) : Stack × List U8 :=
  let l := t.env.link
  let p := udpDatagram l.build l.card.ip dst dport sport data
  (setHost t (t.env.setLink { l with build := p }), bytesAt p 0 (udpHdrLen + data.length))

/-- `net_udp_send`: `none` is the result -1. -/
def netUdpSend (wait : Wait) (t : Stack) (dst : U32) (dport sport : U16) (data : List U8) :
    Option Nat × Stack :=
  if netBuildMax - ipHdrMin - udpHdrLen < data.length then (none, t)
  else
    let b := udpBuild t dst dport sport data
    let r := ipv4SendVia wait b.1 dst dst 17 b.2
    if r.1 then
      let c := r.2.env.client
      (some data.length, setHost r.2 { r.2.env with client := { c with udpTx := c.udpTx + 1 } })
    else (none, r.2)

mutual

def handle (t : Stack) : Event → Stack
  | .frame f len during =>
    let r := netInput t f len
    sendEcho (fun ip deadline t => await ip deadline t during) r.stack r.echo
  | .tick now => hostTick (setClock t now)
  | .look => t

def await (ip deadline : U32) (t : Stack) : List Event → Option Mac × Stack
  | [] => (none, t)
  | .look :: es =>
    match arpLookup t.env.link.arp ip with
    | some mac => (some mac, t)
    | none => if 0 ≤ ahead t.ticks deadline then (none, t) else await ip deadline t es
  | .frame f len during :: es => await ip deadline (handle t (.frame f len during)) es
  | .tick now :: es => await ip deadline (handle t (.tick now)) es

end

def waiting (es : List Event) : Wait := fun ip deadline t => await ip deadline t es

end Ezos.Net
