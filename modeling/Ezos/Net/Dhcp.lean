import Ezos.Types
import Ezos.Lib.OnesComplement
import Ezos.Lib.Serial
import Mathlib.Data.Fin.Tuple.Basic
import Mathlib.Logic.Function.Basic

/-!
# Frames, the card and the ARP cache (`kernel/net.c`, `rtl8139_send`)

`build` and `frame` are the two static buffers `g_build` and `g_frame`. Whether the card finds a
free descriptor at its `k`-th attempt is a parameter; what it puts on the wire is kept in `sent`.
-/

namespace Ezos.Net

open Lib.Memory Lib.NetOrder Lib.OnesComplement

set_option autoImplicit false

def ethHdrLen : Nat := 14
def ipHdrMin : Nat := 20
def udpHdrLen : Nat := 8
def tcpHdrMin : Nat := 20
def netBuildMax : Nat := 1792
def ethFrameMax : Nat := 1514
abbrev arpCache : Nat := 4

abbrev Mac := Vector U8 6

structure ArpEntry where
  ip : U32
  mac : Mac

structure Card where
  present : Bool
  mac : Mac
  /-- The configured address, packed in network order (`my_ip_be`). -/
  ip : U32
  free : Nat → Bool
  tries : Nat
  sent : List (List U8)

structure Link where
  card : Card
  /-- `build_ready` succeeds: both buffers are there or can be had. -/
  ready : Bool
  ticks : U32
  build : Mem
  frame : Mem
  ipId : U16
  arp : Fin arpCache → ArpEntry

def Card.send (c : Card) (m : Mem) (len : Nat) : Bool × Card :=
  if !c.present || len < ethHdrLen || ethFrameMax < len then (false, c)
  else if c.free c.tries then
    (true, { c with tries := c.tries + 1, sent := c.sent ++ [bytesAt m 0 len] })
  else (false, { c with tries := c.tries + 1 })

def arpLearn (arp : Fin arpCache → ArpEntry) (ip : U32) (mac : Mac) : Fin arpCache → ArpEntry :=
  if ip = 0 then arp
  else match Fin.find? (fun i => (arp i).ip == ip) with
    | some i => Function.update arp i { arp i with mac := mac }
    | none =>
      let slot := (Fin.find? (fun i => i != 0 && (arp i).ip == 0)).getD 0
      Function.update arp slot ⟨ip, mac⟩

def arpLookup (arp : Fin arpCache → ArpEntry) (ip : U32) : Option Mac :=
  (Fin.find? (fun i => (arp i).ip == ip)).map fun i => (arp i).mac

def putEth (m : Mem) (dst src : List U8) : Mem := writeBytes m 0 (dst ++ src ++ [0x08, 0x00])

def putIpFields (m : Mem) (n : Nat) (id : U16) (proto : U8) (src dst : U32) : Mem :=
  let m := writeBytes m 14 [0x45, 0]
  let m := put16 m 16 (BitVec.ofNat 16 (ipHdrMin + n))
  let m := put16 m 18 id
  let m := put16 m 20 0
  let m := writeBytes m 22 [64, proto]
  let m := put16 m 24 0
  let m := put32 m 26 src
  put32 m 30 dst

def putIpCksum (m : Mem) : Mem := put16 m 24 (cksum m 14 ipHdrMin)

/-- `l4_checksum` (RFC 768): a zero result is sent as `0xFFFF`. -/
def l4Checksum (srcIp dstIp : U32) (proto : U8) (m : Mem) (a n : Nat) : U16 :=
  let ps := ofList (bytes32 srcIp ++ bytes32 dstIp ++ [0, proto] ++ bytes16 (BitVec.ofNat 16 n))
  let c := ~~~ BitVec.ofNat 16 (fold (cksumRaw ps 0 12 + cksumRaw m a n))
  if c = 0 then 0xFFFF else c

def udpChecksum (srcIp dstIp : U32) (m : Mem) (a n : Nat) : U16 := l4Checksum srcIp dstIp 17 m a n

def putArp (m : Mem) (op : U16) (dst src target : List U8) (srcIp dstIp : U32) : Mem :=
  writeBytes m 0 (dst ++ src ++ [0x08, 0x06] ++ bytes16 1 ++ bytes16 0x0800 ++ [6, 4] ++ bytes16 op ++
    src ++ bytes32 srcIp ++ target ++ bytes32 dstIp)

def arpRequest (l : Link) (ip : U32) : Link :=
  let m := putArp l.build 1 (List.replicate 6 0xFF) l.card.mac.toList (List.replicate 6 0) l.card.ip ip
  { l with build := m, card := (l.card.send m (ethHdrLen + 28)).2 }

end Ezos.Net

/-!
## The DHCP client of `kernel/net.c`

`dhcpInput` runs in the receive path and only stores a message; `dhcpRenewCheck` is driven by the
clock, consumes the stored message, moves the renewal state and sends. `dhcpApply` installs a lease.
-/

namespace Ezos.Net

open Lib.Memory Lib.NetOrder Lib.OnesComplement Lib.Serial

def dhcpSrvPort : U16 := 67
def dhcpCliPort : U16 := 68
def dhcpMagic : U32 := 0x63825363
def bootpFixed : Nat := 236
def bootpMin : Nat := 300
def dhcpBuf : Nat := 512
def dhcpRenewRetryMin : U32 := 1000
def dhcpLeaseMaxSec : U32 := 100000
def dnsMaxSrv : Nat := 4

structure DhcpWait where
  active : Bool
  got : Bool
  renewing : Bool
  xid : U32
  msgType : U8
  yiaddr : U32
  buf : Mem
  len : Nat

inductive RenewState where
  | bound | renewing | rebinding | init
deriving DecidableEq

structure Renew where
  active : Bool
  state : RenewState
  t1 : U32
  t2 : U32
  expire : U32
  next : U32

structure Lease where
  valid : Bool
  ip : U32
  mask : U32
  router : U32
  dns : U32
  server : U32
  lease : U32
  tick : U32

/-- The first `g_dns_srv_n` entries of `g_dns_srv`, and `g_dns_manual`. -/
structure DnsServers where
  srv : List U32
  manual : Bool

structure Client where
  link : Link
  wait : DhcpWait
  renew : Renew
  lease : Lease
  dns : DnsServers
  udpTx : U32

def dhcpNewXid (mac : Mac) (ticks : U32) : U32 :=
  let x : U32 := mac.toList.foldl
    (fun (x : U32) b => (x <<< (5 : Nat)) ^^^ (x >>> (27 : Nat)) ^^^ b.setWidth 32) (ticks ^^^ 0x9E3779B9)
  if x = 0 then 0x5A5A5A5A else x

def dhcpOptions (mac : Mac) (msgType : U8) (reqIp serverId : U32) (bound : Bool) : List U8 :=
  [53, 1, msgType] ++
  (if msgType = 3 ∧ ¬ bound then [50, 4] ++ bytes32 reqIp ++ [54, 4] ++ bytes32 serverId else []) ++
  [55, 4, 1, 3, 6, 51] ++ [61, 7, 1] ++ mac.toList ++ [255]

/-- The BOOTP message that `dhcp_send` builds in `g_build`. -/
def dhcpMessage (c : Client) (msgType : U8) (reqIp serverId : U32) (bound : Bool) : Mem :=
  let p := fill c.link.build 0 bootpMin 0
  let p := writeBytes p 0 [1, 1, 6, 0]
  let p := put32 p 4 c.wait.xid
  let p := put16 p 8 0
  let p := put16 p 10 0x8000
  let p := writeBytes p 28 c.link.card.mac.toList
  let p := if bound then put32 p 12 c.lease.ip else p
  let p := put32 p 236 dhcpMagic
  writeBytes p 240 (dhcpOptions c.link.card.mac msgType reqIp serverId bound)

/-- The frame that `dhcp_send` builds in `g_frame` from the message. -/
def dhcpFrame (frame p : Mem) (dst src : List U8) (srcIp dstIp : U32) (id : U16) : Mem :=
  let r := putEth frame dst src
  let ulen := udpHdrLen + bootpMin
  let r := put16 r 34 dhcpCliPort
  let r := put16 r 36 dhcpSrvPort
  let r := put16 r 38 (BitVec.ofNat 16 ulen)
  let r := put16 r 40 0
  let r := copyIn r 42 bootpMin p
  let r := put16 r 40 (udpChecksum srcIp dstIp r 34 ulen)
  putIpCksum (putIpFields r ulen id 17 srcIp dstIp)

/-- `dhcp_send`: `true` is the result 0. Bound requests go to the server's address when its MAC is
in the ARP cache, everything else is broadcast. -/
def dhcpSend (c : Client) (msgType : U8) (reqIp serverId : U32) (bound : Bool) : Bool × Client :=
  let p := dhcpMessage c msgType reqIp serverId bound
  let dstMac := if bound ∧ serverId ≠ 0 then arpLookup c.link.arp serverId else none
  let ipDst := if dstMac.isSome then serverId else 0xFFFFFFFF
  let srcIp := if bound then c.lease.ip else 0
  let dst := (dstMac.map Vector.toList).getD (List.replicate 6 0xFF)
  let id := c.link.ipId + 1
  let r := dhcpFrame c.link.frame p dst c.link.card.mac.toList srcIp ipDst id
  let sent := c.link.card.send r (ethHdrLen + ipHdrMin + (udpHdrLen + bootpMin))
  (sent.1, { c with
    link := { c.link with build := p, frame := r, ipId := id, card := sent.2 }
    udpTx := c.udpTx + 1 })

/-- The option scan of `dhcp_input`: the last message type wins. -/
def scanType (b : Mem) (dlen : Nat) : Nat → Nat → U8 → U8
  | 0, _, t => t
  | fuel + 1, i, t =>
    if i + 1 < dlen then
      let code := b i
      if code = 0 then scanType b dlen fuel (i + 1) t
      else if code = 255 then t
      else
        let olen := (b (i + 1)).toNat
        if dlen < i + 2 + olen then t
        else scanType b dlen fuel (i + 2 + olen) (if code = 53 ∧ 1 ≤ olen then b (i + 2) else t)
    else t

/-- `dhcp_input` on the packet `ip` with header length `ihl`. -/
def dhcpInput (w : DhcpWait) (ip : Mem) (ihl : Nat) : DhcpWait :=
  let totlen := (be16 ip 2).toNat
  if totlen < ihl + udpHdrLen then w
  else
    let ulen := (be16 ip (ihl + 4)).toNat
    if ulen < udpHdrLen ∨ totlen - ihl < ulen then w
    else
      let dlen := ulen - udpHdrLen
      if dlen < bootpFixed + 4 ∨ dhcpBuf < dlen then w
      else
        let b := shift ip (ihl + udpHdrLen)
        if be32 b 236 ≠ dhcpMagic then w
        else if be32 b 4 ≠ w.xid then w
        else
          let type := scanType b dlen dlen 240 0
          if type = 0 then w
          else { w with buf := copyIn w.buf 0 dlen b, len := dlen, yiaddr := be32 b 16,
                        msgType := type, got := true }

/-- `dhcp_opt_in`: the bytes copied out, none if the option is not there. -/
def dhcpOptIn (b : Mem) (stop : Nat) (code : U8) (max : Nat) : Nat → Nat → List U8
  | 0, _ => []
  | fuel + 1, i =>
    if i + 1 < stop then
      let c := b i
      if c = 0 then dhcpOptIn b stop code max fuel (i + 1)
      else if c = 255 then []
      else
        let olen := (b (i + 1)).toNat
        if stop < i + 2 + olen then []
        else if c = code then bytesAt b (i + 2) (min olen max)
        else dhcpOptIn b stop code max fuel (i + 2 + olen)
    else []

/-- `dhcp_opt`: the options, then the `file` and `sname` fields that option 52 announces. -/
def dhcpOpt (w : DhcpWait) (code : U8) (max : Nat) : List U8 :=
  if w.len < bootpFixed + 4 then []
  else
    match dhcpOptIn w.buf w.len code max w.len 240 with
    | b :: bs => b :: bs
    | [] =>
      match dhcpOptIn w.buf w.len 52 1 w.len 240 with
      | [ov] =>
        let file := if ov &&& 1 ≠ 0 ∧ 108 < w.len then
          dhcpOptIn w.buf (min w.len 236) code max w.len 108 else []
        if file ≠ [] then file
        else if ov &&& 2 ≠ 0 ∧ 44 < w.len then dhcpOptIn w.buf (min w.len 108) code max w.len 44
        else []
      | _ => []

def dhcpOpt32 (w : DhcpWait) (code : U8) : Option U32 :=
  let v := dhcpOpt w code 4
  if v.length = 4 then some (be32 (ofList v) 0) else none

def dnsOption (w : DhcpWait) : List U32 :=
  let dv := dhcpOpt w 6 16
  (((List.range (dv.length / 4)).map fun k => be32 (ofList dv) (k * 4)).filter (· ≠ 0)).take dnsMaxSrv

def dhcpApply (c : Client) (ip serverId : U32) : Client :=
  let w := c.wait
  let now := c.link.ticks
  let l := (dhcpOpt32 w 51).getD 0
  let dns : DnsServers :=
    if (dhcpOpt w 6 16).length / 4 ≠ 0 then ⟨dnsOption w, false⟩
    else if c.dns.manual then c.dns
    else ⟨[], false⟩
  let ms := l * 1000
  let timed := l ≠ 0 ∧ l ≤ dhcpLeaseMaxSec
  let idle : Renew := { c.renew with active := false, state := .bound }
  { c with
    lease :=
      { valid := true, ip := ip, mask := (dhcpOpt32 w 1).getD 0, router := (dhcpOpt32 w 3).getD 0,
        dns := dns.srv.headD 0, server := (dhcpOpt32 w 54).getD serverId, lease := l, tick := now }
    dns := dns
    renew :=
      if timed then
        { idle with active := true, t1 := now + ms / 2, t2 := now + ms / 8 * 7,
                    expire := now + ms, next := 0 }
      else idle
    wait := { w with active := false, got := false, renewing := false }
    link := { c.link with card := { c.link.card with ip := ip } } }

def retryOf (r : Renew) : U32 :=
  let retry := if r.t2 > r.t1 then (r.t2 - r.t1) / 2 else 0
  let retry := if retry < dhcpRenewRetryMin then dhcpRenewRetryMin else retry
  if retry > 60000 then 60000 else retry

/-- `g_renew.expire` is reached in REBINDING. -/
def Renew.Expired (r : Renew) (now : U32) : Prop := r.state = .rebinding ∧ 0 ≤ ahead now r.expire

instance (r : Renew) (now : U32) : Decidable (r.Expired now) := by
  unfold Renew.Expired
  infer_instance

def Renew.moved (r : Renew) (now : U32) : RenewState :=
  match r.state with
  | .bound => .renewing
  | .renewing => if 0 ≤ ahead now r.t2 then .rebinding else .renewing
  | .rebinding => if r.Expired now then .init else .rebinding
  | .init => .init

def renewMove (c : Client) (now : U32) : Client :=
  let r := c.renew
  { c with
    renew := { r with state := r.moved now, next := if r.moved now ≠ r.state then 0 else r.next }
    lease := { c.lease with valid := c.lease.valid && !decide (r.Expired now) } }

def renewRequest (c : Client) : Bool × Client :=
  match c.renew.state with
  | .init => dhcpSend c 1 0 0 false
  | .renewing => dhcpSend c 3 c.lease.ip c.lease.server true
  | _ => dhcpSend c 3 c.lease.ip 0 true

def Client.newTransaction (c : Client) : Client :=
  { c with wait := { c.wait with
    xid := dhcpNewXid c.link.card.mac c.link.ticks, got := false, msgType := 0, active := true,
    renewing := true } }

def renewSend (c : Client) (now : U32) : Bool × Client :=
  let sent := renewRequest c.newTransaction
  let c := sent.2
  let wait := if sent.1 then c.wait else { c.wait with active := false, renewing := false }
  (sent.1, { c with wait := wait, renew := { c.renew with next := now + retryOf c.renew } })

def renewAdvance (c : Client) (now : U32) : Bool × Client :=
  if c.renew.state = .bound ∧ ahead now c.renew.t1 < 0 then (false, c)
  else if ahead now (renewMove c now).renew.next < 0 then (false, renewMove c now)
  else renewSend (renewMove c now) now

/-- `dhcp_renew_check`: `true` if it sent something. -/
def dhcpRenewCheck (c : Client) (now : U32) : Bool × Client :=
  if !c.renew.active || !c.lease.valid then (false, c)
  else if c.wait.renewing && c.wait.got then
    let t := c.wait.msgType
    let c := { c with wait := { c.wait with got := false } }
    if t = 5 then
      (false, if c.wait.yiaddr ≠ 0 then dhcpApply c c.wait.yiaddr c.lease.server else c)
    else if t = 6 then
      renewAdvance { c with
        lease := { c.lease with valid := false }
        renew := { c.renew with state := .init } } now
    else if t = 2 ∧ c.renew.state = .init ∧ c.wait.yiaddr ≠ 0 then
      let sent := dhcpSend c 3 c.wait.yiaddr ((dhcpOpt32 c.wait 54).getD 0) false
      let c := sent.2
      if sent.1 then (true, { c with renew := { c.renew with next := now + dhcpRenewRetryMin } })
      else renewAdvance c now
    else renewAdvance c now
  else renewAdvance c now

end Ezos.Net
