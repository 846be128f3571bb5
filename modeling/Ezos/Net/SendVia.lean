import Ezos.Net.DhcpRuns
import Ezos.Net.Staged
import Ezos.Net.TcpRefine

/-!
# Payload integrity of `ipv4_send_via`

The headers are written after the wait and are always right. The payload is staged before it, and
comes out as what the packets put together during the wait leave of it.
-/

namespace Ezos.Net

open Lib.Memory Lib.NetOrder Lib.OnesComplement Tcp

set_option autoImplicit false

structure Carries (fr : List U8) (dst : U32) (proto : U8) (payload : List U8) : Prop where
  length : fr.length = 34 + payload.length
  type : be16 (ofList fr) 12 = 0x0800
  total : be16 (ofList fr) 16 = BitVec.ofNat 16 (ipHdrMin + payload.length)
  proto : ofList fr 23 = proto
  dst : be32 (ofList fr) 30 = dst
  payload : fr.drop 34 = payload

def lastSent (t : Stack) : Option (List U8) := t.env.link.card.sent.getLast?

theorem ofList_bytesAt (m : Mem) {n x : Nat} (h : x < n) : ofList (bytesAt m 0 n) x = m x := by
  have hlen : x < (bytesAt m 0 n).length := by rwa [length_bytesAt]
  rw [ofList, List.getD_eq_getElem _ _ hlen, getElem_bytesAt, Nat.zero_add]

theorem drop_bytesAt (m : Mem) (k n : Nat) : (bytesAt m 0 (k + n)).drop k = bytesAt m k n := by
  rw [bytesAt_add, Nat.zero_add]
  exact List.drop_left' (length_bytesAt m 0 k)

theorem IpHeader.wire {m : Mem} {n len : Nat} {proto : U8} {src dst : U32} (h : IpHeader m n proto src dst)
    (hlen : 34 ≤ len) : IpHeader (ofList (bytesAt m 0 len)) n proto src dst :=
  h.congr fun _ _ hx _ _ => ofList_bytesAt m (by omega)

theorem send_taken {c : Card} {m : Mem} {len : Nat} (h : (c.send m len).1 = true) :
    (c.send m len).2.sent = c.sent ++ [bytesAt m 0 len] ∧ len ≤ ethFrameMax := by
  rw [Card.send] at h ⊢
  split at h
  · cases h
  · rename_i hok
    split at h
    · simp only [Bool.or_eq_true, decide_eq_true_eq] at hok
      refine ⟨?_, by omega⟩
      rename_i hfree
      rw [if_neg (by simpa using hok), if_pos hfree]
    · cases h

theorem ipv4SendVia_taken {wait : Wait} {t : Stack} {dst hop : U32} {proto : U8} {payload : List U8}
    (h : (ipv4SendVia wait t dst hop proto payload).1 = true) : ∃ mac,
    (arpResolve wait (stagePayload t payload) hop 3000).1 = some mac ∧
    34 + payload.length ≤ ethFrameMax ∧
    lastSent (ipv4SendVia wait t dst hop proto payload).2 = some (bytesAt
      (ipFrame (arpResolve wait (stagePayload t payload) hop 3000).2.env.link mac dst proto payload.length)
      0 (34 + payload.length)) := by
  rw [ipv4SendVia] at h ⊢
  split at h
  · cases h
  · rename_i hlen
    rw [if_neg hlen]
    simp only at h ⊢
    generalize hr : arpResolve wait (stagePayload t payload) hop 3000 = r at h ⊢
    cases hmac : r.1 with
    | none =>
      rw [hmac] at h
      cases h
    | some mac =>
      rw [hmac] at h
      obtain ⟨hsent, hmax⟩ := send_taken h
      refine ⟨mac, rfl, hmax, ?_⟩
      have hlast := congrArg List.getLast? hsent
      rw [List.getLast?_append, List.getLast?_singleton, Option.some_or] at hlast
      exact hlast

theorem arpResolve_payload (es : List Event) (t : Stack) (hop : U32) (payload : List U8) :
    bytesAt (arpResolve (waiting es) (stagePayload t payload) hop 3000).2.env.link.frame 34 payload.length =
      (packetsDuring es t hop payload).foldl cover payload := by
  have hst := arpResolve_staged (fun ip deadline t => await_staged ip deadline t es)
    (stagePayload t payload) hop 3000
  have hpay : bytesAt (stagePayload t payload).env.link.frame 34 payload.length = payload :=
    bytesAt_writeBytes _ _ _
  have hall := hst.bytesAt payload.length
  rw [hpay] at hall
  exact hall

/-- The frame that `ipv4_send_via` hands to the card carries the payload exactly if the packets that
are put together in `g_frame` during its wait, echo replies and DHCP messages, leave it as it is. -/
theorem ipv4SendVia_carries_iff (t : Stack) (dst hop : U32) (proto : U8) (payload : List U8)
    (es : List Event) (h : (ipv4SendVia (waiting es) t dst hop proto payload).1 = true) :
    ∃ fr, lastSent (ipv4SendVia (waiting es) t dst hop proto payload).2 = some fr ∧
      (Carries fr dst proto payload ↔ (packetsDuring es t hop payload).foldl cover payload = payload) := by
  obtain ⟨mac, -, -, hlast⟩ := ipv4SendVia_taken h
  refine ⟨_, hlast, ?_⟩
  generalize hl : (arpResolve (waiting es) (stagePayload t payload) hop 3000).2.env.link = l
  have hbody : bytesAt l.frame 34 payload.length = (packetsDuring es t hop payload).foldl cover payload := by
    rw [← arpResolve_payload, hl]
  have hkeep : bytesAt (ipFrame l mac dst proto payload.length) 34 payload.length =
      bytesAt l.frame 34 payload.length :=
    bytesAt_congr fun i _ => ipFrame_changes l mac dst proto payload.length (34 + i) (by omega)
  have hwire := (ipFrame_sealed l mac dst proto payload.length).header.wire (Nat.le_add_right 34 payload.length)
  constructor
  · intro hc
    rw [← hbody, ← hkeep, ← drop_bytesAt]
    exact hc.payload
  · intro hp
    exact
      { length := length_bytesAt _ _ _
        type := hwire.type
        total := hwire.length
        proto := hwire.proto
        dst := hwire.dst
        payload := by rw [drop_bytesAt, hkeep, hbody, hp] }

def bootHost : Host where
  client :=
    { link := { idleLink with card := { idleLink.card with ip := 0x0A00020F } }
      wait := ⟨false, false, false, 0, 0, 0, zeros, 0⟩
      renew := ⟨false, .bound, 0, 0, 0, 0⟩
      lease := ⟨false, 0, 0, 0, 0, 0, 0, 0⟩
      dns := ⟨[], false⟩
      udpTx := 0 }
  ping := ⟨false, false, 0, 0⟩
  dns := ⟨false, false, 0, 0, 0, zeros, 0⟩
  blocks _ := 0
  allocs := 0
  alive _ := false
  arpReplied := 0
  icmpReplied := 0
  pingMatched := 0
  ipBadCsum := 0
  ipFragDrop := 0

def bootStack : Stack := bootTable bootHost

def arpAnswer : Mem :=
  putArp zeros 2 (List.replicate 6 2) (List.replicate 6 4) (List.replicate 6 2) 0x0A000202 0x0A00020F

def echoRequest : Mem :=
  let m := putEth zeros (List.replicate 6 2) (List.replicate 6 6)
  let m := putIpCksum (putIpFields m 12 1 1 0x0A000203 0x0A00020F)
  writeBytes m 34 [8, 0, 0, 0, 0, 7, 0, 1, 90, 90, 90, 90]

def shortPayload : List U8 := [1, 2, 3, 4, 5, 6, 7, 8, 9, 10]

def quietWait : List Event := [.frame arpAnswer 42 [], .look]

def pingedWait : List Event := [.frame echoRequest 46 [], .frame arpAnswer 42 [], .look]

theorem ipv4SendVia_carries_quiet :
    ∃ fr, lastSent (ipv4SendVia (waiting quietWait) bootStack 0x0A000202 0x0A000202 17 shortPayload).2 =
        some fr ∧
      (Carries fr 0x0A000202 17 shortPayload ↔
        (packetsDuring quietWait bootStack 0x0A000202 shortPayload).foldl cover shortPayload =
          shortPayload) :=
  ipv4SendVia_carries_iff bootStack 0x0A000202 0x0A000202 17 shortPayload quietWait (by decide)

/-- An echo request from a third host is answered during the wait, and the reply's bytes go out under
the header of the waiting packet. -/
theorem echo_spoils_payload :
    (ipv4SendVia (waiting pingedWait) bootStack 0x0A000202 0x0A000202 17 shortPayload).1 = true ∧
    ∃ fr, lastSent (ipv4SendVia (waiting pingedWait) bootStack 0x0A000202 0x0A000202 17 shortPayload).2 =
        some fr ∧ ¬ Carries fr 0x0A000202 17 shortPayload := by
  refine ⟨by decide, ?_⟩
  have hother : (lastSent (ipv4SendVia (waiting pingedWait) bootStack 0x0A000202 0x0A000202 17
      shortPayload).2).map (List.drop 34) = some [0, 0, 75, 67, 0, 7, 0, 1, 90, 90] := by decide
  obtain ⟨fr, hfr, hdrop⟩ := Option.map_eq_some_iff.mp hother
  refine ⟨fr, hfr, fun hc => ?_⟩
  rw [hc.payload] at hdrop
  exact absurd hdrop (by decide)

end Ezos.Net
