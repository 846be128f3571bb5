import Ezos.Types
import Mathlib.Data.List.Basic
import Ezos.Lib.LittleEndian

/-!
# Bulk transfers (`uhci_bulk_xfer`, `ehci_bulk_xfer`, `usbhc_bulk_xfer`)

A transfer is cut into packets, or is one descriptor. What becomes of a packet is up to the device: it fails, by a stall, an error
or no answer in time, or it moves some bytes, which may be fewer than were asked for. A transfer that ends so reports success.
-/

namespace Ezos.Usb

set_option autoImplicit false

inductive Packet where
  | failed
  | moved (n : Nat) (bytes : Nat → U8)

inductive Controller where
  | uhci
  | ehci (valid : Bool)
  deriving DecidableEq

/-- The toggles of the two directions of every address, the set-up packets that were sent, and what becomes of the packets of the
transfers to come. -/
structure Bus where
  togIn : U8 → Bool
  togOut : U8 → Bool
  setups : List (List U8)
  answers : Nat → Nat → Packet

def Bus.answered (b : Bus) : Bus := { b with answers := fun i => b.answers (i + 1) }

def dirIn (ep : U8) : Bool := ep &&& 0x80 != 0

def Bus.flip (b : Bus) (addr ep : U8) (n : Nat) : Bus :=
  if n % 2 = 0 then b
  else if dirIn ep then { b with togIn := fun a => if a = addr then !b.togIn a else b.togIn a }
  else { b with togOut := fun a => if a = addr then !b.togOut a else b.togOut a }

structure Moved where
  data : List U8
  buf : List U8

def packetBytes (isIn : Bool) (buf : List U8) (off got : Nat) (bytes : Nat → U8) : List U8 :=
  if isIn then (List.range got).map bytes else (buf.drop off).take got

/-- The loop over the packets from number `i` on, `n` of them: whether none failed, the bytes moved, and the packets done. -/
def uhciPackets (answer : Nat → Packet) (isIn : Bool) (buf : List U8) (mps : Nat) : Nat → Nat → Bool × List U8 × Nat
  | 0, _ => (true, [], 0)
  | n + 1, i =>
    match answer i with
    | .failed => (false, [], 0)
    | .moved k bytes =>
      let want := min mps (buf.length - i * mps)
      let got := min k want
      let now := packetBytes isIn buf (i * mps) got bytes
      -- a short packet from the device ends the transfer
      if isIn ∧ got < want then (true, now, 1)
      else
        let (ok, rest, m) := uhciPackets answer isIn buf mps n (i + 1)
        (ok, now ++ rest, m + 1)

def uhciTdMax : Nat := 16
def bulkBufSize : Nat := 512

def endpointOk (ep : U8) : Bool := (ep &&& 0x7F) != 0 && decide ((ep &&& 0x7F) ≤ 15)

def bufAfter (isIn : Bool) (buf data : List U8) : List U8 := if isIn then data ++ buf.drop data.length else buf

def uhciBulkXfer (b : Bus) (addr ep : U8) (buf : List U8) (mps : Nat) : Option Moved × Bus :=
  if addr = 0 ∨ 127 < addr ∨ bulkBufSize < buf.length ∨ mps ∉ [8, 16, 32, 64] ∨ endpointOk ep = false then (none, b)
  else
    let n := (buf.length + mps - 1) / mps
    if uhciTdMax < n then (none, b)
    else if buf.length = 0 then (some ⟨[], buf⟩, b)
    else
      match uhciPackets (b.answers 0) (dirIn ep) buf mps n 0 with
      | (false, _, m) => (none, b.answered.flip addr ep m)
      | (true, data, m) => (some ⟨data, bufAfter (dirIn ep) buf data⟩, b.answered.flip addr ep m)

def ehciBulkXfer (b : Bus) (valid : Bool) (addr ep : U8) (buf : List U8) (mps : Nat) : Option Moved × Bus :=
  if valid = false ∨ addr = 0 ∨ 127 < addr ∨ bulkBufSize < buf.length ∨ endpointOk ep = false ∨ mps ∉ [8, 16, 32, 64, 512] then
    (none, b)
  else if buf.length = 0 then (some ⟨[], buf⟩, b)
  else
    match b.answers 0 0 with
    | .failed => (none, b.answered)
    | .moved k bytes =>
      let actual := min k buf.length
      let data := packetBytes (dirIn ep) buf 0 actual bytes
      (some ⟨data, bufAfter (dirIn ep) buf data⟩, b.answered.flip addr ep ((actual + mps - 1) / mps))

def usbhcBulkXfer (b : Bus) (hc : Controller) (addr ep : U8) (buf : List U8) (mps : Nat) : Option Moved × Bus :=
  match hc with
  | .uhci => uhciBulkXfer b addr ep buf mps
  | .ehci valid => ehciBulkXfer b valid addr ep buf mps

/-- `usbhc_control_xfer` without a data stage; its answer is not looked at. -/
def usbhcControlXfer (b : Bus) (setup : List U8) : Bus := { b with setups := b.setups ++ [setup] }

def usbhcBulkTogReset (b : Bus) (addr : U8) : Bus :=
  if 127 < addr then b
  else
    { b with
      togIn := fun a => if a = addr then false else b.togIn a
      togOut := fun a => if a = addr then false else b.togOut a }

/-! ## What is moved -/

variable {b b' : Bus} {hc : Controller} {addr ep : U8} {buf data : List U8} {mps n i got k : Nat} {bytes : Nat → U8}
  {isIn ok : Bool} {answer : Nat → Packet}

theorem length_packetBytes_le : (packetBytes isIn buf i got bytes).length ≤ got := by
  rw [packetBytes]
  split
  · rw [List.length_map, List.length_range]
  · exact List.length_take_le _ _

theorem packetBytes_out : packetBytes false buf i got bytes = (buf.drop i).take got := rfl

theorem uhciPackets_spec (hmps : 0 < mps) (h : uhciPackets answer isIn buf mps n i = (ok, data, k)) :
    data.length ≤ buf.length - i * mps ∧ (isIn = false → data.length = buf.length - i * mps → data = buf.drop (i * mps)) := by
  induction n generalizing i ok data k with
  | zero =>
    obtain ⟨-, rfl, -⟩ := by simpa only [uhciPackets, Prod.mk.injEq] using h
    refine ⟨Nat.zero_le _, fun _ hlen => ?_⟩
    rw [List.drop_of_length_le (by rw [List.length_nil] at hlen; omega)]
  | succ n ih =>
    rw [uhciPackets] at h
    cases ha : answer i with
    | failed =>
      rw [ha] at h
      obtain ⟨-, rfl, -⟩ := by simpa only [Prod.mk.injEq] using h
      refine ⟨Nat.zero_le _, fun _ hlen => ?_⟩
      rw [List.drop_of_length_le (by rw [List.length_nil] at hlen; omega)]
    | moved m bytes =>
      rw [ha] at h
      have hnow : (packetBytes isIn buf (i * mps) (min m (min mps (buf.length - i * mps))) bytes).length ≤
          min m (min mps (buf.length - i * mps)) := length_packetBytes_le
      dsimp only at h
      split at h
      · -- the device ended the transfer
        obtain ⟨-, rfl, -⟩ := by simpa only [Prod.mk.injEq] using h
        rename_i hshort
        refine ⟨by omega, fun hout _ => ?_⟩
        rw [hout] at hshort
        cases hshort.1
      · cases hr : uhciPackets answer isIn buf mps n (i + 1) with
        | mk ok' r =>
          obtain ⟨rest, k'⟩ := r
          rw [hr] at h
          obtain ⟨-, rfl, -⟩ := by simpa only [Prod.mk.injEq] using h
          obtain ⟨hle, hall⟩ := ih hr
          rw [Nat.add_one_mul] at hle hall
          rw [List.length_append]
          refine ⟨by omega, fun hout hlen => ?_⟩
          subst hout
          have hpart : min m (min mps (buf.length - i * mps)) = min mps (buf.length - i * mps) := by omega
          rw [hall rfl (by omega), hpart, packetBytes_out, ← List.drop_drop]
          rcases Nat.le_total mps (buf.length - i * mps) with hfull | hlast
          · rw [Nat.min_eq_left hfull, List.take_append_drop]
          · have hnone : (buf.drop (i * mps)).drop mps = [] := List.drop_of_length_le (by rwa [List.length_drop])
            rw [Nat.min_eq_right hlast, List.take_of_length_le (by rw [List.length_drop]), hnone, List.append_nil]

structure Moves (isIn : Bool) (buf : List U8) (m : Moved) : Prop where
  length_le : m.data.length ≤ buf.length
  buf_eq : m.buf = bufAfter isIn buf m.data
  taken : isIn = false → m.data.length = buf.length → m.data = buf

theorem Moves.nothing : Moves isIn [] ⟨[], []⟩ :=
  ⟨Nat.le_refl _, by cases isIn <;> rfl, fun _ _ => rfl⟩

theorem Moves.length_buf {m : Moved} (h : Moves isIn buf m) : m.buf.length = buf.length := by
  have := h.length_le
  rw [h.buf_eq, bufAfter]
  split
  · rw [List.length_append, List.length_drop]
    omega
  · rfl

theorem Moves.buf_eq_data {m : Moved} (h : Moves isIn buf m) (hall : m.data.length = buf.length) : m.buf = m.data := by
  rw [h.buf_eq, bufAfter]
  split
  · rw [hall, List.drop_length, List.append_nil]
  · rename_i hout
    exact (h.taken (by simpa using hout) hall).symm

theorem uhciBulkXfer_moves {m : Moved} (h : uhciBulkXfer b addr ep buf mps = (some m, b')) : Moves (dirIn ep) buf m := by
  unfold uhciBulkXfer at h
  split at h
  · cases h
  rename_i hargs
  dsimp only at h
  split at h
  · cases h
  split at h
  · rename_i hnil
    cases h
    rw [List.length_eq_zero_iff] at hnil
    rw [hnil]
    exact .nothing
  have hmps : 0 < mps := by
    rcases Nat.eq_zero_or_pos mps with rfl | hpos
    · simp at hargs
    · exact hpos
  split at h
  · cases h
  · rename_i hr
    cases h
    obtain ⟨hle, hall⟩ := uhciPackets_spec hmps hr
    rw [Nat.zero_mul, Nat.sub_zero] at hle hall
    exact ⟨hle, rfl, hall⟩

theorem ehciBulkXfer_moves {valid : Bool} {m : Moved} (h : ehciBulkXfer b valid addr ep buf mps = (some m, b')) :
    Moves (dirIn ep) buf m := by
  unfold ehciBulkXfer at h
  split at h
  · cases h
  split at h
  · rename_i hnil
    cases h
    rw [List.length_eq_zero_iff] at hnil
    rw [hnil]
    exact .nothing
  split at h
  · cases h
  · rename_i k bytes _
    cases h
    have hlen : (packetBytes (dirIn ep) buf 0 (min k buf.length) bytes).length ≤ min k buf.length := length_packetBytes_le
    refine ⟨by dsimp only; omega, rfl, fun hout hall => ?_⟩
    dsimp only at hall ⊢
    rw [hout] at hlen hall ⊢
    have hk : min k buf.length = buf.length := by omega
    rw [hk, packetBytes_out, List.drop_zero, List.take_length]

theorem usbhcBulkXfer_moves {m : Moved} (h : usbhcBulkXfer b hc addr ep buf mps = (some m, b')) : Moves (dirIn ep) buf m := by
  cases hc with
  | uhci => exact uhciBulkXfer_moves h
  | ehci valid => exact ehciBulkXfer_moves h

end Ezos.Usb

/-!
# Mass storage over bulk transfers (`usbmsc.c`)

A command is three transfers: a wrapper of 31 bytes, the data, and a status of 13 bytes. The driver looks at the signature, the tag
and the status byte; how many bytes the transfers moved, and the residue of the status, it leaves out. A command that fails is
given once more, after a reset.
-/

namespace Ezos.Usb

structure UsbDev where
  hc : Controller
  addr : U8
  configured : Bool
  mscIf : Int
  mscSub : U8
  mscProto : U8
  mscEpIn : U8
  mscEpInMps : U16
  mscEpOut : U8
  mscEpOutMps : U16
  epOut_out : dirIn mscEpOut = false
  epIn_in : mscEpIn ≠ 0 → dirIn mscEpIn = true

structure MscDev where
  d : UsbDev
  sectors : U32
  tag : U32
  ready : Bool

abbrev MscTable := Nat → Option MscDev

def usbmscMaxDev : Nat := 4

def byteAt (l : List U8) (i : Nat) : U8 := l.getD i 0

def le32 (l : List U8) (i : Nat) : U32 :=
  (byteAt l i).setWidth 32 ||| (byteAt l (i + 1)).setWidth 32 <<< 8 ||| (byteAt l (i + 2)).setWidth 32 <<< 16 |||
    (byteAt l (i + 3)).setWidth 32 <<< 24

def be32 (l : List U8) (i : Nat) : U32 :=
  (byteAt l i).setWidth 32 <<< 24 ||| (byteAt l (i + 1)).setWidth 32 <<< 16 ||| (byteAt l (i + 2)).setWidth 32 <<< 8 |||
    (byteAt l (i + 3)).setWidth 32

def cbwOf (tag : U32) (cb : List U8) (datalen : Nat) (isIn : Bool) : List U8 :=
  [0x55, 0x53, 0x42, 0x43] ++ Lib.LittleEndian.bytes tag 4 ++ Lib.LittleEndian.bytes (BitVec.ofNat 32 datalen) 4 ++
    [if isIn ∧ 0 < datalen then 0x80 else 0, 0, BitVec.ofNat 8 cb.length] ++
    (List.range 16).map fun i => byteAt cb i

def cswVerdict (tag : U32) (csw : List U8) : Int :=
  if byteAt csw 0 ≠ 0x55 ∨ byteAt csw 1 ≠ 0x53 ∨ byteAt csw 2 ≠ 0x42 ∨ byteAt csw 3 ≠ 0x53 then -1
  else if le32 csw 4 ≠ tag then -1
  else if byteAt csw 12 = 0 then 0
  else if byteAt csw 12 = 1 then 1
  else -1

/-- What the transfers of one `bot_command` brought about; `none` for one that failed or was not reached. -/
structure Attempt where
  tag : U32
  command : Option Moved
  data : Option Moved
  status : Option Moved

def Attempt.verdict (a : Attempt) : Int := a.status.elim (-1) fun s => cswVerdict a.tag s.buf

def dataStage (b : Bus) (d : UsbDev) (buf : List U8) (isIn : Bool) : Option Moved × Bus :=
  if 0 < buf.length then
    usbhcBulkXfer b d.hc d.addr (if isIn then d.mscEpIn else d.mscEpOut) buf
      (if isIn then d.mscEpInMps else d.mscEpOutMps).toNat
  else (some ⟨[], buf⟩, b)

def botTransfers (b : Bus) (d : UsbDev) (tag : U32) (cb buf : List U8) (isIn : Bool) : Attempt × Bus :=
  match usbhcBulkXfer b d.hc d.addr d.mscEpOut (cbwOf tag cb buf.length isIn) d.mscEpOutMps.toNat with
  | (none, b) => (⟨tag, none, none, none⟩, b)
  | (some c, b) =>
    match dataStage b d buf isIn with
    | (none, b) => (⟨tag, some c, none, none⟩, b)
    | (some m, b) =>
      -- the status is zero where nothing arrived
      let (s, b) := usbhcBulkXfer b d.hc d.addr d.mscEpIn (List.replicate 13 0) d.mscEpInMps.toNat
      (⟨tag, some c, some m, s⟩, b)

structure Outcome where
  result : Int
  buf : List U8
  attempts : List Attempt

def botCommand (b : Bus) (u : MscDev) (cb buf : List U8) (isIn : Bool) : Outcome × MscDev × Bus :=
  let (a, b) := botTransfers b u.d (u.tag + 1) cb buf isIn
  (⟨a.verdict, a.data.elim buf Moved.buf, [a]⟩, { u with tag := u.tag + 1 }, b)

def botResetRecovery (b : Bus) (u : MscDev) : Bus :=
  let b := usbhcControlXfer b [0x21, 0xFF, 0, 0, BitVec.ofInt 8 u.d.mscIf, 0, 0, 0]
  let b := usbhcControlXfer b [0x02, 0x01, 0, 0, u.d.mscEpIn, 0, 0, 0]
  let b := usbhcControlXfer b [0x02, 0x01, 0, 0, u.d.mscEpOut, 0, 0, 0]
  usbhcBulkTogReset b u.d.addr

def botCommandRetry (b : Bus) (u : MscDev) (cb buf : List U8) (isIn : Bool) : Outcome × MscDev × Bus :=
  let (o, u, b) := botCommand b u cb buf isIn
  if o.result = 0 then (o, u, b)
  else
    let (o', u, b) := botCommand (botResetRecovery b u) u cb o.buf isIn
    ({ o' with attempts := o.attempts ++ o'.attempts }, u, b)

def capacityBlock : List U8 := [0x25, 0, 0, 0, 0, 0, 0, 0, 0, 0]

def rw10Block (op : U8) (lba : U32) : List U8 :=
  [op, 0, (lba >>> 24).setWidth 8, (lba >>> 16).setWidth 8, (lba >>> 8).setWidth 8, lba.setWidth 8, 0, 0, 1, 0]

def capacityOf (data : List U8) : Option U32 :=
  if be32 data 0 = 0xFFFFFFFF then none
  else if be32 data 4 ≠ 512 then none
  else some (be32 data 0 + 1)

def scsiReadCapacity (b : Bus) (u : MscDev) : Option U32 × Outcome × MscDev × Bus :=
  let (o, u, b) := botCommandRetry b u capacityBlock (List.replicate 8 0) true
  (if o.result ≠ 0 then none else capacityOf o.buf, o, u, b)

abbrev Sector := { l : List U8 // l.length = 512 }

def scsiRead10 (b : Bus) (u : MscDev) (lba : U32) (buf : Sector) : Outcome × MscDev × Bus :=
  botCommandRetry b u (rw10Block 0x28 lba) buf.1 true

def scsiWrite10 (b : Bus) (u : MscDev) (lba : U32) (buf : Sector) : Outcome × MscDev × Bus :=
  botCommandRetry b u (rw10Block 0x2A lba) buf.1 false

def scsiTestReady (b : Bus) (u : MscDev) : Bool × MscDev × Bus :=
  let (o, u, b) := botCommandRetry b u [0, 0, 0, 0, 0, 0] [] true
  (o.result = 0, u, b)

def mscMpsOk (mps : U16) : Bool := mps == 8 || mps == 16 || mps == 32 || mps == 64 || mps == 512

/-- The devices `usbmsc_init` takes an interest in. -/
def claimed (d : UsbDev) : Bool :=
  d.configured && decide (0 ≤ d.mscIf) && d.mscSub == 0x06 && d.mscProto == 0x50 && d.mscEpIn != 0 && d.mscEpOut != 0 &&
    mscMpsOk d.mscEpInMps && mscMpsOk d.mscEpOutMps

/-- A device that answered as ready: what its capacity command came to, and the unit it is registered as. -/
structure Probe where
  capacity : Outcome
  unit : Option MscDev

/-- The loop of `usbmsc_init`, with `n` units registered. -/
def usbmscInit (b : Bus) : List UsbDev → Nat → List Probe × Bus
  | [], _ => ([], b)
  | d :: ds, n =>
    if n < usbmscMaxDev then
      if claimed d then
        match scsiTestReady b ⟨d, 0, 0x5A5A0000, false⟩ with
        | (false, _, b) => usbmscInit b ds n
        | (true, u, b) =>
          match scsiReadCapacity b u with
          | (none, o, _, b) =>
            let (ps, b) := usbmscInit b ds n
            (⟨o, none⟩ :: ps, b)
          | (some sectors, o, u, b) =>
            -- `sectors` is at least 1 here, and the clamp to it changes nothing
            let sectors := if sectors < 1 then 1 else sectors
            let (ps, b) := usbmscInit b ds (n + 1)
            (⟨o, some { u with sectors := sectors, ready := true }⟩ :: ps, b)
      else usbmscInit b ds n
    else ([], b)

def mscGet (t : MscTable) (unit : U8) (lba : U32) : Option MscDev :=
  if usbmscMaxDev ≤ unit.toNat then none
  else
    match t unit.toNat with
    | none => none
    | some u => if u.ready = false ∨ u.sectors ≤ lba then none else some u

def MscTable.put (t : MscTable) (unit : U8) (u : MscDev) : MscTable := fun i => if i = unit.toNat then some u else t i

def usbmscReadSector (b : Bus) (t : MscTable) (unit : U8) (lba : U32) (buffer : Option Sector) : Outcome × MscTable × Bus :=
  match mscGet t unit lba, buffer with
  | some u, some buf =>
    let (o, u, b) := scsiRead10 b u lba buf
    (o, t.put unit u, b)
  | _, _ => (⟨-1, [], []⟩, t, b)

def usbmscWriteSector (b : Bus) (t : MscTable) (unit : U8) (lba : U32) (buffer : Option Sector) : Outcome × MscTable × Bus :=
  match mscGet t unit lba, buffer with
  | some u, some buf =>
    let (o, u, b) := scsiWrite10 b u lba buf
    (o, t.put unit u, b)
  | _, _ => (⟨-1, [], []⟩, t, b)

variable {b b' : Bus} {u u' : MscDev} {t t' : MscTable} {d : UsbDev} {tag lba : U32} {op unit : U8} {cb buf bytes : List U8}
  {isIn : Bool} {a : Attempt} {o : Outcome} {n : Nat}

theorem length_cbwOf : (cbwOf tag cb n isIn).length = 31 := by
  simp [cbwOf, Lib.LittleEndian.length_bytes]

structure Attempt.Of (a : Attempt) (d : UsbDev) (cb buf : List U8) (isIn : Bool) : Prop where
  command : ∀ c ∈ a.command, Moves false (cbwOf a.tag cb buf.length isIn) c
  data : 0 < buf.length → ∀ m ∈ a.data, Moves (dirIn (if isIn then d.mscEpIn else d.mscEpOut)) buf m
  none_data : buf.length = 0 → ∀ m ∈ a.data, m = ⟨[], buf⟩
  status : ∀ s ∈ a.status, Moves (dirIn d.mscEpIn) (List.replicate 13 0) s
  in_order : a.status.isSome → a.command.isSome ∧ a.data.isSome

theorem botTransfers_of (h : botTransfers b d tag cb buf isIn = (a, b')) : a.Of d cb buf isIn ∧ a.tag = tag := by
  unfold botTransfers at h
  split at h
  · cases h
    exact ⟨⟨by simp, by simp, by simp, by simp, by simp⟩, rfl⟩
  rename_i c b₁ hc
  have hcm := usbhcBulkXfer_moves hc
  rw [d.epOut_out] at hcm
  split at h
  · cases h
    exact ⟨⟨by simpa using hcm, by simp, by simp, by simp, by simp⟩, rfl⟩
  rename_i m b₂ hm
  dsimp only at h
  cases hs : usbhcBulkXfer b₂ d.hc d.addr d.mscEpIn (List.replicate 13 0) d.mscEpInMps.toNat with
  | mk s b₃ =>
    rw [hs] at h
    cases h
    refine ⟨⟨by simpa using hcm, fun hpos m' hm' => ?_, fun hzero m' hm' => ?_, fun s' hs' => ?_, by simp⟩, rfl⟩
    · cases hm'
      rw [dataStage, if_pos hpos] at hm
      exact usbhcBulkXfer_moves hm
    · cases hm'
      rw [dataStage, if_neg (by omega)] at hm
      cases hm
      rfl
    · have hsome : s = some s' := hs'
      rw [hsome] at hs
      exact usbhcBulkXfer_moves hs

theorem Attempt.Of.buf_kept (h : a.Of d cb buf isIn) :
    (a.data.elim buf Moved.buf).length = buf.length ∧ (isIn = false → a.data.elim buf Moved.buf = buf) := by
  cases hd : a.data with
  | none => exact ⟨rfl, fun _ => rfl⟩
  | some m =>
    rcases Nat.eq_zero_or_pos buf.length with hzero | hpos
    · rw [h.none_data hzero m hd]
      exact ⟨rfl, fun _ => rfl⟩
    · have hm := h.data hpos m hd
      refine ⟨hm.length_buf, fun hout => ?_⟩
      rw [hout, if_neg (by simp), d.epOut_out] at hm
      exact hm.buf_eq

structure Attempt.Whole (a : Attempt) (n : Nat) : Prop where
  command : ∀ c ∈ a.command, c.data.length = 31
  data : ∀ m ∈ a.data, m.data.length = n
  status : ∀ s ∈ a.status, s.data.length = 13 ∧ le32 s.data 8 = 0

structure Attempt.InFull (a : Attempt) (cb : List U8) (isIn : Bool) (bytes : List U8) : Prop where
  command : ∃ c ∈ a.command, c.data = cbwOf a.tag cb bytes.length isIn
  data : ∃ m ∈ a.data, m.data = bytes
  status : ∃ s ∈ a.status, s.data.length = 13 ∧ cswVerdict a.tag s.data = 0 ∧ le32 s.data 8 = 0

theorem Attempt.some_of_verdict (h : a.verdict = 0) : ∃ s, a.status = some s ∧ cswVerdict a.tag s.buf = 0 := by
  cases hs : a.status with
  | none => simp [Attempt.verdict, hs] at h
  | some s => exact ⟨s, rfl, by simpa [Attempt.verdict, hs] using h⟩

theorem Attempt.InFull.verdict_eq (h : a.Of d cb buf isIn) (hf : a.InFull cb isIn bytes) : a.verdict = 0 := by
  obtain ⟨s, hs, hlen, hv, -⟩ := hf.status
  rw [Option.mem_def] at hs
  have hbuf := (h.status s hs).buf_eq_data (by rw [hlen, List.length_replicate])
  rw [Attempt.verdict, hs, Option.elim_some, hbuf, hv]

theorem Attempt.InFull.whole (hf : a.InFull cb isIn bytes) : a.Whole bytes.length := by
  obtain ⟨c, hc, hcd⟩ := hf.command
  obtain ⟨m, hm, hmd⟩ := hf.data
  obtain ⟨s, hs, hlen, -, hres⟩ := hf.status
  refine ⟨fun c' hc' => ?_, fun m' hm' => ?_, fun s' hs' => ?_⟩
  · rw [Option.mem_unique hc' hc, hcd, length_cbwOf]
  · rw [Option.mem_unique hm' hm, hmd]
  · rw [Option.mem_unique hs' hs]
    exact ⟨hlen, hres⟩

/-- An attempt that is accepted and moved everything is the command in full; its data is what the buffer holds afterwards. -/
theorem Attempt.Of.inFull (h : a.Of d cb buf isIn) (hpos : 0 < buf.length) (hv : a.verdict = 0) (hw : a.Whole buf.length) :
    a.InFull cb isIn (a.data.elim buf Moved.buf) := by
  obtain ⟨s, hs, hsv⟩ := Attempt.some_of_verdict hv
  obtain ⟨hcs, hds⟩ := h.in_order (by rw [hs]; rfl)
  obtain ⟨c, hc⟩ := Option.isSome_iff_exists.mp hcs
  obtain ⟨m, hm⟩ := Option.isSome_iff_exists.mp hds
  have hmd := hw.data m hm
  have hmm := h.data hpos m hm
  obtain ⟨hlen, hres⟩ := hw.status s hs
  have hsm := (h.status s hs).buf_eq_data (by rw [hlen, List.length_replicate])
  have hbuf : a.data.elim buf Moved.buf = m.data := by rw [hm, Option.elim_some, hmm.buf_eq_data hmd]
  refine ⟨⟨c, hc, ?_⟩, ⟨m, hm, hbuf.symm⟩, s, hs, hlen, by rwa [← hsm], hres⟩
  rw [hbuf, hmd]
  exact (h.command c hc).taken rfl (by rw [hw.command c hc, length_cbwOf])

theorem botCommand_eq (b : Bus) (u : MscDev) (cb buf : List U8) (isIn : Bool) :
    ∃ a, a.Of u.d cb buf isIn ∧ (botCommand b u cb buf isIn).1 = ⟨a.verdict, a.data.elim buf Moved.buf, [a]⟩ ∧
      (botCommand b u cb buf isIn).2.1.d = u.d := by
  cases ht : botTransfers b u.d (u.tag + 1) cb buf isIn with
  | mk a b' =>
    refine ⟨a, (botTransfers_of ht).1, ?_, ?_⟩
    · rw [botCommand, ht]
    · rw [botCommand, ht]

/-- The attempts of a command: the last one gives the result and the buffer, and none before it was accepted. -/
structure Tried (d : UsbDev) (cb buf : List U8) (isIn : Bool) (o : Outcome) : Prop where
  le_two : o.attempts.length ≤ 2
  of : ∀ a ∈ o.attempts, ∃ buf', a.Of d cb buf' isIn ∧ buf'.length = buf.length ∧ (isIn = false → buf' = buf) ∧
    (a.verdict = 0 → o.result = 0 ∧ o.buf = a.data.elim buf' Moved.buf)
  accepted : o.result = 0 → ∃ a ∈ o.attempts, a.verdict = 0
  once : ∀ a ∈ o.attempts, ∀ a' ∈ o.attempts, a.verdict = 0 → a'.verdict = 0 → a = a'

theorem botCommandRetry_tried (b : Bus) (u : MscDev) (cb buf : List U8) (isIn : Bool) :
    Tried u.d cb buf isIn (botCommandRetry b u cb buf isIn).1 := by
  obtain ⟨a₁, hof₁, ho₁, hd₁⟩ := botCommand_eq b u cb buf isIn
  cases hc₁ : botCommand b u cb buf isIn with
  | mk o₁ r₁ =>
    obtain ⟨u₁, b₁⟩ := r₁
    rw [hc₁] at ho₁ hd₁
    dsimp only at ho₁ hd₁
    rw [botCommandRetry, hc₁]
    dsimp only
    split
    · rename_i hzero
      rw [ho₁] at hzero ⊢
      refine ⟨by simp, fun a ha => ?_, fun _ => ⟨a₁, by simp, hzero⟩, fun a ha a' ha' _ _ => ?_⟩
      · rw [List.mem_singleton.mp ha]
        exact ⟨buf, hof₁, rfl, fun _ => rfl, fun hv => ⟨hv, rfl⟩⟩
      · rw [List.mem_singleton.mp ha, List.mem_singleton.mp ha']
    · rename_i hne
      obtain ⟨a₂, hof₂, ho₂, -⟩ := botCommand_eq (botResetRecovery b₁ u₁) u₁ cb o₁.buf isIn
      rw [hd₁] at hof₂
      dsimp only
      rw [ho₂]
      rw [ho₁] at hne hof₂ ⊢
      obtain ⟨hlen, hkept⟩ := hof₁.buf_kept
      have hlast : ∀ a ∈ [a₁] ++ [a₂], a.verdict = 0 → a = a₂ := by
        intro a ha hv
        rcases List.mem_cons.mp ha with rfl | ha
        · exact (hne hv).elim
        · exact List.mem_singleton.mp ha
      refine ⟨by simp, fun a ha => ?_, fun hzero => ⟨a₂, by simp, hzero⟩, fun a ha a' ha' hv hv' => ?_⟩
      · rcases List.mem_cons.mp ha with rfl | ha
        · exact ⟨buf, hof₁, rfl, fun _ => rfl, fun hv => (hne hv).elim⟩
        · rw [List.mem_singleton.mp ha]
          exact ⟨_, hof₂, hlen, hkept, fun hv => ⟨hv, rfl⟩⟩
      · rw [hlast a ha hv, hlast a' ha' hv']

theorem Tried.inFull_iff (h : Tried d cb buf isIn o) (hpos : 0 < buf.length) :
    (o.result = 0 → o.buf.length = buf.length ∧ ∃ a ∈ o.attempts, a.InFull cb isIn o.buf) ↔
      ∀ a ∈ o.attempts, a.verdict = 0 → a.Whole buf.length := by
  constructor
  · intro hin a ha hv
    obtain ⟨buf', -, -, -, hlast⟩ := h.of a ha
    obtain ⟨hlen, a', ha', hf⟩ := hin (hlast hv).1
    obtain ⟨_, hof', -⟩ := h.of a' ha'
    rw [h.once a ha a' ha' hv (hf.verdict_eq hof'), ← hlen]
    exact hf.whole
  · intro hw hzero
    obtain ⟨a, ha, hv⟩ := h.accepted hzero
    obtain ⟨buf', hof, hlen, -, hlast⟩ := h.of a ha
    have hkept := hof.buf_kept.1
    have hbuf := (hlast hv).2
    refine ⟨by rw [hbuf, hkept, hlen], a, ha, ?_⟩
    rw [hbuf]
    exact hof.inFull (by omega) hv (by rw [hlen]; exact hw a ha hv)

/-! ## Sectors and capacities -/

theorem readSector_eq {sector : Sector} (hu : mscGet t unit lba = some u) :
    (usbmscReadSector b t unit lba (some sector)).1 = (botCommandRetry b u (rw10Block 0x28 lba) sector.1 true).1 := by
  simp only [usbmscReadSector, hu, scsiRead10]

theorem writeSector_eq {sector : Sector} (hu : mscGet t unit lba = some u) :
    (usbmscWriteSector b t unit lba (some sector)).1 = (botCommandRetry b u (rw10Block 0x2A lba) sector.1 false).1 := by
  simp only [usbmscWriteSector, hu, scsiWrite10]

theorem sector_rejected (b : Bus) (t : MscTable) (unit : U8) (lba : U32) (buffer : Option Sector)
    (h : mscGet t unit lba = none ∨ buffer = none) :
    (usbmscReadSector b t unit lba buffer).1 = ⟨-1, [], []⟩ ∧ (usbmscWriteSector b t unit lba buffer).1 = ⟨-1, [], []⟩ := by
  rcases h with h | rfl
  · simp only [usbmscReadSector, usbmscWriteSector, h, and_self]
  · cases h : mscGet t unit lba <;> simp only [usbmscReadSector, usbmscWriteSector, h, and_self]

theorem Tried.buf_eq (h : Tried d cb buf false o) (hzero : o.result = 0) : o.buf = buf := by
  obtain ⟨a, ha, hv⟩ := h.accepted hzero
  obtain ⟨buf', hof, -, hkeep, hlast⟩ := h.of a ha
  rw [(hlast hv).2, hof.buf_kept.2 rfl, hkeep rfl]

theorem capacityOf_pos {data : List U8} {s : U32} (h : capacityOf data = some s) : (if s < 1 then 1 else s) = s := by
  unfold capacityOf at h
  split at h
  · cases h
  rename_i hlast
  split at h
  · cases h
  cases h
  rw [if_neg]
  intro hlt
  apply hlast
  have hone : (1 : U32).toNat = 1 := rfl
  have hmax : (0xFFFFFFFF : U32).toNat = 4294967295 := rfl
  have := (be32 data 0).isLt
  rw [BitVec.lt_def, BitVec.toNat_add, hone] at hlt
  apply BitVec.eq_of_toNat_eq
  rw [hmax]
  omega

def Probe.sectors (p : Probe) : Option U32 := p.unit.map MscDev.sectors

theorem usbmscInit_probes (b : Bus) (ds : List UsbDev) (n : Nat) :
    ∀ p ∈ (usbmscInit b ds n).1, (∃ d, Tried d capacityBlock (List.replicate 8 0) true p.capacity) ∧
      p.sectors = if p.capacity.result ≠ 0 then none else capacityOf p.capacity.buf := by
  induction ds generalizing b n with
  | nil => simp [usbmscInit]
  | cons d ds ih =>
    intro p hp
    rw [usbmscInit] at hp
    split at hp
    · split at hp
      · split at hp
        · exact ih _ _ p hp
        · rename_i u b₁ _
          have htried := botCommandRetry_tried b₁ u capacityBlock (List.replicate 8 0) true
          rw [scsiReadCapacity] at hp
          cases hr : botCommandRetry b₁ u capacityBlock (List.replicate 8 0) true with
          | mk o r =>
            rw [hr] at hp htried
            dsimp only at hp htried
            split at hp
            · rename_i hs
              rw [Prod.mk.injEq, Prod.mk.injEq] at hs
              obtain ⟨hs, rfl, -⟩ := hs
              rcases List.mem_cons.mp hp with rfl | hp
              · exact ⟨⟨_, htried⟩, hs.symm⟩
              · exact ih _ _ p hp
            · rename_i sectors o' _ _ hs
              rw [Prod.mk.injEq, Prod.mk.injEq] at hs
              obtain ⟨hs, rfl, -⟩ := hs
              rcases List.mem_cons.mp hp with rfl | hp
              · refine ⟨⟨_, htried⟩, ?_⟩
                have hcap : capacityOf o.buf = some sectors := by
                  split at hs
                  · cases hs
                  · exact hs
                dsimp only [Probe.sectors, Option.map_some]
                rw [hs, capacityOf_pos hcap]
              · exact ih _ _ p hp
      · exact ih _ _ p hp
    · cases hp

/-- A capacity is registered from eight bytes received exactly if a shorter answer that is accepted does not look like one. -/
theorem capacity_of_eight_iff {cap : Option U32} (h : Tried d capacityBlock (List.replicate 8 0) true o)
    (hcap : cap = if o.result ≠ 0 then none else capacityOf o.buf) :
    (∀ s ∈ cap, ∃ a ∈ o.attempts, a.verdict = 0 ∧ ∃ m ∈ a.data, m.data.length = 8 ∧ capacityOf m.data = some s) ↔
      ∀ a ∈ o.attempts, a.verdict = 0 → ∀ m ∈ a.data, m.data.length = 8 ∨ capacityOf m.buf = none := by
  constructor
  · intro hin a ha hv m hm
    obtain ⟨buf', -, -, -, hlast⟩ := h.of a ha
    obtain ⟨hzero, hbuf⟩ := hlast hv
    rw [Option.mem_def.mp hm, Option.elim_some] at hbuf
    rw [if_neg (not_not_intro hzero), hbuf] at hcap
    cases hc : capacityOf m.buf with
    | none => exact .inr rfl
    | some s =>
      rw [hc] at hcap
      obtain ⟨a', ha', hv', m', hm', hlen, -⟩ := hin s hcap
      rw [← h.once a ha a' ha' hv hv'] at hm'
      rw [Option.mem_unique hm hm']
      exact .inl hlen
  · intro hcond s hs
    rw [hcap] at hs
    split at hs
    · cases hs
    rename_i hzero
    obtain ⟨a, ha, hv⟩ := h.accepted (by simpa using hzero)
    obtain ⟨buf', hof, hlen, -, hlast⟩ := h.of a ha
    have hbuf := (hlast hv).2
    obtain ⟨st, hst, -⟩ := Attempt.some_of_verdict hv
    obtain ⟨m, hm⟩ := Option.isSome_iff_exists.mp (hof.in_order (by rw [hst]; rfl)).2
    rw [hm, Option.elim_some] at hbuf
    rw [hbuf, Option.mem_def] at hs
    have hbuf' : buf'.length = 8 := by rw [hlen, List.length_replicate]
    refine ⟨a, ha, hv, m, hm, ?_⟩
    rcases hcond a ha hv m hm with height | hnone
    · exact ⟨height, by rwa [← (hof.data (by omega) m hm).buf_eq_data (by rw [height, hbuf'])]⟩
    · rw [hnone] at hs
      cases hs

theorem usbmsc_complete (b : Bus) :
    (∀ u cb buf isIn, (botCommandRetry b u cb buf isIn).1.attempts.length ≤ 2) ∧
    (∀ t unit lba buffer,
      let o := (usbmscReadSector b t unit lba buffer).1
      (o.result = 0 → o.buf.length = 512 ∧ ∃ a ∈ o.attempts, a.InFull (rw10Block 0x28 lba) true o.buf) ↔
        ∀ a ∈ o.attempts, a.verdict = 0 → a.Whole 512) ∧
    (∀ t unit lba buffer,
      let o := (usbmscWriteSector b t unit lba buffer).1
      (o.result = 0 → ∃ sector, buffer = some sector ∧ ∃ a ∈ o.attempts, a.InFull (rw10Block 0x2A lba) false sector.1) ↔
        ∀ a ∈ o.attempts, a.verdict = 0 → a.Whole 512) ∧
    ∀ ds, ∀ p ∈ (usbmscInit b ds 0).1,
      (∀ s ∈ p.sectors, ∃ a ∈ p.capacity.attempts, a.verdict = 0 ∧
          ∃ m ∈ a.data, m.data.length = 8 ∧ capacityOf m.data = some s) ↔
        ∀ a ∈ p.capacity.attempts, a.verdict = 0 → ∀ m ∈ a.data, m.data.length = 8 ∨ capacityOf m.buf = none := by
  refine ⟨fun u cb buf isIn => (botCommandRetry_tried b u cb buf isIn).le_two, ?_, ?_, ?_⟩
  · intro t unit lba buffer
    dsimp only
    cases hu : mscGet t unit lba with
    | none =>
      simp [(sector_rejected b t unit lba buffer (.inl hu)).1]
    | some u =>
      cases buffer with
      | none =>
        simp [(sector_rejected b t unit lba none (.inr rfl)).1]
      | some sector =>
        have h := botCommandRetry_tried b u (rw10Block 0x28 lba) sector.1 true
        have hiff := h.inFull_iff (by rw [sector.2]; decide)
        rw [sector.2] at hiff
        rw [readSector_eq hu]
        exact hiff
  · intro t unit lba buffer
    dsimp only
    cases hu : mscGet t unit lba with
    | none =>
      simp [(sector_rejected b t unit lba buffer (.inl hu)).2]
    | some u =>
      cases buffer with
      | none =>
        simp [(sector_rejected b t unit lba none (.inr rfl)).2]
      | some sector =>
        have h := botCommandRetry_tried b u (rw10Block 0x2A lba) sector.1 false
        have hiff := h.inFull_iff (by rw [sector.2]; decide)
        rw [sector.2] at hiff
        rw [writeSector_eq hu]
        refine Iff.trans ⟨fun hin hzero => ?_, fun hin hzero => ?_⟩ hiff
        · obtain ⟨s, hs, a, ha, hf⟩ := hin hzero
          cases hs
          rw [h.buf_eq hzero]
          exact ⟨sector.2, a, ha, hf⟩
        · obtain ⟨-, a, ha, hf⟩ := hin hzero
          rw [h.buf_eq hzero] at hf
          exact ⟨sector, rfl, a, ha, hf⟩
  · intro ds p hp
    obtain ⟨⟨d, htried⟩, hcap⟩ := usbmscInit_probes b ds 0 p hp
    exact capacity_of_eight_iff htried hcap

def hollowAnswers (tag : U32) : Nat → Nat → Packet := fun i _ =>
  if i = 0 then .moved 31 fun _ => 0
  else if i = 1 then .moved 0 fun _ => 0
  else .moved 13 fun k =>
    byteAt ([0x55, 0x53, 0x42, 0x53] ++ Lib.LittleEndian.bytes tag 4 ++ Lib.LittleEndian.bytes (512 : U32) 4 ++ [0]) k

def hollowDev : UsbDev :=
  ⟨.ehci true, 1, true, 0, 0x06, 0x50, 0x81, 512, 0x02, 512, by decide, by decide⟩

def hollowBus (tag : U32) : Bus := ⟨fun _ => false, fun _ => false, [], hollowAnswers tag⟩

def hollowTable : MscTable := fun i => if i = 0 then some ⟨hollowDev, 64, 0x5A5A0002, true⟩ else none

def blankSector : Sector := ⟨List.replicate 512 0, List.length_replicate⟩

def hollowRead : Outcome := (usbmscReadSector (hollowBus 0x5A5A0003) hollowTable 0 7 (some blankSector)).1

set_option maxRecDepth 8000 in
theorem hollowRead_result : hollowRead.result = 0 := by decide

set_option maxRecDepth 8000 in
theorem hollowRead_data : hollowRead.attempts.all (fun a => a.data.all fun m => m.data.isEmpty) = true := by decide

theorem usbmsc_hollow_read :
    ¬ ∀ (b : Bus) (t : MscTable) (unit : U8) (lba : U32) (buffer : Option Sector),
      let o := (usbmscReadSector b t unit lba buffer).1
      o.result = 0 → o.buf.length = 512 ∧ ∃ a ∈ o.attempts, a.InFull (rw10Block 0x28 lba) true o.buf := by
  intro h
  have hread : hollowRead.result = 0 →
      hollowRead.buf.length = 512 ∧ ∃ a ∈ hollowRead.attempts, a.InFull (rw10Block 0x28 7) true hollowRead.buf := by
    rw [hollowRead]
    exact h (hollowBus 0x5A5A0003) hollowTable 0 7 (some blankSector)
  obtain ⟨hlen, a, ha, hf⟩ := hread hollowRead_result
  obtain ⟨m, hm, hdata⟩ := hf.data
  have hempty := List.all_eq_true.mp hollowRead_data a ha
  rw [Option.mem_def.mp hm, Option.all_some, hdata, List.isEmpty_iff, ← List.length_eq_zero_iff, hlen] at hempty
  cases hempty

end Ezos.Usb
