import Ezos.Lib.Ring
import Ezos.Lib.Run
import Ezos.Types

/-!
# The receive ring (`kernel/rtl8139.c`)

The card stores frames behind its own write position; `rx_drain` reads them behind `g_rx_pos` and knows
an empty ring only by a length field of 0. A drain is cut into steps at the calls of `net_input`: frames
come in between any two steps, and a call may poll and start another drain.
-/

namespace Ezos.Rtl8139

open Lib

set_option autoImplicit false

def rxRingSize : Nat := 8192
def rxLenMin : Nat := 32
def rxLenMax : Nat := 1518
def rxHdrLen : Nat := 4
def rxDrainMax : Nat := 64

structure Frame where
  status : U8 × U8
  data : List U8
  crc : List U8
  min : 60 ≤ data.length
  max : data.length ≤ 1514
  crc_length : crc.length = 4

def Frame.flen (F : Frame) : Nat := F.data.length + 4

def Frame.header (F : Frame) : List U8 :=
  [F.status.1, F.status.2, BitVec.ofNat 8 (F.flen % 256), BitVec.ofNat 8 (F.flen / 256)]

def Frame.wire (F : Frame) : List U8 := F.header ++ F.data ++ F.crc

def span (flen : Nat) : Nat := (rxHdrLen + flen + 3) / 4 * 4

/-- A run of `rx_drain`: at the top of its loop, or in `net_input` with a frame of this length. -/
structure Drain where
  guard : Nat
  input : Option Nat

structure State where
  ring : Nat → U8
  pos : Nat
  frame : List U8
  packets : Nat
  errors : Nat
  drains : List Drain
  /-- Of the card: its write position, CAPR, the bytes not yet released, and the bit ROK of ISR. -/
  wpos : Nat
  capr : U16
  used : Nat
  rok : Bool
  /-- The frames stored and the frames given to `net_input` so far. -/
  stored : List Frame
  passed : List (List U8)

/-- After `rtl8139_init`, over a ring that `kmalloc` has not cleared. -/
def init (ring : Nat → U8) : State where
  ring := ring
  pos := 0
  frame := []
  packets := 0
  errors := 0
  drains := []
  wpos := 0
  capr := 0xFFF0
  used := 0
  rok := false
  stored := []
  passed := []

def State.store (s : State) (F : Frame) : State :=
  { s with
    ring := Ring.putAll s.ring rxRingSize s.wpos F.wire
    wpos := (s.wpos + span F.flen) % rxRingSize
    used := s.used + span F.flen
    rok := true
    stored := s.stored ++ [F] }

/-- `outw(REG(R_CAPR), pos - 0x10)`: the card takes the bytes before `pos` for read. -/
def State.release (s : State) (pos : Nat) : State :=
  let capr : U16 := BitVec.ofNat 16 pos - 0x10
  { s with
    capr := capr
    used := (s.wpos + rxRingSize - (capr + 0x10).toNat % rxRingSize) % rxRingSize }

def rxR8 (ring : Nat → U8) (off : Nat) : U8 := ring (off % rxRingSize)

def rxR16 (ring : Nat → U8) (off : Nat) : Nat := (rxR8 ring off).toNat + (rxR8 ring (off + 1)).toNat * 256

def rxCopy (ring : Nat → U8) (off n : Nat) : List U8 := (List.range n).map fun i => rxR8 ring (off + i)

/-- The beginning of `irq11_handler` and `rtl8139_poll`, up to the loop of `rx_drain`. -/
def State.enter (s : State) : State :=
  if s.rok then { s with rok := false, drains := s.drains ++ [⟨0, none⟩] } else s

/-- The body of the loop of drain `k` up to `net_input`. -/
def State.iterate (s : State) (k guard : Nat) : State :=
  if rxDrainMax ≤ guard then { s with drains := s.drains.eraseIdx k }
  else
    let flen := rxR16 s.ring (s.pos + 2)
    if flen = 0 then { s with drains := s.drains.eraseIdx k }
    else if flen < rxLenMin ∨ rxLenMax < flen then
      { s with errors := s.errors + 1, pos := 0, drains := s.drains.eraseIdx k }.release 0
    else
      let bytes := rxCopy s.ring (s.pos + rxHdrLen) (flen - 4)
      { s with
        frame := bytes
        packets := s.packets + 1
        passed := s.passed ++ [bytes]
        drains := s.drains.set k ⟨guard, some flen⟩ }

def State.advance (s : State) (k guard flen : Nat) : State :=
  let pos := (s.pos + rxHdrLen + flen + 3) / 4 * 4 % rxRingSize
  { s with pos := pos, drains := s.drains.set k ⟨guard + 1, none⟩ }.release pos

inductive Op
  | store (F : Frame)
  | enter
  | go (k : Nat)

def State.run (s : State) : Op → State
  | .store F => s.store F
  | .enter => s.enter
  | .go k =>
    match s.drains[k]? with
    | some ⟨guard, none⟩ => s.iterate k guard
    | some ⟨guard, some flen⟩ => s.advance k guard flen
    | none => s

/-- The card never writes over bytes that have not been released, and the driver lets go of the CPU only
in `net_input`. -/
def Allowed (s : State) : Op → Prop
  | .store F => s.used + span F.flen ≤ rxRingSize
  | .enter => ∀ d ∈ s.drains, d.input.isSome
  | .go k => k < s.drains.length ∧ ∀ d ∈ s.drains.eraseIdx k, d.input.isSome

instance : (s : State) → (o : Op) → Decidable (Allowed s o)
  | s, .store F => inferInstanceAs (Decidable (s.used + span F.flen ≤ rxRingSize))
  | s, .enter => inferInstanceAs (Decidable (∀ d ∈ s.drains, d.input.isSome))
  | s, .go k => inferInstanceAs (Decidable (k < s.drains.length ∧ ∀ d ∈ s.drains.eraseIdx k, d.input.isSome))

def Step (s : State) (o : Op) (s' : State) : Prop := Allowed s o ∧ s' = s.run o

def Looks (s : State) (k : Nat) : Prop := ∃ guard, s.drains[k]? = some ⟨guard, none⟩ ∧ guard < rxDrainMax

/-- The next length field says that the ring is empty, or makes the driver start over at position 0, where
the card is too. -/
def ReadsEmpty (s : State) : Prop :=
  rxR16 s.ring (s.pos + 2) = 0 ∨
    (rxR16 s.ring (s.pos + 2) < rxLenMin ∨ rxLenMax < rxR16 s.ring (s.pos + 2)) ∧ s.wpos = 0

def Clean (s : State) : Op → Prop
  | .enter => s.rok = true → s.drains = []
  | .go k => Looks s k → s.used = 0 → ReadsEmpty s
  | .store _ => True

def CleanStep (s : State) (o : Op) (s' : State) : Prop := Step s o s' ∧ Clean s o

variable {s s' : State} {F : Frame} {head tail k guard flen : Nat} {fs rest : List (Frame × List U8)}
  {x : Frame × List U8} {o : Op} {ring : Nat → U8}

def slot (x : Frame × List U8) : List U8 := x.1.wire ++ x.2

structure Layout (s : State) (head tail : Nat) (fs : List (Frame × List U8)) : Prop where
  le : head ≤ tail
  room : tail - head ≤ rxRingSize
  aligned : head % 4 = 0
  pos : s.pos = head % rxRingSize
  wpos : s.wpos = tail % rxRingSize
  used : s.used = tail - head
  bytes : Ring.contents s.ring rxRingSize head tail = (fs.map slot).flatten
  spans : ∀ x ∈ fs, (slot x).length = span x.1.flen

theorem Layout.congr {s s' : State} {head tail : Nat} {fs : List (Frame × List U8)} (h : Layout s head tail fs)
    (hring : s'.ring = s.ring) (hpos : s'.pos = s.pos) (hwpos : s'.wpos = s.wpos) (hused : s'.used = s.used) :
    Layout s' head tail fs where
  le := h.le
  room := h.room
  aligned := h.aligned
  pos := hpos.trans h.pos
  wpos := hwpos.trans h.wpos
  used := hused.trans h.used
  bytes := hring ▸ h.bytes
  spans := h.spans

theorem wire_length (F : Frame) : F.wire.length = rxHdrLen + F.flen := by
  simp [Frame.wire, Frame.header, Frame.flen, F.crc_length, rxHdrLen]
  omega

theorem le_span (n : Nat) : rxHdrLen + n ≤ span n := by
  unfold span
  omega

theorem span_mod (n : Nat) : span n % 4 = 0 := Nat.mul_mod_left _ _

theorem rxCopy_eq (ring : Nat → U8) (off n : Nat) :
    rxCopy ring off n = Ring.contents ring rxRingSize off (off + n) := by
  rw [rxCopy, Ring.contents, Nat.add_sub_cancel_left]
  rfl

theorem rxCopy_congr {a b : Nat} (h : a % rxRingSize = b % rxRingSize) (n : Nat) :
    rxCopy ring a n = rxCopy ring b n := by
  rw [rxCopy_eq, rxCopy_eq, ← Ring.contents_mod, h, Ring.contents_mod]

theorem Layout.first (h : Layout s head tail (x :: rest)) :
    rxCopy s.ring head rxHdrLen = x.1.header ∧
      rxCopy s.ring (head + rxHdrLen) x.1.data.length = x.1.data ∧
      head + span x.1.flen ≤ tail ∧
      Ring.contents s.ring rxRingSize (head + span x.1.flen) tail = (rest.map slot).flatten := by
  have hspan := h.spans x List.mem_cons_self
  have hle := le_span x.1.flen
  have hall := congrArg List.length h.bytes
  rw [Ring.length_contents, List.map_cons, List.flatten_cons, List.length_append, hspan] at hall
  have htail : head + span x.1.flen ≤ tail := by
    have := h.le
    omega
  have hflen : x.1.flen = x.1.data.length + 4 := rfl
  have hhdr : x.1.header.length = rxHdrLen := rfl
  -- cut the contents where the parts end
  have hcut := h.bytes
  rw [Ring.contents_append (head + span x.1.flen) (by omega) htail, List.map_cons,
    List.flatten_cons] at hcut
  obtain ⟨hslot, hrest⟩ := List.append_inj hcut (by rw [Ring.length_contents, hspan]; omega)
  have hbehind : Ring.contents s.ring rxRingSize (head + rxHdrLen) (head + span x.1.flen) =
      Ring.contents s.ring rxRingSize (head + rxHdrLen) (head + rxHdrLen + x.1.data.length) ++
        Ring.contents s.ring rxRingSize (head + rxHdrLen + x.1.data.length) (head + span x.1.flen) :=
    Ring.contents_append _ (by omega) (by omega)
  rw [Ring.contents_append (head + rxHdrLen) (by omega) (by omega), hbehind, slot, Frame.wire,
    List.append_assoc, List.append_assoc] at hslot
  obtain ⟨hheader, htl⟩ := List.append_inj hslot (by rw [Ring.length_contents, hhdr]; omega)
  obtain ⟨hdata, -⟩ := List.append_inj htl (by rw [Ring.length_contents]; omega)
  exact ⟨(rxCopy_eq _ _ _).trans hheader, (rxCopy_eq _ _ _).trans hdata, htail, hrest⟩

theorem header_flen {a b c d : U8} (h : [a, b, c, d] = F.header) : c.toNat + d.toNat * 256 = F.flen := by
  have hmax := F.max
  have hflen : F.flen = F.data.length + 4 := rfl
  simp only [Frame.header, List.cons.injEq] at h
  obtain ⟨-, -, rfl, rfl, -⟩ := h
  rw [BitVec.toNat_ofNat, BitVec.toNat_ofNat]
  omega

theorem Layout.reads (h : Layout s head tail (x :: rest)) :
    rxR16 s.ring (s.pos + 2) = x.1.flen ∧
      rxCopy s.ring (s.pos + rxHdrLen) (x.1.flen - 4) = x.1.data := by
  obtain ⟨hheader, hdata, -, -⟩ := h.first
  have hmod : ∀ j, (s.pos + j) % rxRingSize = (head + j) % rxRingSize := by
    intro j
    rw [h.pos, Nat.mod_add_mod]
  constructor
  · have hfour : rxCopy s.ring head rxHdrLen =
        [rxR8 s.ring head, rxR8 s.ring (head + 1), rxR8 s.ring (head + 2), rxR8 s.ring (head + 3)] := rfl
    rw [hfour] at hheader
    have hlen := header_flen hheader
    have h2 : rxR8 s.ring (s.pos + 2) = rxR8 s.ring (head + 2) := congrArg s.ring (hmod 2)
    have h3 : rxR8 s.ring (s.pos + 2 + 1) = rxR8 s.ring (head + 3) := congrArg s.ring (hmod 3)
    rw [rxR16, h2, h3]
    exact hlen
  · rw [rxCopy_congr (hmod rxHdrLen)]
    exact hdata

theorem store_layout (h : Layout s head tail fs) (hroom : s.used + span F.flen ≤ rxRingSize) :
    ∃ pad, Layout (s.store F) head (tail + span F.flen) (fs ++ [(F, pad)]) := by
  have hle := h.le
  have hused := h.used
  have hspan := le_span F.flen
  have hwire := wire_length F
  have hput : (s.store F).ring = Ring.putAll s.ring rxRingSize tail F.wire :=
    Ring.putAll_congr (by rw [h.wpos, Nat.mod_mod])
  have hcut : Ring.contents (s.store F).ring rxRingSize head (tail + F.wire.length) =
      (fs.map slot).flatten ++ F.wire := by
    rw [hput, Ring.contents_putAll hle (by omega), h.bytes]
  refine ⟨Ring.contents (s.store F).ring rxRingSize (tail + F.wire.length) (tail + span F.flen), ?_⟩
  exact {
    le := by omega
    room := by omega
    aligned := h.aligned
    pos := h.pos
    wpos := by
      show (s.wpos + span F.flen) % rxRingSize = _
      rw [h.wpos, Nat.mod_add_mod]
    used := by
      show s.used + span F.flen = _
      omega
    bytes := by
      rw [Ring.contents_append (tail + F.wire.length) (by omega) (by omega), hcut, List.map_append,
        List.flatten_append, List.append_assoc]
      simp [slot]
    spans := by
      intro x hx
      rcases List.mem_append.mp hx with hx | hx
      · exact h.spans x hx
      · obtain rfl := List.mem_singleton.mp hx
        simp only [slot, List.length_append, Ring.length_contents]
        omega }

theorem advance_layout (h : Layout s head tail (x :: rest)) :
    Layout (s.advance k guard x.1.flen) (head + span x.1.flen) tail rest := by
  obtain ⟨-, -, htail, hbytes⟩ := h.first
  have hle := h.le
  have hroom := h.room
  have hgt := le_span x.1.flen
  have haligned := h.aligned
  have hspan := span_mod x.1.flen
  have hhdr : rxHdrLen = 4 := rfl
  have hmod : head % rxRingSize % 4 = 0 := by
    unfold rxRingSize
    omega
  have hpos : (s.pos + rxHdrLen + x.1.flen + 3) / 4 * 4 % rxRingSize =
      (head + span x.1.flen) % rxRingSize := by
    rw [h.pos, ← Nat.mod_add_mod head]
    unfold span
    congr 1
    omega
  exact {
    le := htail
    room := by omega
    aligned := by omega
    pos := hpos
    wpos := h.wpos
    used := by
      show (s.wpos + rxRingSize - _) % rxRingSize = _
      rw [h.wpos, hpos]
      unfold rxRingSize at *
      simp only [BitVec.sub_add_cancel, BitVec.toNat_ofNat]
      omega
    bytes := hbytes
    spans := fun y hy => h.spans y (List.mem_cons_of_mem x hy) }

/-! ## Runs without a nested drain -/

/-- `rest` are the frames that have not been passed: the first frame of the ring is no longer among them
while a drain is in `net_input`. -/
def Pending (s : State) (fs rest : List (Frame × List U8)) : Prop :=
  rest = fs ∧ (s.drains = [] ∨ ∃ guard, s.drains = [⟨guard, none⟩]) ∨
    ∃ x guard, fs = x :: rest ∧ s.drains = [⟨guard, some x.1.flen⟩]

def Good (s : State) : Prop :=
  ∃ head tail fs rest, Layout s head tail fs ∧ Pending s fs rest ∧
    s.stored.map Frame.data = s.passed ++ rest.map fun x => x.1.data

theorem good_init : Good (init ring) := by
  refine ⟨0, 0, [], [], ?_, .inl ⟨rfl, .inl rfl⟩, rfl⟩
  exact {
    le := Nat.le_refl 0
    room := Nat.zero_le _
    aligned := rfl
    pos := rfl
    wpos := rfl
    used := rfl
    bytes := Ring.contents_eq_nil (Nat.le_refl 0)
    spans := fun _ hx => absurd hx List.not_mem_nil }

theorem good_store (h : Good s) (hroom : s.used + span F.flen ≤ rxRingSize) : Good (s.store F) := by
  obtain ⟨head, tail, fs, rest, hlay, hpending, hpassed⟩ := h
  obtain ⟨pad, hlay'⟩ := store_layout hlay hroom
  refine ⟨head, tail + span F.flen, fs ++ [(F, pad)], rest ++ [(F, pad)], hlay', ?_, ?_⟩
  · cases hpending with
    | inl h => exact .inl ⟨by rw [h.1], h.2⟩
    | inr h =>
      obtain ⟨x, guard, rfl, hdrains⟩ := h
      exact .inr ⟨x, guard, rfl, hdrains⟩
  · show (s.stored ++ [F]).map Frame.data = _
    rw [List.map_append, hpassed, List.append_assoc, List.map_append]
    rfl

theorem good_enter (h : Good s) (hclean : s.rok = true → s.drains = []) : Good s.enter := by
  unfold State.enter
  split
  next hrok =>
    have hnone := hclean hrok
    obtain ⟨head, tail, fs, rest, hlay, hpending, hpassed⟩ := h
    refine ⟨head, tail, fs, fs, hlay.congr rfl rfl rfl rfl,
      .inl ⟨rfl, .inr ⟨0, by simp [hnone]⟩⟩, ?_⟩
    cases hpending with
    | inl h =>
      obtain ⟨rfl, -⟩ := h
      exact hpassed
    | inr h =>
      obtain ⟨x, guard, -, hdrains⟩ := h
      simp [hnone] at hdrains
  next => exact h

theorem good_advance (h : Good s) (hk : s.drains[k]? = some ⟨guard, some flen⟩) :
    Good (s.advance k guard flen) := by
  obtain ⟨head, tail, fs, rest, hlay, hpending, hpassed⟩ := h
  cases hpending with
  | inl h =>
    obtain ⟨-, hdrains | ⟨guard', hdrains⟩⟩ := h
    · simp [hdrains] at hk
    · cases k <;> simp [hdrains] at hk
  | inr h =>
    obtain ⟨x, guard', rfl, hdrains⟩ := h
    cases k with
    | succ k => simp [hdrains] at hk
    | zero =>
      simp only [hdrains, List.getElem?_cons_zero, Option.some.injEq, Drain.mk.injEq] at hk
      obtain ⟨rfl, rfl⟩ := hk
      refine ⟨_, tail, rest, rest, advance_layout hlay, .inl ⟨rfl, .inr ⟨guard' + 1, ?_⟩⟩, hpassed⟩
      show s.drains.set 0 _ = _
      rw [hdrains]
      rfl

/-- The look passes the next frame, or it stops with every frame passed and `g_rx_pos` at the write
position of the card. -/
def Serves (s s' : State) : Prop :=
  (∃ F, s.stored[s.passed.length]? = some F ∧ s'.passed = s.passed ++ [F.data]) ∨
    s.passed.length = s.stored.length ∧ s'.passed = s.passed ∧ s'.drains.length < s.drains.length ∧
      s'.pos = s'.wpos

theorem run_go (hk : s.drains[k]? = some ⟨guard, none⟩) : s.run (.go k) = s.iterate k guard := by
  simp only [State.run, hk]

theorem Good.look (h : Good s) (hk : s.drains[k]? = some ⟨guard, none⟩) :
    k = 0 ∧ s.drains = [⟨guard, none⟩] ∧ ∃ head tail fs, Layout s head tail fs ∧
      s.stored.map Frame.data = s.passed ++ fs.map fun x => x.1.data := by
  obtain ⟨head, tail, fs, rest, hlay, hpending, hpassed⟩ := h
  cases hpending with
  | inl h =>
    obtain ⟨rfl, hdrains | ⟨guard', hdrains⟩⟩ := h
    · simp [hdrains] at hk
    · cases k with
      | succ k => simp [hdrains] at hk
      | zero =>
        simp only [hdrains, List.getElem?_cons_zero, Option.some.injEq, Drain.mk.injEq] at hk
        obtain ⟨rfl, -⟩ := hk
        exact ⟨rfl, hdrains, head, tail, rest, hlay, hpassed⟩
  | inr h =>
    obtain ⟨x, guard', -, hdrains⟩ := h
    cases k <;> simp [hdrains] at hk

theorem iterate_cons (h : Layout s head tail (x :: rest)) (hguard : guard < rxDrainMax) :
    s.iterate k guard =
      { s with
        frame := x.1.data
        packets := s.packets + 1
        passed := s.passed ++ [x.1.data]
        drains := s.drains.set k ⟨guard, some x.1.flen⟩ } := by
  obtain ⟨hflen, hdata⟩ := h.reads
  have hmin := x.1.min
  have hmax := x.1.max
  have heq : x.1.flen = x.1.data.length + 4 := rfl
  have hpos : ¬x.1.flen = 0 := by omega
  have hrange : ¬(x.1.flen < rxLenMin ∨ rxLenMax < x.1.flen) := by
    unfold rxLenMin rxLenMax
    omega
  have hloop : ¬rxDrainMax ≤ guard := Nat.not_le.mpr hguard
  simp only [State.iterate, hflen, hdata, if_neg hloop, if_neg hpos, if_neg hrange]

theorem Layout.used_pos (h : Layout s head tail (x :: rest)) : 0 < s.used := by
  have hle := le_span x.1.flen
  have htail := h.first.2.2.1
  have hused := h.used
  have hhdr : rxHdrLen = 4 := rfl
  omega

theorem Layout.empty (h : Layout s head tail []) : head = tail ∧ s.used = 0 ∧ s.pos = s.wpos := by
  have hlen := congrArg List.length h.bytes
  rw [Ring.length_contents] at hlen
  have hle := h.le
  have heq : head = tail := by
    simp at hlen
    omega
  refine ⟨heq, ?_, ?_⟩
  · rw [h.used, heq, Nat.sub_self]
  · rw [h.pos, h.wpos, heq]

theorem iterate_empty (hguard : guard < rxDrainMax) (hread : ReadsEmpty s) :
    ∃ errors, s.iterate k guard =
        { s with errors := errors, drains := s.drains.eraseIdx k } ∨
      s.wpos = 0 ∧ s.iterate k guard =
        { s with errors := errors, pos := 0, drains := s.drains.eraseIdx k, capr := 0xFFF0, used := 0 } := by
  have hloop : ¬rxDrainMax ≤ guard := Nat.not_le.mpr hguard
  by_cases hzero : rxR16 s.ring (s.pos + 2) = 0
  · refine ⟨s.errors, .inl ?_⟩
    simp only [State.iterate, if_neg hloop, if_pos hzero]
  · obtain ⟨hrange, hwpos⟩ := hread.resolve_left hzero
    refine ⟨s.errors + 1, .inr ⟨hwpos, ?_⟩⟩
    simp only [State.iterate, if_neg hloop, if_neg hzero, if_pos hrange, State.release, hwpos]
    rfl

theorem good_iterate (h : Good s) (hk : s.drains[k]? = some ⟨guard, none⟩)
    (hclean : Looks s k → s.used = 0 → ReadsEmpty s) : Good (s.iterate k guard) := by
  obtain ⟨rfl, hdrains, head, tail, fs, hlay, hpassed⟩ := h.look hk
  by_cases hguard : guard < rxDrainMax
  · cases fs with
    | cons x rest =>
      rw [iterate_cons hlay hguard]
      refine ⟨head, tail, x :: rest, rest,
        hlay.congr rfl rfl rfl rfl, .inr ⟨x, guard, rfl, ?_⟩, ?_⟩
      · simp [hdrains]
      · simp [hpassed]
    | nil =>
      obtain ⟨rfl, hused, hpos⟩ := hlay.empty
      have hleft : s.drains.eraseIdx 0 = [] := by rw [hdrains]; rfl
      obtain ⟨errors, heq | ⟨hwpos, heq⟩⟩ :=
        iterate_empty (k := 0) hguard (hclean ⟨guard, hk, hguard⟩ hused)
      · rw [heq]
        exact ⟨head, head, [], [], hlay.congr rfl rfl rfl rfl,
          .inl ⟨rfl, .inl hleft⟩, hpassed⟩
      · rw [heq]
        have hzero : 0 = head % rxRingSize := hwpos.symm.trans hlay.wpos
        exact ⟨head, head, [], [],
          ⟨hlay.1, hlay.2, hlay.3, hzero, hlay.5, (Nat.sub_self head).symm, hlay.7, hlay.8⟩,
          .inl ⟨rfl, .inl hleft⟩, hpassed⟩
  · have hleft : s.drains.eraseIdx 0 = [] := by rw [hdrains]; rfl
    rw [State.iterate, if_pos (Nat.not_lt.mp hguard)]
    exact ⟨head, tail, fs, fs, hlay.congr rfl rfl rfl rfl,
      .inl ⟨rfl, .inl hleft⟩, hpassed⟩

theorem good_run (h : Good s) (hstep : CleanStep s o s') : Good s' := by
  obtain ⟨⟨hallowed, rfl⟩, hclean⟩ := hstep
  cases o with
  | store F => exact good_store h hallowed
  | enter => exact good_enter h hclean
  | go k =>
    rcases hk : s.drains[k]? with - | ⟨guard, - | flen⟩
    · exact absurd (List.getElem?_eq_none_iff.mp hk) (Nat.not_le.mpr hallowed.1)
    · rw [run_go hk]
      exact good_iterate h hk hclean
    · have hrun : s.run (.go k) = s.advance k guard flen := by simp only [State.run, hk]
      rw [hrun]
      exact good_advance h hk

theorem Good.passed_stored (h : Good s) : s.passed <+: s.stored.map Frame.data := by
  obtain ⟨_, _, _, rest, -, -, hpassed⟩ := h
  exact ⟨rest.map fun x => x.1.data, hpassed.symm⟩

theorem serves_empty_iff (h : Layout s head tail []) (hall : s.passed.length = s.stored.length)
    (hdrains : s.drains = [⟨guard, none⟩]) (hguard : guard < rxDrainMax) :
    Serves s (s.iterate 0 guard) ↔ ReadsEmpty s := by
  obtain ⟨-, -, hpos⟩ := h.empty
  have hstop : (s.drains.eraseIdx 0).length < s.drains.length := by simp [hdrains]
  constructor
  · intro hserves
    have hnone : s.stored[s.passed.length]? = none := List.getElem?_eq_none (Nat.le_of_eq hall.symm)
    rcases hserves with ⟨F, hF, -⟩ | ⟨-, hpassed, -, hend⟩
    · simp [hnone] at hF
    · by_cases hzero : rxR16 s.ring (s.pos + 2) = 0
      · exact .inl hzero
      · have hloop : ¬rxDrainMax ≤ guard := Nat.not_le.mpr hguard
        rw [State.iterate, if_neg hloop] at hpassed hend
        simp only [if_neg hzero] at hpassed hend
        split at hend
        next hrange => exact .inr ⟨hrange, hend.symm⟩
        next hrange =>
          -- bytes that are no frame have been passed
          simp [if_neg hrange] at hpassed
  · intro hread
    obtain ⟨errors, heq | ⟨hwpos, heq⟩⟩ := iterate_empty (k := 0) hguard hread
    · rw [heq]
      exact .inr ⟨hall, rfl, hstop, hpos⟩
    · rw [heq]
      exact .inr ⟨hall, rfl, hstop, hwpos.symm⟩

theorem serves_iff (h : Good s) (hk : s.drains[k]? = some ⟨guard, none⟩) (hguard : guard < rxDrainMax) :
    Serves s (s.run (.go k)) ↔ (s.used = 0 → ReadsEmpty s) := by
  obtain ⟨rfl, hdrains, head, tail, fs, hlay, hpassed⟩ := h.look hk
  rw [run_go hk]
  have hlen := congrArg List.length hpassed
  rw [List.length_append, List.length_map, List.length_map] at hlen
  cases fs with
  | nil =>
    rw [serves_empty_iff hlay hlen.symm hdrains hguard]
    exact ⟨fun h _ => h, fun h => h hlay.empty.2.1⟩
  | cons x rest =>
    have hnext : (s.stored.map Frame.data)[s.passed.length]? = some x.1.data := by
      rw [hpassed, List.getElem?_append_right (Nat.le_refl _), Nat.sub_self]
      rfl
    rw [List.getElem?_map, Option.map_eq_some_iff] at hnext
    obtain ⟨F, hF, hdata⟩ := hnext
    have hserves : Serves s (s.iterate 0 guard) := by
      rw [iterate_cons hlay hguard]
      exact .inl ⟨F, hF, by rw [hdata]⟩
    have hused := hlay.used_pos
    exact ⟨fun _ h => absurd h (Nat.ne_of_gt hused), fun _ => hserves⟩

/-- In a run without a nested drain whose looks at an empty ring read an empty ring, the frames passed are
the frames stored, each once and in order, and a look does what it should exactly if it is such a look. -/
theorem run_drain {ops : List Op} (h : Run CleanStep (init ring) ops s) :
    s.passed <+: s.stored.map Frame.data ∧
      ∀ k guard, s.drains[k]? = some ⟨guard, none⟩ → guard < rxDrainMax →
        (Serves s (s.run (.go k)) ↔ Clean s (.go k)) := by
  have hgood : Good s := h.invariant good_run good_init
  refine ⟨hgood.passed_stored, fun k guard hk hguard => ?_⟩
  rw [serves_iff hgood hk hguard]
  exact ⟨fun h _ => h, fun h => h ⟨guard, hk, hguard⟩⟩

def beacon : Frame where
  status := (1, 0)
  data := List.replicate 60 0xAB
  crc := [1, 2, 3, 4]
  min := by decide
  max := by decide
  crc_length := rfl

def quietOps : List Op := [.store beacon, .enter, .go 0, .go 0]

theorem quiet_clean : Run CleanStep (init fun _ => 0) quietOps (quietOps.foldl State.run (init fun _ => 0)) := by
  have hlook : ∀ s : State, 0 < s.used → Clean s (.go 0) := fun s h _ hused => absurd hused (Nat.ne_of_gt h)
  refine .cons ⟨⟨?_, rfl⟩, trivial⟩ (.cons ⟨⟨?_, rfl⟩, fun _ => rfl⟩
    (.cons ⟨⟨⟨?_, ?_⟩, rfl⟩, hlook _ ?_⟩ (.cons ⟨⟨⟨?_, ?_⟩, rfl⟩, hlook _ ?_⟩ (.nil _))))
  all_goals decide

theorem run_drain_quiet :
    let s := quietOps.foldl State.run (init fun _ => 0)
    s.passed <+: s.stored.map Frame.data ∧ Serves s (s.run (.go 0)) := by
  obtain ⟨hpassed, hlook⟩ := run_drain quiet_clean
  exact ⟨hpassed, (hlook 0 1 rfl (by decide)).mpr fun _ _ => .inl (by decide)⟩

theorem run_of_plays {ops : List Op} (h : Plays Allowed State.run s ops) :
    Run Step s ops (ops.foldl State.run s) :=
  Run.of_plays (fun _ _ hok => ⟨hok, rfl⟩) h

/-- A poll in `net_input` that finds the frame which is being worked on once more. -/
def nestedOps : List Op := [.store beacon, .enter, .go 0, .store beacon, .enter, .go 1, .go 1, .go 1]

def onwardOps : List Op := quietOps ++ [.go 0]

/-- Nested, a drain passes two frames three times; and bytes from before `rtl8139_init` are taken for a
frame. -/
theorem drain_passes_more :
    (∃ ops s, Run Step (init fun _ => 0) ops s ∧ ¬s.passed <+: s.stored.map Frame.data) ∧
      ∃ ops s, Run Step (init fun _ => 1) ops s ∧ ¬s.passed <+: s.stored.map Frame.data := by
  refine ⟨⟨nestedOps, _, run_of_plays ?_, ?_⟩, ⟨onwardOps, _, run_of_plays ?_, ?_⟩⟩
  all_goals decide +kernel

end Ezos.Rtl8139
