import Ezos.Net.HttpUrl

/-!
# Chunked bodies: `http_read_line`, `read_by_length` and `read_chunked` of `kernel/http.c`

A connection delivers its bytes cut into pieces in some way. The readers are compared with
`Encodes`, which says what bytes encode a body and nothing about how they arrive.
-/

namespace Ezos.Http

open Lib Checked

set_option autoImplicit false

def hRxChunk : Nat := 512
def hLineMax : Nat := 1024
def semicolon : U8 := 59

/-- What a connection still delivers: pieces, of which a read gets one at most, and then for ever the
result that `net_tcp_recv` has for its end. -/
structure Conn where
  pieces : List (List U8)
  ending : Int
  proper : ∀ g ∈ pieces, g ≠ []
  ended : ending ≤ 0

def Conn.bytes (c : Conn) : List U8 := c.pieces.flatten

/-- `net_tcp_recv` with room for `n` bytes: its result, the bytes stored, and the connection. -/
def Conn.recv (c : Conn) (n : Nat) : Int × List U8 × Conn :=
  match h : c.pieces with
  | [] => (c.ending, [], c)
  | g :: gs =>
    have hgs : ∀ g ∈ gs, g ≠ [] := fun g' hg' => c.proper g' (h ▸ List.mem_cons_of_mem _ hg')
    if hn : n < g.length then
      (n, g.take n, { c with
        pieces := g.drop n :: gs
        proper := List.forall_mem_cons.mpr ⟨fun hnil => by simp at hnil; omega, hgs⟩ })
    else (g.length, g, { c with pieces := gs, proper := hgs })

theorem Conn.recv_cases (c : Conn) {n : Nat} (hn : 0 < n) :
    (c.bytes = [] ∧ (c.recv n).1 ≤ 0) ∨
      ∃ data, data ≠ [] ∧ data.length ≤ n ∧ (c.recv n).1 = data.length ∧ (c.recv n).2.1 = data ∧
        c.bytes = data ++ (c.recv n).2.2.bytes := by
  rw [Conn.recv, Conn.bytes]
  split
  · next h => exact .inl ⟨by rw [h]; rfl, c.ended⟩
  · next g gs h =>
    have hg : g ≠ [] := c.proper g (h ▸ List.mem_cons_self)
    have hflat : c.pieces.flatten = g ++ gs.flatten := by
      rw [h]
      rfl
    right
    dsimp only
    split
    · next hlt =>
      have hlen : (g.take n).length = n := by
        rw [List.length_take]
        omega
      refine ⟨g.take n, ?_, by omega, by rw [hlen], rfl, ?_⟩
      · intro hnil
        rw [hnil, List.length_nil] at hlen
        omega
      · rw [hflat, Conn.bytes, List.flatten_cons, ← List.append_assoc, List.take_append_drop]
    · next hle => exact ⟨g, hg, by omega, rfl, rfl, hflat⟩

/-- `sink_t`; `pos` is the length of `buf`. -/
structure Sink where
  buf : List U8
  cap : Nat
  truncated : Bool
deriving DecidableEq

def Sink.putByte (k : Sink) (c : U8) : Sink :=
  if k.buf.length < k.cap then { k with buf := k.buf ++ [c] } else { k with truncated := true }

def sinkPut (k : Sink) (d : List U8) : Sink := d.foldl Sink.putByte k

def Sink.holding (cap : Nat) (body : List U8) : Sink := ⟨body.take cap, cap, cap < body.length⟩

theorem putByte_holding (cap : Nat) (body : List U8) (c : U8) :
    (Sink.holding cap body).putByte c = Sink.holding cap (body ++ [c]) := by
  rw [Sink.putByte, Sink.holding, Sink.holding]
  simp only [List.length_take, List.length_append, List.length_singleton]
  by_cases h : body.length < cap
  · rw [if_pos (by omega), List.take_of_length_le (by omega),
      List.take_of_length_le (by simp only [List.length_append, List.length_singleton]; omega)]
    simp only [Sink.mk.injEq, true_and, decide_eq_decide]
    omega
  · rw [if_neg (by omega), List.take_append_of_le_length (by omega)]
    simp only [Sink.mk.injEq, true_and]
    symm
    exact decide_eq_true (by omega)

theorem sinkPut_holding (cap : Nat) (body d : List U8) :
    sinkPut (Sink.holding cap body) d = Sink.holding cap (body ++ d) := by
  induction d generalizing body with
  | nil => rw [List.append_nil]; rfl
  | cons c d ih =>
    rw [sinkPut, List.foldl_cons, putByte_holding]
    refine (ih (body ++ [c])).trans ?_
    rw [List.append_assoc]
    rfl

/-- One turn of `http_read_line` with the line read so far: its result is left with the line. -/
def lineTurn (s : List U8 × Conn) : Prog (Turn (List U8 × Conn) (Int × List U8 × Conn)) :=
  let r := s.2.recv 1
  if r.1 ≤ 0 then pure (.leave (-1, s.1, r.2.2))
  else do
    let c ← load r.2.1 0
    if c = lf then
      let line := if s.1.getLast? = some cr then s.1.dropLast else s.1
      pure (.leave (line.length, line, r.2.2))
    else if hLineMax ≤ s.1.length + 1 then pure (.leave (-2, s.1, r.2.2))
    else pure (.again (s.1 ++ [c], r.2.2))

def httpReadLine (c : Conn) : Prog (Int × List U8 × Conn) := loop lineTurn (c.bytes.length + 1) ([], c)

/-- One turn of `read_by_length` with what is left to read. -/
def lengthTurn (s : Nat × Sink × Conn) : Prog (Turn (Nat × Sink × Conn) (Int × Sink × Conn)) :=
  if s.1 = 0 then pure (.leave (0, s.2))
  else
    let n := if s.1 < hRxChunk then s.1 else hRxChunk
    let r := s.2.2.recv n
    if r.1 < 0 then pure (.leave (-1, s.2.1, r.2.2))
    else if r.1 = 0 then pure (.leave (-2, s.2.1, r.2.2))
    else pure (.again (s.1 - r.1.toNat, sinkPut s.2.1 r.2.1, r.2.2))

def readByLength (k : Sink) (c : Conn) (want : Nat) : Prog (Int × Sink × Conn) :=
  loop lengthTurn (c.bytes.length + 1) (want, k, c)

def hexDigit (c : U8) : Option U32 :=
  if 48 ≤ c ∧ c ≤ 57 then some ((c - 48).setWidth 32)
  else if 97 ≤ c ∧ c ≤ 102 then some ((c - 97 + 10).setWidth 32)
  else if 65 ≤ c ∧ c ≤ 70 then some ((c - 65 + 10).setWidth 32)
  else none

def sizeFrom (sz : U32) (digits : Nat) : List U8 → Option (U32 × Nat)
  | [] => some (sz, digits)
  | c :: cs =>
    if c = semicolon then some (sz, digits)
    else match hexDigit c with
      | none => none
      | some d => if 8 < digits + 1 then none else sizeFrom (sz <<< (4 : Nat) ||| d) (digits + 1) cs

def trailerTurn (c : Conn) : Prog (Turn Conn (Int × Conn)) := do
  let t ← httpReadLine c
  if t.1 < 0 then pure (.leave (-1, t.2.2))
  else if t.1 = 0 then pure (.leave (0, t.2.2))
  else pure (.again t.2.2)

def readTrailer (c : Conn) : Prog (Int × Conn) := loop trailerTurn (c.bytes.length + 1) c

def chunkTurn (s : Sink × Conn) : Prog (Turn (Sink × Conn) (Int × Sink × Conn)) := do
  let l ← httpReadLine s.2
  if l.1 < 0 then pure (.leave (-1, s.1, l.2.2))
  else if l.1 = 0 then pure (.leave (-2, s.1, l.2.2))
  else match sizeFrom 0 0 l.2.1 with
    | none => pure (.leave (-2, s.1, l.2.2))
    | some (sz, digits) =>
      if digits = 0 then pure (.leave (-2, s.1, l.2.2))
      else if sz = 0 then do
        let t ← readTrailer l.2.2
        pure (.leave (t.1, s.1, t.2))
      else do
        let r ← readByLength s.1 l.2.2 sz.toNat
        if r.1 ≠ 0 then pure (.leave r)
        else do
          let e ← httpReadLine r.2.2
          if e.1 < 0 then pure (.leave (-1, r.2.1, e.2.2))
          else if e.1 ≠ 0 then pure (.leave (-2, r.2.1, e.2.2))
          else pure (.again (r.2.1, e.2.2))

def readChunked (k : Sink) (c : Conn) : Prog (Int × Sink × Conn) :=
  loop chunkTurn (c.bytes.length + 1) (k, c)

def stripCr (raw : List U8) : List U8 := if raw.getLast? = some cr then raw.dropLast else raw

/-- The lines that `http_read_line` takes: any bytes up to a line feed, fewer than `H_LINE_MAX`. -/
def IsLine (b content : List U8) : Prop :=
  ∃ raw, b = raw ++ [lf] ∧ lf ∉ raw ∧ raw.length < hLineMax ∧ content = stripCr raw

def hexValue (v : Nat) (digits : List U8) : Nat :=
  digits.foldl (fun v c => v * 16 + ((hexDigit c).getD 0).toNat) v

def IsHex (c : U8) : Prop := (hexDigit c).isSome

instance (c : U8) : Decidable (IsHex c) := inferInstanceAs (Decidable (_ = true))

def IsSize (content : List U8) (n : Nat) : Prop :=
  ∃ digits ext, content = digits ++ ext ∧ (∀ c ∈ digits, IsHex c) ∧ 0 < digits.length ∧
    digits.length ≤ 8 ∧ (ext = [] ∨ ext.head? = some semicolon) ∧ n = hexValue 0 digits

section Grammar
variable (Line : List U8 → List U8 → Prop)

inductive IsTrailer : List U8 → Prop
  | blank {b : List U8} (hb : Line b []) : IsTrailer b
  | field {b content t : List U8} (hb : Line b content) (hne : content ≠ []) (ht : IsTrailer t) :
      IsTrailer (b ++ t)

inductive Encodes : List U8 → List U8 → Prop
  | last {b content t : List U8} (hb : Line b content) (hsize : IsSize content 0)
      (ht : IsTrailer Line t) : Encodes (b ++ t) []
  | chunk {b content data e enc body : List U8} (hb : Line b content)
      (hsize : IsSize content data.length) (hdata : data ≠ []) (he : Line e [])
      (henc : Encodes enc body) : Encodes (b ++ (data ++ (e ++ enc))) (data ++ body)

end Grammar

theorem takeWhile_line {raw : List U8} (h : lf ∉ raw) (rest : List U8) :
    (raw ++ lf :: rest).takeWhile (· ≠ lf) = raw := by
  rw [List.takeWhile_append_of_pos, List.takeWhile_cons_of_neg, List.append_nil]
  · simp
  · intro c hc
    exact decide_eq_true fun heq => h (heq ▸ hc)

theorem length_le_of_not_mem {front more raw rest : List U8} (h : front ++ more = raw ++ lf :: rest)
    (hfront : lf ∉ front) : front.length ≤ raw.length := by
  by_contra hlt
  have hat : (front ++ more)[raw.length]? = some lf := by
    rw [h]
    simp
  rw [List.getElem?_append_left (by omega)] at hat
  exact hfront (List.mem_of_getElem? hat)

theorem IsLine.unique {b b' content content' rest rest' : List U8} (h : IsLine b content)
    (h' : IsLine b' content') (heq : b ++ rest = b' ++ rest') :
    b = b' ∧ content = content' ∧ rest = rest' := by
  obtain ⟨raw, rfl, hraw, _, rfl⟩ := h
  obtain ⟨raw', rfl, hraw', _, rfl⟩ := h'
  rw [List.append_assoc, List.append_assoc] at heq
  have hsame : raw = raw' := by
    rw [← takeWhile_line hraw rest, ← takeWhile_line hraw' rest']
    exact congrArg _ heq
  subst hsame
  exact ⟨rfl, rfl, List.cons.inj (List.append_cancel_left heq) |>.2⟩

inductive LineRead (bytes : List U8) : Int × List U8 × Conn → Prop
  | line {b content : List U8} {c : Conn} (hb : IsLine b content) (hbytes : bytes = b ++ c.bytes) :
      LineRead bytes (content.length, content, c)
  | failed {rc : Int} {l : List U8} {c : Conn} (hrc : rc < 0)
      (hnone : ∀ b content rest, bytes = b ++ rest → ¬ IsLine b content) : LineRead bytes (rc, l, c)

theorem lineTurn_yields {bytes line : List U8} {c : Conn} (hbytes : bytes = line ++ c.bytes)
    (hlf : lf ∉ line) (hlen : line.length < hLineMax) :
    Yields (lineTurn (line, c)) fun t =>
      match t with
      | .again (line', c') => bytes = line' ++ c'.bytes ∧ lf ∉ line' ∧ line'.length < hLineMax ∧
          c'.bytes.length < c.bytes.length
      | .leave r => LineRead bytes r := by
  rw [lineTurn]
  dsimp only
  rcases c.recv_cases Nat.one_pos with ⟨hnil, hrc⟩ | ⟨data, hne, hle, hrc, hdata, hrest⟩
  · rw [if_pos hrc]
    apply yields_pure
    apply LineRead.failed (by decide)
    rintro b content rest hb ⟨raw, rfl, _⟩
    rw [hnil, List.append_nil] at hbytes
    rw [← hbytes, hb] at hlf
    simp at hlf
  · obtain ⟨a, rfl⟩ : ∃ a, data = [a] := by
      match data, hne, hle with
      | [a], _, _ => exact ⟨a, rfl⟩
    rw [if_neg (by rw [hrc]; simp), hdata]
    refine (yields_load (Nat.one_pos)).bind ?_
    intro x hx
    obtain rfl := Option.some.inj hx
    rw [hrest] at hbytes
    apply yields_ite
    · intro hx
      apply yields_pure
      rw [hx] at hbytes
      refine LineRead.line ⟨line, rfl, hlf, hlen, rfl⟩ ?_
      rw [hbytes, List.append_assoc]
    · intro hx
      have hlf' : lf ∉ line ++ [a] := by
        intro hmem
        rcases List.mem_append.mp hmem with hmem | hmem
        · exact hlf hmem
        · exact hx (List.mem_singleton.mp hmem).symm
      apply yields_ite
      · intro hlong
        apply yields_pure
        apply LineRead.failed (by decide)
        rintro b content rest hb ⟨raw, rfl, hraw, hshort, _⟩
        rw [hbytes, ← List.append_assoc, List.append_assoc raw] at hb
        have hle := length_le_of_not_mem hb hlf'
        rw [List.length_append, List.length_singleton] at hle
        omega
      · intro hshort
        apply yields_pure
        refine ⟨by rw [hbytes, List.append_assoc], hlf', ?_, ?_⟩
        · rw [List.length_append, List.length_singleton]
          omega
        · rw [hrest, List.length_append, List.length_singleton]
          omega

theorem httpReadLine_yields (c : Conn) : Yields (httpReadLine c) (LineRead c.bytes) := by
  apply yields_loop
    (fun s => c.bytes = s.1 ++ s.2.bytes ∧ lf ∉ s.1 ∧ s.1.length < hLineMax) (fun s => s.2.bytes.length)
  · rintro ⟨line, c'⟩ ⟨hbytes, hlf, hlen⟩
    apply (lineTurn_yields hbytes hlf hlen).mono
    intro t ht
    cases t with
    | again s => exact ⟨⟨ht.1, ht.2.1, ht.2.2.1⟩, ht.2.2.2⟩
    | leave r => exact ht
  · exact ⟨rfl, List.not_mem_nil, Nat.zero_lt_succ _⟩
  · exact Nat.lt_succ_self _

/-! ### Sizes -/

theorem hexDigit_lt {c : U8} {d : U32} (h : hexDigit c = some d) : d.toNat < 16 := by
  have hall : ∀ c : U8, ((hexDigit c).getD 0).toNat < 16 := by decide
  have hc := hall c
  rwa [h] at hc

theorem not_isHex_semicolon : ¬ IsHex semicolon := by decide

theorem shift_digit {sz d : U32} (hsz : sz.toNat < 2 ^ 28) (hd : d.toNat < 16) :
    (sz <<< (4 : Nat) ||| d).toNat = sz.toNat * 16 + d.toNat := by
  have hshift : sz.toNat <<< 4 = sz.toNat * 16 := Nat.shiftLeft_eq _ 4
  have hmod : sz.toNat * 16 % 2 ^ 32 = sz.toNat * 16 := Nat.mod_eq_of_lt (by omega)
  rw [BitVec.toNat_or, BitVec.toNat_shiftLeft, hshift, hmod, ← hshift]
  exact (Nat.shiftLeft_add_eq_or_of_lt (b := d.toNat) (i := 4) hd _).symm

theorem pow_digits_le {k : Nat} (h : k < 8) : 16 ^ k ≤ 2 ^ 28 :=
  Nat.le_trans (Nat.pow_le_pow_right (by decide) (Nat.le_of_lt_succ h)) (by decide)

theorem sizeFrom_digits {digits ext : List U8} (hhex : ∀ c ∈ digits, IsHex c)
    (hext : ext = [] ∨ ext.head? = some semicolon) {sz : U32} {k : Nat} (hsz : sz.toNat < 16 ^ k)
    (hk : k + digits.length ≤ 8) : ∃ sz', sizeFrom sz k (digits ++ ext) = some (sz', k + digits.length) ∧
      sz'.toNat = hexValue sz.toNat digits := by
  induction digits generalizing sz k with
  | nil =>
    refine ⟨sz, ?_, rfl⟩
    rcases hext with rfl | hext
    · rfl
    · match ext, hext with
      | c :: ext, hext =>
        rw [List.nil_append, sizeFrom, if_pos (Option.some.inj hext)]
        rfl
  | cons c digits ih =>
    rw [List.length_cons] at hk
    obtain ⟨d, hd⟩ := Option.isSome_iff_exists.mp (hhex c List.mem_cons_self)
    have hne : c ≠ semicolon := fun h => not_isHex_semicolon (h ▸ hhex c List.mem_cons_self)
    have hdlt := hexDigit_lt hd
    have hval := shift_digit (Nat.lt_of_lt_of_le hsz (pow_digits_le (by omega))) hdlt
    have hlt : (sz <<< (4 : Nat) ||| d).toNat < 16 ^ (k + 1) := by
      rw [hval, Nat.pow_succ]
      omega
    obtain ⟨sz', hsize, hvalue⟩ := ih (fun x hx => hhex x (List.mem_cons_of_mem _ hx)) hlt (by omega)
    refine ⟨sz', ?_, ?_⟩
    · rw [List.cons_append, sizeFrom, if_neg hne, hd]
      dsimp only
      rw [if_neg (by omega), hsize, List.length_cons]
      congr 2
      omega
    · rw [hvalue, hval, hexValue, hexValue, List.foldl_cons, hd]
      rfl

theorem digits_of_sizeFrom {l : List U8} {sz sz' : U32} {k k' : Nat}
    (h : sizeFrom sz k l = some (sz', k')) (hk : k ≤ 8) :
    ∃ digits ext, l = digits ++ ext ∧ (∀ c ∈ digits, IsHex c) ∧ k' = k + digits.length ∧
      k + digits.length ≤ 8 ∧ (ext = [] ∨ ext.head? = some semicolon) := by
  induction l generalizing sz k with
  | nil =>
    obtain ⟨_, rfl⟩ := Prod.mk.inj (Option.some.inj h)
    exact ⟨[], [], rfl, by simp, rfl, hk, .inl rfl⟩
  | cons c l ih =>
    rw [sizeFrom] at h
    split at h
    · next hc =>
      obtain ⟨_, rfl⟩ := Prod.mk.inj (Option.some.inj h)
      exact ⟨[], c :: l, rfl, by simp, rfl, hk, .inr (congrArg some hc)⟩
    · cases hd : hexDigit c with
      | none =>
        rw [hd] at h
        cases h
      | some d =>
        rw [hd] at h
        dsimp only at h
        split at h
        · cases h
        · obtain ⟨digits, ext, rfl, hhex, hk', hle, hext⟩ := ih h (by omega)
          refine ⟨c :: digits, ext, rfl, ?_, ?_, ?_, hext⟩
          · intro x hx
            rcases List.mem_cons.mp hx with rfl | hx
            · exact Option.isSome_iff_exists.mpr ⟨d, hd⟩
            · exact hhex x hx
          · rw [hk', List.length_cons]
            omega
          · rw [List.length_cons]
            omega

theorem zero_lt_digits : (0 : U32).toNat < 16 ^ 0 := Nat.one_pos

theorem isSize_iff {content : List U8} {n : Nat} : IsSize content n ↔
    ∃ sz digits, sizeFrom 0 0 content = some (sz, digits) ∧ digits ≠ 0 ∧ n = sz.toNat := by
  constructor
  · rintro ⟨digits, ext, rfl, hhex, hpos, hle, hext, rfl⟩
    obtain ⟨sz, hsize, hvalue⟩ := sizeFrom_digits hhex hext zero_lt_digits (by omega)
    rw [Nat.zero_add] at hsize
    exact ⟨sz, _, hsize, by omega, hvalue.symm⟩
  · rintro ⟨sz, k, h, hk, rfl⟩
    obtain ⟨digits, ext, rfl, hhex, rfl, hle, hext⟩ := digits_of_sizeFrom h (Nat.zero_le _)
    obtain ⟨sz', hsize, hvalue⟩ := sizeFrom_digits hhex hext zero_lt_digits hle
    obtain ⟨rfl, _⟩ := Prod.mk.inj (Option.some.inj (h.symm.trans hsize))
    exact ⟨digits, ext, rfl, hhex, by omega, by omega, hext, hvalue⟩

theorem IsSize.unique {content : List U8} {n n' : Nat} (h : IsSize content n) (h' : IsSize content n') :
    n = n' := by
  obtain ⟨sz, k, hs, _, rfl⟩ := isSize_iff.mp h
  obtain ⟨sz', k', hs', _, rfl⟩ := isSize_iff.mp h'
  rw [(Prod.mk.inj (Option.some.inj (hs.symm.trans hs'))).1]

theorem IsSize.ne_nil {content : List U8} {n : Nat} (h : IsSize content n) : content ≠ [] := by
  obtain ⟨digits, ext, rfl, _, hpos, _⟩ := h
  exact List.append_ne_nil_of_left_ne_nil (List.ne_nil_of_length_pos hpos) _

inductive LengthRead (cap : Nat) (body bytes : List U8) (want : Nat) : Int × Sink × Conn → Prop
  | read {data : List U8} {c : Conn} (hlen : data.length = want) (hbytes : bytes = data ++ c.bytes) :
      LengthRead cap body bytes want (0, Sink.holding cap (body ++ data), c)
  | short {rc : Int} {k : Sink} {c : Conn} (hrc : rc < 0) (hlen : bytes.length < want) :
      LengthRead cap body bytes want (rc, k, c)

theorem readByLength_yields (cap : Nat) (body : List U8) (c : Conn) (want : Nat) :
    Yields (readByLength (Sink.holding cap body) c want) (LengthRead cap body c.bytes want) := by
  apply yields_loop
    (fun s => ∃ data, data.length + s.1 = want ∧ c.bytes = data ++ s.2.2.bytes ∧
      s.2.1 = Sink.holding cap (body ++ data)) (fun s => s.2.2.bytes.length)
  · rintro ⟨left, k, c'⟩ ⟨data, hlen, hbytes, rfl⟩
    rw [lengthTurn]
    dsimp only at hlen hbytes ⊢
    apply yields_ite
    · rintro rfl
      apply yields_pure
      exact .read hlen hbytes
    · intro hleft
      have hn : 0 < if left < hRxChunk then left else hRxChunk := by
        rw [hRxChunk]
        split <;> omega
      rcases c'.recv_cases hn with ⟨hnil, hrc⟩ | ⟨more, hne, hle, hrc, hmore, hrest⟩
      · have hshort : c.bytes.length < want := by
          rw [hbytes, hnil, List.append_nil]
          omega
        apply yields_ite
        · exact fun _ => yields_pure (.short (by decide) hshort)
        · intro hpos
          rw [if_pos (by omega)]
          exact yields_pure (.short (by decide) hshort)
      · have hpos := List.length_pos_of_ne_nil hne
        have hle : more.length ≤ left := by
          refine Nat.le_trans hle ?_
          split <;> omega
        rw [hrc, hmore, if_neg (by omega), if_neg (by omega), sinkPut_holding, Int.toNat_natCast]
        apply yields_pure
        refine ⟨⟨data ++ more, ?_, ?_, ?_⟩, ?_⟩
        · rw [List.length_append]
          dsimp only
          omega
        · rw [hbytes, hrest, List.append_assoc]
        · rw [List.append_assoc]
        · rw [hrest, List.length_append]
          dsimp only
          omega
  · exact ⟨[], Nat.zero_add _, rfl, by rw [List.append_nil]⟩
  · exact Nat.lt_succ_self _

structure TrailerRead (bytes : List U8) (r : Int × Conn) : Prop where
  whole : ∀ t rest, bytes = t ++ rest → IsTrailer IsLine t → r.1 = 0 ∧ r.2.bytes = rest
  missing : (∀ t rest, bytes = t ++ rest → ¬ IsTrailer IsLine t) → r.1 < 0

theorem TrailerRead.of_none {bytes : List U8} {rc : Int} (hrc : rc < 0) (c : Conn)
    (h : ∀ t rest, bytes = t ++ rest → ¬ IsTrailer IsLine t) : TrailerRead bytes (rc, c) :=
  ⟨fun t rest ht htr => absurd htr (h t rest ht), fun _ => hrc⟩

theorem isTrailer_cases {b content bytes t rest : List U8} (hb : IsLine b content)
    (heq : b ++ bytes = t ++ rest) (ht : IsTrailer IsLine t) :
    (content = [] ∧ bytes = rest) ∨
      (content ≠ [] ∧ ∃ t', IsTrailer IsLine t' ∧ bytes = t' ++ rest) := by
  cases ht with
  | blank hb' =>
    obtain ⟨_, hcontent, hrest⟩ := hb.unique hb' heq
    exact .inl ⟨hcontent, hrest⟩
  | field hb' hne ht' =>
    rw [List.append_assoc] at heq
    obtain ⟨_, hcontent, hrest⟩ := hb.unique hb' heq
    exact .inr ⟨hcontent ▸ hne, _, ht', hrest⟩

theorem isTrailer_first {bytes t rest : List U8} (heq : bytes = t ++ rest) (ht : IsTrailer IsLine t) :
    ∃ b content rest', bytes = b ++ rest' ∧ IsLine b content := by
  cases ht with
  | blank hb => exact ⟨_, _, _, heq, hb⟩
  | field hb _ _ =>
    rw [List.append_assoc] at heq
    exact ⟨_, _, _, heq, hb⟩

theorem IsLine.length_pos {b content : List U8} (h : IsLine b content) : 0 < b.length := by
  obtain ⟨raw, rfl, _⟩ := h
  simp

theorem trailerTurn_yields (c : Conn) : Yields (trailerTurn c) fun t =>
    match t with
    | .again c' => c'.bytes.length < c.bytes.length ∧
        ∀ r, TrailerRead c'.bytes r → TrailerRead c.bytes r
    | .leave r => TrailerRead c.bytes r := by
  rw [trailerTurn]
  refine (httpReadLine_yields c).bind ?_
  rintro _ (⟨hb, hbytes⟩ | ⟨hrc, hnone⟩)
  · rename_i b content c'
    have hlen := hb.length_pos
    dsimp only
    rw [if_neg (by omega)]
    apply yields_ite
    · intro h0
      have hnil : content = [] := List.length_eq_zero_iff.mp (Int.natCast_eq_zero.mp h0)
      apply yields_pure
      refine ⟨fun t rest ht htr => ?_, fun h => ?_⟩
      · rcases isTrailer_cases hb (hbytes.symm.trans ht) htr with ⟨_, hrest⟩ | ⟨hne, _⟩
        · exact ⟨rfl, hrest⟩
        · exact absurd hnil hne
      · exact absurd (.blank (hnil ▸ hb)) (h b c'.bytes hbytes)
    · intro h0
      have hne : content ≠ [] := fun hnil => h0 (by rw [hnil]; rfl)
      apply yields_pure
      refine ⟨by rw [hbytes, List.length_append]; omega, fun r hr => ⟨fun t rest ht htr => ?_, fun h => ?_⟩⟩
      · rcases isTrailer_cases hb (hbytes.symm.trans ht) htr with ⟨hnil, _⟩ | ⟨_, t', ht', hrest⟩
        · exact absurd hnil hne
        · exact hr.whole t' rest hrest ht'
      · refine hr.missing fun t rest ht htr => h (b ++ t) rest ?_ (.field hb hne htr)
        rw [hbytes, ht, List.append_assoc]
  · dsimp only
    rw [if_pos hrc]
    apply yields_pure
    apply TrailerRead.of_none (by decide)
    intro t rest ht htr
    obtain ⟨b, content, rest', heq, hb⟩ := isTrailer_first ht htr
    exact hnone b content rest' heq hb

theorem readTrailer_yields (c : Conn) : Yields (readTrailer c) (TrailerRead c.bytes) := by
  apply yields_loop (fun c' => ∀ r, TrailerRead c'.bytes r → TrailerRead c.bytes r)
    (fun c' => c'.bytes.length)
  · intro c' hc'
    apply (trailerTurn_yields c').mono
    intro t ht
    cases t with
    | again c'' => exact ⟨fun r hr => hc' r (ht.2 r hr), ht.1⟩
    | leave r => exact hc' r ht
  · exact fun r hr => hr
  · exact Nat.lt_succ_self _

/-! ### Chunks -/

/-- The result of decoding bytes behind which `body` was in the sink before: what they encode has been
added to it and exactly the encoding has been read, and a failure means that there is no encoding. -/
structure Decoded (Line : List U8 → List U8 → Prop) (cap : Nat) (body bytes : List U8)
    (r : Int × Sink × Conn) : Prop where
  whole : ∀ enc more rest, bytes = enc ++ rest → Encodes Line enc more →
    r.1 = 0 ∧ r.2.1 = Sink.holding cap (body ++ more) ∧ r.2.2.bytes = rest
  missing : (∀ enc more rest, bytes = enc ++ rest → ¬ Encodes Line enc more) → r.1 < 0

theorem Decoded.of_none {cap : Nat} {body bytes : List U8} {rc : Int} (hrc : rc < 0) (k : Sink) (c : Conn)
    (h : ∀ enc more rest, bytes = enc ++ rest → ¬ Encodes IsLine enc more) :
    Decoded IsLine cap body bytes (rc, k, c) :=
  ⟨fun enc more rest heq henc => absurd henc (h enc more rest heq), fun _ => hrc⟩

theorem encodes_cases {b content bytes enc more rest : List U8} {n : Nat} (hb : IsLine b content)
    (hsize : IsSize content n) (heq : b ++ bytes = enc ++ rest) (henc : Encodes IsLine enc more) :
    (n = 0 ∧ more = [] ∧ ∃ t, IsTrailer IsLine t ∧ bytes = t ++ rest) ∨
      (n ≠ 0 ∧ ∃ data e enc' more', data.length = n ∧ IsLine e [] ∧ Encodes IsLine enc' more' ∧
        bytes = data ++ (e ++ (enc' ++ rest)) ∧ more = data ++ more') := by
  cases henc with
  | last hb' hsize' ht =>
    rw [List.append_assoc] at heq
    obtain ⟨_, rfl, hrest⟩ := hb.unique hb' heq
    exact .inl ⟨hsize.unique hsize', rfl, _, ht, hrest⟩
  | chunk hb' hsize' hdata he henc' =>
    rw [List.append_assoc] at heq
    obtain ⟨_, rfl, hrest⟩ := hb.unique hb' heq
    have hn := hsize.unique hsize'
    refine .inr ⟨?_, _, _, _, _, hn.symm, he, henc', ?_, rfl⟩
    · rw [hn]
      exact fun h0 => hdata (List.length_eq_zero_iff.mp h0)
    · rw [hrest]
      simp only [List.append_assoc]

theorem encodes_first {bytes enc more rest : List U8} (heq : bytes = enc ++ rest)
    (henc : Encodes IsLine enc more) :
    ∃ b content n rest', bytes = b ++ rest' ∧ IsLine b content ∧ IsSize content n := by
  cases henc with
  | last hb hsize _ =>
    rw [List.append_assoc] at heq
    exact ⟨_, _, _, _, heq, hb, hsize⟩
  | chunk hb hsize _ _ _ =>
    rw [List.append_assoc] at heq
    exact ⟨_, _, _, _, heq, hb, hsize⟩

theorem not_encodes_of_not_size {b content bytes : List U8} (hb : IsLine b content)
    (hsize : ∀ n, ¬ IsSize content n) (enc more rest : List U8) (heq : b ++ bytes = enc ++ rest) :
    ¬ Encodes IsLine enc more := by
  intro henc
  obtain ⟨b', content', n, rest', heq', hb', hsize'⟩ := encodes_first heq henc
  obtain ⟨_, rfl, _⟩ := hb.unique hb' heq'
  exact hsize n hsize'

theorem encodes_data {b content bytes data enc more rest : List U8} {n : Nat} (hb : IsLine b content)
    (hsize : IsSize content n) (hn : n ≠ 0) (hdata : data.length = n)
    (heq : b ++ (data ++ bytes) = enc ++ rest) (henc : Encodes IsLine enc more) :
    ∃ e enc' more', IsLine e [] ∧ Encodes IsLine enc' more' ∧ bytes = e ++ (enc' ++ rest) ∧
      more = data ++ more' := by
  rcases encodes_cases hb hsize heq henc with ⟨h0, _⟩ | ⟨_, data', e, enc', more', hlen, he, henc', hrest, hmore⟩
  · exact absurd h0 hn
  · obtain ⟨heq, hbytes⟩ := List.append_inj hrest (hdata.trans hlen.symm)
    exact ⟨e, enc', more', he, henc', hbytes, heq ▸ hmore⟩

section Chunk
variable (cap : Nat) (body : List U8) {b content : List U8} {c c1 : Conn} {n : Nat} (hb : IsLine b content)
  (hbytes : c.bytes = b ++ c1.bytes) (hsize : IsSize content n)
include hb hbytes hsize

theorem lastChunk_yields (hn : n = 0) :
    Yields (readTrailer c1) fun t => Decoded IsLine cap body c.bytes (t.1, Sink.holding cap body, t.2) := by
  subst hn
  apply (readTrailer_yields c1).mono
  rintro ⟨rc, c2⟩ ht
  refine ⟨fun enc more rest heq henc => ?_, fun hnone => ?_⟩
  · rcases encodes_cases hb hsize (hbytes.symm.trans heq) henc with ⟨_, rfl, t, htr, hrest⟩ | ⟨h0, _⟩
    · obtain ⟨hrc, hrest⟩ := ht.whole t rest hrest htr
      exact ⟨hrc, by rw [List.append_nil], hrest⟩
    · exact absurd rfl h0
  · apply ht.missing
    intro t rest heq htr
    refine hnone (b ++ t) [] rest ?_ (.last hb hsize htr)
    rw [hbytes, heq, List.append_assoc]

theorem short_not_encodes (hn : n ≠ 0) (hshort : c1.bytes.length < n) (enc more rest : List U8)
    (heq : c.bytes = enc ++ rest) : ¬ Encodes IsLine enc more := by
  intro henc
  rcases encodes_cases hb hsize (hbytes.symm.trans heq) henc with ⟨h0, _⟩ | ⟨_, data, e, _, _, hlen, _, _, hrest, _⟩
  · exact absurd h0 hn
  · rw [hrest, List.length_append] at hshort
    omega

theorem chunkEnd_yields (hn : n ≠ 0) {data : List U8} {c2 : Conn} (hdata : data.length = n)
    (hrest : c1.bytes = data ++ c2.bytes) :
    Yields (httpReadLine c2) fun e =>
      if e.1 < 0 then Decoded IsLine cap body c.bytes (-1, Sink.holding cap (body ++ data), e.2.2)
      else if e.1 ≠ 0 then Decoded IsLine cap body c.bytes (-2, Sink.holding cap (body ++ data), e.2.2)
      else e.2.2.bytes.length < c.bytes.length ∧
        ∀ r, Decoded IsLine cap (body ++ data) e.2.2.bytes r → Decoded IsLine cap body c.bytes r := by
  have hparts (enc more rest : List U8) (heq : c.bytes = enc ++ rest) (henc : Encodes IsLine enc more) :=
    encodes_data hb hsize hn hdata ((congrArg (b ++ ·) hrest.symm).trans (hbytes.symm.trans heq)) henc
  apply (httpReadLine_yields c2).mono
  rintro _ (⟨he, hc2⟩ | ⟨hrc, hnone⟩)
  · rename_i e blank c3
    dsimp only
    rw [if_neg (by omega)]
    by_cases h0 : (blank.length : Int) = 0
    · have hnil : blank = [] := List.length_eq_zero_iff.mp (Int.natCast_eq_zero.mp h0)
      subst hnil
      have hc : c.bytes = b ++ (data ++ (e ++ c3.bytes)) := by rw [hbytes, hrest, hc2]
      rw [if_neg (not_not.mpr h0)]
      refine ⟨?_, fun r hr => ⟨fun enc more rest heq henc => ?_, fun hnone => ?_⟩⟩
      · have hlen := hb.length_pos
        rw [hc]
        simp only [List.length_append]
        omega
      · obtain ⟨e', enc', more', he', henc', heq', rfl⟩ := hparts enc more rest heq henc
        obtain ⟨_, _, hrest'⟩ := he.unique he' (hc2.symm.trans heq')
        obtain ⟨hrc, hk, hend⟩ := hr.whole enc' more' rest hrest' henc'
        exact ⟨hrc, by rw [hk, List.append_assoc], hend⟩
      · apply hr.missing
        intro enc more rest heq henc
        have hsize' : IsSize content data.length := hdata.symm ▸ hsize
        have hne : data ≠ [] := fun hnil => hn (by rw [← hdata, hnil]; rfl)
        refine hnone _ _ rest ?_ (.chunk hb hsize' hne he henc)
        rw [hc, heq]
        simp only [List.append_assoc]
    · rw [if_pos h0]
      apply Decoded.of_none (by decide)
      intro enc more rest heq henc
      obtain ⟨e', enc', more', he', _, heq', _⟩ := hparts enc more rest heq henc
      obtain ⟨_, hblank, _⟩ := he.unique he' (hc2.symm.trans heq')
      exact h0 (by rw [hblank]; rfl)
  · dsimp only
    rw [if_pos hrc]
    apply Decoded.of_none (by decide)
    intro enc more rest heq henc
    obtain ⟨e', enc', more', he', _, heq', _⟩ := hparts enc more rest heq henc
    exact hnone e' [] _ heq' he'

end Chunk

theorem chunkTurn_yields (cap : Nat) (body : List U8) (c : Conn) :
    Yields (chunkTurn (Sink.holding cap body, c)) fun t =>
      match t with
      | .again (k, c') => c'.bytes.length < c.bytes.length ∧ ∃ data,
          k = Sink.holding cap (body ++ data) ∧
          ∀ r, Decoded IsLine cap (body ++ data) c'.bytes r → Decoded IsLine cap body c.bytes r
      | .leave r => Decoded IsLine cap body c.bytes r := by
  rw [chunkTurn]
  refine (httpReadLine_yields c).bind ?_
  rintro _ (⟨hb, hbytes⟩ | ⟨hrc, hnone⟩)
  · rename_i b content c1
    have hlen := hb.length_pos
    dsimp only
    rw [if_neg (by omega)]
    apply yields_ite
    · intro h0
      have hnil : content = [] := List.length_eq_zero_iff.mp (Int.natCast_eq_zero.mp h0)
      apply yields_pure
      apply Decoded.of_none (by decide)
      rw [hbytes]
      exact not_encodes_of_not_size hb fun n hsize => hsize.ne_nil hnil
    · intro _
      cases hsz : sizeFrom 0 0 content with
      | none =>
        apply yields_pure
        apply Decoded.of_none (by decide)
        rw [hbytes]
        apply not_encodes_of_not_size hb
        intro n hsize
        obtain ⟨sz, digits, h, _⟩ := isSize_iff.mp hsize
        rw [hsz] at h
        cases h
      | some p =>
        obtain ⟨sz, digits⟩ := p
        dsimp only
        apply yields_ite
        · intro h0
          apply yields_pure
          apply Decoded.of_none (by decide)
          rw [hbytes]
          apply not_encodes_of_not_size hb
          intro n hsize
          obtain ⟨sz', digits', h, hne, _⟩ := isSize_iff.mp hsize
          rw [hsz] at h
          exact hne ((Prod.mk.inj (Option.some.inj h)).2 ▸ h0)
        · intro hne
          have hsize : IsSize content sz.toNat := isSize_iff.mpr ⟨sz, digits, hsz, hne, rfl⟩
          apply yields_ite
          · intro h0
            have hn : sz.toNat = 0 := by rw [h0]; rfl
            refine (lastChunk_yields cap body hb hbytes hsize hn).bind ?_
            exact fun t ht => yields_pure ht
          · intro h0
            have hn := toNat_ne_zero h0
            refine (readByLength_yields cap body c1 sz.toNat).bind ?_
            rintro _ (⟨hdata, hrest⟩ | ⟨hrc, hshort⟩)
            · rename_i data c2
              rw [if_neg (not_not.mpr rfl)]
              refine (chunkEnd_yields cap body hb hbytes hsize hn hdata hrest).bind ?_
              intro e he
              by_cases hneg : e.1 < 0
              · rw [if_pos hneg] at he ⊢
                exact yields_pure he
              · rw [if_neg hneg] at he ⊢
                by_cases hblank : e.1 ≠ 0
                · rw [if_pos hblank] at he ⊢
                  exact yields_pure he
                · rw [if_neg hblank] at he ⊢
                  exact yields_pure ⟨he.1, data, rfl, he.2⟩
            · rw [if_pos (Int.ne_of_lt hrc)]
              apply yields_pure
              exact .of_none hrc _ _ (short_not_encodes hb hbytes hsize hn hshort)
  · dsimp only
    rw [if_pos hrc]
    apply yields_pure
    apply Decoded.of_none (by decide)
    intro enc more rest heq henc
    obtain ⟨b, content, n, rest', heq', hb, _⟩ := encodes_first heq henc
    exact hnone b content rest' heq' hb

theorem readChunked_yields (cap : Nat) (c : Conn) :
    Yields (readChunked (Sink.holding cap []) c) (Decoded IsLine cap [] c.bytes) := by
  apply yields_loop
    (fun s => ∃ body, s.1 = Sink.holding cap body ∧
      ∀ r, Decoded IsLine cap body s.2.bytes r → Decoded IsLine cap [] c.bytes r) (fun s => s.2.bytes.length)
  · rintro ⟨k, c'⟩ ⟨body, rfl, hbody⟩
    apply (chunkTurn_yields cap body c').mono
    intro t ht
    cases t with
    | again s =>
      obtain ⟨hlt, data, hk, hdata⟩ := ht
      exact ⟨⟨body ++ data, hk, fun r hr => hbody r (hdata r hr)⟩, hlt⟩
    | leave r => exact hbody r ht
  · exact ⟨[], rfl, fun r hr => hr⟩
  · exact Nat.lt_succ_self _

/-- However the bytes of a connection are cut into reads: if they start with the encoding of a body, the
decoder returns 0, leaves what the sink holds of the body, and stops behind the encoding; and if they do
not, it returns a negative value. -/
theorem readChunked_spec (cap : Nat) (c : Conn) :
    Yields (readChunked ⟨[], cap, false⟩ c) (Decoded IsLine cap [] c.bytes) := by
  have hempty : (⟨[], cap, false⟩ : Sink) = Sink.holding cap [] := by
    rw [Sink.holding, List.take_nil]
    rfl
  rw [hempty]
  exact readChunked_yields cap c

def IsCrlfLine (b content : List U8) : Prop :=
  b = content ++ crlf ∧ lf ∉ content ∧ content.length < hLineMax

theorem cr_mem_of_encodes {enc body : List U8} (h : Encodes IsCrlfLine enc body) : cr ∈ enc := by
  cases h with
  | last hb _ _ =>
    rw [hb.1, crlf]
    simp
  | chunk hb _ _ _ _ =>
    rw [hb.1, crlf]
    simp

def lfConn : Conn where
  pieces := [[49, lf, 65, lf, 48, lf, lf]]
  ending := 0
  proper := by decide
  ended := by decide

theorem readChunked_takes_lf :
    ¬ Yields (readChunked ⟨[], 8, false⟩ lfConn) (Decoded IsCrlfLine 8 [] lfConn.bytes) := by
  rintro ⟨r, hr, hdec⟩
  have hrun : readChunked ⟨[], 8, false⟩ lfConn =
      .ok (0, ⟨[65], 8, false⟩, { lfConn with pieces := [], proper := by simp }) := rfl
  obtain rfl := Except.ok.inj (hrun.symm.trans hr)
  have hneg := hdec.missing fun enc more rest heq henc => by
    have hcr : cr ∈ lfConn.bytes := heq ▸ List.mem_append_left _ (cr_mem_of_encodes henc)
    exact absurd hcr (by decide)
  exact absurd hneg (by decide)

end Ezos.Http
