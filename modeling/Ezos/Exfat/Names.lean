import Ezos.Types
import Mathlib.Data.List.Basic

/-!
# Names: UTF-16 on disk, UTF-8 in the kernel

A C string is the list of its bytes in front of the NUL. The converters are those of
`rust/ezos_rs` (the selected implementation); `none` is their -1.
-/

namespace Ezos.Exfat

set_option autoImplicit false

def cstr (l : List U8) : List U8 := l.takeWhile (· ≠ 0)

def myUpperChar (c : U8) : Int :=
  if 97 ≤ c.toInt ∧ c.toInt ≤ 122 then c.toInt - 97 + 65 else c.toInt

def myStrcmp : List U8 → List U8 → Int
  | a :: as, b :: bs =>
    if a ≠ 0 ∧ b ≠ 0 ∧ myUpperChar a = myUpperChar b then myStrcmp as bs
    else myUpperChar a - myUpperChar b
  | as, bs => myUpperChar (as.headD 0) - myUpperChar (bs.headD 0)

def isHighSurrogate (c : U16) : Bool := 0xD800 ≤ c && c < 0xDC00
def isLowSurrogate (c : U16) : Bool := 0xDC00 ≤ c && c < 0xE000

def putUtf8 (cp : U32) (room : Nat) : Option (List U8) :=
  if cp < 0x80 then
    if room < 1 then none else some [cp.setWidth 8]
  else if cp < 0x800 then
    if room < 2 then none
    else some [(0xC0 ||| (cp >>> 6)).setWidth 8, (0x80 ||| (cp &&& 0x3F)).setWidth 8]
  else if cp < 0x10000 then
    if room < 3 then none
    else some [(0xE0 ||| (cp >>> 12)).setWidth 8, (0x80 ||| ((cp >>> 6) &&& 0x3F)).setWidth 8,
      (0x80 ||| (cp &&& 0x3F)).setWidth 8]
  else
    if room < 4 then none
    else some [(0xF0 ||| (cp >>> 18)).setWidth 8, (0x80 ||| ((cp >>> 12) &&& 0x3F)).setWidth 8,
      (0x80 ||| ((cp >>> 6) &&& 0x3F)).setWidth 8, (0x80 ||| (cp &&& 0x3F)).setWidth 8]

/-- The code points of a UTF-16 string; a lone surrogate is U+FFFD. `pending` is a high
surrogate that waits for its low half. -/
def decodeUtf16 : Option U16 → List U16 → List U32
  | none, [] => []
  | some _, [] => [0xFFFD]
  | none, c :: cs =>
    if isHighSurrogate c then decodeUtf16 (some c) cs
    else if isLowSurrogate c then 0xFFFD :: decodeUtf16 none cs
    else c.setWidth 32 :: decodeUtf16 none cs
  | some hi, c :: cs =>
    if isLowSurrogate c then
      (0x10000 + ((hi.setWidth 32 - 0xD800) <<< 10) + (c.setWidth 32 - 0xDC00)) ::
        decodeUtf16 none cs
    else if isHighSurrogate c then 0xFFFD :: decodeUtf16 (some c) cs
    else 0xFFFD :: c.setWidth 32 :: decodeUtf16 none cs

def putAllUtf8 (cap : Nat) : List U8 → List U32 → Option (List U8)
  | used, [] => some used
  | used, cp :: cps =>
    if cap - 1 - used.length = 0 then none
    else
      match putUtf8 cp (cap - 1 - used.length) with
      | none => none
      | some bytes => putAllUtf8 cap (used ++ bytes) cps

def utf16ToUtf8 (src : List U16) (cap : Nat) : Option (List U8) :=
  if src = [] ∨ cap = 0 then none else putAllUtf8 cap [] (decodeUtf16 none src)

def isContinuation (b : U8) : Bool := b &&& 0xC0 = 0x80

/-- The code point at the head of a UTF-8 string and the number of its bytes; what is not
UTF-8 is U+FFFD and one byte long. -/
def decodeUtf8Head (b : U8) (rest : List U8) : U32 × Nat :=
  let b1 := rest.getD 0 0
  let b2 := rest.getD 1 0
  let b3 := rest.getD 2 0
  let bad : U32 × Nat := (0xFFFD, 1)
  let low (x : U8) : U32 := (x &&& 0x3F).setWidth 32
  if b < 0x80 then (b.setWidth 32, 1)
  else if b < 0xE0 then
    if b &&& 0x1E = 0 then bad
    else if isContinuation b1 = false then bad
    else (((b &&& 0x1F).setWidth 32 <<< 6) ||| low b1, 2)
  else if b < 0xF0 then
    if isContinuation b1 = false then bad
    else if isContinuation b2 = false then bad
    else
      let cp : U32 := ((b &&& 0x0F).setWidth 32 <<< 12) ||| (low b1 <<< 6) ||| low b2
      if (0xD800 ≤ cp ∧ cp < 0xE000) ∨ cp < 0x800 then bad else (cp, 3)
  else if b < 0xF8 then
    if isContinuation b1 = false then bad
    else if isContinuation b2 = false then bad
    else if isContinuation b3 = false then bad
    else
      let cp : U32 := ((b &&& 0x07).setWidth 32 <<< 18) ||| (low b1 <<< 12) ||| (low b2 <<< 6) ||| low b3
      if cp < 0x10000 ∨ cp > 0x10FFFF then bad else (cp, 4)
  else bad

def putUtf16 (cp : U32) : List U16 :=
  if cp ≥ 0x10000 then
    let x := cp - 0x10000
    [(0xD800 + (x >>> 10)).setWidth 16, (0xDC00 + (x &&& 0x3FF)).setWidth 16]
  else [cp.setWidth 16]

/-- The loop of `utf8_to_utf16_rs`; `skip` bytes belong to the code point before. -/
def putAllUtf16 (cap : Nat) : List U16 → Nat → List U8 → Option (List U16)
  | used, _, [] => some used
  | used, skip + 1, _ :: rest => putAllUtf16 cap used skip rest
  | used, 0, b :: rest =>
    if b = 0 then some used
    else
      let (cp, adv) := decodeUtf8Head b rest
      let used := used ++ putUtf16 cp
      if used.length > cap then none else putAllUtf16 cap used (adv - 1) rest

def utf8ToUtf16 (src : List U8) (cap : Nat) : Option (List U16) :=
  if cap = 0 then none else putAllUtf16 cap [] 0 src

def utf8Of (cp : U32) : List U8 := (putUtf8 cp 4).getD []

def encodeUtf8 (cps : List U32) : List U8 := cps.flatMap utf8Of

theorem putUtf8_cases (cp : U32) : ∃ bytes : List U8, 0 < bytes.length ∧ utf8Of cp = bytes ∧
    ∀ room, putUtf8 cp room = if room < bytes.length then none else some bytes := by
  unfold utf8Of putUtf8
  split
  · refine ⟨_, ?_, rfl, fun _ => rfl⟩
    exact Nat.succ_pos _
  · split
    · refine ⟨_, ?_, rfl, fun _ => rfl⟩
      exact Nat.succ_pos _
    · split
      · refine ⟨_, ?_, rfl, fun _ => rfl⟩
        exact Nat.succ_pos _
      · refine ⟨_, ?_, rfl, fun _ => rfl⟩
        exact Nat.succ_pos _

theorem putAllUtf8_eq (cap : Nat) (cps : List U32) (used : List U8) (hu : used.length ≤ cap - 1) :
    putAllUtf8 cap used cps =
      if used.length + (encodeUtf8 cps).length ≤ cap - 1 then some (used ++ encodeUtf8 cps)
      else none := by
  induction cps generalizing used with
  | nil =>
    rw [putAllUtf8, encodeUtf8, List.flatMap_nil, List.length_nil, Nat.add_zero, if_pos hu,
      List.append_nil]
  | cons cp cps ih =>
    obtain ⟨bytes, hpos, hof, hput⟩ := putUtf8_cases cp
    have henc : encodeUtf8 (cp :: cps) = bytes ++ encodeUtf8 cps := by
      rw [encodeUtf8, List.flatMap_cons, hof]
      rfl
    rw [putAllUtf8, henc, List.length_append, hput]
    by_cases hroom : cap - 1 - used.length < bytes.length
    · simp only [if_pos hroom, ite_self]
      rw [if_neg (by omega)]
    · rw [if_neg (by omega), if_neg hroom]
      dsimp only
      rw [ih _ (by rw [List.length_append]; omega), List.length_append, List.append_assoc]
      by_cases hfit : used.length + bytes.length + (encodeUtf8 cps).length ≤ cap - 1
      · rw [if_pos hfit, if_pos (by omega)]
      · rw [if_neg hfit, if_neg (by omega)]

theorem utf16ToUtf8_eq_none_iff {src : List U16} {cap : Nat} (hcap : cap ≠ 0) :
    utf16ToUtf8 src cap = none ↔
      src = [] ∨ cap - 1 < (encodeUtf8 (decodeUtf16 none src)).length := by
  unfold utf16ToUtf8
  rw [putAllUtf8_eq cap _ [] (Nat.zero_le _), List.length_nil, Nat.zero_add]
  by_cases hsrc : src = []
  · rw [if_pos (Or.inl hsrc)]
    exact ⟨fun _ => Or.inl hsrc, fun _ => rfl⟩
  · rw [if_neg (by simp [hsrc, hcap])]
    by_cases hfit : (encodeUtf8 (decodeUtf16 none src)).length ≤ cap - 1
    · rw [if_pos hfit]
      constructor
      · intro h
        exact nomatch h
      · rintro (h | h)
        · exact absurd h hsrc
        · omega
    · rw [if_neg hfit]
      exact ⟨fun _ => Or.inr (by omega), fun _ => rfl⟩

end Ezos.Exfat
