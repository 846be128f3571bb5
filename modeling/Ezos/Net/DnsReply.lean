import Ezos.Net.DnsNames
import Ezos.Lib.NetOrder

/-!
# The answer scan of `net_dns_resolve` in `kernel/net.c`

Counts, names and lengths all come from the server. The scan is compared with a walk over the
questions and records of the message that says nothing about how it is done.
-/

namespace Ezos.Dns

open Lib Lib.Serial Lib.NetOrder Checked

set_option autoImplicit false

/-- A response as `dns_input` stores it in `g_dns_w`. -/
structure Reply where
  buf : List U8
  header : 12 ≤ buf.length
  room : buf.length ≤ 512

def Reply.rcode (r : Reply) : U8 := r.buf.getD 3 0 &&& 0x0F

def loadBe16 (d : List U8) (i : Nat) : Prog U16 := do
  let hi ← load d i
  let lo ← load d (i + 1)
  pure (hi ++ lo)

def loadBe32 (d : List U8) (i : Nat) : Prog U32 := do
  let b0 ← load d i
  let b1 ← load d (i + 1)
  let b2 ← load d (i + 2)
  let b3 ← load d (i + 3)
  pure (b0 ++ b1 ++ b2 ++ b3)

def skipQuestions (d : List U8) (n : Nat) : Nat → Nat → Prog (Option Nat)
  | 0, i => pure (some i)
  | qd + 1, i => do
    let i ← dnsSkipName d i n
    if i = 0 ∨ n < i + 4 then pure none else skipQuestions d n qd (i + 4)

def scanAnswers (d : List U8) (n : Nat) : Nat → Nat → Prog (Option (U32 × U32))
  | 0, _ => pure none
  | an + 1, i => do
    let i ← dnsSkipName d i n
    if i = 0 ∨ n < i + 10 then pure none
    else
      let type ← loadBe16 d i
      let cls ← loadBe16 d (i + 2)
      let rdlen ← loadBe16 d (i + 8)
      let i := i + 10
      if n < i + rdlen.toNat then pure none
      else if type = 1 ∧ cls = 1 ∧ rdlen = 4 then
        let ip ← loadBe32 d i
        let ttl ← loadBe32 d (i - 6)
        pure (some (ip, ttl))
      else scanAnswers d n an (i + rdlen.toNat)

/-- What `net_dns_resolve` returns, the address it stores through its pointer, and the cache. -/
structure Resolved where
  result : Int
  ip : Option U32
  cache : Cache

/-- `net_dns_resolve` from the arrival of a response on. -/
def resolveReply (c : Cache) (now : U32) (name : Name) (r : Reply) : Prog Resolved :=
  if r.rcode ≠ 0 then pure ⟨-2, none, c⟩
  else do
    let d := r.buf
    let n := d.length
    let qd ← loadBe16 d 4
    let an ← loadBe16 d 6
    match ← skipQuestions d n qd.toNat 12 with
    | none => pure ⟨-2, none, c⟩
    | some i =>
      match ← scanAnswers d n an.toNat i with
      | none => pure ⟨-2, none, c⟩
      | some (ip, ttl) => pure ⟨0, some ip, dnsCachePut c now name.bytes ip ttl⟩

/-! ### The walk over a message -/

@[ext] structure Record where
  type : U16
  cls : U16
  ttl : U32
  data : List U8

def Record.IsAddress (r : Record) : Prop := r.type = 1 ∧ r.cls = 1 ∧ r.data.length = 4

def Record.address (r : Record) : U32 := be32 (ofList r.data) 0

structure RecordAt (d : List U8) (i : Nat) (r : Record) (j : Nat) : Prop where
  fields : ∃ k, NameEnds d i k ∧ j = k + 10 + r.data.length ∧ r.type = be16 (ofList d) k ∧
    r.cls = be16 (ofList d) (k + 2) ∧ r.ttl = be32 (ofList d) (k + 4) ∧
    (be16 (ofList d) (k + 8)).toNat = r.data.length ∧
    r.data = (d.drop (k + 10)).take r.data.length
  inside : j ≤ d.length

inductive Questions (d : List U8) : Nat → Nat → Nat → Prop
  | nil (i : Nat) : Questions d 0 i i
  | cons {qd i k j : Nat} (hname : NameEnds d i k) (hin : k + 4 ≤ d.length)
      (hrest : Questions d qd (k + 4) j) : Questions d (qd + 1) i j

inductive FirstAddress (d : List U8) (r : Record) : Nat → Nat → Prop
  | here {an i j : Nat} (hat : RecordAt d i r j) (hr : r.IsAddress) : FirstAddress d r (an + 1) i
  | next {an i j : Nat} {r' : Record} (hat : RecordAt d i r' j) (hr' : ¬ r'.IsAddress)
      (hrest : FirstAddress d r an j) : FirstAddress d r (an + 1) i

def Reply.Answers (m : Reply) (r : Record) : Prop :=
  ∃ i, Questions m.buf (be16 (ofList m.buf) 4).toNat 12 i ∧
    FirstAddress m.buf r (be16 (ofList m.buf) 6).toNat i

variable {d : List U8} {i j k n : Nat}

theorem ofList_eq {a : U8} (h : d[i]? = some a) : ofList d i = a := by
  rw [ofList, List.getD_eq_getElem?_getD, h, Option.getD_some]

theorem loadBe16_yields (h : i + 2 ≤ d.length) :
    Yields (loadBe16 d i) fun v => v = be16 (ofList d) i := by
  rw [loadBe16]
  refine (yields_load (by omega)).bind ?_
  intro hi hhi
  refine (yields_load (by omega)).bind ?_
  intro lo hlo
  apply yields_pure
  rw [be16, ofList_eq hhi, ofList_eq hlo]

theorem loadBe32_yields (h : i + 4 ≤ d.length) :
    Yields (loadBe32 d i) fun v => v = be32 (ofList d) i := by
  rw [loadBe32]
  refine (yields_load (by omega)).bind fun b0 h0 => ?_
  refine (yields_load (by omega)).bind fun b1 h1 => ?_
  refine (yields_load (by omega)).bind fun b2 h2 => ?_
  refine (yields_load (by omega)).bind fun b3 h3 => ?_
  apply yields_pure
  rw [be32, ofList_eq h0, ofList_eq h1, ofList_eq h2, ofList_eq h3]

theorem Questions.unique {qd : Nat} (h : Questions d qd i j) (h' : Questions d qd i k) : j = k := by
  induction h with
  | nil i =>
    cases h'
    rfl
  | cons hname hin hrest ih =>
    cases h' with
    | cons hname' hin' hrest' =>
      obtain rfl := hname.unique hname'
      exact ih hrest'

theorem RecordAt.unique {r r' : Record} (h : RecordAt d i r j) (h' : RecordAt d i r' k) :
    r = r' ∧ j = k := by
  obtain ⟨a, hname, hj, htype, hcls, httl, hlen, hdata⟩ := h.fields
  obtain ⟨b, hname', hk, htype', hcls', httl', hlen', hdata'⟩ := h'.fields
  obtain rfl := hname.unique hname'
  have hlength : r.data.length = r'.data.length := hlen.symm.trans hlen'
  have hdata : r.data = r'.data := by rw [hdata, hdata', hlength]
  refine ⟨Record.ext ?_ ?_ ?_ hdata, by omega⟩
  · exact htype.trans htype'.symm
  · exact hcls.trans hcls'.symm
  · exact httl.trans httl'.symm

theorem skipQuestions_yields (d : List U8) (qd i : Nat) :
    Yields (skipQuestions d d.length qd i) fun r =>
      (∀ j, r = some j → Questions d qd i j) ∧ (r = none → ∀ j, ¬ Questions d qd i j) := by
  induction qd generalizing i with
  | zero =>
    apply yields_pure
    refine ⟨?_, fun h => absurd h (Option.some_ne_none _)⟩
    intro j hj
    obtain rfl := Option.some.inj hj
    exact .nil i
  | succ qd ih =>
    rw [skipQuestions]
    refine (dnsSkipName_yields d i).bind ?_
    intro k hk
    apply yields_ite
    · intro hbad
      apply yields_pure
      refine ⟨fun j hj => absurd hj.symm (Option.some_ne_none _), fun _ j h => ?_⟩
      cases h with
      | cons hname hin _ =>
        by_cases h0 : k = 0
        · exact hk.refused h0 _ hname
        · have := (hk.ends h0).unique hname
          omega
    · intro hgood
      have hname := hk.ends (not_or.mp hgood).1
      apply (ih (k + 4)).mono
      intro r ⟨hsome, hnone⟩
      refine ⟨fun j hj => .cons hname (by omega) (hsome j hj), fun hr j h => ?_⟩
      cases h with
      | cons hname' _ hrest =>
        obtain rfl := hname'.unique hname
        exact hnone hr j hrest

def recordOf (d : List U8) (k : Nat) : Record where
  type := be16 (ofList d) k
  cls := be16 (ofList d) (k + 2)
  ttl := be32 (ofList d) (k + 4)
  data := (d.drop (k + 10)).take (be16 (ofList d) (k + 8)).toNat

theorem recordAt_of (hname : NameEnds d i k)
    (hin : k + 10 + (be16 (ofList d) (k + 8)).toNat ≤ d.length) :
    (recordOf d k).data.length = (be16 (ofList d) (k + 8)).toNat ∧
      RecordAt d i (recordOf d k) (k + 10 + (be16 (ofList d) (k + 8)).toNat) := by
  have hlen : (recordOf d k).data.length = (be16 (ofList d) (k + 8)).toNat := by
    rw [recordOf, List.length_take, List.length_drop]
    omega
  refine ⟨hlen, ⟨k, hname, ?_, rfl, rfl, rfl, hlen.symm, ?_⟩, hin⟩
  · rw [hlen]
  · rw [hlen]
    rfl

theorem RecordAt.room {r : Record} (h : RecordAt d i r j) (hname : NameEnds d i k) :
    k + 10 + (be16 (ofList d) (k + 8)).toNat = j ∧ j ≤ d.length := by
  obtain ⟨k', hname', hj, -, -, -, hlen, -⟩ := h.fields
  obtain rfl := hname.unique hname'
  exact ⟨by omega, h.inside⟩

theorem FirstAddress.record {r : Record} {an : Nat} (h : FirstAddress d r (an + 1) i) :
    ∃ r' j, RecordAt d i r' j := by
  cases h with
  | here hat _ => exact ⟨_, _, hat⟩
  | next hat _ _ => exact ⟨_, _, hat⟩

structure Scanned (d : List U8) (an i : Nat) (res : Option (U32 × U32)) : Prop where
  found : ∀ a, res = some a → ∃ r, FirstAddress d r an i ∧ a = (r.address, r.ttl)
  missing : res = none → ∀ r, ¬ FirstAddress d r an i

theorem Scanned.of_none {an : Nat} (h : ∀ r, ¬ FirstAddress d r an i) : Scanned d an i none :=
  ⟨fun _ ha => absurd ha.symm (Option.some_ne_none _), fun _ => h⟩

theorem address_recordOf (h : (be16 (ofList d) (k + 8)).toNat = 4) :
    (recordOf d k).address = be32 (ofList d) (k + 10) := by
  apply be32_congr
  intro x hx
  simp only [ofList, recordOf, h, List.getD_eq_getElem?_getD]
  rw [List.getElem?_take_of_lt (by omega), List.getElem?_drop, Nat.zero_add]

theorem scanAnswers_yields (d : List U8) (an i : Nat) :
    Yields (scanAnswers d d.length an i) (Scanned d an i) := by
  induction an generalizing i with
  | zero =>
    apply yields_pure
    apply Scanned.of_none
    intro r h
    cases h
  | succ an ih =>
    rw [scanAnswers]
    refine (dnsSkipName_yields d i).bind ?_
    intro k hk
    apply yields_ite
    · intro hbad
      apply yields_pure
      apply Scanned.of_none
      intro r h
      obtain ⟨r', j, hat⟩ := h.record
      by_cases h0 : k = 0
      · obtain ⟨k', hname, _⟩ := hat.fields
        exact hk.refused h0 _ hname
      · have := hat.room (hk.ends h0)
        omega
    · intro hgood
      have hname := hk.ends (not_or.mp hgood).1
      refine (loadBe16_yields (by omega)).bind ?_
      rintro _ rfl
      refine (loadBe16_yields (by omega)).bind ?_
      rintro _ rfl
      refine (loadBe16_yields (by omega)).bind ?_
      rintro _ rfl
      apply yields_ite
      · intro hlong
        apply yields_pure
        apply Scanned.of_none
        intro r h
        obtain ⟨r', j, hat⟩ := h.record
        have := hat.room hname
        omega
      · intro hfits
        obtain ⟨hlen, hat⟩ := recordAt_of hname (by omega)
        apply yields_ite
        · intro ⟨htype, hcls, hrdlen⟩
          have h4 : (be16 (ofList d) (k + 8)).toNat = 4 := congrArg BitVec.toNat hrdlen
          refine (loadBe32_yields (by omega)).bind ?_
          rintro _ rfl
          refine (loadBe32_yields (by omega)).bind ?_
          rintro _ rfl
          apply yields_pure
          refine ⟨?_, fun h => absurd h (Option.some_ne_none _)⟩
          intro a ha
          obtain rfl := Option.some.inj ha
          refine ⟨recordOf d k, .here hat ⟨htype, hcls, hlen.trans h4⟩, ?_⟩
          rw [address_recordOf h4]
          rfl
        · intro hother
          have hother : ¬ (recordOf d k).IsAddress := by
            intro ⟨htype, hcls, hdata⟩
            refine hother ⟨htype, hcls, BitVec.eq_of_toNat_eq ?_⟩
            rw [← hlen, hdata]
            rfl
          apply (ih _).mono
          intro res hres
          constructor
          · intro a ha
            obtain ⟨r, hr, heq⟩ := hres.found a ha
            exact ⟨r, .next hat hother hr, heq⟩
          · intro h0 r h
            cases h with
            | here hat' hr' => exact hother ((hat.unique hat').1 ▸ hr')
            | next hat' _ hrest =>
              obtain ⟨_, rfl⟩ := hat.unique hat'
              exact hres.missing h0 r hrest

/-- An address that the cache takes over: not with a TTL of 0, nor under a name that does not fit,
and for a day at most. -/
structure Kept (c : Cache) (now : U32) (name : Name) (r : Record) (c' : Cache) : Prop where
  skipped : r.ttl = 0 ∨ name.bytes = [] ∨ dnsNameMax ≤ name.bytes.length → c' = c
  stored : r.ttl ≠ 0 → name.bytes ≠ [] → name.bytes.length < dnsNameMax → ∃ slot,
    (c'.entries slot).used ∧ (c'.entries slot).ip = r.address ∧
      (c'.entries slot).expire = now + capTtl r.ttl * 1000 ∧
      ∀ j, j ≠ slot → c'.entries j = c.entries j

theorem dnsCachePut_kept (c : Cache) (now : U32) (name : Name) (r : Record) :
    Kept c now name r (dnsCachePut c now name.bytes r.address r.ttl) := by
  rcases dnsCachePut_cases c now name r.address r.ttl with ⟨hno, hput⟩ | ⟨ht, hne, hfits, hat, hrest⟩
  · refine ⟨fun _ => hput, fun ht hne hfits => ?_⟩
    exact absurd ⟨ht, hne, hfits⟩ hno
  · constructor
    · rintro (h | h | h)
      · exact absurd h ht
      · exact absurd h hne
      · omega
    · intro _ _ _
      refine ⟨slotOf c name.key, ?_, ?_, ?_, hrest⟩
      · rw [hat]
      · rw [hat]
      · rw [hat]

structure Delivered (c : Cache) (now : U32) (name : Name) (r : Record) (res : Resolved) : Prop where
  result : res.result = 0
  ip : res.ip = some r.address
  put : res.cache = dnsCachePut c now name.bytes r.address r.ttl

theorem Delivered.kept {c : Cache} {now : U32} {name : Name} {r : Record} {res : Resolved}
    (h : Delivered c now name r res) : Kept c now name r res.cache :=
  h.put ▸ dnsCachePut_kept c now name r

def refusal (c : Cache) : Resolved := ⟨-2, none, c⟩

def Outcome (c : Cache) (m : Reply) (Good : Record → Resolved → Prop) : Prog Resolved → Prop :=
  fun x => Yields x fun res =>
    (∃ r, m.Answers r ∧ Good r res) ∨ ((∀ r, ¬ m.Answers r) ∧ res = refusal c)

theorem resolveReply_delivers (c : Cache) (now : U32) (name : Name) (m : Reply) (h0 : m.rcode = 0) :
    Outcome c m (Delivered c now name) (resolveReply c now name m) := by
  have hlen := m.header
  rw [Outcome, resolveReply, if_neg (not_not.mpr h0)]
  refine (loadBe16_yields (by omega)).bind ?_
  rintro _ rfl
  refine (loadBe16_yields (by omega)).bind ?_
  rintro _ rfl
  refine (skipQuestions_yields m.buf _ 12).bind ?_
  rintro (_ | i) ⟨hsome, hnone⟩
  · apply yields_pure
    refine .inr ⟨?_, rfl⟩
    rintro r ⟨i, hq, _⟩
    exact hnone rfl i hq
  · have hq := hsome i rfl
    refine (scanAnswers_yields m.buf _ i).bind ?_
    rintro (_ | ⟨ip, ttl⟩) hscan
    · apply yields_pure
      refine .inr ⟨?_, rfl⟩
      rintro r ⟨i', hq', hr⟩
      obtain rfl := hq.unique hq'
      exact hscan.missing rfl r hr
    · apply yields_pure
      obtain ⟨r, hr, heq⟩ := hscan.found _ rfl
      obtain ⟨rfl, rfl⟩ := Prod.mk.inj heq
      exact .inl ⟨r, ⟨i, hq, hr⟩, rfl, rfl, rfl⟩

/-- The scan ends, reads the message only, and returns the first address record that a walk inside
the message finds, whose TTL goes to the cache; without one it returns -2. -/
theorem resolveReply_spec (c : Cache) (now : U32) (name : Name) (m : Reply) (h0 : m.rcode = 0) :
    Outcome c m (fun r res => Delivered c now name r res ∧ Kept c now name r res.cache)
      (resolveReply c now name m) := by
  apply (resolveReply_delivers c now name m h0).mono
  intro res hres
  refine hres.imp_left ?_
  rintro ⟨r, hr, hdel⟩
  exact ⟨r, hr, hdel, hdel.kept⟩

def replyBytes (ttl : List U8) : List U8 :=
  [0x12, 0x35, 0x81, 0x80, 0, 1, 0, 1, 0, 0, 0, 0] ++ [1, 97, 0, 0, 1, 0, 1] ++
    [0xC0, 12, 0, 1, 0, 1] ++ ttl ++ [0, 4, 10, 0, 2, 2]

def minuteReply : Reply := ⟨replyBytes [0, 0, 0, 60], by decide, by decide⟩

def noCacheReply : Reply := ⟨replyBytes [0, 0, 0, 0], by decide, by decide⟩

def nameA : Name := ⟨[97], by decide⟩

theorem resolveReply_spec_minute : minuteReply.rcode = 0 ∧
    Outcome emptyCache minuteReply
      (fun r res => Delivered emptyCache 0 nameA r res ∧ Kept emptyCache 0 nameA r res.cache)
      (resolveReply emptyCache 0 nameA minuteReply) :=
  ⟨by decide, resolveReply_spec emptyCache 0 nameA minuteReply (by decide)⟩

def CachesTtl (now : U32) (r : Record) (res : Resolved) : Prop :=
  res.result = 0 ∧ res.ip = some r.address ∧ ∃ slot, (res.cache.entries slot).used ∧
    (res.cache.entries slot).ip = r.address ∧
    (res.cache.entries slot).expire = now + r.ttl * 1000

theorem not_cachesTtl_zero : noCacheReply.rcode = 0 ∧
    ¬ Outcome emptyCache noCacheReply (CachesTtl 0) (resolveReply emptyCache 0 nameA noCacheReply) := by
  refine ⟨by decide, ?_⟩
  have hrun : resolveReply emptyCache 0 nameA noCacheReply =
      .ok ⟨0, some 0x0A000202, emptyCache⟩ := rfl
  rintro ⟨res, hrun', hres⟩
  obtain rfl := Except.ok.inj (hrun.symm.trans hrun')
  rcases hres with ⟨r, _, _, _, slot, hused, _⟩ | ⟨_, hrefused⟩
  · cases hused
  · cases hrefused

end Ezos.Dns
