import Ezos.Lib.Checked
import Ezos.Net.DnsCache
import Mathlib.Data.List.Basic

/-!
# Domain names in messages: `dns_encode_name` and `dns_skip_name` of `kernel/net.c`

A name is written label by label. The length of a label is not known when the label starts, so a
placeholder is written there and filled in when the label ends.
-/

namespace Ezos.Dns

open Lib Checked

set_option autoImplicit false

def dot : U8 := 46

/-- The bytes that `net_dns_resolve` provides: `sizeof(q) - 12`. -/
def nameRoom : Nat := 308

structure Encoder where
  out : List U8
  w : Nat
  /-- The place of the length of the label that is being written. -/
  lab : Nat

def Encoder.push (e : Encoder) (c : U8) : Prog Encoder := do
  let out ← store e.out e.w c
  pure { e with out := out, w := e.w + 1 }

def Encoder.labelLength (e : Encoder) : Nat := e.w - e.lab - 1

/-- The loop of `dns_encode_name` from the byte `*name` on; the end of the list is the terminator.
The result is the buffer and the number of bytes written to it, 0 for a refused name. -/
def encodeFrom (e : Encoder) : List U8 → Prog (List U8 × Nat)
  | [] =>
    let n := e.labelLength
    if n = 0 ∨ 63 < n then pure (e.out, 0)
    else do
      let out ← store e.out e.lab (BitVec.ofNat 8 n)
      let e ← { e with out := out }.push 0
      pure (e.out, e.w)
  | c :: name =>
    if c = dot then
      let n := e.labelLength
      if n = 0 ∨ 63 < n then pure (e.out, 0)
      else do
        let out ← store e.out e.lab (BitVec.ofNat 8 n)
        if name.isEmpty then pure (out, 0)
        else do
          let e ← { e with out := out, lab := e.w }.push 0
          encodeFrom e name
    else do
      let e ← e.push (toLower c)
      if 255 < e.w then pure (e.out, 0) else encodeFrom e name

def dnsEncodeName (out : List U8) (name : List U8) : Prog (List U8 × Nat) :=
  if name.isEmpty then pure (out, 0)
  else do
    let e ← (Encoder.mk out 0 0).push 0
    encodeFrom e name

/-- One turn of `dns_skip_name`; the result 0 is a name that is malformed or leaves the message. -/
def skipTurn (p : List U8) (n i : Nat) : Prog (Turn Nat Nat) :=
  if n ≤ i then pure (.leave 0)
  else do
    let l ← load p i
    if l &&& 0xC0 = 0xC0 then pure (.leave (if i + 2 ≤ n then i + 2 else 0))
    else if l = 0 then pure (.leave (if i + 1 ≤ n then i + 1 else 0))
    else if l &&& 0xC0 ≠ 0 then pure (.leave 0)
    else pure (.again (i + 1 + l.toNat))

def dnsSkipName (p : List U8) (i n : Nat) : Prog Nat := loop (skipTurn p n) (n + 1) i

structure Labels where
  list : List (List U8)
  ne_nil : list ≠ []
  proper : ∀ l ∈ list, dot ∉ l ∧ 0 < l.length ∧ l.length ≤ 63

def Labels.name (ls : Labels) : List U8 := [dot].intercalate ls.list

def wireLabels (ls : List (List U8)) : List U8 :=
  ls.flatMap fun l => BitVec.ofNat 8 l.length :: l

def wire (ls : List (List U8)) : List U8 := wireLabels ls ++ [0]

def readLabels : Nat → List U8 → Option (List (List U8))
  | 0, _ => none
  | _ + 1, [] => none
  | fuel + 1, l :: b =>
    if l = 0 then some []
    else if b.length < l.toNat then none
    else (readLabels fuel (b.drop l.toNat)).map (b.take l.toNat :: ·)

def readName (b : List U8) : Option (List U8) :=
  (readLabels b.length b).map fun ls => [dot].intercalate ls

def Proper (ls : List (List U8)) : Prop := ∀ l ∈ ls, 0 < l.length ∧ l.length ≤ 63

instance (ls : List (List U8)) : Decidable (Proper ls) := by
  unfold Proper
  infer_instance

@[simp] theorem wireLabels_nil : wireLabels [] = [] := rfl

@[simp] theorem wireLabels_cons (l : List U8) (ls : List (List U8)) :
    wireLabels (l :: ls) = BitVec.ofNat 8 l.length :: l ++ wireLabels ls := rfl

theorem length_wireLabels_lower (ls : List (List U8)) :
    (wireLabels (ls.map lower)).length = (wireLabels ls).length := by
  induction ls with
  | nil => rfl
  | cons l ls ih => simp [ih, lower]

theorem proper_lower (ls : List (List U8)) : Proper (ls.map lower) ↔ Proper ls := by
  simp [Proper, lower]

def labelsFrom (cur rest : List U8) : List (List U8) := (rest.splitOn dot).modifyHead (cur ++ ·)

theorem labelsFrom_nil (cur : List U8) : labelsFrom cur [] = [cur] := by
  simp [labelsFrom]

theorem labelsFrom_nil_left (rest : List U8) : labelsFrom [] rest = rest.splitOn dot := by
  cases h : rest.splitOn dot with
  | nil => simp [labelsFrom, h]
  | cons l ls => simp [labelsFrom, h]

theorem labelsFrom_dot (cur rest : List U8) :
    labelsFrom cur (dot :: rest) = cur :: labelsFrom [] rest := by
  rw [labelsFrom_nil_left, labelsFrom, List.splitOn_cons_eq_if_modifyHead]
  simp

theorem labelsFrom_cons {c : U8} (hc : c ≠ dot) (cur rest : List U8) :
    labelsFrom cur (c :: rest) = labelsFrom (cur ++ [c]) rest := by
  rw [labelsFrom, labelsFrom, List.splitOn_cons_eq_if_modifyHead]
  cases h : rest.splitOn dot with
  | nil => exact absurd h (List.splitOn_ne_nil _ _)
  | cons l ls => simp [hc]

theorem not_mem_of_mem_splitOn {name l : List U8} (h : l ∈ name.splitOn dot) : dot ∉ l := by
  induction name generalizing l with
  | nil => simp_all
  | cons c name ih =>
    rw [List.splitOn_cons_eq_if_modifyHead] at h
    cases hs : name.splitOn dot with
    | nil => exact absurd hs (List.splitOn_ne_nil _ _)
    | cons first ls =>
      rw [hs] at h ih
      by_cases hc : c = dot
      · simp only [hc, beq_self_eq_true, if_true, List.mem_cons] at h
        rcases h with rfl | h
        · simp
        · exact ih (List.mem_cons.mpr h)
      · simp only [beq_iff_eq, hc, if_false, List.modifyHead_cons, List.mem_cons] at h
        rcases h with rfl | h
        · intro hmem
          rcases List.mem_cons.mp hmem with heq | hmem
          · exact hc heq.symm
          · exact ih List.mem_cons_self hmem
        · exact ih (List.mem_cons_of_mem _ h)

def labelsOf (name : List U8) (h : Proper (name.splitOn dot)) : Labels where
  list := name.splitOn dot
  ne_nil := List.splitOn_ne_nil _ _
  proper := fun l hl => ⟨not_mem_of_mem_splitOn hl, h l hl⟩

theorem labelsOf_name (name : List U8) (h : Proper (name.splitOn dot)) :
    (labelsOf name h).name = name := List.intercalate_splitOn dot

theorem splitOn_name (ls : Labels) : ls.name.splitOn dot = ls.list :=
  List.splitOn_intercalate dot (fun l hl => (ls.proper l hl).1) ls.ne_nil

theorem proper_list (ls : Labels) : Proper ls.list := fun l hl => (ls.proper l hl).2

theorem length_name (ls : Labels) : ls.name.length + 1 = (wireLabels ls.list).length := by
  have hall : ∀ list : List (List U8), list ≠ [] →
      ([dot].intercalate list).length + 1 = (wireLabels list).length := by
    intro list
    induction list with
    | nil => exact fun h => absurd rfl h
    | cons l list ih =>
      intro _
      cases list with
      | nil => simp
      | cons l' list =>
        have hrest := ih (List.cons_ne_nil _ _)
        rw [List.intercalate_cons_cons, wireLabels_cons]
        simp only [List.length_append, List.length_cons, List.length_nil] at hrest ⊢
        omega
  exact hall ls.list ls.ne_nil

/-! ### The encoder -/

structure Encoder.At (e : Encoder) (pre cur : List U8) : Prop where
  length : e.out.length = nameRoom
  lab : e.lab = pre.length
  w : e.w = pre.length + 1 + cur.length
  bytes : ∃ x, e.out.take e.w = pre ++ x :: cur

variable {e : Encoder} {pre cur rest : List U8}

theorem Encoder.At.labelLength (h : e.At pre cur) : e.labelLength = cur.length := by
  rw [Encoder.labelLength, h.w, h.lab]
  omega

theorem take_set_succ {out : List U8} {w : Nat} (h : w < out.length) (c : U8) :
    (out.set w c).take (w + 1) = out.take w ++ [c] := by
  have hw : w < (out.set w c).length := by rwa [List.length_set]
  rw [List.take_succ_eq_append_getElem hw, List.take_set_of_le (Nat.le_refl w),
    List.getElem_set_self]

theorem Encoder.At.push (h : e.At pre cur) (hw : e.w < nameRoom) (c : U8) :
    Yields (e.push c) fun e' => e'.At pre (cur ++ [c]) := by
  rw [Encoder.push]
  refine (yields_store (h.length.symm ▸ hw)).bind ?_
  rintro _ rfl
  apply yields_pure
  obtain ⟨x, hx⟩ := h.bytes
  constructor
  · rw [List.length_set]
    exact h.length
  · exact h.lab
  · simp only [List.length_append, List.length_singleton, h.w]
    omega
  · refine ⟨x, ?_⟩
    rw [take_set_succ (h.length.symm ▸ hw), hx]
    simp

theorem push_placeholder {out : List U8} {w : Nat} (hlen : out.length = nameRoom)
    (hw : w < nameRoom) (hpre : out.take w = pre) :
    Yields ((Encoder.mk out w w).push 0) fun e' => e'.At pre [] ∧ e'.w = w + 1 := by
  have hwlen : w = pre.length := by
    rw [← hpre, List.length_take, hlen]
    omega
  rw [Encoder.push]
  refine (yields_store (hlen.symm ▸ hw)).bind ?_
  rintro _ rfl
  apply yields_pure
  refine ⟨⟨?_, hwlen, ?_, 0, ?_⟩, rfl⟩
  · rw [List.length_set]
    exact hlen
  · simp [hwlen]
  · rw [take_set_succ (hlen.symm ▸ hw), hpre]

theorem Encoder.At.store_length (h : e.At pre cur) (hw : e.w ≤ nameRoom) (v : U8) :
    Yields (store e.out e.lab v) fun out =>
      out.length = nameRoom ∧ out.take e.w = pre ++ v :: cur := by
  have hlab : e.lab < e.out.length := by
    rw [h.length, h.lab]
    have := h.w
    omega
  refine (yields_store hlab).mono ?_
  rintro _ rfl
  obtain ⟨x, hx⟩ := h.bytes
  refine ⟨(List.length_set ..).trans h.length, ?_⟩
  rw [List.take_set, hx, h.lab]
  simp

def Fits (pre : List U8) (ls : List (List U8)) : Prop :=
  Proper ls ∧ pre.length + (wireLabels ls).length ≤ 255

structure Encoded (pre : List U8) (ls : List (List U8)) (r : List U8 × Nat) : Prop where
  accepted : Fits pre ls → r.1.take r.2 = pre ++ wire (ls.map lower) ∧
    r.2 = pre.length + (wire ls).length
  refused : ¬ Fits pre ls → r.2 = 0

theorem Encoded.of_refused {ls : List (List U8)} (h : ¬ Fits pre ls) (out : List U8) :
    Encoded pre ls (out, 0) := ⟨fun hf => absurd hf h, fun _ => rfl⟩

theorem fits_cons (l : List U8) (ls : List (List U8)) (hl : 0 < l.length ∧ l.length ≤ 63) :
    Fits pre (l :: ls) ↔ Fits (pre ++ BitVec.ofNat 8 l.length :: lower l) ls := by
  rw [Fits, Fits, Proper, List.forall_mem_cons, wireLabels_cons]
  simp only [List.length_append, List.length_cons, lower, List.length_map, hl, true_and, and_self]
  constructor
  · rintro ⟨hp, hle⟩
    exact ⟨hp, by omega⟩
  · rintro ⟨hp, hle⟩
    exact ⟨hp, by omega⟩

theorem Encoded.cons {l : List U8} {ls : List (List U8)} {r : List U8 × Nat}
    (hl : 0 < l.length ∧ l.length ≤ 63)
    (h : Encoded (pre ++ BitVec.ofNat 8 l.length :: lower l) ls r) : Encoded pre (l :: ls) r := by
  constructor
  · intro hf
    obtain ⟨hbytes, hw⟩ := h.accepted ((fits_cons l ls hl).mp hf)
    constructor
    · rw [hbytes]
      simp [wire, lower]
    · rw [hw]
      simp [wire, lower]
      omega
  · exact fun hf => h.refused (mt (fits_cons l ls hl).mpr hf)

theorem length_labelsFrom (cur rest : List U8) :
    cur.length + 1 ≤ (wireLabels (labelsFrom cur rest)).length := by
  cases h : rest.splitOn dot with
  | nil => exact absurd h (List.splitOn_ne_nil _ _)
  | cons l ls =>
    simp [labelsFrom, h]

theorem encodeFrom_nil (h : e.At pre (lower cur)) (hw : e.w ≤ 255 ∨ cur = []) :
    Yields (encodeFrom e []) (Encoded pre [cur]) := by
  have hlen : e.labelLength = cur.length := by rw [h.labelLength, lower, List.length_map]
  have hwcur : e.w = pre.length + 1 + cur.length := by rw [h.w, lower, List.length_map]
  rw [encodeFrom, hlen]
  apply yields_ite
  · intro hn
    apply yields_pure
    apply Encoded.of_refused
    intro hf
    have hcur := hf.1 cur (List.mem_singleton_self _)
    omega
  · intro hn
    have hw : e.w ≤ 255 := hw.resolve_right fun h0 => hn (.inl (h0 ▸ rfl))
    have hroom : e.w < nameRoom := Nat.lt_of_le_of_lt hw (by decide)
    refine (h.store_length hroom.le _).bind ?_
    rintro out ⟨hout, hbytes⟩
    have hat : ({ e with out := out } : Encoder).At pre (lower cur) :=
      ⟨hout, h.lab, h.w, _, hbytes⟩
    rw [Encoder.push]
    refine Yields.bind (P := fun e' => e'.out = out.set e.w 0 ∧ e'.w = e.w + 1) ?_ ?_
    · refine (yields_store (hout.symm ▸ hroom)).bind ?_
      rintro _ rfl
      exact yields_pure ⟨rfl, rfl⟩
    · rintro e' ⟨hout', hw'⟩
      apply yields_pure
      constructor
      · intro _
        dsimp only
        rw [hw', hout', take_set_succ (hout.symm ▸ hroom), hbytes]
        refine ⟨by simp [wire, lower], ?_⟩
        simp only [hwcur, wire, wireLabels_cons, wireLabels_nil, List.length_append,
          List.length_cons, List.length_nil]
        omega
      · intro hf
        refine absurd ⟨?_, ?_⟩ hf
        · intro l hl
          rw [List.mem_singleton.mp hl]
          omega
        · simp only [wireLabels_cons, wireLabels_nil, List.length_append, List.length_cons,
            List.length_nil]
          omega

theorem encodeFrom_yields (h : e.At pre (lower cur))
    (hw : e.w ≤ 255 ∨ cur = [] ∧ e.w = 256) :
    Yields (encodeFrom e rest) (Encoded pre (labelsFrom cur rest)) := by
  induction rest generalizing e pre cur with
  | nil =>
    rw [labelsFrom_nil]
    exact encodeFrom_nil h (hw.imp_right And.left)
  | cons c rest ih =>
    have hlen : e.labelLength = cur.length := by rw [h.labelLength, lower, List.length_map]
    have hwcur : e.w = pre.length + 1 + cur.length := by rw [h.w, lower, List.length_map]
    rw [encodeFrom]
    apply yields_ite
    · rintro rfl
      rw [hlen, labelsFrom_dot]
      apply yields_ite
      · intro hn
        apply yields_pure
        apply Encoded.of_refused
        intro hf
        have hcur := hf.1 cur List.mem_cons_self
        omega
      · intro hn
        have hproper : 0 < cur.length ∧ cur.length ≤ 63 := by omega
        have hw : e.w ≤ 255 := by
          rcases hw with hw | ⟨rfl, _⟩
          · exact hw
          · simp at hproper
        have hroom : e.w < nameRoom := Nat.lt_of_le_of_lt hw (by decide)
        refine (h.store_length hroom.le _).bind ?_
        rintro out ⟨hout, hbytes⟩
        apply yields_ite
        · intro hempty
          apply yields_pure
          apply Encoded.of_refused
          rw [List.isEmpty_iff.mp hempty, labelsFrom_nil]
          intro hf
          have hnil := hf.1 [] (by simp)
          simp at hnil
        · intro _
          refine (push_placeholder hout hroom hbytes).bind ?_
          rintro e' ⟨hat, hw'⟩
          have hnext : e'.w ≤ 255 ∨ ([] : List U8) = [] ∧ e'.w = 256 := by
            rcases Nat.lt_or_ge e'.w 256 with hlt | hge
            · exact .inl (by omega)
            · exact .inr ⟨rfl, by omega⟩
          exact (ih hat hnext).mono fun r hr => hr.cons hproper
    · intro hc
      rw [labelsFrom_cons hc]
      have hroom : e.w < nameRoom := by
        rw [nameRoom]
        omega
      refine (h.push hroom _).bind ?_
      intro e' hat
      have hcur : lower cur ++ [toLower c] = lower (cur ++ [c]) := by simp [lower]
      rw [hcur] at hat
      have hw' : e'.w = pre.length + 1 + (cur ++ [c]).length := by
        rw [hat.w, lower, List.length_map]
      apply yields_ite
      · intro hlong
        apply yields_pure
        apply Encoded.of_refused
        intro hf
        have hle := length_labelsFrom (cur ++ [c]) rest
        have hfits := hf.2
        omega
      · exact fun hshort => ih hat (.inl (by omega))

theorem dnsEncodeName_yields {out : List U8} (hout : out.length = nameRoom) (name : List U8) :
    Yields (dnsEncodeName out name) (Encoded [] (name.splitOn dot)) := by
  rw [dnsEncodeName]
  apply yields_ite
  · intro hempty
    apply yields_pure
    apply Encoded.of_refused
    rw [List.isEmpty_iff.mp hempty]
    intro hf
    have hnil := hf.1 [] (by simp)
    simp at hnil
  · intro _
    refine (push_placeholder hout (by decide) (List.take_zero)).bind ?_
    intro e hat
    rw [← labelsFrom_nil_left]
    exact encodeFrom_yields hat.1 (.inl (by rw [hat.2]; decide))

/-! ### Skipping and reading names -/

/-- The name at index `i` of a message ends before index `j`: at a pointer, at the root, or behind
a label where the next one ends. -/
inductive NameEnds (d : List U8) : Nat → Nat → Prop
  | pointer {i : Nat} {l : U8} (hl : d[i]? = some l) (hptr : l &&& 0xC0 = 0xC0)
      (hin : i + 2 ≤ d.length) : NameEnds d i (i + 2)
  | root {i : Nat} (hl : d[i]? = some 0) : NameEnds d i (i + 1)
  | label {i j : Nat} {l : U8} (hl : d[i]? = some l) (hkind : l &&& 0xC0 = 0) (hne : l ≠ 0)
      (hrest : NameEnds d (i + 1 + l.toNat) j) : NameEnds d i j

theorem NameEnds.bounds {d : List U8} {i j : Nat} (h : NameEnds d i j) :
    i < j ∧ j ≤ d.length := by
  induction h with
  | pointer hl hptr hin => exact ⟨by omega, hin⟩
  | root hl =>
    have hin := (List.getElem?_eq_some_iff.mp hl).1
    exact ⟨by omega, hin⟩
  | label hl hkind hne hrest ih => exact ⟨by omega, ih.2⟩

theorem nameEnds_iff {d : List U8} {i j : Nat} {l : U8} (hl : d[i]? = some l) : NameEnds d i j ↔
    (l &&& 0xC0 = 0xC0 ∧ j = i + 2 ∧ i + 2 ≤ d.length) ∨ (l = 0 ∧ j = i + 1) ∨
      (l &&& 0xC0 = 0 ∧ l ≠ 0 ∧ NameEnds d (i + 1 + l.toNat) j) := by
  constructor
  · intro h
    cases h with
    | pointer hl' hptr hin =>
      obtain rfl := Option.some.inj (hl.symm.trans hl')
      exact .inl ⟨hptr, rfl, hin⟩
    | root hl' =>
      obtain rfl := Option.some.inj (hl.symm.trans hl')
      exact .inr (.inl ⟨rfl, rfl⟩)
    | label hl' hkind hne hrest =>
      obtain rfl := Option.some.inj (hl.symm.trans hl')
      exact .inr (.inr ⟨hkind, hne, hrest⟩)
  · rintro (⟨hptr, rfl, hin⟩ | ⟨rfl, rfl⟩ | ⟨hkind, hne, hrest⟩)
    · exact .pointer hl hptr hin
    · exact .root hl
    · exact .label hl hkind hne hrest

theorem kind_pointer_ne {l : U8} (h : l &&& 0xC0 = 0xC0) : l ≠ 0 ∧ l &&& 0xC0 ≠ 0 := by
  constructor
  · rintro rfl
    exact absurd h (by decide)
  · rw [h]
    decide

theorem NameEnds.unique {d : List U8} {i j k : Nat} (h : NameEnds d i j) (h' : NameEnds d i k) :
    j = k := by
  induction h with
  | pointer hl hptr hin =>
    rcases (nameEnds_iff hl).mp h' with ⟨_, rfl, _⟩ | ⟨h0, _⟩ | ⟨hkind, _⟩
    · rfl
    · exact absurd h0 (kind_pointer_ne hptr).1
    · exact absurd hkind (kind_pointer_ne hptr).2
  | root hl =>
    rcases (nameEnds_iff hl).mp h' with ⟨hptr, _⟩ | ⟨_, rfl⟩ | ⟨_, hne, _⟩
    · exact absurd rfl (kind_pointer_ne hptr).1
    · rfl
    · exact absurd rfl hne
  | label hl hkind hne _ ih =>
    rcases (nameEnds_iff hl).mp h' with ⟨hptr, _⟩ | ⟨h0, _⟩ | ⟨_, _, hrest⟩
    · exact absurd hkind (kind_pointer_ne hptr).2
    · exact absurd h0 hne
    · exact ih hrest

structure Skipped (d : List U8) (i r : Nat) : Prop where
  ends : r ≠ 0 → NameEnds d i r
  refused : r = 0 → ∀ j, ¬ NameEnds d i j

theorem Skipped.of_ends {d : List U8} {i j : Nat} (h : NameEnds d i j) : Skipped d i j := by
  refine ⟨fun _ => h, fun h0 => ?_⟩
  have := h.bounds
  omega

theorem Skipped.of_none {d : List U8} {i : Nat} (h : ∀ j, ¬ NameEnds d i j) : Skipped d i 0 :=
  ⟨fun h0 => absurd rfl h0, fun _ => h⟩

theorem skipTurn_yields (d : List U8) (i : Nat) :
    Yields (skipTurn d d.length i) fun t =>
      match t with
      | .again k => i < k ∧ i < d.length ∧ ∀ r, Skipped d k r → Skipped d i r
      | .leave r => Skipped d i r := by
  rw [skipTurn]
  apply yields_ite
  · intro hout
    apply yields_pure
    apply Skipped.of_none
    intro j h
    have := h.bounds
    omega
  · intro hin
    refine (yields_load (by omega)).bind ?_
    intro l hl
    apply yields_ite
    · intro hptr
      apply yields_pure
      by_cases hroom : i + 2 ≤ d.length
      · simp only [if_pos hroom]
        exact .of_ends (.pointer hl hptr hroom)
      · simp only [if_neg hroom]
        apply Skipped.of_none
        intro j h
        rcases (nameEnds_iff hl).mp h with ⟨_, _, hin⟩ | ⟨h0, _⟩ | ⟨hkind, _⟩
        · exact hroom hin
        · exact (kind_pointer_ne hptr).1 h0
        · exact (kind_pointer_ne hptr).2 hkind
    · intro hptr
      apply yields_ite
      · rintro rfl
        apply yields_pure
        simp only [if_pos (show i + 1 ≤ d.length by omega)]
        exact .of_ends (.root hl)
      · intro hne
        apply yields_ite
        · intro hkind
          apply yields_pure
          apply Skipped.of_none
          intro j h
          rcases (nameEnds_iff hl).mp h with ⟨h', _⟩ | ⟨h', _⟩ | ⟨h', _⟩
          · exact hptr h'
          · exact hne h'
          · exact hkind h'
        · intro hkind
          apply yields_pure
          refine ⟨by omega, by omega, fun r hr => ?_⟩
          have hkind := not_not.mp hkind
          refine ⟨fun h0 => .label hl hkind hne (hr.ends h0), fun h0 j h => ?_⟩
          rcases (nameEnds_iff hl).mp h with ⟨h', _⟩ | ⟨h', _⟩ | ⟨_, _, hrest⟩
          · exact hptr h'
          · exact hne h'
          · exact hr.refused h0 j hrest

theorem dnsSkipName_yields (d : List U8) (i : Nat) :
    Yields (dnsSkipName d i d.length) (Skipped d i) := by
  apply yields_loop (fun k => ∀ r, Skipped d k r → Skipped d i r) (fun k => d.length - k)
  · intro k hk
    apply (skipTurn_yields d k).mono
    intro t ht
    cases t with
    | again k' =>
      obtain ⟨hlt, hin, hnext⟩ := ht
      exact ⟨fun r hr => hk r (hnext r hr), by omega⟩
    | leave r => exact hk r ht
  · exact fun r hr => hr
  · omega

theorem ofNat_length_toNat {l : List U8} (h : l.length ≤ 63) :
    (BitVec.ofNat 8 l.length).toNat = l.length := by
  rw [BitVec.toNat_ofNat]
  omega

theorem length_kind {k : Nat} (h : k ≤ 63) : BitVec.ofNat 8 k &&& 0xC0 = 0 := by
  have hall : ∀ k < 64, BitVec.ofNat 8 k &&& 0xC0 = 0 := by decide
  exact hall k (by omega)

theorem nameEnds_wire {ls : List (List U8)} (h : Proper ls) (pre rest : List U8) :
    NameEnds (pre ++ wire ls ++ rest) pre.length (pre.length + (wire ls).length) := by
  induction ls generalizing pre with
  | nil =>
    apply NameEnds.root
    simp [wire]
  | cons l ls ih =>
    have hl := h l List.mem_cons_self
    have hls : Proper ls := fun l' hl' => h l' (List.mem_cons_of_mem _ hl')
    have hmsg : pre ++ wire (l :: ls) ++ rest =
        (pre ++ BitVec.ofNat 8 l.length :: l) ++ wire ls ++ rest := by
      simp [wire]
    have hlen : (pre ++ BitVec.ofNat 8 l.length :: l).length = pre.length + 1 + l.length := by
      simp only [List.length_append, List.length_cons]
      omega
    have hrest := ih hls (pre ++ BitVec.ofNat 8 l.length :: l)
    rw [hlen, ← hmsg] at hrest
    have hwire : (wire (l :: ls)).length = 1 + l.length + (wire ls).length := by
      simp only [wire, wireLabels_cons, List.length_append, List.length_cons]
      omega
    refine NameEnds.label (show _ = some (BitVec.ofNat 8 l.length) from ?_) ?_ ?_ ?_
    · simp [wire]
    · exact length_kind hl.2
    · intro h0
      have := ofNat_length_toNat hl.2
      rw [h0] at this
      simp at this
      omega
    · rw [ofNat_length_toNat hl.2, hwire, ← Nat.add_assoc, ← Nat.add_assoc]
      exact hrest

theorem readLabels_wire {ls : List (List U8)} (h : Proper ls) (rest : List U8) {fuel : Nat}
    (hfuel : ls.length < fuel) : readLabels fuel (wire ls ++ rest) = some ls := by
  induction ls generalizing fuel with
  | nil =>
    obtain ⟨k, rfl⟩ := Nat.exists_eq_succ_of_ne_zero (Nat.ne_of_gt hfuel)
    rfl
  | cons l ls ih =>
    obtain ⟨k, rfl⟩ := Nat.exists_eq_succ_of_ne_zero (Nat.ne_of_gt (Nat.zero_lt_of_lt hfuel))
    have hl := h l List.mem_cons_self
    have hls : Proper ls := fun l' hl' => h l' (List.mem_cons_of_mem _ hl')
    have hmsg : wire (l :: ls) ++ rest = BitVec.ofNat 8 l.length :: (l ++ (wire ls ++ rest)) := by
      simp [wire]
    have hne : BitVec.ofNat 8 l.length ≠ 0 := by
      intro h0
      have hlen := ofNat_length_toNat hl.2
      rw [h0] at hlen
      simp at hlen
      omega
    rw [hmsg, readLabels, if_neg hne, ofNat_length_toNat hl.2, List.drop_left, List.take_left,
      ih hls (by simpa using hfuel), if_neg (by simp)]
    rfl

theorem lower_intercalate (ls : List (List U8)) :
    [dot].intercalate (ls.map lower) = lower ([dot].intercalate ls) := by
  induction ls with
  | nil => rfl
  | cons l ls ih =>
    cases ls with
    | nil => simp
    | cons l' ls =>
      rw [List.map_cons, List.map_cons, List.intercalate_cons_cons, ← List.map_cons, ih,
        List.intercalate_cons_cons]
      simp [lower, dot, toLower]

theorem length_lt_wire (ls : List (List U8)) : ls.length < (wire ls).length := by
  induction ls with
  | nil => decide
  | cons l ls ih =>
    simp only [wire, wireLabels_cons, List.length_append, List.length_cons] at ih ⊢
    omega

theorem readName_wire (ls : Labels) :
    readName (wire (ls.list.map lower)) = some (lower ls.name) := by
  have hproper : Proper (ls.list.map lower) := (proper_lower _).mpr (proper_list ls)
  have hread := readLabels_wire hproper [] (length_lt_wire _)
  rw [List.append_nil] at hread
  rw [readName, hread]
  exact congrArg some (lower_intercalate _)

theorem dnsSkipName_wire {ls : List (List U8)} (h : Proper ls) (pre rest : List U8) :
    dnsSkipName (pre ++ wire ls ++ rest) pre.length (pre ++ wire ls ++ rest).length =
      .ok (pre.length + (wire ls).length) := by
  obtain ⟨r, hr, hskip⟩ := dnsSkipName_yields (pre ++ wire ls ++ rest) pre.length
  have hends := nameEnds_wire h pre rest
  have hne : r ≠ 0 := fun h0 => hskip.refused h0 _ hends
  rw [hr, (hskip.ends hne).unique hends]

structure IsEncoding (name b : List U8) : Prop where
  labels : ∃ ls : Labels, ls.name = name ∧ b = wire (ls.list.map lower)
  reads : readName b = some (lower name)
  skips : ∀ pre rest, dnsSkipName (pre ++ b ++ rest) pre.length (pre ++ b ++ rest).length =
    .ok (pre.length + b.length)

/-- The promise of `dns_encode_name` for a name: it stays in its caller's buffer, accepts the names
that can be encoded in 255 bytes, and encodes those it accepts. -/
def EncodesName (name : Name) : Prop :=
  ∀ out, out.length = nameRoom → ∃ b w, dnsEncodeName out name.bytes = .ok (b, w) ∧
    (w ≠ 0 ↔ ∃ ls : Labels, ls.name = name.bytes ∧ (wire ls.list).length ≤ 255) ∧
    (w ≠ 0 → (b.take w).length = w ∧ IsEncoding name.bytes (b.take w))

def Name.HasLabels (name : Name) : Prop := ∃ ls : Labels, ls.name = name.bytes

theorem length_wire (ls : Labels) : (wire ls.list).length = ls.name.length + 2 := by
  rw [wire, List.length_append, ← length_name]
  rfl

theorem fits_iff (name : List U8) : Fits [] (name.splitOn dot) ↔
    (∃ ls : Labels, ls.name = name) ∧ name.length ≤ 254 := by
  constructor
  · intro ⟨hproper, hle⟩
    have hlen := length_name (labelsOf name hproper)
    rw [labelsOf_name] at hlen
    refine ⟨⟨_, labelsOf_name name hproper⟩, ?_⟩
    simp only [labelsOf, List.length_nil] at hlen hle
    omega
  · rintro ⟨⟨ls, rfl⟩, hle⟩
    have hlen := length_name ls
    rw [splitOn_name]
    refine ⟨proper_list ls, ?_⟩
    rw [List.length_nil]
    omega

theorem encodable_iff (name : List U8) :
    (∃ ls : Labels, ls.name = name ∧ (wire ls.list).length ≤ 255) ↔
      (∃ ls : Labels, ls.name = name) ∧ name.length ≤ 253 := by
  constructor
  · rintro ⟨ls, rfl, hle⟩
    rw [length_wire] at hle
    exact ⟨⟨ls, rfl⟩, by omega⟩
  · rintro ⟨⟨ls, rfl⟩, hle⟩
    refine ⟨ls, rfl, ?_⟩
    rw [length_wire]
    omega

theorem dnsEncodeName_spec (name out : List U8) (hout : out.length = nameRoom) :
    ∃ b w, dnsEncodeName out name = .ok (b, w) ∧
      (w ≠ 0 ↔ (∃ ls : Labels, ls.name = name) ∧ name.length ≤ 254) ∧
      (w ≠ 0 → (b.take w).length = w ∧ IsEncoding name (b.take w)) := by
  obtain ⟨⟨b, w⟩, hrun, henc⟩ := dnsEncodeName_yields hout name
  refine ⟨b, w, hrun, ?_, ?_⟩
  · rw [← fits_iff]
    constructor
    · exact fun h0 => not_not.mp (mt henc.refused h0)
    · intro hfits
      obtain ⟨_, hw⟩ := henc.accepted hfits
      simp only [wire, List.length_append, List.length_singleton] at hw
      omega
  · intro h0
    have hfits : Fits [] (name.splitOn dot) := not_not.mp (mt henc.refused h0)
    obtain ⟨hbytes, hw⟩ := henc.accepted hfits
    obtain ⟨⟨ls, rfl⟩, _⟩ := (fits_iff name).mp hfits
    rw [splitOn_name, List.nil_append] at hbytes
    have hlower : Proper (ls.list.map lower) := (proper_lower _).mpr (proper_list ls)
    dsimp only at hbytes hw
    rw [hbytes]
    refine ⟨?_, ⟨ls, rfl, rfl⟩, readName_wire ls, fun pre rest => dnsSkipName_wire hlower pre rest⟩
    rw [hw, splitOn_name]
    simp [wire, length_wireLabels_lower]

theorem not_encodesName {name : Name} (h : name.HasLabels) (hlen : name.bytes.length = 254) :
    ¬ EncodesName name := by
  intro henc
  obtain ⟨b, w, hrun, hiff, _⟩ := henc (List.replicate nameRoom 0) List.length_replicate
  obtain ⟨b', w', hrun', hiff', _⟩ :=
    dnsEncodeName_spec name.bytes (List.replicate nameRoom 0) List.length_replicate
  rw [hrun] at hrun'
  obtain ⟨rfl, rfl⟩ := Prod.mk.inj (Except.ok.inj hrun')
  have hle := ((encodable_iff _).mp (hiff.mp (hiff'.mpr ⟨h, hlen.le⟩))).2
  omega

theorem encodesName_iff (name : Name) :
    EncodesName name ↔ ¬ (name.HasLabels ∧ name.bytes.length = 254) := by
  constructor
  · exact fun henc h => not_encodesName h.1 h.2 henc
  · intro hlen out hout
    obtain ⟨b, w, hrun, hiff, hb⟩ := dnsEncodeName_spec name.bytes out hout
    refine ⟨b, w, hrun, ?_, hb⟩
    rw [hiff, encodable_iff]
    constructor
    · intro ⟨hls, hle⟩
      exact ⟨hls, Nat.le_of_lt_succ (Nat.lt_of_le_of_ne hle fun heq => hlen ⟨hls, heq⟩)⟩
    · exact fun ⟨hls, hle⟩ => ⟨hls, by omega⟩

def overlongLabels : Labels where
  list := List.replicate 3 (List.replicate 63 97) ++ [List.replicate 62 97]
  ne_nil := by simp
  proper l hl := by
    rcases List.mem_append.mp hl with hl | hl
    · rw [List.eq_of_mem_replicate hl]
      exact ⟨fun h => absurd (List.eq_of_mem_replicate h) (by decide), by simp, by simp⟩
    · rw [List.mem_singleton.mp hl]
      exact ⟨fun h => absurd (List.eq_of_mem_replicate h) (by decide), by simp, by simp⟩

theorem overlongLabels_noNul : (overlongLabels.name.all fun c => c != 0) = true := by decide +kernel

def overlongName : Name where
  bytes := overlongLabels.name
  noNul c hc := by simpa using List.all_eq_true.mp overlongLabels_noNul c hc

theorem not_encodesName_overlong : ¬ EncodesName overlongName :=
  not_encodesName ⟨overlongLabels, rfl⟩ (by decide +kernel)

end Ezos.Dns
