import Mathlib.Data.List.TakeWhile
import Ezos.Html.Scanners

/-!
# What `read_attr` finds (`ezos_rs/src/html.rs`)

A list of attributes is written out, and `read_attr` is run over it. The search works on words:
behind a name the cursor stays where the name ends, so that the words of a value are compared
with the name like the names themselves.
-/

namespace Ezos.Html

open Lib Lib.Checked

set_option autoImplicit false

def isQuote (b : U8) : Bool := b = 0x22 ∨ b = 0x27

def nameStop (b : U8) : Bool := attrEnd b ∨ b = 0x2F ∨ isQuote b

def IsValueByte (quote : Option U8) (b : U8) : Prop :=
  match quote with
  | some q => b ≠ q ∧ b ≠ 0x3E
  | none => ¬ isSpace b ∧ ¬ isQuote b ∧ b ≠ 0x3D ∧ b ≠ 0x3E

instance (quote : Option U8) (b : U8) : Decidable (IsValueByte quote b) :=
  match quote with
  | some _ => inferInstanceAs (Decidable (_ ∧ _))
  | none => inferInstanceAs (Decidable (_ ∧ _))

structure Attr where
  gap : List U8
  name : List U8
  quote : Option U8
  value : List U8
  gap_space : ∀ b ∈ gap, isSpace b
  gap_ne_nil : gap ≠ []
  name_ne_nil : name ≠ []
  name_plain : ∀ b ∈ name, ¬ nameStop b
  quote_is : ∀ q, quote = some q → isQuote q
  value_plain : ∀ b ∈ value, IsValueByte quote b

def Attr.written (x : Attr) : List U8 :=
  match x.quote with
  | some q => q :: (x.value ++ [q])
  | none => x.value

def Attr.text (x : Attr) : List U8 := x.gap ++ x.name ++ 0x3D :: x.written

def Attr.hasName (name : List U8) (x : Attr) : Bool := x.name.map lower = name

structure TagEnd where
  bytes : List U8
  plain : ∀ b ∈ bytes, isSpace b ∨ b = 0x2F
  apart : ∀ b, bytes.head? = some b → isSpace b

def attrsText (attrs : List Attr) : List U8 := attrs.flatMap Attr.text

structure Region where
  before : List U8
  attrs : List Attr
  tail : TagEnd
  behind : List U8

def Region.src (g : Region) : List U8 :=
  g.before ++ (attrsText g.attrs ++ g.tail.bytes ++ g.behind)

def Region.start (g : Region) : Nat := g.before.length

def Region.till (g : Region) : Nat := g.start + (attrsText g.attrs ++ g.tail.bytes).length

def entityBody (s : List U8) : List U8 := (s.take 12).takeWhile (· ≠ 0x3B)

def IsPut (cp : Nat) : Prop := ¬ (cp = 0 ∨ cp > 0x10FFFF ∨ cp ≥ 0xD800 ∧ cp ≤ 0xDFFF)

instance (cp : Nat) : Decidable (IsPut cp) := inferInstanceAs (Decidable (¬ _))

def entityOf : List U8 → Option (Nat × List U8)
  | [] => none
  | c :: s =>
    if c = 0x26 ∧ s[(entityBody s).length]? = some 0x3B ∧ IsPut (entityCp (entityBody s)) then
      some ((entityBody s).length + 2, encode (entityCp (entityBody s)))
    else none

def pieces : List U8 → List (List U8)
  | [] => []
  | c :: s =>
    match entityOf (c :: s) with
    | some (n, bytes) => bytes :: pieces (s.drop (n - 1))
    | none => [c] :: pieces s
  termination_by v => v.length

def decoded (value : List U8) : List U8 := (pieces value).flatten

def room (a : Arena) : Nat := a.out.length - a.used

def expected (attrs : List Attr) (name : List U8) (n : Nat) : List U8 :=
  match attrs.find? (Attr.hasName name) with
  | some x => (decoded x.value).take n
  | none => []

def Appends (a : Arena) (bytes : List U8) (b : Arena) : Prop :=
  b.used = a.used + bytes.length ∧ b.out.take b.used = a.out.take a.used ++ bytes ∧
    b.out.length = a.out.length

def Region.IsName (g : Region) (j : Nat) : Prop :=
  ∃ l x r, g.attrs = l ++ x :: r ∧ j = g.start + (attrsText l).length + x.gap.length

def Region.Takes (g : Region) (name : List U8) (a : Arena) (j : Nat) : Prop :=
  ∃ b r, Turns (readAttrTurn g.src g.till name a.used) (g.start, a) (j, b) ∧ j < g.till ∧
    readAttrTurn g.src g.till name a.used (j, b) = .ok (.leave r)

structure Region.ReadsAttr (g : Region) (name : List U8) (a : Arena) : Prop where
  output : Yields (readAttr g.src g.start g.till name a) fun r =>
    r.1 = (expected g.attrs name (room a)).length ∧
      Appends a (expected g.attrs name (room a)) r.2
  inside : ∀ j, g.Takes name a j → g.IsName j

def words : List U8 → List (List U8)
  | [] => []
  | c :: s =>
    if attrEnd c ∨ c = 0x2F then words s
    else (c :: s.takeWhile (!attrEnd ·)) :: words (s.dropWhile (!attrEnd ·))
  termination_by t => t.length
  decreasing_by
    · simp
    · have := (List.dropWhile_sublist (!attrEnd ·) (l := s)).length_le
      rw [List.length_cons]
      omega

def Attr.Quiet (name : List U8) (x : Attr) : Prop := ∀ w ∈ words x.written, w.map lower ≠ name

def Straddles (n : Nat) (ps : List (List U8)) : Prop :=
  ∃ l p r, ps = l ++ p :: r ∧ l.flatten.length < n ∧ n < l.flatten.length + p.length

def Readable (attrs : List Attr) (name : List U8) (n : Nat) : Prop :=
  (∀ x ∈ attrs.takeWhile (!Attr.hasName name ·), x.Quiet name) ∧
    ∀ x, attrs.find? (Attr.hasName name) = some x →
      (x.quote ≠ none ∨ x.value = [] ∨ n = 0) ∧ ¬ Straddles n (pieces x.value)

/-! ## Copying a value -/

theorem Appends.refl (a : Arena) : Appends a [] a := ⟨rfl, by rw [List.append_nil], rfl⟩

theorem Appends.trans {a b c : Arena} {x y : List U8} (h : Appends a x b) (h' : Appends b y c) :
    Appends a (x ++ y) c := by
  refine ⟨?_, ?_, h'.2.2.trans h.2.2⟩
  · rw [h'.1, h.1, List.length_append, Nat.add_assoc]
  · rw [h'.2.1, h.2.1, List.append_assoc]

theorem Appends.room_eq {a b : Arena} {x : List U8} (h : Appends a x b) :
    room b = room a - x.length := by
  rw [room, room, h.1, h.2.2]
  omega

theorem add_appends {a : Arena} (b : U8) : Yields (a.add b) (Appends a ([b].take (room a))) := by
  refine yields_ite ?_ ?_
  · intro hlt
    refine (yields_store hlt).bind ?_
    rintro _ rfl
    obtain ⟨n, hn⟩ : ∃ n, room a = n + 1 := ⟨a.out.length - a.used - 1, by rw [room]; omega⟩
    rw [hn]
    refine yields_pure ⟨by simp, ?_, List.length_set⟩
    rw [List.take_add_one, List.getElem?_set_self hlt, List.take_set_of_le (Nat.le_refl _)]
    simp
  · intro hge
    have hroom : room a = 0 := by
      rw [room]
      omega
    rw [hroom]
    exact yields_pure (.refl a)

theorem storeAll_appends {a : Arena} {bytes : List U8} (h : a.used + bytes.length ≤ a.out.length) :
    Yields (storeAll a.out a.used bytes) fun out => Appends a bytes ⟨out, a.used + bytes.length⟩ := by
  refine (yields_storeAll h).mono ?_
  rintro out ⟨hlen, hkept, hstored⟩
  refine ⟨rfl, ?_, hlen⟩
  dsimp only
  apply List.ext_getElem?
  intro k
  rcases Nat.lt_or_ge k a.used with hk | hk
  · rw [List.getElem?_take_of_lt (by omega), hkept k (.inl hk),
      List.getElem?_append_left (by rw [List.length_take]; omega), List.getElem?_take_of_lt hk]
  · obtain ⟨d, rfl⟩ := Nat.exists_eq_add_of_le hk
    have hused : (a.out.take a.used).length = a.used := by
      rw [List.length_take]
      omega
    rw [List.getElem?_append_right (by omega), hused, Nat.add_sub_cancel_left]
    rcases Nat.lt_or_ge d bytes.length with hd | hd
    · rw [List.getElem?_take_of_lt (by omega), hstored d hd]
    · rw [List.getElem?_take_eq_none (by omega), List.getElem?_eq_none hd]

theorem putCp_appends (a : Arena) (cp : Nat) :
    Yields (putCp a cp) fun o =>
      (IsPut cp ∧ a.used + (encode cp).length ≤ a.out.length ∧ ∃ b, o = some b ∧
        Appends a (encode cp) b) ∨
      (o = none ∧ (IsPut cp → a.out.length < a.used + (encode cp).length)) := by
  refine yields_ite ?_ ?_
  · intro hbad
    exact yields_pure (.inr ⟨rfl, fun hput => absurd hbad hput⟩)
  intro hput
  refine yields_ite ?_ ?_
  · intro hfull
    exact yields_pure (.inr ⟨rfl, fun _ => hfull⟩)
  · intro hfits
    refine (storeAll_appends (Nat.le_of_not_lt hfits)).bind ?_
    intro out hout
    exact yields_pure (.inl ⟨hput, Nat.le_of_not_lt hfits, _, rfl, hout⟩)

def Spans (src : List U8) (p ve : Nat) (v : List U8) : Prop :=
  ve = p + v.length ∧ ∃ pre post, src = pre ++ v ++ post ∧ pre.length = p

section Spans
variable {src : List U8} {p ve : Nat} {v : List U8}

theorem Spans.le (h : Spans src p ve v) : ve ≤ src.length := by
  obtain ⟨hve, pre, post, rfl, hp⟩ := h
  simp only [List.length_append]
  omega

theorem Spans.getElem? (h : Spans src p ve v) {k : Nat} (hk : k < v.length) : src[p + k]? = v[k]? := by
  obtain ⟨-, pre, post, rfl, rfl⟩ := h
  rw [List.append_assoc, List.getElem?_append_right (by omega), Nat.add_sub_cancel_left,
    List.getElem?_append_left hk]

theorem Spans.drop (h : Spans src p ve v) {k : Nat} (hk : k ≤ v.length) :
    Spans src (p + k) ve (v.drop k) := by
  obtain ⟨hve, pre, post, rfl, rfl⟩ := h
  refine ⟨by rw [List.length_drop]; omega, pre ++ v.take k, post, ?_, ?_⟩
  · rw [List.append_assoc, List.append_assoc, List.append_assoc, ← List.append_assoc (v.take k),
      List.take_append_drop]
  · rw [List.length_append, List.length_take]
    omega

theorem Spans.slice_eq (h : Spans src p ve v) {k n : Nat} (hk : k + n ≤ v.length) :
    slice src (p + k) n = .ok ((v.drop k).take n) := by
  have hle := h.le
  obtain ⟨hve, pre, post, rfl, rfl⟩ := h
  rw [slice, if_pos (by omega), List.append_assoc, List.drop_append, List.drop_eq_nil_of_le (by omega),
    List.nil_append, Nat.add_sub_cancel_left, List.drop_append_of_le_length (by omega),
    List.take_append_of_le_length (by rw [List.length_drop]; omega)]

theorem entityBody_length_le (s : List U8) : (entityBody s).length ≤ s.length := by
  have := (List.takeWhile_prefix (l := s.take 12) (· ≠ (0x3B : U8))).length_le
  rw [List.length_take] at this
  rw [entityBody]
  omega

theorem entityBody_eq_take (s : List U8) : s.take (entityBody s).length = entityBody s := by
  have hpre := (List.takeWhile_prefix (l := s.take 12) (· ≠ (0x3B : U8))).trans (List.take_prefix 12 s)
  exact (List.prefix_iff_eq_take.mp hpre).symm

theorem semicolon_finds {c : U8} {s : List U8} (h : Spans src p ve (c :: s)) :
    Yields (semicolon src ve p) fun k => k = p + 1 + (entityBody s).length := by
  have hve := h.1
  rw [List.length_cons] at hve
  refine yields_loop
    (fun semi => ∃ k, semi = p + 1 + k ∧ k ≤ s.length ∧ k ≤ 12 ∧
      (entityBody s).length = k + (((s.drop k).take (12 - k)).takeWhile (· ≠ 0x3B)).length)
    (fun semi => ve - semi) ?_ ⟨0, rfl, Nat.zero_le _, Nat.zero_le _, by simp [entityBody]⟩ (by omega)
  rintro _ ⟨k, rfl, hks, hk12, hbody⟩
  refine yields_ite ?_ ?_
  · rintro ⟨hlt, h12⟩
    have hks' : k < s.length := by omega
    have hload : src[p + 1 + k]? = some s[k] := by
      rw [Nat.add_assoc, h.getElem? (by rw [List.length_cons]; omega), Nat.add_comm 1 k,
        List.getElem?_cons_succ, List.getElem?_eq_getElem hks']
    obtain ⟨m, hm⟩ : ∃ m, 12 - k = m + 1 := ⟨12 - (k + 1), by omega⟩
    rw [hm, List.drop_eq_getElem_cons hks', List.take_succ_cons, List.takeWhile_cons] at hbody
    rw [load_eq hload]
    change Yields (if s[k] = 0x3B then _ else _) _
    refine yields_ite ?_ ?_
    · intro hsemi
      apply yields_pure
      rw [hbody, hsemi]
      rfl
    · intro hsemi
      refine yields_pure ⟨⟨k + 1, rfl, by omega, by omega, ?_⟩, by omega⟩
      rw [if_pos (by simpa using hsemi), List.length_cons] at hbody
      rw [hbody, show 12 - (k + 1) = m by omega]
      omega
  · intro hstop
    apply yields_pure
    have hnil : (s.drop k).take (12 - k) = [] := by
      rcases Nat.lt_or_ge k 12 with hlt | hge
      · rw [List.drop_eq_nil_of_le (by omega), List.take_nil]
      · rw [show 12 - k = 0 by omega, List.take_zero]
    rw [hbody, hnil]
    rfl

theorem entityLen_finds {s : List U8} (h : Spans src p ve (0x26 :: s)) :
    Yields (entityLen src ve p) fun n =>
      n = if s[(entityBody s).length]? = some 0x3B then (entityBody s).length + 2 else 0 := by
  have hve := h.1
  have hle := h.le
  rw [List.length_cons] at hve
  have hload : src[p]? = some 0x26 := h.getElem? (k := 0) (by simp)
  rw [entityLen, if_pos (by omega)]
  refine (yields_load (by omega)).bind ?_
  intro c hc
  obtain rfl := Option.some.inj (hload.symm.trans hc)
  rw [if_pos rfl]
  refine (semicolon_finds h).bind ?_
  rintro _ rfl
  have hbody := entityBody_length_le s
  have hat (hlt : (entityBody s).length < s.length) :
      src[p + 1 + (entityBody s).length]? = s[(entityBody s).length]? := by
    rw [Nat.add_assoc, h.getElem? (by rw [List.length_cons]; omega), Nat.add_comm 1,
      List.getElem?_cons_succ]
  refine yields_ite ?_ ?_
  · intro hlt
    have hlt' : (entityBody s).length < s.length := by omega
    refine (yields_load (by omega)).bind ?_
    intro c hc
    rw [hat hlt'] at hc
    refine yields_ite ?_ ?_
    · rintro rfl
      apply yields_pure
      rw [if_pos hc]
      omega
    · intro hne
      apply yields_pure
      rw [if_neg]
      intro h'
      rw [hc] at h'
      exact hne (Option.some.inj h')
  · intro hge
    apply yields_pure
    rw [List.getElem?_eq_none (by omega), if_neg (by simp)]

theorem entityAt_appends {c : U8} {s : List U8} {a : Arena} (h : Spans src p ve (c :: s)) :
    Yields (entityAt src ve p c a) fun o =>
      (∃ n bytes b, entityOf (c :: s) = some (n, bytes) ∧ o = some (n, b) ∧
        a.used + bytes.length ≤ a.out.length ∧ Appends a bytes b) ∨
      (o = none ∧ ∀ n bytes, entityOf (c :: s) = some (n, bytes) →
        a.out.length < a.used + bytes.length) := by
  by_cases hamp : c = 0x26
  · subst hamp
    have hbody := entityBody_length_le s
    rw [entityAt, if_pos rfl]
    refine (entityLen_finds h).bind ?_
    rintro _ rfl
    by_cases hsemi : s[(entityBody s).length]? = some 0x3B
    · have hlt := (List.getElem?_eq_some_iff.mp hsemi).1
      have hslice := h.slice_eq (k := 1) (n := (entityBody s).length)
        (by rw [List.length_cons]; omega)
      rw [List.drop_succ_cons, List.drop_zero, entityBody_eq_take] at hslice
      rw [if_pos hsemi, if_neg (by omega), Nat.add_sub_cancel, hslice]
      have hent (hput : IsPut (entityCp (entityBody s))) :
          entityOf (0x26 :: s) = some ((entityBody s).length + 2, encode (entityCp (entityBody s))) :=
        if_pos ⟨rfl, hsemi, hput⟩
      have hnone (hput : ¬ IsPut (entityCp (entityBody s))) : entityOf (0x26 :: s) = none :=
        if_neg fun hc => hput hc.2.2
      refine yields_ite ?_ ?_
      · intro hzero
        refine yields_pure (.inr ⟨rfl, ?_⟩)
        intro n bytes heq
        rw [hnone fun hput => hput (.inl hzero)] at heq
        cases heq
      intro _
      refine (putCp_appends a _).bind ?_
      rintro o (⟨hput, hfits, b, rfl, hb⟩ | ⟨rfl, hfull⟩)
      · exact yields_pure (.inl ⟨_, _, b, hent hput, rfl, hfits, hb⟩)
      · refine yields_pure (.inr ⟨rfl, ?_⟩)
        intro n bytes heq
        by_cases hput : IsPut (entityCp (entityBody s))
        · rw [hent hput] at heq
          obtain ⟨rfl, rfl⟩ := Prod.mk.inj (Option.some.inj heq)
          exact hfull hput
        · rw [hnone hput] at heq
          cases heq
    · rw [if_neg hsemi, if_pos rfl]
      refine yields_pure (.inr ⟨rfl, ?_⟩)
      intro n bytes hent
      rw [entityOf, if_neg fun hc => hsemi hc.2.1] at hent
      cases hent
  · rw [entityAt, if_neg hamp]
    refine yields_pure (.inr ⟨rfl, ?_⟩)
    intro n bytes hent
    rw [entityOf, if_neg fun hc => hamp hc.1] at hent
    cases hent

/-- What the loop of `read_attr` copies of a value into `n` bytes. -/
def copied : Nat → List U8 → List U8
  | _, [] => []
  | n, c :: s =>
    match entityOf (c :: s) with
    | some (k, bytes) =>
      if bytes.length ≤ n then bytes ++ copied (n - bytes.length) (s.drop (k - 1))
      else [c].take n ++ copied (n - 1) s
    | none => [c].take n ++ copied (n - 1) s
  termination_by _ v => v.length

theorem entityOf_length {c : U8} {s : List U8} {n : Nat} {bytes : List U8}
    (h : entityOf (c :: s) = some (n, bytes)) : 2 ≤ n ∧ n ≤ s.length + 1 := by
  rw [entityOf] at h
  split at h
  · rename_i hc
    have hlt := (List.getElem?_eq_some_iff.mp hc.2.1).1
    obtain ⟨rfl, -⟩ := Prod.mk.inj (Option.some.inj h)
    omega
  · cases h

theorem copied_entity {n k : Nat} {c : U8} {s bytes : List U8}
    (h : entityOf (c :: s) = some (k, bytes)) (hfits : bytes.length ≤ n) :
    copied n (c :: s) = bytes ++ copied (n - bytes.length) (s.drop (k - 1)) := by
  rw [copied]
  simp only [h]
  rw [if_pos hfits]

theorem copied_byte {n : Nat} {c : U8} {s : List U8}
    (h : ∀ k bytes, entityOf (c :: s) = some (k, bytes) → n < bytes.length) :
    copied n (c :: s) = [c].take n ++ copied (n - 1) s := by
  rw [copied]
  split
  · rename_i k bytes hent
    rw [if_neg (Nat.not_le_of_lt (h k bytes hent))]
  · rfl

theorem copyValue_appends {a : Arena} (h : Spans src p ve v) (ha : a.used ≤ a.out.length) :
    Yields (copyValue src p ve a) (Appends a (copied (room a) v)) := by
  have hve := h.1
  refine yields_loop
    (fun x => ∃ k done, x.1 = p + k ∧ k ≤ v.length ∧ Appends a done x.2 ∧ x.2.used ≤ x.2.out.length ∧
      copied (room a) v = done ++ copied (room x.2) (v.drop k))
    (fun x => ve - x.1) ?_ ⟨0, [], rfl, Nat.zero_le _, .refl a, ha, rfl⟩ (by simp)
  rintro ⟨_, b⟩ ⟨k, done, rfl, hk, hdone, hb, hcopied⟩
  dsimp only at hdone hb hcopied
  refine yields_ite ?_ ?_
  · intro hlt
    have hk' : k < v.length := by
      dsimp only at hlt
      omega
    have hat := h.drop hk
    rw [List.drop_eq_getElem_cons hk'] at hat hcopied
    have hload : src[p + k]? = some v[k] := (h.getElem? hk').trans (List.getElem?_eq_getElem hk')
    rw [load_eq hload]
    refine (entityAt_appends (a := b) hat).bind ?_
    rintro o (⟨n, bytes, b', hent, rfl, hfits, happ⟩ | ⟨rfl, hfull⟩)
    · obtain ⟨hn, hle⟩ := entityOf_length hent
      rw [List.length_drop] at hle
      refine yields_pure ⟨⟨k + n, done ++ bytes, by dsimp only; omega, by omega, hdone.trans happ, ?_, ?_⟩, ?_⟩
      · dsimp only
        rw [happ.1, happ.2.2]
        exact hfits
      · dsimp only
        rw [hcopied, copied_entity hent (by rw [room]; omega), List.append_assoc, happ.room_eq,
          List.drop_drop, show k + 1 + (n - 1) = k + n by omega]
      · dsimp only
        omega
    · refine (add_appends v[k]).bind ?_
      intro b' (happ : Appends b ([v[k]].take (room b)) b')
      refine yields_pure ⟨⟨k + 1, done ++ [v[k]].take (room b), by dsimp only; omega, by omega,
        hdone.trans happ, ?_, ?_⟩, ?_⟩
      · have hroom : ([v[k]].take (room b)).length ≤ room b := by
          rw [List.length_take]
          exact Nat.min_le_left _ _
        have hdef : room b = b.out.length - b.used := rfl
        dsimp only
        rw [happ.1, happ.2.2]
        omega
      · have hlen : room b' = room b - 1 := by
          rw [happ.room_eq, List.length_take, List.length_singleton]
          omega
        dsimp only
        rw [hcopied, copied_byte ?_, List.append_assoc, hlen]
        intro n bytes hent
        have := hfull n bytes hent
        rw [room]
        omega
      · dsimp only
        omega
  · intro hge
    apply yields_pure
    have hnil : v.drop k = [] := by
      apply List.drop_eq_nil_of_le
      dsimp only at hge
      omega
    rw [hcopied, hnil, copied, List.append_nil]
    exact hdone

end Spans

theorem pieces_entity {k : Nat} {c : U8} {s bytes : List U8}
    (h : entityOf (c :: s) = some (k, bytes)) :
    pieces (c :: s) = bytes :: pieces (s.drop (k - 1)) := by
  rw [pieces]
  simp only [h]

theorem pieces_byte {c : U8} {s : List U8} (h : entityOf (c :: s) = none) :
    pieces (c :: s) = [c] :: pieces s := by
  rw [pieces]
  simp only [h]

theorem encode_head {cp : Nat} (h : 1 < (encode cp).length) :
    ∃ b rest, encode cp = b :: rest ∧ b ≠ 0x26 := by
  have hset (m x y : U8) (hm : m.getLsbD 7 = true) : m ||| (x &&& y) ≠ 0x26 := by
    intro heq
    have hbit := congrArg (·.getLsbD 7) heq
    simp only [BitVec.getLsbD_or, hm, Bool.true_or] at hbit
    exact absurd hbit (by decide)
  rw [encode] at h ⊢
  split_ifs at h ⊢ with h1 h2 h3
  · simp at h
  · exact ⟨_, _, rfl, hset _ _ _ (by decide)⟩
  · exact ⟨_, _, rfl, hset _ _ _ (by decide)⟩
  · exact ⟨_, _, rfl, hset _ _ _ (by decide)⟩

theorem encode_length_pos (cp : Nat) : 0 < (encode cp).length := by
  rw [encode]
  split_ifs <;> simp

theorem entityOf_bytes {v : List U8} {k : Nat} {bytes : List U8} (h : entityOf v = some (k, bytes)) :
    ∃ s cp, v = 0x26 :: s ∧ bytes = encode cp := by
  cases v with
  | nil => cases h
  | cons c s =>
    rw [entityOf] at h
    split at h
    · rename_i hc
      obtain ⟨-, rfl⟩ := Prod.mk.inj (Option.some.inj h)
      exact ⟨s, _, by rw [hc.1], rfl⟩
    · cases h

theorem copied_zero (v : List U8) : copied 0 v = [] := by
  induction v with
  | nil => rw [copied]
  | cons c s ih =>
    rw [copied_byte]
    · rw [List.take_zero, List.nil_append, ih]
    · intro k bytes hent
      obtain ⟨_, cp, -, rfl⟩ := entityOf_bytes hent
      exact encode_length_pos cp

theorem straddles_cons {n : Nat} {p : List U8} {ps : List (List U8)} :
    Straddles n (p :: ps) ↔ (0 < n ∧ n < p.length) ∨ (p.length < n ∧ Straddles (n - p.length) ps) := by
  constructor
  · rintro ⟨l, q, r, hsplit, hlo, hhi⟩
    cases l with
    | nil =>
      obtain ⟨rfl, -⟩ := List.cons.inj hsplit
      exact .inl ⟨hlo, by simpa using hhi⟩
    | cons x l =>
      obtain ⟨rfl, rfl⟩ := List.cons.inj hsplit
      rw [List.flatten_cons, List.length_append] at hlo hhi
      exact .inr ⟨by omega, l, q, r, rfl, by omega, by omega⟩
  · rintro (⟨hlo, hhi⟩ | ⟨hlt, l, q, r, rfl, hlo, hhi⟩)
    · exact ⟨[], p, ps, rfl, hlo, by simpa using hhi⟩
    · refine ⟨p :: l, q, r, rfl, ?_, ?_⟩ <;> rw [List.flatten_cons, List.length_append] <;> omega

theorem not_straddles_zero (ps : List (List U8)) : ¬ Straddles 0 ps := by
  rintro ⟨l, p, r, -, hlo, -⟩
  omega

theorem copied_eq_iff (n : Nat) (v : List U8) :
    copied n v = (decoded v).take n ↔ ¬ Straddles n (pieces v) := by
  induction n, v using copied.induct with
  | case1 n =>
    have hnot : ¬ Straddles n [] := by
      rintro ⟨l, p, r, hnil, -, -⟩
      simp at hnil
    simp [copied, decoded, pieces, hnot]
  | case2 n c s k bytes hent hfits ih =>
    rw [copied_entity hent hfits, decoded, pieces_entity hent, List.flatten_cons, List.take_append,
      List.take_of_length_le hfits, List.append_cancel_left_eq, ← decoded, ih, straddles_cons]
    constructor
    · rintro hnot (⟨-, hlt⟩ | ⟨-, hin⟩)
      · omega
      · exact hnot hin
    · intro hnot hin
      rcases Nat.lt_or_ge bytes.length n with hlt | hge
      · exact hnot (.inr ⟨hlt, hin⟩)
      · rw [Nat.sub_eq_zero_of_le hge] at hin
        exact not_straddles_zero _ hin
  | case3 n c s k bytes hent hfull ih =>
    cases n with
    | zero => simp [copied_zero, not_straddles_zero]
    | succ n =>
      obtain ⟨t, cp, heq, rfl⟩ := entityOf_bytes hent
      obtain ⟨rfl, rfl⟩ := List.cons.inj heq
      have hlong : 1 < (encode cp).length := by omega
      obtain ⟨b, rest, hb, hne⟩ := encode_head hlong
      refine iff_of_false ?_ (not_not_intro ?_)
      · rw [copied, decoded, pieces_entity hent]
        simp only [hent]
        rw [if_neg hfull, hb]
        intro hcopied
        exact hne (List.cons.inj hcopied).1.symm
      · rw [pieces_entity hent, straddles_cons]
        exact .inl ⟨Nat.succ_pos n, Nat.lt_of_not_le hfull⟩
  | case4 n c s hent ih =>
    have hbyte := copied_byte (n := n) (c := c) (s := s) (by simp [hent])
    cases n with
    | zero => simp [copied_zero, not_straddles_zero]
    | succ n =>
      rw [hbyte, decoded, pieces_byte hent, List.flatten_cons, straddles_cons]
      have hright : (0 < n + 1 ∧ n + 1 < [c].length) ∨ ([c].length < n + 1 ∧
          Straddles (n + 1 - [c].length) (pieces s)) ↔ Straddles n (pieces s) := by
        constructor
        · rintro (⟨-, hlt⟩ | ⟨-, hin⟩)
          · simp at hlt
          · exact hin
        · intro hin
          refine .inr ⟨?_, hin⟩
          cases n with
          | zero => exact absurd hin (not_straddles_zero _)
          | succ n => simp
      rw [hright]
      simp only [Nat.add_sub_cancel] at ih
      rw [← ih]
      simp [decoded]

theorem scanTo_finds {src : List U8} {p ve : Nat} {v : List U8} (h : Spans src p ve v)
    (stop : U8 → Bool) :
    scanTo src ve stop p = .ok (p + (v.takeWhile (!stop ·)).length) := by
  have hve := h.1
  suffices hy : Yields (scanTo src ve stop p) fun k => k = p + (v.takeWhile (!stop ·)).length by
    obtain ⟨k, hk, rfl⟩ := hy
    exact hk
  refine yields_loop
    (fun s => ∃ k, s = p + k ∧ k ≤ v.length ∧
      (v.takeWhile (!stop ·)).length = k + ((v.drop k).takeWhile (!stop ·)).length)
    (fun s => ve - s) ?_ ⟨0, rfl, Nat.zero_le _, by simp⟩ (by omega)
  rintro _ ⟨k, rfl, hk, hlen⟩
  refine yields_ite ?_ ?_
  · intro hlt
    have hk' : k < v.length := by omega
    have hload : src[p + k]? = some v[k] := (h.getElem? hk').trans (List.getElem?_eq_getElem hk')
    rw [List.drop_eq_getElem_cons hk', List.takeWhile_cons] at hlen
    rw [load_eq hload]
    change Yields (if stop v[k] then _ else _) _
    refine yields_ite ?_ ?_
    · intro hstop
      rw [hstop] at hlen
      exact yields_pure (by rw [hlen]; rfl)
    · intro hstop
      rw [Bool.eq_false_iff.mpr hstop] at hlen
      refine yields_pure ⟨⟨k + 1, rfl, by omega, ?_⟩, by omega⟩
      simp only [Bool.not_false, if_true, List.length_cons] at hlen
      omega
  · intro hge
    apply yields_pure
    rw [hlen, List.drop_eq_nil_of_le (by omega)]
    rfl

def Held (a b : Arena) : Prop := Grows a b ∧ b.used = a.used

section Search
variable {src : List U8} {till j : Nat} {name : List U8} {a b : Arena}

theorem turn_skips {c : U8} {t : List U8} (h : Spans src j till (c :: t))
    (hc : attrEnd c ∨ c = 0x2F) (name : List U8) (mark : Nat) (b : Arena) :
    readAttrTurn src till name mark (j, b) = .ok (.again (j + 1, b)) := by
  have hload : src[j]? = some c := h.getElem? (k := 0) (by simp)
  have hlt : j < till := by
    have := h.1
    rw [List.length_cons] at this
    omega
  rw [readAttrTurn, if_pos hlt, load_eq hload]
  by_cases hskip : isSpace c ∨ c = 0x2F ∨ c = 0x3D
  · exact if_pos hskip
  · have hend : attrEnd c := by
      rcases hc with hc | hc
      · exact hc
      · exact absurd (.inr (.inl hc)) hskip
    have hscan := scanTo_finds h attrEnd
    rw [List.takeWhile_cons, if_neg (by simp [hend])] at hscan
    refine (if_neg hskip).trans ?_
    rw [hscan]
    exact if_pos rfl

theorem turn_reads {c : U8} {t : List U8} (h : Spans src j till (c :: t))
    (hc : ¬ (attrEnd c ∨ c = 0x2F)) (hb : b.used ≤ b.out.length) (name : List U8) (mark : Nat) :
    ∃ b', attrValue src (j + (c :: t.takeWhile (!attrEnd ·)).length) till b = .ok b' ∧ Grows b b' ∧
      readAttrTurn src till name mark (j, b) = .ok
        (if (c :: t.takeWhile (!attrEnd ·)).map lower = name then .leave (b'.used - mark, b')
        else .again (j + (c :: t.takeWhile (!attrEnd ·)).length, { b' with used := mark })) := by
  have hload : src[j]? = some c := h.getElem? (k := 0) (by simp)
  have hlt : j < till := by
    have := h.1
    rw [List.length_cons] at this
    omega
  have hend : attrEnd c = false := by
    rw [← Bool.not_eq_true]
    exact fun hend => hc (.inl hend)
  have hskip : ¬ (isSpace c ∨ c = 0x2F ∨ c = 0x3D) := by
    rintro (hs | hs | hs)
    · simp [attrEnd, hs] at hend
    · exact hc (.inr hs)
    · simp [attrEnd, hs] at hend
  have hscan := scanTo_finds h attrEnd
  rw [List.takeWhile_cons, if_pos (by simp [hend])] at hscan
  have hpre : (c :: t.takeWhile (!attrEnd ·)) <+: c :: t :=
    List.cons_prefix_cons.mpr ⟨rfl, List.takeWhile_prefix _⟩
  have hslice := h.slice_eq (k := 0) (n := (c :: t.takeWhile (!attrEnd ·)).length)
    (by rw [Nat.zero_add]; exact hpre.length_le)
  rw [List.drop_zero, ← List.prefix_iff_eq_take.mp hpre, Nat.add_zero] at hslice
  have hvalue : Yields (attrValue src (j + (c :: t.takeWhile (!attrEnd ·)).length) till b) (Grows b) :=
    attrValue_yields h.le hb
  obtain ⟨b', hval, hgrows⟩ := hvalue
  refine ⟨b', hval, hgrows, ?_⟩
  rw [readAttrTurn, if_pos hlt, load_eq hload]
  refine (if_neg hskip).trans ?_
  rw [hscan]
  refine (if_neg (by rw [List.length_cons]; omega)).trans ?_
  rw [hval]
  change (do
    let s ← slice src j (j + (c :: t.takeWhile (!attrEnd ·)).length - j)
    if s.map lower = name then pure (Turn.leave (b'.used - mark, b'))
    else pure (.again (j + (c :: t.takeWhile (!attrEnd ·)).length, { b' with used := mark }))) = _
  rw [Nat.add_sub_cancel_left, hslice]
  change (if _ then _ else _) = _
  split <;> rfl

/-! ### Passing over a text -/

def Apart (v : List U8) : Prop := ∀ b, v.head? = some b → attrEnd b

theorem takeWhile_apart {s v : List U8} (hv : Apart v) :
    (s ++ v).takeWhile (!attrEnd ·) = s.takeWhile (!attrEnd ·) := by
  induction s with
  | nil =>
    cases v with
    | nil => rfl
    | cons d v =>
      have hd := hv d rfl
      simp [hd]
  | cons c s ih => simp only [List.cons_append, List.takeWhile_cons, ih]

theorem dropWhile_apart {s v : List U8} (hv : Apart v) :
    (s ++ v).dropWhile (!attrEnd ·) = s.dropWhile (!attrEnd ·) ++ v := by
  induction s with
  | nil =>
    cases v with
    | nil => rfl
    | cons d v =>
      have hd := hv d rfl
      simp [hd]
  | cons c s ih =>
    simp only [List.cons_append, List.dropWhile_cons]
    split
    · exact ih
    · rfl

theorem words_skip {c : U8} {s : List U8} (hc : attrEnd c ∨ c = 0x2F) : words (c :: s) = words s := by
  rw [words, if_pos hc]

theorem words_read {c : U8} {s : List U8} (hc : ¬ (attrEnd c ∨ c = 0x2F)) :
    words (c :: s) = (c :: s.takeWhile (!attrEnd ·)) :: words (s.dropWhile (!attrEnd ·)) := by
  rw [words, if_neg hc]

theorem words_append {u v : List U8} (hv : Apart v) : words (u ++ v) = words u ++ words v := by
  induction u using words.induct with
  | case1 => simp [words]
  | case2 c s hc ih => rw [List.cons_append, words_skip hc, words_skip hc, ih]
  | case3 c s hc ih =>
    rw [List.cons_append, words_read hc, words_read hc, takeWhile_apart hv, dropWhile_apart hv, ih,
      List.cons_append]

theorem Held.refl (ha : a.used ≤ a.out.length) : Held a a := ⟨.refl ha, rfl⟩

theorem Held.back {b' : Arena} (h : Held a b) (hgrows : Grows b b') :
    Held a { b' with used := a.used } :=
  ⟨(h.1.trans hgrows).back (Nat.le_refl _) (h.1.trans hgrows).more, rfl⟩

theorem word_length (c : U8) (s : List U8) :
    (c :: s.takeWhile (!attrEnd ·)).length + (s.dropWhile (!attrEnd ·)).length = (c :: s).length := by
  have := congrArg List.length (List.takeWhile_append_dropWhile (p := (!attrEnd ·)) (l := s))
  rw [List.length_append] at this
  simp only [List.length_cons]
  omega

theorem drop_length_takeWhile (p : U8 → Bool) (v : List U8) :
    v.drop (v.takeWhile p).length = v.dropWhile p := by
  have hv := List.takeWhile_append_dropWhile (p := p) (l := v)
  conv =>
    lhs
    arg 2
    rw [← hv]
  exact List.drop_left

theorem Spans.after_word {c : U8} {s : List U8} (h : Spans src j till (c :: s)) :
    Spans src (j + (c :: s.takeWhile (!attrEnd ·)).length) till (s.dropWhile (!attrEnd ·)) := by
  have hdrop := h.drop (k := (c :: s.takeWhile (!attrEnd ·)).length) (by have := word_length c s; omega)
  rw [List.length_cons, List.drop_succ_cons] at hdrop
  rwa [drop_length_takeWhile] at hdrop

theorem passes {u v : List U8} (hv : Apart v) (h : Spans src j till (u ++ v)) (hb : Held a b)
    (hu : ∀ w ∈ words u, w.map lower ≠ name) :
    ∃ b', Turns (readAttrTurn src till name a.used) (j, b) (j + u.length, b') ∧ Held a b' := by
  induction u using words.induct generalizing j b with
  | case1 => exact ⟨b, .refl, hb⟩
  | case2 c s hc ih =>
    rw [words_skip hc] at hu
    have hnext := h.drop (k := 1) (by simp)
    obtain ⟨b', hturns, hb'⟩ := ih hnext hb hu
    refine ⟨b', .head (turn_skips h hc name a.used b) ?_, hb'⟩
    rwa [List.length_cons, Nat.add_comm s.length, ← Nat.add_assoc]
  | case3 c s hc ih =>
    rw [words_read hc] at hu
    rw [List.cons_append] at h
    have hnext := h.after_word
    obtain ⟨b', -, hgrows, hturn⟩ := turn_reads h hc hb.1.fits name a.used
    rw [takeWhile_apart hv] at hturn hnext
    rw [dropWhile_apart hv] at hnext
    rw [if_neg (hu _ List.mem_cons_self)] at hturn
    obtain ⟨b'', hturns, hb''⟩ := ih hnext (hb.back hgrows) fun w hw => hu w (List.mem_cons_of_mem _ hw)
    refine ⟨b'', .head hturn ?_, hb''⟩
    rwa [Nat.add_assoc, word_length] at hturns

theorem caught {u v : List U8} (hv : Apart v) (h : Spans src j till (u ++ v)) (hb : Held a b)
    (hu : ∃ w ∈ words u, w.map lower = name) :
    ∃ k b' r, k < u.length ∧ Turns (readAttrTurn src till name a.used) (j, b) (j + k, b') ∧
      readAttrTurn src till name a.used (j + k, b') = .ok (.leave r) := by
  induction u using words.induct generalizing j b with
  | case1 => simp [words] at hu
  | case2 c s hc ih =>
    rw [words_skip hc] at hu
    have hnext := h.drop (k := 1) (by simp)
    obtain ⟨k, b', r, hk, hturns, hleave⟩ := ih hnext hb hu
    refine ⟨1 + k, b', r, by rw [List.length_cons]; omega, ?_, ?_⟩
    · rw [← Nat.add_assoc]
      exact .head (turn_skips h hc name a.used b) hturns
    · rwa [← Nat.add_assoc]
  | case3 c s hc ih =>
    rw [words_read hc] at hu
    rw [List.cons_append] at h
    have hnext := h.after_word
    obtain ⟨b', -, hgrows, hturn⟩ := turn_reads h hc hb.1.fits name a.used
    rw [takeWhile_apart hv] at hturn hnext
    rw [dropWhile_apart hv] at hnext
    by_cases hw : (c :: s.takeWhile (!attrEnd ·)).map lower = name
    · rw [if_pos hw] at hturn
      exact ⟨0, b, _, by simp, .refl, hturn⟩
    · rw [if_neg hw] at hturn
      have hrest : ∃ w ∈ words (s.dropWhile (!attrEnd ·)), w.map lower = name := by
        obtain ⟨w, hmem, heq⟩ := hu
        rcases List.mem_cons.mp hmem with rfl | hmem
        · exact absurd heq hw
        · exact ⟨w, hmem, heq⟩
      obtain ⟨k, b'', r, hk, hturns, hleave⟩ := ih hnext (hb.back hgrows) hrest
      have hlen := word_length c s
      rw [Nat.add_assoc] at hturns hleave
      exact ⟨_, b'', r, by omega, .head hturn hturns, hleave⟩

theorem passes_gap {u v : List U8} (h : Spans src j till (u ++ v)) (hu : ∀ c ∈ u, attrEnd c)
    (mark : Nat) : Turns (readAttrTurn src till name mark) (j, b) (j + u.length, b) := by
  induction u generalizing j with
  | nil => exact .refl
  | cons c u ih =>
    have hstep := turn_skips h (.inl (hu c List.mem_cons_self)) name mark b
    have hrest := ih (h.drop (k := 1) (by simp)) fun d hd => hu d (List.mem_cons_of_mem _ hd)
    refine .head hstep ?_
    rwa [List.length_cons, Nat.add_comm u.length, ← Nat.add_assoc]

end Search

theorem attrEnd_of_isSpace {c : U8} (h : isSpace c) : attrEnd c := by simp [attrEnd, h]

section Attr
variable {x : Attr} {l r : List Attr} {name : List U8}

theorem Attr.gap_cons (x : Attr) : ∃ c s, x.gap = c :: s ∧ isSpace c := by
  obtain ⟨c, s, h⟩ := List.exists_cons_of_ne_nil x.gap_ne_nil
  exact ⟨c, s, h, x.gap_space c (by simp [h])⟩

theorem Attr.apart (x : Attr) (v : List U8) : Apart (x.text ++ v) := by
  obtain ⟨c, s, hgap, hc⟩ := x.gap_cons
  intro b hb
  rw [Attr.text, hgap] at hb
  obtain rfl : c = b := by simpa using hb
  exact attrEnd_of_isSpace hc

theorem TagEnd.apart_bytes (t : TagEnd) : Apart t.bytes :=
  fun b hb => attrEnd_of_isSpace (t.apart b hb)

theorem attrsText_apart (l : List Attr) {v : List U8} (hv : Apart v) : Apart (attrsText l ++ v) := by
  cases l with
  | nil => exact hv
  | cons x l =>
    rw [attrsText, List.flatMap_cons, List.append_assoc]
    exact x.apart _

theorem words_gap {u v : List U8} (hu : ∀ c ∈ u, attrEnd c) : words (u ++ v) = words v := by
  induction u with
  | nil => rfl
  | cons c u ih =>
    rw [List.cons_append, words_skip (.inl (hu c List.mem_cons_self))]
    exact ih fun d hd => hu d (List.mem_cons_of_mem _ hd)

theorem Attr.name_cons (x : Attr) : ∃ c s, x.name = c :: s ∧ ¬ (attrEnd c ∨ c = 0x2F) ∧
    ∀ d ∈ s, ¬ attrEnd d := by
  obtain ⟨c, s, h⟩ := List.exists_cons_of_ne_nil x.name_ne_nil
  have hplain := x.name_plain
  rw [h] at hplain
  refine ⟨c, s, h, ?_, ?_⟩
  · intro hc
    apply hplain c List.mem_cons_self
    rcases hc with hc | hc <;> simp [nameStop, hc]
  · intro d hd hend
    exact hplain d (List.mem_cons_of_mem _ hd) (by simp [nameStop, hend])

theorem takeWhile_name {s v : List U8} (hs : ∀ d ∈ s, ¬ attrEnd d) (hv : Apart v) :
    (s ++ v).takeWhile (!attrEnd ·) = s := by
  rw [takeWhile_apart hv, List.takeWhile_eq_self_iff]
  intro d hd
  simpa using hs d hd

theorem Attr.words_name (x : Attr) {v : List U8} (hv : Apart v) :
    words (x.name ++ v) = x.name :: words v := by
  obtain ⟨c, s, hname, hc, hs⟩ := x.name_cons
  have htake := takeWhile_name hs hv
  have hdrop : (s ++ v).dropWhile (!attrEnd ·) = v := by
    rw [dropWhile_apart hv, List.dropWhile_eq_nil_iff.mpr (by simpa using hs), List.nil_append]
  rw [hname, List.cons_append, words_read hc, htake, hdrop]

theorem apart_eq_sign (v : List U8) : Apart (0x3D :: v) := by
  intro b hb
  obtain rfl : (0x3D : U8) = b := by simpa using hb
  decide

theorem Attr.words_text (x : Attr) {v : List U8} (hv : Apart v) :
    words (x.text ++ v) = x.name :: (words x.written ++ words v) := by
  rw [Attr.text, List.append_assoc, List.append_assoc,
    words_gap fun c hc => attrEnd_of_isSpace (x.gap_space c hc), List.cons_append,
    x.words_name (apart_eq_sign _), words_skip (.inl (by decide)), words_append hv]

theorem mem_words_attrsText {w : List U8} (h : w ∈ words (attrsText l)) :
    ∃ x ∈ l, w = x.name ∨ w ∈ words x.written := by
  induction l with
  | nil => simp [attrsText, words] at h
  | cons x l ih =>
    have hv : Apart (attrsText l) := by
      have := attrsText_apart l (v := []) (fun _ hb => by simp at hb)
      rwa [List.append_nil] at this
    rw [attrsText, List.flatMap_cons, ← attrsText, x.words_text hv, List.mem_cons,
      List.mem_append] at h
    rcases h with h | h | h
    · exact ⟨x, List.mem_cons_self, .inl h⟩
    · exact ⟨x, List.mem_cons_self, .inr h⟩
    · obtain ⟨y, hy, hw⟩ := ih h
      exact ⟨y, List.mem_cons_of_mem _ hy, hw⟩

theorem attrsText_append (l r : List Attr) : attrsText (l ++ r) = attrsText l ++ attrsText r :=
  List.flatMap_append

end Attr

section Region
variable {g : Region} {x : Attr} {l r : List Attr} {name : List U8} {a : Arena}

theorem Region.spans (g : Region) :
    Spans g.src g.start g.till (attrsText g.attrs ++ g.tail.bytes) := by
  refine ⟨rfl, g.before, g.behind, ?_, rfl⟩
  rw [Region.src]
  simp only [List.append_assoc]

def Region.nameAt (g : Region) (l : List Attr) (x : Attr) : Nat :=
  g.start + (attrsText l).length + x.gap.length

def Silent (name : List U8) (l : List Attr) : Prop := ∀ x ∈ l, x.hasName name = false ∧ x.Quiet name

theorem Silent.words_ne (h : Silent name l) : ∀ w ∈ words (attrsText l), w.map lower ≠ name := by
  intro w hw
  obtain ⟨x, hx, rfl | hin⟩ := mem_words_attrsText hw
  · have := (h x hx).1
    simpa [Attr.hasName] using this
  · exact (h x hx).2 w hin

theorem Region.reaches (ha : a.used ≤ a.out.length) (hsplit : g.attrs = l ++ x :: r)
    (hl : Silent name l) :
    ∃ b, Turns (readAttrTurn g.src g.till name a.used) (g.start, a) (g.nameAt l x, b) ∧ Held a b ∧
      Spans g.src (g.nameAt l x) g.till
        (x.name ++ 0x3D :: (x.written ++ (attrsText r ++ g.tail.bytes))) := by
  have h := g.spans
  rw [hsplit, attrsText_append, List.append_assoc] at h
  have happ : attrsText (x :: r) ++ g.tail.bytes =
      x.gap ++ (x.name ++ 0x3D :: (x.written ++ (attrsText r ++ g.tail.bytes))) := by
    rw [attrsText, List.flatMap_cons, Attr.text]
    simp only [List.append_assoc, List.cons_append, attrsText]
  have hapart := attrsText_apart (x :: r) g.tail.apart_bytes
  obtain ⟨b, hturns, hb⟩ := passes hapart h (Held.refl ha) hl.words_ne
  have hgap := h.drop (k := (attrsText l).length) (by simp)
  rw [List.drop_left, happ] at hgap
  have hname := hgap.drop (k := x.gap.length) (by simp)
  rw [List.drop_left] at hname
  exact ⟨b, hturns.trans (passes_gap hgap (fun c hc => attrEnd_of_isSpace (x.gap_space c hc)) _), hb,
    hname⟩

theorem Region.reads_name {b : Arena} (hb : b.used ≤ b.out.length)
    (h : Spans g.src (g.nameAt l x) g.till
      (x.name ++ 0x3D :: (x.written ++ (attrsText r ++ g.tail.bytes)))) (name : List U8) (mark : Nat) :
    ∃ b', attrValue g.src (g.nameAt l x + x.name.length) g.till b = .ok b' ∧ Grows b b' ∧
      readAttrTurn g.src g.till name mark (g.nameAt l x, b) = .ok
        (if x.hasName name then .leave (b'.used - mark, b')
        else .again (g.nameAt l x + x.name.length, { b' with used := mark })) := by
  obtain ⟨c, s, hname, hc, hs⟩ := x.name_cons
  rw [hname, List.cons_append] at h
  obtain ⟨b', hval, hgrows, hturn⟩ := turn_reads h hc hb name mark
  rw [takeWhile_name hs (apart_eq_sign _), ← hname] at hval hturn
  refine ⟨b', hval, hgrows, ?_⟩
  rw [hturn]
  simp [Attr.hasName]

/-! ### The value behind a name -/

theorem isSpace_of_isQuote {q : U8} (h : isQuote q) : isSpace q = false := by
  revert h q
  decide

theorem attrValue_quoted {src more : List U8} {j till : Nat} {b : Arena} {q : U8}
    (hq : x.quote = some q) (h : Spans src j till (0x3D :: (x.written ++ more)))
    (hb : b.used ≤ b.out.length) :
    Yields (attrValue src j till b) (Appends b (copied (room b) x.value)) := by
  have hwritten : x.written = q :: (x.value ++ [q]) := by simp only [Attr.written, hq]
  have hquote := x.quote_is q hq
  have hplain := x.value_plain
  rw [hq] at hplain
  have hspace := isSpace_of_isQuote hquote
  rw [hwritten, List.cons_append, List.append_assoc] at h
  have hat := h.drop (k := 1) (by simp)
  have hval := hat.drop (k := 1) (by simp)
  simp only [List.drop_succ_cons, List.drop_zero] at hat hval
  have hlen := h.1
  simp only [List.length_cons, List.length_append] at hlen
  have hstop : (x.value ++ ([q] ++ more)).takeWhile (fun c => !decide (c = q)) = x.value := by
    rw [List.takeWhile_append_of_pos]
    · simp
    · intro c hc
      simpa using (hplain c hc).1
  have hheld : Spans src (j + 2) (j + 2 + x.value.length) x.value := by
    obtain ⟨-, pre, post, hsrc, hpre⟩ := hval
    exact ⟨rfl, pre, [q] ++ more ++ post, by rw [hsrc]; simp only [List.append_assoc], hpre⟩
  have hscan := scanTo_finds h (fun c => !isSpace c)
  have hscan' := scanTo_finds hat (fun c => !isSpace c)
  have hscan'' := scanTo_finds hval (fun c => c = q)
  rw [List.takeWhile_cons, if_neg (by decide), List.length_nil, Nat.add_zero] at hscan
  rw [List.takeWhile_cons, if_neg (by simp [hspace]), List.length_nil, Nat.add_zero] at hscan'
  rw [hstop] at hscan''
  have hload : src[j]? = some 0x3D := h.getElem? (k := 0) (by simp)
  have hload' : src[j + 1]? = some q := hat.getElem? (k := 0) (by simp)
  rw [attrValue, hscan]
  change Yields (if j < till then _ else _) _
  rw [if_pos (by omega), load_eq hload]
  change Yields (do
    let k ← scanTo src till (fun c => !isSpace c) (j + 1)
    if k < till then do
      let v ← valueBounds src k till
      copyValue src v.1 v.2 b
    else pure b) _
  rw [hscan']
  change Yields (if j + 1 < till then _ else _) _
  rw [if_pos (by omega), valueBounds, load_eq hload']
  change Yields (do
    let v ← (if q = 0x22 ∨ q = 0x27 then do
      let v ← scanTo src till (fun c => c = q) (j + 1 + 1)
      pure (j + 1 + 1, v)
    else do
      let v ← scanTo src till rawNameEnd (j + 1)
      pure (v, v) : Prog (Nat × Nat))
    copyValue src v.1 v.2 b) _
  rw [if_pos (by simpa [isQuote] using hquote), hscan'']
  exact copyValue_appends hheld hb

def Unquoted (v : List U8) : Prop := ∀ d, (v.dropWhile isSpace).head? = some d → ¬ isQuote d

theorem unquoted_behind (r : List Attr) (t : TagEnd) : Unquoted (attrsText r ++ t.bytes) := by
  intro d hd
  cases r with
  | nil =>
    have hmem : d ∈ t.bytes := (List.dropWhile_sublist isSpace).subset (List.mem_of_head? hd)
    intro hquote
    rcases t.plain d hmem with h | rfl
    · rw [isSpace_of_isQuote hquote] at h
      cases h
    · exact absurd hquote (by decide)
  | cons y r =>
    obtain ⟨c, s, hname, -, -⟩ := y.name_cons
    have hc : ¬ nameStop c := y.name_plain c (by simp [hname])
    have hspace : isSpace c = false := by
      rw [← Bool.not_eq_true]
      exact fun h => hc (by simp [nameStop, attrEnd_of_isSpace h])
    rw [attrsText, List.flatMap_cons, Attr.text, hname] at hd
    simp only [List.append_assoc, List.cons_append] at hd
    rw [List.dropWhile_append_of_pos y.gap_space, List.dropWhile_cons, if_neg (by simp [hspace])] at hd
    obtain rfl : c = d := by simpa using hd
    exact fun h => hc (by simp [nameStop, h])

theorem unquoted_value (hq : x.quote = none) {more : List U8} (hmore : Unquoted more) :
    Unquoted (x.value ++ more) := by
  have hplain := x.value_plain
  rw [hq] at hplain
  cases hv : x.value with
  | nil => exact hmore
  | cons c s =>
    obtain ⟨hspace, hquote, -⟩ := hplain c (by simp [hv])
    intro d hd
    rw [List.cons_append, List.dropWhile_cons, if_neg hspace] at hd
    obtain rfl : c = d := by simpa using hd
    exact hquote

theorem copyValue_empty (src : List U8) (p : Nat) (b : Arena) : copyValue src p p b = .ok b := by
  rw [copyValue, Nat.sub_self, Nat.zero_add, loop, if_neg (Nat.lt_irrefl p)]
  rfl

theorem attrValue_unquoted {src more : List U8} {j till : Nat} {b : Arena} (hq : x.quote = none)
    (h : Spans src j till (0x3D :: (x.written ++ more))) (hmore : Unquoted more) :
    attrValue src j till b = .ok b := by
  have hwritten : x.written = x.value := by simp only [Attr.written, hq]
  rw [hwritten] at h
  have hat := h.drop (k := 1) (by simp)
  rw [List.drop_succ_cons, List.drop_zero] at hat
  have hlen := h.1
  rw [List.length_cons] at hlen
  have hscan := scanTo_finds h (fun c => !isSpace c)
  have hscan' := scanTo_finds hat (fun c => !isSpace c)
  rw [List.takeWhile_cons, if_neg (by decide), List.length_nil, Nat.add_zero] at hscan
  have hload : src[j]? = some 0x3D := h.getElem? (k := 0) (by simp)
  rw [attrValue, hscan]
  change (if j < till then _ else _) = _
  rw [if_pos (by omega), load_eq hload]
  change (do
    let k ← scanTo src till (fun c => !isSpace c) (j + 1)
    if k < till then do
      let v ← valueBounds src k till
      copyValue src v.1 v.2 b
    else pure b) = _
  rw [hscan']
  have hunq := unquoted_value hq hmore
  generalize x.value ++ more = v at hat hunq hlen hscan' ⊢
  have hrest := hat.drop (k := (v.takeWhile isSpace).length) (List.takeWhile_prefix _).length_le
  rw [drop_length_takeWhile] at hrest
  simp only [Bool.not_not]
  change (if j + 1 + (v.takeWhile isSpace).length < till then _ else _) = _
  split
  · rename_i hlt
    have hlt' := hrest.1
    cases hd : v.dropWhile isSpace with
    | nil =>
      rw [hd, List.length_nil] at hlt'
      omega
    | cons d t =>
      rw [hd] at hrest
      have hquote := hunq d (by rw [hd]; rfl)
      have hload' : src[j + 1 + (v.takeWhile isSpace).length]? = some d :=
        hrest.getElem? (k := 0) (by simp)
      rw [valueBounds, load_eq hload']
      change (do
        let v ← (if d = 0x22 ∨ d = 0x27 then do
          let w ← scanTo src till (fun c => c = d) (j + 1 + (v.takeWhile isSpace).length + 1)
          pure (j + 1 + (v.takeWhile isSpace).length + 1, w)
        else do
          let w ← scanTo src till rawNameEnd (j + 1 + (v.takeWhile isSpace).length)
          pure (w, w) : Prog (Nat × Nat))
        copyValue src v.1 v.2 b) = _
      rw [if_neg (by simpa [isQuote] using hquote), scanTo_finds hrest]
      change copyValue src _ _ b = _
      exact copyValue_empty src _ b
  · rfl

def Region.LeavesAt (g : Region) (name : List U8) (a : Arena) (j : Nat) (res : Nat × Arena) : Prop :=
  ∃ b, Turns (readAttrTurn g.src g.till name a.used) (g.start, a) (j, b) ∧
    readAttrTurn g.src g.till name a.used (j, b) = .ok (.leave res)

def Reports (a : Arena) (bytes : List U8) (res : Nat × Arena) : Prop :=
  res.1 = bytes.length ∧ Appends a bytes res.2

theorem Reports.unique {u v : List U8} {res : Nat × Arena} (h : Reports a u res)
    (h' : Reports a v res) : u = v :=
  List.append_cancel_left (h.2.2.1.symm.trans h'.2.2.1)

theorem Region.reads_iff (ha : a.used ≤ a.out.length) {j : Nat} {res : Nat × Arena}
    (h : g.LeavesAt name a j res) :
    g.ReadsAttr name a ↔ Reports a (expected g.attrs name (room a)) res ∧ (j < g.till → g.IsName j) := by
  obtain ⟨b, hturns, hleave⟩ := h
  have hrun : Yields (readAttr g.src g.start g.till name a) _ := readAttr_yields g.spans.le ha
  obtain ⟨out, hout, -⟩ := hrun
  obtain ⟨t, ht, hbody⟩ := turns_of_loop hout
  have hres : res = out := by
    obtain rfl := ht.leaves_once hbody hturns hleave
    rw [hbody] at hleave
    injection hleave with hleave
    injection hleave with hleave
    exact hleave.symm
  subst hres
  constructor
  · intro hreads
    refine ⟨hreads.output.of_eq hout, fun hlt => hreads.inside j ⟨b, res, hturns, hlt, hleave⟩⟩
  · rintro ⟨hreports, hname⟩
    refine ⟨⟨res, hout, hreports⟩, ?_⟩
    rintro j' ⟨b', res', hturns', hlt, hleave'⟩
    obtain ⟨rfl, -⟩ := Prod.mk.inj (hturns.leaves_once hleave hturns' hleave')
    exact hname hlt

theorem Held.reports {b b' : Arena} {bytes : List U8} (hb : Held a b)
    (h : Appends b bytes b') : Reports a bytes (b'.used - a.used, b') := by
  have htake : b.out.take a.used = a.out.take a.used := by
    apply List.ext_getElem?
    intro k
    rcases Nat.lt_or_ge k a.used with hk | hk
    · rw [List.getElem?_take_of_lt hk, List.getElem?_take_of_lt hk, hb.1.kept k hk]
    · rw [List.getElem?_take_eq_none hk, List.getElem?_take_eq_none hk]
  refine ⟨?_, ?_, ?_, h.2.2.trans hb.1.size⟩
  · rw [h.1, hb.2, Nat.add_sub_cancel_left]
  · rw [h.1, hb.2]
  · rw [h.2.1, hb.2, htake]

theorem Held.room_eq {b : Arena} (hb : Held a b) : room b = room a := by
  rw [room, room, hb.2, hb.1.size]

theorem Region.leaves_at_name (ha : a.used ≤ a.out.length) (hsplit : g.attrs = l ++ x :: r)
    (hl : Silent name l) (hx : x.hasName name) :
    ∃ res, g.LeavesAt name a (g.nameAt l x) res ∧
      Reports a (if x.quote = none then [] else copied (room a) x.value) res := by
  obtain ⟨b, hturns, hb, hspans⟩ := g.reaches ha hsplit hl
  obtain ⟨b', hval, -, hturn⟩ := g.reads_name hb.1.fits hspans name a.used
  rw [if_pos hx] at hturn
  refine ⟨_, ⟨b, hturns, hturn⟩, hb.reports ?_⟩
  have hat := hspans.drop (k := x.name.length) (by simp)
  rw [List.drop_left] at hat
  cases hq : x.quote with
  | none =>
    rw [attrValue_unquoted hq hat (unquoted_behind r g.tail)] at hval
    obtain rfl := Except.ok.inj hval
    exact .refl b
  | some q =>
    rw [if_neg (by simp), ← hb.room_eq]
    exact (attrValue_quoted hq hat hb.1.fits).of_eq hval

theorem Region.leaves_at_end (ha : a.used ≤ a.out.length) (hl : Silent name g.attrs) :
    ∃ res, g.LeavesAt name a g.till res ∧ Reports a [] res := by
  have h := g.spans
  obtain ⟨b, hturns, hb⟩ := passes g.tail.apart_bytes h (Held.refl ha) hl.words_ne
  have htail := h.drop (k := (attrsText g.attrs).length) (by simp)
  rw [List.drop_left] at htail
  have hwords : words g.tail.bytes = [] := by
    have hplain := g.tail.plain
    generalize g.tail.bytes = t at hplain
    induction t with
    | nil => rw [words]
    | cons c t ih =>
      have hc : attrEnd c ∨ c = 0x2F := by
        rcases hplain c List.mem_cons_self with hc | hc
        · exact .inl (attrEnd_of_isSpace hc)
        · exact .inr hc
      rw [words_skip hc]
      exact ih fun d hd => hplain d (List.mem_cons_of_mem _ hd)
  rw [← List.append_nil g.tail.bytes] at htail
  have hquiet : ∀ w ∈ words g.tail.bytes, w.map lower ≠ name := by simp [hwords]
  obtain ⟨b', hturns', hb'⟩ := passes (fun _ hc => by simp at hc) htail hb hquiet
  have hend : g.start + (attrsText g.attrs).length + g.tail.bytes.length = g.till := by
    rw [Region.till, List.length_append, Nat.add_assoc]
  rw [hend] at hturns'
  refine ⟨(0, { b' with used := a.used }), ⟨b', hturns.trans hturns', ?_⟩, ?_⟩
  · rw [readAttrTurn, if_neg (Nat.lt_irrefl _)]
    rfl
  · have hreports := hb'.reports (.refl b')
    rw [hb'.2, Nat.sub_self] at hreports
    rw [← hb'.2]
    exact hreports

theorem Region.leaves_inside (ha : a.used ≤ a.out.length) (hsplit : g.attrs = l ++ x :: r)
    (hl : Silent name l) (hx : x.hasName name = false) (hloud : ¬ x.Quiet name) :
    ∃ k res, g.LeavesAt name a (g.nameAt l x + x.name.length + 1 + k) res ∧ k < x.written.length := by
  obtain ⟨b, hturns, hb, hspans⟩ := g.reaches ha hsplit hl
  obtain ⟨b', -, hgrows, hturn⟩ := g.reads_name hb.1.fits hspans name a.used
  rw [if_neg (by simp [hx])] at hturn
  have hat := hspans.drop (k := x.name.length) (by simp)
  rw [List.drop_left] at hat
  have hskip := turn_skips hat (.inl (by decide)) name a.used { b' with used := a.used }
  have hval := hat.drop (k := 1) (by simp)
  rw [List.drop_succ_cons, List.drop_zero] at hval
  have hword : ∃ w ∈ words x.written, w.map lower = name := by
    rw [Attr.Quiet] at hloud
    push Not at hloud
    exact hloud
  obtain ⟨k, b'', res, hk, hturns', hleave⟩ :=
    caught (attrsText_apart r g.tail.apart_bytes) hval (hb.back hgrows) hword
  exact ⟨k, res, ⟨b'', ((hturns.tail hturn).tail hskip).trans hturns', hleave⟩, hk⟩

/-! ### When the first attribute is read -/

theorem attrsText_cons (x : Attr) (l : List Attr) : attrsText (x :: l) = x.text ++ attrsText l := rfl

theorem Attr.text_length (x : Attr) :
    x.text.length = x.gap.length + x.name.length + (x.written.length + 1) := by
  rw [Attr.text, List.length_append, List.length_append, List.length_cons]

theorem Region.not_isName (hsplit : g.attrs = l ++ x :: r) {k : Nat} (hk : k < x.written.length) :
    ¬ g.IsName (g.nameAt l x + x.name.length + 1 + k) := by
  rintro ⟨l', x', r', hsplit', hj⟩
  rw [Region.nameAt] at hj
  have htext := x.text_length
  have htext' := x'.text_length
  have hname := List.length_pos_iff.mpr x'.name_ne_nil
  rcases List.append_eq_append_iff.mp (hsplit.symm.trans hsplit') with ⟨m, rfl, hm⟩ | ⟨m, rfl, hm⟩
  · cases m with
    | nil =>
      obtain ⟨rfl, -⟩ := List.cons.inj hm
      rw [List.append_nil] at hj
      omega
    | cons y m =>
      obtain ⟨rfl, -⟩ := List.cons.inj hm
      rw [attrsText_append, attrsText_cons, List.length_append, List.length_append] at hj
      omega
  · cases m with
    | nil =>
      obtain ⟨rfl, -⟩ := List.cons.inj hm
      rw [List.append_nil] at hj
      omega
    | cons y m =>
      obtain ⟨rfl, -⟩ := List.cons.inj hm
      rw [attrsText_append, attrsText_cons, List.length_append, List.length_append] at hj
      omega

theorem Region.lt_till (hsplit : g.attrs = l ++ x :: r) {k : Nat} (hk : k < x.written.length) :
    g.nameAt l x + x.name.length + 1 + k < g.till := by
  have htext := x.text_length
  rw [Region.nameAt, Region.till, hsplit, attrsText_append, attrsText_cons]
  simp only [List.length_append]
  omega

theorem pieces_eq_nil {v : List U8} (h : decoded v = []) : v = [] := by
  cases v with
  | nil => rfl
  | cons c s =>
    rw [decoded, List.flatten_eq_nil_iff] at h
    cases hent : entityOf (c :: s) with
    | none =>
      rw [pieces_byte hent] at h
      exact absurd (h _ List.mem_cons_self) (List.cons_ne_nil c [])
    | some e =>
      obtain ⟨n, bytes⟩ := e
      obtain ⟨_, cp, -, rfl⟩ := entityOf_bytes hent
      rw [pieces_entity hent] at h
      have := encode_length_pos cp
      rw [h _ List.mem_cons_self] at this
      exact absurd this (Nat.lt_irrefl 0)

theorem found_eq_iff (x : Attr) (n : Nat) :
    (if x.quote = none then [] else copied n x.value) = (decoded x.value).take n ↔
      (x.quote ≠ none ∨ x.value = [] ∨ n = 0) ∧ ¬ Straddles n (pieces x.value) := by
  by_cases hq : x.quote = none
  · rw [if_pos hq]
    constructor
    · intro h
      have hor : x.value = [] ∨ n = 0 := by
        rcases List.take_eq_nil_iff.mp h.symm with hn | hd
        · exact .inr hn
        · exact .inl (pieces_eq_nil hd)
      refine ⟨.inr hor, ?_⟩
      rcases hor with hv | rfl
      · rw [hv, ← copied_eq_iff]
        simp [copied, decoded, pieces]
      · exact not_straddles_zero _
    · rintro ⟨hne | hv | rfl, -⟩
      · exact absurd hq hne
      · simp [hv, decoded, pieces]
      · rw [List.take_zero]
  · rw [if_neg hq, copied_eq_iff]
    exact ⟨fun h => ⟨.inl hq, h⟩, fun h => h.2⟩

theorem silent_or_first (name : List U8) (attrs : List Attr) :
    Silent name attrs ∨ ∃ l x r, attrs = l ++ x :: r ∧ Silent name l ∧
      (x.hasName name = true ∨ x.hasName name = false ∧ ¬ x.Quiet name) := by
  induction attrs with
  | nil => exact .inl fun x hx => by simp at hx
  | cons y attrs ih =>
    by_cases hy : y.hasName name = true
    · exact .inr ⟨[], y, attrs, rfl, fun x hx => by simp at hx, .inl hy⟩
    · have hy' := Bool.eq_false_iff.mpr hy
      by_cases hquiet : y.Quiet name
      · have hcons {l : List Attr} (hl : Silent name l) : Silent name (y :: l) := by
          intro x hx
          rcases List.mem_cons.mp hx with rfl | hx
          · exact ⟨hy', hquiet⟩
          · exact hl x hx
        rcases ih with h | ⟨l, x, r, rfl, hl, hx⟩
        · exact .inl (hcons h)
        · exact .inr ⟨y :: l, x, r, rfl, hcons hl, hx⟩
      · exact .inr ⟨[], y, attrs, rfl, fun x hx => by simp at hx, .inr ⟨hy', hquiet⟩⟩

theorem Silent.find?_append (h : Silent name l) (r : List Attr) :
    (l ++ r).find? (Attr.hasName name) = r.find? (Attr.hasName name) := by
  rw [List.find?_append, List.find?_eq_none.mpr fun x hx => by simp [(h x hx).1]]
  rfl

theorem Silent.takeWhile_append (h : Silent name l) (r : List Attr) :
    (l ++ r).takeWhile (!Attr.hasName name ·) = l ++ r.takeWhile (!Attr.hasName name ·) :=
  List.takeWhile_append_of_pos fun x hx => by simp [(h x hx).1]

/-- `read_attr` reads the first attribute with the name, and takes no other text for it, if and
only if no value before has the name as a word, the attribute's own value is in quotes (or there
is nothing to copy), and the arena does not end inside of an entity. -/
theorem readsAttr_iff (g : Region) (name : List U8) (a : Arena) (ha : a.used ≤ a.out.length) :
    g.ReadsAttr name a ↔ Readable g.attrs name (room a) := by
  rcases silent_or_first name g.attrs with h | ⟨l, x, r, hsplit, hl, hx | ⟨hx, hloud⟩⟩
  · obtain ⟨res, hleaves, hreports⟩ := g.leaves_at_end ha h
    have hfind := h.find?_append []
    have htake := h.takeWhile_append []
    rw [List.append_nil] at hfind htake
    rw [Region.reads_iff ha hleaves, expected, Readable, hfind, htake]
    refine iff_of_true ⟨hreports, fun hlt => absurd hlt (Nat.lt_irrefl _)⟩ ⟨?_, ?_⟩
    · simpa using fun y hy => (h y hy).2
    · simp
  · obtain ⟨res, hleaves, hreports⟩ := g.leaves_at_name ha hsplit hl hx
    have hfind := hl.find?_append (x :: r)
    have htake := hl.takeWhile_append (x :: r)
    rw [List.find?_cons_of_pos hx] at hfind
    rw [List.takeWhile_cons, if_neg (by simp [hx]), List.append_nil] at htake
    rw [Region.reads_iff ha hleaves, Readable, expected, hsplit, hfind, htake]
    constructor
    · rintro ⟨hexpected, -⟩
      refine ⟨fun y hy => (hl y hy).2, ?_⟩
      intro y hy
      obtain rfl := Option.some.inj hy
      exact (found_eq_iff x (room a)).mp (hreports.unique hexpected)
    · rintro ⟨-, hcond⟩
      refine ⟨?_, fun _ => ⟨l, x, r, hsplit, rfl⟩⟩
      rwa [(found_eq_iff x (room a)).mpr (hcond x rfl)] at hreports
  · obtain ⟨k, res, hleaves, hk⟩ := g.leaves_inside ha hsplit hl hx hloud
    have htake := hl.takeWhile_append (x :: r)
    rw [List.takeWhile_cons, if_pos (by simp [hx])] at htake
    rw [Region.reads_iff ha hleaves]
    refine iff_of_false ?_ ?_
    · rintro ⟨-, hname⟩
      exact g.not_isName hsplit hk (hname (g.lt_till hsplit hk))
    · intro h
      apply hloud
      apply h.1 x
      rw [hsplit, htake]
      simp

end Region

def noQuotes : Attr where
  gap := [0x20]
  name := ascii "href"
  quote := none
  value := ascii "/x.html"
  gap_space := by decide
  gap_ne_nil := by decide
  name_ne_nil := by decide
  name_plain := by decide
  quote_is := by simp
  value_plain := by decide

def inQuotes : Attr where
  gap := [0x20]
  name := ascii "href"
  quote := some 0x22
  value := ascii "/x.html"
  gap_space := by decide
  gap_ne_nil := by decide
  name_ne_nil := by decide
  name_plain := by decide
  quote_is := by simp [isQuote]
  value_plain := by decide

def noTail : TagEnd := ⟨[], by simp, by simp⟩

def alone (x : Attr) : Region := ⟨[], [x], noTail, [0x3E]⟩

def emptyArena : Arena := ⟨List.replicate 16 0, 0⟩

theorem readsAttr_iff_quoted :
    (alone inQuotes).ReadsAttr (ascii "href") emptyArena ↔
      Readable [inQuotes] (ascii "href") (room emptyArena) :=
  readsAttr_iff (alone inQuotes) (ascii "href") emptyArena (by decide)

theorem not_readsAttr_unquoted :
    ¬ ∀ (g : Region) (name : List U8) (a : Arena), a.used ≤ a.out.length → g.ReadsAttr name a := by
  intro h
  have hrun : readAttr (alone noQuotes).src (alone noQuotes).start (alone noQuotes).till
      (ascii "href") emptyArena = .ok (0, emptyArena) := by rfl
  have hlen := ((h (alone noQuotes) (ascii "href") emptyArena (by decide)).output.of_eq hrun).1
  have hfind : [noQuotes].find? (Attr.hasName (ascii "href")) = some noQuotes := by rfl
  have hnil := List.eq_nil_of_length_eq_zero hlen.symm
  rw [expected, alone, hfind] at hnil
  rcases List.take_eq_nil_iff.mp hnil with hroom | hvalue
  · exact absurd hroom (by decide)
  · exact absurd (pieces_eq_nil hvalue) (by decide)

end Ezos.Html
