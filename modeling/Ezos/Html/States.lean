import Ezos.Html.Scanners

/-!
# What the main loop does to the state

The pieces that check their own bounds never stop: each is a function of the state. The stack of
open tags is read as a list of elements, the innermost first.
-/

namespace Ezos.Html

open Lib Lib.Checked

set_option autoImplicit false

def emitted (h : HP) (n : HtmlNode) : HP :=
  if h.ncount ≥ h.nodes.length then { h with truncated := true }
  else { h with nodes := h.nodes.set h.ncount n, ncount := h.ncount + 1 }

theorem emit_eq (h : HP) (kind tag level : U8) (off len : Nat) (hrefOff : U16) :
    emit h kind tag level off len hrefOff = .ok (emitted h
      ⟨BitVec.ofNat 16 off, BitVec.ofNat 16 len, hrefOff, kind, tag, h.style, level⟩) := by
  rw [emit, emitted]
  by_cases hfull : h.ncount ≥ h.nodes.length
  · rw [if_pos hfull, if_pos hfull]
    rfl
  · rw [if_neg hfull, if_neg hfull, store, if_pos (by omega)]
    rfl

def pending (h : HP) : HtmlNode :=
  ⟨BitVec.ofNat 16 h.runStart, BitVec.ofNat 16 (h.text.used - h.runStart), h.hrefOff, nodeText,
    tOther, h.style, 0⟩

def flushed (h : HP) : HP :=
  if h.text.used > h.runStart then { emitted h (pending h) with runStart := h.text.used }
  else { h with runStart := h.text.used }

theorem emitted_cases (h : HP) (n : HtmlNode) :
    (h.nodes.length ≤ h.ncount ∧ emitted h n = { h with truncated := true }) ∨
    (h.ncount < h.nodes.length ∧
      emitted h n = { h with nodes := h.nodes.set h.ncount n, ncount := h.ncount + 1 }) := by
  by_cases hfull : h.ncount ≥ h.nodes.length
  · exact .inl ⟨hfull, if_pos hfull⟩
  · exact .inr ⟨Nat.lt_of_not_ge hfull, if_neg hfull⟩

theorem emitted_text (h : HP) (n : HtmlNode) : (emitted h n).text = h.text := by
  rcases emitted_cases h n with ⟨-, he⟩ | ⟨-, he⟩ <;> rw [he]

theorem emitted_i (h : HP) (n : HtmlNode) : (emitted h n).i = h.i := by
  rcases emitted_cases h n with ⟨-, he⟩ | ⟨-, he⟩ <;> rw [he]

theorem flushed_i (h : HP) : (flushed h).i = h.i := by
  unfold flushed
  split
  · exact emitted_i h (pending h)
  · rfl

theorem flushed_runStart (h : HP) : (flushed h).runStart = (flushed h).text.used := by
  unfold flushed
  split
  · change h.text.used = (emitted h (pending h)).text.used
    rw [emitted_text]
  · rfl

theorem flush_eq (h : HP) : flush h = .ok (flushed h) := by
  rw [flush, flushed]
  by_cases hrun : h.text.used > h.runStart
  · rw [if_pos hrun, if_pos hrun, emit_eq]
    change Except.ok { emitted h (pending h) with runStart := (emitted h (pending h)).text.used } = _
    rw [emitted_text]
  · rw [if_neg hrun, if_neg hrun]
    rfl

theorem hrefAdd_yields (h : HP) (off len : Nat) :
    Yields (hrefAdd h off len) fun x =>
      ((len = 0 ∨ len > 1024) ∧ x = (0, h)) ∨
      (off + len ≥ h.href.out.length ∧ x = (0, { h with truncated := true })) ∨
      (0 < len ∧ len ≤ 1024 ∧ off + len < h.href.out.length ∧
        x = (BitVec.ofNat 16 (off + len + 1),
          { h with
            href := ⟨h.href.out.set (off + len) 0, off + len + 1⟩, links := h.links + 1 })) := by
  refine yields_ite ?_ ?_
  · intro hlen
    exact yields_pure (.inl ⟨hlen, rfl⟩)
  intro hlen
  refine yields_ite ?_ ?_
  · intro hfull
    exact yields_pure (.inr (.inl ⟨hfull, rfl⟩))
  intro hroom
  refine (yields_store (Nat.lt_of_not_ge hroom)).bind ?_
  rintro _ rfl
  exact yields_pure (.inr (.inr ⟨by omega, by omega, Nat.lt_of_not_ge hroom, rfl⟩))

structure Elem where
  tag : U8
  style : U8
  hrefOff : U16
  pre : U32

structure Holds (st : List U8) (k : Nat) (e : Elem) : Prop where
  tag : st[k * stBytes]? = some e.tag
  style : st[k * stBytes + 1]? = some e.style
  lo : st[k * stBytes + 2]? = some (e.hrefOff.setWidth 8)
  hi : st[k * stBytes + 3]? = some ((e.hrefOff >>> 8).setWidth 8)
  pre : st[k * stBytes + 4]? = some (e.pre.setWidth 8)

def Stacked (st : List U8) : List Elem → Prop
  | [] => True
  | e :: es => Holds st es.length e ∧ Stacked st es

theorem Holds.congr {st st' : List U8} {k n : Nat} {e : Elem} (h : Holds st k e) (hk : k < n)
    (hst : ∀ i, i < n * stBytes → st'[i]? = st[i]?) : Holds st' k e := by
  have hle : k * stBytes + stBytes ≤ n * stBytes := by
    rw [← Nat.succ_mul]
    exact Nat.mul_le_mul_right stBytes hk
  have h5 : stBytes = 5 := rfl
  exact ⟨(hst _ (by omega)).trans h.tag, (hst _ (by omega)).trans h.style,
    (hst _ (by omega)).trans h.lo, (hst _ (by omega)).trans h.hi, (hst _ (by omega)).trans h.pre⟩

theorem Stacked.congr {st st' : List U8} {es : List Elem} {n : Nat} (h : Stacked st es)
    (hn : es.length ≤ n) (hst : ∀ i, i < n * stBytes → st'[i]? = st[i]?) : Stacked st' es := by
  induction es with
  | nil => trivial
  | cons e es ih =>
    rw [List.length_cons] at hn
    exact ⟨h.1.congr (by omega) hst, ih h.2 (by omega)⟩

def current (h : HP) (tag : U8) : Elem := ⟨tag, h.style, h.hrefOff, h.pre⟩

theorem push_yields {h : HP} (tag : U8) :
    Yields (push h tag) fun h' =>
      (h.st.length < (h.sp + 1) * stBytes ∧ h' = { h with truncated := true }) ∨
      ∃ st, h' = { h with st := st, sp := h.sp + 1 } ∧ (h.sp + 1) * stBytes ≤ st.length ∧
        st.length = h.st.length ∧ Holds st h.sp (current h tag) ∧
        ∀ i, i < h.sp * stBytes → st[i]? = h.st[i]? := by
  refine yields_ite ?_ ?_
  · intro hfull
    exact yields_pure (.inl ⟨hfull, rfl⟩)
  intro hroom
  have hroom' : h.sp * stBytes + 5 ≤ h.st.length := by
    rw [Nat.succ_mul] at hroom
    exact Nat.le_of_not_lt hroom
  refine (yields_storeAll hroom').bind ?_
  rintro st ⟨hlen, hkept, hstored⟩
  refine yields_pure (.inr ⟨st, rfl, ?_, hlen, ?_, ?_⟩)
  · rw [hlen]
    exact Nat.le_of_not_lt hroom
  · exact ⟨hstored 0 (by simp), hstored 1 (by simp), hstored 2 (by simp), hstored 3 (by simp),
      hstored 4 (by simp)⟩
  · intro i hi
    exact hkept i (.inl hi)

/-- What `pop_to` finds: the innermost element with the tag and those around it. -/
def popped (tag : U8) : List Elem → Option (Elem × List Elem)
  | [] => none
  | e :: es => if e.tag = tag then some (e, es) else popped tag es

theorem offset_of_bytes (x : U16) :
    (x.setWidth 8).setWidth 16 ||| (((x >>> 8).setWidth 8).setWidth 16 <<< 8) = x := by
  apply BitVec.eq_of_getLsbD_eq
  intro i hi
  simp only [BitVec.getLsbD_or, BitVec.getLsbD_setWidth, BitVec.getLsbD_shiftLeft,
    BitVec.getLsbD_ushiftRight]
  by_cases h8 : i < 8
  · simp [h8, hi]
  · have hback : 8 + (i - 8) = i := by omega
    have hlow : i - 8 < 8 := by omega
    have hwide : i - 8 < 16 := by omega
    simp [h8, hi, hback, hlow, hwide]

def restored (h : HP) : Option (Elem × List Elem) → HP
  | none => { h with sp := 0, style := 0, hrefOff := 0, pre := 0 }
  | some (e, es) =>
    { h with
      style := e.style, hrefOff := e.hrefOff, pre := (e.pre.setWidth 8).setWidth 32,
      sp := es.length }

theorem popTo_eq {h : HP} {tag : U8} {es : List Elem} (hst : Stacked h.st es) :
    popTo h tag es.length = .ok (restored h (popped tag es)) := by
  induction es with
  | nil => rfl
  | cons e es ih =>
    obtain ⟨he, hes⟩ := hst
    rw [List.length_cons, popTo, load_eq he.tag, load_eq he.style, load_eq he.lo, load_eq he.hi,
      load_eq he.pre]
    change (if e.tag = tag then _ else _) = _
    rw [popped]
    by_cases htag : e.tag = tag
    · rw [if_pos htag, if_pos htag, offset_of_bytes]
      rfl
    · rw [if_neg htag, if_neg htag]
      exact ih hes

theorem popped_length {tag : U8} {es : List Elem} {r : Elem × List Elem}
    (h : popped tag es = some r) : r.2.length < es.length := by
  induction es with
  | nil => cases h
  | cons e es ih =>
    rw [popped] at h
    rw [List.length_cons]
    split at h
    · obtain rfl := Option.some.inj h
      exact Nat.lt_succ_self _
    · exact Nat.lt_succ_of_lt (ih h)

theorem popped_stacked {st : List U8} {tag : U8} {es : List Elem} {r : Elem × List Elem}
    (hst : Stacked st es) (h : popped tag es = some r) : Stacked st r.2 := by
  induction es with
  | nil => cases h
  | cons e' es ih =>
    rw [popped] at h
    split at h
    · obtain rfl := Option.some.inj h
      exact hst.2
    · exact ih hst.2 h

end Ezos.Html
