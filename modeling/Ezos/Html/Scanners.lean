import Ezos.Html.Parse

/-!
# What the scanners read and write

Every scanner ends, reads the page only in front of its bound, and fills an arena without
touching what is in use.
-/

namespace Ezos.Html

open Lib Lib.Checked

set_option autoImplicit false

structure Grows (a b : Arena) : Prop where
  size : b.out.length = a.out.length
  more : a.used ≤ b.used
  fits : b.used ≤ b.out.length
  kept : ∀ k, k < a.used → b.out[k]? = a.out[k]?

theorem Grows.refl {a : Arena} (h : a.used ≤ a.out.length) : Grows a a := ⟨rfl, Nat.le_refl _, h, fun _ _ => rfl⟩

theorem Grows.trans {a b c : Arena} (h : Grows a b) (h' : Grows b c) : Grows a c where
  size := h'.size.trans h.size
  more := Nat.le_trans h.more h'.more
  fits := h'.fits
  kept k hk := (h'.kept k (Nat.lt_of_lt_of_le hk h.more)).trans (h.kept k hk)

theorem Grows.back {a b : Arena} {n : Nat} (h : Grows a b) (hn : a.used ≤ n) (hb : n ≤ b.used) :
    Grows a { b with used := n } where
  size := h.size
  more := hn
  fits := Nat.le_trans hb h.fits
  kept := h.kept

theorem grows_set {a : Arena} (b : U8) (h : a.used < a.out.length) :
    Grows a ⟨a.out.set a.used b, a.used + 1⟩ where
  size := List.length_set
  more := Nat.le_succ _
  fits := by
    rw [List.length_set]
    exact h
  kept k hk := List.getElem?_set_ne (by omega)

theorem add_yields {a : Arena} (b : U8) (h : a.used ≤ a.out.length) : Yields (a.add b) (Grows a) := by
  refine yields_ite ?_ ?_
  · intro hlt
    refine (yields_store hlt).bind ?_
    rintro _ rfl
    exact yields_pure (grows_set b hlt)
  · intro _
    exact yields_pure (.refl h)

theorem putCp_yields {a : Arena} (cp : Nat) :
    Yields (putCp a cp) fun o => ∀ b, o = some b → Grows a b := by
  refine yields_ite ?_ ?_
  · intro _
    exact yields_pure (fun _ h => Option.noConfusion rfl (heq_of_eq h))
  intro _
  refine yields_ite ?_ ?_
  · intro _
    exact yields_pure (fun _ h => Option.noConfusion rfl (heq_of_eq h))
  intro hcap
  refine (yields_storeAll (by omega)).bind ?_
  rintro out ⟨hlen, hkept, -⟩
  refine yields_pure ?_
  rintro b h
  obtain rfl := Option.some.inj h
  exact ⟨hlen, Nat.le_add_right _ _, Nat.le_trans (Nat.le_of_not_lt hcap) (Nat.le_of_eq hlen.symm),
    fun k hk => hkept k (.inl hk)⟩

/-! ## The page -/

section Page
variable {src : List U8} {len : Nat}

theorem scanTo_yields (stop : U8 → Bool) (j : Nat) (hlen : len ≤ src.length) :
    Yields (scanTo src len stop j) fun k => j ≤ k ∧ (j ≤ len → k ≤ len) := by
  refine yields_loop (fun s => j ≤ s ∧ (j ≤ len → s ≤ len)) (fun s => len - s) ?_
    ⟨Nat.le_refl _, id⟩ (Nat.lt_succ_self _)
  rintro s ⟨hjs, hs⟩
  refine yields_ite ?_ ?_
  · intro hlt
    refine (yields_load (by omega)).bind ?_
    intro c _
    refine yields_ite ?_ ?_
    · intro _
      exact yields_pure ⟨hjs, hs⟩
    · intro _
      exact yields_pure ⟨⟨by omega, by omega⟩, by omega⟩
  · intro _
    exact yields_pure ⟨hjs, hs⟩

theorem scanTo_advances {stop : U8 → Bool} {j : Nat} {c : U8} (hlen : len ≤ src.length) (hj : j < len)
    (hc : src[j]? = some c) (hstop : stop c = false) :
    Yields (scanTo src len stop j) fun k => j < k := by
  refine yields_loop (fun s => j ≤ s) (fun s => len - s) ?_ (Nat.le_refl j) (Nat.lt_succ_self _)
  intro s hs
  refine yields_ite ?_ ?_
  · intro hlt
    refine (yields_load (by omega)).bind ?_
    intro c' hc'
    refine yields_ite ?_ ?_
    · intro hstop'
      refine yields_pure (Nat.lt_of_le_of_ne hs ?_)
      rintro rfl
      obtain rfl := Option.some.inj (hc.symm.trans hc')
      exact Bool.noConfusion (hstop.symm.trans hstop')
    · intro _
      exact yields_pure ⟨by omega, by omega⟩
  · intro _
    exact yields_pure (by omega)

theorem looksAt_yields (i : Nat) (b : U8) : Yields (looksAt src i b) fun r => r = true → i < src.length := by
  refine yields_ite ?_ ?_
  · intro hlt
    refine (yields_load hlt).bind ?_
    intro c _
    exact yields_pure fun _ => hlt
  · intro _
    exact yields_pure fun h => Bool.noConfusion h

theorem afterGt_yields {j : Nat} (hj : j ≤ src.length) :
    Yields (afterGt src j) fun k => j ≤ k ∧ k ≤ src.length := by
  refine (scanTo_yields isGt j (Nat.le_refl _)).bind ?_
  rintro k ⟨hjk, hk⟩
  have := hk hj
  refine yields_pure ?_
  split <;> omega

theorem semicolon_yields (at' : Nat) (hlen : len ≤ src.length) :
    Yields (semicolon src len at') fun k => at' < k := by
  refine yields_loop (fun s => at' < s) (fun s => len - s) ?_ (Nat.lt_succ_self _) (by omega)
  intro s hs
  refine yields_ite ?_ ?_
  · intro hlt
    refine (yields_load (by omega)).bind ?_
    intro c _
    refine yields_ite ?_ ?_
    · intro _
      exact yields_pure hs
    · intro _
      exact yields_pure ⟨by omega, by omega⟩
  · intro _
    exact yields_pure hs

theorem entityLen_yields (at' : Nat) (hlen : len ≤ src.length) :
    Yields (entityLen src len at') fun n => n ≠ 0 → 2 ≤ n ∧ at' + n ≤ len := by
  refine yields_ite ?_ fun _ => yields_pure fun h => absurd rfl h
  intro hlt
  refine (yields_load (by omega)).bind ?_
  intro c _
  refine yields_ite ?_ fun _ => yields_pure fun h => absurd rfl h
  intro _
  refine (semicolon_yields at' hlen).bind ?_
  intro semi hsemi
  refine yields_ite ?_ fun _ => yields_pure fun h => absurd rfl h
  intro hlt'
  refine (yields_load (by omega)).bind ?_
  intro c' _
  refine yields_ite ?_ fun _ => yields_pure fun h => absurd rfl h
  intro _
  exact yields_pure fun _ => ⟨by omega, by omega⟩

theorem decodeEntity_yields (at' : Nat) (a : Arena) (hlen : len ≤ src.length) :
    Yields (decodeEntity src len at' a) fun o =>
      ∀ n b, o = some (n, b) → 0 < n ∧ at' + n ≤ len ∧ Grows a b := by
  have hnone : Yields (pure none : Prog (Option (Nat × Arena))) fun o =>
      ∀ n b, o = some (n, b) → 0 < n ∧ at' + n ≤ len ∧ Grows a b :=
    yields_pure fun _ _ h => Option.noConfusion rfl (heq_of_eq h)
  refine (entityLen_yields at' hlen).bind ?_
  intro total htotal
  refine yields_ite (fun _ => hnone) ?_
  intro h0
  have ht := htotal h0
  refine (yields_slice (by omega)).bind ?_
  intro body _
  refine yields_ite (fun _ => hnone) ?_
  intro _
  refine (putCp_yields _).bind ?_
  intro o ho
  cases o with
  | none => exact hnone
  | some b =>
    refine yields_pure ?_
    intro n b' h
    obtain ⟨rfl, rfl⟩ := Prod.mk.inj (Option.some.inj h)
    exact ⟨by omega, ht.2, ho b rfl⟩

theorem entityAt_yields (c : U8) (at' : Nat) (a : Arena) (hlen : len ≤ src.length) :
    Yields (entityAt src len at' c a) fun o =>
      ∀ n b, o = some (n, b) → 0 < n ∧ at' + n ≤ len ∧ Grows a b := by
  refine yields_ite (fun _ => decodeEntity_yields at' a hlen) ?_
  intro _
  exact yields_pure fun _ _ h => Option.noConfusion rfl (heq_of_eq h)

theorem copyValue_yields {p ve : Nat} {a : Arena} (hve : ve ≤ src.length)
    (ha : a.used ≤ a.out.length) : Yields (copyValue src p ve a) (Grows a) := by
  refine yields_loop (fun x => Grows a x.2) (fun x => ve - x.1) ?_ (Grows.refl ha) (Nat.lt_succ_self _)
  rintro ⟨q, b⟩ hb
  refine yields_ite ?_ fun _ => yields_pure hb
  intro hq
  refine (yields_load (by omega)).bind ?_
  intro c _
  refine (entityAt_yields c q b hve).bind ?_
  intro o ho
  cases o with
  | some nb =>
    obtain ⟨hn, hle, hgrows⟩ := ho nb.1 nb.2 rfl
    exact yields_pure ⟨hb.trans hgrows, by omega⟩
  | none =>
    refine (add_yields c hb.fits).bind ?_
    intro b' hgrows
    exact yields_pure ⟨hb.trans hgrows, by omega⟩

theorem valueBounds_yields {k till : Nat} (hk : k < till) (htill : till ≤ src.length) :
    Yields (valueBounds src k till) fun v => v.2 ≤ till := by
  refine (yields_load (by omega)).bind ?_
  intro q _
  refine yields_ite ?_ ?_
  · intro _
    refine (scanTo_yields _ _ htill).bind ?_
    rintro v ⟨-, hv⟩
    exact yields_pure (hv (by omega))
  · intro _
    refine (scanTo_yields _ _ htill).bind ?_
    rintro v ⟨-, hv⟩
    exact yields_pure (hv (by omega))

theorem attrValue_yields {j till : Nat} {a : Arena} (htill : till ≤ src.length)
    (ha : a.used ≤ a.out.length) : Yields (attrValue src j till a) (Grows a) := by
  refine (scanTo_yields _ _ htill).bind ?_
  rintro k -
  refine yields_ite ?_ fun _ => yields_pure (.refl ha)
  intro hk
  refine (yields_load (by omega)).bind ?_
  intro c _
  refine yields_ite ?_ fun _ => yields_pure (.refl ha)
  intro _
  refine (scanTo_yields _ _ htill).bind ?_
  rintro k' -
  refine yields_ite ?_ fun _ => yields_pure (.refl ha)
  intro hk'
  refine (valueBounds_yields hk' htill).bind ?_
  intro v hv
  exact copyValue_yields (Nat.le_trans hv htill) ha

theorem readAttr_yields {start till : Nat} {name : List U8} {a : Arena} (htill : till ≤ src.length)
    (ha : a.used ≤ a.out.length) :
    Yields (readAttr src start till name a) fun r => Grows a r.2 ∧ r.1 = r.2.used - a.used := by
  -- A value of another attribute is given back before the next turn.
  refine yields_loop (fun x => Grows a x.2 ∧ x.2.used = a.used) (fun x => till - x.1) ?_
    ⟨Grows.refl ha, rfl⟩ (Nat.lt_succ_self _)
  rintro ⟨j, b⟩ ⟨hb, hused⟩
  refine yields_ite ?_ ?_
  · intro hj
    refine (yields_load (by omega)).bind ?_
    intro c _
    refine yields_ite ?_ ?_
    · intro _
      exact yields_pure ⟨⟨hb, hused⟩, by omega⟩
    intro _
    refine (scanTo_yields _ _ htill).bind ?_
    rintro e ⟨hje, he⟩
    have hetill := he (Nat.le_of_lt hj)
    refine yields_ite ?_ ?_
    · intro heq
      exact yields_pure ⟨⟨hb, hused⟩, by omega⟩
    intro hne
    refine (attrValue_yields htill hb.fits).bind ?_
    intro b' hb'
    refine (yields_slice (by omega)).bind ?_
    intro s _
    refine yields_ite ?_ ?_
    · intro _
      exact yields_pure ⟨hb.trans hb', rfl⟩
    · intro _
      have hmore := (hb.trans hb').more
      exact yields_pure ⟨⟨(hb.trans hb').back (Nat.le_refl _) hmore, rfl⟩, by omega⟩
  · intro _
    refine yields_pure ⟨hb.back (Nat.le_refl _) hb.more, ?_⟩
    exact (Nat.sub_self _).symm

theorem blankBefore_yields {a b : Arena} (h : Grows a b) :
    Yields (blankBefore a.used b) fun _ => True := by
  refine yields_ite (fun _ => yields_pure trivial) ?_
  intro hne
  have hmore := h.more
  have hfits := h.fits
  refine (yields_load (by omega)).bind ?_
  intro c _
  exact yields_pure trivial

theorem titleTurn_yields {a : Arena} {x : Nat × Arena} (hx : Grows a x.2) :
    Yields (titleTurn src a.used x) fun t =>
      match t with
      | .again y => Grows a y.2 ∧ src.length - y.1 < src.length - x.1
      | .leave b => Grows a b := by
  obtain ⟨p, b⟩ := x
  refine yields_ite ?_ fun _ => yields_pure hx
  intro hp
  refine (yields_load hp).bind ?_
  intro c hc
  refine yields_ite ?_ ?_
  · intro _
    refine (looksAt_yields _ _).bind ?_
    intro isEnd _
    refine yields_ite (fun _ => yields_pure hx) ?_
    intro _
    refine (scanTo_yields _ _ (Nat.le_refl _)).bind ?_
    rintro k ⟨hk, -⟩
    exact yields_pure ⟨hx, by omega⟩
  intro _
  refine yields_ite ?_ ?_
  · intro hspace
    refine ((scanTo_yields _ _ (Nat.le_refl _)).and (scanTo_advances (Nat.le_refl _) hp hc ?_)).bind ?_
    · rw [hspace]
      rfl
    rintro q ⟨⟨-, -⟩, hpq⟩
    refine (blankBefore_yields hx).bind ?_
    intro blank _
    refine yields_ite (fun _ => yields_pure ⟨hx, by omega⟩) ?_
    intro _
    refine (add_yields 0x20 hx.fits).bind ?_
    intro b' hgrows
    exact yields_pure ⟨hx.trans hgrows, by omega⟩
  intro _
  refine (entityAt_yields c p b (Nat.le_refl _)).bind ?_
  intro o ho
  cases o with
  | some nb =>
    obtain ⟨hn, hle, hgrows⟩ := ho nb.1 nb.2 rfl
    exact yields_pure ⟨hx.trans hgrows, by omega⟩
  | none =>
    refine (add_yields c hx.fits).bind ?_
    intro b' hgrows
    exact yields_pure ⟨hx.trans hgrows, by omega⟩

theorem trimBlanks_yields {a b : Arena} (h : Grows a b) :
    Yields (trimBlanks a.used b) (Grows a) := by
  refine yields_loop (Grows a) (fun b => b.used - a.used) ?_ h (Nat.lt_succ_self _)
  intro b hb
  refine yields_ite ?_ fun _ => yields_pure hb
  intro hlt
  have hfits := hb.fits
  refine (yields_load (by omega)).bind ?_
  intro c _
  refine yields_ite ?_ fun _ => yields_pure hb
  intro _
  refine yields_pure ⟨hb.back ?_ ?_, ?_⟩
  · omega
  · omega
  · change b.used - 1 - a.used < b.used - a.used
    omega

theorem extractTitle_yields (at' : Nat) {a : Arena} (ha : a.used ≤ a.out.length) :
    Yields (extractTitle src at' a) fun r => Grows a r.2 ∧ r.1 = r.2.used - a.used := by
  have hloop : Yields (loop (titleTurn src a.used) (src.length - at' + 1) (at', a)) (Grows a) := by
    refine yields_loop (fun x => Grows a x.2) (fun x => src.length - x.1) ?_ (Grows.refl ha)
      (Nat.lt_succ_self _)
    intro x hx
    refine (titleTurn_yields hx).mono ?_
    intro t ht
    cases t with
    | again y => exact ht
    | leave b => exact ht
  refine hloop.bind ?_
  intro b hb
  refine (trimBlanks_yields hb).bind ?_
  intro b' hb'
  exact yields_pure ⟨hb', rfl⟩

end Page

structure Typed (h h' : HP) : Prop where
  same : h' = { h with i := h'.i, text := h'.text, truncated := h'.truncated }
  text : Grows h.text h'.text
  flag : h.truncated = true → h'.truncated = true
  cursor : h.i ≤ h'.i

theorem Typed.refl {h : HP} (hh : h.text.used ≤ h.text.out.length) : Typed h h :=
  ⟨rfl, .refl hh, id, Nat.le_refl _⟩

theorem Typed.trans {a b c : HP} (h : Typed a b) (h' : Typed b c) : Typed a c where
  same := by
    rw [h'.same, h.same]
  text := h.text.trans h'.text
  flag hf := h'.flag (h.flag hf)
  cursor := Nat.le_trans h.cursor h'.cursor

theorem Typed.src {h h' : HP} (ht : Typed h h') : h'.src = h.src := by
  rw [ht.same]

theorem Typed.move {h h' : HP} (ht : Typed h h') {j : Nat} (hj : h'.i ≤ j) :
    Typed h { h' with i := j } where
  same := by
    rw [ht.same]
  text := ht.text
  flag := ht.flag
  cursor := Nat.le_trans ht.cursor hj

def putting (h : HP) (b : U8) : HP :=
  if h.text.used ≥ h.text.out.length then { h with truncated := true }
  else { h with text := ⟨h.text.out.set h.text.used b, h.text.used + 1⟩ }

theorem put_eq (h : HP) (b : U8) : put h b = .ok (putting h b) := by
  rw [put, putting]
  by_cases hfull : h.text.used ≥ h.text.out.length
  · rw [if_pos hfull, if_pos hfull]
    rfl
  · rw [if_neg hfull, if_neg hfull, store, if_pos (by omega)]
    rfl

@[simp] theorem putting_i (h : HP) (b : U8) : (putting h b).i = h.i := by
  unfold putting
  split <;> rfl

theorem typed_putting {h : HP} (b : U8) (hh : h.text.used ≤ h.text.out.length) :
    Typed h (putting h b) := by
  unfold putting
  split
  · exact ⟨rfl, .refl hh, fun _ => rfl, Nat.le_refl _⟩
  · exact ⟨rfl, grows_set b (by omega), id, Nat.le_refl _⟩

theorem foldSpace_yields {h : HP} (hh : h.text.used ≤ h.text.out.length) :
    Yields (foldSpace h) fun h' => Typed h h' ∧ h'.i = h.i := by
  have hsame : Yields (pure h) fun h' => Typed h h' ∧ h'.i = h.i := yields_pure ⟨.refl hh, rfl⟩
  refine yields_ite ?_ fun _ => hsame
  intro hrun
  refine (yields_load (by omega)).bind ?_
  intro c _
  refine yields_ite ?_ fun _ => hsame
  intro _
  refine yields_ite ?_ ?_
  · intro hlt
    refine (yields_store hlt).bind ?_
    rintro _ rfl
    exact yields_pure ⟨⟨rfl, grows_set 0x20 hlt, id, Nat.le_refl _⟩, rfl⟩
  · intro _
    exact yields_pure ⟨⟨rfl, .refl hh, fun _ => rfl, Nat.le_refl _⟩, rfl⟩

theorem scanTextTurn_yields {h : HP} (hh : h.text.used ≤ h.text.out.length) :
    Yields (scanTextTurn h) fun t =>
      match t with
      | .again h' => Typed h h' ∧ h.i < h'.i ∧ h'.i ≤ h.src.length
      | .leave h' => h' = h ∧ (h.src[h.i]? = some 0x3C ∨ h.src.length ≤ h.i) := by
  refine yields_ite ?_ ?_
  · intro hlt
    refine (yields_load hlt).bind ?_
    intro c hc
    refine yields_ite ?_ ?_
    · rintro rfl
      exact yields_pure ⟨rfl, .inl hc⟩
    intro _
    refine (entityAt_yields c h.i h.text (Nat.le_refl _)).bind ?_
    intro o ho
    cases o with
    | some nb =>
      obtain ⟨hn, hle, hgrows⟩ := ho nb.1 nb.2 rfl
      refine yields_pure ⟨⟨rfl, hgrows, id, Nat.le_add_right _ _⟩, ?_, hle⟩
      exact Nat.lt_add_of_pos_right hn
    | none =>
      refine yields_ite ?_ ?_
      · intro _
        refine (foldSpace_yields hh).bind ?_
        rintro h' ⟨ht, hi⟩
        refine yields_pure ⟨ht.move (Nat.le_succ _), ?_, ?_⟩
        · change h.i < h'.i + 1
          omega
        · change h'.i + 1 ≤ h.src.length
          omega
      intro _
      refine yields_ite ?_ ?_
      · intro _
        exact yields_pure ⟨⟨rfl, .refl hh, id, Nat.le_succ _⟩, Nat.lt_succ_self _, hlt⟩
      · intro _
        rw [put_eq]
        refine yields_pure ⟨(typed_putting c hh).move (Nat.le_succ _), ?_, ?_⟩
        · change h.i < (putting h c).i + 1
          rw [putting_i]
          exact Nat.lt_succ_self _
        · change (putting h c).i + 1 ≤ h.src.length
          rw [putting_i]
          exact hlt
  · intro hge
    exact yields_pure ⟨rfl, .inr (by omega)⟩

theorem scanText_yields {h : HP} (hi : h.i ≤ h.src.length) (hh : h.text.used ≤ h.text.out.length) :
    Yields (scanText h) fun h' => Typed h h' ∧ h'.i ≤ h.src.length ∧
      (h.src[h.i]? ≠ some 0x3C → h.i < h.src.length → h.i < h'.i) := by
  refine yields_loop (fun s => Typed h s ∧ s.i ≤ h.src.length ∧ (s = h ∨ h.i < s.i))
    (fun s => h.src.length - s.i) ?_ ⟨.refl hh, hi, .inl rfl⟩ (Nat.lt_succ_self _)
  rintro s ⟨ht, hs, hmoved⟩
  have hsrc := ht.src
  refine (scanTextTurn_yields ht.text.fits).mono ?_
  intro t hturn
  cases t with
  | again s' =>
    obtain ⟨ht', hlt, hle⟩ := hturn
    have hcursor := ht.cursor
    rw [hsrc] at hle
    exact ⟨⟨ht.trans ht', hle, .inr (by omega)⟩, by omega⟩
  | leave s' =>
    obtain ⟨rfl, hend⟩ := hturn
    refine ⟨ht, hs, ?_⟩
    intro hne hlt
    rcases hmoved with rfl | hmoved
    · rcases hend with hend | hend
      · exact absurd hend hne
      · omega
    · exact hmoved

def Moved (h h' : HP) : Prop := ∃ i, h.i ≤ i ∧ i ≤ h.src.length ∧ h' = { h with i := i }

theorem isComment_yields (src : List U8) (i : Nat) :
    Yields (isComment src i) fun r => r = true → i + 3 < src.length := by
  refine yields_ite ?_ fun _ => yields_pure fun h => Bool.noConfusion h
  intro hlt
  refine (yields_slice (by omega)).bind ?_
  intro c _
  exact yields_pure fun _ => hlt

theorem commentEnd_yields {src : List U8} {j : Nat} (hj : j ≤ src.length) :
    Yields (commentEnd src j) fun k => j ≤ k ∧ k ≤ src.length := by
  refine yields_loop (fun s => j ≤ s) (fun s => src.length - s) ?_ (Nat.le_refl j)
    (Nat.lt_succ_self _)
  intro s hs
  refine yields_ite ?_ fun _ => yields_pure ⟨hj, Nat.le_refl _⟩
  intro hlt
  refine (yields_slice (by omega)).bind ?_
  intro c _
  refine yields_ite ?_ ?_
  · intro _
    exact yields_pure ⟨by omega, by omega⟩
  · intro _
    exact yields_pure ⟨by omega, by omega⟩

theorem skipDecl_yields {h : HP} (hi : h.i < h.src.length) :
    Yields (skipDecl h) fun h' => Moved h h' ∧ h.i < h'.i := by
  refine (isComment_yields h.src h.i).bind ?_
  intro comment hcomment
  refine yields_ite ?_ ?_
  · intro hc
    have hlt := hcomment hc
    refine (commentEnd_yields (j := h.i + 4) (by omega)).bind ?_
    rintro k ⟨hk, hle⟩
    exact yields_pure ⟨⟨k, by omega, hle, rfl⟩, by change h.i < k; omega⟩
  · intro _
    refine (afterGt_yields (j := h.i + 1) hi).bind ?_
    rintro k ⟨hk, hle⟩
    exact yields_pure ⟨⟨k, by omega, hle, rfl⟩, by change h.i < k; omega⟩

theorem skipRawTurn_yields {src : List U8} {tag : U8} {j : Nat} (hj : j ≤ src.length) :
    Yields (skipRawTurn src tag j) fun t =>
      match t with
      | .again s => s = j + 1 ∧ s ≤ src.length
      | .leave k => j ≤ k ∧ k ≤ src.length ∧ (j < src.length → j < k) := by
  refine yields_ite ?_ fun _ => yields_pure ⟨hj, Nat.le_refl _, id⟩
  intro hlt
  have hagain : Yields (pure (.again (j + 1)) : Prog (Turn Nat Nat)) fun t =>
      match t with
      | .again s => s = j + 1 ∧ s ≤ src.length
      | .leave k => j ≤ k ∧ k ≤ src.length ∧ (j < src.length → j < k) :=
    yields_pure ⟨rfl, Nat.le_of_lt hlt⟩
  refine (yields_slice (by omega)).bind ?_
  intro c _
  refine yields_ite ?_ fun _ => hagain
  intro _
  refine (scanTo_yields _ _ (Nat.le_refl _)).bind ?_
  rintro e ⟨hje, he⟩
  have hesrc := he (by omega)
  refine (yields_slice (by omega)).bind ?_
  intro name _
  refine yields_ite ?_ fun _ => hagain
  intro _
  refine (afterGt_yields hesrc).bind ?_
  rintro k ⟨hk, hle⟩
  exact yields_pure ⟨by omega, hle, by omega⟩

theorem skipRaw_yields {h : HP} (tag : U8) (hi : h.i ≤ h.src.length) :
    Yields (skipRaw h tag) fun h' => Moved h h' ∧ (h.i < h.src.length → h.i < h'.i) := by
  have hloop : Yields (loop (skipRawTurn h.src tag) (h.src.length - h.i + 1) h.i) fun k =>
      h.i ≤ k ∧ k ≤ h.src.length ∧ (h.i < h.src.length → h.i < k) := by
    refine yields_loop (fun j => h.i ≤ j ∧ j ≤ h.src.length) (fun j => h.src.length - j) ?_
      ⟨Nat.le_refl _, hi⟩ (Nat.lt_succ_self _)
    rintro j ⟨hij, hj⟩
    refine (skipRawTurn_yields hj).mono ?_
    intro t ht
    cases t with
    | again s =>
      obtain ⟨rfl, hs⟩ := ht
      exact ⟨⟨by omega, hs⟩, by omega⟩
    | leave k =>
      obtain ⟨hjk, hk, hlt⟩ := ht
      exact ⟨by omega, hk, by omega⟩
  refine hloop.bind ?_
  rintro k ⟨hik, hk, hlt⟩
  exact yields_pure ⟨⟨k, hik, hk, rfl⟩, hlt⟩

theorem skipOpaqueTurn_yields (src : List U8) (tag : U8) (p : Int × Nat) :
    Yields (skipOpaqueTurn src tag p) fun t =>
      match t with
      | .again q => p.2 < q.2 ∧ q.2 ≤ src.length
      | .leave k => k = p.2 := by
  refine yields_ite ?_ fun _ => yields_pure rfl
  rintro ⟨hlt, -⟩
  have hagain : Yields (pure (.again (p.1, p.2 + 1)) : Prog (Turn (Int × Nat) Nat)) fun t =>
      match t with
      | .again q => p.2 < q.2 ∧ q.2 ≤ src.length
      | .leave k => k = p.2 :=
    yields_pure ⟨Nat.lt_succ_self _, hlt⟩
  refine (yields_load hlt).bind ?_
  intro c _
  refine yields_ite ?_ fun _ => hagain
  rintro ⟨-, hnext⟩
  refine (looksAt_yields _ _).bind ?_
  intro isEnd _
  have hs : p.2 < (if isEnd = true then p.2 + 2 else p.2 + 1) ∧
      (if isEnd = true then p.2 + 2 else p.2 + 1) ≤ src.length := by
    split <;> omega
  revert hs
  generalize (if isEnd = true then p.2 + 2 else p.2 + 1) = s
  rintro ⟨hps, hs⟩
  refine (scanTo_yields _ _ (Nat.le_refl _)).bind ?_
  rintro e ⟨hse, he⟩
  have hesrc := he hs
  refine (yields_slice (by omega)).bind ?_
  intro name _
  refine yields_ite ?_ fun _ => hagain
  intro _
  refine (scanTo_yields _ _ (Nat.le_refl _)).bind ?_
  rintro k ⟨hek, -⟩
  refine yields_ite (fun _ => yields_pure rfl) ?_
  intro hk
  exact yields_pure ⟨by omega, by omega⟩

theorem skipOpaque_yields {h : HP} (tag : U8) (hi : h.i ≤ h.src.length) :
    Yields (skipOpaque h tag) fun h' => Moved h h' := by
  have hloop : Yields (loop (skipOpaqueTurn h.src tag) (h.src.length - h.i + 1) (1, h.i)) fun k =>
      h.i ≤ k ∧ k ≤ h.src.length := by
    refine yields_loop (fun p => h.i ≤ p.2 ∧ p.2 ≤ h.src.length) (fun p => h.src.length - p.2) ?_
      ⟨Nat.le_refl _, hi⟩ (Nat.lt_succ_self _)
    rintro p ⟨hip, hp⟩
    refine (skipOpaqueTurn_yields h.src tag p).mono ?_
    intro t ht
    cases t with
    | again q => exact ⟨⟨by omega, ht.2⟩, by omega⟩
    | leave k =>
      obtain rfl := ht
      exact ⟨hip, hp⟩
  refine hloop.bind ?_
  rintro k ⟨hik, hk⟩
  exact yields_pure ⟨k, hik, hk, rfl⟩

end Ezos.Html
