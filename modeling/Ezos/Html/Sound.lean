import Ezos.Html.States

/-!
# The parser ends, stays inside its buffers and accounts for the text

`Sound` is what every round keeps. The ranges of the text nodes are laid end to end from 0 on; they
fall short of the closed runs only when a node found no room, and then none is emitted any more.
-/

namespace Ezos.Html

open Lib Lib.Checked

set_option autoImplicit false

def Tiles (a : Nat) : List HtmlNode → Nat → Prop
  | [], b => a = b
  | n :: ns, b => n.textOff.toNat = a ∧ 0 < n.textLen.toNat ∧ Tiles (a + n.textLen.toNat) ns b

theorem tiles_append {a b c : Nat} {ns : List HtmlNode} {n : HtmlNode} (h : Tiles a ns b)
    (hoff : n.textOff.toNat = b) (hpos : 0 < n.textLen.toNat) (hc : b + n.textLen.toNat = c) :
    Tiles a (ns ++ [n]) c := by
  induction ns generalizing a with
  | nil =>
    obtain rfl := h
    exact ⟨hoff, hpos, hc⟩
  | cons m ns ih => exact ⟨h.1, h.2.1, ih h.2.2⟩

def texts (h : HP) : List HtmlNode := (h.nodes.take h.ncount).filter fun n => n.kind = nodeText

theorem texts_set {h : HP} (hroom : h.ncount < h.nodes.length) (n : HtmlNode) :
    texts { h with nodes := h.nodes.set h.ncount n, ncount := h.ncount + 1 } =
      texts h ++ if n.kind = nodeText then [n] else [] := by
  unfold texts
  rw [List.take_add_one, List.getElem?_set_self hroom, List.take_set_of_le (Nat.le_refl _),
    List.filter_append]
  by_cases hn : n.kind = nodeText
  · rw [if_pos hn, Option.toList_some, List.filter_cons_of_pos (by simpa using hn)]
    rfl
  · rw [if_neg hn, Option.toList_some, List.filter_cons_of_neg (by simpa using hn)]
    rfl

theorem texts_runStart (h : HP) (n : Nat) : texts { h with runStart := n } = texts h := rfl

structure Sound (d : Doc) (h : HP) : Prop where
  src : h.src = d.html
  nodes : h.nodes.length = d.nodes.length
  count : h.ncount ≤ h.nodes.length
  text : h.text.out.length = d.text.length
  filled : h.text.used ≤ h.text.out.length
  href : h.href.out.length = d.href.length
  stored : h.href.used ≤ h.href.out.length
  st : h.st.length = d.scratch.length
  depth : h.sp * stBytes ≤ h.st.length
  stack : ∃ es, es.length = h.sp ∧ Stacked h.st es
  run : h.runStart ≤ h.text.used
  tiled : d.text.length ≤ 65535 → ∃ e, Tiles 0 (texts h) e ∧ (e = h.runStart ∨
    e ≤ h.runStart ∧ h.truncated = true ∧ h.nodes.length ≤ h.ncount)

namespace Sound
variable {d : Doc} {h h' : HP}

theorem moved (hs : Sound d h) (hm : Moved h h') : Sound d h' := by
  obtain ⟨i, -, -, rfl⟩ := hm
  exact { hs with }

theorem restyled (hs : Sound d h) (style : U8) (hrefOff : U16) (pre : U32) (listDepth : Int) :
    Sound d { h with style := style, hrefOff := hrefOff, pre := pre, listDepth := listDepth } :=
  { hs with }

theorem typed (hs : Sound d h) (ht : Typed h h') : Sound d h' := by
  have hgrows := ht.text
  have hflag := ht.flag
  have hused := hgrows.more
  rw [ht.same]
  exact { hs with
    text := hgrows.size.trans hs.text
    filled := hgrows.fits
    run := Nat.le_trans hs.run hused
    tiled hcap := by
      obtain ⟨e, htiles, he⟩ := hs.tiled hcap
      exact ⟨e, htiles, he.imp id fun ⟨hle, hfull⟩ => ⟨hle, hflag hfull.1, hfull.2⟩⟩ }

theorem unlist (hs : Sound d h) (t : U8) : Sound d (unlist h t) := by
  unfold Html.unlist
  split
  · exact { hs with }
  · exact hs

theorem restrung (hs : Sound d h) {a : Arena} (hsize : a.out.length = h.href.out.length)
    (hfits : a.used ≤ a.out.length) (links : Nat) : Sound d { h with href := a, links := links } :=
  { hs with href := hsize.trans hs.href, stored := hfits }

theorem closed (hs : Sound d h) {a : Arena} (hgrows : Grows h.href a)
    (hroom : a.used < h.href.out.length) (links : Nat) :
    Sound d { h with href := ⟨a.out.set a.used 0, a.used + 1⟩, links := links } := by
  have hsize := hgrows.size
  refine hs.restrung ?_ ?_ links
  · rw [List.length_set, hsize]
  · rw [List.length_set, hsize]
    exact hroom

theorem dropped (hs : Sound d h) {a : Arena} (hgrows : Grows h.href a) :
    Sound d { h with href := ⟨a.out, h.href.used⟩ } := by
  refine hs.restrung (a := ⟨a.out, h.href.used⟩) hgrows.size ?_ h.links
  change h.href.used ≤ a.out.length
  rw [hgrows.size]
  exact hs.stored

theorem noticed (hs : Sound d h) : Sound d { h with truncated := true } := by
  exact { hs with
    tiled hcap := by
      obtain ⟨e, htiles, hend⟩ := hs.tiled hcap
      exact ⟨e, htiles, hend.imp id fun ⟨hle, _, hfull⟩ => ⟨hle, rfl, hfull⟩⟩ }

theorem emitted (hs : Sound d h) {n : HtmlNode} (hn : n.kind ≠ nodeText) :
    Sound d (emitted h n) := by
  rcases emitted_cases h n with ⟨hfull, he⟩ | ⟨hroom, he⟩
  · rw [he]
    exact hs.noticed
  · rw [he]
    have htexts := texts_set hroom n
    rw [if_neg hn, List.append_nil] at htexts
    exact { hs with
      nodes := List.length_set.trans hs.nodes
      count := Nat.le_of_lt_succ (Nat.lt_succ_of_le (by rw [List.length_set]; exact hroom))
      tiled hcap := by
        obtain ⟨e, htiles, hend⟩ := hs.tiled hcap
        refine ⟨e, ?_, hend.imp id fun ⟨_, _, hfull⟩ => absurd hroom (Nat.not_lt.mpr hfull)⟩
        rw [htexts]
        exact htiles }

theorem flushed (hs : Sound d h) : Sound d (flushed h) := by
  have hrun := hs.run
  have hfilled := hs.filled
  rw [hs.text] at hfilled
  unfold Html.flushed
  split
  · rename_i hpending
    rcases emitted_cases h (pending h) with ⟨hfull, he⟩ | ⟨hroom, he⟩
    · rw [he]
      exact { hs with
        run := Nat.le_refl _
        tiled hcap := by
          obtain ⟨e, htiles, hend⟩ := hs.tiled hcap
          have hle : e ≤ h.text.used := by omega
          exact ⟨e, htiles, .inr ⟨hle, rfl, hfull⟩⟩ }
    · rw [he]
      have hkind : (pending h).kind = nodeText := rfl
      have htexts := texts_set hroom (pending h)
      rw [if_pos hkind] at htexts
      exact { hs with
        nodes := List.length_set.trans hs.nodes
        count := by
          rw [List.length_set]
          exact hroom
        run := Nat.le_refl _
        tiled hcap := by
          obtain ⟨e, htiles, hend⟩ := hs.tiled hcap
          have hstart : e = h.runStart := by
            rcases hend with rfl | ⟨_, _, hfull⟩
            · rfl
            · omega
          have hoff : (pending h).textOff.toNat = h.runStart :=
            (BitVec.toNat_ofNat _ _).trans (Nat.mod_eq_of_lt (by omega))
          have hlen : (pending h).textLen.toNat = h.text.used - h.runStart :=
            (BitVec.toNat_ofNat _ _).trans (Nat.mod_eq_of_lt (by omega))
          refine ⟨h.text.used, ?_, .inl rfl⟩
          rw [texts_runStart, htexts]
          exact tiles_append htiles (hoff.trans hstart.symm) (by omega) (by omega) }
  · rename_i hpending
    have heq : h.text.used = h.runStart := by omega
    rw [heq]
    exact hs

theorem push (hs : Sound d h) (tag : U8) :
    Yields (push h tag) fun h' => Sound d h' ∧ h'.i = h.i := by
  refine (push_yields tag).mono ?_
  rintro h' (⟨-, rfl⟩ | ⟨st, rfl, hroom, hlen, hheld, hkept⟩)
  · exact ⟨hs.noticed, rfl⟩
  · obtain ⟨es, hes, hstacked⟩ := hs.stack
    have hmore : Stacked st es := hstacked.congr (Nat.le_of_eq hes) hkept
    refine ⟨{ hs with
      st := hlen.trans hs.st
      depth := hroom
      stack := ⟨current h tag :: es, congrArg (· + 1) hes, ?_, hmore⟩ }, rfl⟩
    rw [hes]
    exact hheld

theorem popTo (hs : Sound d h) (tag : U8) :
    Yields (popTo h tag h.sp) fun h' => Sound d h' ∧ h'.i = h.i := by
  obtain ⟨es, hes, hstacked⟩ := hs.stack
  rw [← hes, popTo_eq hstacked]
  refine yields_ok ?_
  cases hpop : popped tag es with
  | none =>
    exact ⟨{ hs with
      depth := by
        rw [restored, Nat.zero_mul]
        exact Nat.zero_le _
      stack := ⟨[], rfl, trivial⟩ }, rfl⟩
  | some r =>
    obtain ⟨e, rest⟩ := r
    have hlt : rest.length < es.length := popped_length hpop
    have hle : rest.length ≤ h.sp := by omega
    exact ⟨{ hs with
      depth := Nat.le_trans (Nat.mul_le_mul_right _ hle) hs.depth
      stack := ⟨rest, rfl, popped_stacked hstacked hpop⟩ }, rfl⟩

end Sound

theorem img_ne_text : nodeImg ≠ nodeText := by decide

theorem block_ne_text : nodeBlock ≠ nodeText := by decide

theorem br_ne_text : nodeBr ≠ nodeText := by decide

theorem hr_ne_text : nodeHr ≠ nodeText := by decide

/-! ## Rounds -/

section Rounds
variable {d : Doc} {h : HP}

structure Onward (d : Doc) (h h' : HP) : Prop where
  sound : Sound d h'
  ahead : h.i ≤ h'.i
  inside : h'.i ≤ d.html.length

def MarkAt (h : HP) : Mark → Prop
  | .text => h.src[h.i]? ≠ some 0x3C
  | .decl => True
  | .lone => True
  | .endTag _ j => h.i < j ∧ j ≤ h.src.length
  | .startTag _ j k => h.i < j ∧ j ≤ k ∧ k ≤ h.src.length

theorem mark_yields (hi : h.i < h.src.length) : Yields (mark h) (MarkAt h) := by
  refine (yields_load hi).bind ?_
  intro c hc
  refine yields_ite ?_ ?_
  · intro hne
    refine yields_pure ?_
    rintro heq
    exact hne (Option.some.inj (hc.symm.trans heq))
  intro _
  refine (looksAt_yields _ _).bind ?_
  intro bang _
  refine (looksAt_yields _ _).bind ?_
  intro ask _
  refine yields_ite (fun _ => yields_pure trivial) ?_
  intro _
  refine (looksAt_yields _ _).bind ?_
  intro isEnd hend
  have hns : h.i < (if isEnd = true then h.i + 2 else h.i + 1) ∧
      (if isEnd = true then h.i + 2 else h.i + 1) ≤ h.src.length := by
    split
    · rename_i he
      have := hend he
      omega
    · omega
  revert hns
  generalize (if isEnd = true then h.i + 2 else h.i + 1) = ns
  rintro ⟨hlt, hns⟩
  refine (scanTo_yields _ _ (Nat.le_refl _)).bind ?_
  rintro j ⟨hnsj, hj⟩
  have hjsrc := hj hns
  refine yields_ite (fun _ => yields_pure trivial) ?_
  intro hne
  refine (yields_slice (by omega)).bind ?_
  intro name _
  refine yields_ite ?_ ?_
  · intro _
    exact yields_pure ⟨by omega, hjsrc⟩
  · intro _
    refine (scanTo_yields _ _ (Nat.le_refl _)).bind ?_
    rintro k ⟨hjk, hk⟩
    exact yields_pure ⟨by omega, hjk, hk hjsrc⟩

theorem Onward.moved {h' h'' : HP} (ho : Onward d h h') (hm : Moved h' h'') : Onward d h h'' := by
  have hsrc := ho.sound.src
  refine ⟨ho.sound.moved hm, ?_, ?_⟩
  · obtain ⟨i, hle, -, rfl⟩ := hm
    exact Nat.le_trans ho.ahead hle
  · obtain ⟨i, -, hle, rfl⟩ := hm
    rw [hsrc] at hle
    exact hle

variable (hs : Sound d h) (hi : h.i ≤ d.html.length)
include hs hi

theorem Onward.refl : Onward d h h := ⟨hs, Nat.le_refl _, hi⟩

theorem skipRaw_onward (t : U8) :
    Yields (skipRaw h t) fun h' => Onward d h h' ∧ (h.i < d.html.length → h.i < h'.i) := by
  rw [← hs.src] at hi ⊢
  refine (skipRaw_yields t hi).mono ?_
  rintro h' ⟨hm, hlt⟩
  exact ⟨(Onward.refl hs (by rw [← hs.src]; exact hi)).moved hm, hlt⟩

theorem skipOpaque_onward (t : U8) : Yields (skipOpaque h t) (Onward d h) := by
  have hsrc : h.i ≤ h.src.length := by
    rw [hs.src]
    exact hi
  refine (skipOpaque_yields t hsrc).mono ?_
  intro h' hm
  exact (Onward.refl hs hi).moved hm

theorem titleTag_onward (p : Page) (hp : p.h = h) (t : U8) :
    Yields (titleTag p t) fun p' => Onward d h p'.h := by
  subst hp
  refine (extractTitle_yields p.h.i hs.stored).bind ?_
  rintro r ⟨hgrows, -⟩
  refine yields_ite ?_ ?_
  · rintro ⟨-, hroom⟩
    have hsize := hgrows.size
    refine (yields_store (by omega)).bind ?_
    rintro _ rfl
    refine (skipRaw_onward (hs.closed hgrows hroom p.h.links) hi t).bind ?_
    rintro h' ⟨ho, -⟩
    exact yields_pure ⟨ho.sound, ho.ahead, ho.inside⟩
  · intro _
    refine (skipRaw_onward (hs.dropped hgrows) hi t).bind ?_
    rintro h' ⟨ho, -⟩
    exact yields_pure ⟨ho.sound, ho.ahead, ho.inside⟩

theorem emitted_onward {n : HtmlNode} (hn : n.kind ≠ nodeText) : Onward d h (emitted h n) :=
  ⟨hs.emitted hn, Nat.le_of_eq (emitted_i h n).symm, by rw [emitted_i]; exact hi⟩

theorem imgTag_onward {j k : Nat} (hk : k ≤ h.src.length) :
    Yields (imgTag h j k) (Onward d h) := by
  refine (readAttr_yields hk hs.stored).bind ?_
  rintro r ⟨hgrows, -⟩
  refine yields_ite ?_ ?_
  · rintro ⟨-, hroom⟩
    have hsize := hgrows.size
    refine (yields_store (by omega)).bind ?_
    rintro _ rfl
    rw [emit_eq]
    refine yields_ok ?_
    have ho := emitted_onward (hs.closed hgrows hroom h.links) hi
      (n := ⟨BitVec.ofNat 16 (r.2.used - r.1), BitVec.ofNat 16 r.1, 0, nodeImg, tImg, h.style, 0⟩)
      img_ne_text
    exact ⟨ho.sound, ho.ahead, ho.inside⟩
  · intro _
    exact yields_pure ⟨hs.dropped hgrows, Nat.le_refl _, hi⟩

theorem push_onward (t : U8) : Yields (push h t) (Onward d h) := by
  refine (hs.push t).mono ?_
  rintro h' ⟨hs', hi'⟩
  exact ⟨hs', Nat.le_of_eq hi'.symm, by rw [hi']; exact hi⟩

theorem flush_onward : Onward d h (flushed h) :=
  ⟨hs.flushed, Nat.le_of_eq (flushed_i h).symm, by rw [flushed_i]; exact hi⟩

theorem pushTag_onward (t : U8) {f : HP → HP}
    (hf : ∀ h, ∃ style hrefOff pre listDepth,
      f h = { h with style := style, hrefOff := hrefOff, pre := pre, listDepth := listDepth }) :
    Yields (pushTag h t f) (Onward d h) := by
  have ho := flush_onward hs hi
  rw [pushTag, flush_eq]
  refine (push_onward ho.sound ho.inside t).bind ?_
  intro h' ho'
  refine yields_pure ?_
  obtain ⟨style, hrefOff, pre, listDepth, he⟩ := hf h'
  rw [he]
  exact ⟨ho'.sound.restyled _ _ _ _, Nat.le_trans ho.ahead ho'.ahead, ho'.inside⟩

theorem emptyTag_onward {kind : U8} (t : U8) (hk : kind ≠ nodeText) :
    Yields (emptyTag h kind t) (Onward d h) := by
  have ho := flush_onward hs hi
  rw [emptyTag, flush_eq]
  change Yields (emit (flushed h) kind t 0 0 0 0) _
  rw [emit_eq]
  have ho' := emitted_onward ho.sound ho.inside (n := ⟨0, 0, 0, kind, t, (flushed h).style, 0⟩) hk
  exact yields_ok ⟨ho'.sound, Nat.le_trans ho.ahead ho'.ahead, ho'.inside⟩

theorem blockTag_onward (t level : U8) : Yields (blockTag h t level) (Onward d h) := by
  have ho := flush_onward hs hi
  rw [blockTag, flush_eq]
  change Yields (do let h ← emit (flushed h) nodeBlock t level 0 0 0; push h t) _
  rw [emit_eq]
  have ho' := emitted_onward ho.sound ho.inside
    (n := ⟨0, 0, 0, nodeBlock, t, (flushed h).style, level⟩) block_ne_text
  refine (push_onward ho'.sound ho'.inside t).mono ?_
  intro h' ho''
  exact ⟨ho''.sound, Nat.le_trans ho.ahead (Nat.le_trans ho'.ahead ho''.ahead), ho''.inside⟩

theorem aTag_onward (t : U8) {j k : Nat} (hk : k ≤ d.html.length) :
    Yields (aTag h t j k) (Onward d h) := by
  have ho := flush_onward hs hi
  rw [← ho.sound.src] at hk
  rw [aTag, flush_eq]
  refine (readAttr_yields hk ho.sound.stored).bind ?_
  rintro r ⟨hgrows, hr⟩
  have hmore := hgrows.more
  have hend : r.2.used - r.1 + r.1 = r.2.used := by omega
  refine (hrefAdd_yields _ _ _).bind ?_
  intro x hx
  rw [hend] at hx
  have hs' : Onward d h x.2 := by
    rcases hx with ⟨-, rfl⟩ | ⟨-, rfl⟩ | ⟨-, -, hroom, rfl⟩
    · exact ⟨ho.sound.dropped hgrows, ho.ahead, ho.inside⟩
    · exact ⟨(ho.sound.dropped hgrows).noticed, ho.ahead, ho.inside⟩
    · change r.2.used < r.2.out.length at hroom
      rw [hgrows.size] at hroom
      exact ⟨ho.sound.closed hgrows hroom _, ho.ahead, ho.inside⟩
  refine (push_onward hs'.sound hs'.inside t).bind ?_
  intro h' ho'
  exact yields_pure ⟨ho'.sound.restyled _ _ _ _, Nat.le_trans hs'.ahead ho'.ahead, ho'.inside⟩

theorem endTag_onward (t : U8) {j : Nat} (hj : h.i < j) (hjlen : j ≤ d.html.length) :
    Yields (endTag h t j) fun h' => Onward d h h' ∧ h.i < h'.i := by
  refine yields_ite ?_ ?_
  · intro _
    refine (skipRaw_onward hs hi t).mono ?_
    rintro h' ⟨ho, hlt⟩
    exact ⟨ho, hlt (Nat.lt_of_lt_of_le hj hjlen)⟩
  intro _
  have hu : Onward d h (unlist h t) := by
    refine ⟨hs.unlist t, ?_, ?_⟩
    · unfold unlist
      split <;> exact Nat.le_refl _
    · unfold unlist
      split <;> exact hi
  have ho := flush_onward hu.sound hu.inside
  rw [flush_eq]
  refine (ho.sound.popTo t).bind ?_
  rintro h' ⟨hs', hi'⟩
  rw [← hs'.src] at hjlen
  refine (afterGt_yields hjlen).bind ?_
  rintro i ⟨hji, hle⟩
  rw [hs'.src] at hle
  have hlt : h.i < i := Nat.lt_of_lt_of_le hj hji
  exact yields_pure ⟨⟨{ hs' with }, Nat.le_of_lt hlt, hle⟩, hlt⟩

end Rounds

variable {d : Doc}

theorem startTag_onward {p : Page} (hs : Sound d p.h) (hi : p.h.i ≤ d.html.length)
    (t : U8) {j k : Nat} (hk : k ≤ d.html.length) :
    Yields (startTag p t j k) fun p' => Onward d p.h p'.h := by
  have hpage : ∀ {x : Prog HP}, Yields x (Onward d p.h) →
      Yields (do pure { p with h := ← x }) fun p' => Onward d p.h p'.h := by
    intro x hx
    refine hx.bind ?_
    intro h' ho
    exact yields_pure ho
  have hksrc : k ≤ p.h.src.length := by
    rw [hs.src]
    exact hk
  unfold startTag
  cases element t with
  | raw => exact hpage ((skipRaw_onward hs hi t).mono fun _ h => h.1)
  | head => exact yields_pure (.refl hs hi)
  | title => exact titleTag_onward hs hi p rfl t
  | skipped => exact hpage (skipOpaque_onward hs hi t)
  | br => exact hpage (emptyTag_onward hs hi tBr br_ne_text)
  | hr => exact hpage (emptyTag_onward hs hi tHr hr_ne_text)
  | img => exact hpage (imgTag_onward hs hi hksrc)
  | a => exact hpage (aTag_onward hs hi t hk)
  | inl bit => exact hpage (pushTag_onward hs hi t fun h => ⟨_, h.hrefOff, h.pre, h.listDepth, rfl⟩)
  | pre => exact hpage (pushTag_onward hs hi t fun h => ⟨_, h.hrefOff, _, h.listDepth, rfl⟩)
  | list => exact hpage (pushTag_onward hs hi t fun h => ⟨h.style, h.hrefOff, h.pre, _, rfl⟩)
  | li => exact hpage (blockTag_onward hs hi t _)
  | heading => exact hpage (blockTag_onward hs hi t _)
  | block => exact hpage (blockTag_onward hs hi t _)
  | other => exact hpage (push_onward hs hi t)

theorem act_onward {p : Page} (hs : Sound d p.h) (hi : p.h.i < d.html.length)
    {m : Mark} (hm : MarkAt p.h m) :
    Yields (act p m) fun p' => Onward d p.h p'.h ∧ p.h.i < p'.h.i := by
  have hsrc := hs.src
  have hlt : p.h.i < p.h.src.length := by
    rw [hsrc]
    exact hi
  cases m with
  | text =>
    refine (scanText_yields (Nat.le_of_lt hlt) hs.filled).bind ?_
    rintro h' ⟨ht, hle, hmoved⟩
    rw [hsrc] at hle
    exact yields_pure ⟨⟨hs.typed ht, ht.cursor, hle⟩, hmoved hm hlt⟩
  | decl =>
    refine (skipDecl_yields hlt).bind ?_
    rintro h' ⟨hmoved, hlt'⟩
    exact yields_pure ⟨(Onward.refl hs (Nat.le_of_lt hi)).moved hmoved, hlt'⟩
  | lone =>
    change Yields (put p.h 0x3C >>= _) _
    rw [put_eq]
    refine yields_pure ⟨⟨?_, ?_, ?_⟩, ?_⟩
    · exact { hs.typed (typed_putting 0x3C hs.filled) with }
    · change p.h.i ≤ (putting p.h 0x3C).i + 1
      rw [putting_i]
      exact Nat.le_succ _
    · change (putting p.h 0x3C).i + 1 ≤ d.html.length
      rw [putting_i]
      exact hi
    · change p.h.i < (putting p.h 0x3C).i + 1
      rw [putting_i]
      exact Nat.lt_succ_self _
  | endTag t j =>
    obtain ⟨hij, hj⟩ := hm
    rw [hsrc] at hj
    refine (endTag_onward hs (Nat.le_of_lt hi) t hij hj).bind ?_
    intro h' ho
    exact yields_pure ho
  | startTag t j k =>
    obtain ⟨hij, hjk, hk⟩ := hm
    have hnext : p.h.i < (if k < p.h.src.length then k + 1 else p.h.src.length) ∧
        (if k < p.h.src.length then k + 1 else p.h.src.length) ≤ d.html.length := by
      rw [← hsrc]
      split <;> omega
    rw [hsrc] at hk
    have hs' : Sound d
        { p.h with i := if k < p.h.src.length then k + 1 else p.h.src.length } := { hs with }
    refine (startTag_onward (p := ⟨_, p.titleOff, p.titleLen⟩) hs' hnext.2 t hk).mono ?_
    intro p' ho
    exact ⟨⟨ho.sound, Nat.le_trans (Nat.le_of_lt hnext.1) ho.ahead, ho.inside⟩,
      Nat.lt_of_lt_of_le hnext.1 ho.ahead⟩

theorem round_yields {p : Page} (hs : Sound d p.h) :
    Yields (round p) fun t =>
      match t with
      | .again p' => (Sound d p'.h ∧ p'.h.i ≤ d.html.length) ∧
          d.html.length - p'.h.i < d.html.length - p.h.i
      | .leave p' => Sound d p'.h := by
  refine yields_ite ?_ fun _ => yields_pure hs
  intro hlt
  refine (mark_yields hlt).bind ?_
  intro m hm
  rw [hs.src] at hlt
  refine (act_onward hs hlt hm).bind ?_
  rintro p' ⟨ho, hmore⟩
  exact yields_pure ⟨⟨ho.sound, ho.inside⟩, by omega⟩

theorem sound_start (d : Doc) : Sound d d.start.h where
  src := rfl
  nodes := rfl
  count := Nat.zero_le _
  text := rfl
  filled := Nat.zero_le _
  href := rfl
  stored := Nat.zero_le _
  st := rfl
  depth := by
    change 0 * stBytes ≤ _
    rw [Nat.zero_mul]
    exact Nat.zero_le _
  stack := ⟨[], rfl, trivial⟩
  run := Nat.le_refl _
  tiled _ := ⟨0, rfl, .inl rfl⟩

theorem htmlParse_sound (d : Doc) :
    Yields (htmlParse d) fun p => Sound d p.h ∧ p.h.runStart = p.h.text.used := by
  have hloop : Yields (loop round (d.html.length + 1) d.start) fun p => Sound d p.h := by
    refine yields_loop (fun p => Sound d p.h ∧ p.h.i ≤ d.html.length)
      (fun p => d.html.length - p.h.i) ?_ ⟨sound_start d, Nat.zero_le _⟩ (Nat.lt_succ_self _)
    rintro p ⟨hs, -⟩
    refine (round_yields hs).mono ?_
    intro t ht
    cases t with
    | again p' => exact ht
    | leave p' => exact ht
  refine hloop.bind ?_
  intro p hs
  rw [flush_eq]
  exact yields_pure ⟨hs.flushed, flushed_runStart p.h⟩

/-- For every page and all buffers the parser returns; it has accessed only the page and the
buffers, and the text nodes lie end to end in the text, all of it unless something was cut. -/
theorem htmlParse_robust (d : Doc) (hcap : d.text.length ≤ 65535) :
    ∃ p, htmlParse d = .ok p ∧
      p.h.nodes.length = d.nodes.length ∧ p.h.ncount ≤ d.nodes.length ∧
      p.h.text.out.length = d.text.length ∧ p.h.text.used ≤ d.text.length ∧
      p.h.href.out.length = d.href.length ∧ p.h.href.used ≤ d.href.length ∧
      p.h.st.length = d.scratch.length ∧ p.h.sp * stBytes ≤ d.scratch.length ∧
      ∃ e, Tiles 0 (texts p.h) e ∧ e ≤ p.h.text.used ∧
        (p.h.truncated = false → e = p.h.text.used) := by
  obtain ⟨p, hp, hs, hrun⟩ := htmlParse_sound d
  refine ⟨p, hp, hs.nodes, ?_, hs.text, ?_, hs.href, ?_, hs.st, ?_, ?_⟩
  · rw [← hs.nodes]
    exact hs.count
  · rw [← hs.text]
    exact hs.filled
  · rw [← hs.href]
    exact hs.stored
  · rw [← hs.st]
    exact hs.depth
  · obtain ⟨e, htiles, hend⟩ := hs.tiled hcap
    refine ⟨e, htiles, ?_, ?_⟩
    · omega
    · intro hf
      rcases hend with rfl | ⟨-, ht, -⟩
      · exact hrun
      · rw [hf] at ht
        exact Bool.noConfusion ht

def cramped : Doc := ⟨ascii "<p>a<!-- b", [⟨0, 0, 0, 0, 0, 0, 0⟩], [0, 0], [], []⟩

theorem htmlParse_robust_cramped : ∃ p, htmlParse cramped = .ok p ∧ p.h.ncount ≤ 1 ∧
    ∃ e, Tiles 0 (texts p.h) e ∧ e ≤ p.h.text.used := by
  obtain ⟨p, hp, -, hcount, -, -, -, -, -, -, e, htiles, he, -⟩ :=
    htmlParse_robust cramped (by decide)
  exact ⟨p, hp, hcount, e, htiles, he⟩

end Ezos.Html
