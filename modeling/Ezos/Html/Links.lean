import Ezos.Html.Deeds

/-!
# Links and the title

The parser is watched: which tags are open, which of them are links and what they point to, which
were open when a text node was emitted, and what the title says. The parser does not look at any of
it. Offsets into the arena of the strings are checked against it when the parser has returned.
-/

namespace Ezos.Html

open Lib Lib.Checked

set_option autoImplicit false

structure Open where
  tag : U8
  link : Option (List U8)

structure Watch where
  page : Page
  opens : List Open
  seen : List (HtmlNode × List Open)
  title : Option (List U8)

def appended (h h' : HP) : List U8 :=
  (h'.href.out.drop h.href.used).take (h'.href.used - 1 - h.href.used)

def closeTag (t : U8) : List Open → List Open
  | [] => []
  | o :: os => if o.tag = t then os else closeTag t os

def opensAfter (h h' : HP) (opens : List Open) : Mark → List Open
  | .endTag t _ => if t = tScript ∨ t = tStyle then opens else closeTag t opens
  | .startTag t _ _ =>
    if h'.sp = h.sp + 1 then
      ⟨t, if h'.links = h.links + 1 then some (appended h h') else none⟩ :: opens
    else opens
  | _ => opens

def titleAfter (h h' : HP) (title : Option (List U8)) : Mark → Option (List U8)
  | .startTag t _ _ =>
    if element t = .title ∧ h.href.used < h'.href.used then some (appended h h') else title
  | _ => title

def seenAfter (w : Watch) (h' : HP) : List (HtmlNode × List Open) :=
  w.seen ++ ((texts h').drop (texts w.page.h).length).map fun n => (n, w.opens)

def Watch.note (w : Watch) (m : Mark) (p : Page) : Watch where
  page := p
  opens := opensAfter w.page.h p.h w.opens m
  seen := seenAfter w p.h
  title := titleAfter w.page.h p.h w.title m

def watchTurn (w : Watch) : Prog (Turn Watch Watch) :=
  if w.page.h.i < w.page.h.src.length then do
    let m ← mark w.page.h
    let p ← act w.page m
    pure (.again (w.note m p))
  else pure (.leave w)

def Doc.watched (d : Doc) : Watch := ⟨d.start, [], [], none⟩

def watch (d : Doc) : Prog Watch := do
  let w ← loop watchTurn (d.html.length + 1) d.watched
  let h ← flush w.page.h
  pure { w with page := { w.page with h := h }, seen := seenAfter w h }

theorem htmlParse_eq_watch (d : Doc) : htmlParse d = (do pure (← watch d).page) := by
  have hturn : ∀ w : Watch, round w.page =
      (do pure ((← watchTurn w).map Watch.page Watch.page)) := by
    intro w
    unfold round watchTurn
    by_cases hlt : w.page.h.i < w.page.h.src.length
    · rw [if_pos hlt, if_pos hlt]
      cases mark w.page.h with
      | error e => rfl
      | ok m =>
        change (act w.page m >>= _) = _
        cases hact : act w.page m with
        | error e =>
          change _ = ((act w.page m >>= _) >>= _)
          rw [hact]
          rfl
        | ok p =>
          change _ = ((act w.page m >>= _) >>= _)
          rw [hact]
          rfl
    · rw [if_neg hlt, if_neg hlt]
      rfl
  have hloop := loop_map hturn (d.html.length + 1) d.watched
  unfold htmlParse watch
  change (loop round (d.html.length + 1) d.watched.page >>= _) = _
  rw [hloop]
  cases loop watchTurn (d.html.length + 1) d.watched with
  | error e => rfl
  | ok w =>
    change (flush w.page.h >>= _) = ((flush w.page.h >>= _) >>= _)
    rw [flush_eq]
    rfl

def StringAt (out : List U8) (off : Nat) (v : List U8) : Prop :=
  (∀ b ∈ v, b ≠ 0) ∧ v ++ [0] <+: out.drop off

/-- The target of the innermost open `<a>`. -/
def linkOf (opens : List Open) : Option (List U8) :=
  (opens.find? fun o => o.tag = tA).bind Open.link

/-- What `wv_follow` and `wv_layout` rely on. -/
structure LinksRight (w : Watch) : Prop where
  inside : ∀ x ∈ w.seen, x.1.hrefOff ≠ 0 → ∃ v, linkOf x.2 = some v ∧
    StringAt w.page.h.href.out (x.1.hrefOff.toNat - 1) v
  outside : ∀ x ∈ w.seen, x.1.hrefOff = 0 ↔ ∀ o ∈ x.2, o.link = none
  title : w.page.titleOff ≠ 0 → ∃ t, w.title = some t ∧ t.length = w.page.titleLen ∧
    (w.page.h.href.out.drop (w.page.titleOff.toNat - 1)).take w.page.titleLen = t

def Closes (h : HP) : Prop :=
  closedRun h ≠ [] ∧ (h.i < h.src.length → ∃ m, mark h = .ok m ∧ closesRun m = true)

def StoresTitle (h : HP) : Prop :=
  h.i < h.src.length ∧
    ∃ t j k, mark h = .ok (.startTag t j k) ∧ element t = .title ∧ TitleFits (behind h k)

def Unlinked (w : Watch) : Prop := w.page.h.hrefOff = 0 ∧ ∀ o ∈ w.opens, o.link = none

structure Clear (w : Watch) : Prop where
  text : Closes w.page.h → Unlinked w
  title : ¬ StoresTitle w.page.h

def Reached (d : Doc) (w : Watch) : Prop := Turns watchTurn d.watched w

section Steps
variable {d : Doc} {w : Watch}

theorem watchTurn_yields (hs : Sound d w.page.h) : Yields (watchTurn w) fun t =>
    match t with
    | .again w' => ∃ m, mark w.page.h = .ok m ∧ w.page.h.i < d.html.length ∧
        w' = w.note m w'.page ∧ Sound d w'.page.h ∧ w.page.h.i < w'.page.h.i ∧
        w'.page.h.i ≤ d.html.length ∧
        Deed w.page.h w'.page.h m ∧ TitleMove w.page w'.page m
    | .leave w' => w' = w ∧ ¬ w.page.h.i < w.page.h.src.length := by
  refine yields_ite ?_ fun hge => yields_pure ⟨rfl, hge⟩
  intro hlt
  obtain ⟨m, hm, hat⟩ := mark_yields hlt
  rw [hs.src] at hlt
  rw [hm]
  refine ((act_onward hs hlt hat).and (act_move hs hlt hat)).bind ?_
  rintro p' ⟨⟨ho, hmore⟩, hd, ht⟩
  exact yields_pure ⟨m, rfl, hlt, rfl, ho.sound, hmore, ho.inside, hd, ht⟩

theorem Reached.invariant {I : Watch → Prop} (h : Reached d w) (hstart : I d.watched)
    (hstep : ∀ w w' m, Reached d w → Sound d w.page.h → I w → mark w.page.h = .ok m →
      w.page.h.i < d.html.length → w' = w.note m w'.page → Sound d w'.page.h →
      Deed w.page.h w'.page.h m → TitleMove w.page w'.page m → I w') :
    Sound d w.page.h ∧ I w := by
  induction h with
  | refl => exact ⟨sound_start d, hstart⟩
  | tail hreach hturn ih =>
    obtain ⟨hs, hI⟩ := ih
    obtain ⟨m, hm, hlt, hnote, hs', -, -, hd, ht⟩ := (watchTurn_yields hs).of_eq hturn
    exact ⟨hs', hstep _ _ m hreach hs hI hm hlt hnote hs' hd ht⟩

theorem Reached.sound (h : Reached d w) : Sound d w.page.h :=
  (h.invariant (I := fun _ => True) trivial fun _ _ _ _ _ _ _ _ _ _ _ _ => trivial).1

theorem watch_yields (d : Doc) : Yields (watch d) fun w =>
    ∃ u, Reached d u ∧ ¬ u.page.h.i < u.page.h.src.length ∧ watchTurn u = .ok (.leave u) ∧
      w = { u with
        page := { u.page with h := flushed u.page.h }, seen := seenAfter u (flushed u.page.h) } := by
  have hloop : Yields (loop watchTurn (d.html.length + 1) d.watched) fun _ => True := by
    refine yields_loop (fun w => Sound d w.page.h ∧ w.page.h.i ≤ d.html.length)
      (fun w => d.html.length - w.page.h.i) ?_ ⟨sound_start d, Nat.zero_le _⟩ (Nat.lt_succ_self _)
    rintro w ⟨hs, -⟩
    refine (watchTurn_yields hs).mono ?_
    intro t ht
    cases t with
    | again w' =>
      obtain ⟨m, -, hlt, -, hs', hmore, hle, -, -⟩ := ht
      exact ⟨⟨hs', hle⟩, by omega⟩
    | leave w' => trivial
  obtain ⟨u, hu, -⟩ := hloop
  obtain ⟨v, hv, hleave⟩ := turns_of_loop hu
  obtain ⟨rfl, hend⟩ := (watchTurn_yields (Reached.sound hv)).of_eq hleave
  refine ⟨_, ?_, u, hv, hend, hleave, rfl⟩
  rw [watch, hu]
  change (flush u.page.h >>= _) = _
  rw [flush_eq]
  rfl

theorem mem_closedRun {h : HP} {n : HtmlNode} (hn : n ∈ closedRun h) : n = pending h := by
  unfold closedRun at hn
  split at hn
  · exact List.mem_singleton.mp hn
  · exact absurd hn (List.not_mem_nil)

theorem pending_mem {h : HP} (hc : closedRun h ≠ []) : pending h ∈ closedRun h := by
  unfold closedRun at hc ⊢
  split
  · exact List.mem_singleton_self _
  · rename_i hno
    rw [if_neg hno] at hc
    exact absurd rfl hc

theorem seenAfter_eq {h' : HP} {ns : List HtmlNode} (h : texts h' = texts w.page.h ++ ns) :
    seenAfter w h' = w.seen ++ ns.map fun n => (n, w.opens) := by
  unfold seenAfter
  rw [h, List.drop_left]

end Steps

def Plain (w : Watch) : Prop :=
  (∀ x ∈ w.seen, x.1.hrefOff = 0 ∧ ∀ o ∈ x.2, o.link = none) ∧ w.page.titleOff = 0

section Clear
variable {d : Doc} {w : Watch}

theorem plain_seen {h' : HP} {b : Bool} (hp : Plain w)
    (htexts : texts h' = texts w.page.h ++ if b then closedRun w.page.h else [])
    (hclear : b = true → closedRun w.page.h ≠ [] → Unlinked w) :
    ∀ x ∈ seenAfter w h', x.1.hrefOff = 0 ∧ ∀ o ∈ x.2, o.link = none := by
  intro x hx
  rw [seenAfter_eq htexts] at hx
  rcases List.mem_append.mp hx with hx | hx
  · exact hp.1 x hx
  · obtain ⟨n, hn, rfl⟩ := List.mem_map.mp hx
    cases b with
    | false => exact absurd hn List.not_mem_nil
    | true =>
      have hun := hclear rfl (List.ne_nil_of_mem hn)
      obtain rfl := mem_closedRun hn
      exact hun

theorem plain_of_clear (hclear : ∀ u, Reached d u → Clear u) (h : Reached d w) : Plain w := by
  refine (h.invariant ⟨fun x hx => absurd hx List.not_mem_nil, rfl⟩ ?_).2
  intro u u' m hu hs hp hm hlt hnote _ hd ht
  have hc := hclear u hu
  rw [hnote]
  refine ⟨plain_seen hp hd.texts ?_, ?_⟩
  · intro hb hrun
    exact hc.text ⟨hrun, fun _ => ⟨m, hm, hb⟩⟩
  · change u'.page.titleOff = 0
    cases ht with
    | same off _ _ => exact off.trans hp.2
    | stored title fits _ _ _ _ =>
      rw [← hs.src] at hlt
      exact absurd ⟨hlt, _, _, _, hm, title, fits⟩ hc.title

theorem right_of_plain (hp : Plain w) : LinksRight w where
  inside x hx hne := absurd (hp.1 x hx).1 hne
  outside x hx := ⟨fun _ => (hp.1 x hx).2, fun _ => (hp.1 x hx).1⟩
  title hne := absurd hp.2 hne

end Clear

/-! ## A link or a title makes them wrong -/

def NulAt (a : Arena) (off : U16) : Prop :=
  off ≠ 0 → off.toNat ≤ a.used ∧ a.out[off.toNat - 1]? = some 0

theorem NulAt.mono {a b : Arena} {off : U16} (hn : NulAt a off) (h : Grows a b) : NulAt b off := by
  intro hne
  obtain ⟨hle, hnul⟩ := hn hne
  have hpos : off.toNat ≠ 0 := fun h0 => hne (BitVec.eq_of_toNat_eq h0)
  exact ⟨Nat.le_trans hle h.more, (h.kept _ (by omega)).trans hnul⟩

theorem not_stringAt {out : List U8} {off : Nat} {v : List U8} (hnul : out[off]? = some 0)
    (hv : v ≠ []) : ¬ StringAt out off v := by
  rintro ⟨hbytes, hprefix⟩
  obtain ⟨b, v, rfl⟩ := List.exists_cons_of_ne_nil hv
  have hhead : (out.drop off)[0]? = some b := by
    obtain ⟨t, ht⟩ := hprefix
    rw [← ht]
    rfl
  rw [List.getElem?_drop, Nat.add_zero, hnul] at hhead
  exact hbytes b List.mem_cons_self (Option.some.inj hhead).symm

def Mirrors (h : HP) (opens : List Open) : Prop :=
  ∃ es, es.length = h.sp ∧ Stacked h.st es ∧ es.map Elem.tag = opens.map Open.tag ∧
    ∀ e ∈ es, NulAt h.href e.hrefOff

structure Shadow (w : Watch) : Prop where
  stack : Mirrors w.page.h w.opens
  off : NulAt w.page.h.href w.page.h.hrefOff
  links : ∀ o ∈ w.opens, o.link ≠ some []
  shown : ∀ x ∈ w.seen, NulAt w.page.h.href x.1.hrefOff ∧ ∀ o ∈ x.2, o.link ≠ some []
  title : ∀ t, w.title = some t → w.page.titleOff ≠ 0 ∧ NulAt w.page.h.href w.page.titleOff ∧
    0 < w.page.titleLen

section Shadow
variable {h h' : HP} {opens : List Open} {t : U8}

theorem Mirrors.still (hm : Mirrors h opens) (hgrows : Grows h.href h'.href) (hsp : h'.sp = h.sp)
    (hst : h'.st = h.st) : Mirrors h' opens := by
  obtain ⟨es, hlen, hstacked, htags, hoffs⟩ := hm
  refine ⟨es, hlen.trans hsp.symm, ?_, htags, fun e he => (hoffs e he).mono hgrows⟩
  rw [hst]
  exact hstacked

theorem Mirrors.opened (hm : Mirrors h opens) (hgrows : Grows h.href h'.href)
    (hoff : NulAt h.href h.hrefOff) (ho : Opened h h' t) (link : Option (List U8)) :
    Mirrors h' (if h'.sp = h.sp + 1 then ⟨t, link⟩ :: opens else opens) := by
  cases ho with
  | full sp st =>
    rw [if_neg (by omega)]
    exact hm.still hgrows sp st
  | pushed e sp tag off held kept =>
    rw [if_pos sp]
    obtain ⟨es, hlen, hstacked, htags, hoffs⟩ := hm
    refine ⟨e :: es, ?_, ⟨?_, hstacked.congr (Nat.le_of_eq hlen) kept⟩, ?_, ?_⟩
    · rw [List.length_cons, hlen, sp]
    · rw [hlen]
      exact held
    · rw [List.map_cons, List.map_cons, tag, htags]
    · intro e' he'
      rcases List.mem_cons.mp he' with rfl | he'
      · rw [off]
        exact hoff.mono hgrows
      · exact (hoffs e' he').mono hgrows

theorem popped_closeTag {es : List Elem} {opens : List Open}
    (h : es.map Elem.tag = opens.map Open.tag) :
    match popped t es with
    | none => closeTag t opens = []
    | some r => r.2.map Elem.tag = (closeTag t opens).map Open.tag ∧ r.1 ∈ es ∧ ∀ e ∈ r.2, e ∈ es := by
  induction es generalizing opens with
  | nil =>
    obtain rfl : opens = [] := List.map_eq_nil_iff.mp h.symm
    rfl
  | cons e es ih =>
    cases opens with
    | nil => exact absurd h (by simp)
    | cons o os =>
      rw [List.map_cons, List.map_cons] at h
      injection h with htag hrest
      rw [popped, closeTag]
      by_cases he : e.tag = t
      · rw [if_pos he, if_pos (htag ▸ he)]
        exact ⟨hrest, List.mem_cons_self, fun e' he' => List.mem_cons_of_mem _ he'⟩
      · rw [if_neg he, if_neg (htag ▸ he)]
        have := ih hrest
        cases hp : popped t es with
        | none =>
          rw [hp] at this
          exact this
        | some r =>
          rw [hp] at this
          exact ⟨this.1, List.mem_cons_of_mem _ this.2.1, fun e' he' => List.mem_cons_of_mem _ (this.2.2 e' he')⟩

theorem mem_closeTag {o : Open} (h : o ∈ closeTag t opens) : o ∈ opens := by
  induction opens with
  | nil => exact absurd h List.not_mem_nil
  | cons o' os ih =>
    rw [closeTag] at h
    split at h
    · exact List.mem_cons_of_mem _ h
    · exact List.mem_cons_of_mem _ (ih h)

theorem appended_length (hfits : h'.href.used ≤ h'.href.out.length) :
    (appended h h').length = h'.href.used - 1 - h.href.used := by
  rw [appended, List.length_take, List.length_drop]
  omega

theorem nulAt_zero (a : Arena) : NulAt a 0 := fun h => absurd rfl h

theorem nulAt_used {a : Arena} (hcap : a.out.length ≤ 65535) (hfits : a.used ≤ a.out.length)
    (hnul : a.out[a.used - 1]? = some 0) : NulAt a (BitVec.ofNat 16 a.used) := by
  intro _
  rw [BitVec.toNat_ofNat, Nat.mod_eq_of_lt (by omega)]
  exact ⟨Nat.le_refl _, hnul⟩

theorem shadow_move {m : Mark} (hm : Mirrors h opens) (hoff : NulAt h.href h.hrefOff)
    (hlinks : ∀ o ∈ opens, o.link ≠ some []) (hd : Deed h h' m)
    (hcap : h'.href.out.length ≤ 65535) :
    Mirrors h' (opensAfter h h' opens m) ∧ NulAt h'.href h'.hrefOff ∧
      ∀ o ∈ opensAfter h h' opens m, o.link ≠ some [] := by
  have hgrows := hd.href
  -- A tag that is opened without a link is watched without one.
  have hlinkless : ∀ (t : U8), h'.links = h.links →
      ∀ o ∈ (if h'.sp = h.sp + 1 then
        ⟨t, if h'.links = h.links + 1 then some (appended h h') else none⟩ :: opens else opens),
        o.link ≠ some [] := by
    intro t hl o ho
    have hne : ¬ h'.links = h.links + 1 := by omega
    rw [if_neg hne] at ho
    split at ho
    · rcases List.mem_cons.mp ho with rfl | ho
      · simp
      · exact hlinks o ho
    · exact hlinks o ho
  cases hd.stack with
  | still raw same =>
    have hopens : opensAfter h h' opens m = opens := by
      cases m with
      | text => rfl
      | decl => rfl
      | lone => rfl
      | endTag t j => exact if_pos (raw t j rfl)
      | startTag t j k => exact if_neg (by rw [same.sp]; omega)
    rw [hopens, same.hrefOff]
    exact ⟨hm.still hgrows same.sp same.st, hoff.mono hgrows, hlinks⟩
  | @opened t j k into off links =>
    rw [off]
    exact ⟨hm.opened hgrows hoff into _, hoff.mono hgrows, hlinkless t links⟩
  | @unlinked t j k into off links =>
    rw [off]
    exact ⟨hm.opened hgrows hoff into _, nulAt_zero _, hlinkless t links⟩
  | linked into links more off nul =>
    rw [off]
    refine ⟨hm.opened hgrows hoff into _, nulAt_used hcap hgrows.fits nul, ?_⟩
    intro o ho
    change o ∈ (if h'.sp = h.sp + 1 then _ else _) at ho
    split at ho
    · rcases List.mem_cons.mp ho with rfl | ho
      · intro heq
        have hlen := appended_length (h := h) hgrows.fits
        rw [Option.some.inj heq, List.length_nil] at hlen
        omega
      · exact hlinks o ho
    · exact hlinks o ho
  | @closed t j raw same =>
    have hopens : opensAfter h h' opens (.endTag t j) = closeTag t opens := if_neg raw
    obtain ⟨es, hlen, hstacked, htags, hoffs⟩ := hm
    have hstill := same es hlen hstacked
    have hpop := popped_closeTag htags (t := t)
    rw [hopens]
    refine ⟨?_, ?_, fun o ho => hlinks o (mem_closeTag ho)⟩
    · cases hp : popped t es with
      | none =>
        rw [hp] at hpop hstill
        rw [hpop]
        exact ⟨[], hstill.sp.symm, trivial, rfl, fun e he => absurd he List.not_mem_nil⟩
      | some r =>
        rw [hp] at hpop hstill
        refine ⟨r.2, hstill.sp.symm, ?_, hpop.1, fun e he => (hoffs e (hpop.2.2 e he)).mono hgrows⟩
        rw [hstill.st]
        exact popped_stacked hstacked hp
    · rw [hstill.hrefOff]
      cases hp : popped t es with
      | none => exact nulAt_zero _
      | some r =>
        rw [hp] at hpop
        exact (hoffs r.1 hpop.2.1).mono hgrows

end Shadow

section Converse
variable {d : Doc} {w : Watch}

theorem shadow_seen {h' : HP} {ns : List HtmlNode} (hsh : Shadow w) (hgrows : Grows w.page.h.href h'.href)
    (htexts : texts h' = texts w.page.h ++ ns) (hns : ∀ n ∈ ns, n = pending w.page.h) :
    ∀ x ∈ seenAfter w h', NulAt h'.href x.1.hrefOff ∧ ∀ o ∈ x.2, o.link ≠ some [] := by
  intro x hx
  rw [seenAfter_eq htexts] at hx
  rcases List.mem_append.mp hx with hx | hx
  · obtain ⟨hnul, hlinks⟩ := hsh.shown x hx
    exact ⟨hnul.mono hgrows, hlinks⟩
  · obtain ⟨n, hn, rfl⟩ := List.mem_map.mp hx
    obtain rfl := hns n hn
    exact ⟨hsh.off.mono hgrows, hsh.links⟩

theorem shadow_start (d : Doc) : Shadow d.watched where
  stack := ⟨[], rfl, trivial, rfl, fun _ he => absurd he List.not_mem_nil⟩
  off := nulAt_zero _
  links _ ho := absurd ho List.not_mem_nil
  shown _ hx := absurd hx List.not_mem_nil
  title _ ht := absurd ht (by simp [Doc.watched])

theorem shadow_of_reached (hcap : d.href.length ≤ 65535) (h : Reached d w) : Shadow w := by
  refine (h.invariant (shadow_start d) ?_).2
  intro u u' m _ _ hsh _ _ hnote hs' hd ht
  have hcap' : u'.page.h.href.out.length ≤ 65535 := by
    rw [hs'.href]
    exact hcap
  obtain ⟨hstack, hoff, hlinks⟩ := shadow_move hsh.stack hsh.off hsh.links hd hcap'
  rw [hnote]
  refine ⟨hstack, hoff, hlinks, ?_, ?_⟩
  · refine shadow_seen hsh hd.href hd.texts ?_
    intro n hn
    split at hn
    · exact mem_closedRun hn
    · exact absurd hn List.not_mem_nil
  · intro t htitle
    change titleAfter u.page.h u'.page.h u.title m = some t at htitle
    cases ht with
    | same off len used =>
      have hkept : titleAfter u.page.h u'.page.h u.title m = u.title := by
        cases m with
        | startTag t' j k =>
          refine if_neg ?_
          rintro ⟨he, hlt⟩
          rw [used t' j k rfl he] at hlt
          exact Nat.lt_irrefl _ hlt
        | _ => rfl
      rw [hkept] at htitle
      obtain ⟨hne, hnul, hpos⟩ := hsh.title t htitle
      refine ⟨?_, ?_, ?_⟩
      · change u'.page.titleOff ≠ 0
        rw [off]
        exact hne
      · change NulAt u'.page.h.href u'.page.titleOff
        rw [off]
        exact hnul.mono hd.href
      · change 0 < u'.page.titleLen
        rw [len]
        exact hpos
    | stored title fits len used off nul =>
      have hfits := hd.href.fits
      refine ⟨?_, ?_, len⟩
      · change u'.page.titleOff ≠ 0
        rw [off]
        intro h0
        have hnat := congrArg BitVec.toNat h0
        rw [BitVec.toNat_ofNat, Nat.mod_eq_of_lt (by omega)] at hnat
        change u'.page.h.href.used = 0 at hnat
        omega
      · change NulAt u'.page.h.href u'.page.titleOff
        rw [off]
        exact nulAt_used hcap' hfits nul

theorem shadow_flushed (hs : Sound d w.page.h) (hsh : Shadow w) : Shadow { w with
    page := { w.page with h := flushed w.page.h }, seen := seenAfter w (flushed w.page.h) } := by
  obtain ⟨hstill, href⟩ := flushed_still w.page.h
  have hgrows : Grows w.page.h.href (flushed w.page.h).href := by
    rw [href]
    exact .refl hs.stored
  refine ⟨hsh.stack.still hgrows hstill.sp hstill.st, ?_, hsh.links, ?_, ?_⟩
  · change NulAt (flushed w.page.h).href (flushed w.page.h).hrefOff
    rw [hstill.hrefOff]
    exact hsh.off.mono hgrows
  · exact shadow_seen hsh hgrows (texts_flushed w.page.h) fun n => mem_closedRun
  · intro t ht
    obtain ⟨hne, hnul, hpos⟩ := hsh.title t ht
    exact ⟨hne, hnul.mono hgrows, hpos⟩

theorem seen_of_reached {u : Watch} (hu : Reached d u) (h : Turns watchTurn u w) {x : HtmlNode × List Open}
    (hx : x ∈ u.seen) : x ∈ w.seen := by
  induction h with
  | refl => exact hx
  | tail hreach hturn ih =>
    have hs := Reached.sound (hu.trans hreach)
    obtain ⟨m, -, -, hnote, -, -, -, hd, -⟩ := (watchTurn_yields hs).of_eq hturn
    rw [hnote]
    change x ∈ seenAfter _ _
    rw [seenAfter_eq hd.texts]
    exact List.mem_append_left _ ih

theorem linkOf_mem {opens : List Open} {v : List U8} (h : linkOf opens = some v) :
    ∃ o ∈ opens, o.link = some v := by
  unfold linkOf at h
  obtain ⟨o, ho, hv⟩ := Option.bind_eq_some_iff.mp h
  exact ⟨o, List.mem_of_find?_eq_some ho, hv⟩

theorem unlinked_of_right (hsh : Shadow w) (hr : LinksRight w) {x : HtmlNode × List Open}
    (hx : x ∈ w.seen) : x.1.hrefOff = 0 ∧ ∀ o ∈ x.2, o.link = none := by
  obtain ⟨hnul, hlinks⟩ := hsh.shown x hx
  have hzero : x.1.hrefOff = 0 := by
    by_contra hne
    obtain ⟨v, hv, hstring⟩ := hr.inside x hx hne
    obtain ⟨o, ho, hov⟩ := linkOf_mem hv
    have hvne : v ≠ [] := by
      rintro rfl
      exact hlinks o ho hov
    exact not_stringAt (hnul hne).2 hvne hstring
  exact ⟨hzero, (hr.outside x hx).mp hzero⟩

theorem title_of_right (hsh : Shadow w) (hr : LinksRight w) {t : List U8} (ht : w.title = some t) :
    t.head? = some 0 := by
  obtain ⟨hne, hnul, hpos⟩ := hsh.title t ht
  obtain ⟨t', ht', -, hbytes⟩ := hr.title hne
  rw [ht] at ht'
  obtain rfl := Option.some.inj ht'
  have h0 := (hnul hne).2
  rw [← hbytes, List.head?_eq_getElem?, List.getElem?_take_of_lt hpos, List.getElem?_drop,
    Nat.add_zero]
  exact h0

theorem closing_seen {u v : Watch} (hu : Reached d u) (hv : Turns watchTurn u v)
    (hend : ¬ v.page.h.i < v.page.h.src.length) (hc : Closes u.page.h) :
    (pending u.page.h, u.opens) ∈ seenAfter v (flushed v.page.h) := by
  rcases Relation.ReflTransGen.cases_head hv with rfl | ⟨w, hstep, hwv⟩
  · rw [seenAfter_eq (texts_flushed u.page.h)]
    exact List.mem_append_right _ (List.mem_map.mpr ⟨_, pending_mem hc.1, rfl⟩)
  · obtain ⟨m, hm, hlt, hnote, hs', -, -, hd, -⟩ := (watchTurn_yields hu.sound).of_eq hstep
    rw [← hu.sound.src] at hlt
    obtain ⟨m', hm', hcloses⟩ := hc.2 hlt
    rw [hm] at hm'
    injection hm' with hmm
    subst hmm
    have hseen : (pending u.page.h, u.opens) ∈ w.seen := by
      rw [hnote]
      change _ ∈ seenAfter _ _
      rw [seenAfter_eq hd.texts, hcloses, if_pos rfl]
      exact List.mem_append_right _ (List.mem_map.mpr ⟨_, pending_mem hc.1, rfl⟩)
    rw [seenAfter_eq (texts_flushed v.page.h)]
    exact List.mem_append_left _ (seen_of_reached (Relation.ReflTransGen.tail hu hstep) hwv hseen)

end Converse

/-- Links and titles get right offsets when no run is closed while a link is stored for an open tag
or in force, and no title is stored; for every page and all buffers. With no more strings than
16 bits count, nothing else does, but for a title that begins with a NUL. -/
theorem links_right (d : Doc) : ∃ w, watch d = .ok w ∧ htmlParse d = .ok w.page ∧
    ((∀ u, Reached d u → Clear u) → LinksRight w) ∧
    (d.href.length ≤ 65535 → LinksRight w →
      (∀ u, Reached d u → Closes u.page.h → Unlinked u) ∧
        ∀ t, w.title = some t → t.head? = some 0) := by
  obtain ⟨w, hw, u, hu, hend, hleave, rfl⟩ := watch_yields d
  refine ⟨_, hw, ?_, ?_, ?_⟩
  · rw [htmlParse_eq_watch, hw]
    rfl
  · intro hclear
    have hp := plain_of_clear hclear hu
    refine right_of_plain ⟨plain_seen hp (b := true) (texts_flushed u.page.h) ?_, hp.2⟩
    intro _ hrun
    exact (hclear u hu).text ⟨hrun, fun hlt => absurd hlt hend⟩
  · intro hcap hr
    have hsh' := shadow_flushed hu.sound (shadow_of_reached hcap hu)
    refine ⟨?_, fun t ht => title_of_right hsh' hr ht⟩
    intro v hv hc
    have hseen := closing_seen hv (hv.total hu hleave) hend hc
    exact unlinked_of_right hsh' hr hseen

def clickDoc : Doc :=
  ⟨ascii "<a href=\"x\">t</a>", [⟨0, 0, 0, 0, 0, 0, 0⟩], [0], [0, 0, 0, 0], [0, 0, 0, 0, 0]⟩

theorem click_empty : ∃ w, watch clickDoc = .ok w ∧ htmlParse clickDoc = .ok w.page ∧
    ¬ LinksRight w := by
  have hwatch : ∃ w, watch clickDoc = .ok w ∧
      w.seen = [(⟨0, 1, 2, nodeText, tOther, 0, 0⟩, [⟨tA, some [0x78]⟩])] ∧
      w.page.h.href.out = [0x78, 0, 0, 0] := ⟨_, rfl, rfl, rfl⟩
  obtain ⟨w, hw, hseen, hout⟩ := hwatch
  refine ⟨w, hw, ?_, ?_⟩
  · rw [htmlParse_eq_watch, hw]
    rfl
  intro hr
  obtain ⟨v, hv, hstring⟩ := hr.inside (⟨0, 1, 2, nodeText, tOther, 0, 0⟩, [⟨tA, some [0x78]⟩])
    (by rw [hseen]; exact List.mem_singleton_self _) (by decide)
  have hv' : linkOf [⟨tA, some [0x78]⟩] = some [0x78] := rfl
  rw [hv'] at hv
  obtain rfl := Option.some.inj hv
  refine not_stringAt ?_ (by simp) hstring
  rw [hout]
  rfl

end Ezos.Html
