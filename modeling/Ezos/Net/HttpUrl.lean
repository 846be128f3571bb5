import Ezos.Html.Tables
import Ezos.Lib.Checked

/-!
# URLs, requests and redirects of `kernel/http.c`

The request and the redirected URL are put together byte by byte in buffers of a fixed size; a
request is read back as a start line and header fields, each ended by CRLF, and an empty line.
-/

namespace Ezos.Http

open Lib Checked
open Html (ascii)

set_option autoImplicit false

def httpUrlMax : Nat := 256
def httpHostMax : Nat := 128
def httpPathMax : Nat := 384
def reqMax : Nat := httpUrlMax + 512

def slash : U8 := 47
def colon : U8 := 58
def cr : U8 := 13
def lf : U8 := 10
def crlf : List U8 := [cr, lf]

def hLc (c : U8) : U8 := if 65 ≤ c ∧ c ≤ 90 then c - 65 + 97 else c

/-- `h_copy_bounded`: the string left in the buffer, and whether it was cut. -/
def hCopyBounded (cap : Nat) (src : List U8) : List U8 × Bool :=
  if cap = 0 then ([], true) else (src.take (cap - 1), cap - 1 < src.length)

/-- `h_prefix_ci` with the length of the prefix; a read past the list is one of the terminator. -/
def hPrefixCi : List U8 → List U8 → Bool
  | _, [] => true
  | s, p :: pfx => hLc (s.headD 0) == hLc p && hPrefixCi s.tail pfx

structure Url where
  host : List U8
  path : List U8
  port : U16
  https : Bool
deriving DecidableEq

/-- The scheme of a URL: `is_https`, the default port and the rest. -/
def splitScheme (url : List U8) (pathcap : Nat) : Option (Bool × U16 × List U8) :=
  if 7 ≤ url.length ∧ hPrefixCi url (ascii "http://") then some (false, 80, url.drop 7)
  else if 8 ≤ url.length ∧ hPrefixCi url (ascii "https://") then some (true, 443, url.drop 8)
  else if (hCopyBounded pathcap (ascii "/")).2 then none
  else some (false, 80, url)

def isDigit (c : U8) : Bool := 48 ≤ c && c ≤ 57

def parsePort (q : List U8) : Option (U16 × List U8) :=
  let digits := q.takeWhile isDigit
  let v := digits.foldl (fun v c => v * 10 + (c.toNat - 48)) 0
  if digits.length = 0 ∨ 5 < digits.length then none
  else if v = 0 ∨ 0xFFFF < v then none
  else some (BitVec.ofNat 16 v, q.drop digits.length)

def pathBytes (q : List U8) : List U8 := if q = [] then ascii "/" else q

def parseHost (https : Bool) (prt : U16) (p : List U8) (hostcap pathcap : Nat) : Option Url :=
  let h := p.takeWhile fun c => c ≠ slash ∧ c ≠ colon
  if h.length = 0 ∨ httpHostMax ≤ h.length then none
  else
    let host := hCopyBounded hostcap h
    if host.2 then none
    else
      let q := p.drop h.length
      (if q.head? = some colon then parsePort q.tail else some (prt, q)).bind fun r =>
        let path := hCopyBounded pathcap (pathBytes r.2)
        if path.2 then none else some ⟨host.1, path.1, r.1, https⟩

def httpParseUrl (url : List U8) (hostcap pathcap : Nat) : Option Url :=
  if url.length = 0 ∨ 2048 ≤ url.length then none
  else (splitScheme url pathcap).bind fun s => parseHost s.1 s.2.1 s.2.2 hostcap pathcap

/-- `buf[n++] = c` in a buffer of `room` bytes of which the first `n` are `buf`. -/
def push (room : Nat) (buf : List U8) (c : U8) : Prog (List U8) :=
  if buf.length < room then .ok (buf ++ [c]) else .error .outside

def pushAll (room : Nat) (buf : List U8) : List U8 → Prog (List U8)
  | [] => pure buf
  | c :: cs => do
    let buf ← push room buf c
    pushAll room buf cs

def digitsRev (v : Nat) : List U8 :=
  BitVec.ofNat 8 (48 + v % 10) :: if v / 10 = 0 then [] else digitsRev (v / 10)
termination_by v
decreasing_by omega

def portDigits (port : U16) : List U8 := (digitsRev port.toNat).reverse

def pushPort (room : Nat) (buf : List U8) (port : U16) : Prog (List U8) :=
  if port ≠ 80 then do
    let buf ← push room buf colon
    pushAll room buf (portDigits port)
  else pure buf

/-- The request that `http_round` builds in `g_req`. -/
def buildRequest (host path : List U8) (port : U16) : Prog (List U8) := do
  let r ← pushAll reqMax [] (ascii "GET ")
  let r ← pushAll reqMax r path
  let r ← pushAll reqMax r (ascii " HTTP/1.1\r\nHost: ")
  let r ← pushAll reqMax r host
  let r ← pushPort reqMax r port
  let r ← pushAll reqMax r crlf
  pushAll reqMax r (ascii "\r\nConnection: close\r\n\r\n")

/-- `resolve_redirect`: `none` is the result -1, otherwise the string in `out`, which has `cap`
bytes. -/
def resolveRedirect (loc baseHost : List U8) (basePort : U16) (cap : Nat) :
    Prog (Option (List U8)) :=
  let whole := fun (r : List U8 × Bool) => if r.2 then none else some r.1
  if loc.length = 0 then pure none
  else if 2 ≤ loc.length ∧ loc.head? = some slash ∧ loc.tail.head? = some slash then
    pure (whole (hCopyBounded cap (ascii "http:")))
  else if loc.head? = some slash then do
    let tmp ← pushAll httpUrlMax [] (ascii "http://")
    let tmp ← pushAll httpUrlMax tmp baseHost
    let tmp ← pushPort httpUrlMax tmp basePort
    let tmp ← pushAll httpUrlMax tmp loc
    let _ ← push httpUrlMax tmp 0
    if cap ≤ tmp.length then pure none else pure (some tmp)
  else pure (whole (hCopyBounded cap loc))

def authority (host : List U8) (port : U16) : List U8 :=
  host ++ if port ≠ 80 then colon :: portDigits port else []

variable {room : Nat} {buf l : List U8}

theorem pushAll_append (room : Nat) (buf l l' : List U8) :
    pushAll room buf (l ++ l') = pushAll room buf l >>= fun r => pushAll room r l' := by
  induction l generalizing buf with
  | nil => rfl
  | cons c l ih =>
    rw [List.cons_append, pushAll, pushAll, bind_assoc]
    exact congrArg _ (funext ih)

theorem pushAll_eq (h : buf.length ≤ room) : pushAll room buf l =
    if buf.length + l.length ≤ room then .ok (buf ++ l) else .error .outside := by
  induction l generalizing buf with
  | nil =>
    rw [List.length_nil, Nat.add_zero, if_pos h, List.append_nil]
    rfl
  | cons c l ih =>
    rw [pushAll, push, List.length_cons]
    by_cases hc : buf.length < room
    · have hlen : (buf ++ [c]).length = buf.length + 1 := List.length_append
      have hrest := @ih (buf ++ [c]) (by omega)
      rw [hlen, List.append_assoc] at hrest
      rw [if_pos hc]
      refine hrest.trans ?_
      congr 1
      rw [eq_iff_iff]
      omega
    · rw [if_neg hc, if_neg (by omega)]
      rfl

theorem pushPort_eq (room : Nat) (buf : List U8) (port : U16) :
    pushPort room buf port = pushAll room buf (if port ≠ 80 then colon :: portDigits port else []) := by
  rw [pushPort]
  split
  · rfl
  · rfl

theorem length_digitsRev {v k : Nat} (h : v < 10 ^ (k + 1)) : (digitsRev v).length ≤ k + 1 := by
  induction k generalizing v with
  | zero =>
    rw [digitsRev, if_pos (by omega)]
    exact Nat.le_refl _
  | succ k ih =>
    rw [digitsRev, List.length_cons]
    split
    · exact Nat.succ_le_succ (Nat.zero_le _)
    · apply Nat.succ_le_succ
      apply ih
      rw [Nat.pow_succ] at h
      omega

theorem length_authority (host : List U8) (port : U16) :
    (authority host port).length ≤ host.length + 6 := by
  have hdigits : (portDigits port).length ≤ 5 := by
    rw [portDigits, List.length_reverse]
    exact length_digitsRev (Nat.lt_of_lt_of_le port.isLt (by decide))
  rw [authority, List.length_append]
  split
  · rw [List.length_cons]
    omega
  · rw [List.length_nil]
    omega

/-- The bytes of `b` are the lines, each with CRLF behind it, and an empty line, and then `rest`. No line is
empty or holds a line feed. -/
structure Section (b : List U8) (lines : List (List U8)) (rest : List U8) : Prop where
  bytes : b = lines.flatMap (· ++ crlf) ++ crlf ++ rest
  proper : ∀ l ∈ lines, l ≠ [] ∧ lf ∉ l

def IsField (name value f : List U8) : Prop :=
  ∃ n pre post, n.map hLc = name ∧ f = n ++ [colon] ++ pre ++ value ++ post ∧
    ∀ c ∈ pre ++ post, c = 32 ∨ c = 9

/-- The bytes are one request for the URL and nothing else: the request line, and a header section with
the host and the wish to close, which ends with the last byte. -/
def IsRequest (u : Url) (b : List U8) : Prop :=
  ∃ fields, Section b ((ascii "GET " ++ u.path ++ ascii " HTTP/1.1") :: fields) [] ∧
    (∃ f ∈ fields, IsField (ascii "host") (authority u.host u.port) f) ∧
    ∃ f ∈ fields, IsField (ascii "connection") (ascii "close") f

def SendsRequest (u : Url) : Prop :=
  ∃ b, buildRequest u.host u.path u.port = .ok b ∧ IsRequest u b

def requestHead (u : Url) : List U8 :=
  ascii "GET " ++ u.path ++ ascii " HTTP/1.1\r\nHost: " ++ authority u.host u.port

theorem buildRequest_eq (u : Url) : buildRequest u.host u.path u.port =
    pushAll reqMax [] (requestHead u ++ crlf ++ ascii "\r\nConnection: close\r\n\r\n") := by
  simp only [requestHead, authority, ← List.append_assoc]
  simp only [pushAll_append, bind_assoc, buildRequest, pushPort_eq]

theorem hCopyBounded_fits {cap : Nat} {src : List U8} (h : (hCopyBounded cap src).2 = false) :
    (hCopyBounded cap src).1 = src ∧ src.length < cap := by
  rw [hCopyBounded] at h ⊢
  split at h
  · cases h
  · next hcap =>
    rw [if_neg hcap]
    have hle : src.length ≤ cap - 1 := by simpa using h
    exact ⟨List.take_of_length_le hle, by omega⟩

theorem httpParseUrl_fits {url : List U8} {u : Url}
    (h : httpParseUrl url httpHostMax httpPathMax = some u) :
    u.host.length < httpHostMax ∧ u.path.length < httpPathMax := by
  rw [httpParseUrl] at h
  split at h
  · cases h
  · obtain ⟨⟨https, prt, p⟩, _, h⟩ := Option.bind_eq_some_iff.mp h
    rw [parseHost] at h
    dsimp only at h
    split at h
    · cases h
    · split at h
      · cases h
      · next hhost =>
        obtain ⟨r, _, h⟩ := Option.bind_eq_some_iff.mp h
        split at h
        · cases h
        · next hpath =>
          obtain rfl := Option.some.inj h
          have hhost := hCopyBounded_fits (Bool.not_eq_true _ ▸ hhost)
          have hpath := hCopyBounded_fits (Bool.not_eq_true _ ▸ hpath)
          dsimp only
          rw [hhost.1, hpath.1]
          exact ⟨hhost.2, hpath.2⟩

theorem length_requestHead (u : Url) :
    (requestHead u).length = u.path.length + (authority u.host u.port).length + 21 := by
  have hget : (ascii "GET ").length = 4 := by decide
  have hmid : (ascii " HTTP/1.1\r\nHost: ").length = 17 := by decide
  simp only [requestHead, List.length_append, hget, hmid]
  omega

theorem buildRequest_fits {url : List U8} {u : Url}
    (h : httpParseUrl url httpHostMax httpPathMax = some u) : buildRequest u.host u.path u.port =
      .ok (requestHead u ++ crlf ++ ascii "\r\nConnection: close\r\n\r\n") := by
  obtain ⟨hhost, hpath⟩ := httpParseUrl_fits h
  have hauth := length_authority u.host u.port
  have htail : (ascii "\r\nConnection: close\r\n\r\n").length = 23 := by decide
  have hroom : (requestHead u ++ crlf ++ ascii "\r\nConnection: close\r\n\r\n").length ≤ reqMax := by
    have hhead := length_requestHead u
    have hcrlf : crlf.length = 2 := rfl
    have hmax : reqMax = 768 := rfl
    have hhostMax : httpHostMax = 128 := rfl
    have hpathMax : httpPathMax = 384 := rfl
    simp only [List.length_append]
    omega
  rw [buildRequest_eq, pushAll_eq (Nat.zero_le _), List.nil_append, List.length_nil, Nat.zero_add,
    if_pos hroom]

theorem splitOn_lines {lines : List (List U8)} (h : ∀ l ∈ lines, lf ∉ l) :
    (lines.flatMap (· ++ crlf) ++ crlf).splitOn lf = lines.map (· ++ [cr]) ++ [[cr], []] := by
  induction lines with
  | nil => rfl
  | cons l lines ih =>
    have hl : lf ∉ l ++ [cr] := by
      intro hmem
      rcases List.mem_append.mp hmem with hmem | hmem
      · exact h l List.mem_cons_self hmem
      · exact absurd (List.mem_singleton.mp hmem) (by decide)
    have hsplit : (l :: lines).flatMap (· ++ crlf) ++ crlf =
        (l ++ [cr]) ++ lf :: (lines.flatMap (· ++ crlf) ++ crlf) := by
      simp [crlf]
    rw [hsplit, List.splitOn_append_cons_self_of_not_mem hl,
      ih fun l' hl' => h l' (List.mem_cons_of_mem _ hl')]
    rfl

theorem not_section_of_blank {head tail : List U8} {lines : List (List U8)}
    (htail : tail.splitOn lf = [ascii "Connection: close\r", [cr], []]) :
    ¬ Section (head ++ crlf ++ (crlf ++ tail)) lines [] := by
  intro h
  have hbytes := h.bytes
  rw [List.append_nil] at hbytes
  have hlines := splitOn_lines fun l hl => (h.proper l hl).2
  have hsplit : head ++ crlf ++ (crlf ++ tail) = (head ++ [cr]) ++ lf :: ([cr] ++ lf :: tail) := by
    simp [crlf]
  have hmid : ([cr] : List U8).splitOn lf = [[cr]] := by decide
  rw [← hbytes, hsplit, List.splitOn_append_cons_self, List.splitOn_append_cons_self, htail, hmid]
    at hlines
  have heq : (head ++ [cr]).splitOn lf ++ [[cr], ascii "Connection: close\r"] ++ [[cr], []] =
      lines.map (· ++ [cr]) ++ [[cr], []] := by
    rw [← hlines]
    simp
  have hmem : [cr] ∈ lines.map (· ++ [cr]) := by
    rw [← List.append_cancel_right heq]
    simp
  obtain ⟨l, hl, hnil⟩ := List.mem_map.mp hmem
  exact (h.proper l hl).1 (by simpa using hnil)

theorem not_sendsRequest (u : Url) : ¬ SendsRequest u := by
  rintro ⟨b, hbuild, fields, hsection, _⟩
  rw [buildRequest_eq, pushAll_eq (Nat.zero_le _)] at hbuild
  split at hbuild
  · obtain rfl := Except.ok.inj hbuild
    exact not_section_of_blank (by decide) hsection
  · cases hbuild

/-- Whatever URL is accepted, the request is built in its buffer, and its header section ends before
the `Connection` field. -/
theorem not_sendsRequest_of_accepted {url : List U8} {u : Url}
    (h : httpParseUrl url httpHostMax httpPathMax = some u) :
    (∃ b, buildRequest u.host u.path u.port = .ok b) ∧ ¬ SendsRequest u :=
  ⟨⟨_, buildRequest_fits h⟩, not_sendsRequest u⟩

def rootUrl : Url := ⟨ascii "a", ascii "/", 80, false⟩

theorem httpParseUrl_root :
    httpParseUrl (ascii "http://a/") httpHostMax httpPathMax = some rootUrl := by decide

theorem not_sendsRequest_of_accepted_root :
    httpParseUrl (ascii "http://a/") httpHostMax httpPathMax = some rootUrl ∧
      (∃ b, buildRequest rootUrl.host rootUrl.path rootUrl.port = .ok b) ∧ ¬ SendsRequest rootUrl :=
  ⟨httpParseUrl_root, not_sendsRequest_of_accepted httpParseUrl_root⟩

/-- The request for `http://a/` ends its header section at the host. -/
theorem root_request_cut :
    httpParseUrl (ascii "http://a/") httpHostMax httpPathMax = some rootUrl ∧ ¬ SendsRequest rootUrl :=
  ⟨httpParseUrl_root, not_sendsRequest rootUrl⟩

def baseUrl (host : List U8) (port : U16) : List U8 := ascii "http://" ++ authority host port

def firstSegment (loc : List U8) : List U8 := loc.takeWhile fun c => c ≠ slash ∧ c ≠ 63 ∧ c ≠ 35

def isAlpha (c : U8) : Bool := 65 ≤ c && c ≤ 90 || 97 ≤ c && c ≤ 122

def HasScheme (loc : List U8) : Prop :=
  ∃ c scheme rest, loc = (c :: scheme) ++ colon :: rest ∧ isAlpha c ∧
    ∀ d ∈ scheme, isAlpha d ∨ isDigit d ∨ d = 43 ∨ d = 45 ∨ d = 46

def IsRelativePath (loc : List U8) : Prop := firstSegment loc ≠ [] ∧ colon ∉ firstSegment loc

instance (loc : List U8) : Decidable (IsRelativePath loc) :=
  decidable_of_iff ((firstSegment loc).isEmpty = false ∧ (firstSegment loc).contains colon = false)
    (by simp [IsRelativePath])

def NetworkPath (loc : List U8) : Prop := loc.head? = some slash ∧ loc.tail.head? = some slash

instance (loc : List U8) : Decidable (NetworkPath loc) := by
  unfold NetworkPath
  infer_instance

structure Resolves (host : List U8) (port : U16) (loc out : List U8) : Prop where
  absolute : HasScheme loc → out = loc
  network : NetworkPath loc → out = ascii "http:" ++ loc
  rooted : loc.head? = some slash → ¬ NetworkPath loc → out = baseUrl host port ++ loc
  /-- Relative to some directory of the base. -/
  relative : IsRelativePath loc → ∃ dir, out = baseUrl host port ++ slash :: dir ++ loc

/-- `resolve_redirect` stays in its buffers, and a URL that it returns is the one meant. -/
def Redirects (loc host : List U8) (port : U16) (cap : Nat) : Prop :=
  ∃ r, resolveRedirect loc host port cap = .ok r ∧ ∀ out, r = some out → Resolves host port loc out

/-- When `resolve_redirect` does what it should. -/
def RedirectGood (loc host : List U8) (port : U16) (cap : Nat) : Prop :=
  if loc = [] then True
  else if NetworkPath loc then cap ≤ 5
  else if loc.head? = some slash then (baseUrl host port).length + loc.length < httpUrlMax
  else IsRelativePath loc → cap ≤ loc.length

variable {loc host : List U8} {port : U16} {cap : Nat}

theorem not_relative_of_slash (h : loc.head? = some slash) : ¬ IsRelativePath loc := by
  intro hrel
  cases loc with
  | nil => cases h
  | cons c loc =>
    obtain rfl := Option.some.inj h
    exact hrel.1 (List.takeWhile_cons_of_neg (by decide))

theorem not_scheme_of_slash (h : loc.head? = some slash) : ¬ HasScheme loc := by
  rintro ⟨c, scheme, rest, rfl, hc, _⟩
  obtain rfl := Option.some.inj h
  revert hc
  decide

theorem hCopyBounded_whole (cap : Nat) (src : List U8) :
    (if (hCopyBounded cap src).2 then none else some (hCopyBounded cap src).1) =
      if cap ≤ src.length then none else some src := by
  by_cases hfits : (hCopyBounded cap src).2 = false
  · obtain ⟨hsrc, hlen⟩ := hCopyBounded_fits hfits
    rw [if_neg (by simp [hfits]), hsrc, if_neg (by omega)]
  · rw [if_pos (by simpa using hfits), if_pos]
    rw [hCopyBounded] at hfits
    split at hfits
    · omega
    · simp only [decide_eq_false_iff_not] at hfits
      omega

theorem resolveRedirect_push (hslash : loc.head? = some slash) (hnet : ¬ NetworkPath loc) :
    resolveRedirect loc host port cap =
      pushAll httpUrlMax [] (baseUrl host port ++ loc) >>= fun tmp =>
        push httpUrlMax tmp 0 >>= fun _ => if cap ≤ tmp.length then pure none else pure (some tmp) := by
  have hne : loc.length ≠ 0 := by
    intro h0
    rw [List.length_eq_zero_iff.mp h0] at hslash
    cases hslash
  have htwo : ¬ (2 ≤ loc.length ∧ loc.head? = some slash ∧ loc.tail.head? = some slash) :=
    fun h => hnet h.2
  rw [resolveRedirect]
  dsimp only
  rw [if_neg hne, if_neg htwo, if_pos hslash]
  simp only [baseUrl, authority, ← List.append_assoc]
  simp only [pushAll_append, bind_assoc, pushPort_eq]

theorem resolveRedirect_rooted (hslash : loc.head? = some slash) (hnet : ¬ NetworkPath loc) :
    resolveRedirect loc host port cap =
      if (baseUrl host port).length + loc.length < httpUrlMax then
        if cap ≤ (baseUrl host port ++ loc).length then pure none
        else pure (some (baseUrl host port ++ loc))
      else .error .outside := by
  have hlen : (baseUrl host port ++ loc).length = (baseUrl host port).length + loc.length :=
    List.length_append
  rw [resolveRedirect_push hslash hnet, pushAll_eq (Nat.zero_le _), List.length_nil, Nat.zero_add,
    List.nil_append, ← hlen]
  by_cases hlt : (baseUrl host port ++ loc).length < httpUrlMax
  · rw [if_pos hlt, if_pos (Nat.le_of_lt hlt)]
    change push httpUrlMax _ 0 >>= _ = _
    rw [push, if_pos hlt]
    rfl
  · rw [if_neg hlt]
    by_cases hle : (baseUrl host port ++ loc).length ≤ httpUrlMax
    · rw [if_pos hle]
      change push httpUrlMax _ 0 >>= _ = _
      rw [push, if_neg hlt]
      rfl
    · rw [if_neg hle]
      rfl

theorem resolveRedirect_network (hnet : NetworkPath loc) :
    resolveRedirect loc host port cap =
      .ok (if cap ≤ 5 then none else some (ascii "http:")) := by
  have hlen : 2 ≤ loc.length := by
    match loc, hnet with
    | _ :: _ :: _, _ => simp
  rw [resolveRedirect]
  dsimp only
  rw [if_neg (by omega), if_pos ⟨hlen, hnet⟩, hCopyBounded_whole]
  rfl

theorem resolveRedirect_other (hne : loc ≠ []) (hslash : loc.head? ≠ some slash) :
    resolveRedirect loc host port cap = .ok (if cap ≤ loc.length then none else some loc) := by
  rw [resolveRedirect]
  dsimp only
  rw [if_neg (mt List.length_eq_zero_iff.mp hne), if_neg (fun h => hslash h.2.1), if_neg hslash,
    hCopyBounded_whole]
  rfl

theorem redirects_iff (loc host : List U8) (port : U16) (cap : Nat) :
    Redirects loc host port cap ↔ RedirectGood loc host port cap := by
  rw [Redirects, RedirectGood]
  by_cases hnil : loc = []
  · subst hnil
    rw [if_pos rfl]
    exact ⟨fun _ => trivial, fun _ => ⟨none, rfl, fun out h => by cases h⟩⟩
  rw [if_neg hnil]
  by_cases hnet : NetworkPath loc
  · rw [if_pos hnet, resolveRedirect_network hnet]
    constructor
    · rintro ⟨r, hr, hgood⟩
      obtain rfl := Except.ok.inj hr
      by_contra hcap
      rw [if_neg hcap] at hgood
      have hout := (hgood _ rfl).network hnet
      exact hnil (List.self_eq_append_right.mp hout)
    · intro hcap
      rw [if_pos hcap]
      exact ⟨none, rfl, fun out h => by cases h⟩
  rw [if_neg hnet]
  by_cases hslash : loc.head? = some slash
  · rw [if_pos hslash, resolveRedirect_rooted hslash hnet]
    constructor
    · rintro ⟨r, hr, _⟩
      by_contra hlong
      rw [if_neg hlong] at hr
      cases hr
    · intro hfits
      rw [if_pos hfits]
      split
      · exact ⟨none, rfl, fun out h => by cases h⟩
      · refine ⟨_, rfl, fun out h => ?_⟩
        obtain rfl := Option.some.inj h
        exact ⟨fun h => absurd h (not_scheme_of_slash hslash), fun h => absurd h hnet,
          fun _ _ => rfl, fun h => absurd h (not_relative_of_slash hslash)⟩
  · rw [if_neg hslash, resolveRedirect_other hnil hslash]
    constructor
    · rintro ⟨r, hr, hgood⟩ hrel
      obtain rfl := Except.ok.inj hr
      by_contra hcap
      rw [if_neg hcap] at hgood
      -- a relative path is returned as it is, and is shorter than what it resolves to
      obtain ⟨dir, hout⟩ := (hgood _ rfl).relative hrel
      have hlen := congrArg List.length hout
      simp only [List.length_append, List.length_cons] at hlen
      omega
    · intro hgood
      refine ⟨_, rfl, fun out h => ?_⟩
      split at h
      · cases h
      · next hcap =>
        obtain rfl := Option.some.inj h
        exact ⟨fun _ => rfl, fun h => absurd h.1 hslash, fun h => absurd h hslash,
          fun hrel => absurd (hgood hrel) hcap⟩

theorem not_redirects_network : ¬ Redirects (ascii "//b/c") (ascii "a") 80 httpUrlMax := by
  rintro ⟨r, hr, hgood⟩
  have hrun : resolveRedirect (ascii "//b/c") (ascii "a") 80 httpUrlMax = .ok (some (ascii "http:")) := by
    rw [resolveRedirect_network (by decide)]
    rfl
  obtain rfl := Except.ok.inj (hrun.symm.trans hr)
  have hout := (hgood _ rfl).network (by decide)
  revert hout
  decide

end Ezos.Http
