import Ezos.Lib.Serial
import Ezos.Lib.Run
import Mathlib.Data.Fin.Tuple.Basic
import Mathlib.Logic.Function.Basic

/-!
# The DNS cache of `kernel/net.c`

Eight slots with a 64-byte name each, found by a linear scan. A name is copied into its slot in
place and without its terminator; only the last byte of the slot is set to NUL.
-/

namespace Ezos.Dns

open Lib.Serial Lib

set_option autoImplicit false

def dnsCacheMax : Nat := 8
def dnsNameMax : Nat := 64
def dnsTtlMax : U32 := 86400

structure Name where
  bytes : List U8
  noNul : ∀ c ∈ bytes, c ≠ 0

def toLower (c : U8) : U8 := if 65 ≤ c ∧ c ≤ 90 then c + 32 else c

/-- `dns_name_copy`: `n` is the index reached; `none` is the result 0 for a name that is too long. -/
def copyFrom (n : Nat) : List U8 → Option (List U8)
  | [] => some []
  | c :: cs =>
    if c = 0 then some []
    else if n + 1 ≥ dnsNameMax then none
    else (copyFrom (n + 1) cs).map (toLower c :: ·)

/-- The key that `dns_name_copy` leaves in its buffer; an empty name counts as refused. -/
def dnsNameCopy (name : List U8) : Option (List U8) :=
  match copyFrom 0 name with
  | some [] => none
  | r => r

/-- `dns_name_eq`; a read past the list is a read of the terminator. -/
def dnsNameEq : List U8 → List U8 → Bool
  | [], b => toLower 0 == toLower (b.headD 0)
  | c :: a, b =>
    if toLower c ≠ toLower (b.headD 0) then false
    else if toLower c = 0 then true
    else dnsNameEq a b.tail

structure Entry where
  used : Bool
  name : List U8
  ip : U32
  expire : U32

structure Cache where
  entries : Fin dnsCacheMax → Entry
  rr : U32
  hits : U32

def emptyEntry : Entry := ⟨false, List.replicate dnsNameMax 0, 0, 0⟩

def emptyCache : Cache := ⟨fun _ => emptyEntry, 0, 0⟩

def Entry.Expired (e : Entry) (now : U32) : Prop := 0 ≤ ahead now e.expire

instance (e : Entry) (now : U32) : Decidable (e.Expired now) := by
  unfold Entry.Expired
  infer_instance

def netDnsCacheLookup (c : Cache) (now : U32) (name : List U8) : Option U32 × Cache :=
  match Fin.find? (fun i => (c.entries i).used && dnsNameEq name (c.entries i).name) with
  | none => (none, c)
  | some i =>
    if (c.entries i).Expired now then
      (none, { c with entries := Function.update c.entries i { c.entries i with used := false } })
    else (some (c.entries i).ip, { c with hits := c.hits + 1 })

/-- The copy loop of `dns_cache_put` from index `i` on. -/
def copyKey : List U8 → Nat → List U8 → List U8
  | [], _, dst => dst
  | k :: ks, i, dst => copyKey ks (i + 1) (dst.set i k)

def slotFor (c : Cache) (key : List U8) : Option (Fin dnsCacheMax) :=
  Fin.find? (fun i => !(c.entries i).used || dnsNameEq key (c.entries i).name)

def victim (c : Cache) : Fin dnsCacheMax := ⟨c.rr.toNat % dnsCacheMax, Nat.mod_lt _ (by decide)⟩

def slotOf (c : Cache) (key : List U8) : Fin dnsCacheMax := (slotFor c key).getD (victim c)

def capTtl (ttl : U32) : U32 := if ttl > dnsTtlMax then dnsTtlMax else ttl

def dnsCachePut (c : Cache) (now : U32) (name : List U8) (ip ttl : U32) : Cache :=
  if ttl = 0 then c
  else match dnsNameCopy name with
    | none => c
    | some key =>
      let slot := slotOf c key
      let rr := if slotFor c key = none then c.rr + 1 else c.rr
      let bytes := (copyKey key 0 (c.entries slot).name).set (dnsNameMax - 1) 0
      let stored := Entry.mk true bytes ip (now + capTtl ttl * 1000)
      { c with rr := rr, entries := Function.update c.entries slot stored }

end Ezos.Dns

/-!
# The DNS cache over whole runs

`Holds` says what a used slot knows: it stands for one put of its name, and either that put has
run out or it is the latest put of the name that has not. A put keeps this as long as its slot
ends up with exactly the key and no other live slot carries the same name.
-/

namespace Ezos.Dns

open Lib.Serial Lib

def cstr (b : List U8) : List U8 := b.takeWhile (· ≠ 0)

def lower (s : List U8) : List U8 := s.map toLower

theorem toLower_eq_zero_iff (c : U8) : toLower c = 0 ↔ c = 0 := by
  revert c
  decide

theorem toLower_idem (c : U8) : toLower (toLower c) = toLower c := by
  revert c
  decide

theorem lower_idem (s : List U8) : lower (lower s) = lower s := by
  simp [lower, toLower_idem]

theorem lower_noNul {s : List U8} (h : ∀ c ∈ s, c ≠ 0) : ∀ c ∈ lower s, c ≠ 0 := by
  intro c hc
  obtain ⟨d, hd, rfl⟩ := List.mem_map.mp hc
  exact fun h0 => h d hd ((toLower_eq_zero_iff d).mp h0)

theorem cstr_nul (b : List U8) : cstr (0 :: b) = [] := rfl

theorem cstr_cons {c : U8} (h : c ≠ 0) (b : List U8) : cstr (c :: b) = c :: cstr b :=
  List.takeWhile_cons_of_pos (decide_eq_true h)

theorem cstr_append_nul {s : List U8} (h : ∀ c ∈ s, c ≠ 0) (rest : List U8) :
    cstr (s ++ 0 :: rest) = s := by
  induction s with
  | nil => exact cstr_nul rest
  | cons c s ih =>
    rw [List.cons_append, cstr_cons (h c List.mem_cons_self),
      ih (fun d hd => h d (List.mem_cons_of_mem _ hd))]

theorem cstr_of_noNul {s : List U8} (h : ∀ c ∈ s, c ≠ 0) : cstr s = s := by
  induction s with
  | nil => rfl
  | cons c s ih =>
    rw [cstr_cons (h c List.mem_cons_self), ih (fun d hd => h d (List.mem_cons_of_mem _ hd))]

theorem dnsNameEq_cons (c : U8) (a b : List U8) : dnsNameEq (c :: a) b ↔
    toLower c = toLower (b.headD 0) ∧ (c = 0 ∨ dnsNameEq a b.tail) := by
  rw [dnsNameEq, ← toLower_eq_zero_iff c]
  by_cases h : toLower c = toLower (b.headD 0)
  · by_cases h0 : toLower c = 0
    · rw [if_neg (not_not_intro h), if_pos h0]
      exact ⟨fun _ => ⟨h, .inl h0⟩, fun _ => rfl⟩
    · rw [if_neg (not_not_intro h), if_neg h0]
      exact ⟨fun he => ⟨h, .inr he⟩, fun he => he.2.resolve_left h0⟩
  · rw [if_pos h]
    exact ⟨fun he => absurd he (by decide), fun he => absurd he.1 h⟩

theorem dnsNameEq_iff (a b : List U8) : dnsNameEq a b ↔ lower (cstr a) = lower (cstr b) := by
  have hnil : lower (cstr []) = [] := rfl
  induction a generalizing b with
  | nil =>
    rw [dnsNameEq, beq_iff_eq, hnil]
    cases b with
    | nil => exact iff_of_true rfl rfl
    | cons d b =>
      rw [List.headD_cons, eq_comm, show toLower 0 = 0 from rfl, toLower_eq_zero_iff]
      by_cases hd : d = 0
      · subst hd
        exact iff_of_true rfl rfl
      · rw [cstr_cons hd]
        exact iff_of_false hd (List.cons_ne_nil _ _).symm
  | cons c a ih =>
    rw [dnsNameEq_cons]
    by_cases hc : c = 0
    · subst hc
      rw [cstr_nul]
      cases b with
      | nil => exact iff_of_true ⟨rfl, .inl rfl⟩ rfl
      | cons d b =>
        rw [List.headD_cons, show toLower 0 = 0 from rfl, @eq_comm _ 0, toLower_eq_zero_iff]
        by_cases hd : d = 0
        · subst hd
          exact iff_of_true ⟨rfl, .inl rfl⟩ rfl
        · rw [cstr_cons hd]
          exact iff_of_false (fun h => hd h.1) (List.cons_ne_nil _ _).symm
    · rw [cstr_cons hc]
      have hc' : toLower c ≠ 0 := fun h => hc ((toLower_eq_zero_iff c).mp h)
      cases b with
      | nil => exact iff_of_false (fun h => hc' h.1) (List.cons_ne_nil _ _)
      | cons d b =>
        rw [List.headD_cons, List.tail_cons]
        by_cases hd : d = 0
        · subst hd
          exact iff_of_false (fun h => hc' h.1) (List.cons_ne_nil _ _)
        · rw [cstr_cons hd, lower, List.map_cons, lower, List.map_cons, List.cons.injEq]
          exact and_congr_right fun _ => (or_iff_right hc).trans (ih b)

theorem copyFrom_eq (n : Nat) {s : List U8} (hs : ∀ c ∈ s, c ≠ 0) :
    copyFrom n s = if s = [] ∨ n + s.length < dnsNameMax then some (lower s) else none := by
  induction s generalizing n with
  | nil => simp [copyFrom, lower]
  | cons c s ih =>
    have hc : c ≠ 0 := hs c List.mem_cons_self
    rw [copyFrom, if_neg hc, ih (n + 1) (fun d hd => hs d (List.mem_cons_of_mem _ hd))]
    by_cases hlen : n + (s.length + 1) < dnsNameMax
    · have h1 : ¬ n + 1 ≥ dnsNameMax := by omega
      have h2 : n + 1 + s.length < dnsNameMax := by omega
      simp [h1, h2, hlen, lower]
    · have hne : ¬ (n + 1 < dnsNameMax ∧ s = []) := by
        intro h
        rw [h.2] at hlen
        exact hlen h.1
      have h2 : ¬ n + 1 + s.length < dnsNameMax := by omega
      by_cases h1 : n + 1 ≥ dnsNameMax
      · simp [h1, hlen]
      · have hs' : s ≠ [] := fun h => hne ⟨by omega, h⟩
        simp [h1, h2, hlen, hs']

theorem copyKey_eq (key : List U8) (i : Nat) (dst : List U8) (h : i + key.length ≤ dst.length) :
    copyKey key i dst = dst.take i ++ key ++ dst.drop (i + key.length) := by
  induction key generalizing i dst with
  | nil => simp [copyKey]
  | cons k key ih =>
    rw [List.length_cons] at h ⊢
    have hlen : i < dst.length := by omega
    rw [copyKey, ih (i + 1) _ (by rw [List.length_set]; omega), List.take_succ_eq_append_getElem
      (by rw [List.length_set]; exact hlen), List.getElem_set_self, List.take_set_of_le (le_refl i),
      List.drop_set_of_lt (by omega), show i + 1 + key.length = i + (key.length + 1) by omega]
    simp

theorem cstr_copyKey {key dst : List U8} (hkey : ∀ c ∈ key, c ≠ 0) (hlen : dst.length = dnsNameMax)
    (hnul : dst[key.length]? = some 0) :
    cstr ((copyKey key 0 dst).set (dnsNameMax - 1) 0) = key := by
  obtain ⟨hlt, h0⟩ := List.getElem?_eq_some_iff.mp hnul
  have hdrop : dst.drop key.length = 0 :: dst.drop (key.length + 1) := by
    rw [List.drop_eq_getElem_cons hlt, h0]
  have hcopy : copyKey key 0 dst = key ++ 0 :: dst.drop (key.length + 1) := by
    rw [copyKey_eq key 0 dst (by omega), List.take_zero, List.nil_append, Nat.zero_add, hdrop]
  rw [hlen, dnsNameMax] at hlt
  rw [hcopy, List.set_append_right _ _ (by rw [dnsNameMax]; omega)]
  cases dnsNameMax - 1 - key.length with
  | zero => exact cstr_append_nul hkey _
  | succ m => exact cstr_append_nul hkey _

theorem length_copyKey (key : List U8) (i : Nat) (dst : List U8) :
    (copyKey key i dst).length = dst.length := by
  induction key generalizing i dst with
  | nil => rfl
  | cons k key ih => rw [copyKey, ih, List.length_set]

structure Put where
  key : List U8
  ip : U32
  deadline : Nat

/-- The cache, an unbounded clock of which `g_pit_ticks` shows the low 32 bits, and the puts so
far, the latest first. -/
structure Session where
  cache : Cache
  now : Nat
  puts : List Put

def boot (t : Nat) : Session := ⟨emptyCache, t, []⟩

inductive Op where
  | put (name : Name) (ip ttl : U32)
  | lookup (name : Name)
  | advance (ms : Nat)

def Name.key (n : Name) : List U8 := lower n.bytes

def apply (s : Session) : Op → Session
  | .put n ip ttl =>
    { s with
      cache := dnsCachePut s.cache (wrap s.now) n.bytes ip ttl
      puts := ⟨n.key, ip, s.now + (capTtl ttl).toNat * 1000⟩ :: s.puts }
  | .lookup n => { s with cache := (netDnsCacheLookup s.cache (wrap s.now) n.bytes).2 }
  | .advance ms => { s with now := s.now + ms }

def answer (s : Session) (n : Name) : Option U32 :=
  (netDnsCacheLookup s.cache (wrap s.now) n.bytes).1

def freshest (puts : List Put) (now : Nat) (key : List U8) : Option Put :=
  puts.find? (fun p => p.key = key ∧ now < p.deadline)

def Op.InRange : Op → Prop
  | .advance ms => ms < 2 ^ 31
  | _ => True

/-- A put is clean if its slot has a NUL at the length of the key and no other slot holds a live
entry of that name; a clock step is clean if it leaves no entry expired for `2^31` ms. -/
def Clean (s : Session) : Op → Prop
  | .put n _ ttl =>
    ttl ≠ 0 → n.bytes ≠ [] → n.bytes.length < dnsNameMax →
      (s.cache.entries (slotOf s.cache n.key)).name[n.bytes.length]? = some 0 ∧
      ∀ j, j ≠ slotOf s.cache n.key → (s.cache.entries j).used →
        dnsNameEq n.key (s.cache.entries j).name → (s.cache.entries j).Expired (wrap s.now)
  | .lookup _ => True
  | .advance ms => ∀ j, (s.cache.entries j).used → (s.cache.entries j).Expired (wrap s.now) →
      (wrap s.now - (s.cache.entries j).expire).toNat + ms < 2 ^ 31

structure Holds (s : Session) (e : Entry) (p : Put) : Prop where
  name : cstr e.name = p.key
  lowered : lower p.key = p.key
  nonempty : p.key ≠ []
  short : p.key.length < dnsNameMax
  ip : e.ip = p.ip
  expire : e.expire = wrap p.deadline
  ahead : p.deadline < s.now + 2 ^ 31
  behind : s.now < p.deadline + 2 ^ 31
  latest : s.now < p.deadline → freshest s.puts s.now p.key = some p

structure Inv (s : Session) : Prop where
  size : ∀ i, (s.cache.entries i).name.length = dnsNameMax
  holds : ∀ i, (s.cache.entries i).used → ∃ p, Holds s (s.cache.entries i) p

theorem Holds.expired_iff {s : Session} {e : Entry} {p : Put} (h : Holds s e p) :
    e.Expired (wrap s.now) ↔ p.deadline ≤ s.now := by
  rw [Entry.Expired, h.expire]
  exact ahead_nonneg_iff (by have := h.ahead; omega) h.behind

theorem Holds.eq_iff {s : Session} {e : Entry} {p : Put} (h : Holds s e p) (n : Name) :
    dnsNameEq n.bytes e.name ↔ n.key = p.key := by
  rw [dnsNameEq_iff, cstr_of_noNul n.noNul, h.name, h.lowered]
  exact Iff.rfl

theorem dnsNameEq_key (n : Name) (b : List U8) : dnsNameEq n.key b = dnsNameEq n.bytes b := by
  rw [Bool.eq_iff_iff, dnsNameEq_iff, dnsNameEq_iff, Name.key, cstr_of_noNul (lower_noNul n.noNul),
    cstr_of_noNul n.noNul, lower_idem]

theorem boot_inv (t : Nat) : Inv (boot t) where
  size _ := rfl
  holds _ h := absurd h Bool.false_ne_true

theorem Inv.dropSlot {s : Session} (h : Inv s) {c : Cache}
    (hc : ∀ i, c.entries i = s.cache.entries i ∨
      c.entries i = { s.cache.entries i with used := false }) : Inv { s with cache := c } := by
  refine ⟨fun i => ?_, fun i hu => ?_⟩
  · rcases hc i with he | he
    · exact (congrArg (fun e => e.name.length) he).trans (h.size i)
    · exact (congrArg (fun e => e.name.length) he).trans (h.size i)
  · rcases hc i with he | he
    · have hu' : (s.cache.entries i).used = true := (congrArg Entry.used he).symm.trans hu
      obtain ⟨p, hp⟩ := h.holds i hu'
      exact ⟨p, by rw [he]; exact { hp with }⟩
    · exact absurd ((congrArg Entry.used he).symm.trans hu) Bool.false_ne_true

theorem netDnsCacheLookup_inv {s : Session} (h : Inv s) (n : Name) : Inv (apply s (.lookup n)) := by
  apply h.dropSlot
  intro i
  rw [netDnsCacheLookup]
  split
  · exact .inl rfl
  · rename_i k hk
    split
    · by_cases hi : i = k
      · subst hi
        exact .inr (Function.update_self _ _ _)
      · exact .inl (Function.update_of_ne hi _ _)
    · exact .inl rfl

theorem apply_advance_inv {s : Session} (h : Inv s) {ms : Nat} (hms : ms < 2 ^ 31)
    (hc : Clean s (.advance ms)) : Inv (apply s (.advance ms)) := by
  refine ⟨h.size, fun i hu => ?_⟩
  obtain ⟨p, hp⟩ := h.holds i hu
  have ha := hp.ahead
  have hb := hp.behind
  refine ⟨p, { hp with ahead := ?_, behind := ?_, latest := ?_ }⟩
  · exact Nat.lt_of_lt_of_le ha (by simp only [apply]; omega)
  · by_cases hexp : p.deadline ≤ s.now
    · have hgap := hc i hu (hp.expired_iff.mpr hexp)
      rw [hp.expire, toNat_sub_wrap hexp (by omega)] at hgap
      simp only [apply]
      omega
    · simp only [apply]
      omega
  · intro hlive
    simp only [apply] at hlive ⊢
    obtain ⟨hk, as, bs, hl, hno⟩ := List.find?_eq_some_iff_append.mp (hp.latest (by omega))
    refine List.find?_eq_some_iff_append.mpr ⟨by simpa using hlive, as, bs, hl, fun q hq => ?_⟩
    have hq := hno q hq
    simp only [Bool.not_eq_true', decide_eq_false_iff_not, not_and, Nat.not_lt] at hq ⊢
    intro hkey
    have := hq hkey
    omega

theorem capTtl_le (ttl : U32) : (capTtl ttl).toNat ≤ 86400 := by
  rw [capTtl, dnsTtlMax]
  split
  · exact le_refl _
  · rename_i h
    exact BitVec.not_lt.mp h

theorem capTtl_pos {ttl : U32} (h : ttl ≠ 0) : 0 < (capTtl ttl).toNat := by
  rw [capTtl, dnsTtlMax]
  split
  · decide
  · exact Nat.pos_of_ne_zero (toNat_ne_zero h)

theorem wrap_deadline (now : Nat) (ttl : U32) :
    wrap now + capTtl ttl * 1000 = wrap (now + (capTtl ttl).toNat * 1000) := by
  have hmul : wrap ((capTtl ttl).toNat * 1000) = capTtl ttl * 1000 := by
    rw [wrap, BitVec.ofNat_mul]
    exact congrArg (· * 1000) (wrap_toNat _)
  rw [wrap_add, hmul]

theorem dnsNameCopy_eq (n : Name) : dnsNameCopy n.bytes =
    if n.bytes ≠ [] ∧ n.bytes.length < dnsNameMax then some n.key else none := by
  rw [dnsNameCopy, copyFrom_eq 0 n.noNul, Nat.zero_add]
  cases hb : n.bytes with
  | nil => simp [lower]
  | cons c cs =>
    by_cases hlen : (c :: cs).length < dnsNameMax
    · rw [if_pos (.inr hlen), if_pos ⟨List.cons_ne_nil _ _, hlen⟩, Name.key, hb, lower, List.map_cons]
    · rw [if_neg (not_or_intro (List.cons_ne_nil _ _) hlen), if_neg (fun h => hlen h.2)]

theorem dnsCachePut_cases (c : Cache) (now : U32) (n : Name) (ip ttl : U32) :
    (¬ (ttl ≠ 0 ∧ n.bytes ≠ [] ∧ n.bytes.length < dnsNameMax) ∧ dnsCachePut c now n.bytes ip ttl = c) ∨
    (ttl ≠ 0 ∧ n.bytes ≠ [] ∧ n.bytes.length < dnsNameMax ∧
      (dnsCachePut c now n.bytes ip ttl).entries (slotOf c n.key) =
        ⟨true, (copyKey n.key 0 (c.entries (slotOf c n.key)).name).set (dnsNameMax - 1) 0, ip,
          now + capTtl ttl * 1000⟩ ∧
      ∀ j, j ≠ slotOf c n.key → (dnsCachePut c now n.bytes ip ttl).entries j = c.entries j) := by
  rw [dnsCachePut, dnsNameCopy_eq]
  by_cases ht : ttl = 0
  · exact .inl ⟨fun h => h.1 ht, if_pos ht⟩
  · rw [if_neg ht]
    by_cases hn : n.bytes ≠ [] ∧ n.bytes.length < dnsNameMax
    · rw [if_pos hn]
      exact .inr ⟨ht, hn.1, hn.2, Function.update_self _ _ _, fun j hj => Function.update_of_ne hj _ _⟩
    · rw [if_neg hn]
      exact .inl ⟨fun h => hn h.2, rfl⟩

theorem freshest_cons_of_ne {p : Put} {puts : List Put} {now : Nat} {key : List U8}
    (h : ¬ (p.key = key ∧ now < p.deadline)) : freshest (p :: puts) now key = freshest puts now key :=
  List.find?_cons_of_neg (by simpa using h)

theorem freshest_cons_self {p : Put} {puts : List Put} {now : Nat} (h : now < p.deadline) :
    freshest (p :: puts) now p.key = some p :=
  List.find?_cons_of_pos (by simpa using h)

theorem length_key (n : Name) : n.key.length = n.bytes.length := List.length_map _

def Session.record (s : Session) (n : Name) (ip ttl : U32) : Put :=
  ⟨n.key, ip, s.now + (capTtl ttl).toNat * 1000⟩

theorem Session.record_live {s : Session} {n : Name} {ip ttl : U32}
    (h : s.now < (s.record n ip ttl).deadline) : ttl ≠ 0 := by
  rintro rfl
  exact absurd h (lt_irrefl _)

theorem apply_put_keep {s : Session} (h : Inv s) {n : Name} {ip ttl : U32}
    (hno : ¬ (ttl ≠ 0 ∧ n.bytes ≠ [] ∧ n.bytes.length < dnsNameMax)) :
    Inv { s with puts := s.record n ip ttl :: s.puts } := by
  refine ⟨h.size, fun i hu => ?_⟩
  obtain ⟨p, hp⟩ := h.holds i hu
  refine ⟨p, { hp with latest := fun hlive => ?_ }⟩
  refine (freshest_cons_of_ne fun hq => hno ⟨Session.record_live hq.2, ?_, ?_⟩).trans (hp.latest hlive)
  · intro hnil
    exact hp.nonempty (hq.1.symm.trans (by rw [Session.record, Name.key, hnil]; rfl))
  · rw [← length_key, show n.key = p.key from hq.1]
    exact hp.short

theorem Holds.stored {s : Session} {n : Name} {ip ttl : U32} {old : List U8}
    (hne : n.bytes ≠ []) (hlen : n.bytes.length < dnsNameMax) (hold : old.length = dnsNameMax)
    (hnul : old[n.bytes.length]? = some 0) (c : Cache) :
    Holds { s with cache := c, puts := s.record n ip ttl :: s.puts }
      ⟨true, (copyKey n.key 0 old).set (dnsNameMax - 1) 0, ip, wrap s.now + capTtl ttl * 1000⟩
      (s.record n ip ttl) where
  name := cstr_copyKey (lower_noNul n.noNul) hold (length_key n ▸ hnul)
  lowered := lower_idem n.bytes
  nonempty h := hne (List.map_eq_nil_iff.mp h)
  short := (length_key n).symm ▸ hlen
  ip := rfl
  expire := wrap_deadline s.now ttl
  ahead := by
    have := capTtl_le ttl
    simp only [Session.record]
    omega
  behind := by
    simp only [Session.record]
    omega
  latest h := freshest_cons_self h

theorem apply_put_inv {s : Session} (h : Inv s) {n : Name} {ip ttl : U32}
    (hc : Clean s (.put n ip ttl)) : Inv (apply s (.put n ip ttl)) := by
  rcases dnsCachePut_cases s.cache (wrap s.now) n ip ttl with ⟨hno, heq⟩ | ⟨ht, hne, hlen, hslot, hkeep⟩
  · have hs : apply s (.put n ip ttl) = { s with puts := s.record n ip ttl :: s.puts } := by
      rw [apply, heq, Session.record]
    rw [hs]
    exact apply_put_keep h hno
  · obtain ⟨hnul, hothers⟩ := hc ht hne hlen
    have hold := h.size (slotOf s.cache n.key)
    refine ⟨fun i => ?_, fun i hu => ?_⟩
    · by_cases hi : i = slotOf s.cache n.key
      · subst hi
        refine (congrArg (fun e => e.name.length) hslot).trans ?_
        rw [List.length_set, length_copyKey, hold]
      · exact (congrArg (fun e => e.name.length) (hkeep i hi)).trans (h.size i)
    · by_cases hi : i = slotOf s.cache n.key
      · subst hi
        refine ⟨s.record n ip ttl, ?_⟩
        rw [show (apply s (.put n ip ttl)).cache.entries _ = _ from hslot]
        exact Holds.stored hne hlen hold hnul _
      · have he : (apply s (.put n ip ttl)).cache.entries i = s.cache.entries i := hkeep i hi
        rw [he] at hu ⊢
        obtain ⟨p, hp⟩ := h.holds i hu
        refine ⟨p, { hp with latest := fun hlive => ?_ }⟩
        refine (freshest_cons_of_ne fun hq => ?_).trans (hp.latest hlive)
        -- the same name in another slot: it has run out, since the put is clean
        have hsame : dnsNameEq n.key (s.cache.entries i).name := by
          rw [dnsNameEq_key]
          exact (hp.eq_iff n).mpr hq.1
        exact absurd (hp.expired_iff.mp (hothers i hi hu hsame)) (Nat.not_le_of_lt hlive)

theorem apply_inv {s : Session} (h : Inv s) {op : Op} (hr : op.InRange) (hc : Clean s op) :
    Inv (apply s op) := by
  cases op with
  | put n ip ttl => exact apply_put_inv h hc
  | lookup n => exact netDnsCacheLookup_inv h n
  | advance ms => exact apply_advance_inv h hr hc

theorem Inv.hit {s : Session} (h : Inv s) {n : Name} {ip : U32} (ha : answer s n = some ip) :
    ∃ p, freshest s.puts s.now n.key = some p ∧ p.ip = ip := by
  rw [answer, netDnsCacheLookup] at ha
  split at ha
  · cases ha
  · rename_i i hi
    obtain ⟨hm, -⟩ := Fin.find?_eq_some_iff.mp hi
    obtain ⟨hu, heq⟩ := Bool.and_eq_true_iff.mp hm
    obtain ⟨p, hp⟩ := h.holds i hu
    split at ha
    · cases ha
    · rename_i hexp
      have hlive : s.now < p.deadline := Nat.lt_of_not_le fun hle => hexp (hp.expired_iff.mpr hle)
      refine ⟨p, ?_, ?_⟩
      · rw [(hp.eq_iff n).mp heq]
        exact hp.latest hlive
      · exact hp.ip.symm.trans (Option.some.inj ha)

theorem slotOf_spec (c : Cache) (key : List U8) :
    ∀ j, j < slotOf c key ∨ slotFor c key = none →
      (c.entries j).used ∧ dnsNameEq key (c.entries j).name = false := by
  intro j hj
  have hno : (!(c.entries j).used || dnsNameEq key (c.entries j).name) = false := by
    rcases hs : slotFor c key with _ | i
    · exact Fin.find?_eq_none_iff.mp hs j
    · rw [slotOf, hs, Option.getD_some] at hj
      exact (Fin.find?_eq_some_iff.mp hs).2 j (hj.resolve_right (fun h => by cases h))
  simpa using hno

theorem answer_put {s : Session} (h : Inv s) {n : Name} {ip ttl : U32} (hc : Clean s (.put n ip ttl))
    (ht : ttl ≠ 0) (hne : n.bytes ≠ []) (hlen : n.bytes.length < dnsNameMax) :
    answer (apply s (.put n ip ttl)) n = some ip := by
  rcases dnsCachePut_cases s.cache (wrap s.now) n ip ttl with ⟨hno, -⟩ | ⟨-, -, -, hslot, hkeep⟩
  · exact absurd ⟨ht, hne, hlen⟩ hno
  · have hp : Holds (apply s (.put n ip ttl))
        ((apply s (.put n ip ttl)).cache.entries (slotOf s.cache n.key)) (s.record n ip ttl) := by
      rw [show (apply s (.put n ip ttl)).cache.entries _ = _ from hslot]
      exact Holds.stored hne hlen (h.size _) (hc ht hne hlen).1 _
    have hfind : Fin.find? (fun i => ((apply s (.put n ip ttl)).cache.entries i).used &&
        dnsNameEq n.bytes ((apply s (.put n ip ttl)).cache.entries i).name) =
        some (slotOf s.cache n.key) := by
      refine Fin.find?_eq_some_iff.mpr ⟨?_, fun j hj => ?_⟩
      · rw [(hp.eq_iff n).mpr rfl, show (apply s (.put n ip ttl)).cache.entries _ = _ from hslot]
        rfl
      · have he : (apply s (.put n ip ttl)).cache.entries j = s.cache.entries j :=
          hkeep j (Fin.ne_of_lt hj)
        rw [he, ← dnsNameEq_key, (slotOf_spec s.cache n.key j (.inl hj)).2, Bool.and_false]
    have hlive : ¬ ((apply s (.put n ip ttl)).cache.entries (slotOf s.cache n.key)).Expired
        (wrap (apply s (.put n ip ttl)).now) := by
      rw [hp.expired_iff]
      have := capTtl_pos ht
      simp only [Session.record, apply]
      omega
    rw [answer, netDnsCacheLookup, hfind]
    exact (congrArg Prod.fst (if_neg hlive)).trans (congrArg some hp.ip)

structure TtlMap (s : Session) : Prop where
  hit : ∀ n ip, answer s n = some ip → ∃ p, freshest s.puts s.now n.key = some p ∧ p.ip = ip
  never : ∀ n : Name, (∀ p ∈ s.puts, p.key ≠ n.key) → answer s n = none

theorem Inv.ttlMap {s : Session} (h : Inv s) : TtlMap s where
  hit _ _ := h.hit
  never n hn := by
    rcases ha : answer s n with _ | ip
    · rfl
    · obtain ⟨p, hp, -⟩ := h.hit ha
      obtain ⟨hk, as, bs, hl, -⟩ := List.find?_eq_some_iff_append.mp hp
      simp only [Bool.decide_and, Bool.and_eq_true, decide_eq_true_eq] at hk
      exact absurd hk.1 (hn p (hl ▸ List.mem_append_right as List.mem_cons_self))

def Step (s : Session) (op : Op) (t : Session) : Prop := op.InRange ∧ t = apply s op

def CleanStep (s : Session) (op : Op) (t : Session) : Prop := Step s op t ∧ Clean s op

theorem CleanStep.inv {s t : Session} {op : Op} (h : Inv s) (hs : CleanStep s op t) : Inv t := by
  obtain ⟨⟨hr, rfl⟩, hc⟩ := hs
  exact apply_inv h hr hc

theorem run_inv {t : Nat} {ops : List Op} {s : Session} (h : Run CleanStep (boot t) ops s) : Inv s :=
  Run.invariant (I := Inv) CleanStep.inv h (boot_inv t)

/-- In every run of clean steps the cache is a TTL map, and a name just put is found. -/
theorem run_dnsCache_spec {t : Nat} {ops : List Op} {s : Session}
    (h : Run CleanStep (boot t) ops s) :
    TtlMap s ∧ ∀ (pre : List Op) (n : Name) (ip ttl : U32), ops = pre ++ [.put n ip ttl] → ttl ≠ 0 →
      n.bytes ≠ [] → n.bytes.length < dnsNameMax → answer s n = some ip := by
  refine ⟨(run_inv h).ttlMap, ?_⟩
  rintro pre n ip ttl rfl ht hne hlen
  obtain ⟨m, hm, hlast⟩ := h.split
  obtain ⟨⟨-, rfl⟩, hc⟩ := hlast.single
  exact answer_put (run_inv hm) hc ht hne hlen

def longName : Name := ⟨[0x61, 0x2E, 0x62, 0x63], by decide⟩
def shortName : Name := ⟨[0x61, 0x2E, 0x62], by decide⟩

theorem longName_clean : CleanStep (boot 0) (.put longName 1 60) (apply (boot 0) (.put longName 1 60)) := by
  refine ⟨⟨trivial, rfl⟩, fun _ _ _ => ⟨by decide, fun j _ hu => ?_⟩⟩
  exact absurd hu Bool.false_ne_true

theorem run_dnsCache_spec_longName :
    answer (apply (boot 0) (.put longName 1 60)) longName = some 1 :=
  (run_dnsCache_spec (.cons longName_clean (.nil _))).2 [] longName 1 60 rfl (by decide) (by decide)
    (by decide)

def suffixOps : List Op :=
  [.put longName 1 1, .advance 1000, .lookup longName, .put shortName 2 60]

/-- After these steps the name just put is not found, and a name whose only put has run out is
found with the address of the other one. -/
theorem dnsCachePut_keeps_stale_suffix : ∃ s, Run Step (boot 0) suffixOps s ∧
    answer s shortName = none ∧ answer s longName = some 2 ∧
    freshest s.puts s.now longName.key = none := by
  refine ⟨suffixOps.foldl apply (boot 0), ?_, ?_⟩
  · exact .cons ⟨trivial, rfl⟩ (.cons ⟨by simp [Op.InRange], rfl⟩ (.cons ⟨trivial, rfl⟩
      (.cons ⟨trivial, rfl⟩ (.nil _))))
  · decide

end Ezos.Dns
