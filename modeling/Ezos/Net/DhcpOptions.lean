import Ezos.Net.Dhcp
import Ezos.Lib.Checked

/-!
# What `dhcp_opt` finds

`options` is the reference reading of an option field. `dhcp_opt` looks an option up in up to three
fields; the second scan below is the same with every read checked against the message.
-/

namespace Ezos.Net

open Lib Lib.Memory Lib.NetOrder Checked

set_option autoImplicit false

/-- The options of a field: pads are skipped, and the reading stops at End, at an option that
overruns the field, and where no option fits any more. -/
def options : List U8 → List (U8 × List U8)
  | [] => []
  | [_] => []
  | c :: l :: rest =>
    if c = 0 then options (l :: rest)
    else if c = 255 then []
    else if rest.length < l.toNat then []
    else (c, rest.take l.toNat) :: options (rest.drop l.toNat)
termination_by field => field.length
decreasing_by
  · simp
  · simp only [List.length_drop, List.length_cons]
    omega

def firstValue (code : U8) (field : List U8) : Option (List U8) :=
  ((options field).find? (·.1 = code)).map (·.2)

def optionsField (d : List U8) : List U8 := d.drop 240
def fileField (d : List U8) : List U8 := (d.take 236).drop 108
def snameField (d : List U8) : List U8 := (d.take 108).drop 44

def overload (d : List U8) : U8 := (((firstValue 52 (optionsField d)).getD []).head?).getD 0

def optionFields (d : List U8) : List (List U8) :=
  [optionsField d] ++ (if overload d &&& 1 ≠ 0 then [fileField d] else []) ++
    (if overload d &&& 2 ≠ 0 then [snameField d] else [])

def DhcpWait.message (w : DhcpWait) : List U8 := bytesAt w.buf 0 w.len

theorem dhcpOptIn_eq (b : Mem) (stop : Nat) (code : U8) (max fuel i : Nat) (h : stop ≤ i + fuel) :
    dhcpOptIn b stop code max fuel i =
      ((firstValue code (bytesAt b i (stop - i))).getD []).take max := by
  induction fuel generalizing i with
  | zero =>
    have hnil : stop - i = 0 := by omega
    rw [dhcpOptIn, hnil]
    simp [bytesAt, firstValue, options]
  | succ fuel ih =>
    rw [dhcpOptIn]
    by_cases hi : i + 1 < stop
    · obtain ⟨n, hn⟩ : ∃ n, stop - i = n + 2 := ⟨stop - i - 2, by omega⟩
      rw [if_pos hi, hn, bytesAt_succ, bytesAt_succ, firstValue, options]
      dsimp only
      rw [length_bytesAt]
      by_cases h0 : b i = 0
      · have hrest : stop - (i + 1) = n + 1 := by omega
        rw [if_pos h0, if_pos h0, ih (i + 1) (by omega), hrest, bytesAt_succ]
        rfl
      · rw [if_neg h0, if_neg h0]
        by_cases hend : b i = 255
        · rw [if_pos hend, if_pos hend]
          simp
        · rw [if_neg hend, if_neg hend]
          by_cases hlong : n < (b (i + 1)).toNat
          · rw [if_pos (by omega), if_pos hlong]
            simp
          · rw [if_neg (by omega), if_neg hlong, bytesAt_take, bytesAt_drop]
            by_cases hcode : b i = code
            · rw [if_pos hcode, List.find?_cons_of_pos (by simpa using hcode)]
              simp only [Option.map_some, Option.getD_some, bytesAt_take]
              congr 1
              omega
            · have hrest : stop - (i + 2 + (b (i + 1)).toNat) = n - (b (i + 1)).toNat := by omega
              rw [if_neg hcode, List.find?_cons_of_neg (by simpa using hcode), ih _ (by omega), hrest]
              rfl
    · have hshort : stop - i = 0 ∨ stop - i = 1 := by omega
      rw [if_neg hi]
      rcases hshort with hlen | hlen
      · rw [hlen]
        simp [bytesAt, firstValue, options]
      · rw [hlen]
        simp [bytesAt, firstValue, options]

variable {w : DhcpWait} {code : U8} {max : Nat}

def usableValue (code : U8) (field : List U8) : Option (List U8) :=
  (firstValue code field).filter (· ≠ [])

theorem optionsField_message (w : DhcpWait) :
    optionsField w.message = bytesAt w.buf 240 (w.len - 240) := by
  rw [optionsField, DhcpWait.message, bytesAt_drop]

theorem fileField_message (w : DhcpWait) :
    fileField w.message = bytesAt w.buf 108 (min w.len 236 - 108) := by
  rw [fileField, DhcpWait.message, bytesAt_take, bytesAt_drop, Nat.min_comm]

theorem snameField_message (w : DhcpWait) :
    snameField w.message = bytesAt w.buf 44 (min w.len 108 - 44) := by
  rw [snameField, DhcpWait.message, bytesAt_take, bytesAt_drop, Nat.min_comm]

def found (code : U8) (max : Nat) (field : List U8) : List U8 :=
  ((firstValue code field).getD []).take max

theorem dhcpOptIn_options : dhcpOptIn w.buf w.len code max w.len 240 =
    found code max (optionsField w.message) := by
  rw [optionsField_message]
  exact dhcpOptIn_eq _ _ _ _ _ _ (by omega)

theorem dhcpOptIn_file : dhcpOptIn w.buf (min w.len 236) code max w.len 108 =
    found code max (fileField w.message) := by
  rw [fileField_message]
  exact dhcpOptIn_eq _ _ _ _ _ _ (by omega)

theorem dhcpOptIn_sname : dhcpOptIn w.buf (min w.len 108) code max w.len 44 =
    found code max (snameField w.message) := by
  rw [snameField_message]
  exact dhcpOptIn_eq _ _ _ _ _ _ (by omega)

theorem overload_of_value {d : List U8} {v : U8} {vs : List U8}
    (h : (firstValue 52 (optionsField d)).getD [] = v :: vs) : overload d = v := by
  rw [overload, h]
  rfl

theorem overload_of_none {d : List U8} (h : (firstValue 52 (optionsField d)).getD [] = []) :
    overload d = 0 := by
  rw [overload, h]
  rfl

def search (code : U8) (max : Nat) (fields : List (List U8)) : List U8 :=
  ((fields.map (found code max)).find? (· ≠ [])).getD []

@[simp] theorem search_nil : search code max [] = [] := rfl

theorem search_cons (field : List U8) (fields : List (List U8)) :
    search code max (field :: fields) =
      if found code max field ≠ [] then found code max field else search code max fields := by
  rw [search, search, List.map_cons, List.find?_cons]
  by_cases h : found code max field = []
  · simp [h]
  · simp [h]

theorem dhcpOpt_search (h : bootpFixed + 4 ≤ w.len) :
    dhcpOpt w code max = search code max (optionFields w.message) := by
  have hlen : 240 ≤ w.len := h
  rw [dhcpOpt, if_neg (by omega), dhcpOptIn_options, dhcpOptIn_options, dhcpOptIn_file,
    dhcpOptIn_sname, optionFields, List.append_assoc, List.singleton_append, search_cons]
  cases hopt : found code max (optionsField w.message) with
  | cons b bs => simp
  | nil =>
    simp only [ne_eq, not_true_eq_false, if_false]
    cases h52 : (firstValue 52 (optionsField w.message)).getD [] with
    | nil =>
      rw [overload_of_none h52, found, h52]
      simp
    | cons v vs =>
      have hfound : found 52 1 (optionsField w.message) = [v] := by
        rw [found, h52]
        rfl
      rw [overload_of_value h52, hfound]
      have hfile : 108 < w.len := by omega
      have hsname : 44 < w.len := by omega
      simp only [hfile, hsname, and_true]
      -- the two bits of option 52 announce the two fields independently
      by_cases hbit0 : v &&& 1 ≠ 0
      · rw [if_pos hbit0, if_pos hbit0, List.singleton_append, search_cons]
        split
        · rfl
        · split
          · simp [search_cons]
          · rfl
      · rw [if_neg hbit0, if_neg hbit0, List.nil_append, if_neg (not_not.mpr rfl)]
        split
        · simp [search_cons]
        · rfl

theorem usableValue_eq_some {field v : List U8} :
    usableValue code field = some v ↔ firstValue code field = some v ∧ v ≠ [] := by
  simp [usableValue, Option.filter_eq_some_iff]

theorem found_of_usable {field v : List U8} (h : usableValue code field = some v) :
    found code max field = v.take max := by
  rw [found, (usableValue_eq_some.mp h).1]
  rfl

theorem found_of_unusable {field : List U8} (h : usableValue code field = none) :
    found code max field = [] := by
  rw [usableValue, Option.filter_eq_none_iff] at h
  rw [found]
  cases hv : firstValue code field with
  | none => exact List.take_nil
  | some v =>
    have hnil : v = [] := by simpa using h v hv
    rw [hnil]
    exact List.take_nil

theorem search_eq (fields : List (List U8)) : search code max fields =
    ((fields.findSome? (usableValue code)).getD []).take max := by
  induction fields with
  | nil => exact List.take_nil.symm
  | cons field fields ih =>
    rw [search_cons, List.findSome?_cons]
    cases hv : usableValue code field with
    | none =>
      rw [found_of_unusable hv, if_neg (not_not.mpr rfl), ih]
    | some v =>
      rw [found_of_usable hv]
      by_cases h0 : v.take max = []
      · have hmax : max = 0 := by
          rcases List.take_eq_nil_iff.mp h0 with h0 | h0
          · exact h0
          · exact absurd h0 (usableValue_eq_some.mp hv).2
        subst hmax
        simp [ih]
      · simp [h0]

theorem dhcpOpt_short (h : w.len < bootpFixed + 4) :
    dhcpOpt w code max = search code max (optionFields w.message) := by
  have hnil : optionsField w.message = [] := by
    rw [optionsField_message, Nat.sub_eq_zero_of_le (show w.len ≤ 240 from Nat.le_of_lt h)]
    rfl
  have hnone : overload w.message = 0 := by
    rw [overload, hnil]
    simp [firstValue, options]
  rw [dhcpOpt, if_pos h, optionFields, hnone, hnil]
  simp [search_cons, found, firstValue, options]

def checkedOptIn (d : List U8) (stop : Nat) (code : U8) (max : Nat) : Nat → Nat → Prog (List U8)
  | 0, _ => .error .spinning
  | fuel + 1, i =>
    if i + 1 < stop then do
      let c ← load d i
      if c = 0 then checkedOptIn d stop code max fuel (i + 1)
      else if c = 255 then pure []
      else do
        let olen ← load d (i + 1)
        if stop < i + 2 + olen.toNat then pure []
        else if c = code then slice d (i + 2) (min olen.toNat max)
        else checkedOptIn d stop code max fuel (i + 2 + olen.toNat)
    else pure []

def checkedOpt (d : List U8) (code : U8) (max : Nat) : Prog (List U8) :=
  if d.length < bootpFixed + 4 then pure []
  else do
    match ← checkedOptIn d d.length code max d.length 240 with
    | b :: bs => pure (b :: bs)
    | [] =>
      match ← checkedOptIn d d.length 52 1 d.length 240 with
      | [ov] =>
        let file ← if ov &&& 1 ≠ 0 ∧ 108 < d.length then
          checkedOptIn d (min d.length 236) code max d.length 108 else pure []
        if file ≠ [] then pure file
        else if ov &&& 2 ≠ 0 ∧ 44 < d.length then
          checkedOptIn d (min d.length 108) code max d.length 44
        else pure []
      | _ => pure []

theorem load_message (w : DhcpWait) {i : Nat} (h : i < w.len) :
    load w.message i = .ok (w.buf i) := by
  have hlen : i < w.message.length := by rwa [DhcpWait.message, length_bytesAt]
  apply load_eq
  rw [List.getElem?_eq_getElem hlen]
  simp only [DhcpWait.message, getElem_bytesAt, Nat.zero_add]

theorem slice_message (w : DhcpWait) {i n : Nat} (h : i + n ≤ w.len) :
    slice w.message i n = .ok (bytesAt w.buf i n) := by
  have hlen : w.message.length = w.len := length_bytesAt _ _ _
  rw [slice, if_pos (by omega), DhcpWait.message, bytesAt_drop, bytesAt_take, Nat.zero_add,
    Nat.min_eq_left (by omega)]

theorem checkedOptIn_eq (w : DhcpWait) {stop : Nat} (hstop : stop ≤ w.len) {fuel i : Nat}
    (hfuel : 0 < fuel) (h : stop ≤ i + fuel) :
    checkedOptIn w.message stop code max fuel i = .ok (dhcpOptIn w.buf stop code max fuel i) := by
  induction fuel generalizing i with
  | zero => omega
  | succ fuel ih =>
    rw [checkedOptIn, dhcpOptIn]
    by_cases hi : i + 1 < stop
    · rw [if_pos hi, if_pos hi, load_message w (by omega), load_message w (by omega)]
      change (if w.buf i = 0 then _ else if w.buf i = 255 then _ else
        if stop < i + 2 + (w.buf (i + 1)).toNat then _ else _) = _
      dsimp only
      split
      · exact ih (by omega) (by omega)
      · split
        · rfl
        · split
          · rfl
          · split
            · exact slice_message w (by omega)
            · exact ih (by omega) (by omega)
    · rw [if_neg hi, if_neg hi]
      rfl

theorem checkedOpt_eq (w : DhcpWait) : checkedOpt w.message code max = .ok (dhcpOpt w code max) := by
  have hlen : w.message.length = w.len := length_bytesAt _ _ _
  rw [checkedOpt, dhcpOpt, hlen]
  by_cases hshort : w.len < bootpFixed + 4
  · rw [if_pos hshort, if_pos hshort]
    rfl
  · have h240 : 240 ≤ w.len := Nat.le_of_not_lt hshort
    rw [if_neg hshort, if_neg hshort, checkedOptIn_eq w le_rfl (by omega) (by omega),
      checkedOptIn_eq w le_rfl (by omega) (by omega),
      checkedOptIn_eq w (Nat.min_le_left _ _) (by omega) (by omega),
      checkedOptIn_eq w (Nat.min_le_left _ _) (by omega) (by omega)]
    cases dhcpOptIn w.buf w.len code max w.len 240 with
    | cons b bs => rfl
    | nil =>
      match dhcpOptIn w.buf w.len 52 1 w.len 240 with
      | [] => rfl
      | _ :: _ :: _ => rfl
      | [ov] =>
        simp only [ok_bind]
        split
        · split
          · rfl
          · split
            · rfl
            · rfl
        · rw [pure_bind, if_neg (not_not.mpr rfl), if_neg (not_not.mpr rfl)]
          split
          · rfl
          · rfl

/-- The lookup reads bytes of the message only, and gives the first value that is not empty among
the first occurrences in the options and the fields that option 52 announces. -/
theorem dhcpOpt_spec (w : DhcpWait) (code : U8) (max : Nat) :
    checkedOpt w.message code max = .ok (dhcpOpt w code max) ∧
      dhcpOpt w code max =
        (((optionFields w.message).findSome? (usableValue code)).getD []).take max := by
  refine ⟨checkedOpt_eq w, ?_⟩
  rw [← search_eq]
  by_cases h : bootpFixed + 4 ≤ w.len
  · exact dhcpOpt_search h
  · exact dhcpOpt_short (by omega)

def emptyNameBytes : List U8 :=
  List.replicate 108 0 ++ [12, 1, 65, 255] ++ List.replicate 124 0 ++
    [0x63, 0x82, 0x53, 0x63, 53, 1, 5, 12, 0, 52, 1, 1, 255]

def emptyNameWait : DhcpWait := ⟨true, true, false, 0, 5, 0, ofList emptyNameBytes, 249⟩

/-- The empty occurrence in the options does not end the search. -/
theorem dhcpOpt_skips_empty : emptyNameWait.len ≤ dhcpBuf ∧
    dhcpOpt emptyNameWait 12 4 ≠
      (((optionFields emptyNameWait.message).findSome? (firstValue 12)).getD []).take 4 := by
  refine ⟨by decide, ?_⟩
  have hfound : dhcpOpt emptyNameWait 12 4 = [65] := by decide
  have hfirst : firstValue 12 (optionsField emptyNameWait.message) = some [] := by
    have hfield : optionsField emptyNameWait.message = [53, 1, 5, 12, 0, 52, 1, 1, 255] := by
      decide +kernel
    rw [hfield]
    simp [firstValue, options]
  rw [hfound, optionFields, List.append_assoc, List.singleton_append, List.findSome?_cons, hfirst]
  decide

end Ezos.Net
