import Mathlib.Data.List.Basic
import Mathlib.Data.List.TakeWhile
import Downlink.Address
import Downlink.Proofs.Digits

/-!
# Addresses as texts

Each part of an address is read from the front of a text, and what is behind it is left. Numbers
end where no digit follows (`takeNumber_toDigits`), and groups end where no colon with a group
follows (`Stops`). So every address is read back from its text (`ofText?_text`).

Zeros are left out of a version 6 address in one place only, and the reader puts in as many as are
missing. It does not matter which run of zeros is taken, only that it is one (`longestZeros_spec`).
-/

namespace Downlink.Address

variable {base maxDigits bound n : Nat} {leadingZeros : Bool} {cs rest : List Char}

/-! ## Numbers -/

/-- Whether a character is a digit in a base. -/
def isDigit (base : Nat) (c : Char) : Bool :=
  (Hex.value? c).any (· < base)

/-- A text that does not go on with a digit. -/
def NoDigit (base : Nat) (cs : List Char) : Prop :=
  ∀ c ∈ cs.head?, isDigit base c = false

theorem noDigit_nil (base : Nat) : NoDigit base [] := by
  rintro c ⟨⟩

theorem noDigit_cons {c : Char} (base : Nat) (h : Hex.value? c = none) (cs : List Char) :
    NoDigit base (c :: cs) := by
  rintro _ ⟨⟩
  rw [isDigit, h]
  rfl

theorem NoDigit.of_le {less : Nat} (h : NoDigit base cs) (hle : less ≤ base) : NoDigit less cs := by
  intro c hc
  have hnone := h c hc
  unfold isDigit at hnone ⊢
  cases hvalue : Hex.value? c with
  | none => rfl
  | some d =>
    simp only [hvalue, Option.any_some, decide_eq_false_iff_not] at hnone ⊢
    omega

theorem NoDigit.takeWhile_eq_nil (h : NoDigit base cs) : cs.takeWhile (isDigit base) = [] := by
  cases cs with
  | nil => rfl
  | cons c rest => exact List.takeWhile_cons_of_neg (by simp [h c rfl])

theorem NoDigit.dropWhile_eq_self (h : NoDigit base cs) : cs.dropWhile (isDigit base) = cs := by
  cases cs with
  | nil => rfl
  | cons c rest => exact List.dropWhile_cons_of_neg (by simp [h c rfl])

theorem NoDigit.takeNumber_eq_none (h : NoDigit base cs) :
    takeNumber base maxDigits bound leadingZeros cs = none := by
  have htake : cs.takeWhile (fun c => (Hex.value? c).any (· < base)) = [] := h.takeWhile_eq_nil
  simp only [takeNumber, htake]
  rfl

theorem rest_of_takeNumber (h : takeNumber base maxDigits bound leadingZeros cs = some (n, rest)) :
    rest = cs.dropWhile (isDigit base) := by
  have hdrop : cs.drop (cs.takeWhile (isDigit base)).length = cs.dropWhile (isDigit base) := by
    have hsplit := congrArg (List.drop (cs.takeWhile (isDigit base)).length)
      (List.takeWhile_append_dropWhile (p := isDigit base) (l := cs))
    rw [List.drop_left' rfl] at hsplit
    exact hsplit.symm
  simp only [takeNumber] at h
  split at h
  · cases h
  · obtain ⟨-, rfl⟩ := Prod.mk.inj (Option.some.inj h)
    exact hdrop

theorem digitChar_eq_zero_iff {d : Nat} (h : d < 16) : Nat.digitChar d = '0' ↔ d = 0 := by
  interval_cases d <;> decide

/-- **A number is taken from the front of a text that goes on with no digit.** -/
theorem takeNumber_toDigits (hbase : 1 < base) (hle : base ≤ 16) (leadingZeros : Bool)
    (hn : n < bound) (hlength : (Nat.toDigits base n).length ≤ maxDigits)
    (hrest : NoDigit base rest) :
    takeNumber base maxDigits bound leadingZeros (Nat.toDigits base n ++ rest) =
      some (n, rest) := by
  obtain ⟨digits, hdigits, hnumeral⟩ := exists_numeral base hbase n
  have hlt : ∀ d ∈ digits, d < 16 := fun d hd =>
    Nat.lt_of_lt_of_le (hnumeral.digits_lt d hd) hle
  have htake : (digits.map Nat.digitChar ++ rest).takeWhile
      (fun c => (Hex.value? c).any (· < base)) = digits.map Nat.digitChar := by
    show (digits.map Nat.digitChar ++ rest).takeWhile (isDigit base) = _
    rw [List.takeWhile_append_of_pos, hrest.takeWhile_eq_nil, List.append_nil]
    intro c hc
    obtain ⟨d, hd, rfl⟩ := List.mem_map.1 hc
    simp [isDigit, Hex.value?_digitChar (hlt d hd), hnumeral.digits_lt d hd]
  have hfold : (digits.map Nat.digitChar).foldl
      (fun n c => base * n + (Hex.value? c).getD 0) 0 = n := by
    rw [List.foldl_map, ← hnumeral.value_eq]
    apply List.foldl_ext
    intro m d hd
    rw [Hex.value?_digitChar (hlt d hd), Option.getD_some]
  rw [hdigits] at hlength ⊢
  obtain ⟨d, more, rfl, hzero⟩ := hnumeral.exists_cons
  have hleading : ¬ (1 < ((d :: more).map Nat.digitChar).length ∧
      ((d :: more).map Nat.digitChar).head? = some '0') := by
    rintro ⟨hlong, hhead⟩
    have hd := (digitChar_eq_zero_iff (hlt d List.mem_cons_self)).1 (Option.some.inj hhead)
    rw [hzero hd] at hlong
    simp at hlong
  simp only [takeNumber, htake, hfold]
  rw [if_neg, List.drop_left' rfl]
  rintro (hnil | hlong | hbig | ⟨-, hlong, hhead⟩)
  · simp at hnil
  · omega
  · omega
  · exact hleading ⟨hlong, hhead⟩

theorem takeChar_self (c : Char) (cs : List Char) : takeChar c (c :: cs) = some cs :=
  if_pos rfl

theorem takeChar_eq_none {c : Char} (h : cs.head? ≠ some c) : takeChar c cs = none := by
  cases cs with
  | nil => rfl
  | cons d rest => exact if_neg fun hd => h (congrArg some hd)

/-! ## Version 4 -/

theorem takeOctet_toString (b : UInt8) (hrest : NoDigit 10 rest) :
    takeOctet ((toString b.toNat).toList ++ rest) = some (b, rest) := by
  have hlength : (Nat.toDigits 10 b.toNat).length ≤ 3 :=
    (Nat.length_toDigits_le_iff (by decide) (by decide)).2 (b.toNat_lt.trans (by decide))
  rw [takeOctet, toList_toString,
    takeNumber_toDigits (by decide) (by decide) false b.toNat_lt hlength hrest]
  simp

theorem toList_ipv4Text (ip : Ipv4) :
    ip.text.toList = (toString ip.a.toNat).toList ++ '.' :: ((toString ip.b.toNat).toList ++
      '.' :: ((toString ip.c.toNat).toList ++ '.' :: (toString ip.d.toNat).toList)) := by
  rw [Ipv4.text, String.toList_intercalate]
  simp [List.intercalate]

theorem takeIpv4_text (ip : Ipv4) (hrest : NoDigit 10 rest) :
    takeIpv4 (ip.text.toList ++ rest) = some (ip, rest) := by
  have hdot : ∀ cs, NoDigit 10 ('.' :: cs) := noDigit_cons 10 (by decide)
  rw [toList_ipv4Text]
  simp only [List.append_assoc, List.cons_append, takeIpv4, takeOctet_toString _ (hdot _),
    takeOctet_toString _ hrest, takeChar_self, Option.bind_eq_bind, Option.bind_some,
    Option.pure_def]

/-! ## Groups -/

/-- The digits of a group. -/
def groupDigits (group : UInt16) : List Char :=
  Nat.toDigits 16 group.toNat

theorem toList_hex (n : Nat) : (Hex.ofNat 1 n).toList = Nat.toDigits 16 n := by
  have hpos : 0 < (Nat.toDigits 16 n).length := Nat.length_toDigits_pos
  rw [Hex.ofNat, String.toList_ofList, Nat.sub_eq_zero_of_le hpos]
  rfl

/-- Groups with a colon in front of each. -/
def colonized (groups : List UInt16) : List Char :=
  groups.flatMap fun group => ':' :: groupDigits group

theorem toList_groupsText_cons (group : UInt16) (groups : List UInt16) :
    (Ipv6.groupsText (group :: groups)).toList = groupDigits group ++ colonized groups := by
  rw [Ipv6.groupsText, String.toList_intercalate]
  induction groups generalizing group with
  | nil => simp [List.intercalate, toList_hex, groupDigits, colonized]
  | cons next more ih =>
    have hmore := ih next
    rw [List.map_cons, List.map_cons] at hmore ⊢
    rw [List.map_cons, List.map_cons, List.intercalate_cons_cons, hmore, toList_hex]
    simp [colonized, groupDigits]

theorem not_mem_groupDigits {c : Char} (h : Hex.value? c = none) (group : UInt16) :
    c ∉ groupDigits group := by
  intro hmem
  obtain ⟨digits, hdigits, hnumeral⟩ := exists_numeral 16 (by decide) group.toNat
  rw [groupDigits, hdigits] at hmem
  obtain ⟨d, hd, rfl⟩ := List.mem_map.1 hmem
  rw [Hex.value?_digitChar (hnumeral.digits_lt d hd)] at h
  cases h

theorem head?_dropWhile_append_ne {c : Char} {digits : List Char} (hdigits : c ∉ digits)
    (hrest : NoDigit base rest) (hhead : rest.head? ≠ some c) :
    ((digits ++ rest).dropWhile (isDigit base)).head? ≠ some c := by
  induction digits with
  | nil => rwa [List.nil_append, hrest.dropWhile_eq_self]
  | cons d more ih =>
    obtain ⟨hne, hmore⟩ := List.ne_and_not_mem_of_not_mem_cons hdigits
    rw [List.cons_append, List.dropWhile_cons]
    split
    · exact ih hmore
    · intro heq
      exact hne (Option.some.inj heq).symm

theorem takeIpv4_eq_none_of_noDigit (h : NoDigit 10 cs) : takeIpv4 cs = none := by
  rw [takeIpv4, takeOctet, h.takeNumber_eq_none]
  rfl

theorem takeIpv4_groupDigits (group : UInt16) (hrest : NoDigit 16 rest)
    (hdot : rest.head? ≠ some '.') : takeIpv4 (groupDigits group ++ rest) = none := by
  cases hnumber : takeNumber 10 3 256 false (groupDigits group ++ rest) with
  | none =>
    rw [takeIpv4, takeOctet, hnumber]
    rfl
  | some taken =>
    obtain ⟨n, behind⟩ := taken
    have hbehind : behind.head? ≠ some '.' := by
      rw [rest_of_takeNumber hnumber]
      exact head?_dropWhile_append_ne (not_mem_groupDigits (by decide) group)
        (hrest.of_le (by decide)) hdot
    rw [takeIpv4, takeOctet, hnumber]
    show ((takeChar '.' behind).bind _) = none
    rw [takeChar_eq_none hbehind]
    rfl

theorem takeNumber_groupDigits (group : UInt16) (hrest : NoDigit 16 rest) :
    takeNumber 16 4 65536 true (groupDigits group ++ rest) = some (group.toNat, rest) := by
  have hlt : group.toNat < 65536 := group.toNat_lt
  exact takeNumber_toDigits (by decide) (by decide) true hlt
    ((Nat.length_toDigits_le_iff (by decide) (by decide)).2 hlt) hrest

theorem takeGroups_group {limit : Nat} {group : UInt16} (first : Bool)
    (hcs : (if first then some cs else takeChar ':' cs) = some (groupDigits group ++ rest))
    (hrest : NoDigit 16 rest) (hdot : rest.head? ≠ some '.') :
    takeGroups (limit + 1) first cs =
      (group :: (takeGroups limit false rest).1, (takeGroups limit false rest).2) := by
  simp only [takeGroups, hcs, takeIpv4_groupDigits group hrest hdot, ite_self,
    takeNumber_groupDigits group hrest, UInt16.ofNat_toNat]

theorem takeGroups_first_of_noDigit (limit : Nat) (h : NoDigit 16 cs) :
    takeGroups limit true cs = ([], false, cs) := by
  cases limit with
  | zero => rfl
  | succ limit =>
    simp only [takeGroups, if_true, takeIpv4_eq_none_of_noDigit (h.of_le (by decide)),
      h.takeNumber_eq_none, ite_self]

/-- A text before which groups end. -/
structure Stops (rest : List Char) : Prop where
  noDigit : NoDigit 16 rest
  noDot : rest.head? ≠ some '.'
  noGroup : ∀ limit, takeGroups limit false rest = ([], false, rest)

theorem stops_cons {c : Char} (hc : Hex.value? c = none) (hdot : c ≠ '.') (hcolon : c ≠ ':')
    (cs : List Char) : Stops (c :: cs) where
  noDigit := noDigit_cons 16 hc cs
  noDot heq := hdot (Option.some.inj heq)
  noGroup limit := by
    have hnone : takeChar ':' (c :: cs) = none :=
      takeChar_eq_none fun heq => hcolon (Option.some.inj heq)
    cases limit with
    | zero => rfl
    | succ limit => simp [takeGroups, hnone]

theorem stops_gap (cs : List Char) : Stops (':' :: ':' :: cs) where
  noDigit := noDigit_cons 16 (by decide) _
  noDot := by
    rintro ⟨⟩
  noGroup limit := by
    have hcolon : ∀ base, NoDigit base (':' :: cs) := fun base => noDigit_cons base (by decide) cs
    cases limit with
    | zero => rfl
    | succ limit =>
      simp [takeGroups, takeChar_self, takeIpv4_eq_none_of_noDigit (hcolon 10),
        (hcolon 16).takeNumber_eq_none]

theorem colonized_append_starts (groups : List UInt16) (h : Stops rest) :
    NoDigit 16 (colonized groups ++ rest) ∧ (colonized groups ++ rest).head? ≠ some '.' := by
  cases groups with
  | nil => exact ⟨h.noDigit, h.noDot⟩
  | cons group more => exact ⟨noDigit_cons 16 (by decide) _, by rintro ⟨⟩⟩

theorem takeGroups_colonized {groups : List UInt16} {limit : Nat} (hlimit : groups.length ≤ limit)
    (h : Stops rest) :
    takeGroups limit false (colonized groups ++ rest) = (groups, false, rest) := by
  induction groups generalizing limit with
  | nil => exact h.noGroup limit
  | cons group more ih =>
    cases limit with
    | zero => cases hlimit
    | succ limit =>
      obtain ⟨hdigit, hdot⟩ := colonized_append_starts more h
      have hcolon : takeChar ':' (colonized (group :: more) ++ rest) =
          some (groupDigits group ++ (colonized more ++ rest)) := by
        simp [colonized, takeChar_self]
      rw [takeGroups_group false ((if_neg Bool.false_ne_true).trans hcolon) hdigit hdot,
        ih (Nat.le_of_succ_le_succ hlimit)]

theorem takeGroups_groupsText {groups : List UInt16} {limit : Nat} (hlimit : groups.length ≤ limit)
    (h : Stops rest) :
    takeGroups limit true ((Ipv6.groupsText groups).toList ++ rest) = (groups, false, rest) := by
  cases groups with
  | nil => exact takeGroups_first_of_noDigit limit h.noDigit
  | cons group more =>
    cases limit with
    | zero => cases hlimit
    | succ limit =>
      obtain ⟨hdigit, hdot⟩ := colonized_append_starts more h
      rw [toList_groupsText_cons, List.append_assoc, takeGroups_group true rfl hdigit hdot,
        takeGroups_colonized (Nat.le_of_succ_le_succ hlimit) h]

/-! ## Version 6 -/

/-- A run of groups that are zero. -/
def ZeroRun (groups : List UInt16) (run : Nat × Nat) : Prop :=
  ((groups.drop run.1).take run.2) = List.replicate run.2 0

theorem takeWhile_zero_eq_replicate (groups : List UInt16) :
    groups.takeWhile (· = 0) = List.replicate (groups.takeWhile (· = 0)).length 0 :=
  List.eq_replicate_length.2 fun group hgroup => by simpa using List.mem_takeWhile_imp hgroup

theorem longestZeros_spec (groups : List UInt16) : ZeroRun groups (Ipv6.longestZeros groups) := by
  rw [Ipv6.longestZeros]
  refine List.foldlRecOn (motive := ZeroRun groups) _ _ rfl fun best hbest start _ => ?_
  dsimp only
  split
  · rw [ZeroRun, ← takeWhile_zero_eq_replicate]
    exact (List.prefix_iff_eq_take.1 (List.takeWhile_prefix _)).symm
  · exact hbest

theorem ZeroRun.split {groups : List UInt16} {run : Nat × Nat} (h : ZeroRun groups run) :
    groups.take run.1 ++ List.replicate run.2 0 ++ groups.drop (run.1 + run.2) = groups := by
  rw [← h, List.append_assoc, ← List.drop_drop, List.take_append_drop, List.take_append_drop]

theorem ofGroups?_groups (ip : Ipv6) : Ipv6.ofGroups? ip.groups = some ip :=
  dif_pos ip.length_groups

theorem group_eq_halves (group : UInt16) :
    256 * (group / 256).toUInt8.toUInt16 + group.toUInt8.toUInt16 = group := by
  apply UInt16.toNat.inj
  have hlt : group.toNat < 65536 := group.toNat_lt
  have hsum := Nat.div_add_mod group.toNat 256
  simp only [UInt16.toNat_add, UInt16.toNat_mul, UInt8.toNat_toUInt16, UInt16.toNat_toUInt8,
    UInt16.toNat_div, UInt16.reduceToNat]
  omega

theorem groups_ofGroups (high low : UInt16) : (Ipv4.ofGroups high low).groups = [high, low] := by
  rw [Ipv4.groups, Ipv4.ofGroups, group_eq_halves, group_eq_halves]

theorem groups_of_mapped? {ip : Ipv6} {v4 : Ipv4} (h : ip.mapped? = some v4) :
    ip.groups = List.replicate 5 0 ++ 0xffff :: v4.groups := by
  rw [Ipv6.mapped?] at h
  split at h
  case h_1 high low hgroups =>
    rw [hgroups, ← Option.some.inj h, groups_ofGroups]
    rfl
  case h_2 => cases h

theorem toList_mapped_append (v4 : Ipv4) (rest : List Char) :
    ("::ffff:" ++ v4.text).toList ++ rest =
      ':' :: ':' :: (groupDigits 0xffff ++ ':' :: (v4.text.toList ++ rest)) := by
  rw [String.toList_append]
  rfl

theorem takeGroups_ipv4 {limit : Nat} (ip : Ipv4) (hrest : NoDigit 10 rest) :
    takeGroups (limit + 2) false (':' :: (ip.text.toList ++ rest)) = (ip.groups, true, rest) := by
  simp [takeGroups, takeChar_self, takeIpv4_text ip hrest]

theorem takeIpv6_of_gap {ip : Ipv6} {head tail : List UInt16} {endsInV4 : Bool}
    {behind : List Char} (hhead : takeGroups 8 true cs = (head, false, ':' :: ':' :: behind))
    (htail : takeGroups (7 - head.length) true behind = (tail, endsInV4, rest))
    (hlength : head.length < 8)
    (hgroups : head ++ List.replicate (8 - head.length - tail.length) 0 ++ tail = ip.groups) :
    takeIpv6 cs = some (ip, rest) := by
  have hne : head.length ≠ 8 := Nat.ne_of_lt hlength
  simp only [takeIpv6, hhead, hne, if_false, takeChar_self, htail, hgroups, ofGroups?_groups,
    Option.bind_eq_bind, Option.bind_some, Option.pure_def, Bool.false_eq_true]

theorem takeIpv6_mapped {ip : Ipv6} {v4 : Ipv4} (hmapped : ip.mapped? = some v4)
    (hrest : NoDigit 10 rest) :
    takeIpv6 (("::ffff:" ++ v4.text).toList ++ rest) = some (ip, rest) := by
  rw [toList_mapped_append]
  have htail : takeGroups 7 true (groupDigits 0xffff ++ ':' :: (v4.text.toList ++ rest)) =
      (0xffff :: v4.groups, true, rest) := by
    rw [takeGroups_group true rfl (noDigit_cons 16 (by decide) _) (by rintro ⟨⟩),
      takeGroups_ipv4 v4 hrest]
  exact takeIpv6_of_gap (takeGroups_first_of_noDigit 8 (noDigit_cons 16 (by decide) _)) htail
    (by decide) (groups_of_mapped? hmapped).symm

theorem takeIpv6_whole (ip : Ipv6) (h : Stops rest) :
    takeIpv6 ((Ipv6.groupsText ip.groups).toList ++ rest) = some (ip, rest) := by
  rw [takeIpv6, takeGroups_groupsText (Nat.le_of_eq ip.length_groups) h]
  simp only [ip.length_groups, if_true, ofGroups?_groups]
  rfl

theorem takeIpv6_gap {ip : Ipv6} {run : Nat × Nat} (hrun : ZeroRun ip.groups run)
    (hlong : 1 < run.2) (h : Stops rest) :
    takeIpv6 ((Ipv6.groupsText (ip.groups.take run.1) ++ "::" ++
      Ipv6.groupsText (ip.groups.drop (run.1 + run.2))).toList ++ rest) = some (ip, rest) := by
  have hsum := congrArg List.length hrun.split
  rw [List.length_append, List.length_append, List.length_replicate, ip.length_groups] at hsum
  have hzeros : 8 - (ip.groups.take run.1).length -
      (ip.groups.drop (run.1 + run.2)).length = run.2 := by
    omega
  have htext : (Ipv6.groupsText (ip.groups.take run.1) ++ "::" ++
      Ipv6.groupsText (ip.groups.drop (run.1 + run.2))).toList ++ rest =
        (Ipv6.groupsText (ip.groups.take run.1)).toList ++ ':' :: ':' ::
          ((Ipv6.groupsText (ip.groups.drop (run.1 + run.2))).toList ++ rest) := by
    simp [String.toList_append]
  rw [htext]
  refine takeIpv6_of_gap (takeGroups_groupsText (by omega) (stops_gap _))
    (takeGroups_groupsText (by omega) h) (by omega) ?_
  rw [hzeros, hrun.split]

theorem takeIpv6_text (ip : Ipv6) (h : Stops rest) :
    takeIpv6 (ip.text.toList ++ rest) = some (ip, rest) := by
  rw [Ipv6.text]
  split
  case h_1 v4 hmapped => exact takeIpv6_mapped hmapped (h.noDigit.of_le (by decide))
  case h_2 =>
    dsimp only
    split
    case isTrue hlong => exact takeIpv6_gap (longestZeros_spec ip.groups) hlong h
    case isFalse => exact takeIpv6_whole ip h

/-! ## Ports and scopes -/

theorem takeNumber_toString (hn : n < bound) (hrest : NoDigit 10 rest) :
    takeNumber 10 ((toString n).toList ++ rest).length bound true ((toString n).toList ++ rest) =
      some (n, rest) := by
  rw [toList_toString]
  refine takeNumber_toDigits (by decide) (by decide) true hn ?_ hrest
  rw [List.length_append]
  exact Nat.le_add_right _ _

theorem takePort_text (port : UInt16) (hrest : NoDigit 10 rest) :
    takePort (':' :: ((toString port.toNat).toList ++ rest)) = some (port, rest) := by
  simp only [takePort, takeChar_self, takeNumber_toString port.toNat_lt hrest,
    UInt16.ofNat_toNat, Option.bind_eq_bind, Option.bind_some, Option.pure_def]

/-- How a scope is written. -/
def scopeText (scope : UInt32) : String :=
  if scope = 0 then "" else "%" ++ toString scope.toNat

theorem scopeText_append (scope : UInt32) (rest : List Char) :
    (scope = 0 ∧ (scopeText scope).toList ++ rest = rest) ∨
      (scopeText scope).toList ++ rest = '%' :: ((toString scope.toNat).toList ++ rest) := by
  rw [scopeText]
  split_ifs with hscope
  · exact .inl ⟨hscope, rfl⟩
  · right
    rw [String.toList_append]
    rfl

theorem takeScope_text (scope : UInt32) (hrest : NoDigit 10 rest) (hhead : rest.head? ≠ some '%') :
    takeScope ((scopeText scope).toList ++ rest) = (scope, rest) := by
  rcases scopeText_append scope rest with ⟨rfl, htext⟩ | htext
  · rw [htext]
    simp only [takeScope, takeChar_eq_none hhead]
  · rw [htext]
    simp only [takeScope, takeChar_self, takeNumber_toString scope.toNat_lt hrest,
      UInt32.ofNat_toNat]

theorem stops_scopeText (scope : UInt32) (rest : List Char) :
    Stops ((scopeText scope).toList ++ ']' :: rest) := by
  rcases scopeText_append scope (']' :: rest) with ⟨-, htext⟩ | htext
  · rw [htext]
    exact stops_cons (by decide) (by decide) (by decide) _
  · rw [htext]
    exact stops_cons (by decide) (by decide) (by decide) _

/-! ## Addresses -/

theorem takeV4_text (host : Ipv4) (port : UInt16) :
    takeV4 (text (.v4 host port)).toList = some (.v4 host port, []) := by
  have hcolon : ∀ cs, NoDigit 10 (':' :: cs) := noDigit_cons 10 (by decide)
  have htext : (text (.v4 host port)).toList =
      host.text.toList ++ ':' :: ((toString port.toNat).toList ++ []) := by
    simp [text, String.toList_append]
  rw [htext]
  simp only [takeV4, takeIpv4_text host (hcolon _), takePort_text port (noDigit_nil 10),
    Option.bind_eq_bind, Option.bind_some, Option.pure_def]

theorem toList_v6Text (host : Ipv6) (scope : UInt32) (port : UInt16) :
    (text (.v6 host scope port)).toList =
      '[' :: (host.text.toList ++ ((scopeText scope).toList ++
        ']' :: ':' :: ((toString port.toNat).toList ++ []))) := by
  rw [text, ← scopeText]
  simp [String.toList_append]

theorem takeV6_text (host : Ipv6) (scope : UInt32) (port : UInt16) :
    takeV6 (text (.v6 host scope port)).toList = some (.v6 host scope port, []) := by
  have hscope : ∀ cs, takeScope ((scopeText scope).toList ++ ']' :: cs) = (scope, ']' :: cs) :=
    fun cs => takeScope_text scope (noDigit_cons 10 (by decide) cs) (by rintro ⟨⟩)
  rw [toList_v6Text]
  simp only [takeV6, takeChar_self, takeIpv6_text host (stops_scopeText scope _), hscope,
    takePort_text port (noDigit_nil 10), Option.bind_eq_bind, Option.bind_some, Option.pure_def]

/-- **Every address is read back from its text.** -/
theorem ofText?_text (a : Address) : ofText? a.text = some a := by
  cases a with
  | v4 host port =>
    rw [ofText?, takeV4_text]
    rfl
  | v6 host scope port =>
    have hv4 : takeV4 (text (.v6 host scope port)).toList = none := by
      rw [toList_v6Text, takeV4, takeIpv4_eq_none_of_noDigit (noDigit_cons 10 (by decide) _)]
      rfl
    simp only [ofText?, hv4, takeV6_text, Option.none_or, Option.bind_eq_bind, Option.bind_some]
    rfl

end Downlink.Address
