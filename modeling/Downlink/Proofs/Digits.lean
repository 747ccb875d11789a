import Mathlib.Tactic.IntervalCases
import Downlink.Text.Hex
import Downlink.Text.Yaml.Scalar

/-!
# Digits

A number is written by its digits, the first of which is a zero only if it is the only one
(`exists_numeral`). Whatever reads digits from the front of a text reads the number from them.
-/

namespace Downlink

/-- The digits of a number in a base, none too many. -/
structure IsNumeral (base n : Nat) (digits : List Nat) : Prop where
  digits_lt : ∀ d ∈ digits, d < base
  value_eq : digits.foldl (fun n d => base * n + d) 0 = n
  /-- There is at least one, and no zero in front of others. -/
  exists_cons : ∃ d rest, digits = d :: rest ∧ (d = 0 → rest = [])

theorem exists_numeral (base : Nat) (hbase : 1 < base) (n : Nat) :
    ∃ digits, Nat.toDigits base n = digits.map Nat.digitChar ∧ IsNumeral base n digits := by
  induction n using Nat.strongRecOn with
  | ind n ih =>
    rw [Nat.toDigits_eq_if hbase]
    split
    · next hlt =>
      refine ⟨[n], rfl, ?_, ?_, n, [], rfl, fun _ => rfl⟩
      · intro d hd
        rwa [List.mem_singleton.1 hd]
      · simp
    · next hge =>
      have hpos : 0 < n / base := Nat.div_pos (Nat.le_of_not_lt hge) (by omega)
      obtain ⟨digits, hdigits, hlt, hvalue, d, rest, rfl, hzero⟩ :=
        ih (n / base) (Nat.div_lt_self (by omega) hbase)
      refine ⟨d :: rest ++ [n % base], by rw [hdigits, List.map_append]; rfl, ?_, ?_, d,
        rest ++ [n % base], rfl, ?_⟩
      · intro d' hd'
        rcases List.mem_append.1 hd' with hd' | hd'
        · exact hlt d' hd'
        · rw [List.mem_singleton.1 hd']
          exact Nat.mod_lt n (by omega)
      · rw [List.foldl_append, hvalue]
        exact Nat.div_add_mod n base
      · -- A zero in front would be all of a number that is not zero.
        rintro rfl
        rw [hzero rfl] at hvalue
        simp at hvalue
        omega

theorem toList_toString (n : Nat) : (toString n).toList = Nat.toDigits 10 n := by
  rw [Nat.toString_eq_ofList_toDigits, String.toList_ofList]

theorem Hex.value?_digitChar {d : Nat} (h : d < 16) : Hex.value? (Nat.digitChar d) = some d := by
  interval_cases d <;> decide

/-! ## Plain scalars -/

namespace Yaml

theorem foldl_map_digitChar {base : Nat} {step : Option Nat → Char → Option Nat}
    (hstep : ∀ m d, d < base → step (some m) (Nat.digitChar d) = some (base * m + d))
    (digits : List Nat) (m : Nat) (hlt : ∀ d ∈ digits, d < base) :
    (digits.map Nat.digitChar).foldl step (some m) =
      some (digits.foldl (fun n d => base * n + d) m) := by
  induction digits generalizing m with
  | nil => rfl
  | cons d rest ih =>
    obtain ⟨hd, hrest⟩ := List.forall_mem_cons.1 hlt
    rw [List.map_cons, List.foldl_cons, List.foldl_cons, hstep m d hd]
    exact ih _ hrest

theorem digitsInBase?_map_digitChar {base n : Nat} {digits : List Nat} (hbase : base ≤ 16)
    (h : IsNumeral base n digits) : digitsInBase? base (digits.map Nat.digitChar) = some n := by
  obtain ⟨d, rest, rfl, -⟩ := h.exists_cons
  rw [digitsInBase?, if_neg (by simp), foldl_map_digitChar ?_ _ _ h.digits_lt, h.value_eq]
  intro m d hd
  rw [Option.bind_some, Hex.value?_digitChar (by omega)]
  exact if_pos hd

theorem natOfText?_toString (n : Nat) : natOfText? (toString n) = some n := by
  obtain ⟨digits, hdigits, hnumeral⟩ := exists_numeral 10 (by decide) n
  have hvalue := digitsInBase?_map_digitChar (by decide) hnumeral
  obtain ⟨d, rest, rfl, hzero⟩ := hnumeral.exists_cons
  have hd : d < 10 := hnumeral.digits_lt d List.mem_cons_self
  rw [natOfText?, toList_toString, hdigits]
  rw [List.map_cons] at hvalue ⊢
  interval_cases d
  · -- The only digit, so no base is announced.
    rw [hzero rfl] at hvalue ⊢
    exact hvalue
  all_goals exact hvalue

theorem isNullText_toString (n : Nat) : toString n ≠ "" ∧ isNullText (toString n) = false := by
  have hne : ∀ text : String, (∀ d < 10, text.toList.head? ≠ some (Nat.digitChar d)) →
      toString n ≠ text := by
    rintro text htext rfl
    obtain ⟨digits, hdigits, hnumeral⟩ := exists_numeral 10 (by decide) n
    obtain ⟨d, rest, rfl, -⟩ := hnumeral.exists_cons
    rw [toList_toString, hdigits] at htext
    exact htext d (hnumeral.digits_lt d List.mem_cons_self) rfl
  refine ⟨hne _ (by decide), ?_⟩
  simp only [isNullText, hne "null" (by decide), hne "Null" (by decide), hne "NULL" (by decide),
    hne "~" (by decide), decide_false, Bool.or_self]

end Yaml

end Downlink
