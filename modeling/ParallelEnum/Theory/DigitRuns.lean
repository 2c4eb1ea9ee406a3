import Mathlib.Data.List.Basic
import Mathlib.Data.Nat.Init
import Mathlib.Order.Basic

/-!
# The numbers in a text

The numbers in a text of bytes are the values of its maximal runs of decimal digits, in their order;
whatever separates the runs does not matter (`numbers`).  `render` is a text with given numbers.
-/

namespace DigitRuns

/-- One of the characters `0` to `9`. -/
def isDigit (c : UInt8) : Bool := decide (48 ≤ c.toNat ∧ c.toNat ≤ 57)

/-- The number that some digits continue `n` to. -/
def value (n : ℕ) (ds : List UInt8) : ℕ := ds.foldl (fun n c => 10 * n + (c.toNat - 48)) n

/-- The numbers in a text. -/
def numbers (text : List UInt8) : List ℕ :=
  ((text.splitOnP fun c => !isDigit c).filter (· ≠ [])).map (value 0)

theorem numbers_nil : numbers [] = [] := by
  unfold numbers
  rw [List.splitOnP_nil]
  rfl

/-- A byte that is no digit separates numbers. -/
theorem numbers_append_cons {c : UInt8} (hc : isDigit c = false) (text text' : List UInt8) :
    numbers (text ++ c :: text') = numbers text ++ numbers text' := by
  unfold numbers
  rw [List.splitOnP_append_cons _ _ (by simpa using hc), List.filter_append, List.map_append]

theorem numbers_cons {c : UInt8} (hc : isDigit c = false) (text : List UInt8) :
    numbers (c :: text) = numbers text := by
  have h := numbers_append_cons hc [] text
  rwa [List.nil_append, numbers_nil, List.nil_append] at h

/-- A run of digits is one number. -/
theorem numbers_run {ds : List UInt8} (hne : ds ≠ []) (hds : ∀ c ∈ ds, isDigit c = true) :
    numbers ds = [value 0 ds] := by
  unfold numbers
  rw [List.splitOnP_eq_singleton fun c hc => by simpa using hds c hc]
  simp [hne]

theorem numbers_run_append {ds : List UInt8} (hne : ds ≠ []) (hds : ∀ c ∈ ds, isDigit c = true)
    {c : UInt8} (hc : isDigit c = false) (text : List UInt8) :
    numbers (ds ++ c :: text) = value 0 ds :: numbers text := by
  rw [numbers_append_cons hc, numbers_run hne hds, List.singleton_append]

/-! ### A text with given numbers -/

/-- The digits of a number. -/
def decimal (n : ℕ) : List UInt8 :=
  if n < 10 then [UInt8.ofNat (48 + n)] else decimal (n / 10) ++ [UInt8.ofNat (48 + n % 10)]

theorem digit_spec {d : ℕ} (hd : d < 10) :
    isDigit (UInt8.ofNat (48 + d)) = true ∧ (UInt8.ofNat (48 + d)).toNat - 48 = d := by
  have hnat : (UInt8.ofNat (48 + d)).toNat = 48 + d := by
    rw [UInt8.toNat_ofNat_of_lt' (show 48 + d < 256 by omega)]
  unfold isDigit
  rw [hnat, decide_eq_true_iff]
  omega

theorem decimal_spec (n : ℕ) :
    decimal n ≠ [] ∧ (∀ c ∈ decimal n, isDigit c = true) ∧ value 0 (decimal n) = n := by
  induction n using Nat.strong_induction_on with
  | _ n ih =>
  rw [decimal]
  split_ifs with hlt
  · obtain ⟨hdigit, hval⟩ := digit_spec hlt
    refine ⟨List.cons_ne_nil _ _, ?_, ?_⟩
    · intro c hc
      rwa [List.mem_singleton.mp hc]
    · show 10 * 0 + ((UInt8.ofNat (48 + n)).toNat - 48) = n
      rw [hval, Nat.mul_zero, Nat.zero_add]
  · obtain ⟨-, hdigits, hvalue⟩ := ih (n / 10) (by omega)
    obtain ⟨hdigit, hval⟩ := digit_spec (Nat.mod_lt n (show 10 > 0 by omega))
    refine ⟨List.append_ne_nil_of_right_ne_nil _ (List.cons_ne_nil _ _), ?_, ?_⟩
    · intro c hc
      rcases List.mem_append.mp hc with hc | hc
      · exact hdigits c hc
      · rwa [List.mem_singleton.mp hc]
    · unfold value at hvalue ⊢
      rw [List.foldl_append, hvalue, List.foldl_cons, List.foldl_nil, hval]
      omega

/-- Some numbers, each followed by a byte that is no digit. -/
theorem numbers_flatMap {c : UInt8} (hc : isDigit c = false) (ns : List ℕ) :
    numbers (ns.flatMap fun n => decimal n ++ [c]) = ns := by
  induction ns with
  | nil => exact numbers_nil
  | cons n ns ih =>
    obtain ⟨hne, hdigits, hvalue⟩ := decimal_spec n
    rw [List.flatMap_cons, List.append_assoc, List.singleton_append,
      numbers_run_append hne hdigits hc, hvalue, ih]

/-- The numbers of a list, one a line. -/
def render (ns : List ℕ) : List UInt8 := ns.flatMap fun n => decimal n ++ [10]

theorem numbers_render (ns : List ℕ) : numbers (render ns) = ns := numbers_flatMap (by decide) ns

/-! ### Lines -/

/-- The numbers in each line of a text. -/
def lineNumbers (text : List UInt8) : List (List ℕ) :=
  (text.splitOnP fun c => c == 10).dropLast.map numbers

theorem lineNumbers_nil : lineNumbers [] = [] := by
  unfold lineNumbers
  rw [List.splitOnP_nil]
  rfl

theorem lineNumbers_append {line : List UInt8} (hline : ∀ c ∈ line, (c == 10) = false)
    (text : List UInt8) :
    lineNumbers (line ++ 10 :: text) = numbers line :: lineNumbers text := by
  unfold lineNumbers
  rw [List.splitOnP_append_cons_of_forall_mem hline 10 (by decide),
    List.dropLast_cons_of_ne_nil (List.splitOnP_ne_nil _ _), List.map_cons]

/-- Some lines, each with its end. -/
theorem lineNumbers_flatMap {lines : List (List UInt8)}
    (hlines : ∀ line ∈ lines, ∀ c ∈ line, (c == 10) = false) (text : List UInt8) :
    lineNumbers ((lines.flatMap fun line => line ++ [10]) ++ text)
      = lines.map numbers ++ lineNumbers text := by
  induction lines with
  | nil => rfl
  | cons line lines ih =>
    obtain ⟨hline, hlines⟩ := List.forall_mem_cons.mp hlines
    rw [List.flatMap_cons, List.append_assoc, List.append_assoc, List.singleton_append,
      lineNumbers_append hline, ih hlines, List.map_cons, List.cons_append]

end DigitRuns
