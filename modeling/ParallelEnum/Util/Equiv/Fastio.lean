import ParallelEnum.Util.Fastio

/-!
# `ReadInt` reads the numbers in a file

A call of `ReadInt` takes one number off the numbers that are left (`readInt_cons`), and gives `EOF`
when there are none (`readInt_nil`).
-/

namespace ParallelEnum.Fastio

open Cuckoo DigitRuns

theorem skip_spec (input : List UInt8) :
    (skip input = none ∧ numbers input = []) ∨
      ∃ ch rest, skip input = some (ch, rest) ∧ isDigit ch = true ∧
        numbers input = numbers (ch :: rest) ∧ rest.length < input.length := by
  induction input with
  | nil => exact Or.inl ⟨rfl, numbers_nil⟩
  | cons c input ih =>
    rw [skip]
    by_cases hc : isDigit c = true
    · rw [if_pos hc]
      exact Or.inr ⟨c, input, rfl, hc, rfl, by simp⟩
    · have hc' : isDigit c = false := by simpa using hc
      rw [if_neg hc, numbers_cons hc']
      apply ih.imp_right
      rintro ⟨ch, rest, hskip, hch, hnumbers, hlt⟩
      exact ⟨ch, rest, hskip, hch, hnumbers, by rw [List.length_cons]; omega⟩

/-- Sums may wrap around before the end. -/
theorem value_mod (n : ℕ) (ds : List UInt8) :
    value (n % 2 ^ 64) ds % 2 ^ 64 = value n ds % 2 ^ 64 := by
  induction ds generalizing n with
  | nil => exact Nat.mod_mod n _
  | cons c ds ih =>
    show value (10 * (n % 2 ^ 64) + (c.toNat - 48)) ds % 2 ^ 64
      = value (10 * n + (c.toNat - 48)) ds % 2 ^ 64
    rw [← ih, ← ih (10 * n + (c.toNat - 48))]
    have hstep : (10 * (n % 2 ^ 64) + (c.toNat - 48)) % 2 ^ 64
        = (10 * n + (c.toNat - 48)) % 2 ^ 64 := by omega
    rw [hstep]

/-- The digits that are read, and the byte that ends them unless the file ends there. -/
theorem scan_spec {n : ℕ} {ch : UInt8} (hch : isDigit ch = true) (input : List UInt8) :
    ∃ ds, (∀ c ∈ ds, isDigit c = true) ∧
      (scan n ch input).1 = value n (ch :: ds) % 2 ^ 64 ∧
      ((input = ds ∧ (scan n ch input).2 = []) ∨
        ∃ c, isDigit c = false ∧ input = ds ++ c :: (scan n ch input).2) := by
  have hdigit : 10 * n + ch.toNat - 48 = 10 * n + (ch.toNat - 48) := by
    have := of_decide_eq_true hch
    omega
  induction input generalizing n ch with
  | nil =>
    refine ⟨[], fun c hc => absurd hc List.not_mem_nil, ?_, Or.inl ⟨rfl, rfl⟩⟩
    rw [scan, hdigit]
    rfl
  | cons c input ih =>
    rw [scan, hdigit]
    by_cases hc : isDigit c = true
    · have hdigit' : ∀ m, 10 * m + c.toNat - 48 = 10 * m + (c.toNat - 48) := by
        intro m
        have := of_decide_eq_true hc
        omega
      obtain ⟨ds, hds, hvalue, hrest⟩ := ih hc (hdigit' _)
      rw [if_pos hc]
      refine ⟨c :: ds, ?_, ?_, ?_⟩
      · intro c' hc'
        rcases List.mem_cons.mp hc' with rfl | hc'
        · exact hc
        · exact hds c' hc'
      · rw [hvalue, value_mod]
        rfl
      · rcases hrest with ⟨rfl, hend⟩ | ⟨c', hc', heq⟩
        · exact Or.inl ⟨rfl, hend⟩
        · refine Or.inr ⟨c', hc', ?_⟩
          rw [List.cons_append, ← heq]
    · rw [if_neg hc]
      exact ⟨[], fun c hc => absurd hc List.not_mem_nil, rfl, Or.inr ⟨c, by simpa using hc, rfl⟩⟩

/-- The second loop takes one number off. -/
theorem numbers_scan {ch : UInt8} (hch : isDigit ch = true) (input : List UInt8) :
    ∃ n, numbers (ch :: input) = n :: numbers (scan 0 ch input).2 ∧
      (scan 0 ch input).1 = n % 2 ^ 64 ∧ (scan 0 ch input).2.length ≤ input.length := by
  obtain ⟨ds, hds, hvalue, hrest⟩ := scan_spec (n := 0) hch input
  have hrun : ∀ c ∈ ch :: ds, isDigit c = true := by
    intro c hc
    rcases List.mem_cons.mp hc with rfl | hc
    · exact hch
    · exact hds c hc
  refine ⟨value 0 (ch :: ds), ?_, hvalue, ?_⟩
  · rcases hrest with ⟨heq, hend⟩ | ⟨c, hc, heq⟩
    · rw [hend, heq, numbers_nil, numbers_run (List.cons_ne_nil _ _) hrun]
    · conv_lhs => rw [heq]
      exact numbers_run_append (List.cons_ne_nil _ _) hrun hc _
  · rcases hrest with ⟨-, hend⟩ | ⟨c, -, heq⟩
    · rw [hend]
      exact Nat.zero_le _
    · have hlen := congrArg List.length heq
      rw [List.length_append, List.length_cons] at hlen
      omega

theorem readInt_nil {input : List UInt8} (h : numbers input = []) :
    readInt input = (eof, []) := by
  unfold readInt
  rcases skip_spec input with ⟨hskip, -⟩ | ⟨ch, rest, -, hch, hnumbers, -⟩
  · rw [hskip]
  · obtain ⟨n, hn, -⟩ := numbers_scan hch rest
    rw [hnumbers, hn] at h
    cases h

theorem readInt_cons {input : List UInt8} {n : ℕ} {ns : List ℕ} (h : numbers input = n :: ns) :
    (readInt input).1 = n % 2 ^ 64 ∧ numbers (readInt input).2 = ns ∧
      (readInt input).2.length < input.length := by
  unfold readInt
  rcases skip_spec input with ⟨-, hnone⟩ | ⟨ch, rest, hskip, hch, hnumbers, hlt⟩
  · rw [hnone] at h
    cases h
  · obtain ⟨m, hm, hvalue, hle⟩ := numbers_scan hch rest
    rw [hnumbers, hm] at h
    cases h
    rw [hskip]
    exact ⟨hvalue, rfl, Nat.lt_of_le_of_lt hle hlt⟩

/-! ### `FastRead` -/

variable {T : KeyType}

theorem fastRead_nil {input : List UInt8} (h : numbers input = []) :
    fastRead T input = (eof % 2 ^ T.width, []) := by
  unfold fastRead
  rw [readInt_nil h]

theorem fastRead_cons {input : List UInt8} {n : ℕ} {ns : List ℕ} (h : numbers input = n :: ns) :
    (fastRead T input).1 = n % 2 ^ T.width ∧ numbers (fastRead T input).2 = ns ∧
      (fastRead T input).2.length < input.length := by
  obtain ⟨hvalue, hnumbers, hlt⟩ := readInt_cons h
  refine ⟨?_, hnumbers, hlt⟩
  show (readInt input).1 % 2 ^ T.width = _
  have hdvd : 2 ^ T.width ∣ 2 ^ 64 := by cases T <;> decide
  rw [hvalue, Nat.mod_mod_of_dvd _ hdvd]

/-- A call of `FastRead` takes a number off, if there is one. -/
theorem numbers_fastRead (input : List UInt8) :
    numbers (fastRead T input).2 = (numbers input).tail := by
  cases h : numbers input with
  | nil => rw [fastRead_nil h, numbers_nil, List.tail_nil]
  | cons n ns => rw [(fastRead_cons h).2.1, List.tail_cons]

theorem length_fastRead_le (input : List UInt8) :
    (fastRead T input).2.length ≤ input.length := by
  cases h : numbers input with
  | nil =>
    rw [fastRead_nil h]
    exact Nat.zero_le _
  | cons n ns => exact Nat.le_of_lt (fastRead_cons h).2.2

end ParallelEnum.Fastio
