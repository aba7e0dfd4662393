import Mathlib.Data.Nat.Notation

/-!
# Numbers written and read by format

What "%d" writes is what "%d" reads, if no digit follows (`scan_print`).
-/

namespace ScanInt

/-- "%d" of `printf` -/
def print : Int → List Char
  | .ofNat n => Nat.toDigits 10 n
  | .negSucc n => '-' :: Nat.toDigits 10 (n + 1)

/-- What comes of "%d" in `scanf`. -/
inductive Scanned
  | eof
  | mismatch
  | value (n : Int) (rest : List Char)

/-- `isspace` -/
def isSpace (c : Char) : Bool := c = ' ' || (9 ≤ c.toNat && c.toNat ≤ 13)

/-- As many digits as there are, behind a sign. -/
def scanDigits (sign : Int) (cs : List Char) : Scanned :=
  match cs.takeWhile Char.isDigit with
  | [] => .mismatch
  | d :: ds => .value (sign * Nat.ofDigitChars 10 (d :: ds) 0) (cs.dropWhile Char.isDigit)

/-- "%d" of `scanf` -/
def scan (cs : List Char) : Scanned :=
  match cs.dropWhile isSpace with
  | [] => .eof
  | c :: cs =>
    if c = '-' then scanDigits (-1) cs
    else if c = '+' then scanDigits 1 cs
    else scanDigits 1 (c :: cs)

/-- No digit follows. -/
def Ends (rest : List Char) : Prop := ∀ c ∈ rest.head?, c.isDigit = false

theorem isDigit_toDigits {n : Nat} : ∀ c ∈ Nat.toDigits 10 n, c.isDigit = true := fun _ hc =>
  Nat.isDigit_of_mem_toDigits (by decide) (by decide) hc

theorem scanDigits_toDigits (sign : Int) (n : Nat) {rest : List Char} (h : Ends rest) :
    scanDigits sign (Nat.toDigits 10 n ++ rest) = .value (sign * n) rest := by
  have htake : (Nat.toDigits 10 n ++ rest).takeWhile Char.isDigit = Nat.toDigits 10 n := by
    rw [List.takeWhile_append_of_pos isDigit_toDigits]
    cases rest with
    | nil => simp
    | cons c rest => simp [h c rfl]
  have hdrop : (Nat.toDigits 10 n ++ rest).dropWhile Char.isDigit = rest := by
    rw [List.dropWhile_append_of_pos isDigit_toDigits]
    cases rest with
    | nil => rfl
    | cons c rest => simp [h c rfl]
  unfold scanDigits
  rw [htake, hdrop]
  cases hds : Nat.toDigits 10 n with
  | nil => exact absurd hds Nat.toDigits_ne_nil
  | cons d ds =>
    show Scanned.value (sign * Nat.ofDigitChars 10 (d :: ds) 0) rest = .value (sign * n) rest
    rw [← hds, Nat.ofDigitChars_toDigits (by decide) (by decide)]

/-- A digit is neither a space nor a sign. -/
theorem isDigit_cases {c : Char} (h : c.isDigit = true) :
    isSpace c = false ∧ c ≠ '-' ∧ c ≠ '+' := by
  refine ⟨?_, ?_, ?_⟩
  · obtain ⟨hl, hr⟩ := Char.isDigit_iff_toNat.1 h
    have h0 : '0'.toNat = 48 := rfl
    unfold isSpace
    simp only [Bool.or_eq_false_iff, decide_eq_false_iff_not, Bool.and_eq_false_iff]
    refine ⟨?_, .inr (by omega)⟩
    rintro rfl
    cases h
  · rintro rfl
    cases h
  · rintro rfl
    cases h

/-- **Round trip.** -/
theorem scan_print (n : Int) {rest : List Char} (h : Ends rest) :
    scan (print n ++ rest) = .value n rest := by
  cases n with
  | ofNat n =>
    have hscan := scanDigits_toDigits 1 n h
    rw [Int.one_mul] at hscan
    show scan (Nat.toDigits 10 n ++ rest) = .value n rest
    cases hds : Nat.toDigits 10 n with
    | nil => exact absurd hds Nat.toDigits_ne_nil
    | cons d ds =>
      have hd : d.isDigit = true := isDigit_toDigits (n := n) d (by rw [hds]; exact List.mem_cons_self)
      obtain ⟨hspace, hminus, hplus⟩ := isDigit_cases hd
      rw [hds] at hscan
      unfold scan
      rw [List.cons_append, List.dropWhile_cons_of_neg (by rw [hspace]; decide)]
      dsimp only
      rw [if_neg hminus, if_neg hplus]
      exact hscan
  | negSucc n =>
    have hscan := scanDigits_toDigits (-1) (n + 1) h
    show scan ('-' :: (Nat.toDigits 10 (n + 1) ++ rest)) = .value (Int.negSucc n) rest
    unfold scan
    rw [List.dropWhile_cons_of_neg (by decide)]
    dsimp only
    rw [if_pos rfl, hscan, Int.negSucc_eq]
    congr 1
    omega

end ScanInt
