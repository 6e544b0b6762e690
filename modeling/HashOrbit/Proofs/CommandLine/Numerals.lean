import HashOrbit.CommandLine.Reader

/-!
# Which texts are numbers

A numeral is a sign, which may be left out, and digits, of which there is at least one.
The readers go through a text once and stop at the first fault; they accept a text exactly
if it is a numeral whose value is within their limits.  The value of the digits read so far
never falls, so a limit on it is a limit on the value of all of them.
-/

namespace HashOrbit
namespace Numeral

/-- There are digits and nothing else, and they make up `n` in base ten. -/
structure Digits (cs : List Char) (n : Nat) : Prop where
  ne_nil : cs ≠ []
  isDigit : forall c, c ∈ cs -> c.isDigit = true
  value : Nat.ofDigitChars 10 cs 0 = n

/-- A numeral that has no minus sign, and its value. -/
inductive Unsigned : List Char -> Nat -> Prop where
  | bare {cs : List Char} {n : Nat} : Digits cs n -> Unsigned cs n
  | plus {cs : List Char} {n : Nat} : Digits cs n -> Unsigned ('+' :: cs) n

inductive Signed : List Char -> Int -> Prop where
  | unsigned {cs : List Char} {n : Nat} : Unsigned cs n -> Signed cs n
  | minus {cs : List Char} {n : Nat} : Digits cs n -> Signed ('-' :: cs) (-n)

theorem Digits.head_isDigit {c : Char} {cs : List Char} {n : Nat} (h : Digits (c :: cs) n) :
    c.isDigit = true :=
  h.isDigit c List.mem_cons_self

theorem not_unsigned_nil {n : Nat} : ¬ Unsigned [] n := by
  intro h
  cases h with
  | bare hdigits => exact hdigits.ne_nil rfl

theorem unsigned_plus_iff {cs : List Char} {n : Nat} :
    Unsigned ('+' :: cs) n <-> Digits cs n := by
  constructor
  · intro h
    cases h with
    | bare hdigits => exact absurd hdigits.head_isDigit (by decide)
    | plus hdigits => exact hdigits
  · exact Unsigned.plus

theorem unsigned_iff_digits {cs : List Char} {n : Nat}
    (hsign : forall rest, cs ≠ '+' :: rest) :
    Unsigned cs n <-> Digits cs n := by
  constructor
  · intro h
    cases h with
    | bare hdigits => exact hdigits
    | plus _ => exact absurd rfl (hsign _)
  · exact Unsigned.bare

theorem not_unsigned_minus {cs : List Char} {n : Nat} : ¬ Unsigned ('-' :: cs) n := by
  intro h
  cases h with
  | bare hdigits => exact absurd hdigits.head_isDigit (by decide)

theorem signed_minus_iff {cs : List Char} {z : Int} :
    Signed ('-' :: cs) z <-> exists n : Nat, Digits cs n ∧ z = -n := by
  constructor
  · intro h
    cases h with
    | unsigned hunsigned => exact absurd hunsigned not_unsigned_minus
    | minus hdigits => exact ⟨_, hdigits, rfl⟩
  · rintro ⟨n, hdigits, rfl⟩
    exact Signed.minus hdigits

theorem signed_iff_unsigned {cs : List Char} {z : Int}
    (hsign : forall rest, cs ≠ '-' :: rest) :
    Signed cs z <-> exists n : Nat, Unsigned cs n ∧ z = n := by
  constructor
  · intro h
    cases h with
    | unsigned hunsigned => exact ⟨_, hunsigned, rfl⟩
    | minus _ => exact absurd rfl (hsign _)
  · rintro ⟨n, hunsigned, rfl⟩
    exact Signed.unsigned hunsigned

/-!
## Reading digits
-/

theorem le_ofDigitChars (cs : List Char) (n : Nat) : n ≤ Nat.ofDigitChars 10 cs n := by
  induction cs generalizing n with
  | nil => exact Nat.le_of_eq Nat.ofDigitChars_nil.symm
  | cons c cs ih =>
      rw [Nat.ofDigitChars_cons]
      calc
        n ≤ 10 * n + (c.toNat - '0'.toNat) := by lia
        _ ≤ Nat.ofDigitChars 10 cs (10 * n + (c.toNat - '0'.toNat)) := ih _

theorem appendDigits_eq_ok_iff
    {limit n m : Nat} {excess : Fault} {cs : List Char}
    (hn : n ≤ limit) :
    appendDigits limit excess n cs = .ok m <->
      (forall c, c ∈ cs -> c.isDigit = true) ∧
        Nat.ofDigitChars 10 cs n = m ∧ m ≤ limit := by
  induction cs generalizing n with
  | nil =>
      simp only [appendDigits, Nat.ofDigitChars_nil, Except.ok.injEq]
      constructor
      · rintro rfl
        exact ⟨by simp, rfl, hn⟩
      · exact fun h => h.2.1
  | cons c cs ih =>
      rw [appendDigits, Nat.ofDigitChars_cons, List.forall_mem_cons]
      by_cases hdigit : c.isDigit = true
      · rw [if_pos hdigit]
        by_cases hle : 10 * n + (c.toNat - '0'.toNat) ≤ limit
        · rw [if_pos hle, ih hle]
          simp [hdigit]
        · rw [if_neg hle]
          have hgrow := le_ofDigitChars cs (10 * n + (c.toNat - '0'.toNat))
          constructor
          · intro h
            cases h
          · rintro ⟨_, rfl, hlimit⟩
            exact absurd (Nat.le_trans hgrow hlimit) hle
      · rw [if_neg hdigit]
        constructor
        · intro h
          cases h
        · exact fun h => absurd h.1.1 hdigit

theorem magnitude_eq_ok_iff {limit n : Nat} {excess : Fault} {cs : List Char} :
    magnitude limit excess cs = .ok n <-> Digits cs n ∧ n ≤ limit := by
  cases cs with
  | nil =>
      constructor
      · intro h
        cases h
      · exact fun h => absurd rfl h.1.ne_nil
  | cons c cs =>
      show appendDigits limit excess 0 (c :: cs) = .ok n <-> _
      rw [appendDigits_eq_ok_iff (Nat.zero_le limit)]
      constructor
      · rintro ⟨hdigits, hvalue, hlimit⟩
        exact ⟨⟨List.cons_ne_nil c cs, hdigits, hvalue⟩, hlimit⟩
      · rintro ⟨⟨_, hdigits, hvalue⟩, hlimit⟩
        exact ⟨hdigits, hvalue, hlimit⟩

theorem readUnsigned_eq_ok_iff {limit n : Nat} {text : String} :
    readUnsigned limit text = .ok n <-> Unsigned text.toList n ∧ n ≤ limit := by
  unfold readUnsigned
  split
  · rename_i hempty
    rw [hempty]
    constructor
    · intro h
      cases h
    · exact fun h => absurd h.1 not_unsigned_nil
  · rename_i cs hplus
    rw [hplus, magnitude_eq_ok_iff, unsigned_plus_iff]
  · rename_i hbare
    rw [magnitude_eq_ok_iff, unsigned_iff_digits fun cs hplus => hbare cs hplus]

theorem map_magnitude_eq_ok_iff
    {limit least greatest : Nat} {excess : Fault} {cs : List Char} {z : Int} {sign : Nat -> Int}
    (hlimit : forall n, n ≤ limit <-> -(least : Int) ≤ sign n ∧ sign n ≤ greatest) :
    (magnitude limit excess cs).map sign = .ok z <->
      (exists n, Digits cs n ∧ z = sign n) ∧ -(least : Int) ≤ z ∧ z ≤ greatest := by
  cases hread : magnitude limit excess cs with
  | error fault =>
      constructor
      · intro h
        cases h
      · rintro ⟨⟨n, hdigits, rfl⟩, hwithin⟩
        have hok : magnitude limit excess cs = .ok n :=
          magnitude_eq_ok_iff.mpr ⟨hdigits, (hlimit n).mpr hwithin⟩
        rw [hread] at hok
        cases hok
  | ok n =>
      rcases magnitude_eq_ok_iff.mp hread with ⟨hdigits, hle⟩
      constructor
      · intro h
        cases h
        exact ⟨⟨n, hdigits, rfl⟩, (hlimit n).mp hle⟩
      · rintro ⟨⟨m, hdigits', rfl⟩, _⟩
        rw [← hdigits.value, hdigits'.value]
        rfl

theorem readSigned_eq_ok_iff {least greatest : Nat} {z : Int} {text : String} :
    readSigned least greatest text = .ok z <->
      Signed text.toList z ∧ -(least : Int) ≤ z ∧ z ≤ greatest := by
  have hupward :
      forall n : Nat, n ≤ greatest <-> -(least : Int) ≤ n ∧ (n : Int) ≤ greatest := by
    lia
  have hdownward :
      forall n : Nat, n ≤ least <-> -(least : Int) ≤ -n ∧ -(n : Int) ≤ greatest := by
    lia
  unfold readSigned
  split
  · rename_i hempty
    rw [hempty, signed_iff_unsigned (by simp)]
    simp [not_unsigned_nil]
  · rename_i cs hplus
    rw [hplus, signed_iff_unsigned (by simp), map_magnitude_eq_ok_iff hupward]
    simp only [unsigned_plus_iff]
  · rename_i cs hminus
    rw [hminus, signed_minus_iff, map_magnitude_eq_ok_iff hdownward]
  · rename_i hplus hminus
    rw [signed_iff_unsigned fun cs h => hminus cs h, map_magnitude_eq_ok_iff hupward]
    simp only [unsigned_iff_digits fun cs h => hplus cs h]

end Numeral

/-!
## Reading the values of parameters
-/

namespace CommandLine

open Numeral

theorem readCap_eq_ok_iff {text : String} {n : Nat} :
    readCap text = .ok n <-> Unsigned text.toList n ∧ n < UInt64.size := by
  have hlimit : n ≤ UInt64.size - 1 <-> n < UInt64.size := Nat.le_sub_one_iff_lt (by decide)
  rw [← hlimit, ← readUnsigned_eq_ok_iff, readCap]
  split
  · rename_i m hread
    rw [hread, Except.ok.injEq, Except.ok.injEq]
  · rename_i fault hread
    rw [hread]
    simp

theorem ofNat_toNat_eq_iff {z : Int} {v : UInt32} (hrange : 0 ≤ z ∧ z < UInt32.size) :
    UInt32.ofNat z.toNat = v <-> z = v.toNat := by
  have hlt : z.toNat < UInt32.size := by lia
  rw [← UInt32.toNat_inj, UInt32.toNat_ofNat_of_lt' hlt]
  lia

theorem readRegister_eq_ok_iff {text : String} {v : UInt32} :
    readRegister text = .ok v <-> Signed text.toList v.toNat := by
  have hv : v.toNat < UInt32.size := v.toNat_lt
  have hsize : UInt32.size ≤ UInt64.size / 2 - 1 := by decide
  have hsigned :
      readSigned (UInt64.size / 2) (UInt64.size / 2 - 1) text = .ok (v.toNat : Int) <->
        Signed text.toList v.toNat := by
    rw [readSigned_eq_ok_iff]
    exact ⟨fun h => h.1, fun h => ⟨h, by lia, by lia⟩⟩
  rw [← hsigned, readRegister]
  split
  · rename_i z hread
    rw [hread, Except.ok.injEq]
    split
    · rename_i hrange
      rw [Except.ok.injEq]
      exact ofNat_toNat_eq_iff hrange
    · rename_i hrange
      constructor
      · intro h
        cases h
      · rintro rfl
        exact absurd ⟨by lia, by lia⟩ hrange
  · rename_i fault hread
    rw [hread]
    simp

example : readRegister "-000" = .ok 0 := by rfl

example : readCap "-000" = .error (.invalidValue "-000" .cap (.numeral .badDigit)) := by rfl

end CommandLine
end HashOrbit
