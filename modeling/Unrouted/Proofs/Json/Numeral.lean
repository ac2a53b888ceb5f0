import Unrouted.Json.Number
import Mathlib.Data.List.TakeWhile

/-!
Whole numbers and their numerals.  A whole number is written without a point, without an exponent
and without zeros in front, and a numeral like that stands for the number itself as long as this
fits 64 bits.
-/

namespace Unrouted
namespace Json
namespace Numeral

variable {n : Nat} {cs : List Char} {ds : List Nat}

/-! ## Decimal digits -/

/-- The first digit of a positive number is not zero. -/
theorem head?_toDigits (h : 0 < n) : (Nat.toDigits 10 n).head? ≠ some '0' := by
  induction n using Nat.strongRecOn with
  | ind n ih =>
    rw [Nat.toDigits_eq_if (by omega)]
    split
    · intro hhead
      have hzero : n = 0 := Nat.digitChar_eq_zero.1 (Option.some.inj hhead)
      omega
    · have hrest := ih (n / 10) (by omega) (by omega)
      rwa [List.head?_append, Option.or_of_isSome (List.isSome_head?.2 Nat.toDigits_ne_nil)]

theorem isDigit_of_mem_toDigits : ∀ c ∈ Nat.toDigits 10 n, c.isDigit = true :=
  fun _ hc => Nat.isDigit_of_mem_toDigits (by omega) (by omega) hc

theorem goodWhole_toDigits (n : Nat) : goodWhole (Nat.toDigits 10 n) = true := by
  by_cases hn : n = 0
  · subst hn
    rfl
  · have hhead := head?_toDigits (Nat.pos_of_ne_zero hn)
    cases hcs : Nat.toDigits 10 n with
    | nil => exact absurd hcs Nat.toDigits_ne_nil
    | cons c rest =>
      have hc : c ≠ '0' := by simpa [hcs] using hhead
      simp [goodWhole, hc]

theorem leading_toDigits (n : Nat) : leading (Nat.toDigits 10 n) = Nat.toDigits 10 n :=
  List.takeWhile_eq_self_iff.2 isDigit_of_mem_toDigits

theorem afterLeading_toDigits (n : Nat) : afterLeading (Nat.toDigits 10 n) = [] :=
  List.dropWhile_eq_nil_iff.2 isDigit_of_mem_toDigits

theorem sign_toDigits (n : Nat) : sign (Nat.toDigits 10 n) = (false, Nat.toDigits 10 n) := by
  unfold sign
  split
  · rename_i rest hcs
    have hdigit : '-'.isDigit = true := isDigit_of_mem_toDigits _ (hcs ▸ List.mem_cons_self)
    exact absurd hdigit (by decide)
  · rfl

/-- The digits of a number give the number back. -/
theorem foldl_digits (n : Nat) :
    (digits (Nat.toDigits 10 n)).foldl (fun n d => n * 10 + d) 0 = n := by
  have h : Nat.ofDigitChars 10 (Nat.toDigits 10 n) 0 = n := Nat.ofDigitChars_ten_toDigits
  rw [Nat.ofDigitChars_eq_foldl] at h
  simp only [Nat.mul_comm 10] at h
  rwa [digits, List.foldl_map]

/-! ## Numerals of whole numbers -/

/-- The numeral of a whole number. -/
def ofInt (n : Int) : Numeral where
  negative := decide (n < 0)
  whole := digits (Nat.toDigits 10 n.natAbs)
  fraction := []
  exponent := none

theorem ofChars?_of_sign {cs : List Char} {negative : Bool} {n : Nat}
    (h : sign cs = (negative, Nat.toDigits 10 n)) : ofChars? cs =
      some { negative, whole := digits (Nat.toDigits 10 n), fraction := [], exponent := none } := by
  simp [ofChars?, h, goodWhole_toDigits, leading_toDigits, afterLeading_toDigits, fractionPart?,
    exponentPart?, digits]

theorem ofChars?_toString (n : Int) : ofChars? (toString n).toList = some (ofInt n) := by
  rw [Int.toString_eq_repr, Int.repr_eq_if]
  split
  · rename_i hn
    have hnat : n.toNat = n.natAbs := by omega
    have hpos : ¬n < 0 := by omega
    rw [Nat.toList_repr, hnat, ofChars?_of_sign (sign_toDigits _), ofInt, decide_eq_false hpos]
  · rename_i hn
    have hnat : (-n).toNat = n.natAbs := by omega
    have hneg : n < 0 := by omega
    rw [String.toList_append, Nat.toList_repr, hnat, ofInt, decide_eq_true hneg]
    exact ofChars?_of_sign rfl

theorem absorb_eq {n : Nat} {ds : List Nat}
    (h : ds.foldl (fun n d => n * 10 + d) n ≤ largest) :
    absorb n ds = (ds.foldl (fun n d => n * 10 + d) n, []) := by
  induction ds generalizing n with
  | nil => rfl
  | cons d rest ih =>
    have hgrows (m : Nat) : m ≤ rest.foldl (fun n d => n * 10 + d) m :=
      List.foldlRecOn (motive := fun k => m ≤ k) rest _ (Nat.le_refl m) fun k hk d _ => by omega
    have hfits : n * 10 + d ≤ largest := Nat.le_trans (hgrows _) h
    rw [absorb, if_pos hfits, ih h, List.foldl_cons]

/-- A whole number that fits 64 bits is read as it was written. -/
theorem value?_ofInt {n : Int} (hlow : -0x8000000000000000 ≤ n) (hhigh : n < 0x10000000000000000) :
    (ofInt n).value? = some (.whole n) := by
  obtain ⟨m, hm⟩ : ∃ m, n.natAbs = m := ⟨_, rfl⟩
  have habsorb : absorb 0 (digits (Nat.toDigits 10 m)) = (m, []) := by
    rw [absorb_eq, foldl_digits]
    rw [foldl_digits, largest]
    omega
  rw [value?, ofInt, hm]
  simp only [habsorb]
  by_cases hn : n < 0
  · have hne : m ≠ 0 := by omega
    have hle : m ≤ 0x8000000000000000 := by omega
    have habs : -(m : Int) = n := by omega
    simp [hn, hne, hle, habs]
  · have habs : (m : Int) = n := by omega
    simp [hn, habs]

end Numeral
end Json
end Unrouted
