import Mathlib.Algebra.Ring.Nat
import SheetPackages.Decimal.Whole

/-!
# Written numbers

A number is read back from the digits with which it is written, and digits are worth less than one
behind as many zeros. Leading zeros, which are read but never written, are not described here.
-/

namespace SheetPackages.Decimal

theorem toNat_digitChar {n : Nat} (h : n < 10) : (digitChar n).toNat = '0'.toNat + n := by
  have hlimit : '0'.toNat + 10 ≤ 0xD800 := by decide
  have hvalid : Nat.isValidChar ('0'.toNat + n) := .inl (by omega)
  rw [digitChar, Char.ofNat, dif_pos hvalid]
  rfl

theorem isDigit_digitChar {n : Nat} (h : n < 10) : isDigit (digitChar n) = true := by
  have hn := toNat_digitChar h
  simp only [isDigit, Bool.and_eq_true, decide_eq_true_eq, Char.le_def, UInt32.le_iff_toNat_le]
  change '0'.toNat ≤ (digitChar n).toNat ∧ (digitChar n).toNat ≤ '9'.toNat
  have hlast : '9'.toNat = '0'.toNat + 9 := rfl
  omega

@[simp]
theorem digitValue_digitChar {n : Nat} (h : n < 10) : digitValue (digitChar n) = n := by
  rw [digitValue, toNat_digitChar h, Nat.add_sub_cancel_left]

theorem digits_ne_nil (n : Nat) : digits n ≠ [] := by
  rw [digits]
  split
  · exact List.cons_ne_nil _ _
  · exact List.append_ne_nil_of_right_ne_nil _ (List.cons_ne_nil _ _)

theorem isDigit_of_mem_digits {n : Nat} {c : Char} (h : c ∈ digits n) : isDigit c = true := by
  fun_induction digits n with
  | case1 n hsmall =>
    obtain rfl := List.mem_singleton.mp h
    exact isDigit_digitChar hsmall
  | case2 n _ ih =>
    rcases List.mem_append.mp h with h | h
    · exact ih h
    · obtain rfl := List.mem_singleton.mp h
      exact isDigit_digitChar (Nat.mod_lt n (by decide))

theorem value_append_singleton (s : List Char) (c : Char) :
    value (s ++ [c]) = 10 * value s + digitValue c := by
  rw [value, valueFrom, List.foldl_append]
  rfl

theorem value_digits (n : Nat) : value (digits n) = n := by
  fun_induction digits n with
  | case1 n hsmall =>
    have hvalue : value [digitChar n] = digitValue (digitChar n) := Nat.zero_add _
    rw [hvalue, digitValue_digitChar hsmall]
  | case2 n _ ih =>
    rw [value_append_singleton, ih, digitValue_digitChar (Nat.mod_lt n (by decide))]
    exact Nat.div_add_mod n 10

theorem digitValue_le {c : Char} (h : isDigit c = true) : digitValue c ≤ 9 := by
  simp only [isDigit, Bool.and_eq_true, decide_eq_true_eq, Char.le_def, UInt32.le_iff_toNat_le] at h
  have hle : c.toNat ≤ '9'.toNat := h.2
  have hlast : '9'.toNat = '0'.toNat + 9 := rfl
  rw [digitValue]
  omega

theorem valueFrom_lt {s : List Char} (h : ∀ c ∈ s, isDigit c = true) (high : Nat) :
    valueFrom high s < (high + 1) * 10 ^ s.length := by
  induction s generalizing high with
  | nil =>
    rw [List.length_nil, Nat.pow_zero, Nat.mul_one]
    exact Nat.lt_succ_self high
  | cons c rest ih =>
    obtain ⟨hc, hrest⟩ := List.forall_mem_cons.mp h
    have hdigit := digitValue_le hc
    calc valueFrom (10 * high + digitValue c) rest
        < (10 * high + digitValue c + 1) * 10 ^ rest.length := ih hrest _
      _ ≤ (high + 1) * 10 * 10 ^ rest.length := Nat.mul_le_mul_right _ (by omega)
      _ = (high + 1) * 10 ^ (rest.length + 1) := by rw [Nat.pow_succ', Nat.mul_assoc]

theorem value_lt {s : List Char} (h : ∀ c ∈ s, isDigit c = true) : value s < 10 ^ s.length := by
  have hlt := valueFrom_lt h 0
  rwa [Nat.zero_add, Nat.one_mul] at hlt

theorem read?_digits (n : Nat) : read? (digits n) = some n := by
  have hdigits : digits n ≠ [] ∧ (digits n).all isDigit = true :=
    ⟨digits_ne_nil n, List.all_eq_true.mpr fun _ ↦ isDigit_of_mem_digits⟩
  rw [read?, if_pos hdigits, value_digits]

@[simp]
theorem readWord?_digits (n : UInt64) : readWord? (digits n.toNat) = some n := by
  have hfits : n.toNat < bitLimit 64 := by
    rw [bitLimit, Nat.one_shiftLeft]
    exact n.toNat_lt
  simp only [readWord?, read?_digits, if_pos hfits, UInt64.ofNat_toNat]

theorem lt_bitLimit_iff {n : Nat} : n < bitLimit 64 ↔ n < UInt64.size := by
  rw [bitLimit, Nat.one_shiftLeft]

/-- Words are read from nonempty runs of digits, of any length, whose value fits. -/
theorem readWord?_eq_some_iff {s : List Char} {n : UInt64} :
    readWord? s = some n ↔ s ≠ [] ∧ s.all isDigit = true ∧ value s = n.toNat := by
  rw [← and_assoc]
  by_cases hs : s ≠ [] ∧ s.all isDigit = true
  · rw [and_iff_right hs]
    simp only [readWord?, read?, if_pos hs]
    by_cases hfits : value s < bitLimit 64
    · rw [if_pos hfits, Option.some_inj, ← UInt64.toNat_inj,
        UInt64.toNat_ofNat_of_lt' (lt_bitLimit_iff.mp hfits)]
    · rw [if_neg hfits]
      refine iff_of_false (nomatch ·) fun h ↦ hfits (lt_bitLimit_iff.mpr ?_)
      rw [h]
      exact n.toNat_lt
  · simp only [readWord?, read?, if_neg hs]
    exact iff_of_false (nomatch ·) fun h ↦ hs h.1

end SheetPackages.Decimal
