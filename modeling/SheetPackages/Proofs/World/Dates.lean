import SheetPackages.Proofs.Decimal.Digits
import SheetPackages.World.Instant

/-!
# Dates that are read

Whatever is read as an instant has a year of at most six digits, so it is less than ten million
million seconds away from the beginning of 1970. Which dates there are in a year, and which of two
texts is the later date, is not described here.
-/

namespace SheetPackages

namespace Instant

/-- An instant less than ten million million seconds away from the beginning of 1970. -/
def IsDatable (t : Instant) : Prop :=
  t.nanoseconds.natAbs < 10 ^ 22

/-! ## Parts of a date -/

variable {s rest : List Char} {n : Nat} {i : Int}

theorem le_of_number? {width low high : Nat} (h : number? width low high s = some (n, rest)) :
    n ≤ high := by
  simp only [number?, Option.ite_none_right_eq_some, Option.some_inj, Prod.mk.injEq] at h
  obtain ⟨⟨-, -, hle⟩, rfl, -⟩ := h
  exact hle

theorem year?_le (h : year? s = some (i, rest)) : i.natAbs ≤ highestYear + 1 := by
  have hread {width low high : Nat} {s : List Char} (sign : Nat → Int)
      (hsign : ∀ n, (sign n).natAbs = n) (hhigh : high ≤ highestYear + 1)
      (h : (number? width low high s).map (fun found ↦ (sign found.1, found.2)) = some (i, rest)) :
      i.natAbs ≤ highestYear + 1 := by
    obtain ⟨⟨n, _⟩, hn, heq⟩ := Option.map_eq_some_iff.mp h
    cases heq
    rw [hsign]
    exact Nat.le_trans (le_of_number? hn) hhigh
  unfold year? at h
  split at h
  · exact hread (fun n ↦ -(n : Int)) (fun n ↦ by omega) (Nat.le_refl _) h
  · exact hread Nat.cast (fun n ↦ rfl) (Nat.le_succ _) h
  · exact hread Nat.cast (fun n ↦ rfl) (by decide) h

theorem decimals?_lt (h : decimals? s = some (n, rest)) : n < 10 ^ 9 := by
  unfold decimals? at h
  split at h
  · next rest =>
    simp only [Option.ite_none_left_eq_some, Option.some_inj, Prod.mk.injEq] at h
    obtain ⟨-, rfl, -⟩ := h
    generalize hdigits : (rest.take 9).takeWhile Decimal.isDigit = digits
    have hlength : digits.length ≤ 9 :=
      hdigits ▸ Nat.le_trans (List.takeWhile_sublist _).length_le (List.length_take_le 9 rest)
    have hvalue : Decimal.value digits < 10 ^ digits.length :=
      Decimal.value_lt (List.all_eq_true.mp (hdigits ▸ List.all_takeWhile))
    calc Decimal.value digits * 10 ^ (9 - digits.length)
        < 10 ^ digits.length * 10 ^ (9 - digits.length) :=
          Nat.mul_lt_mul_of_pos_right hvalue (Nat.pow_pos (by decide))
      _ = 10 ^ 9 := by rw [← Nat.pow_add, Nat.add_sub_cancel' hlength]
  · cases h
    decide

theorem offset?_lt (h : offset? s = some (i, rest)) : i.natAbs < 86400 := by
  unfold offset? at h
  split at h
  · split at h
    · cases h
      decide
    · split at h
      · cases h
        decide
      · simp only [Option.bind_eq_bind, Option.bind_none, Option.ite_none_left_eq_some,
          Option.ite_none_right_eq_some, Option.bind_eq_some_iff, Prod.exists] at h
        obtain ⟨-, -, hours, _, hhours, -, minutes, _, hminutes, h⟩ := h
        cases h
        have hhours := le_of_number? hhours
        have hminutes := le_of_number? hminutes
        split <;> omega
  · cases h

theorem daysIn_le (year : Int) (month : Nat) : daysIn year month ≤ 31 := by
  unfold daysIn
  split <;> split <;> decide

theorem dayNumber_lt {year : Int} {day : Nat} (hyear : year.natAbs ≤ highestYear + 1)
    (hday : day ≤ 31) (month : Int) : (dayNumber year month day).natAbs < 10 ^ 8 := by
  unfold dayNumber
  unfold highestYear at hyear
  simp only
  split <;> omega

/-! ## Dates -/

theorem isDatable_of_ofChars? {t : Instant} (h : ofChars? s = some t) : t.IsDatable := by
  -- One by one, as the reader of the time stands behind the day three times.
  obtain ⟨⟨year, _⟩, hyear, h⟩ := Option.bind_eq_some_iff.mp h
  obtain ⟨_, -, h⟩ := Option.bind_eq_some_iff.mp h
  obtain ⟨⟨month, _⟩, -, h⟩ := Option.bind_eq_some_iff.mp h
  obtain ⟨_, -, h⟩ := Option.bind_eq_some_iff.mp h
  obtain ⟨⟨day, s⟩, hday, h⟩ := Option.bind_eq_some_iff.mp h
  dsimp only at h
  split at h
  · split at h
    · simp only [Option.bind_eq_bind, Option.bind_some, Option.bind_eq_some_iff, Prod.exists] at h
      obtain ⟨hour, _, hhour, _, _, minute, _, hminute, _, _, second, _, hsecond, fraction, _,
        hfraction, offset, _, hoffset, h⟩ := h
      split at h
      · cases h
      · cases h
        have hday := Nat.le_trans (le_of_number? hday) (daysIn_le year month)
        have hdate := dayNumber_lt (year?_le hyear) hday month
        have hhour := le_of_number? hhour
        have hminute := le_of_number? hminute
        have hsecond := le_of_number? hsecond
        have hfraction := decimals?_lt hfraction
        have hoffset := offset?_lt hoffset
        simp only [IsDatable, nanosecondsPerSecond]
        omega
    · cases h
  · cases h

/-- Every instant that is read has a date. -/
theorem isDatable_of_parse? {text : String} {t : Instant} (h : parse? text = some t) :
    t.IsDatable :=
  isDatable_of_ofChars? h

end Instant

end SheetPackages
