import Mathlib.Data.List.TakeWhile
import SheetPackages.Text.Blank

/-!
# Trimmed texts

Neither end of a trimmed text is blank, and trimming leaves a text as it is exactly when neither of
its ends is. Blanks around a text do not change its words, which are the text without its blanks,
and pieces may be trimmed at their right ends before they are trimmed and the blank ones dropped.
-/

namespace SheetPackages.Text

theorem isBlank_of_mem_head?_dropWhile {s : List Char} {c : Char}
    (h : c ∈ (s.dropWhile isBlank).head?) : isBlank c = false := by
  have hhead := List.head?_dropWhile_not isBlank s
  rw [Option.mem_def.mp h] at hhead
  exact hhead

theorem trimLeft_eq_self {s : List Char} (h : ∀ c ∈ s.head?, isBlank c = false) :
    trimLeft s = s := by
  cases s with
  | nil => rfl
  | cons c rest => exact List.dropWhile_cons_of_neg (by simp [h c rfl])

theorem trimRight_eq_self {s : List Char} (h : ∀ c ∈ s.getLast?, isBlank c = false) :
    trimRight s = s := by
  have hreverse : trimLeft s.reverse = s.reverse :=
    trimLeft_eq_self (by rwa [List.head?_reverse])
  exact List.reverse_eq_iff.mpr hreverse

theorem head?_trim {s : List Char} : ∀ c ∈ (trim s).head?, isBlank c = false := by
  intro c hc
  have hsuffix := List.dropWhile_suffix isBlank (l := (trimLeft s).reverse)
  obtain ⟨behind, hbehind⟩ : trim s <+: trimLeft s :=
    List.reverse_suffix.mp (by rw [trim, trimRight, List.reverse_reverse]; exact hsuffix)
  have hhead : c ∈ (trimLeft s).head? := by
    rw [← hbehind, List.head?_append, Option.mem_def.mp hc]
    rfl
  exact isBlank_of_mem_head?_dropWhile hhead

theorem getLast?_trim {s : List Char} : ∀ c ∈ (trim s).getLast?, isBlank c = false := by
  intro c hc
  rw [trim, trimRight, List.getLast?_reverse] at hc
  exact isBlank_of_mem_head?_dropWhile hc

theorem trim_eq_self_iff {s : List Char} : trim s = s ↔
    (∀ c ∈ s.head?, isBlank c = false) ∧ ∀ c ∈ s.getLast?, isBlank c = false := by
  constructor
  · intro h
    rw [← h]
    exact ⟨head?_trim, getLast?_trim⟩
  · rintro ⟨hhead, hlast⟩
    rw [trim, trimLeft_eq_self hhead, trimRight_eq_self hlast]

@[simp]
theorem trim_trim (s : List Char) : trim (trim s) = trim s :=
  trim_eq_self_iff.mpr ⟨head?_trim, getLast?_trim⟩

theorem trim_of_forall {s : List Char} (h : ∀ c ∈ s, isBlank c = false) : trim s = s :=
  trim_eq_self_iff.mpr
    ⟨fun c hc ↦ h c (List.mem_of_head? hc), fun c hc ↦ h c (List.mem_of_getLast? hc)⟩

/-! ## Trimming the right end -/

theorem trimRight_cons (c : Char) (s : List Char) :
    trimRight (c :: s) = if trimRight s = [] ∧ isBlank c = true then [] else c :: trimRight s := by
  have hreverse : trimRight (c :: s) = (List.dropWhile isBlank (s.reverse ++ [c])).reverse := by
    rw [trimRight, List.reverse_cons]
  rw [hreverse, List.dropWhile_append]
  by_cases hempty : s.reverse.dropWhile isBlank = []
  · have hs : trimRight s = [] := by rw [trimRight, hempty, List.reverse_nil]
    rw [hempty, hs]
    cases hc : isBlank c <;> simp [hc]
  · have hs : trimRight s ≠ [] := fun h ↦ hempty (List.reverse_eq_nil_iff.mp h)
    rw [if_neg (mt List.isEmpty_iff.mp hempty), if_neg fun h ↦ hs h.1, List.reverse_append]
    rfl

/-- Blanks at the end of a text are not taken by a predicate that no blank satisfies. -/
theorem takeWhile_trimRight {p : Char → Bool} (h : ∀ c, p c = true → isBlank c = false)
    (s : List Char) : (trimRight s).takeWhile p = s.takeWhile p := by
  induction s with
  | nil => rfl
  | cons c rest ih =>
    rw [trimRight_cons]
    by_cases hblank : trimRight rest = [] ∧ isBlank c = true
    · have hc : ¬p c = true := fun hp ↦ Bool.false_ne_true ((h c hp).symm.trans hblank.2)
      rw [if_pos hblank, List.takeWhile_cons_of_neg hc, List.takeWhile_nil]
    · rw [if_neg hblank, List.takeWhile_cons, List.takeWhile_cons, ih]

theorem trimRight_append_of_ne_nil (s : List Char) {t : List Char} (h : trimRight t ≠ []) :
    trimRight (s ++ t) = s ++ trimRight t := by
  induction s with
  | nil => rfl
  | cons c rest ih =>
    have hne : trimRight (rest ++ t) ≠ [] := by
      rw [ih]
      exact List.append_ne_nil_of_right_ne_nil rest h
    rw [List.cons_append, trimRight_cons, if_neg fun hnil ↦ hne hnil.1, ih, List.cons_append]

theorem trimRight_append_of_eq_nil (s : List Char) {t : List Char} (h : trimRight t = []) :
    trimRight (s ++ t) = trimRight s := by
  induction s with
  | nil => exact h
  | cons c rest ih => rw [List.cons_append, trimRight_cons, trimRight_cons, ih]

theorem trimRight_append {u : List Char} (hend : trimRight u = u) (s : List Char) :
    trimRight (u ++ s) = u ++ trimRight s := by
  by_cases hnil : trimRight s = []
  · rw [trimRight_append_of_eq_nil u hnil, hnil, hend, List.append_nil]
  · exact trimRight_append_of_ne_nil u hnil

/-- Trimming the ends in the other order. -/
theorem trim_eq_trimLeft_trimRight (s : List Char) : trim s = trimLeft (trimRight s) := by
  induction s with
  | nil => rfl
  | cons c rest ih =>
    rw [trimRight_cons]
    by_cases hc : isBlank c = true
    · have hleft : trimLeft (c :: rest) = trimLeft rest := List.dropWhile_cons_of_pos hc
      rw [trim, hleft, ← trim, ih]
      by_cases hnil : trimRight rest = []
      · rw [if_pos ⟨hnil, hc⟩, hnil]
      · rw [if_neg fun h ↦ hnil h.1]
        exact (List.dropWhile_cons_of_pos hc).symm
    · have hleft (t : List Char) : trimLeft (c :: t) = c :: t := List.dropWhile_cons_of_neg hc
      rw [trim, hleft, trimRight_cons, if_neg fun h ↦ hc h.2, hleft]

theorem trimLeft_trimLeft (s : List Char) : trimLeft (trimLeft s) = trimLeft s :=
  trimLeft_eq_self fun _ hc ↦ isBlank_of_mem_head?_dropWhile hc

@[simp]
theorem trim_trimLeft (s : List Char) : trim (trimLeft s) = trim s := by
  rw [trim, trimLeft_trimLeft, trim]

@[simp]
theorem trim_trimRight (s : List Char) : trim (trimRight s) = trim s := by
  rw [trim, ← trim_eq_trimLeft_trimRight, trimRight_eq_self getLast?_trim]

/-- A text is its trimmed beginning and blanks. -/
theorem exists_trimRight_append (s : List Char) :
    ∃ blank, (∀ c ∈ blank, isBlank c = true) ∧ trimRight s ++ blank = s := by
  refine ⟨(s.reverse.takeWhile isBlank).reverse, fun c hc ↦ ?_, ?_⟩
  · exact List.all_eq_true.mp List.all_takeWhile c (List.mem_reverse.mp hc)
  · rw [trimRight, ← List.reverse_append, List.takeWhile_append_dropWhile, List.reverse_reverse]

theorem mem_head?_of_mem_head?_trimRight {s : List Char} {c : Char}
    (h : c ∈ (trimRight s).head?) : c ∈ s.head? := by
  obtain ⟨blank, _, hs⟩ := exists_trimRight_append s
  rw [← hs, List.head?_append, Option.mem_def.mp h]
  rfl

theorem mem_of_mem_trimRight {s : List Char} {c : Char} (h : c ∈ trimRight s) : c ∈ s := by
  obtain ⟨blank, _, hs⟩ := exists_trimRight_append s
  rw [← hs]
  exact List.mem_append_left blank h

theorem mem_of_mem_trim {s : List Char} {c : Char} (h : c ∈ trim s) : c ∈ s :=
  (List.dropWhile_suffix isBlank).mem (mem_of_mem_trimRight h)

/-! ## Words -/

theorem trimLeft_append_blank {blank : List Char} (h : ∀ c ∈ blank, isBlank c = true)
    (s : List Char) : trimLeft (blank ++ s) = trimLeft s :=
  List.dropWhile_append_of_pos h

theorem words_of_trimLeft_eq_nil {s : List Char} (h : trimLeft s = []) : words s = [] := by
  rw [words]
  split
  · rfl
  · next heq => cases h.symm.trans heq

theorem words_of_trimLeft_eq_cons {s rest : List Char} {c : Char} (h : trimLeft s = c :: rest) :
    words s = (c :: rest.takeWhile (fun d ↦ !isBlank d)) ::
      words (rest.dropWhile (fun d ↦ !isBlank d)) := by
  rw [words]
  split
  · next heq => cases h.symm.trans heq
  · next heq =>
    cases h.symm.trans heq
    rfl

theorem words_trimLeft (s : List Char) : words (trimLeft s) = words s := by
  have hsame := trimLeft_trimLeft s
  cases h : trimLeft s with
  | nil => rw [words_of_trimLeft_eq_nil h, words_of_trimLeft_eq_nil rfl]
  | cons c rest =>
    rw [h] at hsame
    rw [words_of_trimLeft_eq_cons h, words_of_trimLeft_eq_cons hsame]

/-- Blanks behind a text add no word. -/
theorem words_append_blank (s : List Char) {blank : List Char}
    (h : ∀ c ∈ blank, isBlank c = true) : words (s ++ blank) = words s := by
  have hblank : trimLeft blank = [] := by
    have hdrop := trimLeft_append_blank h []
    rwa [List.append_nil] at hdrop
  have hnone : blank.takeWhile (fun d ↦ !isBlank d) = [] ∧
      blank.dropWhile (fun d ↦ !isBlank d) = blank := by
    cases blank with
    | nil => exact ⟨rfl, rfl⟩
    | cons d more => simp [h d List.mem_cons_self]
  induction hn : s.length using Nat.strongRecOn generalizing s with
  | _ n ih =>
    cases hs : trimLeft s with
    | nil =>
      have hboth : trimLeft (s ++ blank) = [] := by
        rw [trimLeft, List.dropWhile_append, ← trimLeft, hs]
        exact hblank
      rw [words_of_trimLeft_eq_nil hs, words_of_trimLeft_eq_nil hboth]
    | cons c rest =>
      have hboth : trimLeft (s ++ blank) = c :: (rest ++ blank) := by
        rw [trimLeft, List.dropWhile_append, ← trimLeft, hs]
        rfl
      have hparts := List.takeWhile_append_dropWhile (p := fun d ↦ !isBlank d) (l := rest)
      rw [words_of_trimLeft_eq_cons hs, words_of_trimLeft_eq_cons hboth, List.takeWhile_append,
        List.dropWhile_append]
      cases hdrop : rest.dropWhile fun d ↦ !isBlank d with
      | nil =>
        rw [hdrop, List.append_nil] at hparts
        rw [hparts, if_pos rfl, hnone.1, hnone.2, List.append_nil]
        have hwords : words blank = words [] :=
          (words_of_trimLeft_eq_nil hblank).trans (words_of_trimLeft_eq_nil rfl).symm
        rw [List.isEmpty_nil, if_pos rfl, hwords]
      | cons d more =>
        have hlengths := congrArg List.length hparts
        rw [hdrop, List.length_append, List.length_cons] at hlengths
        have hshorter : (d :: more).length < n := by
          have hle := length_dropWhile_le isBlank s
          rw [← trimLeft, hs, List.length_cons] at hle
          rw [List.length_cons]
          omega
        rw [if_neg (by omega), List.isEmpty_cons, if_neg Bool.false_ne_true, ih _ hshorter _ rfl]

@[simp]
theorem words_trim (s : List Char) : words (trim s) = words s := by
  obtain ⟨blank, hblank, hs⟩ := exists_trimRight_append (trimLeft s)
  calc
    words (trim s) = words (trimRight (trimLeft s) ++ blank) := (words_append_blank _ hblank).symm
    _ = words s := by rw [hs, words_trimLeft]

/-- Without a blank a text is a single word. -/
theorem words_of_forall {s : List Char} (hne : s ≠ []) (h : ∀ c ∈ s, isBlank c = false) :
    words s = [s] := by
  cases s with
  | nil => exact absurd rfl hne
  | cons c rest =>
    obtain ⟨hc, hrest⟩ := List.forall_mem_cons.mp h
    have hword : ∀ d ∈ rest, (!isBlank d) = true := fun d hd ↦ by rw [hrest d hd, Bool.not_false]
    have hleft : trimLeft (c :: rest) = c :: rest :=
      trimLeft_eq_self fun d hd ↦ h d (List.mem_of_head? hd)
    rw [words_of_trimLeft_eq_cons hleft, List.takeWhile_eq_self_iff.mpr hword,
      List.dropWhile_eq_nil_iff.mpr hword, words_of_trimLeft_eq_nil rfl]

theorem filter_trimLeft (s : List Char) :
    (trimLeft s).filter (!isBlank ·) = s.filter (!isBlank ·) := by
  have hblank : (s.takeWhile isBlank).filter (!isBlank ·) = [] := by
    refine List.filter_eq_nil_iff.mpr fun c hc ↦ ?_
    simp [List.all_eq_true.mp List.all_takeWhile c hc]
  calc
    _ = (s.takeWhile isBlank ++ s.dropWhile isBlank).filter (!isBlank ·) := by
      rw [List.filter_append, hblank, List.nil_append, trimLeft]
    _ = _ := by rw [List.takeWhile_append_dropWhile]

/-- The words of a text are the text without its blanks. -/
theorem flatten_words (s : List Char) : (words s).flatten = s.filter (!isBlank ·) := by
  fun_induction words s with
  | case1 s hs =>
    rw [← filter_trimLeft, hs]
    rfl
  | case2 s c rest hs ih =>
    have hc : isBlank c = false :=
      isBlank_of_mem_head?_dropWhile (s := s) (by rw [← trimLeft, hs]; rfl)
    have hword : (rest.takeWhile (!isBlank ·)).filter (!isBlank ·) =
        rest.takeWhile (!isBlank ·) :=
      List.filter_eq_self.mpr fun d hd ↦ List.all_eq_true.mp List.all_takeWhile d hd
    calc
      _ = c :: (rest.takeWhile (!isBlank ·) ++ rest.dropWhile (!isBlank ·)).filter
          (!isBlank ·) := by
        rw [List.flatten_cons, ih, List.filter_append, hword, List.cons_append]
      _ = (c :: rest).filter (!isBlank ·) := by
        rw [List.takeWhile_append_dropWhile, List.filter_cons_of_pos (by rw [hc]; rfl)]
      _ = _ := by rw [← hs, filter_trimLeft]

theorem ne_nil_of_mem_words {s word : List Char} (h : word ∈ words s) : word ≠ [] := by
  fun_induction words s with
  | case1 s hs => cases h
  | case2 s c rest hs ih =>
    rcases List.mem_cons.mp h with rfl | h
    · exact List.cons_ne_nil _ _
    · exact ih h
/-! ## Pieces -/

/-- The pieces trimmed, without those that are blank. -/
def cleaned (pieces : List (List Char)) : List (List Char) :=
  (pieces.map trim).filter (· ≠ [])

theorem cleaned_cons (piece : List Char) (more : List (List Char)) :
    cleaned (piece :: more) =
      if trim piece = [] then cleaned more else trim piece :: cleaned more := by
  rw [cleaned, List.map_cons, List.filter_cons]
  by_cases h : trim piece = [] <;> simp [h, cleaned]

theorem mem_cleaned_iff {pieces : List (List Char)} {fragment : List Char} :
    fragment ∈ cleaned pieces ↔ fragment ≠ [] ∧ ∃ piece ∈ pieces, trim piece = fragment := by
  rw [cleaned, List.mem_filter, List.mem_map, decide_eq_true_eq, and_comm]

theorem cleaned_eq_self {pieces : List (List Char)}
    (h : ∀ piece ∈ pieces, piece ≠ [] ∧ trim piece = piece) : cleaned pieces = pieces := by
  have htrim : pieces.map trim = pieces :=
    (List.map_congr_left fun piece hpiece ↦ (h piece hpiece).2).trans (List.map_id _)
  rw [cleaned, htrim, List.filter_eq_self]
  exact fun piece hpiece ↦ decide_eq_true (h piece hpiece).1

theorem trim_eq_of_mem_cleaned {pieces : List (List Char)} {fragment : List Char}
    (h : fragment ∈ cleaned pieces) : fragment ≠ [] ∧ trim fragment = fragment := by
  obtain ⟨hne, piece, _, rfl⟩ := mem_cleaned_iff.mp h
  exact ⟨hne, trim_trim piece⟩

@[simp]
theorem cleaned_cleaned (pieces : List (List Char)) : cleaned (cleaned pieces) = cleaned pieces :=
  cleaned_eq_self fun _ h ↦ trim_eq_of_mem_cleaned h

theorem cleaned_map_trimRight (pieces : List (List Char)) :
    cleaned (pieces.map trimRight) = cleaned pieces := by
  rw [cleaned, List.map_map, cleaned]
  congr 2
  exact funext trim_trimRight

end SheetPackages.Text
