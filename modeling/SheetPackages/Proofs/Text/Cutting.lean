import Mathlib.Data.List.Basic
import SheetPackages.Text.Cut

/-!
# Cutting joined texts

A join of texts is cut where the texts themselves are, and at every place where two of them meet.
What stands before the first separator of a text stays in the first piece, and it is what a single
cut at the first separator splits off.
-/

namespace SheetPackages.Text

theorem pieces_append (sep : Char) (s t : List Char) :
    pieces sep (s ++ sep :: t) = pieces sep s ++ pieces sep t := by
  induction s with
  | nil => simp [pieces]
  | cons c rest ih =>
    rw [List.cons_append, pieces, pieces]
    by_cases hc : c = sep
    · rw [if_pos hc, if_pos hc, ih, List.cons_append]
    · rw [if_neg hc, if_neg hc, ih]
      cases h : pieces sep rest with
      | nil => exact absurd h (pieces_ne_nil sep rest)
      | cons piece more => rfl

theorem pieces_joined (sep : Char) {items : List (List Char)} (h : items ≠ []) :
    pieces sep (joined sep items) = items.flatMap (pieces sep) := by
  induction items with
  | nil => exact absurd rfl h
  | cons item rest ih =>
    cases rest with
    | nil => rw [joined, List.flatMap_singleton]
    | cons next more =>
      have hrest : next :: more ≠ [] := List.cons_ne_nil next more
      rw [List.flatMap_cons, joined_cons_of_ne_nil sep item hrest, pieces_append, ih hrest]

theorem pieces_cons_of_ne {c sep : Char} (h : c ≠ sep) (s : List Char) :
    ∃ piece more, pieces sep s = piece :: more ∧ pieces sep (c :: s) = (c :: piece) :: more := by
  cases hs : pieces sep s with
  | nil => exact absurd hs (pieces_ne_nil sep s)
  | cons piece more => exact ⟨piece, more, rfl, by rw [pieces, if_neg h, hs]⟩

/-- What is taken from the beginning ends before the first separator, unless that is taken too. -/
theorem takeWhile_of_pieces {p : Char → Bool} {sep : Char} (hsep : p sep = false)
    {s first : List Char} {more : List (List Char)} (h : pieces sep s = first :: more) :
    s.takeWhile p = first.takeWhile p := by
  induction s generalizing first more with
  | nil =>
    cases h
    rfl
  | cons c rest ih =>
    by_cases hc : c = sep
    · rw [pieces, if_pos hc] at h
      rw [hc, ← (List.cons.inj h).1, List.takeWhile_cons_of_neg (by simp [hsep]), List.takeWhile_nil]
    · obtain ⟨piece, others, hrest, hcons⟩ := pieces_cons_of_ne hc rest
      rw [hcons] at h
      rw [← (List.cons.inj h).1, List.takeWhile_cons, List.takeWhile_cons, ih hrest]

/-- What stands before a text without the separator belongs to its first piece. -/
theorem pieces_append_of_not_mem {sep : Char} {u s piece : List Char} {more : List (List Char)}
    (hu : sep ∉ u) (hs : pieces sep s = piece :: more) :
    pieces sep (u ++ s) = (u ++ piece) :: more := by
  induction u with
  | nil => exact hs
  | cons c rest ih =>
    obtain ⟨hc, hrest⟩ := List.ne_and_not_mem_of_not_mem_cons hu
    rw [List.cons_append, pieces, if_neg hc.symm, ih hrest, List.cons_append]

theorem pieces_of_not_mem {sep : Char} {s : List Char} (h : sep ∉ s) : pieces sep s = [s] := by
  have hpieces := pieces_append_of_not_mem (s := []) h rfl
  rwa [List.append_nil] at hpieces

theorem not_mem_of_mem_pieces {sep : Char} {s : List Char} :
    ∀ piece ∈ pieces sep s, sep ∉ piece := by
  induction s with
  | nil => simp [pieces]
  | cons c rest ih =>
    by_cases hc : c = sep
    · rw [pieces, if_pos hc]
      exact List.forall_mem_cons.mpr ⟨List.not_mem_nil, ih⟩
    · obtain ⟨piece, more, hrest, hcons⟩ := pieces_cons_of_ne hc rest
      rw [hrest] at ih
      obtain ⟨hpiece, hmore⟩ := List.forall_mem_cons.mp ih
      rw [hcons]
      exact List.forall_mem_cons.mpr ⟨List.not_mem_cons_of_ne_of_not_mem (Ne.symm hc) hpiece, hmore⟩

/-- Texts without the separator are the pieces of their join. -/
theorem pieces_joined_of_not_mem {sep : Char} {items : List (List Char)} (hne : items ≠ [])
    (h : ∀ item ∈ items, sep ∉ item) : pieces sep (joined sep items) = items := by
  calc
    pieces sep (joined sep items) = items.flatMap (pieces sep) := pieces_joined sep hne
    _ = items.flatMap fun item ↦ [item] :=
      List.flatMap_congr fun item hitem ↦ pieces_of_not_mem (h item hitem)
    _ = items := by simp

theorem mem_of_mem_joined {sep c : Char} {items : List (List Char)} (h : c ∈ joined sep items) :
    c = sep ∨ ∃ item ∈ items, c ∈ item := by
  induction items with
  | nil => cases h
  | cons item rest ih =>
    cases rest with
    | nil => exact .inr ⟨item, List.mem_cons_self, h⟩
    | cons next more =>
      rw [joined_cons_of_ne_nil sep item (List.cons_ne_nil next more), List.mem_append,
        List.mem_cons] at h
      rcases h with h | h | h
      · exact .inr ⟨item, List.mem_cons_self, h⟩
      · exact .inl h
      · exact (ih h).imp_right fun ⟨other, hother, hc⟩ ↦ ⟨other, List.mem_cons_of_mem _ hother, hc⟩

theorem joined_append (sep : Char) (u piece : List Char) (more : List (List Char)) :
    joined sep ((u ++ piece) :: more) = u ++ joined sep (piece :: more) := by
  cases more with
  | nil => rfl
  | cons next rest =>
    rw [joined_cons_of_ne_nil sep _ (List.cons_ne_nil next rest),
      joined_cons_of_ne_nil sep _ (List.cons_ne_nil next rest), List.append_assoc]

/-- A join of texts ends as the last of them does. -/
theorem getLast?_joined (sep : Char) {items : List (List Char)} (h : ∀ item ∈ items, item ≠ []) :
    ∀ c ∈ (joined sep items).getLast?, ∃ item ∈ items, c ∈ item.getLast? := by
  induction items with
  | nil => exact fun c hc ↦ by cases hc
  | cons item rest ih =>
    obtain ⟨hitem, hrest⟩ := List.forall_mem_cons.mp h
    intro c hc
    cases rest with
    | nil => exact ⟨item, List.mem_cons_self, hc⟩
    | cons next more =>
      have hne : joined sep (next :: more) ≠ [] := by
        have hnext := hrest next List.mem_cons_self
        cases more with
        | nil => exact hnext
        | cons other others => exact List.append_ne_nil_of_left_ne_nil hnext _
      have hlast : (joined sep (item :: next :: more)).getLast? =
          (joined sep (next :: more)).getLast? := by
        rw [joined_cons_of_ne_nil sep item (List.cons_ne_nil next more), List.getLast?_append,
          List.getLast?_cons_of_ne_nil hne]
        cases hend : (joined sep (next :: more)).getLast? with
        | none => exact absurd (List.getLast?_eq_none_iff.mp hend) hne
        | some _ => rfl
      rw [hlast] at hc
      obtain ⟨last, hmem, hc⟩ := ih hrest c hc
      exact ⟨last, List.mem_cons_of_mem _ hmem, hc⟩

/-! ## Cutting once -/

theorem cut?_of_not_mem {sep : Char} {s : List Char} (h : sep ∉ s) : cut? sep s = none := by
  induction s with
  | nil => rfl
  | cons c rest ih =>
    obtain ⟨hc, hrest⟩ := List.ne_and_not_mem_of_not_mem_cons h
    rw [cut?, if_neg hc.symm, ih hrest, Option.map_none]

theorem cut?_append {sep : Char} {before : List Char} (h : sep ∉ before) (behind : List Char) :
    cut? sep (before ++ sep :: behind) = some (before, behind) := by
  induction before with
  | nil => exact if_pos rfl
  | cons c rest ih =>
    obtain ⟨hc, hrest⟩ := List.ne_and_not_mem_of_not_mem_cons h
    rw [List.cons_append, cut?, if_neg hc.symm, ih hrest, Option.map_some]

theorem cut?_eq_none_iff {sep : Char} {s : List Char} : cut? sep s = none ↔ sep ∉ s := by
  refine ⟨fun h hmem ↦ ?_, cut?_of_not_mem⟩
  obtain ⟨before, behind, rfl, hbefore⟩ := List.eq_append_cons_of_mem hmem
  rw [cut?_append hbefore] at h
  cases h

theorem cut?_eq_some_iff {sep : Char} {s before behind : List Char} :
    cut? sep s = some (before, behind) ↔ s = before ++ sep :: behind ∧ sep ∉ before := by
  constructor
  · intro h
    by_cases hmem : sep ∈ s
    · obtain ⟨front, back, rfl, hfront⟩ := List.eq_append_cons_of_mem hmem
      rw [cut?_append hfront] at h
      cases h
      exact ⟨rfl, hfront⟩
    · rw [cut?_of_not_mem hmem] at h
      cases h
  · rintro ⟨rfl, hbefore⟩
    exact cut?_append hbefore behind

end SheetPackages.Text
