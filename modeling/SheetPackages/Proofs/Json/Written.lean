import Mathlib.Data.List.Infix
import SheetPackages.Function

/-!
# What written JSON tells

A quoted text and a list of texts can be told from whatever is written behind them. The text over
which the fingerprint of a function is taken is made of such parts, so it tells the formula, the
arguments and the description, where no description counts as an empty one. Indented JSON is not
described.
-/

namespace SheetPackages

namespace Json

/-! ## Quoted texts -/

/-- The characters that stand for themselves in a quoted text. -/
def IsPlain (c : Char) : Prop :=
  c ≠ '"' ∧ c ≠ '\\' ∧ 0x20 ≤ c.toNat

instance (c : Char) : Decidable (IsPlain c) :=
  inferInstanceAs (Decidable (_ ∧ _ ∧ _))

/-- The characters that are escaped. -/
def special : List Char :=
  '"' :: '\\' :: (List.range 0x20).map Char.ofNat

theorem escape_of_isPlain {c : Char} (h : IsPlain c) : escape c = [c] := by
  rw [escape, if_neg h.1, if_neg h.2.1, if_pos h.2.2]

theorem mem_special {c : Char} (h : ¬ IsPlain c) : c ∈ special := by
  rw [special, List.mem_cons, List.mem_cons, List.mem_map]
  by_cases hquote : c = '"'
  · exact .inl hquote
  by_cases hslash : c = '\\'
  · exact .inr (.inl hslash)
  refine .inr (.inr ⟨c.toNat, List.mem_range.mpr ?_, Char.ofNat_toNat c⟩)
  by_contra hge
  exact h ⟨hquote, hslash, Nat.le_of_not_lt hge⟩

theorem exists_escape_of_special {c : Char} (h : c ∈ special) :
    ∃ rest, escape c = '\\' :: rest := by
  have hall : (special.all fun c ↦ (escape c).head? == some '\\') = true := by decide +kernel
  exact List.head?_eq_some_iff.mp (beq_iff_eq.mp (List.all_eq_true.mp hall c h))

theorem eq_of_escape_begins {c d : Char} (hc : c ∈ special) (hd : d ∈ special)
    (h : escape c <+: escape d) : c = d := by
  have hall : (special.all fun c ↦ special.all fun d ↦
      !(escape c).isPrefixOf (escape d) || c == d) = true := by decide +kernel
  have hpair := List.all_eq_true.mp (List.all_eq_true.mp hall c hc) d hd
  rw [List.isPrefixOf_iff_prefix.mpr h, Bool.not_true, Bool.false_or, beq_iff_eq] at hpair
  exact hpair

variable {r r' : List Char}

/-- A character is known by how it is written, whatever follows. -/
theorem escape_append_inj {c d : Char} (h : escape c ++ r = escape d ++ r') : c = d ∧ r = r' := by
  by_cases hc : IsPlain c
  · by_cases hd : IsPlain d
    · rw [escape_of_isPlain hc, escape_of_isPlain hd] at h
      exact List.cons.inj h
    · obtain ⟨rest, hrest⟩ := exists_escape_of_special (mem_special hd)
      rw [escape_of_isPlain hc, hrest] at h
      exact absurd (List.cons.inj h).1 hc.2.1
  · by_cases hd : IsPlain d
    · obtain ⟨rest, hrest⟩ := exists_escape_of_special (mem_special hc)
      rw [escape_of_isPlain hd, hrest] at h
      exact absurd (List.cons.inj h).1.symm hd.2.1
    · obtain rfl : c = d := by
        rcases List.prefix_or_prefix_of_prefix (List.prefix_append (escape c) r)
          (h ▸ List.prefix_append (escape d) r') with hbegins | hbegins
        · exact eq_of_escape_begins (mem_special hc) (mem_special hd) hbegins
        · exact (eq_of_escape_begins (mem_special hd) (mem_special hc) hbegins).symm
      exact ⟨rfl, List.append_cancel_left h⟩

/-- No character is written like a closing quote. -/
theorem escape_append_ne_quote (c : Char) : escape c ++ r ≠ '"' :: r' := by
  intro h
  by_cases hc : IsPlain c
  · rw [escape_of_isPlain hc] at h
    exact hc.1 (List.cons.inj h).1
  · obtain ⟨rest, hrest⟩ := exists_escape_of_special (mem_special hc)
    rw [hrest] at h
    exact absurd (List.cons.inj h).1 (by decide)

theorem flatMap_escape_append_inj {s t : List Char}
    (h : s.flatMap escape ++ '"' :: r = t.flatMap escape ++ '"' :: r') : s = t ∧ r = r' := by
  induction s generalizing t with
  | nil =>
    cases t with
    | nil => exact ⟨rfl, (List.cons.inj h).2⟩
    | cons d more =>
      rw [List.flatMap_cons, List.append_assoc] at h
      exact absurd h.symm (escape_append_ne_quote d)
  | cons c rest ih =>
    cases t with
    | nil =>
      rw [List.flatMap_cons, List.append_assoc] at h
      exact absurd h (escape_append_ne_quote c)
    | cons d more =>
      rw [List.flatMap_cons, List.flatMap_cons, List.append_assoc, List.append_assoc] at h
      obtain ⟨rfl, hrest⟩ := escape_append_inj h
      obtain ⟨rfl, hbehind⟩ := ih hrest
      exact ⟨rfl, hbehind⟩

theorem toList_quoted_append (s : String) (r : List Char) :
    (quoted s).toList ++ r = '"' :: (s.toList.flatMap escape ++ '"' :: r) := by
  rw [quoted, String.toList_append, String.toList_append, String.toList_ofList]
  simp

theorem quoted_append_inj {s t : String} (h : (quoted s).toList ++ r = (quoted t).toList ++ r') :
    s = t ∧ r = r' := by
  rw [toList_quoted_append, toList_quoted_append] at h
  obtain ⟨hchars, hbehind⟩ := flatMap_escape_append_inj (List.cons.inj h).2
  exact ⟨String.toList_inj.mp hchars, hbehind⟩

/-! ## Lists of texts -/

/-- What is written from behind the first text of a list on. -/
def behindText (r : List Char) : List String → List Char
  | [] => ']' :: r
  | next :: rest => ',' :: ((quoted next).toList ++ behindText r rest)

/-- What is written from behind the opening bracket of a list on. -/
def behindBracket (r : List Char) : List String → List Char
  | [] => ']' :: r
  | first :: rest => (quoted first).toList ++ behindText r rest

theorem compactItems_texts (items : List String) : compactItems (items.map .text) =
    items.map quoted := by
  induction items with
  | nil => rfl
  | cons first rest ih => rw [List.map_cons, compactItems, compact, ih, List.map_cons]

theorem intercalate_append (first : String) (rest : List String) (r : List Char) :
    [','].intercalate ((first :: rest).map fun s ↦ (quoted s).toList) ++ ']' :: r =
      (quoted first).toList ++ behindText r rest := by
  induction rest generalizing first with
  | nil => rw [List.map_singleton, List.intercalate_singleton, behindText]
  | cons next more ih =>
    have hmore := ih next
    rw [List.map_cons] at hmore
    rw [List.map_cons, List.map_cons, List.intercalate_cons_cons, List.append_assoc,
      List.append_assoc, hmore]
    rfl

theorem toList_texts_append (items : List String) (r : List Char) :
    (compact (texts items)).toList ++ r = '[' :: behindBracket r items := by
  have hbrackets : (compact (texts items)).toList ++ r =
      '[' :: ([','].intercalate (items.map fun s ↦ (quoted s).toList) ++ ']' :: r) := by
    rw [texts, compact, compactItems_texts, String.toList_append, String.toList_append,
      String.toList_intercalate, List.map_map, List.append_assoc, List.append_assoc]
    rfl
  rw [hbrackets]
  cases items with
  | nil => rfl
  | cons first rest => rw [intercalate_append, behindBracket]

theorem behindText_inj {xs ys : List String} (h : behindText r xs = behindText r' ys) :
    xs = ys ∧ r = r' := by
  induction xs generalizing ys with
  | nil =>
    cases ys with
    | nil => exact ⟨rfl, (List.cons.inj h).2⟩
    | cons y more => exact absurd (List.cons.inj h).1 (by decide)
  | cons x rest ih =>
    cases ys with
    | nil => exact absurd (List.cons.inj h).1 (by decide)
    | cons y more =>
      obtain ⟨rfl, hrest⟩ := quoted_append_inj (List.cons.inj h).2
      obtain ⟨rfl, hbehind⟩ := ih hrest
      exact ⟨rfl, hbehind⟩

theorem texts_append_inj {xs ys : List String}
    (h : (compact (texts xs)).toList ++ r = (compact (texts ys)).toList ++ r') :
    xs = ys ∧ r = r' := by
  rw [toList_texts_append, toList_texts_append] at h
  replace h := (List.cons.inj h).2
  cases xs with
  | nil =>
    cases ys with
    | nil => exact ⟨rfl, (List.cons.inj h).2⟩
    | cons y more =>
      rw [behindBracket, behindBracket, toList_quoted_append] at h
      exact absurd (List.cons.inj h).1 (by decide)
  | cons x rest =>
    cases ys with
    | nil =>
      rw [behindBracket, behindBracket, toList_quoted_append] at h
      exact absurd (List.cons.inj h).1 (by decide)
    | cons y more =>
      obtain ⟨rfl, hrest⟩ := quoted_append_inj h
      obtain ⟨rfl, hbehind⟩ := behindText_inj hrest
      exact ⟨rfl, hbehind⟩

end Json

/-! ## Functions -/

namespace Function

/-- Functions that do the same and are described alike. Their names and the documentation of their
arguments may differ, and no description is like an empty one. -/
structure SameBody (f g : Function) : Prop where
  definition : f.definition = g.definition
  arguments : f.arguments = g.arguments
  description : f.description.getD "" = g.description.getD ""

theorem toList_canonicalText (f : Function) : f.canonicalText.toList =
    "\x7b\"arguments\":".toList ++ ((Json.compact (Json.texts f.arguments)).toList ++
      (",\"definition\":".toList ++ ((Json.quoted f.definition).toList ++
        (",\"description\":".toList ++ ((Json.quoted (f.description.getD "")).toList ++
          "\x7d".toList))))) := by
  have hkeys : Json.quoted "arguments" = "\"arguments\"" ∧
      Json.quoted "definition" = "\"definition\"" ∧
      Json.quoted "description" = "\"description\"" := by decide +kernel
  obtain ⟨harguments, hdefinition, hdescription⟩ := hkeys
  rw [canonicalText]
  simp only [Json.compact, Json.compactMembers, harguments, hdefinition, hdescription,
    String.toList_append, String.toList_intercalate, List.map_cons, List.map_nil,
    List.intercalate_cons_cons, List.intercalate_singleton, List.append_assoc]
  rfl

/-- The text over which the fingerprint is taken tells exactly the body. -/
theorem canonicalText_eq_iff {f g : Function} :
    f.canonicalText = g.canonicalText ↔ f.SameBody g := by
  constructor
  · intro h
    rw [← String.toList_inj, toList_canonicalText, toList_canonicalText] at h
    obtain ⟨harguments, h⟩ := Json.texts_append_inj (List.append_cancel_left h)
    obtain ⟨hdefinition, h⟩ := Json.quoted_append_inj (List.append_cancel_left h)
    obtain ⟨hdescription, -⟩ := Json.quoted_append_inj (List.append_cancel_left h)
    exact ⟨hdefinition, harguments, hdescription⟩
  · rintro ⟨hdefinition, harguments, hdescription⟩
    rw [canonicalText, canonicalText, hdefinition, harguments, hdescription]

theorem fingerprint_eq_of_sameBody {f g : Function} (h : f.SameBody g) :
    f.fingerprint = g.fingerprint := by
  rw [fingerprint, fingerprint, canonicalText_eq_iff.mpr h]

end Function

end SheetPackages
