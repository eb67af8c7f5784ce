import SheetPackages.Proofs.Version.Clauses

/-!
# Operators apart from their versions

An operator may stand apart from its version. A range is read exactly if no clause ends with an
operator and every version word, behind the operator word directly before it if there is one, is a
comparator. So an operator word that is directly followed by another one is dropped: the comparators
of a clause are written with all of its characters, except for blanks, only if this occurs nowhere
in it.
-/

namespace SheetPackages.Version.Range

open Text (isBlank pieces words)

/-- A word that is nothing but operator characters, whether they are an operator or not. -/
def isOperatorWord (word : List Char) : Bool :=
  word.all isOperatorChar

/-- What is read as a comparator, the word `before` being followed by these words: every version
word, behind the word directly before it if that is an operator word. -/
def attached (before : List Char) (ws : List (List Char)) : List (List Char) :=
  ((before :: ws).zip ws).filterMap fun (u, w) ↦
    if isOperatorWord w then none else some ((if isOperatorWord u then u else []) ++ w)

/-- No operator word is directly followed by another one. -/
def Alternating (ws : List (List Char)) : Prop :=
  ws.IsChain fun u w ↦ ¬(isOperatorWord u = true ∧ isOperatorWord w = true)

instance (ws : List (List Char)) : Decidable (Alternating ws) :=
  inferInstanceAs (Decidable (List.IsChain _ ws))

/-- The words end in no operator word. -/
def Complete (ws : List (List Char)) : Prop :=
  ∀ w ∈ ws.getLast?, isOperatorWord w = false

variable {input before word : List Char} {comparators : List Comparator} {ws : List (List Char)}

/-! ## Words of a clause -/

theorem attached_cons_of_operator (h : isOperatorWord word = true) :
    attached before (word :: ws) = attached word ws := by
  simp [attached, h]

theorem attached_cons_of_version (h : isOperatorWord word = false) :
    attached before (word :: ws) =
      ((if isOperatorWord before then before else []) ++ word) :: attached [] ws := by
  -- Behind a version word the next one stands for itself, as at the beginning of a clause.
  have hrest : attached word ws = attached [] ws := by
    cases ws with
    | nil => rfl
    | cons next more =>
      cases hnext : isOperatorWord next <;> simp [attached, h, hnext]
  rw [← hrest]
  simp [attached, h]

theorem isOperatorWord_getD {pending : Option (List Char)}
    (h : ∀ op ∈ pending, isOperatorWord op = true) : isOperatorWord (pending.getD []) = true := by
  cases pending with
  | none => rfl
  | some op => exact h op rfl

theorem complete_append_cons (us : List (List Char)) :
    Complete (us ++ word :: ws) ↔ Complete (word :: ws) := by
  rw [Complete, Complete, List.getLast?_append_cons]

theorem complete_cons_of_version (h : isOperatorWord word = false) :
    Complete (word :: ws) ↔ Complete ws := by
  cases ws with
  | nil => simp [Complete, h]
  | cons next more => exact complete_append_cons [word]

theorem alternating_cons_of_version {pending : Option (List Char)}
    (h : isOperatorWord word = false) :
    Alternating (pending.toList ++ word :: ws) ↔ Alternating ws := by
  cases pending <;> cases ws <;> simp [Alternating, h]

/-- A clause is read if it does not end with an operator and what is attached to its version words
makes comparators of them. -/
theorem clause_eq_ok_iff_attached {pending : Option (List Char)}
    (hpending : ∀ op ∈ pending, isOperatorWord op = true) :
    clause input pending ws = .ok comparators ↔ Complete (pending.toList ++ ws) ∧
      List.Forall₂ (fun t c ↦ Comparator.ofChars t = .ok c) (attached (pending.getD []) ws)
        comparators := by
  induction ws generalizing pending comparators with
  | nil =>
    cases pending with
    | none => cases comparators <;> simp [clause, Complete, attached, pure, Except.pure]
    | some op => simp [clause, Complete, attached, hpending op rfl, throw, throwThe,
        MonadExceptOf.throw]
  | cons word rest ih =>
    rw [clause, ← isOperatorWord]
    cases hword : isOperatorWord word with
    | true =>
      have hrest : clause input (some word) rest = .ok comparators ↔ _ :=
        ih (by simpa using hword)
      rw [if_pos rfl, hrest, complete_append_cons, attached_cons_of_operator hword]
      rfl
    | false =>
      have hrest (more : List Comparator) : clause input none rest = .ok more ↔ _ :=
        ih (by simp)
      rw [if_neg Bool.false_ne_true, complete_append_cons, complete_cons_of_version hword,
        attached_cons_of_version hword, if_pos (isOperatorWord_getD hpending),
        List.forall₂_cons_left_iff]
      simp only [bind_eq_ok_iff, hrest, pure, Except.pure, Except.ok.injEq]
      constructor
      · rintro ⟨c, hc, more, ⟨hcomplete, hmore⟩, rfl⟩
        exact ⟨hcomplete, c, more, hc, hmore, rfl⟩
      · rintro ⟨hcomplete, c, more, hc, hmore, rfl⟩
        exact ⟨c, hc, more, ⟨hcomplete, hmore⟩, rfl⟩

theorem clauses_eq_ok_iff_attached {clausePieces : List (List Char)} :
    clauses input clausePieces = .ok comparators ↔
      (∀ piece ∈ clausePieces, Complete (words piece)) ∧
        List.Forall₂ (fun t c ↦ Comparator.ofChars t = .ok c)
          (clausePieces.flatMap fun piece ↦ attached [] (words piece)) comparators := by
  induction clausePieces generalizing comparators with
  | nil => cases comparators <;> simp [clauses, pure, Except.pure]
  | cons piece more ih =>
    have hclause (here : List Comparator) :
        clause input none (words piece) = .ok here ↔ _ :=
      clause_eq_ok_iff_attached (by simp)
    rw [clauses_cons_eq_ok_iff, List.flatMap_cons, List.forall_mem_cons]
    simp only [hclause, ih]
    constructor
    · rintro ⟨here, rest, ⟨hcomplete, hhere⟩, ⟨hmore, hrest⟩, rfl⟩
      exact ⟨⟨hcomplete, hmore⟩, List.rel_append hhere hrest⟩
    · rintro ⟨⟨hcomplete, hmore⟩, hall⟩
      rw [← mapM_eq_ok_iff, List.mapM_append] at hall
      obtain ⟨here, hhere, hall⟩ := exists_of_bind_eq_ok hall
      obtain ⟨rest, hrest, hall⟩ := exists_of_bind_eq_ok hall
      exact ⟨here, rest, ⟨hcomplete, mapM_eq_ok_iff.mp hhere⟩, ⟨hmore, mapM_eq_ok_iff.mp hrest⟩,
        Except.ok.inj hall⟩

/-! ## Dropped words -/

theorem length_flatten_attached_le (before : List Char) (ws : List (List Char)) :
    (attached before ws).flatten.length ≤ before.length + ws.flatten.length := by
  induction ws generalizing before with
  | nil => simp [attached]
  | cons word rest ih =>
    rw [List.flatten_cons, List.length_append]
    cases hword : isOperatorWord word with
    | true =>
      have hrest := ih word
      rw [attached_cons_of_operator hword]
      omega
    | false =>
      have hrest := ih []
      have hbefore : (if isOperatorWord before then before else []).length ≤ before.length := by
        split <;> simp
      rw [attached_cons_of_version hword, List.flatten_cons, List.length_append,
        List.length_append]
      rw [List.length_nil] at hrest
      omega

/-- What is attached to the version words of a clause is the whole clause exactly if its words
alternate. -/
theorem flatten_attached_eq_iff {pending : Option (List Char)}
    (hpending : ∀ op ∈ pending, isOperatorWord op = true ∧ op ≠ [])
    (hcomplete : Complete (pending.toList ++ ws)) (hne : ∀ w ∈ ws, w ≠ []) :
    (attached (pending.getD []) ws).flatten = pending.getD [] ++ ws.flatten ↔
      Alternating (pending.toList ++ ws) := by
  induction ws generalizing pending with
  | nil =>
    cases pending with
    | none => simp [attached, Alternating]
    | some op => simp [Complete, hpending op rfl] at hcomplete
  | cons word rest ih =>
    obtain ⟨hword', hrest⟩ := List.forall_mem_cons.mp hne
    cases hword : isOperatorWord word with
    | true =>
      rw [attached_cons_of_operator hword]
      have hih : (attached word rest).flatten = word ++ rest.flatten ↔ _ :=
        @ih (some word) (by simp [hword, hword']) ((complete_append_cons _).mp hcomplete) hrest
      cases pending with
      | none => exact hih
      | some op =>
        -- The word before is lost, and it had a character.
        obtain ⟨hop, hopne⟩ := hpending op rfl
        have hlength := length_flatten_attached_le word rest
        have hpos := List.length_pos_iff.mpr hopne
        refine iff_of_false (fun heq ↦ ?_) fun halternating ↦ ?_
        · have hlengths := congrArg List.length heq
          simp only [Option.getD_some, List.flatten_cons, List.length_append] at hlengths hlength
          omega
        · exact (List.isChain_cons_cons.mp halternating).1 ⟨hop, hword⟩
    | false =>
      have hoperator := isOperatorWord_getD fun op hop ↦ (hpending op hop).1
      have hih : (attached [] rest).flatten = [] ++ rest.flatten ↔ Alternating rest :=
        @ih none (by simp) ((complete_cons_of_version hword).mp
          ((complete_append_cons _).mp hcomplete)) hrest
      rw [attached_cons_of_version hword, if_pos hoperator, List.flatten_cons, List.flatten_cons,
        List.append_assoc, List.append_cancel_left_eq, List.append_cancel_left_eq,
        alternating_cons_of_version hword]
      exact hih

/-- A range is read exactly if no clause ends with an operator word and each version word, behind
the operator word directly before it, is a comparator; and the comparators of a clause are written
with all that stands in it, blanks apart, exactly if no operator word is directly followed by
another one. -/
theorem operators_kept_iff (s : String) (r : Range) :
    (parse s = .ok r ↔ (∀ piece ∈ pieces ',' s.toList, Complete (words piece)) ∧
      List.Forall₂ (fun t c ↦ Comparator.ofChars t = .ok c)
        ((pieces ',' s.toList).flatMap fun piece ↦ attached [] (words piece)) r.comparators) ∧
    (parse s = .ok r → ∀ piece ∈ pieces ',' s.toList,
      ((attached [] (words piece)).flatten = piece.filter (!isBlank ·) ↔
        Alternating (words piece))) := by
  have hread : parse s = .ok r ↔ clauses s.toList (pieces ',' s.toList) = .ok r.comparators := by
    rw [parse, ofChars, bind_eq_ok_iff]
    constructor
    · rintro ⟨comparators, h, heq⟩
      cases heq
      exact h
    · exact fun h ↦ ⟨r.comparators, h, rfl⟩
  rw [hread, clauses_eq_ok_iff_attached]
  refine ⟨Iff.rfl, fun hparts piece hpiece ↦ ?_⟩
  rw [← Text.flatten_words]
  exact @flatten_attached_eq_iff _ none (by simp) (hparts.1 piece hpiece)
    fun _ ↦ Text.ne_nil_of_mem_words

/-- Operators with blanks behind them, and clauses with several comparators and with none. -/
theorem operators_kept_iff_apart : ∃ r, parse ">= 1.0  < v2 ,, ~=1.4" = .ok r ∧
    r.text = ">=1.0.0,<2.0.0,~=1.4" ∧
    (attached [] (words ">= 1.0  < v2 ".toList)).flatten = ">=1.0<v2".toList := by
  have hpiece : ">= 1.0  < v2 ".toList ∈ pieces ',' ">= 1.0  < v2 ,, ~=1.4".toList := by
    decide +kernel
  have halternating : Alternating (words ">= 1.0  < v2 ".toList) := by decide +kernel
  let r : Range := ⟨[⟨.greaterEq, 1, some 0, some 0, none⟩, ⟨.less, 2, some 0, some 0, none⟩,
    ⟨.compatible, 1, some 4, none, none⟩]⟩
  have hparse : parse ">= 1.0  < v2 ,, ~=1.4" = .ok r := by decide +kernel
  refine ⟨r, hparse, by decide +kernel, ?_⟩
  rw [((operators_kept_iff _ r).2 hparse _ hpiece).mpr halternating]
  decide +kernel

/-- An operator behind another one takes its place, and the range is read as if the first one were
not written. -/
theorem operator_dropped : ∃ c : Comparator, c.text = "<2.0.0" ∧ parse ">= < 2.0" = .ok ⟨[c]⟩ ∧
    pieces ',' ">= < 2.0".toList = [">= < 2.0".toList] ∧
    ¬∃ texts, List.Forall₂ (fun t c ↦ Comparator.ofChars t = .ok c) texts [c] ∧
      texts.flatten = ">= < 2.0".toList.filter (!isBlank ·) := by
  refine ⟨⟨.less, 2, some 0, some 0, none⟩, by decide +kernel, by decide +kernel,
    by decide +kernel, ?_⟩
  rintro ⟨texts, hread, hflatten⟩
  obtain ⟨t, _, ht, hnil, rfl⟩ := List.forall₂_cons_right_iff.mp hread
  cases hnil
  have hwhole : t = ">=<2.0".toList := by
    rw [List.flatten_singleton] at hflatten
    rw [hflatten]
    decide +kernel
  have herror : (Comparator.ofChars ">=<2.0".toList).toOption = none := by decide +kernel
  rw [← hwhole, ht] at herror
  cases herror

end SheetPackages.Version.Range
