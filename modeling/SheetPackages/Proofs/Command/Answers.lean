import SheetPackages.Proofs.Plan.Collisions
import SheetPackages.Command.Alias

/-!
# Answers to conflicts

After a collision each conflicting name is asked for, and its alias is entered for the function
that bears the name then, which is found by its alias in the map. The map grows while the conflicts
are gone through, so that an answer can be mistaken for the old alias of a later conflict: the
answers reach their functions if none of them is a conflict that is still to come, and unless the
conflicts are aliases themselves this is needed, too.
-/

namespace SheetPackages

namespace Alias

variable {map : Formula.RenameMap} {name key function conflict answer : String}

theorem finalName_insert :
    finalName (map.insert key answer) function =
      if function = key then answer else finalName map function := by
  rw [finalName, OrderedMap.get?_insert]
  split <;> rfl

theorem finalName_of_get? (h : map.get? function = some name) : finalName map function = name := by
  rw [finalName, h, Option.getD_some]

/-- The alias of a function is its final name, unless it is installed under its own one. -/
theorem get?_of_finalName (h : finalName map function = name) :
    map.get? function = some name ∨ map.get? function = none ∧ function = name := by
  cases hget : map.get? function with
  | none => exact .inr ⟨rfl, by rwa [finalName, hget] at h⟩
  | some new => exact .inl (by rw [← finalName_of_get? hget, h])

/-- The bearer of a conflict has it as its alias, or the conflict is nobody's alias. -/
theorem get?_bearer (map : Formula.RenameMap) (conflict : String) :
    map.get? (bearer map conflict) = some conflict ∨
      bearer map conflict = conflict ∧ ∀ key, map.get? key ≠ some conflict := by
  rw [bearer]
  cases hfind : map.entries.find? (·.2 == conflict) with
  | none =>
    refine .inr ⟨rfl, fun key hkey ↦ ?_⟩
    have hne := List.find?_eq_none.mp hfind _ (OrderedMap.get?_eq_some_iff.mp hkey)
    exact hne (beq_self_eq_true conflict)
  | some entry =>
    have hvalue : entry.2 = conflict := by simpa using List.find?_some hfind
    refine .inl (OrderedMap.get?_eq_some_iff.mpr ?_)
    rw [← hvalue]
    exact List.mem_of_find?_eq_some hfind

/-! ## The conflicts with their answers -/

/-- The source gives an answer for each of some conflicts, one after the other. -/
inductive Answers {σ : Type} (source : Source σ) (package : String) :
    List (String × String) → σ → σ → Prop
  | nil (s : σ) : Answers source package [] s s
  | cons {conflict answer : String} {rest : List (String × String)} {s t u : σ}
      (hask : source.ask package conflict s = (.ok (some answer), t))
      (hrest : Answers source package rest t u) :
      Answers source package ((conflict, answer) :: rest) s u

/-- The answers entered into a map, each for the bearer of its conflict at that time. -/
def entered (map : Formula.RenameMap) (asked : List (String × String)) : Formula.RenameMap :=
  asked.foldl (fun map pair ↦ map.insert (bearer map pair.1) pair.2) map

variable {asked later : List (String × String)} {functions : List String}

theorem entered_cons :
    entered map ((conflict, answer) :: asked) =
      entered (map.insert (bearer map conflict) answer) asked :=
  rfl

theorem entered_append : entered map (asked ++ later) = entered (entered map asked) later :=
  List.foldl_append

section

variable {σ : Type} {source : Source σ} {package : String} {s t : σ}

theorem enter_of_answers (h : Answers source package asked s t) :
    enter source package (asked.map Prod.fst) map s = (.ok (true, entered map asked), t) := by
  induction h generalizing map with
  | nil s => rfl
  | cons hask hrest ih =>
    rw [List.map_cons, enter, hask]
    exact ih

/-- When every conflict of a failed attempt is answered, the next attempt is made with the answers
entered into the map of the package. -/
theorem retry_of_answers {α : Type} {attempt : RenameMaps → σ → Except Fault α × σ} {more : Nat}
    {maps : RenameMaps} {u : σ}
    (hattempt : attempt maps s = (.error (.functionCollision package (asked.map Prod.fst)), t))
    (hanswers : Answers source package asked t u) :
    retry source attempt (more + 1) maps s =
      retry source attempt more (maps.insert package (entered (mapOf maps package) asked)) u := by
  rw [retry, hattempt]
  simp only [enter_of_answers hanswers]

end

/-- Among the functions of a package, each one whose final name is a conflict gets its answer, and
the others keep their final names. -/
structure Delivered (map after : Formula.RenameMap) (functions : List String)
    (asked : List (String × String)) : Prop where
  answered : ∀ function ∈ functions, ∀ pair ∈ asked,
    finalName map function = pair.1 → finalName after function = pair.2
  kept : ∀ function ∈ functions, finalName map function ∉ asked.map Prod.fst →
    finalName after function = finalName map function

/-! ## Where the answers arrive -/

/-- A conflict is the final name of one function only, and the alias of no other name. -/
structure Points (map : Formula.RenameMap) (functions : List String) (conflict function : String) :
    Prop where
  named : finalName map function = conflict
  sole : ∀ other ∈ functions, finalName map other = conflict → other = function
  alone : ∀ key, map.get? key = some conflict → key = function

namespace Points

theorem bearer_eq (h : Points map functions conflict function) :
    bearer map conflict = function := by
  rcases get?_bearer map conflict with hget | ⟨hself, hnobody⟩
  · exact h.alone _ hget
  · rcases get?_of_finalName h.named with hget | ⟨-, hname⟩
    · exact absurd hget (hnobody function)
    · rw [hself, hname]

/-- Another function can get an alias that is not the conflict. -/
theorem insert (h : Points map functions conflict function) (hkey : key ≠ function)
    (hanswer : answer ≠ conflict) :
    Points (map.insert key answer) functions conflict function where
  named := by rw [finalName_insert, if_neg hkey.symm, h.named]
  sole other hother hname := by
    rw [finalName_insert] at hname
    split at hname
    · exact absurd hname hanswer
    · exact h.sole other hother hname
  alone other hget := by
    rw [OrderedMap.get?_insert] at hget
    split at hget
    · exact absurd (Option.some.inj hget) hanswer
    · exact h.alone other hget

end Points

/-- No answer is a conflict that is still to come. -/
abbrev Clear (asked : List (String × String)) : Prop :=
  asked.Pairwise fun earlier later ↦ earlier.2 ≠ later.1

/-- While every conflict points to its function and no answer is a later conflict, the answers
arrive. -/
theorem delivered_of_points (hconflicts : (asked.map Prod.fst).Nodup)
    (hpoints : ∀ pair ∈ asked, ∃ bearing, Points map functions pair.1 bearing)
    (hclear : Clear asked) : Delivered map (entered map asked) functions asked := by
  induction asked generalizing map with
  | nil => exact ⟨fun _ _ _ hpair ↦ absurd hpair List.not_mem_nil, fun _ _ _ ↦ rfl⟩
  | cons pair rest ih =>
    obtain ⟨conflict, answer⟩ := pair
    rw [List.map_cons, List.nodup_cons] at hconflicts
    rw [Clear, List.pairwise_cons] at hclear
    obtain ⟨hbearer, hothers⟩ := List.forall_mem_cons.mp hpoints
    obtain ⟨bearing, hbearing⟩ := hbearer
    have hanswer : answer ∉ rest.map Prod.fst := by
      intro hmem
      obtain ⟨later, hlater, heq⟩ := List.mem_map.mp hmem
      exact hclear.1 later hlater heq.symm
    have hrest : Delivered (map.insert bearing answer)
        (entered (map.insert bearing answer) rest) functions rest := by
      refine ih hconflicts.2 (fun later hlater ↦ ?_) hclear.2
      obtain ⟨function, hfunction⟩ := hothers later hlater
      refine ⟨function, hfunction.insert ?_ (hclear.1 later hlater)⟩
      rintro rfl
      refine hconflicts.1 (List.mem_map.mpr ⟨later, hlater, ?_⟩)
      rw [← hfunction.named, hbearing.named]
    rw [entered_cons, hbearing.bearer_eq]
    constructor
    · intro function hfunction pair hpair hname
      rcases List.mem_cons.mp hpair with rfl | hpair
      · have hself : finalName (map.insert bearing answer) bearing = answer := by
          rw [finalName_insert, if_pos rfl]
        have heq := hbearing.sole function hfunction hname
        subst heq
        rw [hrest.kept function hfunction (by rwa [hself]), hself]
      · have hother : function ≠ bearing := by
          rintro rfl
          refine hconflicts.1 (List.mem_map.mpr ⟨pair, hpair, ?_⟩)
          rw [← hname, hbearing.named]
        refine hrest.answered function hfunction pair hpair ?_
        rw [finalName_insert, if_neg hother, hname]
    · intro function hfunction hname
      rw [List.map_cons, List.mem_cons, not_or] at hname
      have hother : function ≠ bearing := by
        rintro rfl
        exact hname.1 hbearing.named
      have hsame : finalName (map.insert bearing answer) function = finalName map function := by
        rw [finalName_insert, if_neg hother]
      rw [hrest.kept function hfunction (by rw [hsame]; exact hname.2), hsame]

/-! ## Where they do not

An answer that is a later conflict is found in its place, overwritten, and gone for good. -/

/-- The name is nobody's alias. -/
abbrev Unused (map : Formula.RenameMap) (name : String) : Prop :=
  ∀ key, map.get? key ≠ some name

/-- The name is the alias of at most one name. -/
abbrev AtMostOnce (map : Formula.RenameMap) (name : String) : Prop :=
  ∃ sole, ∀ key, map.get? key = some name → key = sole

theorem Unused.insert (h : Unused map name) (hanswer : answer ≠ name) :
    Unused (map.insert key answer) name := by
  intro other hget
  rw [OrderedMap.get?_insert] at hget
  split at hget
  · exact hanswer (Option.some.inj hget)
  · exact h other hget

theorem Unused.entered (h : Unused map name) (hasked : ∀ pair ∈ asked, pair.2 ≠ name) :
    Unused (entered map asked) name := by
  induction asked generalizing map with
  | nil => exact h
  | cons pair rest ih =>
    obtain ⟨hpair, hrest⟩ := List.forall_mem_cons.mp hasked
    exact ih (h.insert hpair) hrest

/-- The name can become the alias of one key. -/
theorem Unused.insert_self (h : Unused map name) : AtMostOnce (map.insert key name) name := by
  refine ⟨key, fun other hget ↦ ?_⟩
  rw [OrderedMap.get?_insert] at hget
  split at hget
  · assumption
  · exact absurd hget (h other)

theorem AtMostOnce.insert (h : AtMostOnce map name) (hanswer : answer ≠ name) :
    AtMostOnce (map.insert key answer) name := by
  obtain ⟨sole, hsole⟩ := h
  refine ⟨sole, fun other hget ↦ ?_⟩
  rw [OrderedMap.get?_insert] at hget
  split at hget
  · exact absurd (Option.some.inj hget) hanswer
  · exact hsole other hget

theorem AtMostOnce.entered (h : AtMostOnce map name) (hasked : ∀ pair ∈ asked, pair.2 ≠ name) :
    AtMostOnce (entered map asked) name := by
  induction asked generalizing map with
  | nil => exact h
  | cons pair rest ih =>
    obtain ⟨hpair, hrest⟩ := List.forall_mem_cons.mp hasked
    exact ih (h.insert hpair) hrest

/-- A name that is an alias at most once is none any more when it has been asked for. -/
theorem AtMostOnce.answered (h : AtMostOnce map name) (hanswer : answer ≠ name) :
    Unused (map.insert (bearer map name) answer) name := by
  obtain ⟨sole, hsole⟩ := h
  rcases get?_bearer map name with hbearer | ⟨-, hunused⟩
  · intro key hget
    rw [OrderedMap.get?_insert] at hget
    split at hget
    · exact hanswer (Option.some.inj hget)
    · next hother => exact hother ((hsole key hget).trans (hsole _ hbearer).symm)
  · exact Unused.insert hunused hanswer

/-- Entering answers takes no alias away. -/
theorem get?_eq_none_of_entered (h : (entered map asked).get? key = none) :
    map.get? key = none := by
  induction asked generalizing map with
  | nil => exact h
  | cons pair rest ih =>
    have hget := ih h
    rw [OrderedMap.get?_insert] at hget
    split at hget
    · cases hget
    · exact hget

theorem clear_of_forall_split
    (h : ∀ before first name between second behind,
      asked ≠ before ++ (first, name) :: (between ++ (name, second) :: behind)) : Clear asked := by
  rw [Clear, List.pairwise_iff_forall_sublist]
  rintro ⟨first, name⟩ ⟨_, second⟩ hsublist rfl
  obtain ⟨front, back, rfl, hfront, hback⟩ := List.cons_sublist_iff.mp hsublist
  obtain ⟨before, between, rfl⟩ := List.append_of_mem hfront
  obtain ⟨between', behind, rfl⟩ := List.append_of_mem (List.singleton_sublist.mp hback)
  exact h before first name (between ++ between') second behind (by simp)

/-- When the answers are different and the conflicts are nobody's aliases, the answers that arrive
are no later conflicts. -/
theorem clear_of_delivered (hconflicts : (asked.map Prod.fst).Nodup)
    (hmem : ∀ pair ∈ asked, ∃ function ∈ functions, finalName map function = pair.1)
    (hanswers : (asked.map Prod.snd).Nodup) (hunused : ∀ pair ∈ asked, Unused map pair.1)
    (h : Delivered map (entered map asked) functions asked) : Clear asked := by
  refine clear_of_forall_split fun before first name between second behind hsplit ↦ ?_
  subst hsplit
  have hfirst : first ≠ name := by
    rw [List.map_append, List.map_cons, List.nodup_middle, List.nodup_cons] at hconflicts
    rintro rfl
    exact hconflicts.1 (by simp)
  have hothers : ∀ pair ∈ before ++ (between ++ (name, second) :: behind), pair.2 ≠ name := by
    rw [List.map_append, List.map_cons, List.nodup_middle, List.nodup_cons,
      ← List.map_append] at hanswers
    rintro pair hpair rfl
    exact hanswers.1 (List.mem_map.mpr ⟨pair, hpair, rfl⟩)
  simp only [List.forall_mem_append, List.forall_mem_cons] at hothers
  obtain ⟨hbefore, hbetween, hsecond, hbehind⟩ := hothers
  -- The answer becomes an alias once, and is then taken for the conflict that it is.
  have honce : AtMostOnce (entered map (before ++ (first, name) :: between)) name := by
    rw [entered_append, entered_cons]
    exact ((hunused (name, second) (by simp)).entered hbefore).insert_self.entered hbetween
  have hgone : Unused (entered map
      (before ++ (first, name) :: (between ++ (name, second) :: behind))) name := by
    rw [← List.cons_append, ← List.append_assoc, entered_append, entered_cons]
    exact (honce.answered hsecond).entered hbehind
  obtain ⟨function, hfunction, hfinal⟩ := hmem (first, name) (by simp)
  rcases get?_of_finalName (h.answered function hfunction (first, name) (by simp) hfinal) with
    hget | ⟨hget, rfl⟩
  · exact hgone function hget
  · apply hfirst
    calc first = finalName map function := hfinal.symm
      _ = function := by rw [finalName, get?_eq_none_of_entered hget, Option.getD_none]

/-! ## The next attempt -/

section

variable {α σ : Type} {source : Source σ} {package : String} {s t u : σ}
  {attempt : RenameMaps → σ → Except Fault α × σ} {maps : RenameMaps}

/-- After a collision whose conflicts are final names of functions of the package and are all
answered, the next attempt is made with a map in which each answer is the final name of its
function and the others keep theirs, if no answer is a conflict that is still to come and only
functions of the package have a conflict as their alias. When the answers are different and no
conflict is an alias, the answers arrive in no other case. -/
theorem retry_delivers_iff (functions : List String) (more : Nat)
    (hattempt : attempt maps s = (.error (.functionCollision package (asked.map Prod.fst)), t))
    (hanswers : Answers source package asked t u) (hconflicts : (asked.map Prod.fst).Nodup)
    (hnames : (functions.map (finalName (mapOf maps package))).Nodup)
    (hmem : ∀ pair ∈ asked, ∃ function ∈ functions,
      finalName (mapOf maps package) function = pair.1) :
    ∃ next, retry source attempt (more + 1) maps s =
        retry source attempt more (maps.insert package next) u ∧
      (Clear asked → (∀ key, ∀ pair ∈ asked,
          (mapOf maps package).get? key = some pair.1 → key ∈ functions) →
        Delivered (mapOf maps package) next functions asked) ∧
      ((asked.map Prod.snd).Nodup → (∀ pair ∈ asked, Unused (mapOf maps package) pair.1) →
        (Delivered (mapOf maps package) next functions asked ↔ Clear asked)) := by
  have hsole {function other : String} (hfunction : function ∈ functions)
      (hother : other ∈ functions)
      (hsame : finalName (mapOf maps package) other = finalName (mapOf maps package) function) :
      other = function :=
    List.inj_on_of_nodup_map hnames hother hfunction hsame
  have hdelivered (hclear : Clear asked) (howned : ∀ key, ∀ pair ∈ asked,
      (mapOf maps package).get? key = some pair.1 → key ∈ functions) :
      Delivered (mapOf maps package) (entered (mapOf maps package) asked) functions asked := by
    refine delivered_of_points hconflicts (fun pair hpair ↦ ?_) hclear
    obtain ⟨function, hfunction, hname⟩ := hmem pair hpair
    refine ⟨function, hname, fun other hother hsame ↦ ?_, fun key hget ↦ ?_⟩
    · exact hsole hfunction hother (hsame.trans hname.symm)
    · exact hsole hfunction (howned key pair hpair hget)
        ((finalName_of_get? hget).trans hname.symm)
  refine ⟨entered (mapOf maps package) asked, retry_of_answers hattempt hanswers, hdelivered,
    fun hdistinct hunused ↦ ⟨clear_of_delivered hconflicts hmem hdistinct hunused, fun hclear ↦ ?_⟩⟩
  exact hdelivered hclear fun key pair hpair hget ↦ absurd hget (hunused pair hpair key)

end

/-- Gives the answers of a list one after the other. -/
def scripted : Source (List String) where
  ask _ _
    | [] => (.ok none, [])
    | answer :: rest => (.ok (some answer), rest)

/-- Collides under the names `A` and `B` until `A` has an alias. -/
def collidingOnce (maps : RenameMaps) (answers : List String) :
    Except Fault RenameMaps × List String :=
  if (mapOf maps "P").contains "A" then (.ok maps, answers)
  else (.error (.functionCollision "P" ["A", "B"]), answers)

theorem retry_delivers_iff_prefixed :
    let asked := [("A", "P_A"), ("B", "P_B")]
    ∃ next, retry scripted collidingOnce 1 .empty ["P_A", "P_B"] =
        retry scripted collidingOnce 0 (OrderedMap.insert .empty "P" next) [] ∧
      Delivered (mapOf .empty "P") next ["A", "B", "D"] asked := by
  intro asked
  have hanswers : Answers scripted "P" asked ["P_A", "P_B"] [] := .cons rfl (.cons rfl (.nil []))
  have hattempt : collidingOnce .empty ["P_A", "P_B"] =
      (.error (.functionCollision "P" (asked.map Prod.fst)), ["P_A", "P_B"]) := rfl
  obtain ⟨next, hretry, hdelivered, -⟩ := retry_delivers_iff ["A", "B", "D"] 0 hattempt hanswers
    (by decide) (by decide) (by decide)
  exact ⟨next, hretry, hdelivered (by decide) fun _ _ _ h ↦ nomatch h⟩

/-- The answer for `A` is taken for an alias that `B` had, so that `A` gets the answer for `B`, and
`B` none. -/
theorem retry_chain_missed :
    let asked := [("A", "B"), ("B", "C")]
    let functions := ["A", "B", "D"]
    let next : Formula.RenameMap := .ofList [("A", "C")]
    Answers scripted "P" asked ["B", "C"] [] ∧
      (functions.map (finalName (mapOf .empty "P"))).Nodup ∧
      (∀ pair ∈ asked, ∃ function ∈ functions, finalName (mapOf .empty "P") function = pair.1) ∧
      retry scripted collidingOnce 1 .empty ["B", "C"] =
        retry scripted collidingOnce 0 (.ofList [("P", next)]) [] ∧
      ¬Delivered (mapOf .empty "P") next functions asked := by
  refine ⟨.cons rfl (.cons rfl (.nil [])), by decide, by decide, rfl, fun h ↦ ?_⟩
  exact absurd (h.answered "A" (by decide) ("A", "B") (by decide) rfl) (by decide)

end Alias

end SheetPackages
