import SheetPackages.Proofs.Declarations
import SheetPackages.Proofs.Resolution.Soundness

/-!
# Requirements put into a project

A requirement is put into a project as its name with the specifier directly behind; blanks that
stood between the two are not kept. It is read again as it was exactly when its specifier does not
begin with a character of names, and otherwise as a requirement on another package.
-/

namespace SheetPackages

/-! ## Requirements read again -/

namespace Dependency

variable {s : String} {d : Dependency}

theorem takeWhile_eq_nil_iff_separable :
    d.specifier.toList.takeWhile isNameChar = [] ↔ d.Separable := by
  rw [Separable]
  cases d.specifier.toList with
  | nil => simp
  | cons c rest => simp [List.takeWhile_cons]

/-- The text of a requirement is one again. It is on the same package exactly when it is the same
requirement. -/
theorem exists_parse_text (h : parse s = .ok d) :
    ∃ e, parse d.text = .ok e ∧ (e = d ↔ d.Separable) ∧ (e.name = d.name ↔ d.Separable) := by
  obtain ⟨hne, hname, htrim⟩ := of_parse h
  have hend : Text.trimRight d.specifier.toList = d.specifier.toList :=
    Text.trimRight_eq_self (Text.trim_eq_self_iff.mp htrim).2
  have hread := ofChars_name_append hne hname d.specifier.toList
  rw [hend, ← String.toList_append] at hread
  have hlonger : String.ofList (d.name.toList ++ d.specifier.toList.takeWhile isNameChar) = d.name ↔
      d.Separable := by
    rw [← takeWhile_eq_nil_iff_separable, ← String.toList_inj, String.toList_ofList,
      List.append_right_eq_self]
  refine ⟨_, hread, ⟨fun heq ↦ ?_, fun hseparable ↦ ?_⟩, hlonger⟩
  · exact hlonger.mp (congrArg Dependency.name heq)
  · have hsame := parse_text hne hname hseparable htrim
    exact Except.ok.inj (hread.symm.trans hsame)

end Dependency

/-! ## Requirement lists -/

namespace Project

/-- The list with the first requirement on `name` replaced, or with the requirement added. -/
def putRequirement (name : String) (d : Dependency) : List Dependency → List Dependency
  | [] => [d]
  | e :: rest => if e.name = name then d :: rest else e :: putRequirement name d rest

/-- Every entry is read as the requirement at its place. -/
abbrev ReadAs (entries : List String) (ds : List Dependency) : Prop :=
  List.Forall₂ (fun entry d ↦ Dependency.parse entry = .ok d) entries ds

theorem requirements_eq_ok_iff {p : Project} {ds : List Dependency} :
    p.requirements = .ok ds ↔ ReadAs p.dependencies ds := by
  simp only [requirements, Dependency.readAll, mapM_eq_ok_iff, Resolution.read_eq_ok_iff]

theorem names_of_parse {entry : String} {e : Dependency} (h : Dependency.parse entry = .ok e)
    (name : String) : names name entry = (e.name == name) := by
  rw [names, Dependency.parse?, h]
  rfl

theorem ReadAs.putEntry {entries : List String} {ds : List Dependency} (h : ReadAs entries ds)
    (name : String) {entry : String} {d : Dependency} (hentry : Dependency.parse entry = .ok d) :
    ReadAs (putEntry name entry entries) (putRequirement name d ds) := by
  induction h with
  | nil => exact .cons hentry .nil
  | @cons first e rest others hfirst hrest ih =>
    rw [Project.putEntry, putRequirement, names_of_parse hfirst]
    by_cases heq : e.name = name
    · rw [if_pos heq, if_pos (beq_iff_eq.mpr heq)]
      exact .cons hentry hrest
    · rw [if_neg heq, if_neg (mt beq_iff_eq.mp heq)]
      exact .cons hfirst ih

/-- The requirements of a list on one package. -/
def onPackage (name : String) (ds : List Dependency) : List Dependency :=
  ds.filter (·.name = name)

theorem onPackage_cons (name : String) (d : Dependency) (ds : List Dependency) :
    onPackage name (d :: ds) =
      if d.name = name then d :: onPackage name ds else onPackage name ds := by
  simp only [onPackage, List.filter_cons, decide_eq_true_eq]

/-- Of the requirements on a package, at most one before, only the new one is left. -/
theorem onPackage_putRequirement {name : String} (d : Dependency) {ds : List Dependency}
    (h : (onPackage name ds).length ≤ 1) :
    onPackage name (putRequirement name d ds) = onPackage name [d] := by
  induction ds with
  | nil => rfl
  | cons first rest ih =>
    rw [onPackage_cons] at h
    rw [putRequirement]
    by_cases heq : first.name = name
    · rw [if_pos heq, List.length_cons] at h
      have hrest : onPackage name rest = [] := List.length_eq_zero_iff.mp (by omega)
      rw [if_pos heq, onPackage_cons, onPackage_cons, hrest]
      rfl
    · rw [if_neg heq] at h
      rw [if_neg heq, onPackage_cons, if_neg heq, ih h]

end Project

/-! ## Upserting -/

/-- The text of a requirement is always read as one, and as the same exactly when the specifier
cannot be taken for a part of the name. In a project of readable entries with at most one on the
package, that is also when upserting leaves it as the only requirement on its package. -/
theorem Dependency.parse_text_eq_iff {s : String} {d : Dependency} (h : parse s = .ok d) :
    (∃ e, parse d.text = .ok e) ∧ (parse d.text = .ok d ↔ d.Separable) ∧
      ∀ (p : Project) (ds : List Dependency), p.requirements = .ok ds →
        (Project.onPackage d.name ds).length ≤ 1 →
        ∃ es, (p.upsert d).requirements = .ok es ∧
          (Project.onPackage d.name es = [d] ↔ d.Separable) := by
  obtain ⟨e, hread, hsame, hname⟩ := exists_parse_text h
  refine ⟨⟨e, hread⟩, ?_, fun p ds hds hone ↦ ?_⟩
  · rw [hread, Except.ok.injEq]
    exact hsame
  · have hput : (p.upsert d).requirements = .ok (Project.putRequirement d.name e ds) :=
      Project.requirements_eq_ok_iff.mpr ((Project.requirements_eq_ok_iff.mp hds).putEntry _ hread)
    refine ⟨_, hput, ?_⟩
    rw [Project.onPackage_putRequirement e hone, Project.onPackage_cons]
    by_cases heq : e.name = d.name
    · rw [if_pos heq, ← hsame]
      exact ⟨fun hlist ↦ (List.cons.inj hlist).1, fun h ↦ by rw [h]; rfl⟩
    · rw [if_neg heq]
      exact iff_of_false (List.cons_ne_nil d []).symm fun hseparable ↦ heq (hname.mpr hseparable)

/-- A specifier with an operator is kept, with blanks inside it, and replaces an older one. -/
theorem Dependency.parse_text_eq_iff_trial :
    let d : Dependency := ⟨"stats", ">= 1.0 , <2"⟩
    let p : Project := { dependencies := ["text", "stats<1"] }
    parse " stats >= 1.0 , <2 " = .ok d ∧ parse d.text = .ok d ∧
      ∃ es, (p.upsert d).requirements = .ok es ∧ Project.onPackage "stats" es = [d] := by
  intro d p
  have hread : parse " stats >= 1.0 , <2 " = .ok d := by decide +kernel
  have hseparable : d.Separable := takeWhile_eq_nil_iff_separable.mp (by decide +kernel)
  obtain ⟨_, hsame, hupsert⟩ := parse_text_eq_iff hread
  have hrequirements : p.requirements = .ok [⟨"text", ""⟩, ⟨"stats", "<1"⟩] := by decide +kernel
  obtain ⟨es, hes, hone⟩ := hupsert p _ hrequirements (by decide)
  exact ⟨hread, hsame.mpr hseparable, es, hes, hone.mpr hseparable⟩

/-- A specifier that is a bare version is read as a part of the name, once the blank before it is
gone. -/
theorem Dependency.parse_text_bare_version :
    parse "pkg 1.0" = .ok ⟨"pkg", "1.0"⟩ ∧ parse (text ⟨"pkg", "1.0"⟩) = .ok ⟨"pkg1", ".0"⟩ := by
  constructor
  · decide +kernel
  · rw [parse, text, String.toList_append]
    decide +kernel

end SheetPackages
