import SheetPackages.Proofs.Project.Repeating

/-!
# Requirement lists as maps

The requirements of a project are texts, among which some may be no requirements at all, and every
text is read again whenever the list is edited. Where no two entries are on the same package, the
list nevertheless behaves like a map from packages to requirements that keeps its order: entries are
replaced at their place, new ones come last, and texts that cannot be read stay where they are.
Only requirements whose texts are read as they were are put into the list here.
-/

namespace SheetPackages

/-- A requirement that is read from its text as it is. -/
structure Dependency.Writable (d : Dependency) : Prop where
  nonempty : d.name.toList ≠ []
  name : ∀ c ∈ d.name.toList, isNameChar c = true
  trimmed : Text.trim d.specifier.toList = d.specifier.toList
  separable : d.Separable

theorem Dependency.Writable.parse_text {d : Dependency} (h : d.Writable) : parse d.text = .ok d :=
  Dependency.parse_text h.nonempty h.name h.separable h.trimmed

namespace Project

/-! ## Slots -/

/-- What stands at a place of a requirement list: an entry on a package, or a text that is no
requirement. -/
inductive Slot where
  | package (name : String)
  | unreadable (text : String)
deriving DecidableEq

def Slot.name? : Slot → Option String
  | .package name => some name
  | .unreadable _ => none

def slotOf (entry : String) : Slot :=
  match Dependency.parse? entry with
  | some d => .package d.name
  | none => .unreadable entry

theorem mem_filterMap_name? {slots : List Slot} {name : String} :
    name ∈ slots.filterMap Slot.name? ↔ .package name ∈ slots := by
  rw [List.mem_filterMap]
  constructor
  · rintro ⟨slot, hslot, hname⟩
    cases slot with
    | package name => exact Option.some.inj hname ▸ hslot
    | unreadable text => cases hname
  · exact fun hslot ↦ ⟨_, hslot, rfl⟩

/-- The slots of a project's requirements. -/
def layout (p : Project) : List Slot :=
  p.dependencies.map slotOf

/-- The text of the first entry on a package. -/
def textOn? (p : Project) (name : String) : Option String :=
  p.dependencies.find? (names name)

theorem name?_slotOf (entry : String) :
    (slotOf entry).name? = (Dependency.parse? entry).map Dependency.name := by
  unfold slotOf
  cases Dependency.parse? entry <;> rfl

theorem slotOf_eq_package_iff {name entry : String} :
    slotOf entry = .package name ↔ names name entry = true := by
  rw [names_iff, ← name?_slotOf]
  cases slotOf entry <;> simp [Slot.name?]

/-- The packages of the entries that can be read are those of their slots. -/
theorem packages_eq (p : Project) : packages p.dependencies = p.layout.filterMap Slot.name? := by
  rw [packages, layout, List.filterMap_map]
  congr 1
  funext entry
  exact (name?_slotOf entry).symm

theorem slotOf_of_parse {entry : String} {d : Dependency} (h : Dependency.parse entry = .ok d) :
    slotOf entry = .package d.name := by
  rw [slotOf_eq_package_iff, names_of_parse h, beq_self_eq_true]

variable {name other entry : String} {entries : List String}

/-! ## One entry put or dropped -/

theorem map_slotOf_putEntry (h : slotOf entry = .package name) :
    (putEntry name entry entries).map slotOf =
      if .package name ∈ entries.map slotOf then entries.map slotOf
      else entries.map slotOf ++ [.package name] := by
  induction entries with
  | nil => simp [putEntry, h]
  | cons first rest ih =>
    rw [putEntry]
    by_cases hfirst : slotOf first = .package name
    · rw [if_pos (slotOf_eq_package_iff.mp hfirst), List.map_cons, List.map_cons, h, hfirst,
        if_pos List.mem_cons_self]
    · rw [if_neg (mt slotOf_eq_package_iff.mpr hfirst), List.map_cons, List.map_cons, ih]
      have hother : .package name ≠ slotOf first := fun heq ↦ hfirst heq.symm
      simp only [List.mem_cons, hother, false_or]
      split <;> rfl

theorem find?_putEntry (h : slotOf entry = .package name) :
    (putEntry name entry entries).find? (names other) =
      if other = name then some entry else entries.find? (names other) := by
  have hentry : names other entry = true ↔ other = name := by
    rw [← slotOf_eq_package_iff, h, Slot.package.injEq, eq_comm]
  induction entries with
  | nil =>
    rw [putEntry, List.find?_singleton]
    simp only [hentry]
    rfl
  | cons first rest ih =>
    rw [putEntry]
    by_cases hfirst : names name first = true
    · rw [if_pos hfirst]
      by_cases hother : other = name
      · rw [if_pos hother, List.find?_cons_of_pos (hentry.mpr hother)]
      · have hdiffer : names other first = false := names_eq_false_of_ne hfirst hother
        rw [if_neg hother, List.find?_cons_of_neg (mt hentry.mp hother),
          List.find?_cons_of_neg (Bool.eq_false_iff.mp hdiffer)]
    · rw [if_neg hfirst, List.find?_cons, List.find?_cons, ih]
      by_cases hother : other = name
      · subst hother
        simp [hfirst]
      · simp only [if_neg hother]

theorem map_slotOf_filter : (entries.filter (!names name ·)).map slotOf =
    (entries.map slotOf).filter (· ≠ .package name) := by
  rw [List.filter_map]
  congr 1
  refine List.filter_congr fun entry _ ↦ ?_
  rw [Bool.eq_iff_iff, Bool.not_eq_true', ← Bool.not_eq_true, ← slotOf_eq_package_iff]
  simp

theorem find?_filter : (entries.filter (!names name ·)).find? (names other) =
    if other = name then none else entries.find? (names other) := by
  rw [List.find?_filter]
  by_cases hother : other = name
  · subst hother
    simp
  · rw [if_neg hother]
    congr 1
    funext entry
    by_cases hentry : names other entry = true
    · have hdiffer : names name entry = false := names_eq_false_of_ne hentry (Ne.symm hother)
      simp [hentry, hdiffer]
    · simp [hentry]

/-! ## Edits -/

inductive Edit where
  | upsert (d : Dependency)
  | remove (name : String)

/-- The package that an edit is about. -/
def Edit.package : Edit → String
  | .upsert d => d.name
  | .remove name => name

/-- Only requirements are put that are read as they are. -/
def Edit.Admissible : Edit → Prop
  | .upsert d => d.Writable
  | .remove _ => True

def edit (p : Project) : Edit → Project
  | .upsert d => p.upsert d
  | .remove name => p.remove name

def editAll (p : Project) (edits : List Edit) : Project :=
  edits.foldl edit p

/-- What an edit does to a list of slots: one for a package that has none comes last, and a dropped
one is taken out. -/
def Edit.arrange (slots : List Slot) : Edit → List Slot
  | .upsert d => if .package d.name ∈ slots then slots else slots ++ [.package d.name]
  | .remove name => slots.filter (· ≠ .package name)

/-- The last edit that is about a package. -/
def lastOn? (name : String) (edits : List Edit) : Option Edit :=
  (edits.filter (·.package = name)).getLast?

theorem lastOn?_append_singleton (edits : List Edit) (e : Edit) :
    lastOn? name (edits ++ [e]) = if e.package = name then some e else lastOn? name edits := by
  rw [lastOn?, List.filter_append, List.filter_singleton]
  by_cases h : e.package = name
  · simp [h]
  · simp [h, lastOn?]

variable {p : Project} {e : Edit}

theorem layout_edit (h : e.Admissible) : (p.edit e).layout = e.arrange p.layout := by
  cases e with
  | upsert d => exact map_slotOf_putEntry (slotOf_of_parse (Dependency.Writable.parse_text h))
  | remove name => exact map_slotOf_filter

theorem textOn?_upsert {d : Dependency} (h : d.Writable) :
    (p.upsert d).textOn? other = if other = d.name then some d.text else p.textOn? other :=
  find?_putEntry (slotOf_of_parse h.parse_text)

theorem textOn?_remove :
    (p.remove name).textOn? other = if other = name then none else p.textOn? other :=
  find?_filter

/-- An edit leaves the entries on other packages alone. -/
theorem textOn?_edit_of_ne (h : e.Admissible) (hname : e.package ≠ name) :
    (p.edit e).textOn? name = p.textOn? name := by
  cases e with
  | upsert d => exact (textOn?_upsert h).trans (if_neg (Ne.symm hname))
  | remove dropped => exact textOn?_remove.trans (if_neg (Ne.symm hname))

theorem nodup_arrange {slots : List Slot} (h : (slots.filterMap Slot.name?).Nodup) :
    ((e.arrange slots).filterMap Slot.name?).Nodup := by
  cases e with
  | upsert d =>
    rw [Edit.arrange]
    split
    · exact h
    · next hnew =>
      rw [List.filterMap_append, List.nodup_append]
      refine ⟨h, List.nodup_singleton _, fun a ha b hb heq ↦ hnew ?_⟩
      obtain rfl : b = d.name := List.mem_singleton.mp hb
      exact mem_filterMap_name?.mp (heq ▸ ha)
  | remove name => exact h.sublist (List.filter_sublist.filterMap _)

theorem mem_packages_iff :
    name ∈ packages entries ↔ ∃ entry ∈ entries, names name entry = true := by
  simp only [packages, List.mem_filterMap, names_iff]

theorem declares_iff : p.declares name = true ↔ name ∈ packages p.dependencies := by
  rw [declares, List.any_eq_true, mem_packages_iff]

/-- A removal makes the list shorter exactly if it had an entry on the package. -/
theorem length_remove_ne_iff :
    (p.remove name).dependencies.length ≠ p.dependencies.length ↔
      name ∈ packages p.dependencies := by
  rw [mem_packages_iff, remove, Ne, List.length_filter_eq_length_iff]
  simp

/-! ## Sequences of edits -/

theorem editAll_append_singleton (p : Project) (edits : List Edit) (e : Edit) :
    p.editAll (edits ++ [e]) = (p.editAll edits).edit e :=
  List.foldl_concat ..

theorem layout_editAll {edits : List Edit} (h : ∀ e ∈ edits, e.Admissible) :
    (p.editAll edits).layout = edits.foldl Edit.arrange p.layout := by
  induction edits generalizing p with
  | nil => rfl
  | cons e rest ih =>
    obtain ⟨he, hrest⟩ := List.forall_mem_cons.mp h
    rw [List.foldl_cons, ← layout_edit he]
    exact ih hrest

theorem nodup_foldl_arrange {slots : List Slot} (h : (slots.filterMap Slot.name?).Nodup)
    (edits : List Edit) : ((edits.foldl Edit.arrange slots).filterMap Slot.name?).Nodup := by
  induction edits generalizing slots with
  | nil => exact h
  | cons e rest ih => exact ih (nodup_arrange h)

/-- What the entry on a package is after some edits: what the last one on the package made of it. -/
theorem textOn?_editAll {edits : List Edit} (h : ∀ e ∈ edits, e.Admissible) (name : String) :
    (p.editAll edits).textOn? name =
      match lastOn? name edits with
      | some (.upsert d) => some d.text
      | some (.remove _) => none
      | none => p.textOn? name := by
  induction edits using List.reverseRecOn with
  | nil => rfl
  | append_singleton edits e ih =>
    have he : e.Admissible := h e (List.mem_append_right _ List.mem_cons_self)
    rw [editAll_append_singleton, lastOn?_append_singleton]
    by_cases hname : e.package = name
    · subst hname
      rw [if_pos rfl]
      cases e with
      | upsert d => exact (textOn?_upsert he).trans (if_pos rfl)
      | remove name => exact textOn?_remove.trans (if_pos rfl)
    · rw [if_neg hname, textOn?_edit_of_ne he hname]
      exact ih fun e he ↦ h e (List.mem_append_left _ he)

theorem mem_of_lastOn? {edits : List Edit} (h : lastOn? name edits = some e) : e ∈ edits :=
  (List.mem_filter.mp (List.mem_of_getLast? h)).1

/-- What the list of a project says after some edits is what a map in insertion order says: no two
entries are on one package; what was put last on a package, and not dropped since, is what its entry
is read as; the entries on packages of which no edit speaks are the old ones; the slots are those
that replacing, appending and dropping leave, with the texts in their places that cannot be read;
and each removal tells whether there was an entry on the package, which is whether the list is
shorter then. -/
structure BehavesAsMap (p : Project) (edits : List Edit) : Prop where
  distinct : (packages (p.editAll edits).dependencies).Nodup
  upserted : ∀ name d, lastOn? name edits = some (.upsert d) →
    ∃ text, (p.editAll edits).textOn? name = some text ∧ Dependency.parse text = .ok d
  removed : ∀ name other, lastOn? name edits = some (.remove other) →
    (p.editAll edits).textOn? name = none
  kept : ∀ name, lastOn? name edits = none → (p.editAll edits).textOn? name = p.textOn? name
  layout : (p.editAll edits).layout = edits.foldl Edit.arrange p.layout
  told : ∀ before name after, edits = before ++ .remove name :: after →
    let q := p.editAll before
    (q.declares name = true ↔ name ∈ packages q.dependencies) ∧
      ((q.remove name).dependencies.length ≠ q.dependencies.length ↔ name ∈ packages q.dependencies)

/-- A requirement list with at most one readable entry on each package behaves as a map in insertion
order under any edits that put requirements which are read as they are. -/
theorem behavesAsMap (hdistinct : (packages p.dependencies).Nodup) {edits : List Edit}
    (hedits : ∀ e ∈ edits, e.Admissible) : p.BehavesAsMap edits where
  distinct := by
    rw [packages_eq] at hdistinct ⊢
    rw [layout_editAll hedits]
    exact nodup_foldl_arrange hdistinct edits
  upserted name d hlast := by
    refine ⟨d.text, ?_, (hedits _ (mem_of_lastOn? hlast)).parse_text⟩
    rw [textOn?_editAll hedits, hlast]
  removed name other hlast := by rw [textOn?_editAll hedits, hlast]
  kept name hlast := by rw [textOn?_editAll hedits, hlast]
  layout := layout_editAll hedits
  told _ _ _ _ := ⟨declares_iff, length_remove_ne_iff⟩

/-- The entry on the first package is replaced before the text that is no requirement, a package
that had none comes last, and the second of two equal removals finds nothing. -/
theorem behavesAsMap_trial :
    let p : Project := { dependencies := ["pkg-a>=1.0", "=1.0", "pkg-b"] }
    let edits : List Edit := [.upsert ⟨"pkg-a", "@file:./a.gspkg"⟩, .upsert ⟨"pkg-c", "==2.0"⟩,
      .remove "pkg-b", .remove "pkg-b"]
    p.BehavesAsMap edits ∧
      (p.editAll edits).dependencies = ["pkg-a@file:./a.gspkg", "=1.0", "pkg-c==2.0"] ∧
      (p.editAll (edits.take 2)).declares "pkg-b" = true ∧
      (p.editAll (edits.take 3)).declares "pkg-b" = false := by
  intro p edits
  have hdistinct : (packages p.dependencies).Nodup := by decide +kernel
  have hwritable (d : Dependency) (hread : Dependency.parse d.text = .ok d)
      (hseparable : d.specifier.toList.takeWhile Dependency.isNameChar = []) : d.Writable := by
    obtain ⟨hne, hname, htrim⟩ := Dependency.of_parse hread
    exact ⟨hne, hname, htrim, Dependency.takeWhile_eq_nil_iff_separable.mp hseparable⟩
  have hedits : ∀ e ∈ edits, e.Admissible := by
    have ha : Dependency.Writable ⟨"pkg-a", "@file:./a.gspkg"⟩ :=
      hwritable _ (by decide +kernel) (by decide +kernel)
    have hc : Dependency.Writable ⟨"pkg-c", "==2.0"⟩ :=
      hwritable _ (by decide +kernel) (by decide +kernel)
    simp only [edits, List.forall_mem_cons, Edit.Admissible]
    exact ⟨ha, hc, trivial, trivial, fun _ h ↦ absurd h List.not_mem_nil⟩
  exact ⟨behavesAsMap hdistinct hedits, by decide +kernel, by decide +kernel, by decide +kernel⟩

end Project

end SheetPackages
