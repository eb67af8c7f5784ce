import Mathlib.Logic.Function.Iterate
import SheetPackages.Proofs.Path.Safety

/-!
# Locations that paths denote

A path is resolved by its text alone: a `.` vanishes, and a `..` takes back the last name, has no
effect at the root, and is otherwise kept in front. Normalizing keeps the names of the location that
is found so, but of the `..` kept in front every second one is taken back by the next, and one that
is met at the root takes the root away. So the normal form spells the location out exactly if no
beginning of the path climbs above the root, or more than one level above its start. A second
normalization changes nothing in either case.
-/

namespace SheetPackages.Path

variable {cs : List Component}

/-! ## Locations -/

/-- A place reached from the root or from the start of a path, by going up and then down. -/
@[ext]
structure Location where
  fromRoot : Bool := false
  above : Nat := 0
  names : List String := []
deriving DecidableEq

namespace Location

/-- One level up: the last name is taken back, the root stays, and anything else is left above. -/
def up (l : Location) : Location :=
  if l.names ≠ [] then { l with names := l.names.dropLast }
  else if l.fromRoot then l
  else { l with above := l.above + 1 }

def follow (l : Location) : Component → Location
  | .root => { fromRoot := true }
  | .current => l
  | .parent => l.up
  | .normal name => { l with names := l.names ++ [name] }

/-- The components of a path that spells the location out. -/
def spelling (l : Location) : List Component :=
  (if l.fromRoot then [.root] else []) ++ List.replicate l.above .parent ++ l.names.map .normal

theorem spelling_injective : Function.Injective spelling := by
  rintro ⟨fromRoot, above, names⟩ ⟨fromRoot', above', names'⟩ h
  have hroots := congrArg (List.count .root) h
  have hparents := congrArg (List.count .parent) h
  have hroot (names : List String) : (names.map Component.normal).count .root = 0 :=
    List.count_eq_zero_of_not_mem (by simp)
  have hparent (names : List String) : (names.map Component.normal).count .parent = 0 :=
    List.count_eq_zero_of_not_mem (by simp)
  obtain rfl : fromRoot = fromRoot' := by
    cases fromRoot <;> cases fromRoot' <;>
      simp [spelling, List.count_replicate, hroot] at hroots ⊢
  obtain rfl : above = above' := by
    cases fromRoot <;> simpa [spelling, List.count_replicate, hparent] using hparents
  have hnames : names.map Component.normal = names'.map .normal := List.append_cancel_left h
  have hnormal : Function.Injective Component.normal := fun _ _ heq ↦ Component.normal.inj heq
  rw [List.map_injective_iff.mpr hnormal hnames]

end Location

/-- The location that a path denotes. -/
def resolve (path : String) : Location :=
  (components path).foldl Location.follow {}

/-- How many `..` find no name before them to take back, with `depth` names before all of them. -/
def overshoot (depth : Nat) : List Component → Nat
  | [] => 0
  | .parent :: rest =>
    match depth with
    | 0 => overshoot 0 rest + 1
    | depth + 1 => overshoot depth rest
  | .normal _ :: rest => overshoot (depth + 1) rest
  | _ :: rest => overshoot depth rest

/-- What normalizing a path leaves of its location. -/
def remnant (path : String) : Location :=
  let lost := overshoot 0 (components path)
  { fromRoot := isAbsolute path && lost == 0
    above := (if isAbsolute path then lost - 1 else lost) % 2
    names := (resolve path).names }

/-! ## Climbing -/

/-- As many `..` overshoot as the highest climb over all beginnings has levels. -/
theorem overshoot_le_iff {depth limit : Nat} : overshoot depth cs ≤ limit ↔
    ∀ before, before <+: cs →
      before.count .parent ≤ limit + depth + before.countP Component.isNormal := by
  induction cs generalizing depth limit with
  | nil => simp [overshoot]
  | cons c rest ih =>
    rw [forall_prefix_cons]
    cases c with
    | root => simp [overshoot, ih, Component.isNormal]
    | current => simp [overshoot, ih, Component.isNormal]
    | parent =>
      cases depth with
      | zero =>
        cases limit with
        | zero =>
          refine iff_of_false (Nat.not_succ_le_zero _) fun h ↦ ?_
          have hfirst := h.2 [] List.nil_prefix
          simp [Component.isNormal] at hfirst
        | succ limit => simp [overshoot, ih, Component.isNormal, Nat.add_right_comm limit 1]
      | succ depth =>
        simp [overshoot, ih, Component.isNormal, ← Nat.add_assoc, Nat.add_right_comm _ 1]
    | normal name =>
      simp [overshoot, ih, Component.isNormal, List.countP_cons, ← Nat.add_assoc,
        Nat.add_right_comm _ 1]

/-- The root comes first if it comes at all. -/
theorem exists_components (path : String) : ∃ rest, .root ∉ rest ∧
    components path = (if isAbsolute path then [.root] else []) ++ rest := by
  by_cases hroot : isAbsolute path = true
  · obtain ⟨rest, hrest⟩ := List.head?_eq_some_iff.mp (of_decide_eq_true hroot)
    obtain ⟨_, _, hmore⟩ := List.exists_cons_of_ne_nil (Text.pieces_ne_nil '/' rest)
    have hleading : leading (Text.pieces '/' path.toList) = [.root] := by
      rw [hrest, Text.pieces, if_pos rfl, hmore]
      rfl
    refine ⟨((Text.pieces '/' path.toList).filter fun piece ↦ !isTrivial piece).map
      Component.ofPiece, root_notMem_map_ofPiece _, ?_⟩
    rw [if_pos hroot, ← hleading, components]
  · exact ⟨components path, mt root_mem_components_iff.mp hroot, by rw [if_neg hroot]; rfl⟩

/-- Behind the root, a location is followed with the same names whatever lies above them, and what
overshoots is left above unless the root is there. -/
theorem foldl_follow (hroot : .root ∉ cs) (l : Location) :
    (cs.foldl Location.follow l).fromRoot = l.fromRoot ∧
      (cs.foldl Location.follow l).above =
        if l.fromRoot then l.above else l.above + overshoot l.names.length cs := by
  induction cs generalizing l with
  | nil => simp [overshoot]
  | cons c rest ih =>
    obtain ⟨hc, hrest⟩ := not_or.mp (mt List.mem_cons.mpr hroot)
    rw [List.foldl_cons]
    obtain ⟨hfrom, habove⟩ := ih hrest (l.follow c)
    rw [hfrom, habove]
    obtain ⟨fromRoot, above, names⟩ := l
    cases c with
    | root => exact absurd rfl hc
    | current => exact ⟨rfl, rfl⟩
    | normal name => simp [Location.follow, overshoot]
    | parent =>
      rcases List.eq_nil_or_concat names with rfl | ⟨before, name, rfl⟩
      · cases fromRoot <;> simp [Location.follow, Location.up, overshoot, Nat.add_assoc,
          Nat.add_comm 1]
      · simp [Location.follow, Location.up, overshoot]

/-! ## The stack -/

/-- What a `..` does to a stack without names. -/
def sink (bottom : List Component) : List Component :=
  normalStep bottom .parent

/-- The stack of normalizing holds the names of the location, above a bottom that changes with each
`..` that overshoots. -/
theorem foldl_normalStep (hroot : .root ∉ cs) (l : Location) (bottom : List Component) :
    cs.foldl normalStep ((l.names.map .normal).reverse ++ bottom) =
      ((cs.foldl Location.follow l).names.map .normal).reverse ++
        sink^[overshoot l.names.length cs] bottom := by
  induction cs generalizing l bottom with
  | nil => rfl
  | cons c rest ih =>
    obtain ⟨hc, hrest⟩ := not_or.mp (mt List.mem_cons.mpr hroot)
    rw [List.foldl_cons, List.foldl_cons]
    cases c with
    | root => exact absurd rfl hc
    | current => exact ih hrest l bottom
    | normal name =>
      have hstep : normalStep ((l.names.map .normal).reverse ++ bottom) (.normal name) =
          ((l.follow (.normal name)).names.map .normal).reverse ++ bottom := by
        simp [Location.follow, normalStep]
      rw [hstep, ih hrest]
      simp [Location.follow, overshoot]
    | parent =>
      obtain ⟨fromRoot, above, names⟩ := l
      rcases List.eq_nil_or_concat names with rfl | ⟨before, name, rfl⟩
      · have hnames : (Location.follow ⟨fromRoot, above, []⟩ .parent).names = [] := by
          cases fromRoot <;> rfl
        have hlater := ih hrest (Location.follow ⟨fromRoot, above, []⟩ .parent) (sink bottom)
        rw [hnames] at hlater
        exact hlater
      · have hstep : normalStep (((before.concat name).map .normal).reverse ++ bottom) .parent =
            (before.map .normal).reverse ++ bottom := by
          simp [normalStep]
        have hfollow : Location.follow ⟨fromRoot, above, before.concat name⟩ .parent =
            ⟨fromRoot, above, before⟩ := by
          simp [Location.follow, Location.up]
        rw [hstep, hfollow, ih hrest ⟨fromRoot, above, before⟩]
        simp [overshoot]

/-- Of two `..` the second takes back the first. -/
theorem iterate_sink_nil (n : Nat) : sink^[n] [] = List.replicate (n % 2) .parent := by
  induction n using Nat.twoStepInduction with
  | zero => rfl
  | one => rfl
  | more n ih _ =>
    rw [Function.iterate_add_apply sink n 2, Nat.add_mod_right, ← ih]
    rfl

/-- The first `..` takes the root away. -/
theorem iterate_sink_root (n : Nat) : sink^[n] [.root] =
    if n = 0 then [.root] else List.replicate ((n - 1) % 2) .parent := by
  cases n with
  | zero => rfl
  | succ n =>
    rw [Function.iterate_succ_apply, if_neg n.succ_ne_zero, Nat.add_sub_cancel,
      ← iterate_sink_nil]
    rfl

/-- The components of a path are stacked as they spell its remnant out. -/
theorem foldl_normalStep_components (path : String) :
    ((components path).foldl normalStep []).reverse = (remnant path).spelling := by
  obtain ⟨rest, hroot, hcomponents⟩ := exists_components path
  have hstack (l : Location) (bottom : List Component) (hnames : l.names = []) :
      (rest.foldl normalStep bottom).reverse = (sink^[overshoot 0 rest] bottom).reverse ++
        (rest.foldl Location.follow l).names.map .normal := by
    have hfold := foldl_normalStep hroot l bottom
    rw [hnames] at hfold
    change rest.foldl normalStep bottom = _ at hfold
    rw [hfold, List.reverse_append, List.reverse_reverse]
    rfl
  rw [remnant, resolve, hcomponents]
  cases hpath : isAbsolute path with
  | true =>
    change (rest.foldl normalStep [.root]).reverse = _
    rw [hstack { fromRoot := true } [.root] rfl, iterate_sink_root]
    change _ = Location.spelling ⟨true && overshoot 0 rest == 0, _, _⟩
    by_cases hlost : overshoot 0 rest = 0 <;>
      simp [Location.spelling, Location.follow, overshoot, hlost]
  | false =>
    change (rest.foldl normalStep []).reverse = _
    rw [hstack {} [] rfl, iterate_sink_nil]
    simp [Location.spelling]

/-! ## Normal forms -/

/-- Components that are paths of their own, and no roots, are read back from the path they make. -/
theorem components_foldl_join (h : ∀ c ∈ cs, leading (Text.pieces '/' c.text.toList) = [] ∧
    components c.text = [c]) (base : String) :
    components (cs.foldl (fun path c ↦ join path c.text) base) = components base ++ cs := by
  induction cs generalizing base with
  | nil => rw [List.foldl_nil, List.append_nil]
  | cons c rest ih =>
    obtain ⟨⟨hleading, hself⟩, hrest⟩ := List.forall_mem_cons.mp h
    rw [List.foldl_cons, ih hrest, components_join base hleading, hself, List.append_assoc,
      List.singleton_append]

theorem components_ofComponents_spelling {l : Location}
    (hnames : ∀ name ∈ l.names, Files.IsName name) :
    components (ofComponents l.spelling) = l.spelling := by
  have hself : ∀ c ∈ List.replicate l.above Component.parent ++ l.names.map .normal,
      leading (Text.pieces '/' c.text.toList) = [] ∧ components c.text = [c] := by
    intro c hc
    rcases List.mem_append.mp hc with hparent | hnormal
    · obtain rfl := List.eq_of_mem_replicate hparent
      decide +kernel
    · obtain ⟨name, hname, rfl⟩ := List.mem_map.mp hnormal
      have hsingle : ∀ other ∈ [name], Files.IsName other :=
        List.forall_mem_singleton.mpr (hnames name hname)
      have htext : ofNames [name] = (Component.normal name).text := String.ofList_toList
      rw [← htext]
      exact ⟨leading_pieces_ofNames hsingle, components_ofNames hsingle⟩
  rw [Location.spelling, List.append_assoc]
  cases l.fromRoot with
  | true =>
    have hroot : components "/" = [.root] := by decide +kernel
    exact (components_foldl_join hself "/").trans (congrArg (· ++ _) hroot)
  | false => exact components_foldl_join hself ""

theorem Location.mem_names_of_mem_up {l : Location} {name : String} (h : name ∈ l.up.names) :
    name ∈ l.names := by
  unfold up at h
  split at h
  · exact List.mem_of_mem_dropLast h
  · split at h <;> exact h

/-- All names of a location are names in the path. -/
theorem normal_mem_of_mem_names {l : Location} {name : String}
    (h : name ∈ (cs.foldl Location.follow l).names) : name ∈ l.names ∨ .normal name ∈ cs := by
  induction cs generalizing l with
  | nil => exact .inl h
  | cons c rest ih =>
    rcases ih h with hold | hrest
    · cases c with
      | root => cases hold
      | current => exact .inl hold
      | normal new =>
        refine (List.mem_append.mp hold).imp_right fun hnew ↦ ?_
        rw [List.mem_singleton.mp hnew]
        exact List.mem_cons_self
      | parent => exact .inl (Location.mem_names_of_mem_up hold)
    · exact .inr (List.mem_cons_of_mem c hrest)

theorem components_normalize (path : String) :
    components (normalize path) = (remnant path).spelling := by
  rw [normalize, foldl_normalStep_components]
  refine components_ofComponents_spelling fun name hname ↦ ?_
  exact isName_of_mem_components ((normal_mem_of_mem_names hname).resolve_left List.not_mem_nil)

/-- A location that a path denotes has nothing left above the root. -/
theorem resolve_eq (path : String) : resolve path =
    { fromRoot := isAbsolute path
      above := if isAbsolute path then 0 else overshoot 0 (components path)
      names := (resolve path).names } := by
  obtain ⟨rest, hroot, hcomponents⟩ := exists_components path
  have hfollow (l : Location) := foldl_follow hroot l
  rw [resolve, hcomponents]
  cases isAbsolute path with
  | true =>
    obtain ⟨hfrom, habove⟩ := hfollow { fromRoot := true }
    exact Location.ext hfrom habove rfl
  | false =>
    obtain ⟨hfrom, habove⟩ := hfollow {}
    exact Location.ext hfrom (habove.trans (Nat.zero_add _)) rfl

/-- The location is left as it is where no `..` is met at the root, and at most one is kept. -/
theorem resolve_eq_remnant_iff (path : String) : resolve path = remnant path ↔
    overshoot 0 (components path) ≤ if isAbsolute path then 0 else 1 := by
  rw [resolve_eq, remnant, Location.mk.injEq]
  generalize overshoot 0 (components path) = lost
  cases isAbsolute path with
  | true => simp +contextual
  | false =>
    have hodd : lost = lost % 2 ↔ lost ≤ 1 := by omega
    simpa using hodd

/-- A normal form is its own normal form. -/
theorem foldl_normalStep_spelling (path : String) :
    ((remnant path).spelling.foldl normalStep []).reverse = (remnant path).spelling := by
  obtain ⟨bottom, hbottom, hspelling⟩ : ∃ bottom, bottom.foldl normalStep [] = bottom.reverse ∧
      (remnant path).spelling = bottom ++ (remnant path).names.map .normal := by
    refine ⟨_, ?_, rfl⟩
    rw [remnant]
    generalize overshoot 0 (components path) = lost
    by_cases hroot : isAbsolute path = true ∧ lost = 0
    · simp [hroot, normalStep]
    · have hfrom : (isAbsolute path && lost == 0) = false := by simpa using hroot
      simp only [hfrom]
      rcases Nat.mod_two_eq_zero_or_one (if isAbsolute path then lost - 1 else lost) with h | h <;>
        (rw [h]; rfl)
  rw [hspelling, List.foldl_append, hbottom, foldl_normalStep_map_normal, List.reverse_append,
    List.reverse_reverse, List.reverse_reverse]

/-- The normal form of a path spells one location out, the remnant of the location that the path
denotes. This is the location itself exactly if no beginning of the path climbs above the root, or
by more than one level above its start. -/
theorem normalize_spells (path : String) :
    (components (normalize path) = (resolve path).spelling ↔
      ∀ before, before <+: components path → before.count .parent ≤
        (if isAbsolute path then 0 else 1) + before.countP Component.isNormal) ∧
    (∀ l : Location, components (normalize path) = l.spelling ↔ l = remnant path) ∧
    normalize (normalize path) = normalize path := by
  have hspells (l : Location) : components (normalize path) = l.spelling ↔ l = remnant path := by
    rw [components_normalize, Location.spelling_injective.eq_iff, eq_comm]
  refine ⟨?_, hspells, ?_⟩
  · rw [hspells, resolve_eq_remnant_iff, overshoot_le_iff]
    rfl
  · calc
      normalize (normalize path) =
          ofComponents ((remnant path).spelling.foldl normalStep []).reverse := by
        rw [normalize, components_normalize]
      _ = ofComponents (remnant path).spelling := by rw [foldl_normalStep_spelling]
      _ = normalize path := by rw [normalize, foldl_normalStep_components]

/-- Two levels above the start are lost, and so is the root. -/
theorem normalize_loses :
    normalize "../../etc" = "etc" ∧ resolve "../../etc" = ⟨false, 2, ["etc"]⟩ ∧
      components (normalize "../../etc") ≠ (resolve "../../etc").spelling ∧
      normalize "/../etc" = "etc" ∧ resolve "/../etc" = ⟨true, 0, ["etc"]⟩ := by
  decide +kernel

end SheetPackages.Path
