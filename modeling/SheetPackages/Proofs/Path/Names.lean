import SheetPackages.Proofs.World.Growing

/-!
# Paths of names

A path of names has these names for its components and is its own normal form; joined to another
path, it adds them to the components there. This holds for every path that it is joined to, also
where that one is empty or ends with a slash.
-/

namespace SheetPackages.Path

/-- The names that a path consists of. -/
def names (path : String) : List String :=
  (Text.pieces '/' path.toList).map String.ofList

/-- The path of some names. -/
def ofNames (names : List String) : String :=
  String.ofList (Text.joined '/' (names.map String.toList))

theorem ofNames_names (path : String) : ofNames (names path) = path := by
  have hpieces : (names path).map String.toList = Text.pieces '/' path.toList := by
    rw [names, List.map_map]
    exact List.map_id'' (fun piece ↦ String.toList_ofList) _
  rw [ofNames, hpieces, Text.joined_pieces, String.ofList_toList]

theorem staysBelow_map_normal (names : List String) (depth : Nat) :
    staysBelow depth (names.map .normal) = true := by
  induction names generalizing depth with
  | nil => rfl
  | cons name rest ih => exact ih (depth + 1)

theorem foldl_normalStep_map_normal (names : List String) (before : List Component) :
    (names.map .normal).foldl normalStep before = (names.map .normal).reverse ++ before := by
  induction names generalizing before with
  | nil => rfl
  | cons name rest ih =>
    calc
      ((name :: rest).map .normal).foldl normalStep before =
          (rest.map .normal).foldl normalStep (.normal name :: before) := rfl
      _ = ((name :: rest).map .normal).reverse ++ before := by
        rw [ih, List.map_cons, List.reverse_cons, List.append_assoc]
        rfl

theorem toList_ne_nil_of_isName {name : String} (h : Files.IsName name) : name.toList ≠ [] := by
  intro hnil
  have htrivial := h.trivial
  rw [hnil] at htrivial
  cases htrivial

theorem isAbsolute_of_isName {name : String} (h : Files.IsName name) : isAbsolute name = false := by
  rw [isAbsolute, decide_eq_false_iff_not]
  exact fun hhead ↦ h.separator (List.mem_of_head? hhead)

/-- A text that ends with a name does not end with a slash. -/
theorem getLast?_append_ne {name : String} (h : Files.IsName name) (before : List Char) :
    (before ++ name.toList).getLast? ≠ some '/' := by
  rw [List.getLast?_append_of_ne_nil _ (toList_ne_nil_of_isName h)]
  exact fun hlast ↦ h.separator (List.mem_of_getLast? hlast)

/-- Names are joined with slashes between them. -/
theorem toList_foldl_join {base : String} {names : List String} (hbase : base.isEmpty = false)
    (hlast : base.toList.getLast? ≠ some '/') (hnames : ∀ name ∈ names, Files.IsName name) :
    ((names.map Component.normal).foldl (fun path c ↦ join path c.text) base).toList =
      Text.joined '/' (base.toList :: names.map String.toList) := by
  induction names generalizing base with
  | nil => rfl
  | cons name rest ih =>
    obtain ⟨hname, hrest⟩ := List.forall_mem_cons.mp hnames
    have hjoin : (join base name).toList = base.toList ++ '/' :: name.toList := by
      refine (Files.toList_join hbase hname).resolve_right ?_
      rintro ⟨before, hbefore, -⟩
      exact hlast (by rw [hbefore, List.getLast?_append]; rfl)
    have hnext : (join base name).toList.getLast? ≠ some '/' := by
      rw [hjoin, List.append_cons]
      exact getLast?_append_ne hname _
    calc
      ((rest.map Component.normal).foldl (fun path c ↦ join path c.text) (join base name)).toList =
          Text.joined '/' ((join base name).toList :: rest.map String.toList) :=
        ih (Files.isEmpty_join hbase hname) hnext hrest
      _ = base.toList ++ ['/'] ++ Text.joined '/' (name.toList :: rest.map String.toList) := by
        rw [hjoin, ← Text.joined_append, List.append_assoc]
        rfl
      _ = Text.joined '/' (base.toList :: name.toList :: rest.map String.toList) := by
        rw [List.append_assoc]
        rfl

theorem ofComponents_map_normal {names : List String} (hnames : ∀ name ∈ names, Files.IsName name) :
    ofComponents (names.map Component.normal) = ofNames names := by
  cases names with
  | nil => rfl
  | cons name rest =>
    obtain ⟨hname, hrest⟩ := List.forall_mem_cons.mp hnames
    have hfirst : join "" name = name := by
      rw [join, if_neg (Bool.eq_false_iff.mp (isAbsolute_of_isName hname)), if_pos (.inl rfl),
        String.empty_append]
    have hempty : name.isEmpty = false := by
      rw [Bool.eq_false_iff, Ne, String.isEmpty_iff, ← String.toList_eq_nil_iff]
      exact toList_ne_nil_of_isName hname
    rw [← String.toList_inj, ofNames, String.toList_ofList]
    change ((rest.map Component.normal).foldl (fun path c ↦ join path c.text)
      (join "" name)).toList = _
    rw [hfirst]
    exact toList_foldl_join hempty (getLast?_append_ne hname []) hrest

/-! ## Components -/

/-- What is behind the first piece matters to the component in front only by being there. -/
theorem leading_append_congr {first second third : List (List Char)} (hfirst : first ≠ [])
    (hsecond : second ≠ []) (hthird : third ≠ []) :
    leading (first ++ second) = leading (first ++ third) := by
  obtain ⟨piece, rest, rfl⟩ := List.exists_cons_of_ne_nil hfirst
  obtain ⟨_, _, rfl⟩ := List.exists_cons_of_ne_nil hsecond
  obtain ⟨_, _, rfl⟩ := List.exists_cons_of_ne_nil hthird
  cases rest <;> simp only [List.cons_append, List.nil_append] <;> unfold leading <;>
    split <;> simp_all

theorem leading_append {first : List (List Char)} (hfirst : first ≠ []) (hempty : first ≠ [[]])
    (second : List (List Char)) : leading (first ++ second) = leading first := by
  obtain ⟨piece, rest, rfl⟩ := List.exists_cons_of_ne_nil hfirst
  cases rest <;> simp only [List.cons_append, List.nil_append] <;> unfold leading <;>
    split <;> simp_all

theorem isAbsolute_of_leading {path : String} (h : leading (Text.pieces '/' path.toList) = []) :
    isAbsolute path = false := by
  rw [isAbsolute, decide_eq_false_iff_not]
  intro hhead
  obtain ⟨rest, hrest⟩ := List.head?_eq_some_iff.mp hhead
  obtain ⟨_, _, hmore⟩ := List.exists_cons_of_ne_nil (Text.pieces_ne_nil '/' rest)
  rw [hrest, Text.pieces, if_pos rfl, hmore] at h
  cases h

/-- A path that begins with neither the root nor a `.` adds its components to those of any other
path. -/
theorem components_join (base : String) {path : String}
    (h : leading (Text.pieces '/' path.toList) = []) :
    components (join base path) = components base ++ components path := by
  have hbehind : components path = ((Text.pieces '/' path.toList).filter fun piece ↦
      !isTrivial piece).map Component.ofPiece := congrArg (· ++ _) h
  rw [join, if_neg (Bool.eq_false_iff.mp (isAbsolute_of_leading h)), hbehind]
  split
  · next hends =>
    rcases hends with hempty | hlast
    · rw [String.isEmpty_iff] at hempty
      rw [hempty, String.empty_append, hbehind]
      rfl
    · obtain ⟨before, hbefore⟩ := List.getLast?_eq_some_iff.mp hlast
      have hleading := leading_append_congr (Text.pieces_ne_nil '/' before)
        (Text.pieces_ne_nil '/' path.toList) (List.cons_ne_nil [] [])
      simp only [components, String.toList_append, hbefore, List.append_assoc, List.singleton_append,
        Text.pieces_append, hleading, List.filter_append, List.map_append]
      simp [Text.pieces, isTrivial]
  · next hends =>
    have hempty : Text.pieces '/' base.toList ≠ [[]] := by
      intro heq
      have hjoined := Text.joined_pieces '/' base.toList
      rw [heq] at hjoined
      exact hends (.inl (String.isEmpty_iff.mpr (String.toList_eq_nil_iff.mp hjoined.symm)))
    have hleading := leading_append (Text.pieces_ne_nil '/' base.toList) hempty
      (Text.pieces '/' path.toList)
    have hslash : "/".toList = ['/'] := rfl
    simp only [components, String.toList_append, hslash, List.append_assoc, List.singleton_append,
      Text.pieces_append, hleading, List.filter_append, List.map_append]

theorem pieces_ofNames {names : List String} (hne : names ≠ [])
    (hnames : ∀ name ∈ names, Files.IsName name) :
    Text.pieces '/' (ofNames names).toList = names.map String.toList := by
  rw [ofNames, String.toList_ofList, Text.pieces_joined_of_not_mem]
  · exact fun hnil ↦ hne (List.map_eq_nil_iff.mp hnil)
  · exact List.forall_mem_map.mpr fun name hname ↦ (hnames name hname).separator

theorem leading_pieces_ofNames {names : List String} (hnames : ∀ name ∈ names, Files.IsName name) :
    leading (Text.pieces '/' (ofNames names).toList) = [] := by
  cases names with
  | nil => rfl
  | cons name rest =>
    have htrivial := (hnames name List.mem_cons_self).trivial
    rw [pieces_ofNames (List.cons_ne_nil name rest) hnames, List.map_cons]
    unfold leading
    split <;> simp_all [isTrivial]

theorem components_ofNames {names : List String} (hnames : ∀ name ∈ names, Files.IsName name) :
    components (ofNames names) = names.map .normal := by
  by_cases hne : names = []
  · subst hne
    rfl
  have hkept : (names.map String.toList).filter (fun piece ↦ !isTrivial piece) =
      names.map String.toList := by
    refine List.filter_eq_self.mpr (List.forall_mem_map.mpr fun name hname ↦ ?_)
    rw [(hnames name hname).trivial]
    rfl
  rw [components, leading_pieces_ofNames hnames, pieces_ofNames hne hnames, List.nil_append, hkept,
    List.map_map]
  refine List.map_congr_left fun name hname ↦ ?_
  rw [Function.comp_apply, Component.ofPiece, if_neg (hnames name hname).parent,
    String.ofList_toList]

theorem components_of_isName {name : String} (h : Files.IsName name) :
    components name = [.normal name] := by
  have hcomponents := components_ofNames (List.forall_mem_singleton.mpr h)
  rwa [show ofNames [name] = name from String.ofList_toList] at hcomponents

theorem components_join_name (base : String) {name : String} (h : Files.IsName name) :
    components (join base name) = components base ++ [.normal name] := by
  have hleading := leading_pieces_ofNames (List.forall_mem_singleton.mpr h)
  rw [show ofNames [name] = name from String.ofList_toList] at hleading
  rw [components_join base hleading, components_of_isName h]

end SheetPackages.Path
