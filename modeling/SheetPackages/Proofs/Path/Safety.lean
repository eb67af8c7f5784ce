import Mathlib.Data.List.Infix
import SheetPackages.Proofs.Path.Names

/-!
# Safe paths

Whether a path is safe is told with a counter, and its normal form is made with a stack. While the
counter stays above zero it is the height of the stack, and the stack has names only; so the normal
form of a safe path consists of names, and the path that it is joined to is kept whole. All of this
is about the components of paths: where a link among the files leads to is not described.
-/

namespace SheetPackages.Path

variable {path name : String} {components : List Component}

/-! ## The counter -/

def Component.isNormal : Component → Bool
  | .normal _ => true
  | _ => false

/-- A relative path, no beginning of which climbs above the start. -/
structure Grounded (path : String) : Prop where
  relative : isAbsolute path = false
  above : ∀ before, before <+: Path.components path →
    before.count .parent ≤ before.countP Component.isNormal

theorem forall_prefix_cons {c : Component} {p : List Component → Prop} :
    (∀ before, before <+: c :: components → p before) ↔
      p [] ∧ ∀ before, before <+: components → p (c :: before) := by
  simp only [List.prefix_cons_iff, or_imp, forall_and, forall_eq, forall_exists_index, and_imp]
  exact and_congr_right fun _ ↦ ⟨fun h before hbefore ↦ h _ before rfl hbefore,
    fun h _ before heq hbefore ↦ heq ▸ h before hbefore⟩

theorem staysBelow_iff {depth : Nat} : staysBelow depth components = true ↔
    .root ∉ components ∧ ∀ before, before <+: components →
      before.count .parent ≤ depth + before.countP Component.isNormal := by
  induction components generalizing depth with
  | nil => simp [staysBelow]
  | cons c rest ih =>
    rw [forall_prefix_cons]
    cases c with
    | root => simp [staysBelow]
    | current => simp [staysBelow, ih, Component.isNormal]
    | parent =>
      cases depth with
      | zero =>
        refine iff_of_false Bool.false_ne_true fun h ↦ ?_
        have hfirst := h.2.2 [] List.nil_prefix
        simp [Component.isNormal] at hfirst
      | succ depth =>
        simp [staysBelow, ih, Component.isNormal, Nat.add_right_comm depth 1]
    | normal name =>
      simp [staysBelow, ih, Component.isNormal, List.countP_cons, Nat.add_right_comm depth 1,
        Nat.add_assoc]

theorem root_notMem_map_ofPiece (pieces : List (List Char)) :
    .root ∉ pieces.map Component.ofPiece := by
  intro hmem
  obtain ⟨piece, _, hpiece⟩ := List.mem_map.mp hmem
  rw [Component.ofPiece] at hpiece
  split at hpiece <;> cases hpiece

theorem root_mem_components_iff : .root ∈ Path.components path ↔ isAbsolute path = true := by
  rw [Path.components, List.mem_append, or_iff_left (root_notMem_map_ofPiece _)]
  cases hpath : path.toList with
  | nil => simp [isAbsolute, hpath, Text.pieces, leading]
  | cons c rest =>
    by_cases hc : c = '/'
    · obtain ⟨piece, more, hmore⟩ := List.exists_cons_of_ne_nil (Text.pieces_ne_nil '/' rest)
      simp [isAbsolute, hpath, hc, Text.pieces, hmore, leading]
    · obtain ⟨piece, more, _, hpieces⟩ := Text.pieces_cons_of_ne hc rest
      rw [hpieces, isAbsolute, hpath]
      unfold leading
      split <;> simp_all

/-- A path is safe exactly if it is relative and nowhere climbs above its start. -/
theorem isSafe_iff (path : String) : isSafe path = true ↔ Grounded path := by
  rw [isSafe, staysBelow_iff, root_mem_components_iff, Bool.not_eq_true]
  simp only [Nat.zero_add]
  exact ⟨fun h ↦ ⟨h.1, h.2⟩, fun h ↦ ⟨h.relative, h.above⟩⟩

/-- The counter in a signed word of 32 bits, which begins again at the least number behind the
greatest one. -/
def staysBelowWord (depth : Int32) : List Component → Bool
  | [] => true
  | .current :: rest => staysBelowWord depth rest
  | .parent :: rest => if depth - 1 < 0 then false else staysBelowWord (depth - 1) rest
  | .normal _ :: rest => staysBelowWord (depth + 1) rest
  | .root :: _ => false

/-- Where the components can be counted in a word, the counter does not begin again. -/
theorem staysBelowWord_eq {word : Int32} {depth : Nat} (hword : word.toInt = depth)
    (hfits : depth + components.length < Decimal.bitLimit 31) :
    staysBelowWord word components = staysBelow depth components := by
  have hone : (1 : Int32).toInt = 1 := rfl
  have hlimit : Decimal.bitLimit 31 = 2147483648 := rfl
  induction components generalizing word depth with
  | nil => rfl
  | cons c rest ih =>
    rw [List.length_cons] at hfits
    cases c with
    | root => rfl
    | current => exact ih hword (by omega)
    | normal name =>
      have hmore : (word + 1).toInt = (depth + 1 : Nat) := by
        rw [Int32.toInt_add, hword, hone, Int.bmod_eq_of_le (by omega) (by omega)]
        rfl
      exact ih hmore (by omega)
    | parent =>
      have hless : (word - 1).toInt = depth - 1 := by
        rw [Int32.toInt_sub, hword, hone, Int.bmod_eq_of_le (by omega) (by omega)]
      have hunder : word - 1 < 0 ↔ depth = 0 := by
        have hzero : (0 : Int32).toInt = 0 := rfl
        rw [Int32.lt_iff_toInt_lt, hless, hzero]
        omega
      rw [staysBelowWord]
      cases depth with
      | zero => exact if_pos (hunder.mpr rfl)
      | succ depth =>
        rw [if_neg (mt hunder.mp (Nat.succ_ne_zero depth))]
        exact ih (hless.trans (by omega)) (by omega)

/-! ## The stack -/

/-- One component keeps the stack free of all but names, and its height with the counter. -/
theorem normalStep_of_staysBelow {c : Component} {names : List String}
    (h : staysBelow names.length (c :: components) = true) : ∃ left : List String,
      normalStep (names.map .normal) c = left.map .normal ∧
      staysBelow left.length components = true ∧ ∀ name ∈ left, name ∈ names ∨ c = .normal name := by
  cases c with
  | root => cases h
  | current => exact ⟨names, rfl, h, fun name hname ↦ .inl hname⟩
  | parent =>
    cases names with
    | nil => cases h
    | cons top rest => exact ⟨rest, rfl, h, fun name hname ↦ .inl (List.mem_cons_of_mem top hname)⟩
  | normal new =>
    refine ⟨new :: names, rfl, h, fun name hname ↦ ?_⟩
    exact (List.mem_cons.mp hname).symm.imp_right fun heq ↦ congrArg Component.normal heq.symm

theorem foldl_normalStep_of_staysBelow {names : List String}
    (h : staysBelow names.length components = true) : ∃ left : List String,
      components.foldl normalStep (names.map .normal) = left.map .normal ∧
      ∀ name ∈ left, name ∈ names ∨ .normal name ∈ components := by
  induction components generalizing names with
  | nil => exact ⟨names, rfl, fun name hname ↦ .inl hname⟩
  | cons c rest ih =>
    obtain ⟨next, hstep, hrest, hnext⟩ := normalStep_of_staysBelow h
    obtain ⟨left, hleft, hmem⟩ := ih hrest
    refine ⟨left, ?_, fun name hname ↦ ?_⟩
    · rw [List.foldl_cons, hstep, hleft]
    · rcases hmem name hname with hold | hlater
      · refine (hnext name hold).imp_right fun heq ↦ ?_
        rw [heq]
        exact List.mem_cons_self
      · exact .inr (List.mem_cons_of_mem c hlater)

theorem isName_of_mem_components (h : .normal name ∈ Path.components path) :
    Files.IsName name := by
  rcases List.mem_append.mp h with hleading | hkept
  · unfold leading at hleading
    split at hleading <;> simp at hleading
  · obtain ⟨piece, hpiece, hname⟩ := List.mem_map.mp hkept
    obtain ⟨hpiece, htrivial⟩ := List.mem_filter.mp hpiece
    rw [Component.ofPiece] at hname
    split at hname
    · cases hname
    · next hparent =>
      cases hname
      constructor <;> rw [String.toList_ofList]
      · exact Text.not_mem_of_mem_pieces piece hpiece
      · exact (Bool.not_eq_true' _).mp htrivial
      · exact hparent

/-- The normal form of a safe path consists of names that are in the path. -/
theorem exists_normalize (h : isSafe path = true) : ∃ names : List String,
    (∀ name ∈ names, .normal name ∈ Path.components path) ∧ normalize path = ofNames names := by
  obtain ⟨left, hleft, hmem⟩ := @foldl_normalStep_of_staysBelow _ [] h
  have hnames : ∀ name ∈ left.reverse, .normal name ∈ Path.components path := fun name hname ↦
    (hmem name (List.mem_reverse.mp hname)).resolve_left List.not_mem_nil
  refine ⟨left.reverse, hnames, ?_⟩
  rw [normalize]
  change ofComponents ((Path.components path).foldl normalStep ([].map .normal)).reverse = _
  rw [hleft, ← List.map_reverse,
    ofComponents_map_normal fun name hname ↦ isName_of_mem_components (hnames name hname)]

/-! ## Joined paths -/

/-- A path whose components are those of `base` and names behind them. -/
def Below (base path : String) : Prop :=
  ∃ names : List String, (∀ name ∈ names, Files.IsName name) ∧
    Path.components path = Path.components base ++ names.map .normal

theorem below_join (base : String) {names : List String}
    (hnames : ∀ name ∈ names, Files.IsName name) : Below base (join base (ofNames names)) := by
  refine ⟨names, hnames, ?_⟩
  rw [components_join base (leading_pieces_ofNames hnames), components_ofNames hnames]

theorem below_of_safeJoin {base joined : String} (h : safeJoin base path = .ok joined) :
    Below base joined := by
  rw [safeJoin] at h
  split at h
  · next hsafe =>
    cases h
    obtain ⟨names, hnames, hnormal⟩ := exists_normalize hsafe
    rw [hnormal]
    exact below_join base fun name hname ↦ isName_of_mem_components (hnames name hname)
  · cases h

/-- What is told of a path, and what becomes of it when it is joined to `base`. -/
structure Fenced (base path : String) : Prop where
  safe_iff : isSafe path = true ↔ Grounded path
  /-- A counter of 32 bits tells the same of all paths that it can count. -/
  counted : (Path.components path).length < Decimal.bitLimit 31 →
    staysBelowWord 0 (Path.components path) = isSafe path
  joined : isSafe path = true → ∃ joined, safeJoin base path = .ok joined ∧ Below base joined
  refused : isSafe path = false → safeJoin base path = .error (.unsafePath path)

theorem fenced (base path : String) : Fenced base path where
  safe_iff := isSafe_iff path
  counted hfits := staysBelowWord_eq rfl ((Nat.zero_add _).trans_lt hfits)
  joined h := ⟨join base (normalize path), if_pos h, below_of_safeJoin (if_pos h)⟩
  refused h := if_neg (Bool.eq_false_iff.mp h)

end SheetPackages.Path
