import SheetPackages.Formula.Rename
import SheetPackages.Proofs.Formula.Leaves

/-!
# Sites of tokens

A token of a tree together with the slices that enclose it, and what these say about a name there:
whether the place belongs to a declaration, and which names are bound. The sites of a tree are its
tokens from left to right. None of this refers to how the renamer walks.
-/

namespace SheetPackages.Formula

/-- A call that encloses some place, with the slice that the place lies in. -/
structure Frame where
  name : Token
  slices : List (List Node)
  index : Nat

/-- A token with the frames around it, the innermost first. -/
structure Site where
  token : Token
  /-- Whether the token is the name of a call. -/
  callee : Bool
  frames : List Frame

mutual

/-- The sites of a node inside some frames. -/
def Node.sites (around : List Frame) : Node → List Site
  | .leaf t => [⟨t, false, around⟩]
  | .call name space opening slices closing =>
    ⟨name, true, around⟩ :: space.map (⟨·, false, around⟩) ++ ⟨opening, false, around⟩ ::
      sitesInSlices around name slices 0 slices ++ closing.toList.map (⟨·, false, around⟩)

def sitesIn (around : List Frame) : List Node → List Site
  | [] => []
  | node :: rest => node.sites around ++ sitesIn around rest

/-- The sites of the slices of a call from the one at `index` on. -/
def sitesInSlices (around : List Frame) (name : Token) (slices : List (List Node)) (index : Nat) :
    List (List Node) → List Site
  | [] => []
  | slice :: rest => sitesIn (⟨name, slices, index⟩ :: around) slice ++
      sitesInSlices around name slices (index + 1) rest

end

/-- The sites of a formula text. -/
def sitesOf (formula : String) : List Site :=
  sitesIn [] (parse formula)

namespace Frame

def form (f : Frame) : CallForm :=
  CallForm.of f.name

/-- Slice `i` is a declaration: in `LET` at an even place, in `LAMBDA` anywhere, but not the last
slice. -/
def Declares (f : Frame) (i : Nat) : Prop :=
  i + 1 < f.slices.length ∧ (f.form = .lambda ∨ f.form = .letForm ∧ i % 2 = 0)

/-- What slice `i` declares is bound in the slice of the frame: in `LET` behind the value that
follows the declaration, in `LAMBDA` in the last slice. -/
def Reaches (f : Frame) (i : Nat) : Prop :=
  f.form = .letForm ∧ i + 1 < f.index ∨ f.form = .lambda ∧ f.index + 1 = f.slices.length

/-- The name that slice `i` declares, if it is a declaration. -/
def declared? (f : Frame) (i : Nat) : Option String :=
  f.slices[i]?.bind declaredName?

def Binds (f : Frame) (name : String) : Prop :=
  ∃ i < f.slices.length, f.Declares i ∧ f.Reaches i ∧ f.declared? i = some name

instance (f : Frame) (i : Nat) : Decidable (f.Declares i) :=
  inferInstanceAs (Decidable (_ ∧ _))

instance (f : Frame) (i : Nat) : Decidable (f.Reaches i) :=
  inferInstanceAs (Decidable (_ ∨ _))

instance (f : Frame) (name : String) : Decidable (f.Binds name) :=
  inferInstanceAs (Decidable (∃ i < f.slices.length, _))

end Frame

namespace Site

/-- The token is the word `LET` or `LAMBDA` of a call. -/
def IsFormWord (s : Site) : Prop :=
  s.callee = true ∧ CallForm.of s.token ≠ .ordinary

/-- No enclosing call has the site in a declaration or binds the text of its token. -/
def Free (s : Site) : Prop :=
  ∀ f ∈ s.frames, ¬f.Declares f.index ∧ ¬f.Binds s.token.text

def Renamed (m : RenameMap) (s : Site) : Prop :=
  s.token.kind = .identifier ∧ m.contains s.token.text = true ∧ ¬s.IsFormWord ∧ s.Free

instance (s : Site) : Decidable s.IsFormWord :=
  inferInstanceAs (Decidable (_ ∧ _))

instance (s : Site) : Decidable s.Free :=
  inferInstanceAs (Decidable (∀ f ∈ s.frames, _))

instance (m : RenameMap) (s : Site) : Decidable (s.Renamed m) :=
  inferInstanceAs (Decidable (_ ∧ _))

/-- The text at the site once identifiers have been renamed. -/
def textUnder (m : RenameMap) (s : Site) : String :=
  if s.Renamed m then (m.get? s.token.text).getD s.token.text else s.token.text

end Site

/-! ## Sites and tokens -/

theorem map_token_sitesIn {around : List Frame} {nodes : List Node}
    (h : ∀ node ∈ nodes, (node.sites around).map Site.token = node.tokens) :
    (sitesIn around nodes).map Site.token = tokensOf nodes := by
  induction nodes with
  | nil => rfl
  | cons node rest ih =>
    obtain ⟨hnode, hrest⟩ := List.forall_mem_cons.mp h
    rw [sitesIn, List.map_append, hnode, ih hrest, tokensOf_cons]

theorem map_token_sitesInSlices {around : List Frame} {name : Token} {all slices : List (List Node)}
    (h : ∀ slice ∈ slices, ∀ node ∈ slice, ∀ around, (node.sites around).map Site.token = node.tokens)
    (index : Nat) :
    (sitesInSlices around name all index slices).map Site.token = slices.flatMap tokensOf := by
  induction slices generalizing index with
  | nil => rfl
  | cons slice rest ih =>
    obtain ⟨hslice, hrest⟩ := List.forall_mem_cons.mp h
    rw [sitesInSlices, List.map_append, ih hrest, List.flatMap_cons,
      map_token_sitesIn fun node hnode ↦ hslice node hnode _]

theorem Node.map_token_sites (node : Node) :
    ∀ around, (node.sites around).map Site.token = node.tokens := by
  induction node using Node.induct with
  | hleaf t => exact fun _ ↦ rfl
  | hcall name space opening slices closing ih =>
    intro around
    rw [Node.sites, Node.tokens_call]
    simp only [List.map_append, List.map_cons, List.map_map, map_token_sitesInSlices ih]
    simp [Function.comp_def]

/-- The sites of a tree are its tokens in their order. -/
theorem map_token_sitesIn_eq (around : List Frame) (nodes : List Node) :
    (sitesIn around nodes).map Site.token = tokensOf nodes :=
  map_token_sitesIn fun node _ ↦ node.map_token_sites around

theorem frames_of_mem_sitesIn {around : List Frame} {nodes : List Node} {f : Frame}
    (h : ∀ node ∈ nodes, ∀ s ∈ node.sites around, f ∈ s.frames) :
    ∀ s ∈ sitesIn around nodes, f ∈ s.frames := by
  induction nodes with
  | nil => exact fun _ hs ↦ absurd hs List.not_mem_nil
  | cons node rest ih =>
    obtain ⟨hnode, hrest⟩ := List.forall_mem_cons.mp h
    rw [sitesIn]
    exact List.forall_mem_append.mpr ⟨hnode, ih hrest⟩

theorem frames_of_mem_sitesInSlices {around : List Frame} {name : Token}
    {all slices : List (List Node)} {f : Frame} (hf : f ∈ around)
    (h : ∀ slice ∈ slices, ∀ node ∈ slice, ∀ around, f ∈ around →
      ∀ s ∈ node.sites around, f ∈ s.frames) (index : Nat) :
    ∀ s ∈ sitesInSlices around name all index slices, f ∈ s.frames := by
  induction slices generalizing index with
  | nil => exact fun _ hs ↦ absurd hs List.not_mem_nil
  | cons slice rest ih =>
    obtain ⟨hslice, hrest⟩ := List.forall_mem_cons.mp h
    rw [sitesInSlices]
    refine List.forall_mem_append.mpr ⟨frames_of_mem_sitesIn fun node hnode ↦ ?_, ih hrest _⟩
    exact hslice node hnode _ (List.mem_cons_of_mem _ hf)

/-- The frames around a node are around all its sites. -/
theorem Node.frames_of_mem_sites (node : Node) (f : Frame) :
    ∀ around, f ∈ around → ∀ s ∈ node.sites around, f ∈ s.frames := by
  induction node using Node.induct with
  | hleaf t =>
    intro around hf s hs
    rw [List.mem_singleton.mp hs]
    exact hf
  | hcall name space opening slices closing ih =>
    intro around hf s hs
    rw [Node.sites] at hs
    simp only [List.cons_append, List.mem_cons, List.mem_append, List.mem_map] at hs
    rcases hs with rfl | (⟨t, _, rfl⟩ | rfl | hs) | ⟨t, _, rfl⟩
    · exact hf
    · exact hf
    · exact hf
    · exact frames_of_mem_sitesInSlices hf ih 0 s hs
    · exact hf

end SheetPackages.Formula
