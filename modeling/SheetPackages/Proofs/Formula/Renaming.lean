import SheetPackages.Proofs.Formula.Reading
import SheetPackages.Proofs.Formula.Sites

/-!
# Renaming by sites

The renamer walks a tree with the scope of the names bound so far. What it does to a token depends
on the site of the token alone: the token is renamed when it is an identifier on the map which is
free there and not the word of a binding form, and is kept otherwise. A scope stands for the frames
around a place when it holds just the names that they bind and no frame has the place in a
declaration; the walk keeps it so on every way down the tree.
-/

namespace SheetPackages.Formula

/-! ## Scopes -/

theorem Scope.contains_bind (s : Scope) (name other : String) :
    (s.bind name).contains other = true ↔ s.contains other = true ∨ other = name := by
  unfold Scope.bind
  split
  · next h =>
    constructor
    · exact .inl
    · rintro (hother | rfl)
      · exact hother
      · exact h
  · simp only [contains, List.contains_iff_mem, List.mem_cons]
    exact or_comm

theorem Scope.contains_bind? (s : Scope) (declared : Option String) (other : String) :
    (s.bind? declared).contains other = true ↔
      s.contains other = true ∨ declared = some other := by
  cases declared with
  | none => simp [Scope.bind?]
  | some name => rw [Scope.bind?, contains_bind, Option.some.injEq, eq_comm (a := other)]

/-- The scope stands for the frames around a place outside their declarations. -/
structure Stands (scope : Scope) (around : List Frame) : Prop where
  outside : ∀ f ∈ around, ¬f.Declares f.index
  bound : ∀ name, scope.contains name = true ↔ ∃ f ∈ around, f.Binds name

theorem Stands.nil : Stands {} [] where
  outside f hf := absurd hf List.not_mem_nil
  bound name := by simp [Scope.contains]

theorem Stands.cons {inner scope : Scope} {around : List Frame} (h : Stands scope around)
    {f : Frame} (houtside : ¬f.Declares f.index)
    (hbound : ∀ name, inner.contains name = true ↔ scope.contains name = true ∨ f.Binds name) :
    Stands inner (f :: around) where
  outside := List.forall_mem_cons.mpr ⟨houtside, h.outside⟩
  bound name := by
    rw [hbound, h.bound, or_comm]
    simp only [List.mem_cons, exists_eq_or_imp]

/-- An ordinary call neither declares nor binds anything. -/
theorem Stands.ordinary {scope : Scope} {around : List Frame} (h : Stands scope around) {f : Frame}
    (hform : f.form = .ordinary) : Stands scope (f :: around) := by
  have hdeclares (i : Nat) : ¬f.Declares i := by simp [Frame.Declares, hform]
  refine h.cons (hdeclares _) fun name ↦ ⟨.inl, ?_⟩
  rintro (hname | ⟨i, _, hdeclared, _⟩)
  · exact hname
  · exact absurd hdeclared (hdeclares i)

/-! ## Single tokens -/

variable {m : RenameMap}

theorem Site.textUnder_of_not_renamed {s : Site} (h : ¬s.Renamed m) :
    s.textUnder m = s.token.text :=
  if_neg h

theorem Site.get?_textUnder {s : Site} (h : s.Renamed m) :
    m.get? s.token.text = some (s.textUnder m) := by
  obtain ⟨new, hnew⟩ := Option.isSome_iff_exists.mp h.2.1
  rw [textUnder, if_pos h, hnew, Option.getD_some]

theorem Site.textUnder_of_not_identifier {s : Site} (h : s.token.kind ≠ .identifier) :
    s.textUnder m = s.token.text :=
  if_neg fun hrenamed ↦ h hrenamed.1

theorem Site.textUnder_of_declares {s : Site} {f : Frame} (hmem : f ∈ s.frames)
    (h : f.Declares f.index) : s.textUnder m = s.token.text :=
  if_neg fun hrenamed ↦ (hrenamed.2.2.2 f hmem).1 h

theorem Site.textUnder_of_isFormWord {s : Site} (h : s.IsFormWord) :
    s.textUnder m = s.token.text :=
  if_neg fun hrenamed ↦ hrenamed.2.2.1 h

/-- The renamer treats a token by its site. -/
theorem textUnder_eq_renameToken {scope : Scope} {around : List Frame} (h : Stands scope around)
    (t : Token) (callee : Bool) (hword : ¬Site.IsFormWord ⟨t, callee, around⟩) :
    Site.textUnder m ⟨t, callee, around⟩ = (renameToken m scope t).text := by
  have hfree : Site.Free ⟨t, callee, around⟩ ↔ ¬scope.contains t.text = true := by
    rw [h.bound]
    constructor
    · rintro hfree ⟨f, hf, hbinds⟩
      exact (hfree f hf).2 hbinds
    · intro hunbound f hf
      exact ⟨h.outside f hf, fun hbinds ↦ hunbound ⟨f, hf, hbinds⟩⟩
  simp only [Site.textUnder, Site.Renamed, hfree, hword, not_false_eq_true, true_and, renameToken]
  by_cases hplace : t.kind = .identifier ∧ ¬scope.contains t.text = true
  · rw [if_pos hplace]
    cases hm : m.get? t.text with
    | some new => simp [hplace, OrderedMap.contains, hm, Token.withText]
    | none => simp [OrderedMap.contains, hm]
  · rw [if_neg hplace, if_neg fun hall ↦ hplace ⟨hall.1, hall.2.2⟩]

/-- Tokens between the slices of a call keep their texts. -/
theorem map_textUnder_of_kind {kind : TokenKind} (hkind : kind ≠ .identifier) {tokens : List Token}
    (h : ∀ t ∈ tokens, t.kind = kind) (around : List Frame) :
    (tokens.map fun t ↦ Site.textUnder m ⟨t, false, around⟩) = tokens.map Token.text :=
  List.map_congr_left fun t ht ↦ Site.textUnder_of_not_identifier ((h t ht).symm ▸ hkind)

/-- The texts in a declaration are kept. -/
theorem textUnder_of_declaration {f : Frame} (h : f.Declares f.index) (around : List Frame)
    (nodes : List Node) :
    (sitesIn (f :: around) nodes).map (Site.textUnder m) = (tokensOf nodes).map Token.text := by
  have hframes : ∀ s ∈ sitesIn (f :: around) nodes, f ∈ s.frames :=
    frames_of_mem_sitesIn fun node _ ↦ node.frames_of_mem_sites f _ List.mem_cons_self
  calc
    (sitesIn (f :: around) nodes).map (Site.textUnder m) =
        (sitesIn (f :: around) nodes).map (Token.text ∘ Site.token) :=
      List.map_congr_left fun s hs ↦ Site.textUnder_of_declares (hframes s hs) h
    _ = (tokensOf nodes).map Token.text := by rw [← List.map_map, map_token_sitesIn_eq]

/-! ## Slices -/

/-- In every scope that stands for the frames around it, the node is renamed by its sites. -/
def RenamedBySites (m : RenameMap) (node : Node) : Prop :=
  ∀ scope around, Stands scope around →
    (node.sites around).map (Site.textUnder m) = (renameNode m scope node).tokens.map Token.text

theorem textUnder_eq_renameNodes {nodes : List Node} (h : ∀ node ∈ nodes, RenamedBySites m node)
    {scope : Scope} {around : List Frame} (hstands : Stands scope around) :
    (sitesIn around nodes).map (Site.textUnder m) =
      (tokensOf (renameNodes m scope nodes)).map Token.text := by
  induction nodes with
  | nil => rfl
  | cons node rest ih =>
    obtain ⟨hnode, hrest⟩ := List.forall_mem_cons.mp h
    rw [sitesIn, renameNodes, tokensOf_cons, List.map_append, List.map_append, ih hrest,
      hnode scope around hstands]

theorem textUnder_eq_renameSlices {name : Token} (hform : CallForm.of name = .ordinary)
    {scope : Scope} {around : List Frame} (hstands : Stands scope around)
    {all slices : List (List Node)} (h : ∀ slice ∈ slices, ∀ node ∈ slice, RenamedBySites m node)
    (index : Nat) :
    (sitesInSlices around name all index slices).map (Site.textUnder m) =
      ((renameSlices m scope slices).flatMap tokensOf).map Token.text := by
  induction slices generalizing index with
  | nil => rfl
  | cons slice rest ih =>
    obtain ⟨hslice, hrest⟩ := List.forall_mem_cons.mp h
    rw [sitesInSlices, renameSlices, List.flatMap_cons, List.map_append, List.map_append,
      ih hrest, textUnder_eq_renameNodes hslice (hstands.ordinary (f := ⟨name, all, index⟩) hform)]

/-- The inner scope adds to the outer one the names that slices before `index` declare, as far as
these slices count. -/
def Adds (counts : Nat → Prop) (slices : List (List Node)) (index : Nat) (scope inner : Scope) :
    Prop :=
  ∀ name, inner.contains name = true ↔ scope.contains name = true ∨
    ∃ i < index, counts i ∧ slices[i]?.bind declaredName? = some name

theorem Adds.zero (counts : Nat → Prop) (slices : List (List Node)) (scope : Scope) :
    Adds counts slices 0 scope scope := by
  intro name
  simp

theorem Adds.bind {counts : Nat → Prop} {slices : List (List Node)} {index : Nat}
    {scope inner : Scope} (h : Adds counts slices index scope inner) {slice : List Node}
    (hget : slices[index]? = some slice) (hcounts : counts index) :
    Adds counts slices (index + 1) scope (inner.bind? (declaredName? slice)) := by
  intro name
  rw [Scope.contains_bind?, h name, or_assoc]
  apply or_congr_right
  constructor
  · rintro (⟨i, hi, hname⟩ | hname)
    · exact ⟨i, Nat.lt_succ_of_lt hi, hname⟩
    · exact ⟨index, Nat.lt_succ_self index, hcounts, by rw [hget]; exact hname⟩
  · rintro ⟨i, hi, hcount, hname⟩
    rcases Nat.lt_succ_iff_lt_or_eq.mp hi with hi | rfl
    · exact .inl ⟨i, hi, hcount, hname⟩
    · rw [hget] at hname
      exact .inr hname

theorem Adds.skip {counts : Nat → Prop} {slices : List (List Node)} {index : Nat}
    {scope inner : Scope} (h : Adds counts slices index scope inner) (hcounts : ¬counts index) :
    Adds counts slices (index + 1) scope inner := by
  intro name
  rw [h name]
  apply or_congr_right
  constructor
  · rintro ⟨i, hi, hname⟩
    exact ⟨i, Nat.lt_succ_of_lt hi, hname⟩
  · rintro ⟨i, hi, hcount, hname⟩
    rcases Nat.lt_succ_iff_lt_or_eq.mp hi with hi | rfl
    · exact ⟨i, hi, hcount, hname⟩
    · exact absurd hcount hcounts

/-- In a value or the body of `LET`, the scope holds what is declared at even places before. -/
theorem Stands.letSlice {scope inner : Scope} {around : List Frame} (h : Stands scope around)
    {f : Frame} (hform : f.form = .letForm) (hindex : f.index < f.slices.length)
    (houtside : ¬f.Declares f.index) {k : Nat} (heven : k % 2 = 0)
    (hk : f.index = k ∨ f.index = k + 1) (hadds : Adds (· % 2 = 0) f.slices k scope inner) :
    Stands inner (f :: around) := by
  apply h.cons houtside
  intro name
  rw [hadds name]
  apply or_congr_right
  constructor
  · rintro ⟨i, hi, hcount, hname⟩
    exact ⟨i, by omega, ⟨by omega, .inr ⟨hform, hcount⟩⟩, .inl ⟨hform, by omega⟩, hname⟩
  · rintro ⟨i, _, hdeclares, hreaches, hname⟩
    have hi : i + 1 < f.slices.length ∧ i % 2 = 0 := by
      simpa [Frame.Declares, hform] using hdeclares
    have hbefore : i + 1 < f.index := by simpa [Frame.Reaches, hform] using hreaches
    exact ⟨i, by omega, hi.2, hname⟩

/-- In the body of `LAMBDA`, the scope holds all its parameters. -/
theorem Stands.lambdaBody {scope inner : Scope} {around : List Frame} (h : Stands scope around)
    {f : Frame} (hform : f.form = .lambda) (hindex : f.index + 1 = f.slices.length)
    (hadds : Adds (fun _ ↦ True) f.slices f.index scope inner) : Stands inner (f :: around) := by
  have houtside : ¬f.Declares f.index := fun hdeclares ↦ by
    have := hdeclares.1
    omega
  apply h.cons houtside
  intro name
  rw [hadds name]
  apply or_congr_right
  constructor
  · rintro ⟨i, hi, _, hname⟩
    exact ⟨i, by omega, ⟨by omega, .inl hform⟩, .inr ⟨hform, hindex⟩, hname⟩
  · rintro ⟨i, _, hdeclares, _, hname⟩
    have hi : i + 1 < f.slices.length := hdeclares.1
    exact ⟨i, by omega, trivial, hname⟩

theorem getElem?_of_drop {slices rest : List (List Node)} {index : Nat} {slice : List Node}
    (h : slices.drop index = slice :: rest) :
    slices[index]? = some slice ∧ slices.drop (index + 1) = rest ∧
      slices.length = index + 1 + rest.length := by
  refine ⟨by rw [← List.head?_drop, h]; rfl, by rw [← List.tail_drop, h]; rfl, ?_⟩
  have hlength : slices.length - index = rest.length + 1 := by
    rw [← List.length_drop, h, List.length_cons]
  omega

/-- The slices of `LET` from an even place on, in a scope that adds what those before declare. -/
theorem textUnder_eq_renameLet {name : Token} (hform : CallForm.of name = .letForm)
    {scope : Scope} {around : List Frame} (hstands : Stands scope around)
    {all : List (List Node)} : ∀ (slices : List (List Node)) (index : Nat) (inner : Scope),
    all.drop index = slices → index % 2 = 0 → Adds (· % 2 = 0) all index scope inner →
    (∀ slice ∈ slices, ∀ node ∈ slice, RenamedBySites m node) →
    (sitesInSlices around name all index slices).map (Site.textUnder m) =
      ((renameLet m inner slices).flatMap tokensOf).map Token.text
  | [], _, _, _, _, _, _ => rfl
  | [body], index, inner, hdrop, heven, hadds, h => by
    obtain ⟨_, _, hlength⟩ := getElem?_of_drop hdrop
    have hlast : all.length = index + 1 := hlength
    have houtside : ¬Frame.Declares ⟨name, all, index⟩ index := fun hdeclares ↦
      Nat.lt_irrefl all.length (hlast ▸ hdeclares.1)
    have hbody : Stands inner (⟨name, all, index⟩ :: around) :=
      hstands.letSlice hform (hlast ▸ Nat.lt_succ_self index) houtside heven (.inl rfl) hadds
    rw [sitesInSlices, sitesInSlices, renameLet, List.append_nil, List.flatMap_singleton,
      textUnder_eq_renameNodes (h body List.mem_cons_self) hbody]
  | declaration :: value :: rest, index, inner, hdrop, heven, hadds, h => by
    obtain ⟨hget, hvalues, hlength⟩ := getElem?_of_drop hdrop
    obtain ⟨_, hrest, _⟩ := getElem?_of_drop hvalues
    have hlt : index + 1 < all.length := by
      rw [hlength, List.length_cons]
      omega
    have hodd : ¬(index + 1) % 2 = 0 := by omega
    have hdeclaration : Frame.Declares ⟨name, all, index⟩ index := ⟨hlt, .inr ⟨hform, heven⟩⟩
    have houtside : ¬Frame.Declares ⟨name, all, index + 1⟩ (index + 1) := by
      rintro ⟨_, hlambda | ⟨_, heven'⟩⟩
      · exact absurd (hform.symm.trans hlambda) (by decide)
      · exact hodd heven'
    have hvalue : Stands inner (⟨name, all, index + 1⟩ :: around) :=
      hstands.letSlice hform hlt houtside heven (.inr rfl) hadds
    have hnext := (hadds.bind hget heven).skip hodd
    have hmembers : ∀ slice ∈ rest, ∀ node ∈ slice, RenamedBySites m node := fun slice hslice ↦
      h slice (List.mem_cons_of_mem _ (List.mem_cons_of_mem _ hslice))
    rw [sitesInSlices, sitesInSlices, renameLet]
    simp only [List.map_append, List.flatMap_cons]
    rw [textUnder_of_declaration hdeclaration, textUnder_eq_renameNodes (h value (by simp)) hvalue,
      textUnder_eq_renameLet hform hstands rest (index + 2) _ hrest (by omega) hnext hmembers]

/-- The slices of `LAMBDA` from some place on, in a scope that adds the parameters before it. -/
theorem textUnder_eq_renameLambda {name : Token} (hform : CallForm.of name = .lambda)
    {scope : Scope} {around : List Frame} (hstands : Stands scope around)
    {all : List (List Node)} : ∀ (slices : List (List Node)) (index : Nat) (inner : Scope),
    all.drop index = slices → Adds (fun _ ↦ True) all index scope inner →
    (∀ slice ∈ slices, ∀ node ∈ slice, RenamedBySites m node) →
    (sitesInSlices around name all index slices).map (Site.textUnder m) =
      ((renameLambda m inner slices).flatMap tokensOf).map Token.text
  | [], _, _, _, _, _ => rfl
  | [body], index, inner, hdrop, hadds, h => by
    obtain ⟨_, _, hlength⟩ := getElem?_of_drop hdrop
    have hbody : Stands inner (⟨name, all, index⟩ :: around) :=
      hstands.lambdaBody hform hlength.symm hadds
    rw [sitesInSlices, sitesInSlices, renameLambda, List.append_nil, List.flatMap_singleton,
      textUnder_eq_renameNodes (h body List.mem_cons_self) hbody]
  | parameter :: body :: rest, index, inner, hdrop, hadds, h => by
    obtain ⟨hget, hrest, hlength⟩ := getElem?_of_drop hdrop
    have hlt : index + 1 < all.length := by
      rw [hlength, List.length_cons]
      omega
    have hparameter : Frame.Declares ⟨name, all, index⟩ index := ⟨hlt, .inl hform⟩
    have hmembers : ∀ slice ∈ body :: rest, ∀ node ∈ slice, RenamedBySites m node :=
      fun slice hslice ↦ h slice (List.mem_cons_of_mem _ hslice)
    rw [sitesInSlices, renameLambda]
    simp only [List.map_append, List.flatMap_cons]
    rw [textUnder_of_declaration hparameter, textUnder_eq_renameLambda hform hstands
      (body :: rest) (index + 1) _ hrest (hadds.bind hget trivial) hmembers]

/-! ## Trees -/

/-- Every delimited node is renamed by its sites. -/
theorem renamedBySites_of_delimited {node : Node} (h : node.Delimited) : RenamedBySites m node := by
  induction h with
  | leaf t =>
    intro scope around hstands
    have hword : ¬Site.IsFormWord ⟨t, false, around⟩ := fun hword ↦ by cases hword.1
    rw [Node.sites, List.map_singleton, textUnder_eq_renameToken hstands t false hword, renameNode,
      Node.tokens_leaf, List.map_singleton]
  | @call name space opening slices closing hname hspace hopening hclosing _ ih =>
    intro scope around hstands
    have hclosing' : ∀ t ∈ closing.toList, t.kind = .closeParen := by simpa using hclosing
    have hopening' : Site.textUnder m ⟨opening, false, around⟩ = opening.text :=
      Site.textUnder_of_not_identifier (by simp [hopening])
    rw [Node.sites]
    simp only [List.map_append, List.map_cons, List.map_map, Function.comp_def, hopening',
      map_textUnder_of_kind (m := m) (by decide) hspace around,
      map_textUnder_of_kind (m := m) (by decide) hclosing' around]
    rw [renameNode]
    cases hform : CallForm.of name with
    | letForm =>
      have hword : Site.IsFormWord ⟨name, true, around⟩ := ⟨rfl, by simp [hform]⟩
      rw [Site.textUnder_of_isFormWord hword,
        textUnder_eq_renameLet hform hstands slices 0 scope rfl rfl (.zero _ _ _) ih]
      simp
    | lambda =>
      have hword : Site.IsFormWord ⟨name, true, around⟩ := ⟨rfl, by simp [hform]⟩
      rw [Site.textUnder_of_isFormWord hword,
        textUnder_eq_renameLambda hform hstands slices 0 scope rfl (.zero _ _ _) ih]
      simp
    | ordinary =>
      have hword : ¬Site.IsFormWord ⟨name, true, around⟩ := fun hword ↦ hword.2 hform
      rw [textUnder_eq_renameToken hstands name true hword,
        textUnder_eq_renameSlices hform hstands ih 0]
      simp

theorem map_token_sitesOf (formula : String) :
    (sitesOf formula).map Site.token = tokenize formula := by
  rw [sitesOf, map_token_sitesIn_eq, parse, tokensOf_ofTokens]

/-- The tokens of the renamed tree of a text. -/
def renamedTokens (m : RenameMap) (formula : String) : List Token :=
  tokensOf (renameNodes m {} (parse formula))

theorem map_text_renamedTokens (m : RenameMap) (formula : String) :
    (renamedTokens m formula).map Token.text = (sitesOf formula).map (Site.textUnder m) := by
  have hnodes : ∀ node ∈ parse formula, RenamedBySites m node := fun node hnode ↦
    renamedBySites_of_delimited (delimited_ofTokens _ node hnode)
  exact (textUnder_eq_renameNodes hnodes .nil).symm

theorem rename_eq_join_textUnder (m : RenameMap) (formula : String) :
    rename m formula = String.join ((sitesOf formula).map (Site.textUnder m)) := by
  rw [← map_text_renamedTokens]
  rfl

/-- A formula is renamed token by token, each one by its site in the tree of the formula. -/
theorem rename_eq_join_sites (m : RenameMap) (formula : String) :
    (sitesOf formula).map Site.token = tokenize formula ∧
      rename m formula = String.join ((sitesOf formula).map (Site.textUnder m)) := by
  constructor
  · calc
      (sitesOf formula).map Site.token = tokensOf (parse formula) := map_token_sitesIn_eq [] _
      _ = tokenize formula := tokensOf_ofTokens _
  · have hrenamed : ∀ node ∈ parse formula, RenamedBySites m node := fun node hnode ↦
      renamedBySites_of_delimited (delimited_ofTokens _ node hnode)
    rw [rename, serialize, textOf, sitesOf, textUnder_eq_renameNodes hrenamed .nil]

end SheetPackages.Formula
