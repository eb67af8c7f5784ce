import Mathlib.Data.List.Nodup
import SheetPackages.Proofs.Formula.Renaming
import SheetPackages.Proofs.Formula.Respelling
import SheetPackages.Proofs.Formula.Shape

/-!
# Renaming back

Renaming to fresh names can be undone. On a tree this holds because a fresh name is bound nowhere,
so the way back meets the scopes of the way there. On a text it holds because the renamed text is
read as the renamed tree: its tokens are those of the text with their new texts, and these have the
same kinds.
-/

namespace SheetPackages

/-! ## Maps -/

namespace OrderedMap

/-- No two keys have the same value. -/
def Injective (m : OrderedMap String) : Prop :=
  ∀ key other value, m.get? key = some value → m.get? other = some value → key = other

/-- Every value with its key. -/
def inverse (m : OrderedMap String) : OrderedMap String :=
  .ofList (m.entries.map Prod.swap)

variable {m : OrderedMap String}

theorem injective_iff : m.Injective ↔ m.values.Nodup := by
  have hentries : m.entries.Nodup := m.nodup.of_map
  constructor
  · intro h
    refine hentries.map_on fun entry hentry other hother heq ↦ ?_
    have hkey := h entry.1 other.1 entry.2 (get?_eq_some_iff.mpr hentry)
      (get?_eq_some_iff.mpr (heq ▸ hother))
    exact Prod.ext hkey heq
  · intro h key other value hkey hother
    have heq := List.inj_on_of_nodup_map h (get?_eq_some_iff.mp hkey)
      (get?_eq_some_iff.mp hother) rfl
    exact congrArg Prod.fst heq

theorem get?_inverse (h : m.Injective) {key value : String} :
    m.inverse.get? value = some key ↔ m.get? key = some value := by
  have hvalues : ((m.entries.map Prod.swap).map Prod.fst).Nodup := by
    rw [List.map_map]
    exact injective_iff.mp h
  rw [get?_eq_some_iff, get?_eq_some_iff, inverse, entries_ofList hvalues, List.mem_map]
  constructor
  · rintro ⟨⟨key', value'⟩, hmem, heq⟩
    cases heq
    exact hmem
  · exact fun hmem ↦ ⟨(key, value), hmem, rfl⟩

end OrderedMap

namespace Formula

open Node (mapNodes mapSlices)

variable {m back : RenameMap}

/-! ## Tokens -/

theorem renameToken_cases (m : RenameMap) (scope : Scope) (t : Token) :
    renameToken m scope t = t ∨ ∃ new, t.kind = .identifier ∧ scope.contains t.text = false ∧
      m.get? t.text = some new ∧ renameToken m scope t = t.withText new := by
  unfold renameToken
  split
  · next hplace =>
    split
    · next new hnew =>
      exact .inr ⟨new, hplace.1, by simpa using hplace.2, hnew, rfl⟩
    · exact .inl rfl
  · exact .inl rfl

theorem renameToken_of_get? {m : RenameMap} {scope : Scope} {t : Token} {new : String}
    (hkind : t.kind = .identifier) (hfree : scope.contains t.text = false)
    (hnew : m.get? t.text = some new) : renameToken m scope t = t.withText new := by
  rw [renameToken, if_pos ⟨hkind, by simp [hfree]⟩, hnew]

theorem bare_renameToken (m : RenameMap) (scope : Scope) (t : Token) :
    (renameToken m scope t).bare = t.bare := by
  rcases renameToken_cases m scope t with h | ⟨new, -, -, -, h⟩ <;> rw [h]
  rfl

theorem unplaced_renameToken (m : RenameMap) (scope : Scope) (t : Token) :
    (renameToken m scope t).unplaced = renameToken m scope t.unplaced := by
  have hkind : t.unplaced.kind = t.kind := rfl
  have htext : t.unplaced.text = t.text := rfl
  unfold renameToken
  rw [hkind, htext]
  split
  · split <;> rfl
  · rfl

/-! ## Trees -/

mutual

/-- Renaming keeps the shape of a tree. -/
theorem map_bare_renameNode (m : RenameMap) (scope : Scope) : ∀ node : Node,
    (renameNode m scope node).map Token.bare = node.map Token.bare
  | .leaf t => congrArg Node.leaf (bare_renameToken m scope t)
  | .call name space opening slices closing => by
    rw [renameNode]
    cases CallForm.of name with
    | letForm => simp only [Node.map, mapSlices_bare_renameLet m scope slices]
    | lambda => simp only [Node.map, mapSlices_bare_renameLambda m scope slices]
    | ordinary =>
      simp only [Node.map, bare_renameToken, mapSlices_bare_renameSlices m scope slices]

theorem mapNodes_bare_renameNodes (m : RenameMap) (scope : Scope) : ∀ nodes : List Node,
    mapNodes Token.bare (renameNodes m scope nodes) = mapNodes Token.bare nodes
  | [] => rfl
  | node :: rest => by
    rw [renameNodes, mapNodes, mapNodes, map_bare_renameNode m scope node,
      mapNodes_bare_renameNodes m scope rest]

theorem mapSlices_bare_renameSlices (m : RenameMap) (scope : Scope) :
    ∀ slices : List (List Node),
    mapSlices Token.bare (renameSlices m scope slices) = mapSlices Token.bare slices
  | [] => rfl
  | slice :: rest => by
    rw [renameSlices, mapSlices, mapSlices, mapNodes_bare_renameNodes m scope slice,
      mapSlices_bare_renameSlices m scope rest]

theorem mapSlices_bare_renameLet (m : RenameMap) (scope : Scope) : ∀ slices : List (List Node),
    mapSlices Token.bare (renameLet m scope slices) = mapSlices Token.bare slices
  | [] => rfl
  | [body] => by
    simp only [renameLet, mapSlices, mapNodes_bare_renameNodes m scope body]
  | declaration :: value :: rest => by
    simp only [renameLet, mapSlices, mapNodes_bare_renameNodes m scope value,
      mapSlices_bare_renameLet m _ rest]

theorem mapSlices_bare_renameLambda (m : RenameMap) (scope : Scope) :
    ∀ slices : List (List Node),
    mapSlices Token.bare (renameLambda m scope slices) = mapSlices Token.bare slices
  | [] => rfl
  | [body] => by
    simp only [renameLambda, mapSlices, mapNodes_bare_renameNodes m scope body]
  | parameter :: body :: rest => by
    simp only [renameLambda, mapSlices]
    rw [mapSlices_bare_renameLambda m _ (body :: rest), mapSlices]

end

theorem declaredName?_mapNodes_unplaced (slice : List Node) :
    declaredName? (mapNodes Token.unplaced slice) = declaredName? slice := by
  rw [declaredName?, declaredName?, Node.mapNodes_eq_map, List.findSome?_map]
  congr 1
  funext node
  cases node <;> rfl

mutual

/-- Renaming does not look at the places of tokens. -/
theorem map_unplaced_renameNode (m : RenameMap) (scope : Scope) : ∀ node : Node,
    (renameNode m scope node).map Token.unplaced = renameNode m scope (node.map Token.unplaced)
  | .leaf t => congrArg Node.leaf (unplaced_renameToken m scope t)
  | .call name space opening slices closing => by
    have hform : CallForm.of name.unplaced = CallForm.of name := rfl
    rw [Node.map, renameNode, renameNode, hform]
    cases CallForm.of name with
    | letForm => simp only [Node.map, mapSlices_unplaced_renameLet m scope slices]
    | lambda => simp only [Node.map, mapSlices_unplaced_renameLambda m scope slices]
    | ordinary =>
      simp only [Node.map, unplaced_renameToken, mapSlices_unplaced_renameSlices m scope slices]

theorem mapNodes_unplaced_renameNodes (m : RenameMap) (scope : Scope) : ∀ nodes : List Node,
    mapNodes Token.unplaced (renameNodes m scope nodes) =
      renameNodes m scope (mapNodes Token.unplaced nodes)
  | [] => rfl
  | node :: rest => by
    simp only [renameNodes, mapNodes, map_unplaced_renameNode m scope node,
      mapNodes_unplaced_renameNodes m scope rest]

theorem mapSlices_unplaced_renameSlices (m : RenameMap) (scope : Scope) :
    ∀ slices : List (List Node),
    mapSlices Token.unplaced (renameSlices m scope slices) =
      renameSlices m scope (mapSlices Token.unplaced slices)
  | [] => rfl
  | slice :: rest => by
    simp only [renameSlices, mapSlices, mapNodes_unplaced_renameNodes m scope slice,
      mapSlices_unplaced_renameSlices m scope rest]

theorem mapSlices_unplaced_renameLet (m : RenameMap) (scope : Scope) :
    ∀ slices : List (List Node),
    mapSlices Token.unplaced (renameLet m scope slices) =
      renameLet m scope (mapSlices Token.unplaced slices)
  | [] => rfl
  | [body] => by
    simp only [renameLet, mapSlices, mapNodes_unplaced_renameNodes m scope body]
  | declaration :: value :: rest => by
    simp only [renameLet, mapSlices, mapNodes_unplaced_renameNodes m scope value,
      mapSlices_unplaced_renameLet m _ rest, declaredName?_mapNodes_unplaced]

theorem mapSlices_unplaced_renameLambda (m : RenameMap) (scope : Scope) :
    ∀ slices : List (List Node),
    mapSlices Token.unplaced (renameLambda m scope slices) =
      renameLambda m scope (mapSlices Token.unplaced slices)
  | [] => rfl
  | [body] => by
    simp only [renameLambda, mapSlices, mapNodes_unplaced_renameNodes m scope body]
  | parameter :: body :: rest => by
    simp only [renameLambda, mapSlices, declaredName?_mapNodes_unplaced]
    rw [mapSlices_unplaced_renameLambda m _ (body :: rest), mapSlices]

end

/-! ## Trees renamed back -/

/-- `back` maps the new names of `m` to the old ones, and no new name is the word of a binding
form. -/
structure Undoes (back m : RenameMap) : Prop where
  get? : ∀ old new, m.get? old = some new → back.get? new = some old
  ordinary : ∀ old new, m.get? old = some new →
    ∀ t : Token, CallForm.of (t.withText new) = .ordinary

/-- The identifiers among the tokens are none that the map renames. -/
def Spares (back : RenameMap) (tokens : List Token) : Prop :=
  ∀ t ∈ tokens, t.kind = .identifier → back.get? t.text = none

/-- The names that are bound are none that the map renames. -/
def SparesBound (back : RenameMap) (scope : Scope) : Prop :=
  ∀ name, scope.contains name = true → back.get? name = none

variable {scope : Scope}

theorem Spares.of_append {left right : List Token} (h : Spares back (left ++ right)) :
    Spares back left ∧ Spares back right :=
  List.forall_mem_append.mp h

/-- A declared name is the text of an identifier of the declaration. -/
theorem exists_of_declaredName? {slice : List Node} {name : String}
    (h : declaredName? slice = some name) :
    ∃ t ∈ tokensOf slice, t.kind = .identifier ∧ t.text = name := by
  obtain ⟨node, hnode, hleaf⟩ := List.exists_of_findSome?_eq_some h
  cases node with
  | leaf t =>
    have hmem : t ∈ tokensOf slice := by
      rw [tokensOf_eq_flatMap]
      exact List.mem_flatMap.mpr ⟨_, hnode, List.mem_singleton_self t⟩
    by_cases hkind : t.kind = .identifier
    · simp only [hkind, if_pos, Option.some.injEq] at hleaf
      exact ⟨t, hmem, hkind, hleaf⟩
    · simp [hkind] at hleaf
  | call => cases hleaf

theorem Spares.declaredName? {slice : List Node} (h : Spares back (tokensOf slice)) {name : String}
    (hname : declaredName? slice = some name) : back.get? name = none := by
  obtain ⟨t, ht, hkind, rfl⟩ := exists_of_declaredName? hname
  exact h t ht hkind

theorem SparesBound.bind? (h : SparesBound back scope) {slice : List Node}
    (hslice : Spares back (tokensOf slice)) :
    SparesBound back (scope.bind? (Formula.declaredName? slice)) := by
  intro name hname
  rcases (Scope.contains_bind? _ _ _).mp hname with hname | hname
  · exact h name hname
  · exact hslice.declaredName? hname

theorem renameToken_renameToken (hback : Undoes back m) (hscope : SparesBound back scope)
    {t : Token} (ht : t.kind = .identifier → back.get? t.text = none) :
    renameToken back scope (renameToken m scope t) = t := by
  rcases renameToken_cases m scope t with h | ⟨new, hkind, hfree, hnew, h⟩
  · rw [h]
    rcases renameToken_cases back scope t with hsame | ⟨old, hkind, -, hold, -⟩
    · exact hsame
    · rw [ht hkind] at hold
      cases hold
  · have hold := hback.get? _ _ hnew
    have hunbound : scope.contains new = false := by
      by_contra hbound
      rw [hscope new (by simpa using hbound)] at hold
      cases hold
    rw [h, renameToken_of_get? (t := t.withText new) hkind hunbound hold]
    rfl

theorem form_renameToken (hback : Undoes back m) (t : Token) (hform : CallForm.of t = .ordinary) :
    CallForm.of (renameToken m scope t) = .ordinary := by
  rcases renameToken_cases m scope t with h | ⟨new, -, -, hnew, h⟩
  · rw [h, hform]
  · rw [h, hback.ordinary _ _ hnew]

theorem renameLambda_cons (m : RenameMap) (scope : Scope) (slice : List Node)
    (rest : List (List Node)) :
    ∃ head tail, renameLambda m scope (slice :: rest) = head :: tail := by
  cases rest with
  | nil => exact ⟨_, _, renameLambda.eq_2 m scope slice⟩
  | cons next rest => exact ⟨_, _, renameLambda.eq_3 m scope slice next rest⟩

mutual

/-- In a scope that binds no new name, a tree without new names is renamed and back. -/
theorem renameNode_renameNode (hback : Undoes back m) {scope : Scope}
    (hscope : SparesBound back scope) : ∀ node : Node, Spares back node.tokens →
    renameNode back scope (renameNode m scope node) = node
  | .leaf t, h =>
    congrArg Node.leaf (renameToken_renameToken hback hscope (h t (List.mem_singleton_self t)))
  | .call name space opening slices closing, h => by
    rw [Node.tokens_call] at h
    have hname : name.kind = .identifier → back.get? name.text = none := h name (by simp)
    have hslices : Spares back (slices.flatMap tokensOf) := fun t ht ↦ h t (by simp [ht])
    rw [renameNode]
    cases hform : CallForm.of name with
    | letForm =>
      simp only [renameNode, hform, renameLet_renameLet hback hscope slices hslices]
    | lambda =>
      simp only [renameNode, hform, renameLambda_renameLambda hback hscope slices hslices]
    | ordinary =>
      simp only [renameNode, form_renameToken hback name hform,
        renameToken_renameToken hback hscope hname,
        renameSlices_renameSlices hback hscope slices hslices]

theorem renameNodes_renameNodes (hback : Undoes back m) {scope : Scope}
    (hscope : SparesBound back scope) : ∀ nodes : List Node, Spares back (tokensOf nodes) →
    renameNodes back scope (renameNodes m scope nodes) = nodes
  | [], _ => rfl
  | node :: rest, h => by
    obtain ⟨hnode, hrest⟩ := Spares.of_append (tokensOf_cons node rest ▸ h)
    rw [renameNodes, renameNodes, renameNode_renameNode hback hscope node hnode,
      renameNodes_renameNodes hback hscope rest hrest]

theorem renameSlices_renameSlices (hback : Undoes back m) {scope : Scope}
    (hscope : SparesBound back scope) : ∀ slices : List (List Node),
    Spares back (slices.flatMap tokensOf) →
    renameSlices back scope (renameSlices m scope slices) = slices
  | [], _ => rfl
  | slice :: rest, h => by
    obtain ⟨hslice, hrest⟩ := Spares.of_append (List.flatMap_cons ▸ h)
    rw [renameSlices, renameSlices, renameNodes_renameNodes hback hscope slice hslice,
      renameSlices_renameSlices hback hscope rest hrest]

theorem renameLet_renameLet (hback : Undoes back m) {scope : Scope}
    (hscope : SparesBound back scope) : ∀ slices : List (List Node),
    Spares back (slices.flatMap tokensOf) →
    renameLet back scope (renameLet m scope slices) = slices
  | [], _ => rfl
  | [body], h => by
    rw [List.flatMap_singleton] at h
    rw [renameLet, renameLet, renameNodes_renameNodes hback hscope body h]
  | declaration :: value :: rest, h => by
    obtain ⟨hdeclaration, hmore⟩ := Spares.of_append (List.flatMap_cons ▸ h)
    obtain ⟨hvalue, hrest⟩ := Spares.of_append (List.flatMap_cons ▸ hmore)
    rw [renameLet, renameLet, renameNodes_renameNodes hback hscope value hvalue,
      renameLet_renameLet hback (hscope.bind? hdeclaration) rest hrest]

theorem renameLambda_renameLambda (hback : Undoes back m) {scope : Scope}
    (hscope : SparesBound back scope) : ∀ slices : List (List Node),
    Spares back (slices.flatMap tokensOf) →
    renameLambda back scope (renameLambda m scope slices) = slices
  | [], _ => rfl
  | [body], h => by
    rw [List.flatMap_singleton] at h
    rw [renameLambda, renameLambda, renameNodes_renameNodes hback hscope body h]
  | parameter :: body :: rest, h => by
    obtain ⟨hparameter, hmore⟩ := Spares.of_append (List.flatMap_cons ▸ h)
    have hbody := renameLambda_renameLambda hback (hscope.bind? hparameter) (body :: rest) hmore
    obtain ⟨head, tail, hcons⟩ :=
      renameLambda_cons m (scope.bind? (declaredName? parameter)) body rest
    rw [renameLambda, hcons, renameLambda, ← hcons, hbody]

end

/-! ## Texts renamed back -/

/-- The name is an identifier, none of the words of the binding forms, and no identifier of the
text. -/
def FreshIn (formula name : String) : Prop :=
  isIdentifier name.toList = true ∧
    (Text.sameIgnoringCase name "LET" = false ∧ Text.sameIgnoringCase name "LAMBDA" = false) ∧
      ∀ t ∈ tokenize formula, t.kind = .identifier → t.text ≠ name

instance (formula name : String) : Decidable (FreshIn formula name) :=
  inferInstanceAs (Decidable (_ ∧ _ ∧ ∀ t ∈ tokenize formula, _))

theorem mem_values_of_get? {old new : String} (h : m.get? old = some new) : new ∈ m.values :=
  List.mem_map.mpr ⟨(old, new), OrderedMap.get?_eq_some_iff.mp h, rfl⟩

variable {formula : String}

theorem undoes_inverse (hinjective : m.Injective) (hfresh : ∀ new ∈ m.values, FreshIn formula new) :
    Undoes m.inverse m where
  get? _ _ h := (OrderedMap.get?_inverse hinjective).mpr h
  ordinary _ new h t := by
    obtain ⟨_, ⟨hlet, hlambda⟩, _⟩ := hfresh new (mem_values_of_get? h)
    simp [CallForm.of, isNamed, Token.withText, hlet, hlambda]

theorem spares_tokenize (hinjective : m.Injective)
    (hfresh : ∀ new ∈ m.values, FreshIn formula new) : Spares m.inverse (tokenize formula) := by
  intro t ht hkind
  by_contra hsome
  obtain ⟨old, hold⟩ := Option.ne_none_iff_exists'.mp hsome
  have hnew := mem_values_of_get? ((OrderedMap.get?_inverse hinjective).mp hold)
  exact (hfresh _ hnew).2.2 t ht hkind rfl

theorem Site.textUnder_cases (m : RenameMap) (s : Site) : s.textUnder m = s.token.text ∨
    s.token.kind = .identifier ∧ m.get? s.token.text = some (s.textUnder m) := by
  by_cases hrenamed : s.Renamed m
  · exact .inr ⟨hrenamed.1, get?_textUnder hrenamed⟩
  · exact .inl (textUnder_of_not_renamed hrenamed)

/-- Tokens that differ from those of some sites only by the renaming are respelled. -/
theorem respelled_of_sites (hfresh : ∀ new ∈ m.values, isIdentifier new.toList = true)
    {sites : List Site} {tokens : List Token}
    (hkinds : tokens.map Token.kind = (sites.map Site.token).map Token.kind)
    (htexts : tokens.map Token.text = sites.map (Site.textUnder m)) :
    List.Forall₂ Token.Respelled (sites.map Site.token) tokens := by
  induction sites generalizing tokens with
  | nil => rw [List.map_eq_nil_iff.mp htexts]; exact .nil
  | cons s rest ih =>
    cases tokens with
    | nil => cases htexts
    | cons t others =>
      simp only [List.map_cons, List.cons.injEq] at hkinds htexts
      refine .cons ⟨hkinds.1, ?_⟩ (ih hkinds.2 htexts.2)
      rw [htexts.1]
      rcases Site.textUnder_cases m s with hsame | ⟨hkind, hnew⟩
      · exact .inl hsame
      · exact .inr ⟨hkind, hfresh _ (mem_values_of_get? hnew)⟩

theorem map_kind_renamedTokens (m : RenameMap) (formula : String) :
    (renamedTokens m formula).map Token.kind = (tokenize formula).map Token.kind := by
  have hbare : (renamedTokens m formula).map Token.bare = (tokenize formula).map Token.bare := by
    rw [renamedTokens, ← tokensOf_mapNodes, mapNodes_bare_renameNodes, tokensOf_mapNodes, parse,
      tokensOf_ofTokens]
  have hkinds := congrArg (List.map Token.kind) hbare
  rw [List.map_map, List.map_map] at hkinds
  exact hkinds

/-- The renamed text is read as the tokens of the renamed tree. -/
theorem unplaced_tokenize_rename (hnumbers : NumbersApart (tokenize formula))
    (hfresh : ∀ new ∈ m.values, isIdentifier new.toList = true) :
    (tokenize (rename m formula)).map Token.unplaced =
      (renamedTokens m formula).map Token.unplaced := by
  have hkinds : (renamedTokens m formula).map Token.kind =
      ((sitesOf formula).map Site.token).map Token.kind := by
    rw [map_token_sitesOf, map_kind_renamedTokens]
  have hrespelled := respelled_of_sites hfresh hkinds (map_text_renamedTokens m formula)
  rw [map_token_sitesOf] at hrespelled
  exact tokenize_textOf hrespelled hnumbers

/-- The renamed text is read as the renamed tree. -/
theorem unplaced_parse_rename (hnumbers : NumbersApart (tokenize formula))
    (hfresh : ∀ new ∈ m.values, isIdentifier new.toList = true) :
    mapNodes Token.unplaced (parse (rename m formula)) =
      mapNodes Token.unplaced (renameNodes m {} (parse formula)) := by
  have hread : ofTokens (renamedTokens m formula) = renameNodes m {} (parse formula) :=
    ofTokens_tokensOf (mapNodes_bare_renameNodes m {} (parse formula))
  have hkind : ∀ t : Token, t.unplaced.kind = t.kind := fun _ ↦ rfl
  rw [parse, ← ofTokens_map hkind, unplaced_tokenize_rename hnumbers hfresh, ofTokens_map hkind,
    hread]

theorem serialize_mapNodes_unplaced (nodes : List Node) :
    serialize (mapNodes Token.unplaced nodes) = serialize nodes := by
  rw [serialize, serialize, tokensOf_mapNodes, textOf, textOf, List.map_map]
  rfl

/-- Renaming to fresh names keeps the number, the order and the kinds of the tokens and the texts
of all that are not renamed, and the inverse map renames back. -/
theorem rename_inverse_rename (hnumbers : NumbersApart (tokenize formula))
    (hinjective : m.Injective) (hfresh : ∀ new ∈ m.values, FreshIn formula new) :
    (sitesOf formula).map Site.token = tokenize formula ∧
      (tokenize (rename m formula)).map Token.kind = (tokenize formula).map Token.kind ∧
      (tokenize (rename m formula)).map Token.text = (sitesOf formula).map (Site.textUnder m) ∧
      rename m.inverse (rename m formula) = formula := by
  have hidentifier : ∀ new ∈ m.values, isIdentifier new.toList = true := fun new hnew ↦
    (hfresh new hnew).1
  have htokens := unplaced_tokenize_rename hnumbers hidentifier
  have hspares : Spares m.inverse (tokensOf (parse formula)) := by
    rw [parse, tokensOf_ofTokens]
    exact spares_tokenize hinjective hfresh
  have hempty : SparesBound m.inverse {} := fun _ hname ↦ by cases hname
  refine ⟨map_token_sitesOf formula, ?_, ?_, ?_⟩
  · have hkinds := congrArg (List.map Token.kind) htokens
    rw [List.map_map, List.map_map] at hkinds
    exact hkinds.trans (map_kind_renamedTokens m formula)
  · have htexts := congrArg (List.map Token.text) htokens
    rw [List.map_map, List.map_map] at htexts
    exact htexts.trans (map_text_renamedTokens m formula)
  · calc
      rename m.inverse (rename m formula) =
          serialize
            (renameNodes m.inverse {} (mapNodes Token.unplaced (parse (rename m formula)))) := by
        rw [← mapNodes_unplaced_renameNodes, serialize_mapNodes_unplaced, rename]
      _ = serialize (renameNodes m.inverse {} (renameNodes m {} (parse formula))) := by
        rw [unplaced_parse_rename hnumbers hidentifier, ← mapNodes_unplaced_renameNodes,
          serialize_mapNodes_unplaced]
      _ = serialize (parse formula) := by
        rw [renameNodes_renameNodes (undoes_inverse hinjective hfresh) hempty _ hspares]
      _ = formula := by
        rw [serialize, parse, tokensOf_ofTokens, textOf_tokenize]

/-- A name that is free and bound by turns, strings, an exponent, and a call that nothing closes. -/
theorem rename_inverse_rename_trial :
    let formula := "LET(x, F(x), LAMBDA(F, F + G.a(\"F\"\"x\", 1e3) * x)) & F(x \""
    let m : RenameMap := .ofList [("F", "lib.F"), ("G.a", "q9"), ("x", "LETTER")]
    rename m formula =
        "LET(x, lib.F(LETTER), LAMBDA(F, F + q9(\"F\"\"x\", 1e3) * x)) & lib.F(LETTER \"" ∧
      rename m.inverse (rename m formula) = formula := by
  intro formula m
  have hnumbers : NumbersApart (tokenize formula) := by decide +kernel
  have hinjective : m.Injective := OrderedMap.injective_iff.mpr (by decide +kernel)
  have hfresh : ∀ new ∈ m.values, FreshIn formula new := by decide +kernel
  have hrenamed : rename m formula =
      "LET(x, lib.F(LETTER), LAMBDA(F, F + q9(\"F\"\"x\", 1e3) * x)) & lib.F(LETTER \"" := by
    rw [← String.toList_inj, rename, serialize, toList_textOf]
    decide +kernel
  exact ⟨hrenamed, (rename_inverse_rename hnumbers hinjective hfresh).2.2.2⟩

end Formula

end SheetPackages
