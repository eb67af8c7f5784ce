import SheetPackages.Proofs.Formula.Reading

/-!
# Shapes of formula trees

Where a tree branches depends on the kinds of its tokens alone: changing tokens without changing
their kinds and reading a tree can be done in either order. A tree is determined by its shape,
which is the tree of the kinds, together with its tokens.
-/

namespace SheetPackages.Formula

namespace Node

mutual

/-- The tree with `f` applied to all its tokens. -/
def map (f : Token → Token) : Node → Node
  | .leaf t => .leaf (f t)
  | .call name space opening slices closing =>
    .call (f name) (space.map f) (f opening) (mapSlices f slices) (closing.map f)

def mapNodes (f : Token → Token) : List Node → List Node
  | [] => []
  | node :: rest => map f node :: mapNodes f rest

def mapSlices (f : Token → Token) : List (List Node) → List (List Node)
  | [] => []
  | slice :: rest => mapNodes f slice :: mapSlices f rest

end

variable {f : Token → Token}

theorem mapNodes_eq_map (nodes : List Node) : mapNodes f nodes = nodes.map (map f) := by
  induction nodes with
  | nil => rfl
  | cons node rest ih => rw [mapNodes, ih, List.map_cons]

theorem mapSlices_eq_map (slices : List (List Node)) :
    mapSlices f slices = slices.map (mapNodes f) := by
  induction slices with
  | nil => rfl
  | cons slice rest ih => rw [mapSlices, ih, List.map_cons]

theorem mapNodes_reverse (nodes : List Node) :
    mapNodes f nodes.reverse = (mapNodes f nodes).reverse := by
  simp only [mapNodes_eq_map, List.map_reverse]

theorem tokens_mapNodes {nodes : List Node}
    (h : ∀ node ∈ nodes, (node.map f).tokens = node.tokens.map f) :
    tokensOf (mapNodes f nodes) = (tokensOf nodes).map f := by
  induction nodes with
  | nil => rfl
  | cons node rest ih =>
    obtain ⟨hnode, hrest⟩ := List.forall_mem_cons.mp h
    rw [mapNodes, tokensOf_cons, tokensOf_cons, List.map_append, hnode, ih hrest]

theorem tokens_mapSlices {slices : List (List Node)}
    (h : ∀ slice ∈ slices, ∀ node ∈ slice, (node.map f).tokens = node.tokens.map f) :
    (mapSlices f slices).flatMap tokensOf = (slices.flatMap tokensOf).map f := by
  induction slices with
  | nil => rfl
  | cons slice rest ih =>
    obtain ⟨hslice, hrest⟩ := List.forall_mem_cons.mp h
    rw [mapSlices, List.flatMap_cons, List.flatMap_cons, List.map_append, tokens_mapNodes hslice,
      ih hrest]

theorem tokens_map (node : Node) : (node.map f).tokens = node.tokens.map f := by
  induction node using Node.induct with
  | hleaf t => rfl
  | hcall name space opening slices closing ih =>
    rw [map, tokens_call, tokens_call, tokens_mapSlices ih]
    cases closing <;> simp

end Node

open Node (mapNodes mapSlices)

theorem tokensOf_mapNodes (f : Token → Token) (nodes : List Node) :
    tokensOf (mapNodes f nodes) = (tokensOf nodes).map f :=
  Node.tokens_mapNodes fun node _ ↦ node.tokens_map

/-! ## Reading changed tokens -/

section Reading

variable {f : Token → Token}

def OpenCall.map (f : Token → Token) (c : OpenCall) : OpenCall where
  name := f c.name
  space := c.space.map f
  opening := f c.opening
  slices := mapSlices f c.slices
  current := mapNodes f c.current
  owed := c.owed

namespace OpenCall

theorem map_add (c : OpenCall) (node : Node) : (c.add node).map f = (c.map f).add (node.map f) :=
  rfl

theorem map_endSlice (c : OpenCall) (t : Token) :
    (c.endSlice t).map f = (c.map f).endSlice (f t) := by
  simp only [endSlice, map, mapSlices, Node.mapNodes_reverse, mapNodes, Node.map]

theorem map_settle (c : OpenCall) (kind : TokenKind) :
    (c.settle kind).map f = (c.map f).settle kind := by
  unfold settle
  split
  · next h => exact (if_pos h).symm
  · next h => exact (if_neg h).symm

theorem map_node (c : OpenCall) (closing : Option Token) :
    (c.node closing).map f = (c.map f).node (closing.map f) := by
  have hempty : (c.map f).current.isEmpty = c.current.isEmpty := by
    rw [map, Node.mapNodes_eq_map, List.isEmpty_map]
  simp only [node, hempty, Node.map]
  split <;> simp [map, Node.mapSlices_eq_map, Node.mapNodes_reverse]

end OpenCall

namespace Reader

def map (f : Token → Token) (r : Reader) : Reader where
  calls := r.calls.map (OpenCall.map f)
  nodes := mapNodes f r.nodes

theorem map_add (r : Reader) (node : Node) : (r.add node).map f = (r.map f).add (node.map f) := by
  obtain ⟨calls, nodes⟩ := r
  cases calls <;> rfl

theorem mapNodes_finish (nodes : List Node) (calls : List OpenCall) :
    mapNodes f (finish nodes calls) = finish (mapNodes f nodes) (calls.map (OpenCall.map f)) := by
  induction calls using finish.induct with
  | case1 => rw [finish, List.map_nil, finish, Node.mapNodes_reverse]
  | case2 c =>
    rw [finish, List.map_singleton, finish, Node.mapNodes_reverse, mapNodes, OpenCall.map_node]
    rfl
  | case3 c outer rest ih =>
    rw [finish, ih, List.map_cons, List.map_cons, List.map_cons, finish, OpenCall.map_add,
      OpenCall.map_node]
    rfl

variable (hf : ∀ t, (f t).kind = t.kind)

include hf

theorem punctuation?_map (r : Reader) (t : Token) :
    (r.map f).punctuation? (f t) = (r.punctuation? t).map (map f) := by
  obtain ⟨calls, nodes⟩ := r
  cases calls with
  | nil => rfl
  | cons c outer =>
    have hseparator : (f t).isSeparator = t.isSeparator := by
      rw [Token.isSeparator, Token.isSeparator, hf]
    simp only [punctuation?, map, List.map_cons, hf, hseparator, OpenCall.map]
    split
    · rw [Option.map_some, map_add, OpenCall.map_node]
      rfl
    · split
      · rw [Option.map_some, map, List.map_cons, OpenCall.map_endSlice]
        rfl
      · split
        · rfl
        · split
          · rw [Option.map_some, map, List.map_cons, OpenCall.map_add, OpenCall.map_settle]
            rfl
          · rfl

theorem callOpening?_map (rest : List Token) :
    callOpening? (rest.map f) = (callOpening? rest).map fun (space, opening, after) ↦
      (space.map f, f opening, after.map f) := by
  have hblank : isBlankToken ∘ f = isBlankToken := by
    funext t
    rw [Function.comp_apply, isBlankToken, isBlankToken, hf]
  rw [callOpening?, callOpening?, List.dropWhile_map, List.takeWhile_map, hblank]
  cases rest.dropWhile isBlankToken with
  | nil => rfl
  | cons t after =>
    simp only [List.map_cons, hf]
    split <;> rfl

theorem run_map (r : Reader) (tokens : List Token) :
    run (r.map f) (tokens.map f) = mapNodes f (run r tokens) := by
  induction hn : tokens.length using Nat.strongRecOn generalizing r tokens with
  | _ n ih =>
    cases tokens with
    | nil => rw [List.map_nil, run, run, mapNodes_finish, map]
    | cons t rest =>
      have hrest : rest.length < n := by
        rw [← hn]
        exact Nat.lt_succ_self _
      have hpunctuation := punctuation?_map hf r t
      rw [List.map_cons]
      cases h : r.punctuation? t with
      | some next =>
        rw [h, Option.map_some] at hpunctuation
        rw [run_of_punctuation _ hpunctuation, run_of_punctuation _ h, ih _ hrest next rest rfl]
      | none =>
        rw [h, Option.map_none] at hpunctuation
        have hmapped := callOpening?_map hf rest
        by_cases hname : t.kind = .identifier ∧ callOpening? rest ≠ none
        · obtain ⟨⟨space, opening, after⟩, hopening⟩ := Option.ne_none_iff_exists'.mp hname.2
          rw [hopening, Option.map_some] at hmapped
          have hafter : after.length < n := Nat.lt_trans (callOpening?_length hopening) hrest
          rw [run_of_callOpening hpunctuation ((hf t).trans hname.1) hmapped,
            run_of_callOpening h hname.1 hopening, ← ih _ hafter _ after rfl]
          rfl
        · have hleaf : t.kind = .identifier → callOpening? rest = none := fun hkind ↦
            Decidable.byContradiction fun hopening ↦ hname ⟨hkind, hopening⟩
          rw [run_of_leaf hpunctuation fun hkind ↦ by rw [hmapped, hleaf (hf t ▸ hkind)]; rfl,
            run_of_leaf h hleaf, ← ih _ hrest _ rest rfl, map_add, Node.map]

end Reader

theorem ofTokens_map (hf : ∀ t, (f t).kind = t.kind) (tokens : List Token) :
    ofTokens (tokens.map f) = mapNodes f (ofTokens tokens) :=
  Reader.run_map hf {} tokens

end Reading

/-! ## Trees of one shape -/

/-- A token of which only the kind is left. -/
def Token.bare (t : Token) : Token :=
  ⟨t.kind, "", 0, 0⟩

theorem Token.kind_bare (t : Token) : t.bare.kind = t.kind :=
  rfl

/-- The node is determined by its shape and its tokens, whatever follows them. -/
def Node.Determined (node : Node) : Prop :=
  ∀ other behind behind', node.map Token.bare = other.map Token.bare →
    node.tokens ++ behind = other.tokens ++ behind' → node = other ∧ behind = behind'

theorem determined_nodes {nodes : List Node} (h : ∀ node ∈ nodes, node.Determined)
    (others : List Node) (behind behind' : List Token)
    (hshape : mapNodes Token.bare nodes = mapNodes Token.bare others)
    (htokens : tokensOf nodes ++ behind = tokensOf others ++ behind') :
    nodes = others ∧ behind = behind' := by
  induction nodes generalizing others with
  | nil =>
    cases others with
    | nil => exact ⟨rfl, htokens⟩
    | cons other more => cases hshape
  | cons node rest ih =>
    obtain ⟨hnode, hrest⟩ := List.forall_mem_cons.mp h
    cases others with
    | nil => cases hshape
    | cons other more =>
      obtain ⟨hfirst, hmore⟩ := List.cons.inj hshape
      rw [tokensOf_cons, tokensOf_cons, List.append_assoc, List.append_assoc] at htokens
      obtain ⟨rfl, hremaining⟩ := hnode other _ _ hfirst htokens
      obtain ⟨rfl, hbehind⟩ := ih hrest more hmore hremaining
      exact ⟨rfl, hbehind⟩

theorem determined_slices {slices : List (List Node)}
    (h : ∀ slice ∈ slices, ∀ node ∈ slice, node.Determined)
    (others : List (List Node)) (behind behind' : List Token)
    (hshape : mapSlices Token.bare slices = mapSlices Token.bare others)
    (htokens : slices.flatMap tokensOf ++ behind = others.flatMap tokensOf ++ behind') :
    slices = others ∧ behind = behind' := by
  induction slices generalizing others with
  | nil =>
    cases others with
    | nil => exact ⟨rfl, htokens⟩
    | cons other more => cases hshape
  | cons slice rest ih =>
    obtain ⟨hslice, hrest⟩ := List.forall_mem_cons.mp h
    cases others with
    | nil => cases hshape
    | cons other more =>
      obtain ⟨hfirst, hmore⟩ := List.cons.inj hshape
      rw [List.flatMap_cons, List.flatMap_cons, List.append_assoc, List.append_assoc] at htokens
      obtain ⟨rfl, hremaining⟩ := determined_nodes hslice other _ _ hfirst htokens
      obtain ⟨rfl, hbehind⟩ := ih hrest more hmore hremaining
      exact ⟨rfl, hbehind⟩

theorem Node.determined (node : Node) : node.Determined := by
  induction node using Node.induct with
  | hleaf t =>
    intro other behind behind' hshape htokens
    cases other with
    | leaf u =>
      obtain ⟨rfl, hbehind⟩ := List.cons.inj htokens
      exact ⟨rfl, hbehind⟩
    | call => cases hshape
  | hcall name space opening slices closing ih =>
    intro other behind behind' hshape htokens
    cases other with
    | leaf u => cases hshape
    | call name' space' opening' slices' closing' =>
      simp only [map, Node.call.injEq] at hshape
      obtain ⟨-, hspace, -, hslices, hclosing⟩ := hshape
      have hlength : space.length = space'.length := by
        simpa using congrArg List.length hspace
      simp only [tokens_call, List.cons_append, List.append_assoc, List.cons.injEq] at htokens
      obtain ⟨rfl, hinner⟩ := htokens
      obtain ⟨rfl, hopened⟩ := List.append_inj hinner hlength
      obtain ⟨rfl, hargs⟩ := List.cons.inj hopened
      obtain ⟨rfl, hend⟩ := determined_slices ih slices' _ _ hslices hargs
      cases closing with
      | none =>
        cases closing' with
        | none => exact ⟨rfl, hend⟩
        | some t => cases hclosing
      | some t =>
        cases closing' with
        | none => cases hclosing
        | some u =>
          obtain ⟨rfl, hbehind⟩ := List.cons.inj hend
          exact ⟨rfl, hbehind⟩

/-- A tree with the shape of a tree that was read is read from its own tokens. -/
theorem ofTokens_tokensOf {nodes : List Node} {tokens : List Token}
    (hshape : mapNodes Token.bare nodes = mapNodes Token.bare (ofTokens tokens)) :
    ofTokens (tokensOf nodes) = nodes := by
  have hbare : (tokensOf nodes).map Token.bare = tokens.map Token.bare := by
    rw [← tokensOf_mapNodes, hshape, tokensOf_mapNodes, tokensOf_ofTokens]
  have hsame : mapNodes Token.bare (ofTokens (tokensOf nodes)) = mapNodes Token.bare nodes := by
    rw [← ofTokens_map Token.kind_bare, hbare, ofTokens_map Token.kind_bare, hshape]
  refine (determined_nodes (fun node _ ↦ node.determined) nodes [] [] hsame ?_).1
  rw [tokensOf_ofTokens]

end SheetPackages.Formula
