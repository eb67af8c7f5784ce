import SheetPackages.Formula.Tree

/-!
# Leaves of formula trees

The tokens of a tree as lists put one behind the other, and the induction over nodes that follows
the slices of calls. Nothing here depends on how trees are read.
-/

namespace SheetPackages.Formula

namespace Node

/-- Induction over nodes: a call follows from the nodes in its slices. -/
theorem induct {P : Node → Prop} (hleaf : ∀ t, P (.leaf t))
    (hcall : ∀ name space opening slices closing, (∀ slice ∈ slices, ∀ node ∈ slice, P node) →
      P (.call name space opening slices closing)) (node : Node) : P node := by
  refine @Node.rec P (fun slices ↦ ∀ slice ∈ slices, ∀ node ∈ slice, P node)
    (fun slice ↦ ∀ node ∈ slice, P node) hleaf hcall ?_ ?_ ?_ ?_ node
  · exact fun _ h ↦ absurd h List.not_mem_nil
  · exact fun _ _ hslice hrest ↦ List.forall_mem_cons.mpr ⟨hslice, hrest⟩
  · exact fun _ h ↦ absurd h List.not_mem_nil
  · exact fun _ _ hnode hrest ↦ List.forall_mem_cons.mpr ⟨hnode, hrest⟩

theorem nodesThen_append {nodes : List Node}
    (h : ∀ node ∈ nodes, ∀ behind, node.tokensThen behind = node.tokens ++ behind)
    (behind : List Token) : nodesThen nodes behind = nodes.flatMap tokens ++ behind := by
  induction nodes with
  | nil => rfl
  | cons node rest ih =>
    obtain ⟨hnode, hrest⟩ := List.forall_mem_cons.mp h
    rw [nodesThen, hnode, ih hrest, List.flatMap_cons, List.append_assoc]

theorem slicesThen_append {slices : List (List Node)}
    (h : ∀ slice ∈ slices, ∀ node ∈ slice, ∀ behind,
      node.tokensThen behind = node.tokens ++ behind) (behind : List Token) :
    slicesThen slices behind = slices.flatMap (·.flatMap tokens) ++ behind := by
  induction slices with
  | nil => rfl
  | cons slice rest ih =>
    obtain ⟨hslice, hrest⟩ := List.forall_mem_cons.mp h
    rw [slicesThen, nodesThen_append hslice, ih hrest, List.flatMap_cons, List.append_assoc]

theorem tokensThen_append (node : Node) :
    ∀ behind, node.tokensThen behind = node.tokens ++ behind := by
  induction node using Node.induct with
  | hleaf t => exact fun _ ↦ rfl
  | hcall name space opening slices closing ih =>
    intro behind
    rw [tokens, tokensThen, tokensThen, slicesThen_append ih, slicesThen_append ih]
    simp only [List.append_assoc, List.cons_append, List.append_nil]

@[simp]
theorem tokens_leaf (t : Token) : (leaf t).tokens = [t] := rfl

end Node

theorem tokensOf_eq_flatMap : tokensOf = fun nodes ↦ nodes.flatMap Node.tokens := by
  funext nodes
  rw [tokensOf, Node.nodesThen_append (fun node _ ↦ node.tokensThen_append), List.append_nil]

@[simp]
theorem tokensOf_nil : tokensOf [] = [] := rfl

@[simp]
theorem tokensOf_cons (node : Node) (rest : List Node) :
    tokensOf (node :: rest) = node.tokens ++ tokensOf rest := by
  simp only [tokensOf_eq_flatMap, List.flatMap_cons]

@[simp]
theorem tokensOf_append (nodes more : List Node) :
    tokensOf (nodes ++ more) = tokensOf nodes ++ tokensOf more := by
  simp only [tokensOf_eq_flatMap, List.flatMap_append]

/-- A call covers its name, the blanks behind it, the parentheses and everything between them. -/
@[simp]
theorem Node.tokens_call (name : Token) (space : List Token) (opening : Token)
    (slices : List (List Node)) (closing : Option Token) :
    (Node.call name space opening slices closing).tokens =
      name :: space ++ opening :: slices.flatMap tokensOf ++ closing.toList := by
  rw [Node.tokens, Node.tokensThen, tokensOf_eq_flatMap,
    Node.slicesThen_append (fun _ _ node _ ↦ node.tokensThen_append)]
  simp only [List.cons_append, List.append_assoc, List.append_nil]

end SheetPackages.Formula
