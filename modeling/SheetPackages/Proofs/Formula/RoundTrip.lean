import SheetPackages.Proofs.Formula.Respelling
import SheetPackages.Proofs.Formula.Reading

/-!
# Trees and tokens, back and forth

Reading takes every token there is, and the tree that it makes has exactly the tokens it took. The
other way round, a tree is read back from its own tokens when it is one that a complete text stands
for: its calls are closed, brackets are nested inside slices, separators outside brackets stand at
the ends of slices only, and no identifier stands where the parenthesis behind it would make it the
name of a call. Trees of incomplete texts are not described.
-/

namespace SheetPackages.Formula

/-- Reading ends after no more steps than there are tokens and loses none of them. -/
theorem reading_is_lossless :
    (∀ tokens, (∃ last : Reader, Reader.step^[tokens.length] ({}, tokens) = (last, []) ∧
        ofTokens tokens = Reader.finish last.nodes last.calls) ∧
      tokensOf (ofTokens tokens) = tokens) ∧
    ∀ s, serialize (parse s) = s := by
  constructor
  · intro tokens
    obtain ⟨last, -, hsteps, hrun⟩ := Reader.reads_run {} tokens (Nat.le_refl _)
    exact ⟨⟨last, hsteps, hrun⟩, tokensOf_ofTokens tokens⟩
  · intro s
    calc
      serialize (parse s) = textOf (tokenize s) := by rw [serialize, parse, tokensOf_ofTokens]
      _ = s := textOf_tokenize s

/-! ## Well-formed trees -/

/-- The nodes begin, behind blanks, with an opening parenthesis. -/
def opensCall : List Node → Bool
  | .leaf t :: rest => if t.kind = .blank then opensCall rest else t.kind == .openParen
  | _ => false

/-- No identifier has an opening parenthesis behind it, be it behind blanks. -/
def Unambiguous : List Node → Prop
  | [] => True
  | .leaf t :: rest => (t.kind = .identifier → opensCall rest = false) ∧ Unambiguous rest
  | .call .. :: rest => Unambiguous rest

/-- Kinds of brackets of which the second closes the first. -/
inductive Encloses : TokenKind → TokenKind → Prop
  | parens : Encloses .openParen .closeParen
  | brackets : Encloses .openBracket .closeBracket
  | braces : Encloses .openBrace .closeBrace

/-- Every bracket is closed by its own kind, calls counting as one node, and no separator stands
outside brackets. The flag tells whether the nodes themselves stand inside some. -/
inductive Nested : Bool → List Node → Prop
  | nil {inside : Bool} : Nested inside []
  | call {inside : Bool} {name : Token} {space : List Token} {opening : Token}
      {slices : List (List Node)} {closing : Option Token} {rest : List Node}
      (hrest : Nested inside rest) :
      Nested inside (.call name space opening slices closing :: rest)
  | leaf {inside : Bool} {t : Token} {rest : List Node}
      (hplain : ∀ kind, ¬Encloses t.kind kind ∧ ¬Encloses kind t.kind)
      (hseparator : t.isSeparator = true → inside = true) (hrest : Nested inside rest) : Nested inside (.leaf t :: rest)
  | brackets {inside : Bool} {opener closer : Token} {inner rest : List Node}
      (hencloses : Encloses opener.kind closer.kind) (hinner : Nested true inner)
      (hrest : Nested inside rest) :
      Nested inside (.leaf opener :: (inner ++ .leaf closer :: rest))

/-- Every slice but the last ends with its separator, and the last one is not empty. -/
inductive Separated : List (List Node) → Prop
  | nil : Separated []
  | last {slice : List Node} (hslice : Nested false slice) (hne : slice ≠ []) : Separated [slice]
  | more {front : List Node} {separator : Token} {rest : List (List Node)}
      (hfront : Nested false front) (hkind : separator.isSeparator = true)
      (hrest : Separated rest) (hne : rest ≠ []) :
      Separated ((front ++ [.leaf separator]) :: rest)

/-- Every call is closed and divided into slices. -/
inductive Node.WellFormed : Node → Prop
  | leaf (t : Token) : WellFormed (.leaf t)
  | call {name : Token} {space : List Token} {opening closing : Token} {slices : List (List Node)}
      (hname : name.kind = .identifier) (hspace : ∀ t ∈ space, t.kind = .blank)
      (hopening : opening.kind = .openParen) (hclosing : closing.kind = .closeParen)
      (hseparated : Separated slices) (hunambiguous : ∀ slice ∈ slices, Unambiguous slice)
      (hslices : ∀ slice ∈ slices, ∀ node ∈ slice, WellFormed node) :
      WellFormed (.call name space opening slices (some closing))

/-- A sequence of nodes that a complete text stands for. -/
structure WellFormed (nodes : List Node) : Prop where
  each : ∀ node ∈ nodes, node.WellFormed
  unambiguous : Unambiguous nodes

/-! ## Identifiers before parentheses -/

theorem Unambiguous.of_cons {node : Node} {rest : List Node} (h : Unambiguous (node :: rest)) :
    Unambiguous rest := by
  cases node with
  | leaf t => exact h.2
  | call => exact h

theorem Unambiguous.of_append_right {nodes more : List Node} (h : Unambiguous (nodes ++ more)) :
    Unambiguous more := by
  induction nodes with
  | nil => exact h
  | cons node rest ih => exact ih h.of_cons

theorem opensCall_append {nodes : List Node} (more : List Node) (h : opensCall nodes = true) :
    opensCall (nodes ++ more) = true := by
  induction nodes with
  | nil => cases h
  | cons node rest ih =>
    cases node with
    | leaf t =>
      rw [opensCall] at h
      rw [List.cons_append, opensCall]
      split at h
      · next hblank => rw [if_pos hblank, ih h]
      · next hblank => rw [if_neg hblank, h]
    | call => cases h

theorem Unambiguous.of_append_left {nodes more : List Node} (h : Unambiguous (nodes ++ more)) :
    Unambiguous nodes := by
  induction nodes with
  | nil => trivial
  | cons node rest ih =>
    have hrest : Unambiguous rest := ih h.of_cons
    cases node with
    | leaf t =>
      refine ⟨fun hkind ↦ ?_, hrest⟩
      have hfree : opensCall (rest ++ more) = false := h.1 hkind
      by_contra hopens
      rw [opensCall_append more (by simpa using hopens)] at hfree
      cases hfree
    | call => exact hrest

namespace OpenCall

/-- Adds finished nodes one after the other. -/
def addAll (c : OpenCall) (nodes : List Node) : OpenCall :=
  { c with current := nodes.reverse ++ c.current }

/-- Adds an opening bracket, which is to be closed by a bracket of a kind. -/
def enter (c : OpenCall) (opener : Token) (kind : TokenKind) : OpenCall :=
  { c.add (.leaf opener) with owed := kind :: c.owed }

/-- Adds a closing bracket, behind which some others are still owed. -/
def leave (c : OpenCall) (closer : Token) (owed : List TokenKind) : OpenCall :=
  { c.add (.leaf closer) with owed }

theorem addAll_add (c : OpenCall) (node : Node) (rest : List Node) :
    (c.add node).addAll rest = c.addAll (node :: rest) := by
  simp [addAll, add]

theorem addAll_brackets (c : OpenCall) (opener closer : Token) (inner rest : List Node) :
    (((c.enter opener closer.kind).addAll inner).leave closer c.owed).addAll rest =
      c.addAll (.leaf opener :: (inner ++ .leaf closer :: rest)) := by
  simp [enter, leave, addAll, add]

theorem slices_endSlice_addAll {c : OpenCall} (hcurrent : c.current = []) (front : List Node)
    (separator : Token) :
    ((c.addAll front).endSlice separator).slices = (front ++ [.leaf separator]) :: c.slices := by
  simp [endSlice, addAll, hcurrent]

theorem node_addAll {c : OpenCall} (hcurrent : c.current = []) {slice : List Node}
    (hne : slice ≠ []) (closing : Option Token) : (c.addAll slice).node closing =
      .call c.name c.space c.opening (c.slices.reverse ++ [slice]) closing := by
  simp [node, addAll, hcurrent, hne]

end OpenCall

namespace Reader

theorem callOpening?_cons_of_not_blank {t : Token} (rest : List Token) (hblank : t.kind ≠ .blank) :
    callOpening? (t :: rest) = if t.kind = .openParen then some ([], t, rest) else none := by
  have htoken : ¬isBlankToken t = true := by simpa [isBlankToken] using hblank
  rw [callOpening?, List.dropWhile_cons_of_neg htoken, List.takeWhile_cons_of_neg htoken]

theorem callOpening?_cons_of_blank {t : Token} (rest : List Token) (hblank : t.kind = .blank) :
    callOpening? (t :: rest) = (callOpening? rest).map fun (space, opening, after) ↦
      (t :: space, opening, after) := by
  have htoken : isBlankToken t = true := by simpa [isBlankToken] using hblank
  rw [callOpening?, callOpening?, List.dropWhile_cons_of_pos htoken,
    List.takeWhile_cons_of_pos htoken]
  cases rest.dropWhile isBlankToken with
  | nil => rfl
  | cons u after =>
    simp only
    split <;> rfl

theorem callOpening?_cons_eq_none {t : Token} (rest : List Token) (hblank : t.kind ≠ .blank)
    (hopen : t.kind ≠ .openParen) : callOpening? (t :: rest) = none :=
  (callOpening?_cons_of_not_blank rest hblank).trans (if_neg hopen)

theorem callOpening?_append {space : List Token} {opening : Token} (after : List Token)
    (hspace : ∀ t ∈ space, t.kind = .blank) (hopening : opening.kind = .openParen) :
    callOpening? (space ++ opening :: after) = some (space, opening, after) := by
  induction space with
  | nil =>
    rw [List.nil_append, callOpening?_cons_of_not_blank _ (by simp [hopening]), if_pos hopening]
  | cons t rest ih =>
    obtain ⟨hblank, hrest⟩ := List.forall_mem_cons.mp hspace
    rw [List.cons_append, callOpening?_cons_of_blank _ hblank, ih hrest, Option.map_some]

/-- What does not begin with a parenthesis makes no identifier in front of it a name. -/
theorem callOpening?_tokensOf {nodes : List Node} {behind : List Token}
    (hnodes : ∀ node ∈ nodes, node.WellFormed) (hopens : opensCall nodes = false)
    (hbehind : callOpening? behind = none) : callOpening? (tokensOf nodes ++ behind) = none := by
  induction nodes with
  | nil => exact hbehind
  | cons node rest ih =>
    obtain ⟨hnode, hrest⟩ := List.forall_mem_cons.mp hnodes
    rw [tokensOf_cons, List.append_assoc]
    cases hnode with
    | leaf t =>
      rw [opensCall] at hopens
      rw [Node.tokens_leaf, List.singleton_append]
      split at hopens
      · next hblank => rw [callOpening?_cons_of_blank _ hblank, ih hrest hopens, Option.map_none]
      · next hblank =>
        exact callOpening?_cons_eq_none _ hblank (by simpa using hopens)
    | call hname =>
      rw [Node.tokens_call]
      exact callOpening?_cons_eq_none _ (by simp [hname]) (by simp [hname])

/-! ## Punctuation -/

variable {c : OpenCall} {outer : List OpenCall} {nodes : List Node} {t : Token}

theorem owedBy?_eq_some_iff {opener closer : TokenKind} :
    owedBy? opener = some closer ↔ Encloses opener closer := by
  constructor
  · intro h
    cases opener <;> cases h <;> constructor
  · intro h
    cases h <;> rfl

theorem isCloser_iff {closer : TokenKind} :
    isCloser closer = true ↔ ∃ opener, Encloses opener closer := by
  constructor
  · intro h
    cases closer <;> cases h <;> exact ⟨_, by constructor⟩
  · rintro ⟨opener, h⟩
    cases h <;> rfl

theorem punctuation?_plain {r : Reader}
    (hplain : ∀ kind, ¬Encloses t.kind kind ∧ ¬Encloses kind t.kind)
    (hseparator : t.isSeparator = true → ∀ c ∈ r.calls.head?, c.owed ≠ []) :
    r.punctuation? t = none := by
  have hopener : owedBy? t.kind = none := by
    apply Option.eq_none_iff_forall_ne_some.mpr
    exact fun kind howed ↦ (hplain kind).1 (owedBy?_eq_some_iff.mp howed)
  have hcloser : isCloser t.kind = false := by
    rw [← Bool.not_eq_true, isCloser_iff]
    exact fun ⟨kind, hencloses⟩ ↦ (hplain kind).2 hencloses
  obtain ⟨calls, nodes⟩ := r
  cases calls with
  | nil => rfl
  | cons c outer =>
    have hclosing : t.kind ≠ .closeParen := fun hkind ↦ by simp [isCloser, hkind] at hcloser
    have hends : ¬(t.isSeparator = true ∧ c.owed = []) := fun ⟨hkind, howed⟩ ↦
      hseparator hkind c rfl howed
    simp [punctuation?, hclosing, hends, hopener, hcloser]

theorem punctuation?_identifier (r : Reader) (hkind : t.kind = .identifier) :
    r.punctuation? t = none := by
  apply punctuation?_plain
  · rw [hkind]
    exact fun _ ↦ ⟨nofun, nofun⟩
  · simp [Token.isSeparator, hkind]

theorem punctuation?_opener {kind : TokenKind} (h : Encloses t.kind kind) :
    punctuation? ⟨c :: outer, nodes⟩ t = some ⟨c.enter t kind :: outer, nodes⟩ := by
  have howed : owedBy? t.kind = some kind := owedBy?_eq_some_iff.mpr h
  have hclosing : t.kind ≠ .closeParen := fun hkind ↦ by simp [owedBy?, hkind] at howed
  have hseparator : t.isSeparator = false := by
    cases hkind : t.kind <;> simp_all [owedBy?, Token.isSeparator]
  simp [punctuation?, hclosing, hseparator, howed, OpenCall.enter, OpenCall.add]

theorem punctuation?_closer {owed : List TokenKind} {opener : TokenKind}
    (h : Encloses opener t.kind) (howed : c.owed = t.kind :: owed) :
    punctuation? ⟨c :: outer, nodes⟩ t = some ⟨c.leave t owed :: outer, nodes⟩ := by
  have hcloser : isCloser t.kind = true := isCloser_iff.mpr ⟨opener, h⟩
  have hopener : owedBy? t.kind = none := by
    generalize t.kind = kind at h
    cases h <;> rfl
  have hinside : ¬(t.kind = .closeParen ∧ .closeParen ∉ c.owed) := fun ⟨hkind, hmissing⟩ ↦
    hmissing (by simp [howed, hkind])
  have hends : ¬(t.isSeparator = true ∧ c.owed = []) := by simp [howed]
  have hsettle : c.settle t.kind = { c with owed } := by simp [OpenCall.settle, howed]
  simp [punctuation?, hinside, hends, hcloser, hopener, hsettle, OpenCall.leave, OpenCall.add]

theorem punctuation?_closing (hkind : t.kind = .closeParen) (howed : c.owed = []) :
    punctuation? ⟨c :: outer, nodes⟩ t = some (add ⟨outer, nodes⟩ (c.node (some t))) := by
  simp [punctuation?, hkind, howed]

theorem punctuation?_separator (hkind : t.isSeparator = true) (howed : c.owed = []) :
    punctuation? ⟨c :: outer, nodes⟩ t = some ⟨c.endSlice t :: outer, nodes⟩ := by
  have hclosing : t.kind ≠ .closeParen := fun hclose ↦ by simp [Token.isSeparator, hclose] at hkind
  simp [punctuation?, hclosing, hkind, howed]

/-! ## Trees read back -/

theorem add_cons (node : Node) : add ⟨c :: outer, nodes⟩ node = ⟨c.add node :: outer, nodes⟩ :=
  rfl

/-- From any reader on, a call is read back from its tokens. -/
def ReadsBack (node : Node) : Prop :=
  node.isLeaf = false → ∀ r behind, run r (node.tokens ++ behind) = run (r.add node) behind

/-- In any call, which must be inside brackets if the flag says so, the nodes of a slice are added to
it, and it owes the same brackets afterwards. -/
def Adds (inside : Bool) (slice : List Node) : Prop :=
  ∀ c outer nodes behind, (inside = true → c.owed ≠ []) → callOpening? behind = none →
    run ⟨c :: outer, nodes⟩ (tokensOf slice ++ behind) = run ⟨c.addAll slice :: outer, nodes⟩ behind

section Slices

variable {inside : Bool} {rest : List Node}

theorem adds_call {call : Node} (hcall : call.isLeaf = false) (hreads : ReadsBack call)
    (hrest : Adds inside rest) : Adds inside (call :: rest) := by
  intro c outer nodes behind hinside hbehind
  rw [tokensOf_cons, List.append_assoc, hreads hcall, add_cons,
    hrest (c.add call) outer nodes behind hinside hbehind, OpenCall.addAll_add]

theorem adds_leaf (hplain : ∀ kind, ¬Encloses t.kind kind ∧ ¬Encloses kind t.kind)
    (hseparator : t.isSeparator = true → inside = true)
    (hnodes : ∀ node ∈ rest, node.WellFormed) (hunambiguous : Unambiguous (.leaf t :: rest))
    (hrest : Adds inside rest) : Adds inside (.leaf t :: rest) := by
  intro c outer nodes behind hinside hbehind
  have hnone : punctuation? ⟨c :: outer, nodes⟩ t = none := by
    apply punctuation?_plain hplain
    intro hkind d hd
    cases hd
    exact hinside (hseparator hkind)
  have hleaf : t.kind = .identifier → callOpening? (tokensOf rest ++ behind) = none := fun hkind ↦
    callOpening?_tokensOf hnodes (hunambiguous.1 hkind) hbehind
  rw [tokensOf_cons, Node.tokens_leaf, List.append_assoc, List.singleton_append,
    run_of_leaf hnone hleaf, add_cons, hrest (c.add (.leaf t)) outer nodes behind hinside hbehind,
    OpenCall.addAll_add]

theorem adds_brackets {opener closer : Token} {inner : List Node}
    (hencloses : Encloses opener.kind closer.kind) (hinner : Adds true inner)
    (hrest : Adds inside rest) : Adds inside (.leaf opener :: (inner ++ .leaf closer :: rest)) := by
  intro c outer nodes behind hinside hbehind
  have hend : callOpening? (closer :: (tokensOf rest ++ behind)) = none := by
    have hkind : isCloser closer.kind = true := isCloser_iff.mpr ⟨_, hencloses⟩
    apply callOpening?_cons_eq_none <;> intro h <;> simp [isCloser, h] at hkind
  calc
    run ⟨c :: outer, nodes⟩
          (tokensOf (.leaf opener :: (inner ++ .leaf closer :: rest)) ++ behind) =
        run ⟨c :: outer, nodes⟩
          (opener :: (tokensOf inner ++ closer :: (tokensOf rest ++ behind))) := by simp
    _ = run ⟨c.enter opener closer.kind :: outer, nodes⟩
          (tokensOf inner ++ closer :: (tokensOf rest ++ behind)) :=
        run_of_punctuation _ (punctuation?_opener hencloses)
    _ = run ⟨(c.enter opener closer.kind).addAll inner :: outer, nodes⟩
          (closer :: (tokensOf rest ++ behind)) :=
        hinner _ outer nodes _ (fun _ ↦ List.cons_ne_nil _ _) hend
    _ = run ⟨((c.enter opener closer.kind).addAll inner).leave closer c.owed :: outer, nodes⟩
          (tokensOf rest ++ behind) :=
        run_of_punctuation _ (punctuation?_closer hencloses rfl)
    _ = run ⟨(((c.enter opener closer.kind).addAll inner).leave closer c.owed).addAll rest :: outer,
          nodes⟩ behind := hrest _ outer nodes behind hinside hbehind
    _ = run ⟨c.addAll (.leaf opener :: (inner ++ .leaf closer :: rest)) :: outer, nodes⟩ behind := by
        rw [OpenCall.addAll_brackets]

theorem adds_of_nested {slice : List Node} (hnested : Nested inside slice)
    (hnodes : ∀ node ∈ slice, node.WellFormed ∧ ReadsBack node)
    (hunambiguous : Unambiguous slice) : Adds inside slice := by
  induction hnested with
  | nil => exact fun _ _ _ _ _ _ ↦ rfl
  | call _ ih =>
    obtain ⟨⟨_, hcall⟩, hrest⟩ := List.forall_mem_cons.mp hnodes
    exact adds_call rfl hcall (ih hrest hunambiguous.of_cons)
  | leaf hplain hseparator _ ih =>
    obtain ⟨_, hrest⟩ := List.forall_mem_cons.mp hnodes
    exact adds_leaf hplain hseparator (fun node hnode ↦ (hrest node hnode).1) hunambiguous
      (ih hrest hunambiguous.of_cons)
  | brackets hencloses _ _ ihinner ihrest =>
    obtain ⟨_, hmore⟩ := List.forall_mem_cons.mp hnodes
    obtain ⟨hinner, hlater⟩ := List.forall_mem_append.mp hmore
    obtain ⟨_, hrest⟩ := List.forall_mem_cons.mp hlater
    have hfree := hunambiguous.of_cons
    exact adds_brackets hencloses (ihinner hinner hfree.of_append_left)
      (ihrest hrest hfree.of_append_right.of_cons)

end Slices

/-- A slice and the separator behind it are the next slice of the innermost call. -/
theorem run_front {front : List Node} {separator : Token} (behind : List Token)
    (hfront : Adds false front) (hkind : separator.isSeparator = true) (howed : c.owed = []) :
    run ⟨c :: outer, nodes⟩ (tokensOf (front ++ [.leaf separator]) ++ behind) =
      run ⟨(c.addAll front).endSlice separator :: outer, nodes⟩ behind := by
  have hend : callOpening? (separator :: behind) = none := by
    apply callOpening?_cons_eq_none <;> intro h <;> simp [Token.isSeparator, h] at hkind
  rw [tokensOf_append, tokensOf_cons, tokensOf_nil, List.append_nil, Node.tokens_leaf,
    List.append_assoc, List.singleton_append, hfront c outer nodes _ nofun hend,
    run_of_punctuation _ (punctuation?_separator (c := c.addAll front) hkind howed)]

/-- The last slice and the parenthesis that closes its call finish the call. -/
theorem run_last {slice : List Node} {closing : Token} (behind : List Token)
    (hslice : Adds false slice) (hne : slice ≠ []) (hclosing : closing.kind = .closeParen)
    (howed : c.owed = []) (hcurrent : c.current = []) :
    run ⟨c :: outer, nodes⟩ (tokensOf slice ++ closing :: behind) =
      run (add ⟨outer, nodes⟩
        (.call c.name c.space c.opening (c.slices.reverse ++ [slice]) (some closing))) behind := by
  have hend : callOpening? (closing :: behind) = none :=
    callOpening?_cons_eq_none _ (by simp [hclosing]) (by simp [hclosing])
  rw [hslice c outer nodes _ nofun hend,
    run_of_punctuation _ (punctuation?_closing (c := c.addAll slice) hclosing howed),
    OpenCall.node_addAll hcurrent hne]

/-- The slices of a call and the parenthesis that closes it finish the innermost call. -/
theorem run_slices {slices : List (List Node)} {closing : Token} (behind : List Token)
    (hseparated : Separated slices) (hclosing : closing.kind = .closeParen)
    (hnodes : ∀ slice ∈ slices, ∀ node ∈ slice, node.WellFormed ∧ ReadsBack node)
    (hunambiguous : ∀ slice ∈ slices, Unambiguous slice) (howed : c.owed = [])
    (hcurrent : c.current = []) :
    run ⟨c :: outer, nodes⟩ (slices.flatMap tokensOf ++ closing :: behind) =
      run (add ⟨outer, nodes⟩
        (.call c.name c.space c.opening (c.slices.reverse ++ slices) (some closing))) behind := by
  induction hseparated generalizing c with
  | nil =>
    rw [List.flatMap_nil, List.nil_append,
      run_of_punctuation _ (punctuation?_closing hclosing howed)]
    simp [OpenCall.node, hcurrent]
  | last hslice hne =>
    have hadds := adds_of_nested hslice (List.forall_mem_singleton.mp hnodes)
      (List.forall_mem_singleton.mp hunambiguous)
    rw [List.flatMap_singleton, run_last behind hadds hne hclosing howed hcurrent]
  | @more front separator rest hfront hkind _ _ ih =>
    obtain ⟨hfrontnodes, hrestnodes⟩ := List.forall_mem_cons.mp hnodes
    obtain ⟨hfree, hrestfree⟩ := List.forall_mem_cons.mp hunambiguous
    have hadds := adds_of_nested hfront (List.forall_mem_append.mp hfrontnodes).1
      hfree.of_append_left
    rw [List.flatMap_cons, List.append_assoc, run_front _ hadds hkind howed,
      ih (c := (c.addAll front).endSlice separator) hrestnodes hrestfree howed rfl,
      OpenCall.slices_endSlice_addAll hcurrent, List.reverse_cons, List.append_assoc,
      List.singleton_append]
    rfl

theorem readsBack_of_wellFormed (node : Node) (h : node.WellFormed) : ReadsBack node := by
  induction node using Node.induct with
  | hleaf t => exact fun hleaf ↦ by cases hleaf
  | hcall name space opening slices closing ih =>
    intro _ r behind
    cases h with
    | @call _ _ _ closing _ hname hspace hopening hclosing hseparated hunambiguous hslices =>
      have hnodes : ∀ slice ∈ slices, ∀ node ∈ slice, node.WellFormed ∧ ReadsBack node :=
        fun slice hslice node hnode ↦
          ⟨hslices slice hslice node hnode,
            ih slice hslice node hnode (hslices slice hslice node hnode)⟩
      calc
        run r ((Node.call name space opening slices (some closing)).tokens ++ behind) =
            run r (name :: (space ++ opening ::
              (slices.flatMap tokensOf ++ closing :: behind))) := by simp
        _ = run ⟨⟨name, space, opening, [], [], []⟩ :: r.calls, r.nodes⟩
              (slices.flatMap tokensOf ++ closing :: behind) :=
            run_of_callOpening (punctuation?_identifier r hname) hname
              (callOpening?_append _ hspace hopening)
        _ = run (r.add (.call name space opening slices (some closing))) behind :=
            run_slices behind hseparated hclosing hnodes hunambiguous rfl rfl

/-- Outside calls every token that begins no call is a leaf. -/
theorem run_outside {sequence : List Node} (h : WellFormed sequence) :
    run ⟨[], nodes⟩ (tokensOf sequence) = nodes.reverse ++ sequence := by
  obtain ⟨hnodes, hunambiguous⟩ := h
  induction sequence generalizing nodes with
  | nil => rw [tokensOf_nil, run, finish, List.append_nil]
  | cons node rest ih =>
    obtain ⟨hnode, hrest⟩ := List.forall_mem_cons.mp hnodes
    have hadd : run ⟨[], nodes⟩ (tokensOf (node :: rest)) =
        run (add ⟨[], nodes⟩ node) (tokensOf rest) := by
      cases node with
      | leaf t =>
        have hleaf (hkind : t.kind = .identifier) : callOpening? (tokensOf rest) = none := by
          rw [← List.append_nil (tokensOf rest)]
          exact callOpening?_tokensOf hrest (hunambiguous.1 hkind) rfl
        exact run_of_leaf rfl hleaf
      | call =>
        rw [tokensOf_cons]
        exact readsBack_of_wellFormed _ hnode rfl _ _
    rw [hadd, add, ih hrest hunambiguous.of_cons]
    simp

end Reader

/-- A well-formed tree is read back from its tokens. -/
theorem ofTokens_tokensOf_of_wellFormed {nodes : List Node} (h : WellFormed nodes) :
    ofTokens (tokensOf nodes) = nodes :=
  Reader.run_outside h

/-- The first argument of `sumTree`, which is `{1;PI()}`. -/
def braces : List Node :=
  [.leaf ⟨.openBrace, "\x7b", 5, 6⟩, .leaf ⟨.number, "1", 6, 7⟩, .leaf ⟨.semicolon, ";", 7, 8⟩,
    .call ⟨.identifier, "PI", 8, 10⟩ [] ⟨.openParen, "(", 10, 11⟩ []
      (some ⟨.closeParen, ")", 11, 12⟩),
    .leaf ⟨.closeBrace, "\x7d", 12, 13⟩]

/-- The tree of `SUM ({1;PI()},x))`, whose last parenthesis closes nothing. -/
def sumTree : List Node :=
  [.call ⟨.identifier, "SUM", 0, 3⟩ [⟨.blank, " ", 3, 4⟩] ⟨.openParen, "(", 4, 5⟩
      [braces ++ [.leaf ⟨.comma, ",", 13, 14⟩], [.leaf ⟨.identifier, "x", 14, 15⟩]]
      (some ⟨.closeParen, ")", 15, 16⟩),
    .leaf ⟨.closeParen, ")", 16, 17⟩]

theorem nested_braces : Nested false braces :=
  .brackets .braces (.leaf (fun _ ↦ ⟨by rintro ⟨⟩, by rintro ⟨⟩⟩) (by simp)
    (.leaf (fun _ ↦ ⟨by rintro ⟨⟩, by rintro ⟨⟩⟩) (by simp) (.call .nil))) .nil

theorem wellFormed_sumTree : WellFormed sumTree := by
  have hinner : ∀ node ∈ braces, node.WellFormed := by
    simp only [braces, List.forall_mem_cons]
    refine ⟨.leaf _, .leaf _, .leaf _, ?_, .leaf _, by simp⟩
    exact .call rfl (by simp) rfl rfl .nil (by simp) (by simp)
  have hseparated : Separated [braces ++ [.leaf ⟨.comma, ",", 13, 14⟩],
      [.leaf ⟨.identifier, "x", 14, 15⟩]] :=
    .more nested_braces rfl (.last (.leaf (fun _ ↦ ⟨by rintro ⟨⟩, by rintro ⟨⟩⟩) (by decide) .nil) (by simp))
      (by simp)
  have hunambiguous : ∀ slice ∈ [braces ++ [.leaf ⟨.comma, ",", 13, 14⟩],
      [.leaf ⟨.identifier, "x", 14, 15⟩]], Unambiguous slice := by
    simp [braces, Unambiguous, opensCall]
  have hslices : ∀ slice ∈ [braces ++ [.leaf ⟨.comma, ",", 13, 14⟩],
      [.leaf ⟨.identifier, "x", 14, 15⟩]], ∀ node ∈ slice, node.WellFormed := by
    simp only [List.forall_mem_cons, List.forall_mem_append]
    exact ⟨⟨hinner, .leaf _, by simp⟩, ⟨.leaf _, by simp⟩, by simp⟩
  constructor
  · simp only [sumTree, List.forall_mem_cons]
    exact ⟨.call rfl (by simp) rfl rfl hseparated hunambiguous hslices, .leaf _, by simp⟩
  · simp [sumTree, Unambiguous]

theorem ofTokens_tokensOf_sumTree :
    WellFormed sumTree ∧ ofTokens (tokensOf sumTree) = sumTree :=
  ⟨wellFormed_sumTree, ofTokens_tokensOf_of_wellFormed wellFormed_sumTree⟩

end SheetPackages.Formula
