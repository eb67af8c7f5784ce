import Mathlib.Data.List.Infix
import SheetPackages.Proofs.Formula.Reading

/-!
# Slices of calls

Every call that is read, of any text and at any depth, is cut into slices in one way: no slice is
empty, every slice but the last ends with a separator outside brackets, and every separator before
the end of a slice stands inside a bracket that is open there. A closing bracket closes the
innermost open bracket of its kind together with all that was opened inside it; one that finds none
is a leaf like any other. A call without a closing parenthesis goes on to the end of the text.
-/

namespace SheetPackages.Formula

/-! ## Open brackets -/

/-- The bracket that belongs to a bracket; other kinds belong to themselves. -/
def TokenKind.partner : TokenKind → TokenKind
  | .openParen => .closeParen
  | .closeParen => .openParen
  | .openBracket => .closeBracket
  | .closeBracket => .openBracket
  | .openBrace => .closeBrace
  | .closeBrace => .openBrace
  | kind => kind

theorem TokenKind.partner_involutive : Function.Involutive partner := by
  intro kind
  cases kind <;> rfl

/-- The brackets left open, innermost first, when the innermost one of a kind is closed together
with those opened inside it; all of them if there is none of that kind. -/
def closeInnermost (kind : TokenKind) (opened : List TokenKind) : List TokenKind :=
  if kind ∈ opened then (opened.dropWhile (· ≠ kind)).drop 1 else opened

/-- The brackets that are open behind a node, innermost first, where `opened` are before it. -/
def openedBehind (opened : List TokenKind) : Node → List TokenKind
  | .call .. => opened
  | .leaf t =>
    match t.kind with
    | .openParen | .openBracket | .openBrace => t.kind :: opened
    | .closeParen | .closeBracket | .closeBrace => closeInnermost t.kind.partner opened
    | _ => opened

/-- The brackets that are open behind some nodes. -/
def unclosed (nodes : List Node) : List TokenKind :=
  nodes.foldl openedBehind []

theorem unclosed_append_singleton (nodes : List Node) (node : Node) :
    unclosed (nodes ++ [node]) = openedBehind (unclosed nodes) node := by
  rw [unclosed, List.foldl_append]
  rfl

theorem openedBehind_call {node : Node} (hcall : node.isLeaf = false) (opened : List TokenKind) :
    openedBehind opened node = opened := by
  cases node with
  | leaf t => cases hcall
  | call => rfl

theorem openedBehind_opener {t : Token} {kind : TokenKind} (h : Reader.owedBy? t.kind = some kind)
    (opened : List TokenKind) :
    openedBehind opened (.leaf t) = t.kind :: opened ∧ kind = t.kind.partner := by
  rw [openedBehind]
  revert h
  cases t.kind <;> simp [Reader.owedBy?, TokenKind.partner, eq_comm]

theorem openedBehind_closer {t : Token} (h : Reader.isCloser t.kind = true)
    (opened : List TokenKind) :
    openedBehind opened (.leaf t) = closeInnermost t.kind.partner opened := by
  rw [openedBehind]
  revert h
  cases t.kind <;> simp [Reader.isCloser]

theorem openedBehind_plain {t : Token} (hopener : Reader.owedBy? t.kind = none)
    (hcloser : Reader.isCloser t.kind = false) (opened : List TokenKind) :
    openedBehind opened (.leaf t) = opened := by
  rw [openedBehind]
  revert hopener hcloser
  cases t.kind <;> simp [Reader.owedBy?, Reader.isCloser]

/-- What closes a bracket can be told from what is owed for the open ones. -/
theorem map_partner_closeInnermost (kind : TokenKind) (opened : List TokenKind) :
    (closeInnermost kind.partner opened).map .partner =
      if kind ∈ opened.map .partner then ((opened.map .partner).dropWhile (· ≠ kind)).drop 1
      else opened.map .partner := by
  have hmem : kind ∈ opened.map .partner ↔ kind.partner ∈ opened :=
    List.mem_map_of_involutive TokenKind.partner_involutive
  have hpartner : (fun other ↦ decide (other ≠ kind)) ∘ TokenKind.partner =
      fun other ↦ decide (other ≠ kind.partner) := by
    funext other
    rw [Function.comp_apply, decide_eq_decide, Ne, TokenKind.partner_involutive.eq_iff, Ne]
  rw [closeInnermost]
  by_cases h : kind.partner ∈ opened
  · rw [if_pos h, if_pos (hmem.mpr h), List.dropWhile_map, hpartner, List.map_drop]
  · rw [if_neg h, if_neg (mt hmem.mp h)]

/-! ## Slices -/

/-- Every separator among the nodes stands inside a bracket that is open there. -/
def Enclosed (nodes : List Node) : Prop :=
  ∀ before t after, nodes = before ++ .leaf t :: after → t.isSeparator = true → unclosed before ≠ []

/-- The slice ends with a separator of its own, one outside brackets. -/
def Ended (slice : List Node) : Prop :=
  ∃ front separator, slice = front ++ [.leaf separator] ∧ separator.isSeparator = true ∧
    unclosed front = []

/-- How the slices of a call are cut. -/
structure Sliced (slices : List (List Node)) : Prop where
  nonempty : ∀ slice ∈ slices, slice ≠ []
  ended : ∀ slice ∈ slices.dropLast, Ended slice
  enclosed : ∀ slice ∈ slices, Enclosed slice.dropLast

theorem Ended.ne_nil {slice : List Node} (h : Ended slice) : slice ≠ [] := by
  obtain ⟨front, separator, rfl, -, -⟩ := h
  exact List.append_ne_nil_of_right_ne_nil front (List.cons_ne_nil _ _)

theorem ended_concat_iff {front : List Node} {last : Node} : Ended (front ++ [last]) ↔
    ∃ t, last = .leaf t ∧ t.isSeparator = true ∧ unclosed front = [] := by
  constructor
  · rintro ⟨other, separator, heq, hseparator, hclosed⟩
    obtain ⟨rfl, hlast⟩ := List.append_inj' heq rfl
    exact ⟨separator, List.singleton_inj.mp hlast, hseparator, hclosed⟩
  · rintro ⟨separator, rfl, hseparator, hclosed⟩
    exact ⟨front, separator, rfl, hseparator, hclosed⟩

/-- Whether a slice ends with a separator of its own. -/
def endsWithSeparator (slice : List Node) : Bool :=
  match slice.getLast? with
  | some (.leaf t) => t.isSeparator && (unclosed slice.dropLast).isEmpty
  | _ => false

theorem endsWithSeparator_iff {slice : List Node} : endsWithSeparator slice = true ↔ Ended slice := by
  rcases List.eq_nil_or_concat slice with rfl | ⟨front, last, rfl⟩
  · exact iff_of_false Bool.false_ne_true fun h ↦ h.ne_nil rfl
  · rw [List.concat_eq_append, ended_concat_iff, endsWithSeparator, List.getLast?_concat,
      List.dropLast_concat]
    cases last <;> simp

instance (slice : List Node) : Decidable (Ended slice) :=
  decidable_of_iff _ endsWithSeparator_iff

theorem enclosed_nil : Enclosed [] := by
  intro before t after h
  cases before <;> cases h

theorem Enclosed.concat {nodes : List Node} (h : Enclosed nodes) {node : Node}
    (hnode : ∀ t, node = .leaf t → t.isSeparator = true → unclosed nodes ≠ []) :
    Enclosed (nodes ++ [node]) := by
  intro before t after heq hseparator
  rcases List.eq_nil_or_concat after with rfl | ⟨more, last, rfl⟩
  · obtain ⟨rfl, hlast⟩ := List.append_inj' heq rfl
    exact hnode t (List.cons.inj hlast).1 hseparator
  · rw [List.concat_eq_append, ← List.cons_append, ← List.append_assoc] at heq
    exact h before t more (List.append_inj' heq rfl).1 hseparator

theorem Enclosed.dropLast {nodes : List Node} (h : Enclosed nodes) : Enclosed nodes.dropLast := by
  intro before t after heq hseparator
  rcases List.eq_nil_or_concat nodes with rfl | ⟨more, last, rfl⟩
  · cases before <;> cases heq
  · rw [List.concat_eq_append, List.dropLast_concat] at heq
    refine h before t (after ++ [last]) ?_ hseparator
    rw [List.concat_eq_append, heq, List.append_assoc, List.cons_append]

/-! ## Calls in nodes -/

namespace Node

theorem mem_callsIn_iff {nodes : List Node} {call : Node} :
    call ∈ callsIn nodes ↔ ∃ node ∈ nodes, call ∈ node.calls := by
  induction nodes with
  | nil => simp [callsIn]
  | cons node rest ih => rw [callsIn, List.mem_append, ih, List.exists_mem_cons_iff]

theorem mem_callsInSlices_iff {slices : List (List Node)} {call : Node} :
    call ∈ callsInSlices slices ↔ ∃ slice ∈ slices, call ∈ callsIn slice := by
  induction slices with
  | nil => simp [callsInSlices]
  | cons slice rest ih => rw [callsInSlices, List.mem_append, ih, List.exists_mem_cons_iff]

theorem callsIn_append (nodes more : List Node) :
    callsIn (nodes ++ more) = callsIn nodes ++ callsIn more := by
  induction nodes with
  | nil => rfl
  | cons node rest ih => rw [List.cons_append, callsIn, callsIn, ih, List.append_assoc]

/-- The node is a call that is cut into slices. -/
def IsSliced : Node → Prop
  | .leaf _ => False
  | .call _ _ _ slices _ => Sliced slices

/-- The node is a call with a closing parenthesis. -/
def IsClosed : Node → Prop
  | .leaf _ => False
  | .call _ _ _ _ closing => closing.isSome = true

instance (node : Node) : Decidable node.IsClosed :=
  match node with
  | .leaf _ => inferInstanceAs (Decidable False)
  | .call _ _ _ _ closing => inferInstanceAs (Decidable (closing.isSome = true))

/-- A delimited node has delimited calls only. -/
theorem Delimited.of_mem_calls {node : Node} (h : node.Delimited) :
    ∀ call ∈ node.calls, call.Delimited := by
  induction h with
  | leaf t => exact fun _ hcall ↦ absurd hcall List.not_mem_nil
  | call hname hspace hopening hclosing hslices ih =>
    intro call hcall
    rcases List.mem_cons.mp hcall with rfl | hinner
    · exact .call hname hspace hopening hclosing hslices
    · obtain ⟨slice, hslice, hinner⟩ := mem_callsInSlices_iff.mp hinner
      obtain ⟨node, hnode, hinner⟩ := mem_callsIn_iff.mp hinner
      exact ih slice hslice node hnode call hinner

end Node

open Node (callsIn callsInSlices)

/-! ## Open calls -/

/-- How the slices of an open call are cut so far, and what its open brackets owe. -/
structure OpenCall.Cut (c : OpenCall) : Prop where
  slices : ∀ slice ∈ c.slices, Ended slice ∧ Enclosed slice.dropLast
  current : Enclosed c.current.reverse
  owed : c.owed = (unclosed c.current.reverse).map .partner

/-- The finished calls in an open one. -/
def OpenCall.calls (c : OpenCall) : List Node :=
  callsIn c.current ++ callsInSlices c.slices

namespace OpenCall

variable {c : OpenCall} {call node : Node} {t : Token}

theorem Cut.owed_eq_nil_iff (h : c.Cut) : c.owed = [] ↔ unclosed c.current.reverse = [] := by
  rw [h.owed, List.map_eq_nil_iff]

/-- A node is put behind those of the current slice. -/
theorem Cut.add (h : c.Cut) {owed : List TokenKind}
    (hseparator : ∀ t, node = .leaf t → t.isSeparator = true → c.owed ≠ [])
    (howed : owed = (openedBehind (unclosed c.current.reverse) node).map .partner) :
    { c.add node with owed }.Cut where
  slices := h.slices
  current := by
    change Enclosed (node :: c.current).reverse
    rw [List.reverse_cons]
    exact h.current.concat fun t hleaf hkind ↦ mt h.owed_eq_nil_iff.mpr (hseparator t hleaf hkind)
  owed := by
    change owed = (unclosed (node :: c.current).reverse).map .partner
    rw [List.reverse_cons, unclosed_append_singleton, howed]

theorem Cut.addCall (h : c.Cut) (hcall : node.isLeaf = false) : (c.add node).Cut := by
  refine h.add (fun t hleaf ↦ ?_) ?_
  · rw [hleaf] at hcall
    cases hcall
  · rw [openedBehind_call hcall]
    exact h.owed

theorem Cut.addPlain (h : c.Cut) (hopener : Reader.owedBy? t.kind = none)
    (hcloser : Reader.isCloser t.kind = false) (hseparator : t.isSeparator = true → c.owed ≠ []) :
    (c.add (.leaf t)).Cut := by
  refine h.add (fun u hleaf ↦ ?_) ?_
  · obtain rfl := Node.leaf.inj hleaf
    exact hseparator
  · rw [openedBehind_plain hopener hcloser]
    exact h.owed

theorem Cut.addOpener (h : c.Cut) {kind : TokenKind} (hkind : Reader.owedBy? t.kind = some kind) :
    { c.add (.leaf t) with owed := kind :: c.owed }.Cut := by
  obtain ⟨hopened, rfl⟩ := openedBehind_opener hkind (unclosed c.current.reverse)
  refine h.add (fun u hleaf hseparator ↦ ?_) ?_
  · obtain rfl := Node.leaf.inj hleaf
    revert hkind hseparator
    rw [Token.isSeparator]
    cases t.kind <;> simp [Reader.owedBy?]
  · rw [hopened, List.map_cons, ← h.owed]

theorem Cut.addCloser (h : c.Cut) (hkind : Reader.isCloser t.kind = true) :
    ((c.settle t.kind).add (.leaf t)).Cut := by
  have howed : (c.settle t.kind).owed =
      (openedBehind (unclosed c.current.reverse) (.leaf t)).map .partner := by
    rw [openedBehind_closer hkind, map_partner_closeInnermost, ← h.owed, settle]
    split <;> rfl
  have hsame : (c.settle t.kind).add (.leaf t) =
      { c.add (.leaf t) with owed := (c.settle t.kind).owed } := by
    unfold settle
    split <;> rfl
  rw [hsame]
  refine h.add (fun u hleaf hseparator ↦ ?_) howed
  obtain rfl := Node.leaf.inj hleaf
  revert hkind hseparator
  rw [Token.isSeparator]
  cases t.kind <;> simp [Reader.isCloser]

theorem Cut.endSlice (h : c.Cut) (hkind : t.isSeparator = true) (howed : c.owed = []) :
    (c.endSlice t).Cut where
  slices := by
    refine List.forall_mem_cons.mpr ⟨?_, h.slices⟩
    rw [List.reverse_cons, List.dropLast_concat]
    exact ⟨⟨_, t, rfl, hkind, h.owed_eq_nil_iff.mp howed⟩, h.current⟩
  current := enclosed_nil
  owed := howed

theorem Cut.isSliced_node (h : c.Cut) (closing : Option Token) : (c.node closing).IsSliced := by
  have hne : ∀ slice ∈ c.slices, slice ≠ [] := fun slice hslice ↦ (h.slices slice hslice).1.ne_nil
  cases hcurrent : c.current with
  | nil =>
    have hnode : c.node closing =
        .call c.name c.space c.opening c.slices.reverse closing := by simp [node, hcurrent]
    rw [hnode]
    refine ⟨fun slice hslice ↦ ?_, fun slice hslice ↦ ?_, fun slice hslice ↦ ?_⟩
    · exact hne slice (List.mem_reverse.mp hslice)
    · exact (h.slices slice (List.mem_reverse.mp (List.mem_of_mem_dropLast hslice))).1
    · exact (h.slices slice (List.mem_reverse.mp hslice)).2
  | cons last front =>
    have hnode : c.node closing = .call c.name c.space c.opening
        (c.slices.reverse ++ [c.current.reverse]) closing := by simp [node, hcurrent]
    rw [hnode]
    refine ⟨List.forall_mem_append.mpr ⟨fun slice hslice ↦ ?_, ?_⟩, ?_,
      List.forall_mem_append.mpr ⟨fun slice hslice ↦ ?_, ?_⟩⟩
    · exact hne slice (List.mem_reverse.mp hslice)
    · simp [hcurrent]
    · rw [List.dropLast_concat]
      exact fun slice hslice ↦ (h.slices slice (List.mem_reverse.mp hslice)).1
    · exact (h.slices slice (List.mem_reverse.mp hslice)).2
    · exact List.forall_mem_singleton.mpr h.current.dropLast

theorem mem_calls_add : call ∈ (c.add node).calls ↔ call ∈ node.calls ∨ call ∈ c.calls := by
  rw [calls, calls, add, callsIn, List.append_assoc, List.mem_append]

theorem mem_calls_endSlice : call ∈ (c.endSlice t).calls ↔ call ∈ c.calls := by
  simp only [calls, endSlice, callsIn, callsInSlices, List.nil_append, List.mem_append,
    Node.mem_callsIn_iff, List.mem_reverse, List.mem_cons]
  simp [Node.calls]

theorem calls_settle (kind : TokenKind) : (c.settle kind).calls = c.calls := by
  unfold settle
  split <;> rfl

theorem mem_calls_node {closing : Option Token} :
    call ∈ (c.node closing).calls ↔ call = c.node closing ∨ call ∈ c.calls := by
  rw [node, Node.calls, List.mem_cons]
  refine or_congr_right ?_
  cases hcurrent : c.current <;>
    simp [calls, hcurrent, Node.mem_callsIn_iff, Node.mem_callsInSlices_iff, callsIn, or_comm,
      or_assoc]

end OpenCall

/-! ## Steps of a reader -/

/-- All calls of a node are cut into slices, and closed. -/
def Node.Settled (node : Node) : Prop :=
  ∀ call ∈ node.calls, call.IsSliced ∧ call.IsClosed

/-- The open calls are cut so far, and the calls in them and outside are finished. -/
structure Reader.Settled (r : Reader) : Prop where
  cut : ∀ c ∈ r.calls, c.Cut
  calls : ∀ c ∈ r.calls, ∀ call ∈ c.calls, call.IsSliced ∧ call.IsClosed
  nodes : ∀ node ∈ r.nodes, node.Settled

namespace Reader

theorem punctuation?_eq_none {c : OpenCall} {outer : List OpenCall} {nodes : List Node} {t : Token}
    (h : punctuation? ⟨c :: outer, nodes⟩ t = none) :
    owedBy? t.kind = none ∧ isCloser t.kind = false ∧ (t.isSeparator = true → c.owed ≠ []) := by
  unfold punctuation? at h
  simp only at h
  split at h
  · cases h
  · split at h
    · cases h
    · next hends =>
      split at h
      · cases h
      · next hopener =>
        split at h
        · cases h
        · next hcloser =>
          exact ⟨hopener, Bool.eq_false_iff.mpr hcloser, fun hkind howed ↦ hends ⟨hkind, howed⟩⟩

theorem settled_leaf (t : Token) : (Node.leaf t).Settled :=
  fun _ hcall ↦ absurd hcall List.not_mem_nil

/-- The innermost open call may become another one that is cut and has no further calls in it. -/
theorem Settled.replace {c d : OpenCall} {outer : List OpenCall} {nodes : List Node}
    (h : Settled ⟨c :: outer, nodes⟩) (hcut : d.Cut) (hcalls : ∀ call ∈ d.calls, call ∈ c.calls) :
    Settled ⟨d :: outer, nodes⟩ where
  cut := List.forall_mem_cons.mpr ⟨hcut, (List.forall_mem_cons.mp h.cut).2⟩
  calls := by
    obtain ⟨hc, houter⟩ := List.forall_mem_cons.mp h.calls
    exact List.forall_mem_cons.mpr ⟨fun call hcall ↦ hc call (hcalls call hcall), houter⟩
  nodes := h.nodes

theorem Settled.add {r : Reader} (h : r.Settled) {node : Node}
    (hcut : ∀ c ∈ r.calls.head?, (c.add node).Cut) (hnode : node.Settled) :
    (r.add node).Settled := by
  obtain ⟨calls, nodes⟩ := r
  cases calls with
  | nil => exact ⟨h.cut, h.calls, List.forall_mem_cons.mpr ⟨hnode, h.nodes⟩⟩
  | cons c outer =>
    obtain ⟨hc, houter⟩ := List.forall_mem_cons.mp h.calls
    refine ⟨List.forall_mem_cons.mpr ⟨hcut c rfl, ?_⟩,
      List.forall_mem_cons.mpr ⟨fun call hcall ↦ ?_, houter⟩, h.nodes⟩
    · exact (List.forall_mem_cons.mp h.cut).2
    · exact (OpenCall.mem_calls_add.mp hcall).elim (hnode call) (hc call)

theorem Settled.takes {r s : Reader} (h : r.Settled) {taken : List Token}
    (htakes : Takes r taken s) : s.Settled := by
  cases htakes with
  | @closing c outer nodes t hkind howed =>
    obtain ⟨hcut, hcuts⟩ := List.forall_mem_cons.mp h.cut
    obtain ⟨hc, houter⟩ := List.forall_mem_cons.mp h.calls
    have hfinished : (c.node (some t)).Settled := by
      intro call hcall
      rcases OpenCall.mem_calls_node.mp hcall with rfl | hinner
      · exact ⟨hcut.isSliced_node _, rfl⟩
      · exact hc call hinner
    exact add (r := ⟨outer, nodes⟩) ⟨hcuts, houter, h.nodes⟩
      (fun d hd ↦ (hcuts d (List.mem_of_head? hd)).addCall rfl) hfinished
  | separator hkind howed =>
    have hcut := h.cut _ List.mem_cons_self
    exact h.replace (hcut.endSlice hkind howed) fun call ↦ OpenCall.mem_calls_endSlice.mp
  | opener hkind =>
    have hcut := h.cut _ List.mem_cons_self
    refine h.replace (hcut.addOpener hkind) fun call hcall ↦ ?_
    exact (OpenCall.mem_calls_add.mp hcall).resolve_left List.not_mem_nil
  | @closer c _ _ t hkind howed =>
    have hcut := h.cut _ List.mem_cons_self
    refine h.replace (hcut.addCloser hkind) fun call hcall ↦ ?_
    rw [← OpenCall.calls_settle t.kind]
    exact (OpenCall.mem_calls_add.mp hcall).resolve_left List.not_mem_nil
  | name hkind hspace hopening =>
    refine ⟨List.forall_mem_cons.mpr ⟨⟨?_, enclosed_nil, rfl⟩, h.cut⟩,
      List.forall_mem_cons.mpr ⟨?_, h.calls⟩, h.nodes⟩
    · exact fun _ hslice ↦ absurd hslice List.not_mem_nil
    · exact fun _ hcall ↦ absurd hcall List.not_mem_nil
  | @leaf _ t hplain =>
    refine h.add (fun c hc ↦ ?_) (settled_leaf t)
    obtain ⟨calls, nodes⟩ := r
    obtain ⟨outer, rfl⟩ := List.head?_eq_some_iff.mp hc
    obtain ⟨hopener, hcloser, hseparator⟩ := punctuation?_eq_none hplain
    exact (h.cut c List.mem_cons_self).addPlain hopener hcloser hseparator

theorem Settled.reads {r last : Reader} (h : r.Settled) {taken : List Token}
    (hreads : Reads r taken last) : last.Settled := by
  induction hreads with
  | done => exact h
  | more htakes _ ih => exact ih (h.takes htakes)

/-! ## The end of a text -/

/-- A call that is cut into slices and, if it is not closed, goes on to the end of some tokens. -/
structure Terminated (tokens : List Token) (call : Node) : Prop where
  sliced : call.IsSliced
  complete : call.IsClosed ∨ call.tokens <:+ tokens

theorem Terminated.mono {tokens more : List Token} {call : Node} (h : Terminated tokens call)
    (hsuffix : tokens <:+ more) : Terminated more call :=
  ⟨h.sliced, h.complete.imp_right (·.trans hsuffix)⟩

theorem terminated_of_settled {tokens : List Token} {nodes : List Node}
    (h : ∀ node ∈ nodes, node.Settled) : ∀ call ∈ callsIn nodes, Terminated tokens call := by
  intro call hcall
  obtain ⟨node, hnode, hcall⟩ := Node.mem_callsIn_iff.mp hcall
  obtain ⟨hsliced, hclosed⟩ := h node hnode call hcall
  exact ⟨hsliced, .inl hclosed⟩

theorem terminated_node {c : OpenCall} (hcut : c.Cut)
    (hinner : ∀ call ∈ c.calls, Terminated c.tokens call) :
    ∀ call ∈ (c.node none).calls, Terminated (c.node none).tokens call := by
  have htokens : (c.node none).tokens = c.tokens := by simp
  intro call hcall
  rcases OpenCall.mem_calls_node.mp hcall with rfl | hcall
  · exact ⟨hcut.isSliced_node none, .inr List.suffix_rfl⟩
  · rw [htokens]
    exact hinner call hcall

/-- The calls that end with the text are put into one another, the innermost one first. -/
theorem terminated_finish {nodes : List Node} {calls : List OpenCall}
    (hcut : ∀ c ∈ calls, c.Cut) (hnodes : ∀ node ∈ nodes, node.Settled)
    (hinner : ∀ c ∈ calls.head?, ∀ call ∈ c.calls, Terminated c.tokens call)
    (houter : ∀ c ∈ calls.tail, ∀ call ∈ c.calls, call.IsSliced ∧ call.IsClosed) :
    ∀ call ∈ callsIn (finish nodes calls), Terminated (tokensOf (finish nodes calls)) call := by
  induction calls using finish.induct with
  | case1 =>
    rw [finish]
    exact terminated_of_settled fun node hnode ↦ hnodes node (List.mem_reverse.mp hnode)
  | case2 c =>
    have hlast := terminated_node (hcut c List.mem_cons_self) (hinner c rfl)
    have htokens : tokensOf [c.node none] = (c.node none).tokens := by simp
    rw [finish, List.reverse_cons, Node.callsIn_append, tokensOf_append, htokens]
    refine List.forall_mem_append.mpr ⟨?_, fun call hcall ↦ ?_⟩
    · exact terminated_of_settled fun node hnode ↦ hnodes node (List.mem_reverse.mp hnode)
    · obtain ⟨node, hnode, hcall⟩ := Node.mem_callsIn_iff.mp hcall
      obtain rfl := List.mem_singleton.mp hnode
      exact (hlast call hcall).mono (List.suffix_append _ _)
  | case3 c outer rest ih =>
    have hlast := terminated_node (hcut c List.mem_cons_self) (hinner c rfl)
    obtain ⟨hout, hcuts⟩ := List.forall_mem_cons.mp (List.forall_mem_cons.mp hcut).2
    obtain ⟨hclosed, hrest⟩ := List.forall_mem_cons.mp houter
    rw [finish]
    refine ih (List.forall_mem_cons.mpr ⟨hout.addCall rfl, hcuts⟩) ?_ hrest
    intro d hd call hcall
    obtain rfl := Option.mem_some_iff.mp hd
    rcases OpenCall.mem_calls_add.mp hcall with hcall | hcall
    · rw [OpenCall.tokens_add]
      exact (hlast call hcall).mono (List.suffix_append _ _)
    · exact ⟨(hclosed call hcall).1, .inl (hclosed call hcall).2⟩

end Reader

theorem terminated_ofTokens (tokens : List Token) :
    ∀ call ∈ callsIn (ofTokens tokens), Reader.Terminated tokens call := by
  obtain ⟨last, hreads, -, hrun⟩ := Reader.reads_run {} tokens (Nat.le_refl _)
  have hstart : Reader.Settled {} := ⟨by simp, by simp, by simp⟩
  have hlast := hstart.reads hreads
  have hfinish := Reader.terminated_finish hlast.cut hlast.nodes
    (fun c hc call hcall ↦ ?_) fun c hc ↦ hlast.calls c (List.mem_of_mem_tail hc)
  · rwa [← hrun, ← ofTokens, tokensOf_ofTokens] at hfinish
  · obtain ⟨hsliced, hclosed⟩ := hlast.calls c (List.mem_of_head? hc) call hcall
    exact ⟨hsliced, .inl hclosed⟩

/-! ## Calls of a text -/

/-- The form of a call in the tree of some tokens. -/
inductive Regular (tokens : List Token) : Node → Prop
  | call {name : Token} {space : List Token} {opening : Token} {slices : List (List Node)}
      {closing : Option Token} (hname : name.kind = .identifier)
      (hspace : ∀ t ∈ space, t.kind = .blank) (hopening : opening.kind = .openParen)
      (hclosing : ∀ t ∈ closing, t.kind = .closeParen) (hslices : Sliced slices)
      (hcomplete : closing = none → (Node.call name space opening slices closing).tokens <:+ tokens) :
      Regular tokens (.call name space opening slices closing)

/-- Every call in the tree of a text, at any depth, has its form, whatever the text is. -/
theorem regular_of_mem_calls (formula : String) :
    ∀ call ∈ callsIn (parse formula), Regular (tokenize formula) call := by
  intro call hcall
  obtain ⟨hsliced, hcomplete⟩ := terminated_ofTokens (tokenize formula) call hcall
  have hdelimited : call.Delimited := by
    obtain ⟨node, hnode, hcall⟩ := Node.mem_callsIn_iff.mp hcall
    exact (delimited_ofTokens _ node hnode).of_mem_calls call hcall
  cases hdelimited with
  | leaf t => exact hsliced.elim
  | call hname hspace hopening hclosing =>
    refine .call hname hspace hopening hclosing hsliced fun hopen ↦ ?_
    refine hcomplete.resolve_left fun hclosed ↦ ?_
    rw [hopen] at hclosed
    cases hclosed

/-- A brace closes the parenthesis inside it, one call ends inside a bracket, and the other one with
the text. -/
theorem regular_of_mem_calls_mismatched :
    let formula := "F(]a,\x7bb;(c\x7d,G (d,[e;f)"
    ∃ outer inner, callsIn (parse formula) = [outer, inner] ∧
      Regular (tokenize formula) outer ∧ ¬outer.IsClosed ∧ outer.tokens = tokenize formula ∧
      Regular (tokenize formula) inner ∧ inner.IsClosed := by
  intro formula
  have hlength : (callsIn (parse formula)).length = 2 := by decide +kernel
  obtain ⟨outer, inner, hcalls⟩ := List.length_eq_two.mp hlength
  have hclosed : (callsIn (parse formula)).map (fun call ↦ decide call.IsClosed) =
      [false, true] := by decide +kernel
  have htokens : (callsIn (parse formula)).head?.map Node.tokens = some (tokenize formula) := by
    decide +kernel
  have hregular := regular_of_mem_calls formula
  rw [hcalls] at hclosed htokens hregular
  obtain ⟨houter, hinner⟩ : decide outer.IsClosed = false ∧ decide inner.IsClosed = true := by
    simpa using hclosed
  exact ⟨outer, inner, hcalls, hregular outer (by simp), of_decide_eq_false houter,
    Option.some.inj htokens, hregular inner (by simp), of_decide_eq_true hinner⟩

end SheetPackages.Formula
