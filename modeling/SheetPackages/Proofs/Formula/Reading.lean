import Mathlib.Logic.Function.Iterate
import SheetPackages.Proofs.Formula.Leaves

/-!
# Reading formula trees

A reader takes the tokens of a text in a few ways, each of which puts them behind those it has
taken before. So a tree has exactly the tokens it was read from, in their order, and every call in
it has its name, blanks and parentheses where they belong. The text may be malformed: calls that
the text does not close are finished at its end.
-/

namespace SheetPackages.Formula

/-! ## Steps of a reader -/

namespace Reader

/-- Taking some tokens leads from one reader to the next. -/
inductive Takes : Reader → List Token → Reader → Prop
  | closing {c : OpenCall} {outer : List OpenCall} {nodes : List Node} {t : Token}
      (hkind : t.kind = .closeParen) (howed : .closeParen ∉ c.owed) :
      Takes ⟨c :: outer, nodes⟩ [t] (add ⟨outer, nodes⟩ (c.node (some t)))
  | separator {c : OpenCall} {outer : List OpenCall} {nodes : List Node} {t : Token}
      (hkind : t.isSeparator = true) (howed : c.owed = []) :
      Takes ⟨c :: outer, nodes⟩ [t] ⟨c.endSlice t :: outer, nodes⟩
  | opener {c : OpenCall} {outer : List OpenCall} {nodes : List Node} {t : Token}
      {kind : TokenKind} (hkind : owedBy? t.kind = some kind) :
      Takes ⟨c :: outer, nodes⟩ [t]
        ⟨{ c.add (.leaf t) with owed := kind :: c.owed } :: outer, nodes⟩
  | closer {c : OpenCall} {outer : List OpenCall} {nodes : List Node} {t : Token}
      (hkind : isCloser t.kind = true) (howed : t.kind = .closeParen → .closeParen ∈ c.owed) :
      Takes ⟨c :: outer, nodes⟩ [t] ⟨(c.settle t.kind).add (.leaf t) :: outer, nodes⟩
  | name {r : Reader} {t opening : Token} {space : List Token} (hkind : t.kind = .identifier)
      (hspace : ∀ s ∈ space, s.kind = .blank) (hopening : opening.kind = .openParen) :
      Takes r (t :: space ++ [opening])
        { r with calls := ⟨t, space, opening, [], [], []⟩ :: r.calls }
  | leaf {r : Reader} {t : Token} (hplain : r.punctuation? t = none) :
      Takes r [t] (r.add (.leaf t))

/-- Taking all of some tokens, one step after the other. -/
inductive Reads : Reader → List Token → Reader → Prop
  | done {r : Reader} : Reads r [] r
  | more {r s last : Reader} {taken rest : List Token} (htakes : Takes r taken s)
      (hreads : Reads s rest last) : Reads r (taken ++ rest) last

theorem takes_punctuation {r next : Reader} {t : Token} (h : r.punctuation? t = some next) :
    Takes r [t] next := by
  obtain ⟨calls, nodes⟩ := r
  cases calls with
  | nil => cases h
  | cons c outer =>
    unfold punctuation? at h
    simp only at h
    split at h
    · next hclosing =>
      cases h
      exact .closing hclosing.1 hclosing.2
    · next hinside =>
      split at h
      · next hseparator =>
        cases h
        exact .separator hseparator.1 hseparator.2
      · split at h
        · next kind hopener =>
          cases h
          exact .opener hopener
        · split at h
          · next hcloser =>
            cases h
            refine .closer hcloser fun hkind ↦ Decidable.byContradiction fun hmissing ↦ ?_
            exact hinside ⟨hkind, hmissing⟩
          · cases h

theorem callOpening?_spec {rest space after : List Token} {opening : Token}
    (h : callOpening? rest = some (space, opening, after)) :
    rest = space ++ opening :: after ∧ (∀ s ∈ space, s.kind = .blank) ∧
      opening.kind = .openParen := by
  unfold callOpening? at h
  split at h
  · next t more heq =>
    split at h
    · next hkind =>
      cases h
      refine ⟨?_, fun s hs ↦ ?_, hkind⟩
      · rw [← heq, List.takeWhile_append_dropWhile]
      · simpa [isBlankToken] using List.all_eq_true.mp List.all_takeWhile s hs
    · cases h
  · cases h

theorem run_of_punctuation {r next : Reader} {t : Token} (rest : List Token)
    (h : r.punctuation? t = some next) : run r (t :: rest) = run next rest := by
  rw [run, h]

theorem run_of_callOpening {r : Reader} {t opening : Token} {rest space after : List Token}
    (h : r.punctuation? t = none) (hkind : t.kind = .identifier)
    (hopening : callOpening? rest = some (space, opening, after)) :
    run r (t :: rest) =
      run { r with calls := ⟨t, space, opening, [], [], []⟩ :: r.calls } after := by
  rw [run, h]
  simp only
  rw [if_pos hkind]
  split
  · next heq =>
    rw [hopening] at heq
    cases heq
    rfl
  · next heq =>
    rw [hopening] at heq
    cases heq

theorem run_of_leaf {r : Reader} {t : Token} {rest : List Token} (h : r.punctuation? t = none)
    (hleaf : t.kind = .identifier → callOpening? rest = none) :
    run r (t :: rest) = run (r.add (.leaf t)) rest := by
  rw [run, h]
  simp only
  split
  · next hkind =>
    split
    · next heq =>
      rw [hleaf hkind] at heq
      cases heq
    · rfl
  · rfl

/-- The reader and the remaining tokens once the first of them is taken, with those behind it that
open its call. -/
def step : Reader × List Token → Reader × List Token
  | (r, []) => (r, [])
  | (r, t :: rest) =>
    match r.punctuation? t with
    | some next => (next, rest)
    | none =>
      match if t.kind = .identifier then callOpening? rest else none with
      | some (space, opening, after) =>
        ({ r with calls := ⟨t, space, opening, [], [], []⟩ :: r.calls }, after)
      | none => (r.add (.leaf t), rest)

/-- A step takes at least one token, and reading goes on behind those it takes. -/
theorem exists_step_eq (r : Reader) (t : Token) (rest : List Token) :
    ∃ more next after, step (r, t :: rest) = (next, after) ∧ rest = more ++ after ∧
      Takes r (t :: more) next ∧ run r (t :: rest) = run next after := by
  cases hpunctuation : r.punctuation? t with
  | some next =>
    refine ⟨[], next, rest, ?_, rfl, takes_punctuation hpunctuation,
      run_of_punctuation rest hpunctuation⟩
    simp only [step, hpunctuation]
  | none =>
    cases hname : if t.kind = .identifier then callOpening? rest else none with
    | none =>
      have hleaf : t.kind = .identifier → callOpening? rest = none := fun hkind ↦ by
        rwa [if_pos hkind] at hname
      refine ⟨[], r.add (.leaf t), rest, ?_, rfl, .leaf hpunctuation,
        run_of_leaf hpunctuation hleaf⟩
      simp only [step, hpunctuation, hname]
    | some opened =>
      obtain ⟨space, opening, after⟩ := opened
      have hstep : step (r, t :: rest) =
          ({ r with calls := ⟨t, space, opening, [], [], []⟩ :: r.calls }, after) := by
        simp only [step, hpunctuation, hname]
      obtain ⟨hkind, hopening⟩ : t.kind = .identifier ∧
          callOpening? rest = some (space, opening, after) := by
        by_cases hkind : t.kind = .identifier
        · exact ⟨hkind, by rwa [if_pos hkind] at hname⟩
        · rw [if_neg hkind] at hname
          cases hname
      obtain ⟨hrest, hspace, hparen⟩ := callOpening?_spec hopening
      refine ⟨space ++ [opening], _, after, hstep, ?_, .name hkind hspace hparen,
        run_of_callOpening hpunctuation hkind hopening⟩
      rw [hrest, List.append_assoc, List.singleton_append]

/-- Whatever the tokens are, a reader takes all of them, in no more steps than there are. -/
theorem reads_run (r : Reader) (tokens : List Token) {n : Nat} (hn : tokens.length ≤ n) :
    ∃ last, Reads r tokens last ∧ step^[n] (r, tokens) = (last, []) ∧
      run r tokens = finish last.nodes last.calls := by
  induction n generalizing r tokens with
  | zero =>
    obtain rfl := List.length_eq_zero_iff.mp (Nat.le_zero.mp hn)
    exact ⟨r, .done, rfl, by rw [run]⟩
  | succ n ih =>
    cases tokens with
    | nil => exact ih r [] (Nat.zero_le n)
    | cons t rest =>
      obtain ⟨more, next, after, hstep, rfl, htakes, hrest⟩ := exists_step_eq r t rest
      have hafter : after.length ≤ n := by
        rw [List.length_cons, List.length_append] at hn
        omega
      obtain ⟨last, hreads, hsteps, hrun⟩ := ih next after hafter
      refine ⟨last, ?_, ?_, hrest.trans hrun⟩
      · rw [← List.cons_append]
        exact .more htakes hreads
      · rw [Function.iterate_succ_apply, hstep, hsteps]

end Reader

/-! ## Tokens -/

/-- The tokens taken for a call so far. -/
def OpenCall.tokens (c : OpenCall) : List Token :=
  c.name :: c.space ++ c.opening :: c.slices.reverse.flatMap tokensOf ++ tokensOf c.current.reverse

@[simp]
theorem OpenCall.tokens_add (c : OpenCall) (node : Node) :
    (c.add node).tokens = c.tokens ++ node.tokens := by
  simp [tokens, add]

@[simp]
theorem OpenCall.tokens_endSlice (c : OpenCall) (t : Token) :
    (c.endSlice t).tokens = c.tokens ++ [t] := by
  simp [tokens, endSlice]

theorem OpenCall.tokens_owing (c : OpenCall) (owed : List TokenKind) :
    { c with owed }.tokens = c.tokens := rfl

@[simp]
theorem OpenCall.tokens_settle (c : OpenCall) (kind : TokenKind) :
    (c.settle kind).tokens = c.tokens := by
  unfold settle
  split <;> rfl

@[simp]
theorem OpenCall.tokens_node (c : OpenCall) (closing : Option Token) :
    (c.node closing).tokens = c.tokens ++ closing.toList := by
  unfold node tokens
  cases c.current <;> simp

namespace Reader

/-- The tokens taken so far, the outermost call before those inside it. -/
def tokens (r : Reader) : List Token :=
  tokensOf r.nodes.reverse ++ r.calls.reverse.flatMap OpenCall.tokens

@[simp]
theorem tokens_add (r : Reader) (node : Node) : (r.add node).tokens = r.tokens ++ node.tokens := by
  obtain ⟨calls, nodes⟩ := r
  cases calls <;> simp [tokens, add]

theorem Takes.tokens {r s : Reader} {taken : List Token} (h : Takes r taken s) :
    s.tokens = r.tokens ++ taken := by
  cases h with
  | closing =>
    rw [tokens_add]
    simp [Reader.tokens]
  | separator => simp [Reader.tokens]
  | opener => simp [Reader.tokens, OpenCall.tokens_owing]
  | closer => simp [Reader.tokens]
  | name => simp [Reader.tokens, OpenCall.tokens]
  | leaf => simp

theorem Reads.tokens {r last : Reader} {taken : List Token} (h : Reads r taken last) :
    last.tokens = r.tokens ++ taken := by
  induction h with
  | done => rw [List.append_nil]
  | more htakes _ ih => rw [ih, htakes.tokens, List.append_assoc]

theorem tokensOf_finish (nodes : List Node) (calls : List OpenCall) :
    tokensOf (finish nodes calls) = tokens ⟨calls, nodes⟩ := by
  induction calls using finish.induct with
  | case1 => simp [finish, tokens]
  | case2 c => simp [finish, tokens]
  | case3 c outer rest ih =>
    rw [finish, ih]
    simp [tokens]

end Reader

/-- Reading loses no token. -/
theorem tokensOf_ofTokens (tokens : List Token) : tokensOf (ofTokens tokens) = tokens := by
  obtain ⟨last, hreads, -, hrun⟩ := Reader.reads_run {} tokens (Nat.le_refl _)
  calc
    tokensOf (ofTokens tokens) = last.tokens := by rw [ofTokens, hrun, Reader.tokensOf_finish]
    _ = Reader.tokens {} ++ tokens := hreads.tokens
    _ = tokens := rfl

/-! ## Delimiters -/

/-- Every call has a name, blanks and parentheses for what they are taken. -/
inductive Node.Delimited : Node → Prop
  | leaf (t : Token) : Delimited (.leaf t)
  | call {name : Token} {space : List Token} {opening : Token} {slices : List (List Node)}
      {closing : Option Token} (hname : name.kind = .identifier)
      (hspace : ∀ t ∈ space, t.kind = .blank) (hopening : opening.kind = .openParen)
      (hclosing : ∀ t ∈ closing, t.kind = .closeParen)
      (hslices : ∀ slice ∈ slices, ∀ node ∈ slice, Delimited node) :
      Delimited (.call name space opening slices closing)

structure OpenCall.Delimited (c : OpenCall) : Prop where
  name : c.name.kind = .identifier
  space : ∀ t ∈ c.space, t.kind = .blank
  opening : c.opening.kind = .openParen
  slices : ∀ slice ∈ c.slices, ∀ node ∈ slice, node.Delimited
  current : ∀ node ∈ c.current, node.Delimited

namespace OpenCall.Delimited

variable {c : OpenCall}

theorem add (h : c.Delimited) {node : Node} (hnode : node.Delimited) : (c.add node).Delimited where
  name := h.name
  space := h.space
  opening := h.opening
  slices := h.slices
  current := List.forall_mem_cons.mpr ⟨hnode, h.current⟩

theorem endSlice (h : c.Delimited) (t : Token) : (c.endSlice t).Delimited where
  name := h.name
  space := h.space
  opening := h.opening
  slices := by
    refine List.forall_mem_cons.mpr ⟨fun node hnode ↦ ?_, h.slices⟩
    rcases List.mem_cons.mp (List.mem_reverse.mp hnode) with rfl | hnode
    · exact .leaf t
    · exact h.current node hnode
  current := fun _ hnode ↦ absurd hnode List.not_mem_nil

theorem owing (h : c.Delimited) (owed : List TokenKind) : { c with owed }.Delimited :=
  ⟨h.name, h.space, h.opening, h.slices, h.current⟩

theorem settle (h : c.Delimited) (kind : TokenKind) : (c.settle kind).Delimited := by
  unfold OpenCall.settle
  split
  · exact h.owing _
  · exact h

theorem node (h : c.Delimited) {closing : Option Token}
    (hclosing : ∀ t ∈ closing, t.kind = .closeParen) : (c.node closing).Delimited := by
  refine .call h.name h.space h.opening hclosing fun slice hslice node hnode ↦ ?_
  split at hslice
  · exact h.slices slice (List.mem_reverse.mp hslice) node hnode
  · rcases List.mem_cons.mp (List.mem_reverse.mp hslice) with rfl | hslice
    · exact h.current node (List.mem_reverse.mp hnode)
    · exact h.slices slice hslice node hnode

end OpenCall.Delimited

namespace Reader

structure Delimited (r : Reader) : Prop where
  calls : ∀ c ∈ r.calls, c.Delimited
  nodes : ∀ node ∈ r.nodes, node.Delimited

theorem Delimited.add {r : Reader} (h : r.Delimited) {node : Node} (hnode : node.Delimited) :
    (r.add node).Delimited := by
  obtain ⟨calls, nodes⟩ := r
  cases calls with
  | nil => exact ⟨h.calls, List.forall_mem_cons.mpr ⟨hnode, h.nodes⟩⟩
  | cons c outer =>
    obtain ⟨hc, houter⟩ := List.forall_mem_cons.mp h.calls
    exact ⟨List.forall_mem_cons.mpr ⟨hc.add hnode, houter⟩, h.nodes⟩

theorem Delimited.takes {r s : Reader} (h : r.Delimited) {taken : List Token}
    (htakes : Takes r taken s) : s.Delimited := by
  cases htakes with
  | closing hkind =>
    obtain ⟨hc, houter⟩ := List.forall_mem_cons.mp h.calls
    exact add (r := ⟨_, _⟩) ⟨houter, h.nodes⟩ (hc.node (by simp [hkind]))
  | separator =>
    obtain ⟨hc, houter⟩ := List.forall_mem_cons.mp h.calls
    exact ⟨List.forall_mem_cons.mpr ⟨hc.endSlice _, houter⟩, h.nodes⟩
  | opener =>
    obtain ⟨hc, houter⟩ := List.forall_mem_cons.mp h.calls
    exact ⟨List.forall_mem_cons.mpr ⟨(hc.add (.leaf _)).owing _, houter⟩, h.nodes⟩
  | closer =>
    obtain ⟨hc, houter⟩ := List.forall_mem_cons.mp h.calls
    exact ⟨List.forall_mem_cons.mpr ⟨(hc.settle _).add (.leaf _), houter⟩, h.nodes⟩
  | name hkind hspace hopening =>
    exact ⟨List.forall_mem_cons.mpr ⟨⟨hkind, hspace, hopening, by simp, by simp⟩, h.calls⟩, h.nodes⟩
  | leaf => exact h.add (.leaf _)

theorem Delimited.reads {r last : Reader} (h : r.Delimited) {taken : List Token}
    (hreads : Reads r taken last) : last.Delimited := by
  induction hreads with
  | done => exact h
  | more htakes _ ih => exact ih (h.takes htakes)

theorem delimited_finish {nodes : List Node} {calls : List OpenCall}
    (h : Delimited ⟨calls, nodes⟩) : ∀ node ∈ finish nodes calls, node.Delimited := by
  induction calls using finish.induct with
  | case1 =>
    intro node hnode
    rw [finish] at hnode
    exact h.nodes node (List.mem_reverse.mp hnode)
  | case2 c =>
    intro node hnode
    rw [finish, List.mem_reverse] at hnode
    rcases List.mem_cons.mp hnode with rfl | hnode
    · exact (h.calls c List.mem_cons_self).node (by simp)
    · exact h.nodes node hnode
  | case3 c outer rest ih =>
    rw [finish]
    obtain ⟨hc, hmore⟩ := List.forall_mem_cons.mp h.calls
    obtain ⟨houter, hrest⟩ := List.forall_mem_cons.mp hmore
    exact ih ⟨List.forall_mem_cons.mpr ⟨houter.add (hc.node (by simp)), hrest⟩, h.nodes⟩

end Reader

/-- Every call that is read is delimited. -/
theorem delimited_ofTokens (tokens : List Token) : ∀ node ∈ ofTokens tokens, node.Delimited := by
  obtain ⟨last, hreads, -, hrun⟩ := Reader.reads_run {} tokens (Nat.le_refl _)
  have hstart : Reader.Delimited {} := ⟨by simp, by simp⟩
  rw [ofTokens, hrun]
  exact Reader.delimited_finish (hstart.reads hreads)

end SheetPackages.Formula
