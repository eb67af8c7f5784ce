import SheetPackages.Proofs.Formula.Renaming
import SheetPackages.Proofs.Formula.Slices

/-!
# Declarations and their separators

In the binding forms a slice is a declaration by what follows it: a parameter of `LAMBDA`, or a name
at an even place of `LET`, has a separator behind it. The renamer counts slices instead and takes
the last one for the body. The two agree on all slices but the last. When a separator ends the last
one, nothing between it and the closing parenthesis is left to be a body, and the declaration before
it is renamed as one: it is kept just as far as its identifiers are bound or not on the map.
-/

namespace SheetPackages.Formula

open Node (callsIn callsInSlices)

variable {m : RenameMap} {formula : String} {f : Frame} {inside : List Site}

/-! ## Sites of calls -/

theorem sites_infix_sitesIn {node : Node} {nodes : List Node} (h : node ∈ nodes)
    (around : List Frame) : node.sites around <:+: sitesIn around nodes := by
  induction nodes with
  | nil => cases h
  | cons first rest ih =>
    rw [sitesIn]
    rcases List.mem_cons.mp h with rfl | h
    · exact (List.prefix_append _ _).isInfix
    · exact (ih h).trans (List.suffix_append _ _).isInfix

theorem sitesIn_infix_sitesInSlices {name : Token} {all slices : List (List Node)}
    {slice : List Node} {i : Nat} (h : slices[i]? = some slice) (around : List Frame)
    (index : Nat) : sitesIn (⟨name, all, index + i⟩ :: around) slice <:+:
      sitesInSlices around name all index slices := by
  induction slices generalizing i index with
  | nil => cases h
  | cons first rest ih =>
    rw [sitesInSlices]
    cases i with
    | zero =>
      obtain rfl := Option.some.inj h
      exact (List.prefix_append _ _).isInfix
    | succ i =>
      have hrest := ih h (index + 1)
      rw [Nat.add_assoc, Nat.add_comm 1] at hrest
      exact hrest.trans (List.suffix_append _ _).isInfix

/-- A slice of a call has its sites among those of the call. -/
theorem sitesIn_infix_sites {name : Token} {slices : List (List Node)} {slice : List Node} {i : Nat}
    (h : slices[i]? = some slice) (space : List Token) (opening : Token) (closing : Option Token)
    (around : List Frame) : sitesIn (⟨name, slices, i⟩ :: around) slice <:+:
      (Node.call name space opening slices closing).sites around := by
  have hslice : sitesIn (⟨name, slices, 0 + i⟩ :: around) slice <:+:
      sitesInSlices around name slices 0 slices := sitesIn_infix_sitesInSlices h around 0
  rw [Nat.zero_add] at hslice
  rw [Node.sites]
  have hopened := (List.suffix_cons ⟨opening, false, around⟩
    (sitesInSlices around name slices 0 slices)).isInfix
  refine hslice.trans (hopened.trans ?_)
  exact (List.suffix_append _ _).isInfix.trans (List.prefix_append _ _).isInfix

/-- A call at any depth of a node has its sites among those of the node. -/
theorem Node.exists_sites_infix (node : Node) : ∀ around, ∀ call ∈ node.calls,
    ∃ inner, call.sites inner <:+: node.sites around := by
  induction node using Node.induct with
  | hleaf t => exact fun _ _ hcall ↦ absurd hcall List.not_mem_nil
  | hcall name space opening slices closing ih =>
    intro around call hcall
    rcases List.mem_cons.mp hcall with rfl | hcall
    · exact ⟨around, List.infix_rfl⟩
    · obtain ⟨slice, hslice, hcall⟩ := mem_callsInSlices_iff.mp hcall
      obtain ⟨node, hnode, hcall⟩ := mem_callsIn_iff.mp hcall
      obtain ⟨i, hi⟩ := List.mem_iff_getElem?.mp hslice
      obtain ⟨inner, hinner⟩ := ih slice hslice node hnode (⟨name, slices, i⟩ :: around) call hcall
      exact ⟨inner, hinner.trans ((sites_infix_sitesIn hnode _).trans
        (sitesIn_infix_sites hi space opening closing around))⟩

/-! ## Declarations -/

/-- The slice of a frame is a declaration by its separator: it ends with one of its own, in `LAMBDA`
or at an even place of `LET`. Its sites stand together in the formula. -/
structure SetOff (formula : String) (f : Frame) (inside : List Site) : Prop where
  form : f.form = .lambda ∨ f.form = .letForm ∧ f.index % 2 = 0
  slice : ∃ slice around, f.slices[f.index]? = some slice ∧ Ended slice ∧
    inside = sitesIn (f :: around) slice
  sites : inside <:+: sitesOf formula

/-- Renaming keeps the texts at the sites. -/
def Kept (m : RenameMap) (sites : List Site) : Prop :=
  ∀ s ∈ sites, s.textUnder m = s.token.text

/-- No identifier that is free at the sites, words of binding forms apart, has another name on the
map. -/
def Unmapped (m : RenameMap) (sites : List Site) : Prop :=
  ∀ s ∈ sites, s.token.kind = .identifier → s.Free → ¬s.IsFormWord →
    ∀ new, m.get? s.token.text = some new → new = s.token.text

theorem kept_iff_unmapped (sites : List Site) : Kept m sites ↔ Unmapped m sites := by
  refine forall₂_congr fun s _ ↦ ?_
  constructor
  · intro hkept hkind hfree hword new hnew
    have hrenamed : s.Renamed m := ⟨hkind, by rw [OrderedMap.contains, hnew]; rfl, hword, hfree⟩
    have hget := Site.get?_textUnder hrenamed
    rw [hkept, hnew] at hget
    exact Option.some.inj hget
  · intro hunmapped
    by_cases hrenamed : s.Renamed m
    · exact hunmapped hrenamed.1 hrenamed.2.2.2 hrenamed.2.2.1 _ (Site.get?_textUnder hrenamed)
    · exact Site.textUnder_of_not_renamed hrenamed

theorem SetOff.map_token (h : SetOff formula f inside) {slice : List Node}
    (hslice : f.slices[f.index]? = some slice) : inside.map Site.token = tokensOf slice := by
  obtain ⟨other, around, hother, -, rfl⟩ := h.slice
  obtain rfl := Option.some.inj (hslice.symm.trans hother)
  exact map_token_sitesIn_eq _ _

theorem SetOff.mem_frames (h : SetOff formula f inside) : ∀ s ∈ inside, f ∈ s.frames := by
  obtain ⟨slice, around, -, -, rfl⟩ := h.slice
  exact frames_of_mem_sitesIn fun node _ ↦ node.frames_of_mem_sites f _ List.mem_cons_self

/-- A declaration by its separator is one by its place unless it is the last slice. -/
theorem SetOff.declares_iff (h : SetOff formula f inside) :
    f.Declares f.index ↔ f.index + 1 ≠ f.slices.length := by
  obtain ⟨slice, -, hslice, -⟩ := h.slice
  have hlt := (List.getElem?_eq_some_iff.mp hslice).1
  rw [Frame.Declares, and_iff_left h.form]
  omega

/-- Every slice that ends with a separator is found among the sites of its formula. -/
theorem exists_setOff {name : Token} {space : List Token} {opening : Token}
    {slices : List (List Node)} {closing : Option Token}
    (hcall : .call name space opening slices closing ∈ callsIn (parse formula)) {i : Nat}
    {slice : List Node} (hslice : slices[i]? = some slice) (hended : Ended slice)
    (hform : CallForm.of name = .lambda ∨ CallForm.of name = .letForm ∧ i % 2 = 0) :
    ∃ inside, SetOff formula ⟨name, slices, i⟩ inside := by
  obtain ⟨node, hnode, hcall⟩ := Node.mem_callsIn_iff.mp hcall
  obtain ⟨around, haround⟩ := node.exists_sites_infix [] _ hcall
  refine ⟨sitesIn (⟨name, slices, i⟩ :: around) slice, hform, ⟨slice, around, hslice, hended, rfl⟩, ?_⟩
  exact (sitesIn_infix_sites hslice space opening closing around).trans
    (haround.trans (sites_infix_sitesIn hnode []))

/-- A declaration is kept if another slice follows it. The separator that ends the last slice does
not make it one: this slice is kept just if the map leaves its free identifiers as they are. -/
theorem declaration_kept_iff (m : RenameMap) (formula : String) :
    rename m formula = String.join ((sitesOf formula).map (Site.textUnder m)) ∧
    (∀ name space opening slices closing,
      .call name space opening slices closing ∈ callsIn (parse formula) →
      ∀ i slice, slices[i]? = some slice → Ended slice →
        (CallForm.of name = .lambda ∨ CallForm.of name = .letForm ∧ i % 2 = 0) →
        ∃ inside, SetOff formula ⟨name, slices, i⟩ inside) ∧
    ∀ f inside, SetOff formula f inside →
      (Kept m inside ↔ f.index + 1 ≠ f.slices.length ∨ Unmapped m inside) := by
  refine ⟨rename_eq_join_textUnder m formula, ?_, fun f inside h ↦ ?_⟩
  · intro name space opening slices closing hcall i slice hslice hended hform
    exact exists_setOff hcall hslice hended hform
  · rw [← h.declares_iff, ← kept_iff_unmapped]
    refine ⟨.inr, fun hkept ↦ ?_⟩
    rcases hkept with hdeclares | hkept
    · exact fun s hs ↦ Site.textUnder_of_declares (h.mem_frames s hs) hdeclares
    · exact hkept

/-! ## Forms without a body -/

/-- A binding form whose last slice, made of the given tokens, is a declaration by its separator. -/
def Node.Bodiless (declaration : List Token) : Node → Prop
  | .leaf _ => False
  | .call name _ _ slices _ =>
    (CallForm.of name = .lambda ∨ CallForm.of name = .letForm ∧ slices.length % 2 = 1) ∧
      Ended (slices.getLast?.getD []) ∧ tokensOf (slices.getLast?.getD []) = declaration

instance (declaration : List Token) (node : Node) : Decidable (node.Bodiless declaration) :=
  match node with
  | .leaf _ => inferInstanceAs (Decidable False)
  | .call .. => inferInstanceAs (Decidable (_ ∧ Ended _ ∧ _))

theorem Node.Bodiless.exists_slice {declaration : List Token} {node : Node}
    (h : node.Bodiless declaration) : ∃ name space opening slices closing i slice,
      node = .call name space opening slices closing ∧ slices[i]? = some slice ∧ Ended slice ∧
        (CallForm.of name = .lambda ∨ CallForm.of name = .letForm ∧ i % 2 = 0) ∧
        i + 1 = slices.length ∧ tokensOf slice = declaration := by
  cases node with
  | leaf t => exact h.elim
  | call name space opening slices closing =>
    obtain ⟨hform, hended, htokens⟩ := h
    rcases List.eq_nil_or_concat slices with rfl | ⟨front, slice, rfl⟩
    · exact absurd rfl hended.ne_nil
    · rw [List.concat_eq_append, List.getLast?_concat, Option.getD_some] at hended htokens
      rw [List.concat_eq_append, List.length_append, List.length_singleton] at hform
      refine ⟨name, space, opening, _, closing, front.length, slice, rfl, by simp, hended, ?_,
        by simp, htokens⟩
      exact hform.imp_right fun ⟨hlet, hodd⟩ ↦ ⟨hlet, by omega⟩

/-- A bound name in place of the body of `LET`, and declarations with slices behind them, are kept,
though all of them are on the map. -/
theorem declaration_kept_iff_bound :
    let formula := "x+LAMBDA(x,LET(y,x,y;))"
    let m : RenameMap := .ofList [("x", "a"), ("y", "b")]
    rename m formula = "a+LAMBDA(x,LET(y,x,y;))" ∧
      ∃ f inside, SetOff formula f inside ∧ f.index + 1 = f.slices.length ∧ Kept m inside := by
  intro formula m
  obtain ⟨-, hexists, hiff⟩ := declaration_kept_iff m formula
  let bound : Token := ⟨.identifier, "y", 19, 20⟩
  let separator : Token := ⟨.semicolon, ";", 20, 21⟩
  have hform : ∃ call ∈ callsIn (parse formula), call.Bodiless [bound, separator] := by
    decide +kernel
  obtain ⟨call, hcall, hbodiless⟩ := hform
  obtain ⟨name, space, opening, slices, closing, i, slice, rfl, hslice, hended, hkind, hlast,
    htokens⟩ := hbodiless.exists_slice
  obtain ⟨inside, hsetOff⟩ := hexists name space opening slices closing hcall i slice hslice hended
    hkind
  refine ⟨by decide +kernel, _, inside, hsetOff, hlast, (hiff _ inside hsetOff).mpr (.inr ?_)⟩
  intro s hs hidentifier hfree
  have hbound : ∀ s ∈ sitesOf formula, s.token = bound → ¬s.Free := by decide +kernel
  have htoken : s.token ∈ [bound, separator] := by
    rw [← htokens, ← hsetOff.map_token hslice]
    exact List.mem_map_of_mem hs
  rcases List.mem_cons.mp htoken with htoken | htoken
  · exact absurd hfree (hbound s (hsetOff.sites.subset hs) htoken)
  · rw [List.mem_singleton.mp htoken] at hidentifier
    cases hidentifier

/-- The only parameter of a `LAMBDA` without a body is renamed. -/
theorem parameter_renamed :
    let formula := "LAMBDA(x,)"
    let m : RenameMap := .ofList [("x", "y")]
    rename m formula = "LAMBDA(y,)" ∧ ∃ f inside, SetOff formula f inside ∧ ¬Kept m inside := by
  intro formula m
  let parameter : Token := ⟨.identifier, "x", 7, 8⟩
  have hform : ∃ call ∈ callsIn (parse formula),
      call.Bodiless [parameter, ⟨.comma, ",", 8, 9⟩] := by decide +kernel
  obtain ⟨call, hcall, hbodiless⟩ := hform
  obtain ⟨name, space, opening, slices, closing, i, slice, rfl, hslice, hended, hkind, -,
    htokens⟩ := hbodiless.exists_slice
  obtain ⟨inside, hsetOff⟩ := exists_setOff hcall hslice hended hkind
  have hrenamed : ∀ s ∈ sitesOf formula, s.token = parameter → s.textUnder m ≠ s.token.text := by
    decide +kernel
  refine ⟨by decide +kernel, _, inside, hsetOff, fun hkept ↦ ?_⟩
  have hparameter : parameter ∈ inside.map Site.token := by
    rw [hsetOff.map_token hslice, htokens]
    exact List.mem_cons_self
  obtain ⟨s, hs, htoken⟩ := List.mem_map.mp hparameter
  exact hrenamed s (hsetOff.sites.subset hs) htoken (hkept s hs)

end SheetPackages.Formula
