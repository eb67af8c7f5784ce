import SheetPackages.Proofs.Formula.Renaming
import SheetPackages.Proofs.Formula.Respelling
import SheetPackages.Proofs.Plan.Batch

/-!
# Rewritten bodies

What writing the aliases of a package into its functions does to a body. The only names that a body
binds are those of `LET` and `LAMBDA` in its text: the arguments that are kept beside it bind
nothing, so a function of the package with the name of an argument takes the argument with it when
it is given an alias.
-/

namespace SheetPackages

open Formula (RenameMap Site rename sitesOf tokenize)

/-! ## Formulas -/

namespace Formula

theorem rename_of_isEmpty {m : RenameMap} (h : m.isEmpty = true) (formula : String) :
    rename m formula = formula := by
  have hsame : ∀ s ∈ sitesOf formula, s.textUnder m = s.token.text := by
    intro s _
    apply Site.textUnder_of_not_renamed
    rintro ⟨_, hkey, _⟩
    rw [OrderedMap.contains, OrderedMap.get?_of_isEmpty h] at hkey
    cases hkey
  have htexts : (sitesOf formula).map (Site.textUnder m) = (tokenize formula).map Token.text := by
    rw [← map_token_sitesOf, List.map_map]
    exact List.map_congr_left hsame
  rw [rename_eq_join_textUnder, htexts, ← textOf, textOf_tokenize]

/-- The text at the site if identifiers are renamed but for some names. -/
def Site.textBeside (names : List String) (m : RenameMap) (s : Site) : String :=
  if s.token.text ∈ names then s.token.text else s.textUnder m

end Formula

/-! ## Functions -/

namespace Batch

/-- All that rewriting changes in a function is its name and its body. -/
theorem get?_withAliases (renames : RenameMaps) {u : Unpacked} {name : String} {f : Function}
    (hf : u.functions.get? name = some f) :
    ∃ final, (withAliases renames u).functions.get? name =
      some { f with
        name := final
        definition := rename (Alias.mapOf renames u.name) f.definition } := by
  rw [withAliases]
  by_cases hempty : (Alias.mapOf renames u.name).isEmpty = true
  · refine ⟨f.name, ?_⟩
    rw [if_pos hempty, hf, Formula.rename_of_isEmpty hempty]
  · refine ⟨name, ?_⟩
    rw [if_neg hempty, OrderedMap.get?_map, hf]
    rfl

/-- A rewritten body has the texts of its tokens in their order: the alias for an identifier that
the map of the package has and that neither `LET` nor `LAMBDA` binds, and its own text for
everything else. Arguments are kept where none of them is such an identifier. -/
theorem definition_withAliases (renames : RenameMaps) {u : Unpacked} {name : String} {f : Function}
    (hf : u.functions.get? name = some f) :
    let m := Alias.mapOf renames u.name
    ∃ g, (withAliases renames u).functions.get? name = some g ∧
      g.arguments = f.arguments ∧ g.description = f.description ∧ g.info = f.info ∧
      (sitesOf f.definition).map Site.token = tokenize f.definition ∧
      g.definition = String.join ((sitesOf f.definition).map (Site.textUnder m)) ∧
      (∀ s ∈ sitesOf f.definition, s.Renamed m → m.get? s.token.text = some (s.textUnder m)) ∧
      (∀ s ∈ sitesOf f.definition, ¬s.Renamed m → s.textUnder m = s.token.text) ∧
      ((∀ s ∈ sitesOf f.definition, s.token.text ∈ f.arguments → ¬s.Renamed m) →
        g.definition =
          String.join ((sitesOf f.definition).map (Site.textBeside f.arguments m))) := by
  intro m
  obtain ⟨final, hg⟩ := get?_withAliases renames hf
  have hdefinition := Formula.rename_eq_join_textUnder m f.definition
  refine ⟨_, hg, rfl, rfl, rfl, Formula.map_token_sitesOf _, hdefinition,
    fun s _ hs ↦ Site.get?_textUnder hs, fun s _ hs ↦ Site.textUnder_of_not_renamed hs,
    fun harguments ↦ hdefinition.trans (congrArg String.join ?_)⟩
  refine List.map_congr_left fun s hs ↦ ?_
  rw [Site.textBeside]
  split
  · next hargument => exact Site.textUnder_of_not_renamed (harguments s hs hargument)
  · rfl

/-- An argument that `LET` does not bind gets the alias of a function, one that `LAMBDA` binds does
not. -/
theorem definition_withAliases_trial :
    let f : Function := { name := "H", definition := "=LET(n, x, F(n)) + LAMBDA(x, x)(n)"
                          arguments := ["x", "n"] }
    let u : Unpacked := ⟨"lib", "1.0.0", "lib@1.0.0", "", [], .ofList [("H", f)]⟩
    let renames : RenameMaps := .ofList [("lib", .ofList [("x", "y"), ("n", "k"), ("F", "G")])]
    ∃ g, (withAliases renames u).functions.get? "H" = some g ∧ g.arguments = ["x", "n"] ∧
      g.definition = "=LET(n, y, G(n)) + LAMBDA(x, x)(k)" := by
  intro f u renames
  have hf : u.functions.get? "H" = some f := by decide +kernel
  obtain ⟨g, hg, harguments, _, _, _, hdefinition, _⟩ := definition_withAliases renames hf
  refine ⟨g, hg, harguments, ?_⟩
  rw [hdefinition, ← String.toList_inj, String.toList_join]
  decide +kernel

/-- The arguments of a function are no bound names of its body: when `x` is given the alias `y`, the
body `=x+1` of a function with the argument `x` becomes `=y+1`. -/
theorem not_definition_keeps_arguments :
    ¬∀ (renames : RenameMaps) (u : Unpacked) (name : String) (f g : Function),
      u.functions.get? name = some f → (withAliases renames u).functions.get? name = some g →
      g.definition = String.join ((sitesOf f.definition).map
        (Site.textBeside f.arguments (Alias.mapOf renames u.name))) := by
  intro h
  let f : Function := { name := "F", definition := "=x+1", arguments := ["x"] }
  let sibling : Function := { name := "x", definition := "=1" }
  let u : Unpacked := ⟨"lib", "1.0.0", "lib@1.0.0", "", [], .ofList [("y", sibling), ("F", f)]⟩
  let renames : RenameMaps := .ofList [("lib", .ofList [("x", "y")])]
  have hf : u.functions.get? "F" = some f := by decide +kernel
  obtain ⟨final, hg⟩ := get?_withAliases renames hf
  have hkept := congrArg String.toList (h renames u "F" f _ hf hg)
  rw [Formula.rename_eq_join_textUnder, String.toList_join, String.toList_join] at hkept
  exact absurd hkept (by decide +kernel)

end Batch

end SheetPackages
