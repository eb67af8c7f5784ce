import Mathlib.Data.List.Pairwise
import Mathlib.Data.List.Sort
import Mathlib.Tactic.ByContra
import SheetPackages.Proofs.Resolution.Preference

/-!
# Indexes that are listed in another order

A resolution learns of an index through the candidates of a package and the requirements of a
candidate only. Where no two keys of a package are read as versions of the same precedence, neither
depends on the order of the packages or of their keys, nor does anything that a resolution ends
with. Of two such keys one is offered and perhaps the other one is looked up, which is not described
here.
-/

namespace SheetPackages

/-! ## Rearranged indexes -/

/-- The same description of a package and the same versions of it, perhaps in another order. -/
structure Listing.Rearranged (l m : Listing) : Prop where
  description : l.description = m.description
  author : l.author = m.author
  license : l.license = m.license
  homepage : l.homepage = m.homepage
  versions : l.versions.entries.Perm m.versions.entries

/-- The same packages, perhaps in another order, each with a rearranged listing. -/
structure Index.Rearranged (i j : Index) : Prop where
  names : i.packages.keys.Perm j.packages.keys
  listings : ∀ p ∈ i.packages.entries, ∀ q ∈ j.packages.entries, p.1 = q.1 → p.2.Rearranged q.2

/-- No two keys of a package are read as versions of the same precedence. -/
def Index.Distinct (i : Index) : Prop :=
  ∀ l ∈ i.packages.values, l.readable.Pairwise fun e e' ↦ e.2.same e'.2 = false

instance (l m : Listing) : Decidable (l.Rearranged m) :=
  decidable_of_iff (l.description = m.description ∧ l.author = m.author ∧ l.license = m.license ∧
      l.homepage = m.homepage ∧ l.versions.entries.Perm m.versions.entries)
    ⟨fun ⟨hdescription, hauthor, hlicense, hhomepage, hversions⟩ ↦
      ⟨hdescription, hauthor, hlicense, hhomepage, hversions⟩,
      fun h ↦ ⟨h.description, h.author, h.license, h.homepage, h.versions⟩⟩

instance (i : Index) : Decidable i.Distinct :=
  inferInstanceAs (Decidable (∀ l ∈ i.packages.values, _))

theorem OrderedMap.get?_eq_of_perm {α : Type} {m n : OrderedMap α} (h : m.entries.Perm n.entries)
    (key : String) : m.get? key = n.get? key := by
  refine Option.ext fun value ↦ ?_
  rw [get?_eq_some_iff, get?_eq_some_iff, h.mem_iff]

/-- What is found in a list is found in a rearranged one if nothing else could be. -/
theorem find?_eq_of_perm {α : Type} {xs ys : List α} {p : α → Bool} (h : xs.Perm ys)
    (hunique : ∀ x ∈ xs, ∀ y ∈ xs, p x = true → p y = true → x = y) : xs.find? p = ys.find? p := by
  cases hx : xs.find? p with
  | none =>
    rw [eq_comm, List.find?_eq_none]
    exact fun y hy ↦ List.find?_eq_none.mp hx y (h.mem_iff.mpr hy)
  | some x =>
    have hmem := List.mem_of_find?_eq_some hx
    have hp := List.find?_some hx
    obtain ⟨y, hy⟩ := Option.isSome_iff_exists.mp
      (List.find?_isSome.mpr ⟨x, h.mem_iff.mp hmem, hp⟩)
    have hmem' := h.mem_iff.mpr (List.mem_of_find?_eq_some hy)
    rw [hy, hunique x hmem y hmem' hp (List.find?_some hy)]

namespace Listing.Rearranged

variable {l m : Listing}

theorem readable (h : l.Rearranged m) : l.readable.Perm m.readable :=
  (h.versions.map Prod.fst).filterMap _

theorem get? (h : l.Rearranged m) (key : String) : l.versions.get? key = m.versions.get? key :=
  OrderedMap.get?_eq_of_perm h.versions key

/-- A version has the same key in both listings. -/
theorem key? (h : l.Rearranged m)
    (hdistinct : l.readable.Pairwise fun e e' ↦ e.2.same e'.2 = false) (v : Version) :
    l.key? v = m.key? v := by
  have hsymm : Std.Symm fun e e' : String × Version ↦ e.2.same e'.2 = false :=
    ⟨fun e e' h ↦ (Version.same_comm e'.2 e.2).trans h⟩
  have hfind : (l.readable.find? fun entry ↦ entry.2.same v) =
      m.readable.find? fun entry ↦ entry.2.same v := by
    refine find?_eq_of_perm h.readable fun e he e' he' hv hv' ↦ ?_
    by_contra hne
    rw [Version.same_comm] at hv'
    exact Bool.false_ne_true ((hdistinct.forall he he' hne).symm.trans (Version.same_trans hv hv'))
  unfold Listing.key? OrderedMap.contains
  simp only [h.get?, hfind]

end Listing.Rearranged

/-- A pool of versions of different precedence does not depend on the order in which they are
given. -/
theorem Version.Pool.ofList_eq_of_perm {versions others : List Version} (h : versions.Perm others)
    (hdiffer : versions.Pairwise fun v w ↦ v.same w = false) : ofList versions = ofList others := by
  have hdiffer' : others.Pairwise fun v w ↦ v.same w = false :=
    h.pairwise hdiffer fun {v w} hvw ↦ (same_comm w v).trans hvw
  have hmem (v : Version) : v ∈ (ofList versions).ascending ↔ v ∈ (ofList others).ascending :=
    ⟨fun hv ↦ mem_ofList hdiffer' (h.mem_iff.mp (mem_of_mem_ofList hv)),
      fun hv ↦ mem_ofList hdiffer (h.mem_iff.mpr (mem_of_mem_ofList hv))⟩
  have hirrefl : Std.Irrefl fun v w : Version ↦ v.precedence w = .lt :=
    ⟨fun v hlt ↦ Bool.false_ne_true ((not_same_of_lt hlt).symm.trans (same_self v))⟩
  have hantisymm : Std.Antisymm fun v w : Version ↦ v.precedence w = .lt :=
    ⟨fun v w hlt hgt ↦ absurd (Std.TransCmp.lt_trans hlt hgt) (hirrefl.irrefl v)⟩
  have hascending := (pairwise_ofList versions).eq_of_mem_iff (pairwise_ofList others) hmem
  cases hleft : ofList versions
  cases hright : ofList others
  simp_all

theorem Index.Distinct.of_package? {i : Index} (h : i.Distinct) {name : String} {l : Listing}
    (hl : i.package? name = some l) :
    l.readable.Pairwise fun e e' ↦ e.2.same e'.2 = false :=
  h l (OrderedMap.mem_values_iff.mpr ⟨name, hl⟩)

namespace Index.Rearranged

variable {i j : Index}

/-- A package is listed in both indexes or in none. -/
theorem package? (h : i.Rearranged j) (name : String) :
    i.package? name = none ∧ j.package? name = none ∨
      ∃ l m, i.package? name = some l ∧ j.package? name = some m ∧ l.Rearranged m := by
  have hlisted : (i.package? name).isSome = (j.package? name).isSome := by
    rw [Bool.eq_iff_iff]
    exact OrderedMap.mem_keys_iff_contains.symm.trans
      (h.names.mem_iff.trans OrderedMap.mem_keys_iff_contains)
  cases hl : i.package? name with
  | none =>
    rw [hl, eq_comm, Option.isSome_none, Option.isSome_eq_false_iff, Option.isNone_iff_eq_none]
      at hlisted
    exact .inl ⟨rfl, hlisted⟩
  | some l =>
    rw [hl, eq_comm, Option.isSome_some, Option.isSome_iff_exists] at hlisted
    obtain ⟨m, hm⟩ := hlisted
    exact .inr ⟨l, m, rfl, hm, h.listings _ (OrderedMap.get?_eq_some_iff.mp hl) _
      (OrderedMap.get?_eq_some_iff.mp hm) rfl⟩

/-- The same versions are offered of a package. -/
theorem candidates (h : i.Rearranged j) (hdistinct : i.Distinct) (name : String)
    (requirements : List Requirement) :
    i.provider.candidates name requirements = j.provider.candidates name requirements := by
  rw [candidates_eq, candidates_eq, Index.versions, Index.versions]
  rcases h.package? name with ⟨hi, hj⟩ | ⟨l, m, hi, hj, hlm⟩
  · rw [hi, hj]
  · rw [hi, hj]
    have hreleases : l.releases.Perm m.releases := hlm.readable.map Prod.snd
    have hdiffer : l.releases.Pairwise fun v w ↦ v.same w = false :=
      List.pairwise_map.mpr (hdistinct.of_package? hi)
    rw [Version.Pool.ofList_eq_of_perm hreleases hdiffer]

/-- The same is found for a version of a package. -/
theorem release (h : i.Rearranged j) (hdistinct : i.Distinct) (name : String) (v : Version) :
    i.release name v = j.release name v := by
  rw [Index.release, Index.release]
  rcases h.package? name with ⟨hi, hj⟩ | ⟨l, m, hi, hj, hlm⟩
  · rw [hi, hj]
  · have hget : l.versions.get? = m.versions.get? := funext hlm.get?
    simp only [hi, hj, hlm.key? (hdistinct.of_package? hi), hget]

end Index.Rearranged

/-! ## Providers that give the same answers -/

/-- The same candidates and requirements, whatever names are listed. -/
structure Provider.Agrees (p q : Provider) : Prop where
  candidates : p.candidates = q.candidates
  requires : p.requires = q.requires

theorem Index.Rearranged.agrees {i j : Index} (h : i.Rearranged j) (hdistinct : i.Distinct) :
    i.provider.Agrees j.provider where
  candidates := by
    funext name requirements
    exact h.candidates hdistinct name requirements
  requires := by
    funext c
    change (i.declared c >>= Dependency.readAll) = (j.declared c >>= Dependency.readAll)
    rw [Index.declared, Index.declared, h.release hdistinct]

namespace Resolution

variable {p q : Provider}

theorem pickFrom_agrees (h : p.Agrees q) (s : State) (best : Option (String × List Package))
    (names : List String) : pickFrom p s best names = pickFrom q s best names := by
  induction names generalizing best with
  | nil => rfl
  | cons name rest ih => simp only [pickFrom, h.candidates, ih]

theorem absorb_agrees (h : p.Agrees q) (pinned : OrderedMap Package)
    (requirements : OrderedMap (List Requirement)) (ds : List Dependency) :
    absorb p pinned requirements ds = absorb q pinned requirements ds := by
  induction ds generalizing requirements with
  | nil => rfl
  | cons d rest ih => simp only [absorb, h.candidates, ih]

/-- A round asks for nothing but candidates and requirements. -/
theorem round_agrees (h : p.Agrees q) (next : Continuation) (limit : Option Nat) (s : State)
    (progress : Progress) : round next p limit s progress = round next q limit s progress := by
  have hattempt (name : String) : attempt next p s name = attempt next q s name := by
    funext c progress
    simp only [attempt, h.requires, absorb_agrees h]
  simp only [round, pick, pickFrom_agrees h, hattempt]

theorem searchWithin_agrees (h : p.Agrees q) (limit : Option Nat) (depth : Nat) :
    searchWithin p limit depth = searchWithin q limit depth := by
  induction depth with
  | zero => rfl
  | succ depth ih =>
    funext s progress
    rw [searchWithin, searchWithin, ih, round_agrees h]

/-- Every search from a state ends in the same way. -/
theorem search_agrees (h : p.Agrees q) (limit : Option Nat) (s : State) (progress : Progress) :
    search p limit s progress = search q limit s progress := by
  let depth := (unpinned p s.pinned).length + (unpinned q s.pinned).length + 1
  calc
    search p limit s progress = searchWithin p limit depth s progress :=
      search_eq_searchWithin (by omega) progress
    _ = searchWithin q limit depth s progress := by rw [searchWithin_agrees h]
    _ = search q limit s progress := (search_eq_searchWithin (by omega) progress).symm

/-- Resolutions do not depend on the order of an index: with the same packages and versions in any
order they end with the same packages in the same order and as many rounds and candidates given up,
or with the same fault. No two keys of a package may be read as versions of the same precedence. -/
theorem resolve_eq_of_rearranged (i j : Index) (h : i.Rearranged j) (hdistinct : i.Distinct)
    (limit : Option Nat) (roots : List Dependency) :
    resolve i.provider limit roots = resolve j.provider limit roots := by
  unfold resolve
  simp only [search_agrees (h.agrees hdistinct)]

/-- The packages and versions of `detourIndex` in another order. -/
def shuffledIndex : Index where
  packages := .ofList [
    ("panel", { versions := .ofList [("3.0.0", {}), ("1.0.0", {}), ("2.1.0", {}), ("2.0.0", {})] }),
    ("frame", { versions := .ofList [
      ("2.0.0", { dependencies := ["bridge"] }),
      ("1.0.0", {})] }),
    ("app", { versions := .ofList [("1.0.0", { dependencies := ["frame", "panel<3"] })] }),
    ("bridge", { versions := .ofList [("1.0.0", { dependencies := ["gone"] })] })]

theorem resolve_eq_of_rearranged_shuffled :
    detourIndex.Rearranged shuffledIndex ∧ detourIndex.Distinct ∧
      resolve detourIndex.provider (some 9) [⟨"app", ""⟩] =
        resolve shuffledIndex.provider (some 9) [⟨"app", ""⟩] ∧
      (resolve shuffledIndex.provider (some 9) [⟨"app", ""⟩]).toOption.map
        (fun outcome ↦ (outcome.packages.map Package.name, outcome.rounds, outcome.backtracks)) =
          some (["app", "frame", "panel"], 5, 2) := by
  have hrearranged : detourIndex.Rearranged shuffledIndex :=
    ⟨by decide +kernel, by decide +kernel⟩
  have hdistinct : detourIndex.Distinct := by decide +kernel
  refine ⟨hrearranged, hdistinct, resolve_eq_of_rearranged _ _ hrearranged hdistinct _ _, ?_⟩
  rw [resolve_eq_resolveWithin]
  decide +kernel

end Resolution

end SheetPackages
