import Mathlib.Data.List.Sort
import Mathlib.Tactic.ByContra
import SheetPackages.Proofs.Resolution.Candidates

/-!
# Offered versions

The candidates for some ranges are, newest first, the representatives of the given versions that all
ranges accept, and only the stable ones if there are any. The latest version of a package is the
first of its candidates without ranges, down to the build label: which of two versions with one
precedence is taken depends on the order of the listing only.
-/

namespace SheetPackages

namespace Version

open Std (TransCmp)

variable {v w : Version} {versions l : List Version}

/-- Versions of the same precedence are stable together. -/
theorem isPrerelease_eq_of_same (h : v.same w = true) : v.isPrerelease = w.isPrerelease := by
  obtain ⟨_, _, _, hlabels⟩ := same_iff_parts.mp h
  unfold isPrerelease
  cases hv : v.prerelease <;> cases hw : w.prerelease
  case none.some | some.none =>
    rw [hv, hw] at hlabels
    cases hlabels
  all_goals rfl

/-- A property of precedences can be asked for before the representatives are taken. -/
theorem represents_filter_iff {p : Version → Bool}
    (hp : ∀ v w : Version, v.same w = true → p v = p w) :
    Represents v (versions.filter p) ↔ Represents v versions ∧ p v = true := by
  induction versions using List.reverseRecOn with
  | nil => exact iff_of_false (not_represents_nil v) fun h ↦ not_represents_nil v h.1
  | append_singleton front u ih =>
    rw [List.filter_append, represents_append_singleton]
    cases hu : p u with
    | true =>
      rw [List.filter_singleton, hu, cond_true, represents_append_singleton, ih]
      constructor
      · rintro (rfl | ⟨⟨hv, hpv⟩, hdiffer⟩)
        · exact ⟨.inl rfl, hu⟩
        · exact ⟨.inr ⟨hv, hdiffer⟩, hpv⟩
      · rintro ⟨rfl | ⟨hv, hdiffer⟩, hpv⟩
        · exact .inl rfl
        · exact .inr ⟨⟨hv, hpv⟩, hdiffer⟩
    | false =>
      -- Nothing with the property is replaced by a version without it.
      have hdiffer (hpv : p v = true) : u.same v = false := Bool.eq_false_iff.mpr fun hsame ↦
        Bool.false_ne_true (hu.symm.trans ((hp u v hsame).trans hpv))
      rw [List.filter_singleton, hu, cond_false, List.append_nil, ih]
      constructor
      · exact fun ⟨hv, hpv⟩ ↦ ⟨.inr ⟨hv, hdiffer hpv⟩, hpv⟩
      · rintro ⟨rfl | ⟨hv, _⟩, hpv⟩
        · exact absurd (hu.symm.trans hpv) Bool.false_ne_true
        · exact ⟨hv, hpv⟩

namespace Pool

/-- A version that stands for its precedence and that all ranges accept. -/
def Suits (versions : List Version) (ranges : List Range) (v : Version) : Prop :=
  Represents v versions ∧ ∀ range ∈ ranges, range.accepts v = true

/-- The candidates for some ranges come newest first, no two of the same precedence. They are the
stable versions that suit the ranges if there are any, and otherwise all that suit them. -/
theorem candidates_exactly (versions : List Version) (ranges : List Range) :
    (((ofList versions).candidates ranges).Pairwise fun v w ↦ w.precedence v = .lt) ∧
    ((∃ w, Suits versions ranges w ∧ w.isPrerelease = false) → ∀ v,
      v ∈ (ofList versions).candidates ranges ↔
        Suits versions ranges v ∧ v.isPrerelease = false) ∧
    ((¬∃ w, Suits versions ranges w ∧ w.isPrerelease = false) → ∀ v,
      v ∈ (ofList versions).candidates ranges ↔ Suits versions ranges v) := by
  have hmem (v : Version) : v ∈ (ofList versions).candidates ranges ↔
      Suits versions ranges v ∧ (v.isPrerelease = true →
        ∀ w, Suits versions ranges w → w.isPrerelease = true) := by
    simp only [mem_candidates_iff, mem_ofList_iff, Suits, and_imp, and_assoc]
  refine ⟨pairwise_candidates (pairwise_ofList versions) ranges, fun ⟨w, hw, hstable⟩ v ↦ ?_,
    fun hnone v ↦ ?_⟩
  · rw [hmem]
    refine and_congr_right fun _ ↦ ?_
    cases hpre : v.isPrerelease with
    | false => exact iff_of_true nofun rfl
    | true =>
      refine iff_of_false (fun hall ↦ ?_) nofun
      exact Bool.false_ne_true (hstable.symm.trans (hall rfl w hw))
  · rw [hmem]
    refine and_iff_left fun _ w hw ↦ ?_
    by_contra hplain
    exact hnone ⟨w, hw, Bool.eq_false_iff.mpr hplain⟩

/-- Of two stable versions that differ by their build labels the later one is offered, and no
prerelease beside it; what accepts a prerelease alone is offered that. -/
theorem candidates_exactly_builds :
    let old : Version := ⟨1, 0, 0, none, some ⟨[⟨"b".toList, by decide, by decide⟩], by decide⟩⟩
    let new : Version := ⟨1, 0, 0, none, some ⟨[⟨"a".toList, by decide, by decide⟩], by decide⟩⟩
    let next : Version := ⟨2, 0, 0, some ⟨[⟨"rc".toList, by decide, by decide⟩], by decide⟩, none⟩
    let above : Range := ⟨[⟨.greater, 1, some 0, some 0, none⟩]⟩
    new ∈ (ofList [old, next, new]).candidates [] ∧
      old ∉ (ofList [old, next, new]).candidates [] ∧
      next ∉ (ofList [old, next, new]).candidates [] ∧
      next ∈ (ofList [old, next, new]).candidates [above] := by
  intro old new next above
  have hnew : Suits [old, next, new] [] new := ⟨⟨[old, next], [], rfl, nofun⟩, nofun⟩
  have hnext : Suits [old, next, new] [above] next :=
    ⟨⟨[old], [new], rfl, by decide⟩, by decide⟩
  have hold : old ∉ (ofList [old, next, new]).ascending := by decide
  have habove : ¬∃ w, Suits [old, next, new] [above] w ∧ w.isPrerelease = false := by
    rintro ⟨w, ⟨hw, haccepts⟩, hstable⟩
    have hpre : ∀ w ∈ [old, next, new], above.accepts w = true → w.isPrerelease = true := by decide
    exact Bool.false_ne_true
      (hstable.symm.trans (hpre w hw.mem (haccepts above List.mem_cons_self)))
  have hstable := (candidates_exactly [old, next, new] []).2.1 ⟨new, hnew, rfl⟩
  have hall := (candidates_exactly [old, next, new] [above]).2.2 habove
  refine ⟨(hstable new).mpr ⟨hnew, rfl⟩, fun h ↦ ?_, fun h ↦ ?_, (hall next).mpr hnext⟩
  · exact hold (mem_ofList_iff.mpr ((hstable old).mp h).1.1)
  · exact Bool.false_ne_true ((hstable next).mp h).2.symm

/-! ## Latest versions -/

theorem le_eq_false_of_lt (h : v.precedence w = .lt) : w.le v = false := by
  rw [le, ← precedence_swap v w, h]
  rfl

theorem le_of_precedence_ne_lt (h : v.precedence w ≠ .lt) : w.le v = true := by
  rw [le, ← precedence_swap v w]
  cases hvw : v.precedence w <;> first | exact absurd hvw h | rfl

/-- The greatest version once `v` is given after the others, of which `best` is the greatest. -/
def later (v : Version) : Option Version → Version
  | none => v
  | some best => if best.le v then v else best

theorem greatest_append_singleton (versions : List Version) (v : Version) :
    Index.greatest (versions ++ [v]) = some (later v (Index.greatest versions)) := by
  cases versions with
  | nil => rfl
  | cons w rest =>
    rw [List.cons_append, Index.greatest, List.foldl_append]
    rfl

theorem later_getLast?_of_lt (hne : l ≠ []) (h : ∀ w ∈ l, v.precedence w = .lt) :
    l.getLast? = some (later v l.getLast?) := by
  have hbest := List.getLast?_eq_some_getLast hne
  rw [hbest, later, le_eq_false_of_lt (h _ (List.getLast_mem hne)), if_neg Bool.false_ne_true]

theorem getLast?_place (h : l.Pairwise fun v w ↦ v.precedence w = .lt) :
    (place v l).getLast? = some (later v l.getLast?) := by
  induction l with
  | nil => rfl
  | cons x rest ih =>
    obtain ⟨hx, hrest⟩ := List.pairwise_cons.mp h
    have hne : place v rest ≠ [] := List.ne_nil_of_mem (mem_place_self v rest)
    rw [place]
    split
    case h_1 hlt =>
      rw [List.getLast?_cons_cons]
      refine later_getLast?_of_lt (List.cons_ne_nil x rest) (List.forall_mem_cons.mpr ⟨hlt, ?_⟩)
      exact fun w hw ↦ TransCmp.lt_trans hlt (hx w hw)
    case h_2 heq =>
      cases rest with
      | nil =>
        have hle : x.le v = true := le_of_precedence_ne_lt (heq.trans_ne (by decide))
        rw [List.getLast?_singleton, List.getLast?_singleton, later, if_pos hle]
      | cons y more =>
        rw [List.getLast?_cons_cons, List.getLast?_cons_cons]
        refine later_getLast?_of_lt (List.cons_ne_nil y more) fun w hw ↦ ?_
        exact TransCmp.lt_of_eq_of_lt heq (hx w hw)
    case h_3 hgt =>
      rw [List.getLast?_cons_of_ne_nil hne, ih hrest]
      cases rest with
      | nil =>
        have hle : x.le v = true := le_of_precedence_ne_lt (hgt.trans_ne (by decide))
        rw [List.getLast?_nil, List.getLast?_singleton, later, later, if_pos hle]
      | cons y more => rw [List.getLast?_cons_cons]

/-- The greatest version is the last one of the pool. -/
theorem greatest_eq_getLast? (versions : List Version) :
    Index.greatest versions = (ofList versions).ascending.getLast? := by
  induction versions using List.reverseRecOn with
  | nil => rfl
  | append_singleton front v ih =>
    rw [ofList_append_singleton, getLast?_place (pairwise_ofList front), ← ih,
      greatest_append_singleton]

theorem ascending_filter {p : Version → Bool}
    (hp : ∀ v w : Version, v.same w = true → p v = p w) (versions : List Version) :
    (ofList (versions.filter p)).ascending = (ofList versions).ascending.filter p := by
  have hirrefl : Std.Irrefl fun v w : Version ↦ v.precedence w = .lt :=
    ⟨fun v h ↦ by simp at h⟩
  have hantisymm : Std.Antisymm fun v w : Version ↦ v.precedence w = .lt :=
    ⟨fun v w h h' ↦ by rw [← precedence_swap v w, h] at h'; cases h'⟩
  refine (pairwise_ofList _).eq_of_mem_iff ((pairwise_ofList versions).filter p) fun v ↦ ?_
  rw [mem_ofList_iff, represents_filter_iff hp, List.mem_filter, mem_ofList_iff]

theorem stable_eq_of_same (v w : Version) (h : v.same w = true) :
    (!v.isPrerelease) = !w.isPrerelease :=
  congrArg not (isPrerelease_eq_of_same h)

/-- The first candidate without ranges is the greatest stable version, or the greatest of all. -/
theorem head?_candidates_nil (versions : List Version) :
    ((ofList versions).candidates []).head? =
      (Index.greatest (versions.filter (!·.isPrerelease))).or (Index.greatest versions) := by
  rw [greatest_eq_getLast?, greatest_eq_getLast?, ascending_filter stable_eq_of_same]
  generalize (ofList versions) = pool
  have hall : pool.accepted [] = pool.ascending.reverse := List.filter_true _
  rw [candidates, hall]
  split
  case isTrue hany =>
    obtain ⟨v, hv, hstable⟩ := List.any_eq_true.mp hany
    have hne : pool.ascending.filter (!·.isPrerelease) ≠ [] :=
      List.ne_nil_of_mem (List.mem_filter.mpr ⟨List.mem_reverse.mp hv, hstable⟩)
    rw [List.filter_reverse, List.head?_reverse, List.getLast?_eq_some_getLast hne, Option.some_or]
  case isFalse hany =>
    have hnone : pool.ascending.filter (!·.isPrerelease) = [] :=
      List.filter_eq_nil_iff.mpr fun v hv hstable ↦
        hany (List.any_eq_true.mpr ⟨v, List.mem_reverse.mpr hv, hstable⟩)
    rw [List.head?_reverse, hnone, List.getLast?_nil, Option.none_or]

end Pool

end Version

namespace Index

open Version (Pool)

/-- The latest version of a package is the first of its candidates when nothing is required of it,
whatever order its versions are listed in. -/
theorem latest?_eq_head?_candidates (i : Index) (name : String) :
    i.latest? name = ((Pool.ofList (i.versions name)).candidates []).head? ∧
      i.latest? name = (i.provider.candidates name []).head?.map (·.version) := by
  have hfirst : i.latest? name = ((Pool.ofList (i.versions name)).candidates []).head? :=
    (Pool.head?_candidates_nil (i.versions name)).symm
  refine ⟨hfirst, ?_⟩
  rw [candidates_eq, candidatesIn, List.head?_map, Option.map_map, hfirst]
  exact Option.map_id'.symm

end Index

end SheetPackages
