import Mathlib.Data.List.Induction
import SheetPackages.Proofs.Version.Precedence
import SheetPackages.Version.Candidates

/-!
# Pools of versions

Of the given versions with one precedence the last stands for all of them. A pool holds these
representatives in ascending order, and the candidates for some ranges are those that all ranges
accept, newest first, without prereleases if a stable version is accepted.
-/

namespace SheetPackages.Version

open Std (OrientedCmp TransCmp)

variable {u v w : Version} {versions l : List Version}

theorem not_same_of_lt (h : v.precedence w = .lt) : v.same w = false := by
  rw [same, h]
  rfl

/-! ## Representatives -/

/-- The last version of its precedence in a list. -/
def Represents (v : Version) (versions : List Version) : Prop :=
  ∃ before after, versions = before ++ v :: after ∧ ∀ w ∈ after, w.same v = false

theorem Represents.mem (h : Represents v versions) : v ∈ versions := by
  obtain ⟨before, after, rfl, _⟩ := h
  exact List.mem_append_right before List.mem_cons_self

theorem not_represents_nil (v : Version) : ¬Represents v [] :=
  fun h ↦ List.not_mem_nil h.mem

/-- A version given last stands for its precedence. -/
theorem represents_append_singleton :
    Represents w (versions ++ [v]) ↔ w = v ∨ Represents w versions ∧ v.same w = false := by
  constructor
  · rintro ⟨before, after, heq, hafter⟩
    rcases List.eq_nil_or_concat after with rfl | ⟨front, last, rfl⟩
    · exact .inl (List.singleton_inj.mp (List.append_inj' heq rfl).2).symm
    · have hends : versions ++ [v] = (before ++ w :: front) ++ [last] := by simpa using heq
      obtain ⟨rfl, hlast⟩ := List.append_inj' hends rfl
      obtain ⟨hfront, hdiffer⟩ := by simpa [or_imp, forall_and] using hafter
      exact .inr ⟨⟨before, front, rfl, hfront⟩, List.singleton_inj.mp hlast ▸ hdiffer⟩
  · rintro (rfl | ⟨⟨before, after, rfl, hafter⟩, hdiffer⟩)
    · exact ⟨versions, [], rfl, nofun⟩
    · exact ⟨before, after ++ [v], by simp, by simpa [or_imp, forall_and] using ⟨hafter, hdiffer⟩⟩

/-- Every version has a representative. -/
theorem exists_represents_of_mem (h : w ∈ versions) :
    ∃ u, Represents u versions ∧ u.same w = true := by
  induction versions using List.reverseRecOn with
  | nil => cases h
  | append_singleton front v ih =>
    rcases List.mem_append.mp h with hw | hw
    · obtain ⟨u, hu, hsame⟩ := ih hw
      cases hv : v.same u with
      | true => exact ⟨v, represents_append_singleton.mpr (.inl rfl), same_trans hv hsame⟩
      | false => exact ⟨u, represents_append_singleton.mpr (.inr ⟨hu, hv⟩), hsame⟩
    · rw [List.mem_singleton.mp hw]
      exact ⟨v, represents_append_singleton.mpr (.inl rfl), same_self v⟩

/-! ## Pools -/

namespace Pool

theorem mem_place_self (v : Version) (l : List Version) : v ∈ place v l := by
  induction l with
  | nil => exact List.mem_singleton_self v
  | cons x rest ih =>
    rw [place]
    split
    · exact List.mem_cons_self
    · exact List.mem_cons_self
    · exact List.mem_cons_of_mem _ ih

/-- Placing a version replaces only one of the same precedence. -/
theorem mem_place_of_mem (h : w ∈ l) (hdiffer : v.same w = false) : w ∈ place v l := by
  induction l with
  | nil => cases h
  | cons x rest ih =>
    rw [place]
    split
    · exact List.mem_cons_of_mem _ h
    · next heq =>
      refine List.mem_cons_of_mem _ ((List.mem_cons.mp h).resolve_left ?_)
      rintro rfl
      simp [same, heq] at hdiffer
    · rcases List.mem_cons.mp h with rfl | h
      · exact List.mem_cons_self
      · exact List.mem_cons_of_mem _ (ih h)

/-- Placing a version in an ascending list replaces the one of the same precedence and no other. -/
theorem mem_place_iff (h : l.Pairwise fun v w ↦ v.precedence w = .lt) :
    w ∈ place v l ↔ w = v ∨ w ∈ l ∧ v.same w = false := by
  constructor
  · intro hw
    induction l with
    | nil => exact .inl (List.mem_singleton.mp hw)
    | cons x rest ih =>
      obtain ⟨hx, hrest⟩ := List.pairwise_cons.mp h
      rw [place] at hw
      split at hw
      case h_1 hlt =>
        refine (List.mem_cons.mp hw).imp_right fun hw ↦ ⟨hw, not_same_of_lt ?_⟩
        rcases List.mem_cons.mp hw with rfl | hw
        · exact hlt
        · exact TransCmp.lt_trans hlt (hx w hw)
      case h_2 heq =>
        refine (List.mem_cons.mp hw).imp_right fun hw ↦ ⟨List.mem_cons_of_mem x hw, ?_⟩
        exact not_same_of_lt (TransCmp.lt_of_eq_of_lt heq (hx w hw))
      case h_3 hgt =>
        rcases List.mem_cons.mp hw with rfl | hw
        · exact .inr ⟨List.mem_cons_self, by rw [same, hgt]; rfl⟩
        · exact (ih hrest hw).imp_right fun ⟨hw, hdiffer⟩ ↦ ⟨List.mem_cons_of_mem x hw, hdiffer⟩
  · rintro (rfl | ⟨hw, hdiffer⟩)
    · exact mem_place_self w l
    · exact mem_place_of_mem hw hdiffer

/-- Placing a version keeps the ascending order. -/
theorem pairwise_place (h : l.Pairwise fun v w ↦ v.precedence w = .lt) :
    (place v l).Pairwise fun v w ↦ v.precedence w = .lt := by
  induction l with
  | nil => exact List.pairwise_singleton _ v
  | cons x rest ih =>
    obtain ⟨hx, hrest⟩ := List.pairwise_cons.mp h
    rw [place]
    split
    · next hlt =>
      refine List.pairwise_cons.mpr ⟨List.forall_mem_cons.mpr ⟨hlt, fun w hw ↦ ?_⟩, h⟩
      exact TransCmp.lt_trans hlt (hx w hw)
    · next heq =>
      refine List.pairwise_cons.mpr ⟨fun w hw ↦ ?_, hrest⟩
      exact TransCmp.lt_of_eq_of_lt heq (hx w hw)
    · next hgt =>
      refine List.pairwise_cons.mpr ⟨fun w hw ↦ ?_, ih hrest⟩
      rcases (mem_place_iff hrest).mp hw with rfl | ⟨hw, _⟩
      · exact OrientedCmp.gt_iff_lt.mp hgt
      · exact hx w hw

theorem pairwise_ofList (versions : List Version) :
    (ofList versions).ascending.Pairwise fun v w ↦ v.precedence w = .lt :=
  List.foldlRecOn versions _ List.Pairwise.nil fun _ h _ _ ↦ pairwise_place h

theorem ofList_append_singleton (versions : List Version) (v : Version) :
    (ofList (versions ++ [v])).ascending = place v (ofList versions).ascending :=
  List.foldl_append

/-- A pool holds the representatives of the versions given. -/
theorem mem_ofList_iff : v ∈ (ofList versions).ascending ↔ Represents v versions := by
  induction versions using List.reverseRecOn with
  | nil => exact iff_of_false List.not_mem_nil (not_represents_nil v)
  | append_singleton front u ih =>
    rw [ofList_append_singleton, mem_place_iff (pairwise_ofList front), ih,
      represents_append_singleton]

theorem mem_of_mem_ofList (h : w ∈ (ofList versions).ascending) : w ∈ versions :=
  (mem_ofList_iff.mp h).mem

/-- A pool of versions of different precedence holds all of them. -/
theorem mem_ofList (hdiffer : versions.Pairwise fun v w ↦ v.same w = false) (h : w ∈ versions) :
    w ∈ (ofList versions).ascending := by
  obtain ⟨before, after, rfl⟩ := List.append_of_mem h
  rw [List.pairwise_append, List.pairwise_cons] at hdiffer
  refine mem_ofList_iff.mpr ⟨before, after, rfl, fun v hv ↦ ?_⟩
  rw [same_comm]
  exact hdiffer.2.1.1 v hv

/-- For each version given, some version of the pool has its precedence. -/
theorem exists_same_ofList (h : w ∈ versions) :
    ∃ u ∈ (ofList versions).ascending, u.same w = true := by
  obtain ⟨u, hu, hsame⟩ := exists_represents_of_mem h
  exact ⟨u, mem_ofList_iff.mpr hu, hsame⟩

/-! ## Candidates -/

variable {pool : Pool} {ranges : List Range}

/-- Candidates are offered newest first. -/
theorem pairwise_candidates (h : pool.ascending.Pairwise fun v w ↦ v.precedence w = .lt)
    (ranges : List Range) :
    (pool.candidates ranges).Pairwise fun v w ↦ w.precedence v = .lt := by
  have haccepted : (pool.accepted ranges).Pairwise fun v w ↦ w.precedence v = .lt :=
    (List.pairwise_reverse.mpr h).filter _
  unfold candidates
  simp only
  split
  · exact haccepted.filter _
  · exact haccepted

/-- A candidate is an accepted version, and a prerelease only when no stable version is accepted. -/
theorem mem_candidates_iff :
    v ∈ pool.candidates ranges ↔ v ∈ pool.ascending ∧ (∀ range ∈ ranges, range.accepts v = true) ∧
      (v.isPrerelease = true → ∀ w ∈ pool.ascending,
        (∀ range ∈ ranges, range.accepts w = true) → w.isPrerelease = true) := by
  have haccepted (w : Version) : w ∈ pool.accepted ranges ↔
      w ∈ pool.ascending ∧ ∀ range ∈ ranges, range.accepts w = true := by simp [accepted]
  unfold candidates
  simp only
  split
  · next hstable =>
    obtain ⟨w, hw, hplain⟩ := List.any_eq_true.mp hstable
    obtain ⟨hmem, haccepts⟩ := (haccepted w).mp hw
    rw [List.mem_filter, haccepted, and_assoc]
    refine and_congr_right fun _ ↦ and_congr_right fun _ ↦ ?_
    constructor
    · intro hv hpre
      simp [hpre] at hv
    · intro hall
      cases hpre : v.isPrerelease with
      | false => rfl
      | true =>
        rw [hall hpre w hmem haccepts] at hplain
        cases hplain
  · next hnone =>
    rw [haccepted]
    refine ⟨fun ⟨hmem, haccepts⟩ ↦ ⟨hmem, haccepts, fun _ w hw hall ↦ ?_⟩, fun h ↦ ⟨h.1, h.2.1⟩⟩
    simp only [List.any_eq_true, not_exists, not_and] at hnone
    simpa using hnone w ((haccepted w).mpr ⟨hw, hall⟩)

end Pool

end SheetPackages.Version
