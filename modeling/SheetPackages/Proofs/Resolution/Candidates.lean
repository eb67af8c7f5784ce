import SheetPackages.Proofs.Version.Pools
import SheetPackages.Resolution.Provider

/-!
# Candidates of an index

The candidates that the provider over an index offers for a package are published versions of the
package which every requirement on it accepts, newest first. In an index in which all versions of a
package are stable and no two have the same precedence, they are all of these versions.
-/

namespace SheetPackages

theorem Version.Range.accepts_of_isAny {r : Version.Range} (h : r.isAny = true) (v : Version) :
    r.accepts v = true := by
  unfold isAny at h
  rw [List.all_eq_true] at h
  refine List.all_eq_true.mpr fun c hc ↦ ?_
  have hop : c.op = .wildcard := by simpa using h c hc
  rw [Comparator.accepts, hop]

/-- Ranges do not look at build labels. -/
theorem Version.Range.accepts_withBuild (r : Version.Range) (v : Version)
    (label : Option Version.Label) : r.accepts { v with build := label } = r.accepts v := by
  refine List.all_congr rfl fun c ↦ ?_
  unfold Comparator.accepts
  cases c.op <;> rfl

/-- Ranges do not tell a stable version from others of its precedence. -/
theorem Version.Range.accepts_of_same (r : Version.Range) {v w : Version} (h : v.same w = true)
    (hstable : v.isPrerelease = false) : r.accepts w = r.accepts v := by
  rw [eq_of_same_of_stable h hstable]
  exact r.accepts_withBuild v _

/-- A version is accepted by the constraining ranges on a package exactly when it is accepted by
all requirements on it. -/
theorem accepted_rangesFor_iff {name : String} {requirements : List Requirement} {v : Version} :
    (∀ range ∈ rangesFor name requirements, range.accepts v = true) ↔
      ∀ r ∈ requirements, r.name = name → r.range.accepts v = true := by
  constructor
  · intro h r hr hname
    by_cases hany : r.range.isAny = true
    · exact Version.Range.accepts_of_isAny hany v
    · exact h r.range (List.mem_map_of_mem (List.mem_filter.mpr ⟨hr, by simp [hname, hany]⟩))
  · intro h range hrange
    obtain ⟨r, hr, rfl⟩ := List.mem_map.mp hrange
    obtain ⟨hr, hkeep⟩ := List.mem_filter.mp hr
    simp only [Bool.and_eq_true, beq_iff_eq] at hkeep
    exact h r hr hkeep.1

namespace Index

/-- One version of each precedence of a package, in ascending order. -/
def pooled (i : Index) (name : String) : List Version :=
  (Version.Pool.ofList (i.versions name)).ascending

theorem candidates_eq (i : Index) (name : String) (requirements : List Requirement) :
    i.provider.candidates name requirements =
      candidatesIn (.ofList (i.versions name)) name requirements := by
  have hpools : i.pools.get? name = (i.package? name).map fun listing ↦ .ofList listing.releases :=
    OrderedMap.get?_map _ _ _
  simp only [provider, hpools, versions]
  cases i.package? name with
  | none => exact (List.map_eq_nil_iff.mpr rfl).symm
  | some listing => rfl

/-- A candidate has a pooled version that all requirements on its package accept; a prerelease is
one only when they accept no stable version together. -/
theorem mem_candidates_iff {i : Index} {name : String} {requirements : List Requirement}
    {c : Package} :
    c ∈ i.provider.candidates name requirements ↔
      c = { name, version := c.version } ∧ c.version ∈ i.pooled name ∧
        (∀ r ∈ requirements, r.name = name → r.range.accepts c.version = true) ∧
        (c.version.isPrerelease = true → ∀ w ∈ i.pooled name,
          (∀ r ∈ requirements, r.name = name → r.range.accepts w = true) →
            w.isPrerelease = true) := by
  simp only [candidates_eq, candidatesIn, List.mem_map, Version.Pool.mem_candidates_iff,
    accepted_rangesFor_iff]
  constructor
  · rintro ⟨v, hv, rfl⟩
    exact ⟨rfl, hv⟩
  · rintro ⟨hc, hv⟩
    exact ⟨c.version, hv, hc.symm⟩

/-- A candidate is a published version of its package that all requirements on it accept. -/
theorem of_mem_candidates {i : Index} {name : String} {requirements : List Requirement}
    {c : Package} (h : c ∈ i.provider.candidates name requirements) :
    c.name = name ∧ c.version ∈ i.versions name ∧
      ∀ r ∈ requirements, r.name = name → r.range.accepts c.version = true := by
  obtain ⟨hc, hpooled, haccepts, _⟩ := mem_candidates_iff.mp h
  refine ⟨?_, Version.Pool.mem_of_mem_ofList hpooled, haccepts⟩
  rw [hc]

theorem pairwise_candidates (i : Index) (name : String) (requirements : List Requirement) :
    (i.provider.candidates name requirements).Pairwise fun b c ↦
      c.version.precedence b.version = .lt := by
  rw [candidates_eq]
  exact List.pairwise_map.mpr (Version.Pool.pairwise_candidates (Version.Pool.pairwise_ofList _) _)

/-- A published stable version has a pooled one that the same ranges accept. -/
theorem exists_pooled_of_stable {i : Index} {name : String} {v : Version}
    (hv : v ∈ i.versions name) (hstable : v.isPrerelease = false) :
    ∃ w ∈ i.pooled name, w.isPrerelease = false ∧
      ∀ range : Version.Range, range.accepts w = range.accepts v := by
  obtain ⟨w, hw, hsame⟩ := Version.Pool.exists_same_ofList hv
  rw [Version.same_comm] at hsame
  refine ⟨w, hw, ?_, fun range ↦ range.accepts_of_same hsame hstable⟩
  rw [Version.eq_of_same_of_stable hsame hstable]
  exact hstable

/-- The versions of a package are those that its listing offers, if it has one. -/
theorem versions_eq_nil_or (i : Index) (name : String) : i.versions name = [] ∨
    ∃ entry ∈ i.packages.entries, i.versions name = entry.2.releases := by
  rw [versions]
  cases hp : i.package? name with
  | none => exact .inl rfl
  | some listing => exact .inr ⟨(name, listing), OrderedMap.get?_eq_some_iff.mp hp, rfl⟩

/-- A version that a listing offers is found under a key of it. -/
theorem exists_of_mem_releases {l : Listing} {v : Version} (h : v ∈ l.releases) :
    ∃ key r, l.key? v = some key ∧ l.versions.get? key = some r := by
  rw [Listing.key?]
  by_cases hexact : l.versions.contains v.text = true
  · obtain ⟨r, hr⟩ := Option.isSome_iff_exists.mp hexact
    exact ⟨v.text, r, if_pos hexact, hr⟩
  · obtain ⟨entry, hentry, rfl⟩ := List.mem_map.mp h
    rw [if_neg hexact]
    cases hfind : l.readable.find? fun other ↦ other.2.same entry.2 with
    | none => simpa using List.find?_eq_none.mp hfind entry hentry
    | some found =>
      obtain ⟨key, hkey, hread⟩ := List.mem_filterMap.mp (List.mem_of_find?_eq_some hfind)
      obtain ⟨w, _, rfl⟩ := Option.map_eq_some_iff.mp hread
      obtain ⟨r, hr⟩ := Option.isSome_iff_exists.mp (OrderedMap.mem_keys_iff_contains.mp hkey)
      exact ⟨key, r, rfl, hr⟩

/-- What is listed for a published version is found. -/
theorem exists_release {i : Index} {name : String} {v : Version} (h : v ∈ i.versions name) :
    ∃ release, i.release name v = .ok release := by
  rw [versions] at h
  rw [release]
  cases hp : i.package? name with
  | none => simp [hp] at h
  | some listing =>
    simp only [hp] at h
    obtain ⟨key, r, hkey, hr⟩ := exists_of_mem_releases h
    simp only [hkey, Option.bind_some, hr]
    exact ⟨r, rfl⟩

/-- What is found for a version stands under the version's key in the listing of its package. -/
theorem exists_listing_of_release {i : Index} {name : String} {v : Version} {release : Release}
    (h : i.release name v = .ok release) : ∃ listing key, i.package? name = some listing ∧
      i.key? name v = some key ∧ listing.versions.get? key = some release := by
  rw [Index.release] at h
  split at h
  · cases h
  · next listing hlisting =>
    split at h
    · next found hfound =>
      cases h
      obtain ⟨key, hkey, hget⟩ := Option.bind_eq_some_iff.mp hfound
      refine ⟨listing, key, hlisting, ?_, hget⟩
      rw [key?, hlisting, Option.bind_some, hkey]
    · cases h

/-- No two versions of a package have the same precedence, and all of them are stable. -/
structure Plain (i : Index) (name : String) : Prop where
  stable : ∀ v ∈ i.versions name, v.isPrerelease = false
  differ : (i.versions name).Pairwise fun v w ↦ v.same w = false

/-- An index is plain when every listing is. -/
theorem plain_of_listings {i : Index}
    (h : ∀ entry ∈ i.packages.entries, (∀ v ∈ entry.2.releases, v.isPrerelease = false) ∧
      entry.2.releases.Pairwise fun v w ↦ v.same w = false) (name : String) : i.Plain name := by
  rcases i.versions_eq_nil_or name with hnone | ⟨entry, hentry, hsome⟩
  · constructor <;> simp [hnone]
  · constructor
    · rw [hsome]
      exact (h entry hentry).1
    · rw [hsome]
      exact (h entry hentry).2

theorem Plain.mem_candidates {i : Index} {name : String} (h : i.Plain name)
    {requirements : List Requirement} {v : Version} (hv : v ∈ i.versions name)
    (haccepts : ∀ r ∈ requirements, r.name = name → r.range.accepts v = true) :
    { name, version := v } ∈ i.provider.candidates name requirements := by
  refine mem_candidates_iff.mpr ⟨rfl, Version.Pool.mem_ofList h.differ hv, haccepts, fun hpre ↦ ?_⟩
  rw [h.stable v hv] at hpre
  cases hpre

end Index

end SheetPackages
