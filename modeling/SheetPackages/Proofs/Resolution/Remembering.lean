import Mathlib.Data.List.Pairwise
import SheetPackages.Proofs.Resolution.Candidates

/-!
# Answers from a memo

A resolution asks for candidates of any package, but for the requirements of candidates only. A memo
finds answers under versions of the same precedence, and of these at most one is ever a candidate;
so what a resolution is told with a memo is what the index says. About versions that are asked for
in another way a memo may be mistaken.
-/

namespace SheetPackages

/-- Of two versions with the same precedence at most one is pooled. -/
theorem Index.eq_of_mem_pooled {i : Index} {name : String} {v w : Version}
    (hv : v ∈ i.pooled name) (hw : w ∈ i.pooled name) (hsame : v.same w = true) : v = w := by
  have hsymm : Std.Symm fun v w : Version ↦ v.same w = false :=
    ⟨fun v w h ↦ (Version.same_comm w v).trans h⟩
  have hdiffer : (i.pooled name).Pairwise fun v w ↦ v.same w = false :=
    (Version.Pool.pairwise_ofList _).imp Version.not_same_of_lt
  by_contra hne
  exact Bool.false_ne_true ((hdiffer.forall hv hw hne).symm.trans hsame)

/-- A package that a resolution may try: its version is among the candidates for some
requirements. -/
def Index.Offers (i : Index) (c : Package) : Prop :=
  ∃ requirements, ∃ b ∈ i.provider.candidates c.name requirements, b.version = c.version

theorem Index.Offers.pooled {i : Index} {c : Package} (h : i.Offers c) :
    c.version ∈ i.pooled c.name := by
  obtain ⟨requirements, b, hb, hversion⟩ := h
  exact hversion ▸ (mem_candidates_iff.mp hb).2.1

namespace Memo

variable {i : Index} {m : Memo} {c : Package}

/-- The memos that come of asking what a resolution asks. -/
inductive Asked (i : Index) : Memo → Prop
  | nothing : Asked i {}
  | candidates {m : Memo} (name : String) (requirements : List Requirement) (h : Asked i m) :
      Asked i (m.candidates i name requirements).2
  | requires {m : Memo} {c : Package} (hoffers : i.Offers c) (h : Asked i m) :
      Asked i (m.requires i c).2

/-- What is kept is what the index says, and no texts are kept of versions without a place in the
pool of their package. -/
structure Faithful (i : Index) (m : Memo) : Prop where
  pools : ∀ name pool, m.pools.get? name = some pool → pool = .ofList (i.versions name)
  pooled : ∀ entry ∈ m.declared, entry.1.2 ∈ i.pooled entry.1.1
  declared : ∀ entry ∈ m.declared,
    i.declared { name := entry.1.1, version := entry.1.2 } = .ok entry.2

theorem faithful_nothing (i : Index) : Faithful i {} :=
  ⟨nofun, nofun, nofun⟩

/-- Where the pools that are kept are those of the index, so is the one that is asked for. Asking
for it leaves the requirement texts alone. -/
theorem pool_spec (h : ∀ name pool, m.pools.get? name = some pool → pool = .ofList (i.versions name))
    (name : String) :
    (m.pool i name).1 = .ofList (i.versions name) ∧
      (∀ other pool, (m.pool i name).2.pools.get? other = some pool →
        pool = .ofList (i.versions other)) ∧
      (m.pool i name).2.declared = m.declared := by
  unfold Memo.pool
  cases hpool : m.pools.get? name with
  | some pool => exact ⟨h name pool hpool, h, rfl⟩
  | none =>
    refine ⟨rfl, fun other pool hother ↦ ?_, rfl⟩
    rw [OrderedMap.get?_insert] at hother
    split at hother
    · next heq => rw [← Option.some_inj.mp hother, heq]
    · exact h other pool hother

theorem Faithful.pool (h : Faithful i m) (name : String) :
    (m.pool i name).1 = .ofList (i.versions name) ∧ Faithful i (m.pool i name).2 := by
  obtain ⟨hpool, hpools, hdeclared⟩ := pool_spec h.pools name
  exact ⟨hpool, hpools, hdeclared ▸ h.pooled, hdeclared ▸ h.declared⟩

/-- Candidates are those of the index. -/
theorem Faithful.candidates (h : Faithful i m) (name : String) (requirements : List Requirement) :
    (m.candidates i name requirements).1 = i.provider.candidates name requirements ∧
      Faithful i (m.candidates i name requirements).2 := by
  obtain ⟨hpool, hkept⟩ := h.pool name
  exact ⟨by rw [Index.candidates_eq, ← hpool]; rfl, hkept⟩

/-- What is remembered of an offered package was asked for under its own version. -/
theorem Faithful.stored? (h : Faithful i m) (hc : c.version ∈ i.pooled c.name)
    {texts : List String} (hstored : m.stored? c = some texts) : i.declared c = .ok texts := by
  obtain ⟨⟨⟨name, v⟩, kept⟩, hfind, rfl⟩ := Option.map_eq_some_iff.mp hstored
  have hfound := List.find?_some hfind
  simp only [Bool.and_eq_true, beq_iff_eq] at hfound
  obtain ⟨⟨rfl, hsame⟩, _⟩ := hfound
  have hmem := List.mem_of_find?_eq_some hfind
  obtain rfl : v = c.version := Index.eq_of_mem_pooled (h.pooled _ hmem) hc hsame
  exact h.declared _ hmem

theorem Faithful.declaredBy (h : Faithful i m) (hc : c.version ∈ i.pooled c.name) :
    (m.declaredBy i c).1 = i.declared c ∧ Faithful i (m.declaredBy i c).2 := by
  unfold Memo.declaredBy
  cases hstored : m.stored? c with
  | some texts => exact ⟨(h.stored? hc hstored).symm, h⟩
  | none =>
    cases hdeclared : i.declared c with
    | error fault => exact ⟨rfl, h⟩
    | ok texts =>
      exact ⟨rfl, h.pools, List.forall_mem_cons.mpr ⟨hc, h.pooled⟩,
        List.forall_mem_cons.mpr ⟨hdeclared, h.declared⟩⟩

/-- The requirements of an offered package are those of the index. -/
theorem Faithful.requires (h : Faithful i m) (hoffers : i.Offers c) :
    (m.requires i c).1 = i.provider.requires c ∧ Faithful i (m.requires i c).2 := by
  obtain ⟨htexts, hkept⟩ := h.declaredBy hoffers.pooled
  exact ⟨congrArg (· >>= Dependency.readAll) htexts, hkept⟩

theorem Asked.faithful (h : Asked i m) : Faithful i m := by
  induction h with
  | nothing => exact faithful_nothing i
  | candidates name requirements _ ih => exact (ih.candidates name requirements).2
  | requires hoffers _ ih => exact (ih.requires hoffers).2

end Memo

end SheetPackages
