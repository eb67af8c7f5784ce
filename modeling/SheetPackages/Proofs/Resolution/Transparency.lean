import Mathlib.Algebra.Order.BigOperators.Group.List
import Mathlib.Algebra.Order.Group.Nat
import SheetPackages.Proofs.Resolution.Remembering
import SheetPackages.Proofs.Version.Spelling

/-!
# When a memo cannot be noticed

A memo finds requirement texts again under every version that differs from the one it was asked for
by its build label only, while an index may list these versions under keys of their own with other
requirements. An answer is always what the index says about the candidate, or about an earlier one
with the same numbers and prerelease label. No sequence of questions tells a memo from the index
exactly if versions that are listed under their own texts require what stands under the first key
of their precedence.
-/

namespace SheetPackages

/-! ## Requirement texts of a listing -/

namespace Listing

variable {l : Listing} {v w : Version}

/-- The requirement texts that are found for a version. -/
def requires? (l : Listing) (v : Version) : Option (List String) :=
  ((l.key? v).bind l.versions.get?).map (·.dependencies)

/-- The first key that is read as a version of the same precedence. -/
def firstKey? (l : Listing) (v : Version) : Option String :=
  (l.readable.find? fun entry ↦ entry.2.same v).map Prod.fst

/-- The requirement texts under the first key that is read as a version of the same precedence. -/
def firstRequires? (l : Listing) (v : Version) : Option (List String) :=
  ((l.firstKey? v).bind l.versions.get?).map (·.dependencies)

/-- A version that is listed under its own text requires what stands under the first key of its
precedence. -/
def Uniform (l : Listing) : Prop :=
  ∀ v : Version, l.versions.contains v.text = true → l.requires? v = l.firstRequires? v

theorem requires?_of_not_contains (h : l.versions.contains v.text = false) :
    l.requires? v = l.firstRequires? v := by
  rw [requires?, key?, if_neg (ne_true_of_eq_false h)]
  rfl

theorem firstRequires?_of_same (h : v.same w = true) : l.firstRequires? v = l.firstRequires? w := by
  have hsame (u : Version) : u.same v = u.same w := by
    rw [Bool.eq_iff_iff]
    exact ⟨fun huv ↦ Version.same_trans huv h,
      fun huw ↦ Version.same_trans huw ((Version.same_comm w v).trans h)⟩
  simp only [firstRequires?, firstKey?, hsame]

theorem Uniform.requires?_eq (h : l.Uniform) (v : Version) :
    l.requires? v = l.firstRequires? v := by
  cases hcontains : l.versions.contains v.text with
  | true => exact h v hcontains
  | false => exact requires?_of_not_contains hcontains

/-- A version under whose text something is listed is one that can be read. -/
theorem mem_readable (h : l.versions.contains v.text = true) : (v.text, v) ∈ l.readable := by
  refine List.mem_filterMap.mpr ⟨v.text, OrderedMap.mem_keys_iff_contains.mpr h, ?_⟩
  rw [Version.parse?, Version.parse_text]
  rfl

theorem exists_requires? (h : l.versions.contains v.text = true) :
    ∃ texts, l.requires? v = some texts := by
  obtain ⟨r, hr⟩ := Option.isSome_iff_exists.mp h
  exact ⟨r.dependencies, by rw [requires?, key?, if_pos h, Option.bind_some, hr, Option.map_some]⟩

theorem exists_firstRequires? (h : l.versions.contains v.text = true) :
    ∃ texts, l.firstRequires? v = some texts := by
  have hfound : (l.readable.find? fun entry ↦ entry.2.same v).isSome = true :=
    List.find?_isSome.mpr ⟨_, mem_readable h, Version.same_self v⟩
  obtain ⟨⟨key, w⟩, hfind⟩ := Option.isSome_iff_exists.mp hfound
  obtain ⟨listed, hlisted, hread⟩ := List.mem_filterMap.mp (List.mem_of_find?_eq_some hfind)
  obtain ⟨_, -, heq⟩ := Option.map_eq_some_iff.mp hread
  cases heq
  obtain ⟨r, hr⟩ := OrderedMap.mem_keys_iff.mp hlisted
  refine ⟨r.dependencies, ?_⟩
  rw [firstRequires?, firstKey?, hfind, Option.map_some, Option.bind_some, hr, Option.map_some]

end Listing

/-- A label that is longer than `n`. -/
def Version.Label.longer (n : Nat) : Version.Label where
  parts := [{
    chars := List.replicate (n + 1) '0'
    nonempty := List.cons_ne_nil _ _
    valid := List.all_eq_true.mpr fun c hc ↦ by rw [List.eq_of_mem_replicate hc]; decide }]
  nonempty := List.cons_ne_nil _ _

theorem Version.lt_length_text (v : Version) (n : Nat) :
    n < ({ v with build := some (Label.longer n) } : Version).text.length := by
  rw [text, String.length_ofList, chars, List.length_append]
  have hlabel : n < (labelChars '+' (some (Label.longer n))).length := by
    simp only [labelChars, Label.chars, Label.longer, List.map_cons, List.map_nil, Text.joined,
      List.length_cons, List.length_replicate]
    omega
  exact Nat.lt_add_left _ hlabel

/-- There is always a build label with which a version is not listed under its own text. -/
theorem Listing.exists_unlisted (l : Listing) (v : Version) : ∃ label,
    l.versions.contains ({ v with build := some label } : Version).text = false := by
  let bound := (l.versions.keys.map String.length).sum
  refine ⟨.longer bound, ?_⟩
  rw [← Bool.not_eq_true, ← OrderedMap.mem_keys_iff_contains]
  intro hlisted
  exact absurd (List.le_sum_of_mem (List.mem_map_of_mem hlisted))
    (Nat.not_le.mpr (v.lt_length_text bound))

/-! ## Questions -/

namespace Memo

inductive Question where
  | candidates (name : String) (requirements : List Requirement)
  | declared (c : Package)

inductive Answer where
  | candidates (found : List Package)
  | declared (texts : Except Fault (List String))

variable {i : Index} {m : Memo} {before : List Question}

/-- Asks a provider that remembers. -/
def ask (i : Index) (m : Memo) : Question → Answer × Memo
  | .candidates name requirements =>
    let (found, m) := m.candidates i name requirements
    (.candidates found, m)
  | .declared c =>
    let (texts, m) := m.declaredBy i c
    (.declared texts, m)

/-- What is remembered when some questions have been asked one after the other. -/
def after (i : Index) (questions : List Question) : Memo :=
  questions.foldl (fun m q ↦ (m.ask i q).2) {}

/-- After any questions, every question is answered as if it were the first one. -/
def Transparent (i : Index) : Prop :=
  ∀ before q, ((after i before).ask i q).1 = (ask i {} q).1

/-- Candidates that differ at most by the build labels of their versions. -/
structure Twins (b c : Package) : Prop where
  name : b.name = c.name
  same : b.version.same c.version = true
  tableKey : b.version.tableKey = c.version.tableKey

/-- What is kept after some questions is what the index says: the pools, and the requirement texts
of candidates that were asked for. -/
structure Recalls (i : Index) (before : List Question) (m : Memo) : Prop where
  pools : ∀ name pool, m.pools.get? name = some pool → pool = .ofList (i.versions name)
  declared : ∀ entry ∈ m.declared, ∃ c, .declared c ∈ before ∧
    entry.1 = (c.name, c.version) ∧ i.declared c = .ok entry.2

theorem ask_fresh_candidates (i : Index) (name : String) (requirements : List Requirement) :
    (ask i {} (.candidates name requirements)).1 =
      .candidates (candidatesIn (.ofList (i.versions name)) name requirements) :=
  rfl

theorem ask_stored {c : Package} {texts : List String} (h : m.stored? c = some texts) :
    m.ask i (.declared c) = (.declared (.ok texts), m) := by
  simp only [ask, declaredBy, h]
  rfl

theorem ask_failed {c : Package} {fault : Fault} (h : m.stored? c = none)
    (hfault : i.declared c = .error fault) :
    m.ask i (.declared c) = (.declared (.error fault), m) := by
  simp only [ask, declaredBy, h, hfault]
  rfl

theorem ask_found {c : Package} {texts : List String} (h : m.stored? c = none)
    (htexts : i.declared c = .ok texts) :
    m.ask i (.declared c) = (.declared (.ok texts),
      { m with declared := ((c.name, c.version), texts) :: m.declared }) := by
  simp only [ask, declaredBy, h, htexts]
  rfl

theorem ask_fresh_declared (i : Index) (c : Package) :
    (ask i {} (.declared c)).1 = .declared (i.declared c) := by
  cases hdeclared : i.declared c with
  | error fault => rw [ask_failed rfl hdeclared]
  | ok texts => rw [ask_found rfl hdeclared]

/-- What is found under a candidate was kept for one that differs at most by its build label. -/
theorem Recalls.exists_twin (h : Recalls i before m) {c : Package} {texts : List String}
    (hstored : m.stored? c = some texts) :
    ∃ b, .declared b ∈ before ∧ Twins b c ∧ i.declared b = .ok texts := by
  obtain ⟨⟨⟨name, v⟩, kept⟩, hfind, rfl⟩ := Option.map_eq_some_iff.mp hstored
  have hfound := List.find?_some hfind
  simp only [Bool.and_eq_true, beq_iff_eq] at hfound
  obtain ⟨⟨hname, hsame⟩, hkey⟩ := hfound
  obtain ⟨b, hb, hentry, hdeclared⟩ := h.declared _ (List.mem_of_find?_eq_some hfind)
  cases hentry
  exact ⟨b, hb, ⟨hname, hsame, hkey⟩, hdeclared⟩

/-- An answer is that of the index, or the one about an earlier candidate that differs at most by
its build label. -/
theorem Recalls.ask_spec (h : Recalls i before m) (q : Question) :
    ((m.ask i q).1 = (ask i {} q).1 ∨ ∃ b c texts, q = .declared c ∧ .declared b ∈ before ∧
      Twins b c ∧ i.declared b = .ok texts ∧ (m.ask i q).1 = .declared (.ok texts)) ∧
      Recalls i (before ++ [q]) (m.ask i q).2 := by
  have hlater (entry : (String × Version) × List String) (hentry : entry ∈ m.declared) :
      ∃ c, .declared c ∈ before ++ [q] ∧ entry.1 = (c.name, c.version) ∧
        i.declared c = .ok entry.2 := by
    obtain ⟨c, hc, hkept⟩ := h.declared entry hentry
    exact ⟨c, List.mem_append_left _ hc, hkept⟩
  cases q with
  | candidates name requirements =>
    obtain ⟨hpool, hpools, hdeclared⟩ := pool_spec h.pools name
    refine ⟨.inl ?_, hpools, fun entry hentry ↦ hlater entry (hdeclared ▸ hentry)⟩
    rw [ask_fresh_candidates, ← hpool]
    rfl
  | declared c =>
    rw [ask_fresh_declared]
    cases hstored : m.stored? c with
    | some texts =>
      obtain ⟨b, hb, htwins, hdeclared⟩ := h.exists_twin hstored
      rw [ask_stored hstored]
      exact ⟨.inr ⟨b, c, texts, rfl, hb, htwins, hdeclared, rfl⟩, h.pools, hlater⟩
    | none =>
      cases hdeclared : i.declared c with
      | error fault =>
        rw [ask_failed hstored hdeclared]
        exact ⟨.inl rfl, h.pools, hlater⟩
      | ok texts =>
        rw [ask_found hstored hdeclared]
        refine ⟨.inl rfl, h.pools, List.forall_mem_cons.mpr ⟨?_, hlater⟩⟩
        exact ⟨c, List.mem_append_right _ List.mem_cons_self, rfl, hdeclared⟩

theorem recalls_after (i : Index) (before : List Question) : Recalls i before (after i before) := by
  induction before using List.reverseRecOn with
  | nil => exact ⟨nofun, nofun⟩
  | append_singleton before q ih =>
    rw [after, List.foldl_concat]
    exact (ih.ask_spec q).2

/-! ## Transparency -/

theorem declared_eq {l : Listing} {c : Package} (hl : i.package? c.name = some l)
    {texts : List String} : i.declared c = .ok texts ↔ l.requires? c.version = some texts := by
  simp only [Index.declared, Index.release, hl, Listing.requires?]
  cases (l.key? c.version).bind l.versions.get? with
  | none => simp [throw, throwThe, MonadExceptOf.throw, Except.map]
  | some r => simp [pure, Except.pure, Except.map]

/-- Candidates that differ by build labels only require the same in a uniform index. -/
theorem Twins.declared_eq (h : ∀ name l, i.package? name = some l → l.Uniform) {b c : Package}
    (htwins : Twins b c) {texts : List String} (hb : i.declared b = .ok texts) :
    i.declared c = .ok texts := by
  cases hl : i.package? b.name with
  | none =>
    simp only [Index.declared, Index.release, hl] at hb
    cases hb
  | some l =>
    have huniform := h b.name l hl
    have htexts := (Memo.declared_eq hl).mp hb
    rw [huniform.requires?_eq, Listing.firstRequires?_of_same htwins.same,
      ← huniform.requires?_eq] at htexts
    exact (Memo.declared_eq (htwins.name ▸ hl)).mpr htexts

theorem after_declared {b : Package} {texts : List String} (hb : i.declared b = .ok texts) :
    after i [.declared b] = { declared := [((b.name, b.version), texts)] } :=
  congrArg Prod.snd (ask_found rfl hb)

/-- When a candidate has been asked for, one that differs at most by its build label is given the
same answer. -/
theorem ask_twin {b c : Package} (htwins : Twins b c) {texts : List String}
    (hb : i.declared b = .ok texts) :
    ((after i [.declared b]).ask i (.declared c)).1 = .declared (.ok texts) := by
  have hstored : (after i [.declared b]).stored? c = some texts := by
    rw [after_declared hb, stored?, List.find?_singleton, htwins.same, htwins.name,
      htwins.tableKey, beq_self_eq_true, beq_self_eq_true]
    rfl
  rw [ask_stored hstored]

/-- A memo cannot be told from the index by any questions exactly if in every listing the versions
that are listed under their own texts require what stands under the first key of their
precedence. -/
theorem transparent_iff (i : Index) :
    Transparent i ↔ ∀ name l, i.package? name = some l → l.Uniform := by
  constructor
  · intro h name l hl v hcontains
    obtain ⟨own, hown⟩ := Listing.exists_requires? hcontains
    obtain ⟨texts, htexts⟩ := Listing.exists_firstRequires? hcontains
    obtain ⟨label, hunlisted⟩ := l.exists_unlisted v
    -- The version with the label is looked up by precedence only.
    let b : Package := { name, version := v }
    let c : Package := { name, version := { v with build := some label } }
    have hsame : v.same c.version = true := Version.same_self v
    have hb : i.declared b = .ok own := (declared_eq hl).mpr hown
    have hc : i.declared c = .ok texts := by
      rw [declared_eq hl, Listing.requires?_of_not_contains hunlisted,
        ← Listing.firstRequires?_of_same hsame, htexts]
    have htwins : Twins b c := ⟨rfl, hsame, rfl⟩
    have hanswers := h [.declared b] (.declared c)
    rw [ask_twin htwins hb, ask_fresh_declared, hc] at hanswers
    cases hanswers
    rw [hown, htexts]
  · intro h before q
    rcases ((recalls_after i before).ask_spec q).1 with
      hsame | ⟨b, c, texts, rfl, -, htwins, hb, htold⟩
    · exact hsame
    · rw [htold, ask_fresh_declared, htwins.declared_eq h hb]

end Memo

/-- An index that lists two builds of a version, with different requirements. -/
def Index.twoBuilds : Index where
  packages := .ofList [("pkg", { versions := .ofList [
    ("1.0.0+a", { dependencies := ["left"] }), ("1.0.0+b", { dependencies := ["right"] })] })]

/-- The second build is taken to require what the first one does. -/
theorem Memo.not_transparent_twoBuilds : ∃ b c : Package,
    b.name = "pkg" ∧ Version.parse "1.0.0+a" = .ok b.version ∧
      c.name = "pkg" ∧ Version.parse "1.0.0+b" = .ok c.version ∧
      (ask Index.twoBuilds {} (.declared c)).1 = .declared (.ok ["right"]) ∧
      ((after Index.twoBuilds [.declared b]).ask Index.twoBuilds (.declared c)).1 =
        .declared (.ok ["left"]) ∧
      ¬ Transparent Index.twoBuilds := by
  let build (c : Char) (h : Version.isIdentifierChar c = true) : Package :=
    { name := "pkg"
      version := ⟨1, 0, 0, none, some ⟨[⟨[c], List.cons_ne_nil c [], by simpa using h⟩],
        List.cons_ne_nil _ _⟩⟩ }
  let b := build 'a' (by decide)
  let c := build 'b' (by decide)
  have hb : Index.twoBuilds.declared b = .ok ["left"] := by decide +kernel
  have hc : Index.twoBuilds.declared c = .ok ["right"] := by decide +kernel
  have htwins : Twins b c := ⟨rfl, by decide +kernel, by decide +kernel⟩
  have hfresh : (ask Index.twoBuilds {} (.declared c)).1 = .declared (.ok ["right"]) := by
    rw [ask_fresh_declared, hc]
  have htold := ask_twin htwins hb
  refine ⟨b, c, rfl, by decide +kernel, rfl, by decide +kernel, hfresh, htold, fun h ↦ ?_⟩
  have hanswers := h [.declared b] (.declared c)
  rw [htold, hfresh] at hanswers
  simp at hanswers

end SheetPackages
