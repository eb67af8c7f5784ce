import SheetPackages.Proofs.Results
import SheetPackages.Proofs.World.Replacing
import SheetPackages.Registry.IndexCache

/-!
# Saved caches

A cache that has been saved where its file can be written is found there when the file is loaded,
but for the fractions of its lifetimes, and the file can be written again. That the text of the
cache is read as its entries is taken for granted here: what is described is the way through the
file and the cuts to the lifetimes.
-/

namespace SheetPackages

/-! ## Spans -/

namespace Span

theorem seconds_ofSeconds (n : Int) : (ofSeconds n).seconds = n :=
  Int.mul_tdiv_cancel n (by decide)

/-- A cut span is not longer, unless it does not last at all. -/
theorem truncated_le {s : Span} (h : 0 ≤ s.nanoseconds) :
    s.truncated.nanoseconds ≤ s.nanoseconds := by
  have hdiv : s.seconds = s.nanoseconds / Instant.nanosecondsPerSecond :=
    Int.tdiv_eq_ediv_of_nonneg h
  rw [truncated, ofSeconds, hdiv]
  exact Int.ediv_mul_le _ (by decide)

theorem truncated_nonpos {s : Span} (h : s.nanoseconds < 0) : s.truncated.nanoseconds ≤ 0 := by
  have hopposite := Int.tdiv_nonneg (Int.neg_nonneg_of_nonpos (Int.le_of_lt h))
    (show 0 ≤ Instant.nanosecondsPerSecond by decide)
  rw [Int.neg_tdiv] at hopposite
  exact Int.mul_nonpos_of_nonpos_of_nonneg (Int.nonpos_of_neg_nonneg hopposite) (by decide)

/-- A span that is a whole number of seconds. -/
def IsWhole (s : Span) : Prop :=
  s.truncated = s

/-- A span whose whole seconds are counted in milliseconds of 64 bits. -/
def IsCountable (s : Span) : Prop :=
  (s.seconds * 1000).natAbs < Decimal.bitLimit 63

instance (s : Span) : Decidable s.IsCountable :=
  inferInstanceAs (Decidable (_ < _))

theorem IsCountable.truncated {s : Span} (h : s.IsCountable) : s.truncated.IsCountable := by
  rwa [IsCountable, Span.truncated, seconds_ofSeconds]

end Span

/-! ## Entries -/

namespace CachedIndex

variable {e : CachedIndex} {now : Instant}

/-- The entry as its file keeps it. -/
def truncated (e : CachedIndex) : CachedIndex :=
  { e with lifetime := e.lifetime.truncated }

theorem isFresh_iff : e.isFresh now = true ↔
    0 ≤ e.age now ∧ e.age now < e.lifetime.nanoseconds := by
  rw [isFresh, Bool.and_eq_true, decide_eq_true_eq, decide_eq_true_eq]

/-- What is fresh with whole seconds is fresh with all of its lifetime. -/
theorem isFresh_of_truncated (h : e.truncated.isFresh now = true) : e.isFresh now = true := by
  obtain ⟨hpositive, hless⟩ := isFresh_iff.mp h
  refine isFresh_iff.mpr ⟨hpositive, ?_⟩
  change e.age now < e.lifetime.truncated.nanoseconds at hless
  change 0 ≤ e.age now at hpositive
  by_cases hlasts : 0 ≤ e.lifetime.nanoseconds
  · have hcut := Span.truncated_le hlasts
    omega
  · have hcut := Span.truncated_nonpos (Int.not_le.mp hlasts)
    omega

end CachedIndex

namespace IndexCache

variable {c : IndexCache} {path : String} {f : Files}

theorem lookup_eq_some_iff {url : String} {now : Instant} {index : Index} :
    (c.lookup url now).1 = some index ↔
      ∃ e, c.entries.get? url = some e ∧ e.isFresh now = true ∧ e.index = index := by
  unfold lookup
  cases c.entries.get? url with
  | none => simp
  | some e => cases hfresh : e.isFresh now <;> simp [hfresh]

/-! ## Writing -/

/-- The files with the directories above a path. -/
def withParent (path : String) (f : Files) : Except Files.Refusal Unit × Files :=
  match Path.parent? path with
  | some directory => f.makeDirectories directory
  | none => (pure (), f)

/-- The directories above the path are there or can be made, and the path leads to no directory. -/
def Savable (path : String) (f : Files) : Prop :=
  ∃ g place, withParent path f = (.ok (), g) ∧ g.locate path = .ok place ∧
    g.entry? place ≠ some .directory

theorem Savable.of_free (place : Place) (hparent : (withParent path f).1 = .ok ())
    (hplace : (withParent path f).2.locate path = .ok place)
    (hfree : Option.isNone (Files.entry? (withParent path f).2 place) = true) : Savable path f := by
  refine ⟨_, place, Prod.ext hparent rfl, hplace, ?_⟩
  rw [Option.isNone_iff_eq_none.mp hfree]
  exact nofun

theorem saveTo_eq {g k : Files} (hparent : withParent path f = (.ok (), g))
    (hwrite : g.write path c.text.toUTF8 = .ok k) : c.saveTo path f = k := by
  unfold withParent at hparent
  rw [saveTo]
  cases hplace : Path.parent? path with
  | none =>
    rw [hplace] at hparent
    cases hparent
    simp only [hwrite]
    rfl
  | some directory =>
    rw [hplace] at hparent
    simp only at hparent
    simp only [hparent, hwrite]
    rfl

theorem withParent_again {g k : Files} (h : withParent path f = (.ok (), g))
    (hhouses : g.Houses k) : withParent path k = (.ok (), k) := by
  unfold withParent at h ⊢
  cases hparent : Path.parent? path with
  | none => rfl
  | some directory =>
    rw [hparent] at h
    cases hempty : directory.isEmpty with
    | true => exact if_pos hempty
    | false =>
      exact Files.makeDirectories_of_isDirectory
        (hhouses.isDirectory (Files.isDirectory_of_makeDirectories hempty h))

/-- A cache is in its file when it has been saved, and can be saved again. -/
theorem saveTo_spec (c : IndexCache) (h : Savable path f) :
    (c.saveTo path f).read path = .ok c.text.toUTF8 ∧ Savable path (c.saveTo path f) := by
  obtain ⟨g, place, hparent, hplace, hentry⟩ := h
  obtain ⟨k, hwrite⟩ : ∃ k, g.write path c.text.toUTF8 = .ok k :=
    ⟨_, Files.write_eq_ok_iff.mpr ⟨place, hplace, hentry, rfl⟩⟩
  have hhouses := Files.houses_of_write hwrite
  rw [saveTo_eq hparent hwrite]
  refine ⟨Files.read_of_write hwrite, k, place, withParent_again hparent hhouses,
    hhouses.locate hplace, ?_⟩
  obtain ⟨other, hother, hnot, rfl⟩ := Files.write_eq_ok_iff.mp hwrite
  cases hplace.symm.trans hother
  rw [Files.entry?_put (Files.ne_nil_of_not_directory hnot), if_pos rfl]
  exact nofun

/-! ## Loading -/

/-- What is loaded from a file. -/
def loaded (path : String) (f : Files) : Except Fault IndexCache :=
  match f.read path with
  | .ok data => ofBytes path data
  | .error _ => .ok { path := some path }

theorem runIn_load (path : String) (w : World) :
    (load path).runIn w = (loaded path w.files, w) := by
  change (match w.files.read path with
    | .ok data => liftM (ofBytes path data)
    | .error _ => pure { path := some path } : Action IndexCache).runIn w = _
  unfold loaded
  cases w.files.read path <;> rfl

/-- The text of the cache is read as its entries with whole seconds. -/
def ReadsBack (c : IndexCache) : Prop :=
  entriesOf? c.text.toUTF8 = some (c.entries.map fun _ e ↦ e.truncated).entries

/-- The bytes give a cache unless one of the entries has a lifetime that cannot be counted: the first
of these is the fault. -/
theorem ofBytes_eq (path : String) (data : ByteArray) : ofBytes path data =
    match ((entriesOf? data).getD []).find? fun entry ↦ ¬entry.2.lifetime.IsCountable with
    | none => .ok { entries := .ofList ((entriesOf? data).getD []), path := some path }
    | some entry => .error (.lifetimeOutOfRange entry.2.lifetime.seconds) := by
  have hloop (entries : List (String × CachedIndex)) :
      (forIn entries PUnit.unit fun entry _ ↦ do
        entry.2.checkLifetime
        pure (ForInStep.yield PUnit.unit) : Except Fault PUnit) =
      match entries.find? fun entry ↦ ¬entry.2.lifetime.IsCountable with
      | none => .ok PUnit.unit
      | some entry => .error (.lifetimeOutOfRange entry.2.lifetime.seconds) := by
    induction entries with
    | nil => rfl
    | cons entry rest ih =>
      rw [List.forIn_cons, List.find?_cons]
      by_cases hcountable : entry.2.lifetime.IsCountable
      · have hcheck : entry.2.checkLifetime = .ok () := if_pos hcountable
        rw [hcheck, decide_eq_false (not_not_intro hcountable), ← ih]
        rfl
      · have hcheck : entry.2.checkLifetime =
            .error (.lifetimeOutOfRange entry.2.lifetime.seconds) := if_neg hcountable
        rw [hcheck, decide_eq_true hcountable]
        rfl
  unfold ofBytes
  generalize (entriesOf? data).getD [] = entries
  simp only [hloop entries]
  cases entries.find? fun entry ↦ ¬entry.2.lifetime.IsCountable <;> rfl

/-- A cache that has been saved is loaded with whole seconds as lifetimes. -/
theorem loaded_saveTo (h : Savable path f) (hreads : c.ReadsBack)
    (hlifetimes : ∀ url e, c.entries.get? url = some e → e.lifetime.IsCountable) :
    loaded path (c.saveTo path f) =
      .ok { entries := c.entries.map fun _ e ↦ e.truncated, path := some path } := by
  have hcountable : (c.entries.map fun _ e ↦ e.truncated).entries.find?
      (fun entry ↦ ¬entry.2.lifetime.IsCountable) = none := by
    refine List.find?_eq_none.mpr ?_
    rintro ⟨url, e⟩ hmem
    rw [← OrderedMap.get?_eq_some_iff, OrderedMap.get?_map] at hmem
    obtain ⟨e, he, rfl⟩ := Option.map_eq_some_iff.mp hmem
    have hcut : e.truncated.lifetime.IsCountable := (hlifetimes url e he).truncated
    simp [hcut]
  rw [loaded, (saveTo_spec c h).1]
  change ofBytes path c.text.toUTF8 = _
  rw [ofBytes_eq, hreads, Option.getD_some, hcountable, OrderedMap.ofList_entries]

end IndexCache

end SheetPackages
