import SheetPackages.Proofs.Registry.Reloading
import SheetPackages.Proofs.World.Dates

/-!
# Loaded caches

Any bytes may be in the file of a cache. If they are read as entries and one of these has a lifetime
that milliseconds of 64 bits cannot count, loading stops with a fault and there is no cache. With any
other bytes there is one, which holds the entries that are read, or nothing where none are. It can be
used from then on: every use ends, and at any date the ages of its entries can be counted. Clocks
that show no date are not described, and what the uses find is described for caches that are loaded
again.
-/

namespace SheetPackages

/-! ## Ages -/

/-- The time between two dates can be counted. -/
theorem Instant.IsDatable.isCountable {t u : Instant} (ht : t.IsDatable) (hu : u.IsDatable) :
    Span.IsCountable ⟨t.nanoseconds - u.nanoseconds⟩ := by
  have hseconds : (Span.seconds ⟨t.nanoseconds - u.nanoseconds⟩).natAbs =
      (t.nanoseconds - u.nanoseconds).natAbs / 10 ^ 9 := Int.natAbs_tdiv _ _
  have hlimit : Decimal.bitLimit 63 = 2 ^ 63 := rfl
  unfold IsDatable at ht hu
  rw [Span.IsCountable, hlimit]
  omega

/-- Entries that are read have been stored at a date. -/
theorem CachedIndex.isDatable_of_ofDocument? {doc : Json.Document} {entry : String × CachedIndex}
    (h : ofDocument? doc = some entry) : entry.2.stored.IsDatable := by
  simp only [ofDocument?, Option.bind_eq_bind, Option.bind_eq_some_iff] at h
  obtain ⟨fields, -, url, -, stored, hstored, lifetime, -, index, -, h⟩ := h
  cases h
  obtain ⟨field, -, hread⟩ := Option.bind_eq_some_iff.mp hstored
  obtain ⟨text, -, hparse⟩ := Option.bind_eq_some_iff.mp hread
  exact Instant.isDatable_of_parse? hparse

/-! ## What is in a file -/

namespace IndexCache

variable {path : String} {f : Files}

/-- The entries in the file at a path; none where nothing can be read. -/
def filed (path : String) (f : Files) : List (String × CachedIndex) :=
  match f.read path with
  | .ok data => (entriesOf? data).getD []
  | .error _ => []

theorem isDatable_of_entriesOf? {data : ByteArray} {entries : List (String × CachedIndex)}
    (h : entriesOf? data = some entries) {entry : String × CachedIndex} (hentry : entry ∈ entries) :
    entry.2.stored.IsDatable := by
  obtain ⟨doc, -, hlist⟩ := Option.bind_eq_some_iff.mp h
  cases doc with
  | list items =>
    obtain ⟨item, -, hitem⟩ := exists_of_mem_mapM hlist hentry
    exact CachedIndex.isDatable_of_ofDocument? hitem
  | _ => cases hlist

theorem isDatable_of_mem_filed {entry : String × CachedIndex} (h : entry ∈ filed path f) :
    entry.2.stored.IsDatable := by
  unfold filed at h
  split at h
  · next data _ =>
    cases hentries : entriesOf? data with
    | none =>
      rw [hentries] at h
      exact absurd h List.not_mem_nil
    | some entries =>
      rw [hentries] at h
      exact isDatable_of_entriesOf? hentries h
  · exact absurd h List.not_mem_nil

theorem loaded_eq (path : String) (f : Files) : loaded path f =
    match (filed path f).find? fun entry ↦ ¬entry.2.lifetime.IsCountable with
    | none => .ok { entries := .ofList (filed path f), path := some path }
    | some entry => .error (.lifetimeOutOfRange entry.2.lifetime.seconds) := by
  unfold loaded filed
  cases f.read path with
  | ok data => exact ofBytes_eq path data
  | error refusal => rfl

theorem loaded_eq_ok_iff {c : IndexCache} : loaded path f = .ok c ↔
    (∀ entry ∈ filed path f, entry.2.lifetime.IsCountable) ∧
      c = { entries := .ofList (filed path f), path := some path } := by
  have hall : (∀ entry ∈ filed path f, entry.2.lifetime.IsCountable) ↔
      (filed path f).find? (fun entry ↦ ¬entry.2.lifetime.IsCountable) = none := by
    simp
  rw [loaded_eq, hall]
  cases (filed path f).find? fun entry ↦ ¬entry.2.lifetime.IsCountable with
  | none => simp [eq_comm]
  | some entry => simp

end IndexCache

/-! ## Uses after loading -/

/-- At an instant a cache can be used in every way, the ages of its entries can be counted, and each
of them is tallied as fresh or stale. -/
structure Serviceable (now : Instant) (s : World × IndexCache) : Prop where
  ends : ∀ use : CacheUse, ∃ after,
    use.perform.run.run ({ s.1 with now }, s.2) = (.ok (), after)
  countable : ∀ url e, s.2.entries.get? url = some e → Span.IsCountable ⟨e.age now⟩
  tallied : (s.2.stats now).fresh + (s.2.stats now).stale = (s.2.stats now).all

/-- A cache is kept in the file at a path, and its entries have been stored at dates. -/
structure Dated (path : String) (c : IndexCache) : Prop where
  kept_at : c.path = some path
  stored : ∀ url e, c.entries.get? url = some e → e.stored.IsDatable

namespace Dated

variable {path : String} {f : Files}

theorem loaded {c : IndexCache} (h : IndexCache.loaded path f = .ok c) : Dated path c := by
  obtain ⟨-, rfl⟩ := IndexCache.loaded_eq_ok_iff.mp h
  refine ⟨rfl, fun url e he ↦ ?_⟩
  have hfiled := (OrderedMap.get?_insertAll he).resolve_left nofun
  exact IndexCache.isDatable_of_mem_filed hfiled

theorem performAt {s : World × IndexCache} (h : Dated path s.2) {now : Instant}
    (hnow : now.IsDatable) (use : CacheUse) : Dated path (CacheUse.performAt s (now, use)).2 := by
  obtain ⟨w, c⟩ := s
  rw [CacheUse.performAt_eq h.kept_at]
  refine ⟨(CacheUse.change_path use now c).trans h.kept_at, fun url e he ↦ ?_⟩
  rcases CacheUse.get?_change he with hbefore | ⟨hput, -⟩
  · exact h.stored url e hbefore
  · exact hput ▸ hnow

theorem performAll {s : World × IndexCache} (h : Dated path s.2)
    {uses : List (Instant × CacheUse)} (huses : ∀ use ∈ uses, use.1.IsDatable) :
    Dated path (CacheUse.performAll s uses).2 := by
  induction uses generalizing s with
  | nil => exact h
  | cons use rest ih =>
    obtain ⟨hhere, hrest⟩ := List.forall_mem_cons.mp huses
    exact ih (h.performAt hhere use.2) hrest

theorem serviceable {s : World × IndexCache} (h : Dated path s.2) {now : Instant}
    (hnow : now.IsDatable) : Serviceable now s where
  ends use := ⟨_, CacheUse.run_perform h.kept_at { s.1 with now } use⟩
  countable url e he := hnow.isCountable (h.stored url e he)
  tallied := Nat.add_sub_of_le (List.length_filter_le ..)

end Dated

namespace IndexCache

/-- Whatever is in the file of a cache, loading gives a cache exactly if the lifetimes of all entries
in the file can be counted. The cache holds these entries, which are none if the file cannot be read
or makes no sense. It can be used after any uses, at any dates. -/
theorem load_ends_iff (path : String) (w : World) :
    ((∃ c, (load path).runIn w = (.ok c, w)) ↔
      ∀ entry ∈ filed path w.files, entry.2.lifetime.IsCountable) ∧
    ∀ c, (load path).runIn w = (.ok c, w) →
      c.entries = .ofList (filed path w.files) ∧ c.path = some path ∧
        ∀ uses now, (∀ use ∈ uses, use.1.IsDatable) → now.IsDatable →
          Serviceable now (CacheUse.performAll (w, c) uses) := by
  have hload (c : IndexCache) : (load path).runIn w = (.ok c, w) ↔ loaded path w.files = .ok c := by
    rw [runIn_load, Prod.mk.injEq, and_iff_left rfl]
  simp only [hload]
  refine ⟨⟨?_, fun hcountable ↦ ⟨_, loaded_eq_ok_iff.mpr ⟨hcountable, rfl⟩⟩⟩, fun c hc ↦ ?_⟩
  · rintro ⟨c, hc⟩
    exact (loaded_eq_ok_iff.mp hc).1
  · have hdated := Dated.loaded hc
    obtain ⟨-, rfl⟩ := loaded_eq_ok_iff.mp hc
    exact ⟨rfl, rfl, fun uses now huses hnow ↦ (hdated.performAll huses).serviceable hnow⟩

/-- A file with one entry, which is to be kept for as many seconds as 64 bits can count. -/
def overlong : World where
  files.entries := [
    (["cache"], .directory),
    (["cache", "index.json"], .file
      ("[\x7b\"base_url\":\"a\",\"stored_at\":\"2999-01-01T00:00:00Z\"," ++
        "\"ttl_secs\":9223372036854775807,\"index\":\x7b\x7d\x7d]").toUTF8)]
  now := ⟨0⟩

theorem load_stops_overlong :
    (filed "/cache/index.json" overlong.files).map (fun entry ↦ (entry.1, entry.2.lifetime)) =
        [("a", .ofSeconds 9223372036854775807)] ∧
      (load "/cache/index.json").runIn overlong =
        (.error (.lifetimeOutOfRange 9223372036854775807), overlong) := by
  have hfiled : filed "/cache/index.json" overlong.files =
      [("a", ⟨{}, ⟨32472144000000000000⟩, .ofSeconds 9223372036854775807⟩)] := by
    decide +kernel
  refine ⟨by rw [hfiled]; rfl, ?_⟩
  rw [runIn_load, loaded_eq, hfiled]
  rfl

end IndexCache

end SheetPackages
