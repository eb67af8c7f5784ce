import Mathlib.Data.List.Infix
import SheetPackages.Proofs.Plan.Draws
import SheetPackages.Proofs.Registry.Saving
import SheetPackages.Registry.Basic

/-!
# Reloaded caches

The file of a cache is written by some of its uses only: an index that has been found stale is
dropped without a word, and nothing is written when there is nothing to drop. So the file holds what
the cache holds, and perhaps indexes that have outlived their time, which stay so as long as the
clock is not set back. Therefore what is found after the file has been loaded would have been found
without. Clocks that are set back and files that are changed by others are not described.
-/

namespace SheetPackages

open IndexCache (ReadsBack Savable loaded)

/-- What can be done with a cache of indexes. -/
inductive CacheUse where
  | lookup (url : String)
  | insert (url : String) (index : Index)
  | drop (url : String)
  | dropStale
  | clear
  /-- Indexes that are put in afterwards have another lifetime. -/
  | keepFor (lifetime : Span)

namespace CacheUse

def perform : CacheUse → Cached Unit
  | .lookup url => do let _ ← Cached.lookup url
  | .insert url index => Cached.insert url index
  | .drop url => do let _ ← Cached.drop url
  | .dropStale => do let _ ← Cached.dropStale
  | .clear => Cached.clear
  | .keepFor lifetime => do Cached.setCache { ← Cached.cache with lifetime }

/-- A use at an instant. -/
def performAt (s : World × IndexCache) (use : Instant × CacheUse) : World × IndexCache :=
  (use.2.perform.run.run ({ s.1 with now := use.1 }, s.2)).2

def performAll (s : World × IndexCache) (uses : List (Instant × CacheUse)) : World × IndexCache :=
  uses.foldl performAt s

/-! ## What a use does -/

/-- The cache after a use, and whether it is written to its file. -/
def change (now : Instant) (c : IndexCache) : CacheUse → IndexCache × Bool
  | .lookup url => ((c.lookup url now).2, false)
  | .insert url index => (c.insert url index now, true)
  | .drop url => if c.entries.contains url then (c.erase url, true) else (c, false)
  | .dropStale => if (c.stats now).stale > 0 then (c.fresh now, true) else (c, false)
  | .clear => (c.clear, true)
  | .keepFor lifetime => ({ c with lifetime }, false)

theorem run_save {path : String} {c : IndexCache} (hpath : c.path = some path) (w : World) :
    c.save.runIn w = (.ok (), { w with files := c.saveTo path w.files }) := by
  rw [IndexCache.save, hpath]
  rfl

theorem run_updateCache {path : String} {c : IndexCache} {f : IndexCache → IndexCache}
    (hpath : (f c).path = some path) (w : World) :
    (Cached.updateCache f).run.run (w, c) =
      (.ok (), { w with files := (f c).saveTo path w.files }, f c) := by
  change (((f c).save.runIn w).1, ((f c).save.runIn w).2, f c) = _
  rw [run_save hpath]

theorem run_drop {path : String} {c : IndexCache} (hpath : c.path = some path) (w : World)
    (url : String) : (Cached.drop url).run.run (w, c) =
      if c.entries.contains url = true then
        (.ok true, { w with files := (c.erase url).saveTo path w.files }, c.erase url)
      else (.ok false, w, c) := by
  change (if c.entries.contains url = true then
    (Cached.updateCache (·.erase url) >>= fun _ ↦ pure (c.entries.contains url) : Cached Bool)
    else pure (c.entries.contains url) : Cached Bool).run.run (w, c) = _
  by_cases hknown : c.entries.contains url = true
  · have hupdate := run_updateCache (f := (·.erase url)) hpath w
    rw [if_pos hknown, if_pos hknown, run_bind_of_ok hupdate, hknown]
    rfl
  · rw [if_neg hknown, if_neg hknown, Bool.eq_false_iff.mpr hknown]
    rfl

theorem run_dropStale {path : String} {c : IndexCache} (hpath : c.path = some path) (w : World) :
    Cached.dropStale.run.run (w, c) =
      if (c.stats w.now).stale > 0 then
        (.ok (c.stats w.now).stale, { w with files := (c.fresh w.now).saveTo path w.files },
          c.fresh w.now)
      else (.ok (c.stats w.now).stale, w, c) := by
  change (if (c.stats w.now).stale > 0 then
    (Cached.updateCache (·.fresh w.now) >>= fun _ ↦ pure (c.stats w.now).stale : Cached Nat)
    else pure (c.stats w.now).stale : Cached Nat).run.run (w, c) = _
  by_cases hstale : (c.stats w.now).stale > 0
  · have hupdate := run_updateCache (f := (·.fresh w.now)) hpath w
    rw [if_pos hstale, if_pos hstale, run_bind_of_ok hupdate]
    rfl
  · rw [if_neg hstale, if_neg hstale]
    rfl

/-- Every use of a cache that is kept in a file ends. -/
theorem run_perform {path : String} {c : IndexCache} (hpath : c.path = some path) (w : World)
    (use : CacheUse) :
    use.perform.run.run (w, c) =
      (.ok (),
        { w with files := bif (use.change w.now c).2 then (use.change w.now c).1.saveTo path w.files
            else w.files },
        (use.change w.now c).1) := by
  cases use with
  | lookup url => rfl
  | keepFor lifetime => rfl
  | insert url index =>
    let inserted := c.insert url index w.now
    change ((inserted.save.runIn w).1, (inserted.save.runIn w).2, inserted) = _
    rw [run_save (c := inserted) hpath]
    rfl
  | clear =>
    exact run_updateCache (f := IndexCache.clear) hpath w
  | drop url =>
    have hdrop := run_drop hpath w url
    rw [change]
    split at hdrop
    · next hknown =>
      rw [if_pos hknown]
      exact run_bind_of_ok hdrop _
    · next hknown =>
      rw [if_neg hknown]
      exact run_bind_of_ok hdrop _
  | dropStale =>
    have hdropStale := run_dropStale hpath w
    rw [change]
    split at hdropStale
    · next hstale =>
      rw [if_pos hstale]
      exact run_bind_of_ok hdropStale _
    · next hstale =>
      rw [if_neg hstale]
      exact run_bind_of_ok hdropStale _

theorem performAt_eq {path : String} {c : IndexCache} (hpath : c.path = some path) (w : World)
    (now : Instant) (use : CacheUse) :
    performAt (w, c) (now, use) =
      ({ w with
          now
          files := bif (use.change now c).2 then (use.change now c).1.saveTo path w.files
            else w.files },
        (use.change now c).1) :=
  congrArg Prod.snd (run_perform hpath { w with now } use)

/-- What is in a cache after a use was there before, or has just been put in. -/
theorem get?_change {use : CacheUse} {now : Instant} {c : IndexCache} {url : String}
    {e : CachedIndex} (h : (use.change now c).1.entries.get? url = some e) :
    c.entries.get? url = some e ∨ e.stored = now ∧ e.lifetime = c.lifetime := by
  have herase {other : String} (h : (c.entries.erase other).get? url = some e) :
      c.entries.get? url = some e := by
    rw [OrderedMap.get?_erase, Option.ite_none_left_eq_some] at h
    exact h.2
  cases use with
  | lookup other =>
    refine .inl ?_
    rw [change, IndexCache.lookup] at h
    split at h
    · exact h
    · split at h
      · exact h
      · exact herase h
  | insert other index =>
    change (c.entries.insert other ⟨index, now, c.lifetime⟩).get? url = some e at h
    rw [OrderedMap.get?_insert] at h
    split at h
    · cases h
      exact .inr ⟨rfl, rfl⟩
    · exact .inl h
  | drop other =>
    refine .inl ?_
    rw [change] at h
    split at h
    · exact herase h
    · exact h
  | dropStale =>
    refine .inl ?_
    rw [change] at h
    split at h
    · change (c.entries.filter fun _ entry ↦ entry.isFresh now).get? url = some e at h
      rw [OrderedMap.get?_filter, Option.filter_eq_some_iff] at h
      exact h.1
    · exact h
  | clear => cases h
  | keepFor lifetime => exact .inl h

end CacheUse

/-! ## Cache and file -/

/-- What has been saved is what is cached, and perhaps entries that have outlived their time. -/
structure Mirrors (allowed : Span → Prop) (now : Instant) (live saved : OrderedMap CachedIndex) :
    Prop where
  saved_of_live : ∀ url e, live.get? url = some e → saved.get? url = some e
  live_or_outlived : ∀ url e, saved.get? url = some e →
    live.get? url = some e ∨ e.lifetime.nanoseconds ≤ e.age now
  age_nonneg : ∀ url e, saved.get? url = some e → 0 ≤ e.age now
  lifetime : ∀ url e, saved.get? url = some e → allowed e.lifetime

namespace Mirrors

variable {allowed : Span → Prop} {now next : Instant} {live saved : OrderedMap CachedIndex}

theorem self {m : OrderedMap CachedIndex}
    (h : ∀ url e, m.get? url = some e → 0 ≤ e.age now ∧ allowed e.lifetime) :
    Mirrors allowed now m m where
  saved_of_live _ _ he := he
  live_or_outlived _ _ he := .inl he
  age_nonneg url e he := (h url e he).1
  lifetime url e he := (h url e he).2

/-- What has outlived its time does not come back while the clock goes on. -/
theorem later (h : Mirrors allowed now live saved) (hnext : now.nanoseconds ≤ next.nanoseconds) :
    Mirrors allowed next live saved := by
  have hage (e : CachedIndex) : e.age now ≤ e.age next := Int.sub_le_sub_right hnext _
  refine ⟨h.saved_of_live, fun url e he ↦ ?_, fun url e he ↦ ?_, h.lifetime⟩
  · exact (h.live_or_outlived url e he).imp_right fun hover ↦ Int.le_trans hover (hage e)
  · exact Int.le_trans (h.age_nonneg url e he) (hage e)

theorem of_live (h : Mirrors allowed now live saved) {url : String} {e : CachedIndex}
    (he : live.get? url = some e) : 0 ≤ e.age now ∧ allowed e.lifetime :=
  ⟨h.age_nonneg url e (h.saved_of_live url e he), h.lifetime url e (h.saved_of_live url e he)⟩

theorem lookup {c : IndexCache} (h : Mirrors allowed now c.entries saved) (url : String) :
    Mirrors allowed now (c.lookup url now).2.entries saved := by
  unfold IndexCache.lookup
  cases hfound : c.entries.get? url with
  | none => exact h
  | some entry =>
    by_cases hfresh : entry.isFresh now = true
    · simp only [if_pos hfresh]
      exact h
    · simp only [if_neg hfresh]
      refine ⟨fun other e he ↦ ?_, fun other e he ↦ ?_, h.age_nonneg, h.lifetime⟩
      · rw [OrderedMap.get?_erase] at he
        split at he
        · cases he
        · exact h.saved_of_live other e he
      · rw [OrderedMap.get?_erase]
        by_cases hother : other = url
        · -- The entry is in the file as it was in the cache, and it was not fresh there.
          subst hother
          rw [h.saved_of_live other entry hfound] at he
          cases he
          rw [CachedIndex.isFresh_iff, not_and, Int.not_lt] at hfresh
          exact .inr (hfresh (h.of_live hfound).1)
        · rw [if_neg hother]
          exact h.live_or_outlived other e he

/-- After a use of the cache the file mirrors it, be it because it has been written. -/
theorem change {c : IndexCache} (h : Mirrors allowed now c.entries saved)
    (hlifetime : allowed c.lifetime) (use : CacheUse) :
    Mirrors allowed now (use.change now c).1.entries
      (bif (use.change now c).2 then (use.change now c).1.entries else saved) := by
  have hlive (url : String) (e : CachedIndex)
      (he : (use.change now c).1.entries.get? url = some e) :
      0 ≤ e.age now ∧ allowed e.lifetime := by
    rcases CacheUse.get?_change he with hbefore | ⟨rfl, hkept⟩
    · exact h.of_live hbefore
    · exact ⟨Int.le_of_eq (Int.sub_self _).symm, hkept ▸ hlifetime⟩
  cases use with
  | lookup url => exact h.lookup url
  | keepFor lifetime => exact h
  | insert url index => exact self hlive
  | clear => exact self hlive
  | drop url =>
    by_cases hknown : c.entries.contains url = true
    · have hchange : (CacheUse.drop url).change now c = (c.erase url, true) := if_pos hknown
      rw [hchange] at hlive ⊢
      exact self hlive
    · have hchange : (CacheUse.drop url).change now c = (c, false) := if_neg hknown
      rw [hchange]
      exact h
  | dropStale =>
    by_cases hstale : (c.stats now).stale > 0
    · have hchange : CacheUse.dropStale.change now c = (c.fresh now, true) := if_pos hstale
      rw [hchange] at hlive ⊢
      exact self hlive
    · have hchange : CacheUse.dropStale.change now c = (c, false) := if_neg hstale
      rw [hchange]
      exact h

theorem live_of_fresh (h : Mirrors allowed now live saved) {url : String} {e : CachedIndex}
    (he : saved.get? url = some e) (hfresh : e.isFresh now = true) : live.get? url = some e :=
  (h.live_or_outlived url e he).resolve_right
    (Int.not_le.mpr (CachedIndex.isFresh_iff.mp hfresh).2)

end Mirrors

namespace CacheUse

theorem lookup_path (c : IndexCache) (url : String) (now : Instant) :
    (c.lookup url now).2.path = c.path ∧ (c.lookup url now).2.lifetime = c.lifetime := by
  unfold IndexCache.lookup
  cases c.entries.get? url with
  | none => exact ⟨rfl, rfl⟩
  | some entry => cases h : entry.isFresh now <;> simp [h]

/-- A cache stays in its file. -/
theorem change_path (use : CacheUse) (now : Instant) (c : IndexCache) :
    (use.change now c).1.path = c.path := by
  cases use with
  | lookup url => exact (lookup_path c url now).1
  | insert | clear | keepFor => rfl
  | drop url => rw [change]; split <;> rfl
  | dropStale => rw [change]; split <;> rfl

theorem change_lifetime {use : CacheUse} (huse : ∀ l, use ≠ .keepFor l) (now : Instant)
    (c : IndexCache) : (use.change now c).1.lifetime = c.lifetime := by
  cases use with
  | lookup url => exact (lookup_path c url now).2
  | insert | clear => rfl
  | drop url => rw [change]; split <;> rfl
  | dropStale => rw [change]; split <;> rfl
  | keepFor l => exact absurd rfl (huse l)

end CacheUse

/-- A cache is kept in the file at a path, which mirrors it. -/
structure Tracks (path : String) (allowed : Span → Prop) (now : Instant) (s : World × IndexCache) :
    Prop where
  kept_at : s.2.path = some path
  lifetime : allowed s.2.lifetime
  savable : Savable path s.1.files
  mirrors : ∃ saved : OrderedMap CachedIndex,
    loaded path s.1.files =
      .ok { entries := saved.map fun _ e ↦ e.truncated, path := some path } ∧
    Mirrors allowed now s.2.entries saved

namespace Tracks

variable {path : String} {allowed : Span → Prop} {now next : Instant} {s : World × IndexCache}

theorem later (h : Tracks path allowed now s) (hnext : now.nanoseconds ≤ next.nanoseconds) :
    Tracks path allowed next s :=
  have ⟨saved, hloaded, hmirrors⟩ := h.mirrors
  ⟨h.kept_at, h.lifetime, h.savable, saved, hloaded, hmirrors.later hnext⟩

theorem performAt (h : Tracks path allowed now s) (hcountable : ∀ l, allowed l → l.IsCountable)
    {use : CacheUse} (huse : ∀ l, use = .keepFor l → allowed l)
    (hreads : (CacheUse.performAt s (now, use)).2.ReadsBack) :
    Tracks path allowed now (CacheUse.performAt s (now, use)) := by
  obtain ⟨w, c⟩ := s
  obtain ⟨saved, hloaded, hmirrors⟩ := h.mirrors
  have hperform := CacheUse.performAt_eq h.kept_at w now use
  have hafter := hmirrors.change h.lifetime use
  have hkept : (use.change now c).1.path = some path :=
    (CacheUse.change_path use now c).trans h.kept_at
  have hlifetime : allowed (use.change now c).1.lifetime := by
    by_cases hkeep : ∃ l, use = .keepFor l
    · obtain ⟨l, rfl⟩ := hkeep
      exact huse l rfl
    · rw [CacheUse.change_lifetime (not_exists.mp hkeep)]
      exact h.lifetime
  rw [hperform] at hreads ⊢
  generalize use.change now c = changed at *
  obtain ⟨c', written⟩ := changed
  cases written with
  | false => exact ⟨hkept, hlifetime, h.savable, saved, hloaded, hafter⟩
  | true =>
    refine ⟨hkept, hlifetime, (IndexCache.saveTo_spec c' h.savable).2, c'.entries, ?_, hafter⟩
    exact IndexCache.loaded_saveTo h.savable hreads
      fun url e he ↦ hcountable _ (hafter.of_live he).2

/-- A cache is mirrored by its file after any uses, at any instant that is not before them. -/
theorem performAll (h : Tracks path allowed now s) (hcountable : ∀ l, allowed l → l.IsCountable)
    {uses : List (Instant × CacheUse)} {t : Instant}
    (hclock : (now :: uses.map Prod.fst ++ [t]).Pairwise (·.nanoseconds ≤ ·.nanoseconds))
    (huses : ∀ use ∈ uses, ∀ l, use.2 = .keepFor l → allowed l)
    (hreads : ∀ before, before <+: uses → (CacheUse.performAll s before).2.ReadsBack) :
    Tracks path allowed t (CacheUse.performAll s uses) := by
  induction uses generalizing now s with
  | nil => exact h.later (List.rel_of_pairwise_cons hclock (List.mem_singleton_self t))
  | cons use rest ih =>
    obtain ⟨at_, use⟩ := use
    obtain ⟨hhere, hrest⟩ := List.forall_mem_cons.mp huses
    have hfirst := (h.later (List.rel_of_pairwise_cons hclock (List.mem_cons_self ..))).performAt
      hcountable hhere (hreads [(at_, use)] ⟨rest, rfl⟩)
    refine ih hfirst hclock.of_cons hrest fun before hbefore ↦ ?_
    exact hreads ((at_, use) :: before) ((List.prefix_cons_inj _).mpr hbefore)

/-- What is found in the file is found in the cache, and the other way around where nothing was cut
off the lifetimes. -/
theorem lookup_loaded (h : Tracks path allowed now s) :
    ∃ reloaded, loaded path s.1.files = .ok reloaded ∧ ∀ url,
      (∀ index, (reloaded.lookup url now).1 = some index → (s.2.lookup url now).1 = some index) ∧
      ((∀ l, allowed l → l.IsWhole) → (reloaded.lookup url now).1 = (s.2.lookup url now).1) := by
  obtain ⟨saved, hloaded, hmirrors⟩ := h.mirrors
  refine ⟨_, hloaded, fun url ↦ ?_⟩
  have hfound (index : Index)
      (h : (IndexCache.lookup ⟨saved.map fun _ e ↦ e.truncated, .ofSeconds 3600, some path⟩
        url now).1 = some index) : (s.2.lookup url now).1 = some index := by
    obtain ⟨cut, hcut, hfresh, rfl⟩ := IndexCache.lookup_eq_some_iff.mp h
    rw [OrderedMap.get?_map] at hcut
    obtain ⟨e, he, rfl⟩ := Option.map_eq_some_iff.mp hcut
    have hfresh := CachedIndex.isFresh_of_truncated hfresh
    exact IndexCache.lookup_eq_some_iff.mpr ⟨e, hmirrors.live_of_fresh he hfresh, hfresh, rfl⟩
  refine ⟨hfound, fun hwhole ↦ Option.ext fun index ↦ ⟨hfound index, fun h ↦ ?_⟩⟩
  obtain ⟨e, he, hfresh, rfl⟩ := IndexCache.lookup_eq_some_iff.mp h
  have hsame : e.truncated = e := by
    rw [CachedIndex.truncated, hwhole e.lifetime (hmirrors.of_live he).2]
  refine IndexCache.lookup_eq_some_iff.mpr ⟨e, ?_, hfresh, rfl⟩
  rw [OrderedMap.get?_map, hmirrors.saved_of_live url e he]
  exact congrArg some hsame

end Tracks

/-! ## The main result -/

namespace CacheUse

/-- The lifetimes of the indexes that some uses put in, starting with that of the cache. -/
def lifetimes (start : Span) (uses : List (Instant × CacheUse)) : List Span :=
  start :: uses.filterMap fun
    | (_, .keepFor l) => some l
    | _ => none

theorem tracks_of_empty {path : String} {lifetimes : List Span} {lifetime : Span} {w : World}
    (hempty : (IndexCache.load path).runIn w = (.ok { path := some path }, w))
    (hsavable : Savable path w.files) (hlifetime : lifetime ∈ lifetimes) :
    Tracks path (· ∈ lifetimes) w.now (w, { path := some path, lifetime }) where
  kept_at := rfl
  lifetime := hlifetime
  savable := hsavable
  mirrors := by
    rw [IndexCache.runIn_load] at hempty
    exact ⟨.empty, congrArg Prod.fst hempty, .self nofun⟩

/-- Let a cache be kept in a file that held nothing, and be used while the clock is not set back.
Then what is found when the file is loaded is found in the cache as well, and nothing else is found
there unless lifetimes have fractions of seconds. -/
theorem lookup_reloaded {path : String} {w : World} {lifetime : Span} {t : Instant}
    {uses : List (Instant × CacheUse)}
    (hempty : (IndexCache.load path).runIn w = (.ok { path := some path }, w))
    (hsavable : Savable path w.files)
    (hclock : (w.now :: uses.map Prod.fst ++ [t]).Pairwise (·.nanoseconds ≤ ·.nanoseconds))
    (hcountable : ∀ l ∈ lifetimes lifetime uses, l.IsCountable)
    (hreads : ∀ before, before <+: uses →
      (performAll (w, { path := some path, lifetime }) before).2.ReadsBack) :
    ∃ later live, performAll (w, { path := some path, lifetime }) uses = (later, live) ∧
      ∃ reloaded, (IndexCache.load path).runIn { later with now := t } =
          (.ok reloaded, { later with now := t }) ∧
        ∀ url,
          (∀ index, (reloaded.lookup url t).1 = some index →
            (live.lookup url t).1 = some index) ∧
          ((∀ l ∈ lifetimes lifetime uses, l.IsWhole) →
            (reloaded.lookup url t).1 = (live.lookup url t).1) := by
  refine ⟨_, _, rfl, ?_⟩
  have hused : ∀ use ∈ uses, ∀ l, use.2 = .keepFor l → l ∈ lifetimes lifetime uses := by
    rintro ⟨now, use⟩ huse l rfl
    exact List.mem_cons_of_mem _ (List.mem_filterMap.mpr ⟨_, huse, rfl⟩)
  have htracks := (tracks_of_empty hempty hsavable (List.mem_cons_self ..)).performAll hcountable
    hclock hused hreads
  obtain ⟨reloaded, hloaded, hlookup⟩ := htracks.lookup_loaded
  exact ⟨reloaded, (IndexCache.runIn_load ..).trans (Prod.ext hloaded rfl), hlookup⟩

/-- An empty cache of two seconds and a half, kept in a file that is not there. -/
def emptyCache : World × IndexCache :=
  (⟨{}, {}, ⟨0⟩⟩, { path := some "/cache/index.json", lifetime := ⟨2_500_000_000⟩ })

/-- The first index is found to be stale, but stays in the file. -/
def trial : List (Instant × CacheUse) :=
  [(⟨10_000_000_000⟩, .insert "a" {}), (⟨12_000_000_000⟩, .insert "b" {}),
    (⟨13_000_000_000⟩, .lookup "a"), (⟨14_000_000_000⟩, .dropStale)]

def afterTrial : Instant :=
  ⟨14_200_000_000⟩

theorem lookup_reloaded_trial :
    (IndexCache.load "/cache/index.json").runIn emptyCache.1 =
        (.ok { path := some "/cache/index.json" }, emptyCache.1) ∧
      Savable "/cache/index.json" emptyCache.1.files ∧
      ∃ later live, performAll emptyCache trial = (later, live) ∧
        ∃ reloaded, (IndexCache.load "/cache/index.json").runIn { later with now := afterTrial } =
            (.ok reloaded, { later with now := afterTrial }) ∧
          ∀ url,
            (∀ index, (reloaded.lookup url afterTrial).1 = some index →
              (live.lookup url afterTrial).1 = some index) ∧
            ((∀ l ∈ lifetimes emptyCache.2.lifetime trial, l.IsWhole) →
              (reloaded.lookup url afterTrial).1 = (live.lookup url afterTrial).1) := by
  have hempty : (IndexCache.load "/cache/index.json").runIn emptyCache.1 =
      (.ok { path := some "/cache/index.json" }, emptyCache.1) := rfl
  have hsavable : Savable "/cache/index.json" emptyCache.1.files :=
    .of_free ["cache", "index.json"] (by decide +kernel) (by decide +kernel) (by decide +kernel)
  have hreads : ∀ before ∈ trial.inits, (performAll emptyCache before).2.ReadsBack := by
    unfold IndexCache.ReadsBack
    decide +kernel
  refine ⟨hempty, hsavable, lookup_reloaded hempty hsavable (by decide) ?_ ?_⟩
  · unfold Span.IsCountable
    decide
  · exact fun before hbefore ↦ hreads before ((List.mem_inits ..).mpr hbefore)

/-- The second index is fresh for its last half second, but not in the file. -/
example :
    ((performAll emptyCache trial).2.lookup "b" afterTrial).1 = some {} ∧
      (loaded "/cache/index.json" (performAll emptyCache trial).1.files).toOption.map
        (fun c ↦ (c.lookup "b" afterTrial).1) = some none := by
  decide +kernel

end CacheUse

end SheetPackages
