/-!
# Maps in insertion order

A finite map from texts whose entries stand in the order in which their keys were first inserted.
Inserting a key again keeps its position and replaces its value; erasing a key keeps the order of
the others. No key occurs twice, which is part of the type.
-/

namespace SheetPackages

structure OrderedMap (α : Type) where
  entries : List (String × α)
  nodup : (entries.map Prod.fst).Nodup

namespace OrderedMap

variable {α β : Type}

def empty : OrderedMap α :=
  ⟨[], List.nodup_nil⟩

instance : Inhabited (OrderedMap α) :=
  ⟨empty⟩

theorem ext {m n : OrderedMap α} (h : m.entries = n.entries) : m = n := by
  cases m
  cases n
  simp_all

instance [DecidableEq α] : DecidableEq (OrderedMap α) := fun m n ↦
  decidable_of_iff (m.entries = n.entries) ⟨ext, fun h ↦ h ▸ rfl⟩

def keys (m : OrderedMap α) : List String :=
  m.entries.map Prod.fst

def values (m : OrderedMap α) : List α :=
  m.entries.map Prod.snd

def size (m : OrderedMap α) : Nat :=
  m.entries.length

def isEmpty (m : OrderedMap α) : Bool :=
  m.entries.isEmpty

def get? (m : OrderedMap α) (key : String) : Option α :=
  m.entries.lookup key

def contains (m : OrderedMap α) (key : String) : Bool :=
  (m.get? key).isSome

/-- The entries with the value of `key` replaced, or with the key added behind them. -/
def put (key : String) (value : α) : List (String × α) → List (String × α)
  | [] => [(key, value)]
  | (k, v) :: rest => if k = key then (key, value) :: rest else (k, v) :: put key value rest

theorem map_fst_put (key : String) (value : α) (entries : List (String × α)) :
    (put key value entries).map Prod.fst =
      if key ∈ entries.map Prod.fst then entries.map Prod.fst
      else entries.map Prod.fst ++ [key] := by
  induction entries with
  | nil => simp [put]
  | cons entry rest ih =>
    obtain ⟨k, v⟩ := entry
    by_cases h : k = key
    · simp [put, h]
    · have h' : ¬ key = k := fun e ↦ h e.symm
      simp only [put, if_neg h, List.map_cons, ih, List.mem_cons, h', false_or]
      split <;> simp

def insert (m : OrderedMap α) (key : String) (value : α) : OrderedMap α where
  entries := put key value m.entries
  nodup := by
    rw [map_fst_put]
    split
    · exact m.nodup
    · next h =>
      rw [List.nodup_append]
      refine ⟨m.nodup, by simp, ?_⟩
      intro a ha b hb hab
      simp only [List.mem_singleton] at hb
      exact h (hb ▸ hab ▸ ha)

/-- The map with the entries that satisfy `keep`, in their order. -/
def filter (m : OrderedMap α) (keep : String → α → Bool) : OrderedMap α where
  entries := m.entries.filter fun entry ↦ keep entry.1 entry.2
  nodup := m.nodup.sublist (List.filter_sublist.map Prod.fst)

def erase (m : OrderedMap α) (key : String) : OrderedMap α :=
  m.filter fun k _ ↦ k ≠ key

/-- The map with the same keys and the values given by `f`. -/
def map (m : OrderedMap α) (f : String → α → β) : OrderedMap β where
  entries := m.entries.map fun entry ↦ (entry.1, f entry.1 entry.2)
  nodup := by
    have h : (m.entries.map fun entry ↦ (entry.1, f entry.1 entry.2)).map Prod.fst =
        m.entries.map Prod.fst := by
      simp [List.map_map, Function.comp_def]
    rw [h]
    exact m.nodup

/-- The entries of `more` inserted one after the other. -/
def insertAll (m : OrderedMap α) (more : List (String × α)) : OrderedMap α :=
  more.foldl (fun acc entry ↦ acc.insert entry.1 entry.2) m

/-- The entries inserted one after the other into the empty map. -/
def ofList (entries : List (String × α)) : OrderedMap α :=
  empty.insertAll entries

/-! ## Lookups -/

theorem lookup_put (key name : String) (value : α) (entries : List (String × α)) :
    (put key value entries).lookup name =
      if name = key then some value else entries.lookup name := by
  induction entries with
  | nil =>
    by_cases h : name = key
    · simp [put, h]
    · have hb : (name == key) = false := by simpa using h
      simp [put, List.lookup_cons, h, hb]
  | cons entry rest ih =>
    obtain ⟨k, v⟩ := entry
    by_cases hk : k = key
    · subst hk
      by_cases h : name = k
      · simp [put, h]
      · have hb : (name == k) = false := by simpa using h
        simp [put, List.lookup_cons, h, hb]
    · simp only [put, if_neg hk, List.lookup_cons, ih]
      by_cases h : name = key
      · subst h
        have hb : (name == k) = false := by simpa using fun e ↦ hk e.symm
        simp [hb]
      · simp [h]

theorem get?_insert (m : OrderedMap α) (key name : String) (value : α) :
    (m.insert key value).get? name = if name = key then some value else m.get? name :=
  lookup_put key name value m.entries

theorem contains_insert (m : OrderedMap α) (key name : String) (value : α) :
    (m.insert key value).contains name = (name == key || m.contains name) := by
  unfold contains
  rw [get?_insert]
  by_cases h : name = key <;> simp [h]

theorem mem_keys_of_lookup {entries : List (String × α)} {name : String} {value : α}
    (h : entries.lookup name = some value) : name ∈ entries.map Prod.fst := by
  induction entries with
  | nil => simp at h
  | cons entry rest ih =>
    obtain ⟨key, v⟩ := entry
    rw [List.lookup_cons] at h
    by_cases hk : name = key
    · simp [hk]
    · have hb : (name == key) = false := by simpa using hk
      rw [hb] at h
      exact List.mem_cons_of_mem _ (ih h)

theorem mem_keys_of_get? {m : OrderedMap α} {name : String} {value : α}
    (h : m.get? name = some value) : name ∈ m.keys :=
  mem_keys_of_lookup h

@[simp] theorem get?_empty (name : String) : (empty : OrderedMap α).get? name = none :=
  rfl

theorem lookup_eq_some_iff {entries : List (String × α)} (hnodup : (entries.map Prod.fst).Nodup)
    {name : String} {value : α} :
    entries.lookup name = some value ↔ (name, value) ∈ entries := by
  induction entries with
  | nil => simp
  | cons entry rest ih =>
    obtain ⟨key, v⟩ := entry
    simp only [List.map_cons, List.nodup_cons] at hnodup
    rw [List.lookup_cons, List.mem_cons]
    by_cases hk : name = key
    · subst hk
      have hrest : (name, value) ∉ rest := fun h ↦ hnodup.1 (List.mem_map_of_mem h)
      simp [hrest, eq_comm]
    · have hb : (name == key) = false := by simpa using hk
      simp [hb, hk, ih hnodup.2]

theorem get?_eq_some_iff {m : OrderedMap α} {name : String} {value : α} :
    m.get? name = some value ↔ (name, value) ∈ m.entries :=
  lookup_eq_some_iff m.nodup

theorem mem_keys_iff {m : OrderedMap α} {name : String} :
    name ∈ m.keys ↔ ∃ value, m.get? name = some value := by
  simp only [keys, List.mem_map, get?_eq_some_iff, Prod.exists, exists_and_right, exists_eq_right]

theorem mem_keys_iff_contains {m : OrderedMap α} {name : String} :
    name ∈ m.keys ↔ m.contains name = true := by
  rw [mem_keys_iff, contains, Option.isSome_iff_exists]

theorem contains_of_mem {m : OrderedMap α} {entry : String × α} (h : entry ∈ m.entries) :
    m.contains entry.1 = true :=
  mem_keys_iff_contains.mp (List.mem_map_of_mem h)

theorem contains_eq_false_iff {m : OrderedMap α} {name : String} :
    m.contains name = false ↔ m.get? name = none := by
  simp [contains]

theorem mem_values_iff {m : OrderedMap α} {value : α} :
    value ∈ m.values ↔ ∃ name, m.get? name = some value := by
  simp only [values, List.mem_map, get?_eq_some_iff, Prod.exists, exists_eq_right]

theorem get?_map (m : OrderedMap α) (f : String → α → β) (name : String) :
    (m.map f).get? name = (m.get? name).map (f name) := by
  change (m.entries.map fun entry ↦ (entry.1, f entry.1 entry.2)).lookup name = _
  unfold get?
  induction m.entries with
  | nil => rfl
  | cons entry rest ih =>
    rw [List.map_cons, List.lookup_cons, List.lookup_cons]
    by_cases hk : name = entry.1
    · simp [hk]
    · have hb : (name == entry.1) = false := by simpa using hk
      simpa [hb] using ih

theorem entries_map (m : OrderedMap α) (f : String → α → β) :
    (m.map f).entries = m.entries.map fun entry ↦ (entry.1, f entry.1 entry.2) :=
  rfl

theorem map_congr {m : OrderedMap α} {f g : α → β} (h : ∀ value ∈ m.values, f value = g value) :
    (m.map fun _ value ↦ f value) = m.map fun _ value ↦ g value := by
  apply ext
  rw [entries_map, entries_map]
  apply List.map_congr_left
  intro entry hentry
  rw [h entry.2 (List.mem_map_of_mem hentry)]

theorem map_eq_self {m : OrderedMap α} {f : α → α} (h : ∀ value ∈ m.values, f value = value) :
    (m.map fun _ value ↦ f value) = m := by
  calc
    (m.map fun _ value ↦ f value) = m.map fun _ value ↦ value := map_congr h
    _ = m := ext (List.map_id m.entries)

theorem get?_filter (m : OrderedMap α) (keep : String → α → Bool) (name : String) :
    (m.filter keep).get? name = (m.get? name).filter (keep name) := by
  ext value
  rw [get?_eq_some_iff, Option.filter_eq_some_iff, get?_eq_some_iff]
  simp [filter]

theorem get?_erase (m : OrderedMap α) (key name : String) :
    (m.erase key).get? name = if name = key then none else m.get? name := by
  rw [erase, get?_filter]
  by_cases h : name = key
  · simp [h]
  · cases m.get? name <;> simp [h]

/-- A new key goes behind all others. -/
theorem entries_insert_of_not_contains {m : OrderedMap α} {key : String} (value : α)
    (h : m.contains key = false) : (m.insert key value).entries = m.entries ++ [(key, value)] := by
  have hput (entries : List (String × α)) (hkey : key ∉ entries.map Prod.fst) :
      put key value entries = entries ++ [(key, value)] := by
    induction entries with
    | nil => rfl
    | cons entry rest ih =>
      simp only [List.map_cons, List.mem_cons, not_or] at hkey
      rw [put, if_neg (Ne.symm hkey.1), ih hkey.2]
      rfl
  refine hput m.entries fun hmem ↦ ?_
  rw [mem_keys_iff_contains.mp hmem] at h
  cases h

theorem contains_eq_false_of_nodup {m : OrderedMap α} {entry : String × α}
    {more : List (String × α)} (h : ((m.entries ++ entry :: more).map Prod.fst).Nodup) :
    m.contains entry.1 = false := by
  rw [← Bool.not_eq_true, ← mem_keys_iff_contains]
  rw [List.map_append, List.map_cons] at h
  exact fun hmem ↦ (List.nodup_append.mp h).2.2 _ hmem _ List.mem_cons_self rfl

theorem entries_insert_append {m : OrderedMap α} {entry : String × α} {more : List (String × α)}
    (h : ((m.entries ++ entry :: more).map Prod.fst).Nodup) :
    (m.insert entry.1 entry.2).entries ++ more = m.entries ++ entry :: more := by
  rw [entries_insert_of_not_contains entry.2 (contains_eq_false_of_nodup h), List.append_assoc,
    List.singleton_append]

/-- Entries with new keys of their own go behind all others. -/
theorem entries_insertAll {m : OrderedMap α} {more : List (String × α)}
    (h : ((m.entries ++ more).map Prod.fst).Nodup) :
    (m.insertAll more).entries = m.entries ++ more := by
  induction more generalizing m with
  | nil => rw [List.append_nil]; rfl
  | cons entry rest ih =>
    have hinsert := entries_insert_append h
    rw [← hinsert] at h ⊢
    exact ih h

theorem entries_ofList {entries : List (String × α)} (h : (entries.map Prod.fst).Nodup) :
    (ofList entries).entries = entries :=
  entries_insertAll h

@[simp] theorem ofList_entries (m : OrderedMap α) : ofList m.entries = m :=
  ext (entries_ofList m.nodup)

theorem contains_insertAll {m : OrderedMap α} {more : List (String × α)} {name : String} :
    (m.insertAll more).contains name = true ↔
      m.contains name = true ∨ name ∈ more.map Prod.fst := by
  induction more generalizing m with
  | nil => simp [insertAll]
  | cons entry rest ih =>
    have hstep : m.insertAll (entry :: rest) = (m.insert entry.1 entry.2).insertAll rest := rfl
    rw [hstep, ih, contains_insert, Bool.or_eq_true, beq_iff_eq, List.map_cons, List.mem_cons,
      or_comm (a := name = entry.1), or_assoc]

/-- Maps without a common key are joined by putting the one behind the other. -/
theorem entries_insertAll_of_disjoint {m more : OrderedMap α}
    (h : ∀ name, more.contains name = true → m.contains name = false) :
    (m.insertAll more.entries).entries = m.entries ++ more.entries := by
  apply entries_insertAll
  rw [List.map_append, List.nodup_append]
  refine ⟨m.nodup, more.nodup, fun name hname other hother heq ↦ ?_⟩
  have hfree := h other (mem_keys_iff_contains.mp hother)
  rw [← heq, mem_keys_iff_contains.mp hname] at hfree
  cases hfree

/-- A value in a map with more entries is one of these or was there before. -/
theorem get?_insertAll {m : OrderedMap α} {more : List (String × α)} {name : String} {value : α}
    (h : (m.insertAll more).get? name = some value) :
    m.get? name = some value ∨ (name, value) ∈ more := by
  induction more generalizing m with
  | nil => exact .inl h
  | cons entry rest ih =>
    have hstep : m.insertAll (entry :: rest) = (m.insert entry.1 entry.2).insertAll rest := rfl
    rw [hstep] at h
    rcases ih h with h | h
    · rw [get?_insert] at h
      split at h
      · next heq =>
        cases h
        exact .inr (heq ▸ List.mem_cons_self)
      · exact .inl h
    · exact .inr (List.mem_cons_of_mem _ h)

/-! ## Filters -/

theorem filter_put (keep : String → Bool) (key : String) (value : α)
    (entries : List (String × α)) :
    ((put key value entries).filter fun entry ↦ keep entry.1) =
      if keep key then put key value (entries.filter fun entry ↦ keep entry.1)
      else entries.filter fun entry ↦ keep entry.1 := by
  induction entries with
  | nil => cases h : keep key <;> simp [put, h]
  | cons entry rest ih =>
    obtain ⟨k, v⟩ := entry
    by_cases heq : k = key
    · subst heq
      cases h : keep k <;> simp [put, h]
    · rw [put, if_neg heq, List.filter_cons, List.filter_cons, ih]
      cases keep k <;> cases keep key <;> simp [put, heq]

theorem filter_insert (m : OrderedMap α) (keep : String → Bool) (key : String) (value : α) :
    ((m.insert key value).filter fun name _ ↦ keep name) =
      if keep key then (m.filter fun name _ ↦ keep name).insert key value
      else m.filter fun name _ ↦ keep name := by
  apply ext
  have h := filter_put keep key value m.entries
  cases hkey : keep key with
  | true => rwa [hkey] at h
  | false => rwa [hkey] at h

theorem filter_insertAll {keep : String → Bool} {more : List (String × α)}
    (h : ∀ entry ∈ more, keep entry.1 = true) (m : OrderedMap α) :
    ((m.insertAll more).filter fun name _ ↦ keep name) =
      (m.filter fun name _ ↦ keep name).insertAll more := by
  induction more generalizing m with
  | nil => rfl
  | cons entry rest ih =>
    obtain ⟨hentry, hrest⟩ := List.forall_mem_cons.mp h
    have hinsert := filter_insert m keep entry.1 entry.2
    rw [if_pos hentry] at hinsert
    exact (ih hrest (m.insert entry.1 entry.2)).trans (congrArg (insertAll · rest) hinsert)

end OrderedMap

end SheetPackages
