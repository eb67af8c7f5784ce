import Mathlib.Data.List.DropRight
import SheetPackages.Proofs.Archive.Filling
import SheetPackages.Proofs.Path.Safety
import SheetPackages.Proofs.World.Erasing
import SheetPackages.Proofs.World.Sequences

/-!
# Archives that are written once

A store is a map from names and versions to archives. What is found of a version is what the first
call was to keep since the store was last cleared, whatever has been done with other versions. That
rests on the paths of archives: each has a name and a file name behind the directory of the store,
and no two versions share one. Names and versions that are no single components are refused. The
directory of the store must be there at first, and no call may be stopped by the file system.
-/

namespace SheetPackages.Archive.Store

open Sequence (Simulates Succeeds after answers isStopped recalling)
open Files (IsName)

variable {s : Store} {f g : Files} {w : World} {name version path text : String}
  {data : ByteArray}

/-! ## Paths of archives -/

/-- A text that is the only component of itself as a path, also where `\` separates components, and
that holds no zero character. -/
structure IsComponent (text : String) : Prop where
  single : Path.components text = [.normal text]
  backslash : '\\' ∉ text.toList
  zero : '\x00' ∉ text.toList

/-- The names that are accepted are the single components. -/
theorem isPlainName_iff : isPlainName text = true ↔ IsComponent text := by
  constructor
  · intro h
    refine ⟨Path.components_of_isName (of_isPlainName h), fun hmem ↦ ?_, fun hmem ↦ ?_⟩ <;>
    · simp only [isPlainName, Bool.and_eq_true, Bool.not_eq_true', List.any_eq_false] at h
      exact h.2 _ hmem (by decide)
  · intro h
    have hmem : .normal text ∈ Path.components text := by
      rw [h.single]
      exact List.mem_singleton_self _
    have hname : IsName text := Path.isName_of_mem_components hmem
    have hne : text ≠ "" ∧ text ≠ "." ∧ text ≠ ".." := by
      refine ⟨?_, ?_, ?_⟩ <;> rintro rfl
      · exact absurd hname.trivial (by decide)
      · exact absurd hname.trivial (by decide)
      · exact hname.parent rfl
    have hchars : (text.toList.any fun c ↦ c = '/' || c = '\\' || c = '\x00') = false := by
      rw [List.any_eq_false]
      intro c hc
      have hcases : c ≠ '/' ∧ c ≠ '\\' ∧ c ≠ '\x00' :=
        ⟨fun heq ↦ hname.separator (heq ▸ hc), fun heq ↦ h.backslash (heq ▸ hc),
          fun heq ↦ h.zero (heq ▸ hc)⟩
      simp [hcases]
    simp [isPlainName, hne, hchars]

theorem pathOf_eq (s : Store) (name version : String) : s.pathOf name version =
    if isPlainName name = true then
      if isPlainName version = true then
        .ok (Path.join (Path.join s.root name) (version ++ "." ++ extension))
      else .error (.unsafePath version)
    else .error (.unsafePath name) := by
  rw [pathOf, checkName, checkName]
  cases isPlainName name <;> cases isPlainName version <;> rfl

/-- What is known of the paths of archives. -/
structure Addresses (s : Store) : Prop where
  accepted : ∀ name version, (∃ path, s.pathOf name version = .ok path) ↔
    IsComponent name ∧ IsComponent version
  refused : ∀ name version fault, s.pathOf name version = .error fault →
    fault = .unsafePath name ∧ ¬IsComponent name ∨
      fault = .unsafePath version ∧ ¬IsComponent version
  below : ∀ name version path, s.pathOf name version = .ok path →
    Path.components path =
      Path.components s.root ++ [.normal name, .normal (version ++ "." ++ extension)]
  distinct : ∀ name version name' version' path, s.pathOf name version = .ok path →
    s.pathOf name' version' = .ok path → name = name' ∧ version = version'

theorem components_of_pathOf (h : s.pathOf name version = .ok path) :
    Path.components path =
      Path.components s.root ++ [.normal name, .normal (version ++ "." ++ extension)] := by
  obtain ⟨hname, hfile, rfl⟩ := of_pathOf h
  rw [Path.components_join_name _ hfile, Path.components_join_name _ hname, List.append_assoc]
  rfl

theorem addresses (s : Store) : s.Addresses where
  accepted name version := by
    rw [pathOf_eq, ← isPlainName_iff, ← isPlainName_iff]
    cases isPlainName name <;> cases isPlainName version <;> simp
  refused name version fault h := by
    rw [pathOf_eq] at h
    rw [← isPlainName_iff, ← isPlainName_iff]
    split at h
    · split at h
      · cases h
      · next hversion => exact .inr ⟨(Except.error.inj h).symm, hversion⟩
    · next hname => exact .inl ⟨(Except.error.inj h).symm, hname⟩
  below _ _ _ := components_of_pathOf
  distinct name version name' version' path h h' := by
    have hsame := List.append_cancel_left
      ((components_of_pathOf h).symm.trans (components_of_pathOf h'))
    simp only [List.cons.injEq, Path.Component.normal.injEq, and_true] at hsame
    exact ⟨hsame.1, version_inj hsame.2⟩

/-! ## Calls -/

inductive Call where
  | store (name version : String) (data : ByteArray)
  | has (name version : String)
  | read (name version : String)
  | clear

/-- What a call gives. -/
inductive Answer where
  | path (path : String)
  | known (known : Bool)
  | content (found : Option ByteArray)
  | cleared

def respond (s : Store) : Call → World → Except Fault Answer × World
  | .store name version data => (Answer.path <$> s.put name version data).runIn
  | .has name version => fun w ↦ (.ok (.known (s.holds w.files name version)), w)
  | .read name version => (Answer.content <$> s.get? name version).runIn
  | .clear => ((fun _ ↦ Answer.cleared) <$> s.clear).runIn

namespace Call

def isClear : Call → Bool
  | clear => true
  | _ => false

/-- The bytes that a call is to keep of a version. -/
def given? (name version : String) : Call → Option ByteArray
  | store name' version' data => if name' = name ∧ version' = version then some data else none
  | _ => none

end Call

/-- The bytes of the first call to keep a version since the last call to clear; before any call to
clear, what was there already comes first. -/
def firstSince (old : Option ByteArray) (name version : String) (calls : List Call) :
    Option ByteArray :=
  (if calls.any Call.isClear then none else old).or
    ((calls.rtakeWhile fun call ↦ !call.isClear).findSome? (Call.given? name version))

/-- What is to be found of a version after some calls. -/
def entry (s : Store) (f : Files) (calls : List Call) (name version : String) : Option ByteArray :=
  if isPlainName name && isPlainName version then
    firstSince (s.kept? f name version) name version calls
  else none

/-- What a call is to give behind some others. -/
def expected (s : Store) (f : Files) (before : List Call) : Call → Except Fault Answer
  | .store name version _ => (s.pathOf name version).map .path
  | .has name version => .ok (.known (s.entry f before name version).isSome)
  | .read name version => .ok (.content (s.entry f before name version))
  | .clear => .ok .cleared

/-! ## Entries behind one more call -/

variable {old : Option ByteArray} {calls : List Call} {call : Call}

theorem firstSince_clear : firstSince old name version (calls ++ [.clear]) = none := by
  simp [firstSince, Call.isClear]

theorem firstSince_concat (h : call.isClear = false) :
    firstSince old name version (calls ++ [call]) =
      (firstSince old name version calls).or (call.given? name version) := by
  have hany : (calls ++ [call]).any Call.isClear = calls.any Call.isClear := by
    rw [List.any_append, List.any_cons, List.any_nil, h, Bool.or_false, Bool.or_false]
  have hsince : (calls ++ [call]).rtakeWhile (fun call ↦ !call.isClear) =
      calls.rtakeWhile (fun call ↦ !call.isClear) ++ [call] := by
    rw [List.rtakeWhile_concat, if_pos (by rw [h]; rfl)]
  rw [firstSince, firstSince, hany, hsince, List.findSome?_append, List.findSome?_singleton,
    Option.or_assoc]

theorem entry_nil (s : Store) (f : Files) (name version : String) :
    s.entry f [] name version = s.kept? f name version := by
  have hkept : firstSince (s.kept? f name version) name version [] = s.kept? f name version :=
    Option.or_none
  rw [entry, hkept, kept?, pathOf_eq]
  cases isPlainName name <;> cases isPlainName version <;> rfl

theorem entry_clear : s.entry f (calls ++ [.clear]) name version = none := by
  rw [entry, firstSince_clear, ite_self]

theorem entry_concat (h : call.isClear = false) : s.entry f (calls ++ [call]) name version =
    (s.entry f calls name version).or (if isPlainName name && isPlainName version then
      call.given? name version else none) := by
  rw [entry, entry, firstSince_concat h]
  split <;> rfl

/-- A call that stores nothing under a version and does not clear leaves its entry as it is. -/
theorem entry_concat_of_given? (h : call.isClear = false)
    (hgiven : call.given? name version = none) :
    s.entry f (calls ++ [call]) name version = s.entry f calls name version := by
  rw [entry_concat h, hgiven, ite_self, Option.or_none]

theorem entry_store (hpath : s.pathOf name version = .ok path) (name' version' : String) :
    s.entry f (calls ++ [.store name version data]) name' version' =
      if name' = name ∧ version' = version then some ((s.entry f calls name version).getD data)
      else s.entry f calls name' version' := by
  by_cases hsame : name' = name ∧ version' = version
  · obtain ⟨rfl, rfl⟩ := hsame
    have hplain := (s.addresses.accepted name' version').mp ⟨path, hpath⟩
    rw [← isPlainName_iff, ← isPlainName_iff] at hplain
    have hgiven : Call.given? name' version' (.store name' version' data) = some data :=
      if_pos ⟨rfl, rfl⟩
    rw [entry_concat rfl, hgiven, hplain.1, hplain.2, if_pos (And.intro rfl rfl)]
    cases s.entry f calls name' version' <;> rfl
  · rw [if_neg hsame, entry_concat_of_given? rfl]
    exact if_neg fun h ↦ hsame ⟨h.1.symm, h.2.symm⟩

theorem entry_store_of_error {fault : Fault} (hpath : s.pathOf name version = .error fault)
    (name' version' : String) :
    s.entry f (calls ++ [.store name version data]) name' version' =
      s.entry f calls name' version' := by
  rw [entry_concat rfl, Call.given?]
  split
  · next hplain =>
    split
    · next hsame =>
      obtain ⟨rfl, rfl⟩ := hsame
      rw [Bool.and_eq_true] at hplain
      rw [pathOf_eq, if_pos hplain.1, if_pos hplain.2] at hpath
      cases hpath
    · exact Option.or_none
  · exact Option.or_none

/-! ## One call -/

/-- An archive that is put into the store is kept unless there was one, and nothing else changes. -/
theorem put_exactly {next : World} {result : Except Fault String} (hopened : s.Opened w.files)
    (hpath : s.pathOf name version = .ok path)
    (hrun : (s.put name version data).runIn w = (result, next))
    (hresult : isStopped result = false) :
    result = .ok path ∧ s.Opened next.files ∧ ∀ name' version',
      s.kept? next.files name' version' =
        if name' = name ∧ version' = version then some ((s.kept? w.files name version).getD data)
        else s.kept? w.files name' version' := by
  rw [runIn_put hpath] at hrun
  cases hfile : w.files.isFile path with
  | true =>
    rw [if_pos hfile] at hrun
    cases hrun
    obtain ⟨old, hread⟩ := Files.isFile_iff.mp hfile
    refine ⟨rfl, hopened, fun name' version' ↦ ?_⟩
    split
    · next hsame =>
      obtain ⟨rfl, rfl⟩ := hsame
      rw [kept?_of_pathOf hpath, hread]
      rfl
    · rfl
  | false =>
    rw [if_neg (Bool.eq_false_iff.mp hfile)] at hrun
    rw [isFile_eq_false_iff hpath] at hfile
    simp only [Action.runIn_bind, Action.runIn_makeDirectories, Action.runIn_write] at hrun
    have hwidens := Files.widens_makeDirectories w.files (Path.join s.root name)
    cases hmade : w.files.makeDirectories (Path.join s.root name) with
    | mk made f =>
      rw [hmade] at hrun hwidens
      cases made with
      | error refusal =>
        cases hrun
        cases hresult
      | ok _ =>
        simp only [Except.mapError] at hrun
        cases hwritten : f.write path data with
        | error refusal =>
          rw [hwritten] at hrun
          cases hrun
          cases hresult
        | ok g =>
          rw [hwritten] at hrun
          cases hrun
          obtain ⟨hafter, hkept⟩ := kept?_of_write (hopened.widens hwidens) hpath hwritten
          refine ⟨rfl, hafter, fun name' version' ↦ ?_⟩
          rw [hkept, hfile, kept?_of_widens hopened hwidens]
          rfl

/-- A store that has been cleared is there, and nothing is kept in it. -/
theorem clear_exactly {next : World} {result : Except Fault Unit} (hopened : s.Opened w.files)
    (hrun : s.clear.runIn w = (result, next)) (hresult : isStopped result = false) :
    result = .ok () ∧ s.Opened next.files ∧
      ∀ name version, s.kept? next.files name version = none := by
  have hclear : s.clear.runIn w =
      (Action.orFault s!"Failed to remove {s.root}" (w.files.removeTree s.root) >>=
        Action.setFiles >>= fun _ ↦
          Action.makeDirectories s!"Failed to recreate {s.root}" s.root).runIn w := by
    change ((if w.files.exists? s.root = true then _ else _ : Action Unit).runIn w) = _
    rw [if_pos (Files.exists?_of_isDirectory hopened.directory), bind_assoc]
    rfl
  obtain ⟨root, hroot, -⟩ := hopened.exists_root
  rw [hclear] at hrun
  cases hremoved : w.files.removeTree s.root with
  | error refusal =>
    rw [hremoved] at hrun
    cases hrun
    cases hresult
  | ok f =>
    have hstart : (Action.orFault s!"Failed to remove {s.root}" (.ok f) >>=
        Action.setFiles).runIn w = (.ok (), { w with files := f }) := rfl
    rw [hremoved, Action.runIn_bind, hstart] at hrun
    simp only [Action.runIn_makeDirectories] at hrun
    have hwidens := Files.widens_makeDirectories f s.root
    cases hmade : f.makeDirectories s.root with
    | mk made g =>
      rw [hmade] at hrun hwidens
      cases made with
      | error refusal =>
        cases hrun
        cases hresult
      | ok _ =>
        cases hrun
        obtain ⟨place, -, -, hf⟩ := Files.removeTree_eq_ok_iff.mp hremoved
        have hafter : s.Opened g :=
          ⟨hwidens.rooted (hf ▸ hopened.rooted.erase place),
            Files.isDirectory_of_makeDirectories (Files.isEmpty_of_locate hroot) hmade⟩
        refine ⟨rfl, hafter, fun name version ↦ Option.eq_none_iff_forall_ne_some.mpr ?_⟩
        intro data hdata
        obtain ⟨path, hpath, hread⟩ := kept?_eq_some_iff.mp hdata
        obtain ⟨last, hlast, hentry⟩ := Files.find_eq_ok_iff.mp (Files.read_eq_ok_iff.mp hread)
        obtain ⟨there, hthere, -⟩ := hafter.exists_root
        obtain ⟨rfl, -, -⟩ := locate_archive hthere hpath hlast
        rw [List.append_assoc] at hentry
        exact Files.not_file_of_removeTree hremoved hmade hthere hentry

theorem holds_eq (s : Store) (f : Files) (name version : String) :
    s.holds f name version = (s.kept? f name version).isSome := by
  rw [holds]
  cases hpath : s.pathOf name version with
  | error fault =>
    rw [kept?, hpath]
    rfl
  | ok path =>
    rw [kept?_of_pathOf hpath, Bool.eq_iff_iff, Option.isSome_iff_exists]
    simp only [Files.isFile_iff, toOption_eq_some_iff]

/-! ## Any calls -/

/-- The store is there, and of every version the entry is kept that the calls tell. -/
structure Holding (s : Store) (f : Files) (w : World) (calls : List Call) : Prop where
  opened : s.Opened w.files
  kept : ∀ name version, s.kept? w.files name version = s.entry f calls name version

theorem simulates_respond (s : Store) (f : Files) :
    Simulates s.respond (recalling (s.expected f)) (s.Holding f) := by
  intro call w before h hresult
  have hunchanged (call : Call) (hclear : call.isClear = false)
      (hgiven : ∀ name version, call.given? name version = none) :
      s.Holding f w (before ++ [call]) := ⟨h.opened, fun name version ↦
    (h.kept name version).trans (entry_concat_of_given? hclear (hgiven name version)).symm⟩
  cases call with
  | store name version data =>
    rw [respond, Action.runIn_map] at hresult ⊢
    cases hpath : s.pathOf name version with
    | error fault =>
      have hrun : (s.put name version data).runIn w = (.error fault, w) := by
        rw [put, hpath]
        rfl
      rw [hrun, recalling, expected, hpath]
      exact ⟨rfl, h.opened, fun name' version' ↦
        (h.kept name' version').trans (entry_store_of_error hpath name' version').symm⟩
    | ok path =>
      rw [Sequence.isStopped_map] at hresult
      obtain ⟨hmade, hopened, hkept⟩ := put_exactly h.opened hpath rfl hresult
      rw [recalling, expected, hpath]
      refine ⟨congrArg (Except.map Answer.path) hmade, hopened, fun name' version' ↦ ?_⟩
      rw [entry_store hpath, ← h.kept, ← h.kept]
      exact hkept name' version'
  | has name version =>
    have hrun : s.respond (.has name version) w =
      (.ok (.known (s.holds w.files name version)), w) := rfl
    rw [hrun, recalling, expected, holds_eq, h.kept]
    exact ⟨rfl, hunchanged _ rfl fun _ _ ↦ rfl⟩
  | read name version =>
    rw [respond, Action.runIn_map, runIn_get?, recalling, expected, h.kept]
    exact ⟨rfl, hunchanged _ rfl fun _ _ ↦ rfl⟩
  | clear =>
    rw [respond, Action.runIn_map] at hresult ⊢
    rw [Sequence.isStopped_map] at hresult
    obtain ⟨hmade, hopened, hnothing⟩ := clear_exactly h.opened rfl hresult
    exact ⟨congrArg (Except.map fun _ ↦ Answer.cleared) hmade, hopened, fun name version ↦
      (hnothing name version).trans entry_clear.symm⟩

/-- What is known of calls that are made one after the other. -/
structure WriteOnce (s : Store) (w : World) (calls : List Call) : Prop where
  answered : ∀ n, (answers s.respond w calls)[n]? =
    calls[n]?.map (s.expected w.files (calls.take n))
  kept : ∀ name version, s.kept? (after s.respond w calls).files name version =
    s.entry w.files calls name version
  /-- Calls that store nothing under a version and do not clear leave its archive alone. -/
  isolated : ∀ before call behind name version, calls = before ++ call :: behind →
    call.isClear = false → call.given? name version = none →
    s.kept? (after s.respond w (before ++ [call])).files name version =
      s.kept? (after s.respond w before).files name version

/-- An opened store is a map that is written once: paths are given for single components only and
are distinct, two components behind that of the store; of every version the bytes of the first call
to keep it since the last call to clear are found, and calls for other versions do not matter. -/
theorem write_once (h : s.Opened w.files) (calls : List Call)
    (hcalls : Succeeds s.respond w calls) : s.Addresses ∧ s.WriteOnce w calls := by
  have hrun {calls : List Call} (hcalls : Succeeds s.respond w calls) :
      answers s.respond w calls = answers (recalling (s.expected w.files)) [] calls ∧
        s.Holding w.files (after s.respond w calls) calls := by
    have hstart : s.Holding w.files w [] :=
      ⟨h, fun name version ↦ (entry_nil s _ name version).symm⟩
    have hboth := (simulates_respond s w.files).run hstart hcalls
    rwa [Sequence.after_recalling] at hboth
  refine ⟨s.addresses, fun n ↦ ?_, (hrun hcalls).2.kept, ?_⟩
  · rw [(hrun hcalls).1]
    exact Sequence.getElem?_answers_recalling _ [] calls n
  · rintro before call behind name version rfl hclear hgiven
    rw [List.append_cons] at hcalls
    have hcalls := hcalls.of_append
    rw [(hrun hcalls).2.kept, (hrun hcalls.of_append).2.kept, entry_concat_of_given? hclear hgiven]

/-- A version is stored twice and, after the store has been cleared, once more. -/
def rewriting : List Call :=
  [.store "stats" "1.0.0" "first".toUTF8, .store "stats" "1.0.0" "second".toUTF8,
    .store "stats" ".." "third".toUTF8, .read "stats" "1.0.0", .store "text" "1.0.0" "else".toUTF8,
    .clear, .has "stats" "1.0.0", .store "stats" "1.0.0" "third".toUTF8, .read "stats" "1.0.0"]

theorem write_once_rewriting : cacheStore.Opened freshWorld.files ∧
    Succeeds cacheStore.respond freshWorld rewriting ∧ cacheStore.Addresses ∧
      cacheStore.WriteOnce freshWorld rewriting := by
  have hcalls : Succeeds cacheStore.respond freshWorld rewriting := by decide +kernel
  exact ⟨opened_freshWorld, hcalls, write_once opened_freshWorld rewriting hcalls⟩

end SheetPackages.Archive.Store
