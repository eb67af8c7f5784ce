import SheetPackages.Proofs.Archive.Keeping
import SheetPackages.Proofs.Json.Values
import SheetPackages.Proofs.Plan.Unpacking
import SheetPackages.Proofs.World.Erasing
import SheetPackages.Proofs.World.Sequences
import SheetPackages.Workbook.File

/-!
# Workbooks in files and in memory

A workbook in a file is read before each change and written as a whole behind it; one in memory
keeps its functions. Whoever reads both, after whatever changes, is given the same functions in the
same order, each under its own name. So what changes make of functions in memory they make of those
in a file, too. No call may be stopped by the file system; that the text of the file is read back is
shown here.
-/

namespace SheetPackages

/-! ## Actions on files -/

namespace Action

variable {α β : Type} {t : Action α} {g : α → Action β}

/-- The action ends with no faults but those of the file system. -/
def StopsOnly (t : Action α) : Prop :=
  ∀ w fault, (t.runIn w).1 = .error fault → fault.isSystem = true

theorem StopsOnly.bind (ht : StopsOnly t) (hg : ∀ a, StopsOnly (g a)) :
    StopsOnly (t >>= g) := by
  intro w fault h
  rw [runIn_bind] at h
  cases hrun : t.runIn w with
  | mk result next =>
    rw [hrun] at h
    cases result with
    | error stopped =>
      cases h
      exact ht w fault (congrArg Prod.fst hrun)
    | ok a => exact hg a next fault h

theorem stopsOnly_makeDirectories (message path : String) :
    StopsOnly (makeDirectories message path) := by
  intro w fault h
  rw [runIn_makeDirectories] at h
  cases hmade : (w.files.makeDirectories path).1 with
  | error refusal =>
    rw [hmade] at h
    cases h
    rfl
  | ok _ =>
    rw [hmade] at h
    cases h

theorem stopsOnly_write (message path : String) (data : ByteArray) :
    StopsOnly (write message path data) := by
  intro w fault h
  rw [runIn_write] at h
  split at h
  · cases h
  · cases h
    rfl

theorem stopsOnly_move (message source target : String) :
    StopsOnly (move message source target) := by
  intro w fault h
  rw [runIn_move] at h
  split at h
  · cases h
  · cases h
    rfl

/-- What is written aside and then moved to a path is read there. -/
theorem read_of_write_move {message message' part path : String} {data : ByteArray}
    {w next : World}
    (h : (write message part data >>= fun _ ↦ move message' part path).runIn w = (.ok (), next)) :
    next.files.read path = .ok data := by
  obtain ⟨_, v, hwrite, hmove⟩ := exists_of_runIn_bind h
  rw [runIn_write] at hwrite
  rw [runIn_move] at hmove
  split at hwrite
  · next f hwritten =>
    cases hwrite
    split at hmove
    · next g hmoved =>
      cases hmove
      exact Files.read_of_move (Files.read_of_write hwritten) hmoved
    · cases hmove
  · cases hwrite

end Action

/-! ## Functions under their own names -/

theorem map_renamed_of_keyed {functions : FunctionMap} (h : Keyed functions) :
    (functions.map fun name f ↦ f.renamed name) = functions := by
  refine OrderedMap.ext ((List.map_congr_left fun (name, f) hentry ↦ ?_).trans (List.map_id _))
  obtain rfl : f.name = name := h name f (OrderedMap.get?_eq_some_iff.mpr hentry)
  rfl

theorem keyed_empty : Keyed .empty :=
  fun _ _ h ↦ nomatch h

namespace Workbook

open Sequence (Simulates Succeeds after answers)

/-- Changes keep functions under their own names. -/
theorem Change.keyed_apply {functions : FunctionMap} (h : Keyed functions) (c : Change) :
    Keyed (c.apply functions) := by
  have hinsert (g : Function) : Keyed (functions.insert g.name g) := by
    intro name f hf
    rw [OrderedMap.get?_insert] at hf
    split at hf
    · next hname =>
      cases hf
      exact hname.symm
    · exact h name f hf
  cases c with
  | create f => exact hinsert f
  | update f => exact hinsert f
  | delete deleted =>
    intro name f hf
    rw [apply, OrderedMap.get?_erase] at hf
    split at hf
    · cases hf
    · exact h name f hf

/-! ## The text of a file -/

namespace File

variable {file : File} {f : Files} {functions : FunctionMap} {w next : World}

/-- The functions that a file is written for are read back. -/
theorem functionsOf?_bytes (h : Keyed functions) :
    (Json.Document.ofBytes (bytes functions)).bind functionsOf? = some functions := by
  obtain ⟨written, hwritten, hread⟩ : Json.ReadsBack
      (.object (functions.entries.map fun named ↦ (named.1, named.2.toJson)))
      (Json.Document.mapOf? Function.ofDocument?) (functions.map fun _ f ↦ f) :=
    Json.readsBack_map fun f _ ↦ f.readsBack
  have hfields : List.Forall₂ (fun member d ↦ Json.document? member.2 = some d)
      [("functions", .object (functions.entries.map fun named ↦ (named.1, named.2.toJson)))]
      [written] := .cons hwritten .nil
  obtain ⟨d, hd, hrecord⟩ := Json.exists_record hfields (by simp) fun _ h ↦ h
  refine Json.ReadsBack.bind_ofBytes ⟨d, hd, ?_⟩
  rw [OrderedMap.map_eq_self fun _ _ ↦ rfl] at hread
  simp only [List.map_cons, List.map_nil, List.zip_cons_cons, List.zip_nil_right] at hrecord
  unfold functionsOf?
  rw [hrecord]
  simp [Json.Document.withDefault, hread, map_renamed_of_keyed h]

/-- What a file is read as. -/
def contents (file : File) (f : Files) : Except Fault FunctionMap :=
  match f.read file.path with
  | .ok data =>
    match (Json.Document.ofBytes data).bind functionsOf? with
    | some functions => .ok functions
    | none => .error (.malformedJson file.path Fault.unexplained)
  | .error .notFound => .ok .empty
  | .error _ => .error (.ofSystem s!"Failed to read workbook {file.path}")

theorem contents_of_bytes (hkeyed : Keyed functions)
    (h : f.read file.path = .ok (bytes functions)) : file.contents f = .ok functions := by
  simp only [contents, h, functionsOf?_bytes hkeyed]

theorem keyed_contents (h : file.contents f = .ok functions) : Keyed functions := by
  unfold contents at h
  split at h
  · split at h
    · next read hread =>
      cases h
      obtain ⟨d, -, hd⟩ := Option.bind_eq_some_iff.mp hread
      obtain ⟨fields, -, hd⟩ := Option.bind_eq_some_iff.mp hd
      obtain ⟨named, -, hd⟩ := Option.bind_eq_some_iff.mp hd
      cases hd
      exact keyed_map_renamed named
    · cases h
  · cases h
    exact keyed_empty
  · cases h

theorem runIn_functions (file : File) (w : World) :
    file.functions.runIn w = (file.contents w.files, w) := by
  rw [File.functions, Action.runIn_bind, Action.runIn_readIfPresent, contents]
  cases w.files.read file.path with
  | error refusal => cases refusal <;> rfl
  | ok data =>
    change ((match (Json.Document.ofBytes data).bind functionsOf? with
      | some functions => pure functions
      | none => throw (.malformedJson file.path Fault.unexplained) :
        Action FunctionMap).runIn w) = _
    simp only
    cases (Json.Document.ofBytes data).bind functionsOf? <;> rfl

/-! ## Replaced files -/

theorem stopsOnly_replace (file : File) (functions : FunctionMap) :
    Action.StopsOnly (file.replace functions) := by
  have hbehind (part : String) := (Action.stopsOnly_write s!"Failed to write {part}" part
    (bytes functions)).bind fun _ ↦
      Action.stopsOnly_move s!"Failed to replace workbook {file.path}" part file.path
  unfold replace
  split
  · exact hbehind _
  · exact hbehind _
  · exact (Action.stopsOnly_makeDirectories _ _).bind fun _ ↦ hbehind _

/-- A file that has been replaced is read as what it was replaced by. -/
theorem contents_of_replace (hkeyed : Keyed functions)
    (h : (file.replace functions).runIn w = (.ok (), next)) :
    file.contents next.files = .ok functions := by
  unfold replace at h
  split at h
  · exact contents_of_bytes hkeyed (Action.read_of_write_move h)
  · exact contents_of_bytes hkeyed (Action.read_of_write_move h)
  · obtain ⟨_, v, -, h⟩ := Action.exists_of_runIn_bind h
    exact contents_of_bytes hkeyed (Action.read_of_write_move h)

/-- A change of the file that is not stopped changes what it is read as. -/
theorem runIn_perform (h : file.contents w.files = .ok functions) (c : Change) :
    (file.perform c).runIn w = (file.replace (c.apply functions)).runIn w := by
  rw [perform, Action.runIn_bind, runIn_functions, h]

theorem contents_of_perform (h : file.contents w.files = .ok functions) {c : Change}
    (hrun : (file.perform c).runIn w = (.ok (), next)) :
    file.contents next.files = .ok (c.apply functions) := by
  rw [runIn_perform h] at hrun
  exact contents_of_replace (Change.keyed_apply (keyed_contents h) c) hrun

/-- Changes that are all performed leave what they make of the functions in memory. -/
theorem contents_of_performAll (h : file.contents w.files = .ok functions) {changes : List Change}
    (hrun : (file.performAll changes).runIn w = (.ok (), next)) :
    file.contents next.files = .ok (Change.applyAll functions changes) := by
  induction changes generalizing w functions with
  | nil =>
    cases hrun
    exact h
  | cons c rest ih =>
    obtain ⟨_, v, hfirst, hrest⟩ := Action.exists_of_runIn_bind hrun
    exact ih (contents_of_perform h hfirst) hrest

end File

/-! ## Calls -/

/-- What is asked of a workbook. -/
inductive Call where
  | read
  | change (c : Change)

/-- A call to read gives the functions, any other one nothing. -/
def File.respond (file : File) : Call → World → Except Fault (Option FunctionMap) × World
  | .read => (some <$> file.functions).runIn
  | .change c => ((fun _ ↦ none) <$> file.perform c).runIn

/-- A workbook in memory. -/
structure Memory where
  functions : FunctionMap
  /-- The changes that have been made, oldest one first. -/
  changes : List Change := []

namespace Memory

def perform (m : Memory) (c : Change) : Memory where
  functions := c.apply m.functions
  changes := m.changes ++ [c]

def respond : Call → Memory → Except Fault (Option FunctionMap) × Memory
  | .read, m => (.ok (some m.functions), m)
  | .change c, m => (.ok none, m.perform c)

theorem keyed_of_mem_answers {m : Memory} (h : Keyed m.functions) {calls : List Call}
    {read : FunctionMap} (hread : .ok (some read) ∈ answers respond m calls) : Keyed read := by
  induction calls generalizing m with
  | nil => cases hread
  | cons call rest ih =>
    rcases List.mem_cons.mp hread with hfirst | hlater
    · cases call with
      | read =>
        cases hfirst
        exact h
      | change c => cases hfirst
    · cases call with
      | read => exact ih h hlater
      | change c => exact ih (m := m.perform c) (c.keyed_apply h) hlater

end Memory

/-! ## Interchangeable workbooks -/

theorem simulates_respond (file : File) : Simulates file.respond Memory.respond
    fun w m ↦ file.contents w.files = .ok m.functions := by
  intro call w m h hresult
  cases call with
  | read =>
    rw [File.respond, Action.runIn_map, File.runIn_functions, h]
    exact ⟨rfl, h⟩
  | change c =>
    rw [File.respond, Action.runIn_map] at hresult ⊢
    rw [Sequence.isStopped_map] at hresult
    cases hrun : (file.perform c).runIn w with
    | mk result next =>
      rw [hrun] at hresult
      cases result with
      | ok _ => exact ⟨rfl, File.contents_of_perform h hrun⟩
      | error fault =>
        rw [File.runIn_perform h] at hrun
        have hsystem := file.stopsOnly_replace _ w fault (congrArg Prod.fst hrun)
        cases hresult.symm.trans hsystem

/-- What is known of a workbook in a file that is read as some functions, and of calls to it. -/
structure Interchangeable (file : File) (functions : FunctionMap) (w : World)
    (calls : List Call) : Prop where
  /-- Any file that is written for the functions is read as them. -/
  written : ∀ f : Files, f.read file.path = .ok (File.bytes functions) →
    file.contents f = .ok functions
  answered : answers file.respond w calls = answers Memory.respond ⟨functions, []⟩ calls
  keyed : ∀ read, .ok (some read) ∈ answers file.respond w calls → Keyed read
  left : file.contents (after file.respond w calls).files =
    .ok (after Memory.respond ⟨functions, []⟩ calls).functions
  /-- Changes that are performed one after the other, as for a plan, leave in the file what they
  make of the functions in memory. -/
  performed : ∀ changes next,
    (file.performAll changes).runIn (after file.respond w calls) = (.ok (), next) →
      file.contents next.files =
        .ok (Change.applyAll (after Memory.respond ⟨functions, []⟩ calls).functions changes)

/-- A workbook in a file and one in memory that begin with the same functions are interchangeable
for any calls: they give the same functions in the same order, each under its own name, whenever
they are read, and what changes make of those in memory they make of those in the file. -/
theorem interchangeable {file : File} {functions : FunctionMap} {w : World}
    (h : file.contents w.files = .ok functions) (calls : List Call)
    (hcalls : Succeeds file.respond w calls) : Interchangeable file functions w calls := by
  have hkeyed := File.keyed_contents h
  obtain ⟨hanswers, hafter⟩ := (simulates_respond file).run (t := ⟨functions, []⟩) h hcalls
  refine ⟨fun f ↦ File.contents_of_bytes hkeyed, hanswers, fun read hread ↦ ?_, hafter,
    fun changes next ↦ File.contents_of_performAll hafter⟩
  rw [hanswers] at hread
  exact Memory.keyed_of_mem_answers hkeyed hread

def bookFile : File :=
  ⟨"/work/book.json"⟩

/-- A function is created, replaced and deleted. -/
def editing : List Call :=
  [.read, .change (.create { name := "HALF", definition := "=1" }),
    .change (.update { name := "HALF", definition := "=0.5" }), .read,
    .change (.delete "HALF"), .read]

theorem interchangeable_editing :
    bookFile.contents (⟨{}, {}, ⟨0⟩⟩ : World).files = .ok .empty ∧
      Succeeds bookFile.respond ⟨{}, {}, ⟨0⟩⟩ editing ∧
      Interchangeable bookFile .empty ⟨{}, {}, ⟨0⟩⟩ editing := by
  have hstart : bookFile.contents (⟨{}, {}, ⟨0⟩⟩ : World).files = .ok .empty := rfl
  have hcalls : Succeeds bookFile.respond ⟨{}, {}, ⟨0⟩⟩ editing := by decide +kernel
  exact ⟨hstart, hcalls, interchangeable hstart editing hcalls⟩

end Workbook

end SheetPackages
