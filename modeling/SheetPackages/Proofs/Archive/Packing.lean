import Mathlib.Algebra.Order.BigOperators.Group.List
import Mathlib.Algebra.Order.Group.Nat
import SheetPackages.Proofs.Archive.Containers
import SheetPackages.Proofs.Json.Values
import SheetPackages.Proofs.Plan.Unpacking

/-!
# Packed functions

An archive keeps the functions of a package with the documentation of exactly their arguments: the
one that is given or else the one that stands for none. Whoever reads the archive finds the same
functions in the same order, and packing them again changes nothing more. That a container gives
back its files, and that the manifest is read as it was, is assumed here; the texts of the functions
and of the lockfile are known to be read back.
-/

namespace SheetPackages

namespace Archive

open Json (ReadsBack)

variable {f : Function}

/-! ## Documented arguments -/

theorem entries_documented (h : f.arguments.Nodup) :
    (documented f).entries = f.arguments.map fun a ↦ (a, f.argumentInfo a) := by
  refine OrderedMap.entries_ofList ?_
  simpa [List.map_map, Function.comp_def] using h

theorem keys_documented (h : f.arguments.Nodup) : (documented f).keys = f.arguments := by
  rw [OrderedMap.keys, entries_documented h]
  simp [List.map_map, Function.comp_def]

theorem get?_documented (h : f.arguments.Nodup) {argument : String} (ha : argument ∈ f.arguments) :
    (documented f).get? argument = some (f.argumentInfo argument) := by
  rw [OrderedMap.get?_eq_some_iff, entries_documented h]
  exact List.mem_map_of_mem ha

/-- A function as an archive keeps it. -/
def kept (f : Function) : Function :=
  { f with arguments := (documented f).keys, info := documented f }

/-- Where every argument is documented and nothing else is, there is nothing to add. -/
theorem documented_kept (f : Function) : documented (kept f) = documented f := by
  have hdistinct : (kept f).arguments.Nodup := (documented f).nodup
  apply OrderedMap.ext
  calc
    (documented (kept f)).entries =
        (documented f).keys.map fun a ↦ (a, ((documented f).get? a).getD {}) :=
      entries_documented hdistinct
    _ = (documented f).entries := by
      rw [OrderedMap.keys, List.map_map]
      refine (List.map_congr_left fun entry hentry ↦ ?_).trans (List.map_id _)
      rw [Function.comp_apply, OrderedMap.get?_eq_some_iff.mpr hentry]
      rfl

theorem kept_kept (f : Function) : kept (kept f) = kept f := by
  rw [kept, documented_kept]
  rfl

/-! ## Texts -/

theorem readsBack_infoJson (info : OrderedMap ArgumentInfo) :
    ReadsBack (Function.infoJson info) argumentsOf? (info.keys, info) := by
  obtain ⟨d, hd, hread⟩ := Function.readsBack_infoJson info
  refine ⟨d, hd, ?_⟩
  have hvalue : (d.value? argumentsDepth).isSome = true := by
    obtain ⟨ds, hds, rfl⟩ := Option.map_eq_some_iff.mp hd
    have hmembers : (Json.Document.memberValues? 124 ds).isSome = true := by
      refine Json.isSome_memberValues? hds fun member hmember d hd ↦ ?_
      obtain ⟨entry, _, rfl⟩ := List.mem_map.mp hmember
      cases hd
      rfl
    exact Option.isSome_map.trans hmembers
  obtain ⟨value, hvalue⟩ := Option.isSome_iff_exists.mp hvalue
  unfold argumentsOf?
  rw [hvalue, hread]
  rfl

theorem readsBack_functionJson (f : Function) :
    ReadsBack (functionJson f) bodyOf? ((kept f).renamed "") := by
  obtain ⟨description, hdescription, hreadDescription⟩ := Json.readsBack_ofText? f.description
  obtain ⟨arguments, harguments, hreadArguments⟩ := readsBack_infoJson (documented f)
  have hfields : List.Forall₂ (fun member d ↦ Json.document? member.2 = some d)
      [("definition", Json.text f.definition), ("description", .ofText? f.description),
        ("arguments", Function.infoJson (documented f))]
      [.text (some f.definition), description, arguments] :=
    .cons rfl (.cons hdescription (.cons harguments .nil))
  obtain ⟨d, hd, hrecord⟩ := Json.exists_record hfields (by simp) fun _ h ↦ h
  refine ⟨d, hd, ?_⟩
  simp only [List.map_cons, List.map_nil, List.zip_cons_cons, List.zip_nil_right] at hrecord
  unfold bodyOf?
  rw [hrecord]
  simp [Json.Document.required, Json.Document.withDefault, List.lookup_cons, Json.Document.string?,
    hreadDescription, hreadArguments, kept, Function.renamed]

theorem readsBack_functionsJson (functions : FunctionMap) :
    ReadsBack (functionsJson functions) functionsOf?
      (functions.map fun name f ↦ (kept f).renamed name) := by
  obtain ⟨d, hd, hread⟩ : ReadsBack (functionsJson functions) (Json.Document.mapOf? bodyOf?)
      (functions.map fun _ f ↦ (kept f).renamed "") :=
    Json.readsBack_map fun f _ ↦ readsBack_functionJson f
  refine ⟨d, hd, ?_⟩
  rw [functionsOf?, hread]
  exact congrArg some (OrderedMap.ext (List.map_map ..))

/-! ## Files -/

/-- The files of an archive with their contents. -/
def written (project : Project) (functions : FunctionMap) (lockfile : Option Lockfile) :
    List (String × ByteArray) :=
  (files project functions lockfile).map fun (name, json) ↦ (name, json.pretty.toUTF8)

/-- The bytes of an archive whose files are deflated in a given way; `bytes` is the case of
`Deflate.deflate`. -/
def bytesWith (deflate : ByteArray → ByteArray) (project : Project) (functions : FunctionMap)
    (lockfile : Option Lockfile) : ByteArray :=
  Zip.writeWith deflate (written project functions lockfile)

theorem bytes_eq_bytesWith : bytes = bytesWith Deflate.deflate := by
  funext project functions lockfile
  exact Zip.write_eq_writeWith _

/-- The manifest is read as the project for which it was written. -/
def IsReadBack (p : Project) : Prop :=
  (Json.Document.ofBytes p.toJson.pretty.toUTF8).bind Project.ofDocument? = some p

theorem isReadBack_of_extra {p : Project} (h : p.extra = .empty) : IsReadBack p :=
  (Project.readsBack h).bind_ofBytes

theorem entry_eq {data : ByteArray} {zip : Zip} {name : String} {content : Option ByteArray}
    (h : (zip.find? name).map (Zip.content? data) = content.map some) (label : String) :
    entry data zip label name = .ok content := by
  unfold entry
  cases hfind : zip.find? name with
  | none =>
    rw [hfind] at h
    cases content with
    | none => rfl
    | some content => cases h
  | some e =>
    rw [hfind] at h
    cases content with
    | none => cases h
    | some content =>
      rw [Option.map_some, Option.map_some, Option.some.injEq] at h
      simp only [h]
      rfl

theorem readEntry_eq {α : Type} {read : Json.Document → Option α} {content : ByteArray} {a : α}
    (h : (Json.Document.ofBytes content).bind read = some a) (label name : String) :
    readEntry read content label name = .ok a := by
  rw [readEntry, h]
  rfl

variable {data : ByteArray} {project : Project} {functions : FunctionMap}
  {lockfile : Option Lockfile}

theorem requiredEntry_eq {α : Type} {read : Json.Document → Option α} {zip : Zip} {name : String}
    {content : ByteArray} {a : α}
    (hfile : (zip.find? name).map (Zip.content? data) = some (some content))
    (h : (Json.Document.ofBytes content).bind read = some a) (label : String) :
    requiredEntry read data zip label name = .ok a := by
  have hentry : entry data zip label name = .ok (some content) := entry_eq hfile label
  rw [requiredEntry, hentry]
  exact readEntry_eq h label name

theorem lookup_written (project : Project) (functions : FunctionMap)
    (lockfile : Option Lockfile) :
    (written project functions lockfile).lookup projectEntry = some project.toJson.pretty.toUTF8 ∧
      (written project functions lockfile).lookup functionsEntry =
        some (functionsJson functions).pretty.toUTF8 ∧
      (written project functions lockfile).lookup lockEntry =
        lockfile.map fun l ↦ l.toJson.pretty.toUTF8 := by
  cases lockfile with
  | none => exact ⟨rfl, rfl, rfl⟩
  | some l => exact ⟨rfl, rfl, rfl⟩

/-- What is read from a container with the files of an archive. -/
theorem ofBytes_of_holds (hcontainer : Zip.Holds data (written project functions lockfile))
    (hproject : IsReadBack project) (label : String) :
    ofBytes data label = .ok
      { project
        lockfile := lockfile.getD {}
        functions := functions.map fun name f ↦ (kept f).renamed name
        integrity := Digest.integrity data } := by
  obtain ⟨zip, hzip, hfiles⟩ := hcontainer
  obtain ⟨hprojectFile, hfunctionsFile, hlockFile⟩ := lookup_written project functions lockfile
  have hprojectRead : requiredEntry Project.ofDocument? data zip label projectEntry =
      .ok project :=
    requiredEntry_eq (by rw [hfiles, hprojectFile, Option.map_some]) hproject label
  have hfunctionsRead : requiredEntry functionsOf? data zip label functionsEntry =
      .ok (functions.map fun name f ↦ (kept f).renamed name) :=
    requiredEntry_eq (by rw [hfiles, hfunctionsFile, Option.map_some])
      (readsBack_functionsJson functions).bind_ofBytes label
  have hlockRead := entry_eq (hfiles lockEntry) label
  rw [hlockFile] at hlockRead
  unfold ofBytes
  simp only [hzip, hprojectRead, hfunctionsRead, hlockRead]
  cases lockfile with
  | none => rfl
  | some l =>
    have hread := readEntry_eq l.readsBack.bind_ofBytes label lockEntry
    simp only [bind, Except.bind, Option.map_some, hread]
    rfl

/-! ## Functions that are given back -/

/-- A function that is given back for another one: the same in all that it does and tells, and
documented for exactly its arguments. -/
structure KeptAs (f g : Function) : Prop where
  name : g.name = f.name
  definition : g.definition = f.definition
  description : g.description = f.description
  arguments : g.arguments = f.arguments
  info : ∀ argument ∈ f.arguments, g.argumentInfo argument = f.argumentInfo argument
  documented : g.info.keys = f.arguments
  fingerprint : g.fingerprint = f.fingerprint

theorem keptAs_kept (h : f.arguments.Nodup) : KeptAs f (kept f) where
  name := rfl
  definition := rfl
  description := rfl
  arguments := keys_documented h
  info argument ha := by
    rw [Function.argumentInfo, kept, get?_documented h ha]
    rfl
  documented := keys_documented h
  fingerprint := Function.fingerprint_eq_of_sameBody ⟨rfl, keys_documented h, rfl⟩

/-- Functions that are given back for others, under the same names in the same order. -/
def Preserves (functions extracted : FunctionMap) : Prop :=
  List.Forall₂ (fun p q ↦ p.1 = q.1 ∧ KeptAs p.2 q.2) functions.entries extracted.entries

theorem preserves_map_kept (hkeyed : Keyed functions)
    (hdistinct : ∀ f ∈ functions.values, f.arguments.Nodup) :
    Preserves functions (functions.map fun name f ↦ (kept f).renamed name) := by
  rw [Preserves, OrderedMap.entries_map, List.forall₂_map_right_iff, List.forall₂_same]
  intro entry hentry
  refine ⟨rfl, ?_⟩
  have hname : (kept entry.2).renamed entry.1 = kept entry.2 := by
    rw [← hkeyed entry.1 entry.2 (OrderedMap.get?_eq_some_iff.mpr hentry)]
    rfl
  rw [hname]
  exact keptAs_kept (hdistinct _ (List.mem_map_of_mem hentry))

/-- What has been kept once is kept as it is. -/
theorem map_kept_map_kept (functions : FunctionMap) :
    ((functions.map fun name f ↦ (kept f).renamed name).map fun name f ↦
      (kept f).renamed name) = functions.map fun name f ↦ (kept f).renamed name := by
  apply OrderedMap.ext
  rw [OrderedMap.entries_map, OrderedMap.entries_map, List.map_map]
  refine List.map_congr_left fun entry _ ↦ Prod.ext rfl ?_
  have hrenamed : kept ((kept entry.2).renamed entry.1) = (kept (kept entry.2)).renamed entry.1 :=
    rfl
  rw [Function.comp_apply, hrenamed, kept_kept]
  rfl

/-- Functions that stand under their own names and whose arguments are distinct come out of an
archive as they were packed, and as they are from every archive in which they are packed again.
Containers are to give back what was written into them, and the manifests are to be read as they
were. -/
theorem functions_preserved (deflate : ByteArray → ByteArray) (hkeyed : Keyed functions)
    (hdistinct : ∀ f ∈ functions.values, f.arguments.Nodup)
    (hcontainer : Zip.Holds (bytesWith deflate project functions lockfile)
      (written project functions lockfile))
    (hproject : IsReadBack project) (label : String) :
    ∃ a, ofBytes (bytesWith deflate project functions lockfile) label = .ok a ∧
      a.project = project ∧ a.lockfile = lockfile.getD {} ∧ Preserves functions a.functions ∧
      ∀ project' lockfile' label',
        Zip.Holds (bytesWith deflate project' a.functions lockfile')
          (written project' a.functions lockfile') → IsReadBack project' →
        ∃ b, ofBytes (bytesWith deflate project' a.functions lockfile') label' = .ok b ∧
          b.functions = a.functions := by
  refine ⟨_, ofBytes_of_holds hcontainer hproject label, rfl, rfl,
    preserves_map_kept hkeyed hdistinct, ?_⟩
  intro project' lockfile' label' hagain hproject'
  exact ⟨_, ofBytes_of_holds hagain hproject' label', map_kept_map_kept functions⟩

/-! ## Archives without compression -/

theorem names_written (project : Project) (functions : FunctionMap) (lockfile : Option Lockfile) :
    ((written project functions lockfile).map Prod.fst).Sublist
      [projectEntry, lockEntry, functionsEntry] := by
  cases lockfile with
  | none => exact .cons_cons _ (.cons _ (.refl _))
  | some l => exact .refl _

/-- The container of an archive whose files are small and not compressed gives them back. -/
theorem holds_plain (project : Project) (functions : FunctionMap) (lockfile : Option Lockfile)
    (hsmall : ∀ file ∈ written project functions lockfile, file.2.size < 2 ^ 16) :
    Zip.Holds (bytesWith Zip.plain project functions lockfile)
      (written project functions lockfile) := by
  have hsublist := names_written project functions lockfile
  have hnames : ∀ file ∈ written project functions lockfile, file.1.toUTF8.size ≤ 18 := by
    have hall : ∀ name ∈ [projectEntry, lockEntry, functionsEntry], name.toUTF8.size ≤ 18 := by
      decide
    exact fun file hfile ↦ hall _ (hsublist.subset (List.mem_map_of_mem hfile))
  have hcount : (written project functions lockfile).length ≤ 3 := by
    simpa using hsublist.length_le
  have hsize : (bytesWith Zip.plain project functions lockfile).size ≤ 3 * 2 ^ 17 + 22 := by
    have hsum := List.sum_le_card_nsmul ((written project functions lockfile).map fun file ↦
      81 + 2 * file.1.toUTF8.size + file.2.size) (2 ^ 17) (by
        rw [List.forall_mem_map]
        intro file hfile
        have hname := hnames file hfile
        have hcontent := hsmall file hfile
        omega)
    rw [List.length_map, Nat.nsmul_eq_mul] at hsum
    rw [bytesWith, Zip.size_writeWith_plain]
    omega
  refine Zip.holds_writeWith (List.cons_ne_nil _ _) (hsublist.nodup (by decide))
    (fun file hfile ↦ Nat.lt_of_le_of_lt (hnames file hfile) (by decide)) (by omega)
    (Nat.lt_of_le_of_lt hsize (by decide)) fun file hfile ↦ Zip.inflate?_plain (hsmall file hfile)

/-- A package of one function with two arguments, of which one is documented, and with the
documentation of a third one. -/
def tints : FunctionMap :=
  .ofList [("TINT", {
    name := "TINT"
    definition := "=LAMBDA(x,k,x*k)"
    arguments := ["x", "k"]
    info := .ofList [("y", { description := "left over" }), ("k", { description := "factor" })] })]

def baseLock : Lockfile :=
  ⟨.ofList [("base", { version := "1.0.0", functions := ["BASE"] })]⟩

/-- The arguments come back in their order, each with its documentation, and nothing else. -/
theorem functions_preserved_tints : ∃ a,
    ofBytes (bytesWith Zip.plain {} tints (some baseLock)) "tints.gspkg" = .ok a ∧
      Preserves tints a.functions ∧
      (a.functions.get? "TINT").map (·.info.entries) =
        some [("x", {}), ("k", { description := "factor" })] ∧
      ∃ b, ofBytes (bytesWith Zip.plain {} a.functions none) "again.gspkg" = .ok b ∧
        b.functions = a.functions := by
  have hkeyed : Keyed tints := by
    intro name f hf
    have hmem := OrderedMap.get?_eq_some_iff.mp hf
    have hentries : tints.entries.all fun entry ↦ entry.2.name == entry.1 := by decide +kernel
    exact beq_iff_eq.mp (List.all_eq_true.mp hentries (name, f) hmem)
  have hsmall : ∀ file ∈ written {} tints (some baseLock), file.2.size < 2 ^ 16 := by
    decide +kernel
  have hcontainer := holds_plain {} tints (some baseLock) hsmall
  have hproject : IsReadBack {} := isReadBack_of_extra rfl
  obtain ⟨a, ha, -, -, hpreserves, hagain⟩ :=
    functions_preserved Zip.plain hkeyed (by decide) hcontainer hproject "tints.gspkg"
  have hfunctions : a.functions = tints.map fun name f ↦ (kept f).renamed name := by
    have hread := ofBytes_of_holds hcontainer hproject "tints.gspkg"
    exact congrArg functions (Except.ok.inj (ha.symm.trans hread))
  refine ⟨a, ha, hpreserves, ?_, hagain {} none "again.gspkg" ?_ hproject⟩
  · rw [hfunctions]
    decide +kernel
  · rw [hfunctions]
    exact holds_plain _ _ _ (by decide +kernel)

end Archive

end SheetPackages
