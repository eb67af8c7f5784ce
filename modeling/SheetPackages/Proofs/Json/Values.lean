import SheetPackages.Lockfile.Basic
import SheetPackages.Project
import SheetPackages.Proofs.Json.Reading

/-!
# Values that are read back

What is written is read back as what it was: texts and lists of texts, maps with their order, and
records, whose fields are found by their names. Projects are treated here without further keys, as
the values of those may hold numbers.
-/

namespace SheetPackages

namespace Json

open Document

variable {α β : Type}

/-- The document of a written value is read as `a`. -/
def ReadsBack (j : Json) (read : Document → Option α) (a : α) : Prop :=
  ∃ d, document? j = some d ∧ read d = some a

theorem ReadsBack.bind_ofBytes {j : Json} {read : Document → Option α} {a : α}
    (h : ReadsBack j read a) : (Document.ofBytes j.pretty.toUTF8).bind read = some a := by
  obtain ⟨d, hd, hread⟩ := h
  rw [ofBytes_pretty hd, Option.bind_some, hread]

theorem readsBack_text (s : String) : ReadsBack (.text s) string? s :=
  ⟨_, rfl, rfl⟩

theorem readsBack_ofText? (s : Option String) : ReadsBack (.ofText? s) optionalString? s := by
  cases s with
  | none => exact ⟨_, rfl, rfl⟩
  | some s => exact ⟨_, rfl, rfl⟩

theorem readsBack_texts (items : List String) : ReadsBack (texts items) strings? items := by
  have hitems : ∃ ds, itemDocuments? (items.map .text) = some ds ∧
      ds.mapM string? = some items := by
    induction items with
    | nil => exact ⟨[], rfl, rfl⟩
    | cons first rest ih =>
      obtain ⟨ds, hds, hread⟩ := ih
      refine ⟨.text (some first) :: ds, ?_, ?_⟩
      · rw [List.map_cons, itemDocuments?, document?, hds]
        rfl
      · rw [List.mapM_cons, hread]
        rfl
  obtain ⟨ds, hds, hread⟩ := hitems
  exact ⟨.list ds, by rw [texts, document?, hds, Option.map_some], hread⟩

theorem exists_members {write : α → Json} {item : Document → Option β} {g : α → β}
    {entries : List (String × α)}
    (h : ∀ value ∈ entries.map Prod.snd, ReadsBack (write value) item (g value)) :
    ∃ ds, memberDocuments? (entries.map fun entry ↦ (entry.1, write entry.2)) = some ds ∧
      ds.mapM (fun (key, value) ↦ do return (← key, ← item value)) =
        some (entries.map fun entry ↦ (entry.1, g entry.2)) := by
  induction entries with
  | nil => exact ⟨[], rfl, rfl⟩
  | cons entry rest ih =>
    obtain ⟨⟨d, hd, hitem⟩, hmore⟩ := List.forall_mem_cons.mp h
    obtain ⟨ds, hds, hread⟩ := ih hmore
    refine ⟨(some entry.1, d) :: ds, ?_, ?_⟩
    · rw [List.map_cons, memberDocuments?, hd, hds]
      rfl
    · simp only [List.mapM_cons, hread, hitem]
      rfl

/-- The members of a map are read back in their order. -/
theorem readsBack_map {m : OrderedMap α} {write : α → Json} {item : Document → Option β}
    {g : α → β} (h : ∀ value ∈ m.values, ReadsBack (write value) item (g value)) :
    ReadsBack (.object (m.entries.map fun entry ↦ (entry.1, write entry.2))) (mapOf? item)
      (m.map fun _ value ↦ g value) := by
  obtain ⟨ds, hds, hread⟩ := exists_members h
  refine ⟨.object ds, by rw [document?, hds, Option.map_some], ?_⟩
  rw [mapOf?, hread]
  exact congrArg some (OrderedMap.ofList_entries (m.map fun _ value ↦ g value))

/-- Written members have values if they may nest deeply enough for each of them. -/
theorem isSome_memberValues? {depth : Nat} {members : List (String × Json)}
    {ds : List (Option String × Document)} (hds : memberDocuments? members = some ds)
    (h : ∀ member ∈ members, ∀ d, document? member.2 = some d → (value? depth d).isSome = true) :
    (memberValues? depth ds).isSome = true := by
  induction members generalizing ds with
  | nil =>
    cases hds
    rfl
  | cons member rest ih =>
    obtain ⟨key, value⟩ := member
    obtain ⟨d, hd, hds⟩ := Option.bind_eq_some_iff.mp hds
    obtain ⟨more, hmore, hds⟩ := Option.bind_eq_some_iff.mp hds
    cases hds
    obtain ⟨hvalue, hrest⟩ := List.forall_mem_cons.mp h
    obtain ⟨here, hhere⟩ := Option.isSome_iff_exists.mp (hvalue d hd)
    obtain ⟨values, hvalues⟩ := Option.isSome_iff_exists.mp (ih hmore hrest)
    rw [memberValues?, hhere, hvalues]
    rfl

/-! ## Records -/

theorem knownMembers_eq {names : List String} {fields : Fields}
    (hdistinct : (fields.map Prod.fst).Nodup) (hknown : ∀ field ∈ fields, field.1 ∈ names) :
    knownMembers names (fields.map fun field ↦ (some field.1, field.2)) = some fields := by
  induction fields with
  | nil => rfl
  | cons field rest ih =>
    obtain ⟨hnew, hdistinct⟩ := List.nodup_cons.mp hdistinct
    obtain ⟨hname, hknown⟩ := List.forall_mem_cons.mp hknown
    have hnone : rest.lookup field.1 = none :=
      Option.eq_none_iff_forall_ne_some.mpr fun _ h ↦ hnew (OrderedMap.mem_keys_of_lookup h)
    rw [List.map_cons, knownMembers, ih hdistinct hknown]
    simp [hname, hnone]

/-- A written record is an object with the fields under their names. -/
theorem document?_record {members : List (String × Json)} {ds : List Document}
    (h : List.Forall₂ (fun member d ↦ document? member.2 = some d) members ds) :
    document? (.object members) =
      some (.object (((members.map Prod.fst).zip ds).map fun field ↦ (some field.1, field.2))) := by
  have hmembers : memberDocuments? members =
      some (((members.map Prod.fst).zip ds).map fun field ↦ (some field.1, field.2)) := by
    induction h with
    | nil => rfl
    | cons hd _ ih =>
      rw [memberDocuments?, hd, ih]
      rfl
  rw [document?, hmembers, Option.map_some]

/-- The fields of a written record are found under their names. -/
theorem exists_record {names : List String} {members : List (String × Json)} {ds : List Document}
    (hds : List.Forall₂ (fun member d ↦ document? member.2 = some d) members ds)
    (hdistinct : (members.map Prod.fst).Nodup)
    (hknown : ∀ name ∈ members.map Prod.fst, name ∈ names) :
    ∃ d, document? (.object members) = some d ∧
      d.record? names = some ((members.map Prod.fst).zip ds) := by
  have hkeys : ((members.map Prod.fst).zip ds).map Prod.fst = members.map Prod.fst :=
    List.map_fst_zip (by rw [List.length_map, hds.length_eq])
  refine ⟨_, document?_record hds, knownMembers_eq (by rwa [hkeys]) fun field hfield ↦ ?_⟩
  exact hknown field.1 (hkeys ▸ List.mem_map_of_mem hfield)

end Json

theorem ArgumentInfo.readsBack (a : ArgumentInfo) : Json.ReadsBack a.toJson ofDocument? a :=
  ⟨.object [(some "description", .text (some a.description)),
    (some "example", .text (some a.example))], rfl, rfl⟩

theorem Function.readsBack_infoJson (info : OrderedMap ArgumentInfo) :
    Json.ReadsBack (infoJson info) (Json.Document.mapOf? ArgumentInfo.ofDocument?) info := by
  have hread : Json.ReadsBack (infoJson info) (Json.Document.mapOf? ArgumentInfo.ofDocument?)
      (info.map fun _ a ↦ a) := Json.readsBack_map fun a _ ↦ a.readsBack
  rwa [OrderedMap.map_eq_self fun _ _ ↦ rfl] at hread

theorem Function.readsBack (f : Function) : Json.ReadsBack f.toJson ofDocument? f := by
  obtain ⟨description, hdescription, hreadDescription⟩ := Json.readsBack_ofText? f.description
  obtain ⟨arguments, harguments, hreadArguments⟩ := Json.readsBack_texts f.arguments
  obtain ⟨info, hinfo, hreadInfo⟩ := readsBack_infoJson f.info
  have hfields : List.Forall₂ (fun member d ↦ Json.document? member.2 = some d)
      [("name", Json.text f.name), ("definition", .text f.definition),
        ("description", .ofText? f.description), ("arguments", Json.texts f.arguments),
        ("argument_metadata", infoJson f.info)]
      [.text (some f.name), .text (some f.definition), description, arguments, info] :=
    .cons rfl (.cons rfl (.cons hdescription (.cons harguments (.cons hinfo .nil))))
  obtain ⟨d, hd, hrecord⟩ := Json.exists_record hfields (by simp) fun _ h ↦ h
  refine ⟨d, hd, ?_⟩
  unfold ofDocument?
  simp only [List.map_cons, List.map_nil, List.zip_cons_cons, List.zip_nil_right] at hrecord
  rw [hrecord]
  simp [Json.Document.required, Json.Document.withDefault, List.lookup_cons, Json.Document.string?,
    hreadDescription, hreadArguments, hreadInfo]

theorem Locked.readsBack (l : Locked) : Json.ReadsBack l.toJson ofDocument? l := by
  obtain ⟨version, hversion, hreadVersion⟩ := Json.readsBack_text l.version
  obtain ⟨resolved, hresolved, hreadResolved⟩ := Json.readsBack_ofText? l.resolved
  obtain ⟨integrity, hintegrity, hreadIntegrity⟩ := Json.readsBack_ofText? l.integrity
  obtain ⟨dependencies, hdependencies, hreadDependencies⟩ := Json.readsBack_texts l.dependencies
  obtain ⟨functions, hfunctions, hreadFunctions⟩ := Json.readsBack_texts l.functions
  have hfields : List.Forall₂ (fun member d ↦ Json.document? member.2 = some d)
      [("version", Json.text l.version), ("resolved", .ofText? l.resolved),
        ("integrity", .ofText? l.integrity), ("dependencies", Json.texts l.dependencies),
        ("functions", Json.texts l.functions)]
      [version, resolved, integrity, dependencies, functions] :=
    .cons hversion (.cons hresolved (.cons hintegrity (.cons hdependencies
      (.cons hfunctions .nil))))
  obtain ⟨d, hd, hrecord⟩ := Json.exists_record hfields (by simp) fun _ h ↦ h
  refine ⟨d, hd, ?_⟩
  unfold ofDocument?
  simp only [List.map_cons, List.map_nil, List.zip_cons_cons, List.zip_nil_right] at hrecord
  rw [hrecord]
  simp [Json.Document.required, Json.Document.withDefault, List.lookup_cons, hreadVersion,
    hreadResolved, hreadIntegrity, hreadDependencies, hreadFunctions]

theorem Lockfile.readsBack (l : Lockfile) : Json.ReadsBack l.toJson ofDocument? l := by
  obtain ⟨packages, hpackages, hread⟩ : Json.ReadsBack
      (.object (l.packages.entries.map fun named ↦ (named.1, named.2.toJson)))
      (Json.Document.mapOf? Locked.ofDocument?) (l.packages.map fun _ entry ↦ entry) :=
    Json.readsBack_map fun entry _ ↦ entry.readsBack
  have hfields : List.Forall₂ (fun member d ↦ Json.document? member.2 = some d)
      [("packages", .object (l.packages.entries.map fun named ↦ (named.1, named.2.toJson)))]
      [packages] := .cons hpackages .nil
  obtain ⟨d, hd, hrecord⟩ := Json.exists_record hfields (by simp) fun _ h ↦ h
  refine ⟨d, hd, ?_⟩
  rw [OrderedMap.map_eq_self fun _ _ ↦ rfl] at hread
  simp only [List.map_cons, List.map_nil, List.zip_cons_cons, List.zip_nil_right] at hrecord
  unfold ofDocument?
  rw [hrecord]
  simp [Json.Document.withDefault, hread]

/-- A project without further keys is read back. -/
theorem Project.readsBack {p : Project} (h : p.extra = .empty) :
    Json.ReadsBack p.toJson ofDocument? p := by
  obtain ⟨dependencies, hdependencies, hread⟩ := Json.readsBack_texts p.dependencies
  have hfields : List.Forall₂ (fun member d ↦ Json.document? member.2 = some d)
      [("name", Json.text p.name), ("version", .text p.version),
        ("description", .text p.description), ("dependencies", Json.texts p.dependencies)]
      [.text (some p.name), .text (some p.version), .text (some p.description), dependencies] :=
    .cons rfl (.cons rfl (.cons rfl (.cons hdependencies .nil)))
  have hwritten : p.toJson = .object [("name", Json.text p.name), ("version", .text p.version),
      ("description", .text p.description), ("dependencies", Json.texts p.dependencies)] := by
    rw [toJson, h]
    rfl
  refine ⟨_, hwritten ▸ Json.document?_record hfields, ?_⟩
  have hextra : OrderedMap.ofList [] = p.extra := h.symm
  simp [ofDocument?, Json.Document.knownMembers, extraOf?, fieldNames, Json.Document.withDefault,
    List.lookup_cons, Json.Document.string?, hread, hextra]

end SheetPackages
