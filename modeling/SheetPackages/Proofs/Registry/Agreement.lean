import SheetPackages.Proofs.Path.Names
import SheetPackages.Proofs.Registry.Lookup
import SheetPackages.Proofs.Registry.Requests

/-!
# Two registries with one content

A directory and a site with the same index and the same archives give the same for a version: the
bytes at the path of the index, else those at the conventional path, else the version is not found.
They differ where the directory has an obstacle at a path without an archive, such as another
directory or a file in place of a directory: the site knows of no such thing and looks further,
while the directory reports the obstacle.
-/

namespace SheetPackages

/-! ## Plain paths -/

namespace Path

/-- A character that stands for itself in the path of an address. -/
def isAddressChar (c : Char) : Bool :=
  Text.isAlphanumeric c || "-._~!$&'()*+,;=:@".toList.contains c

/-- A relative path that consists of names only, in characters that stand for themselves in an
address. -/
structure IsPlain (path : String) : Prop where
  names : ∀ piece ∈ Text.pieces '/' path.toList, Files.IsName (String.ofList piece)
  characters : ∀ piece ∈ Text.pieces '/' path.toList, piece.all isAddressChar = true

instance (path : String) : Decidable (IsPlain path) :=
  decidable_of_iff (∀ piece ∈ Text.pieces '/' path.toList, ('/' ∉ piece ∧ isTrivial piece = false ∧
      piece ≠ ['.', '.']) ∧ piece.all isAddressChar = true)
    ⟨fun h ↦ ⟨fun piece hpiece ↦ by
        obtain ⟨⟨hseparator, htrivial, hparent⟩, -⟩ := h piece hpiece
        constructor <;> rwa [String.toList_ofList], fun piece hpiece ↦ (h piece hpiece).2⟩,
      fun h piece hpiece ↦ by
        have hname := h.names piece hpiece
        have hseparator := hname.separator
        have htrivial := hname.trivial
        have hparent := hname.parent
        rw [String.toList_ofList] at hseparator htrivial hparent
        exact ⟨⟨hseparator, htrivial, hparent⟩, h.characters piece hpiece⟩⟩

theorem isName_of_mem_names {path name : String} (h : IsPlain path) (hname : name ∈ names path) :
    Files.IsName name := by
  obtain ⟨piece, hpiece, rfl⟩ := List.mem_map.mp hname
  exact h.names piece hpiece

theorem components_of_isPlain {path : String} (h : IsPlain path) :
    components path = (names path).map .normal := by
  rw [← components_ofNames fun _ ↦ isName_of_mem_names h, ofNames_names]

theorem isAbsolute_of_isPlain {path : String} (h : IsPlain path) : isAbsolute path = false := by
  rw [← ofNames_names path]
  exact isAbsolute_of_leading (leading_pieces_ofNames fun _ ↦ isName_of_mem_names h)

/-- A plain path is its own normal form. -/
theorem normalize_of_isPlain {path : String} (h : IsPlain path) : normalize path = path := by
  rw [normalize, components_of_isPlain h, foldl_normalStep_map_normal, List.append_nil,
    List.reverse_reverse, ofComponents_map_normal fun _ ↦ isName_of_mem_names h, ofNames_names]

theorem safeJoin_of_isPlain (root : String) {path : String} (h : IsPlain path) :
    safeJoin root path = .ok (join root path) := by
  have hsafe : isSafe path = true := by
    rw [isSafe, components_of_isPlain h, staysBelow_map_normal]
  rw [safeJoin, if_pos hsafe, normalize_of_isPlain h]
  rfl

end Path

namespace Registry

variable {content : OrderedMap ByteArray} {index : Index} {name version root path : String}
  {s : Site}

/-! ## The content of a registry -/

/-- The file at each plain path below the root is that of the content, if any. -/
def Stores (f : Files) (root : String) (content : OrderedMap ByteArray) : Prop :=
  ∀ path, Path.IsPlain path → (f.read (Path.join root path)).toOption = content.get? path

/-- A request for a plain path is answered with the bytes of the content, or with the status 404
where it has none, however often the site has been asked. -/
structure Serves (w : Web) (s : Site) (content : OrderedMap ByteArray) : Prop where
  found : ∀ path data asked, Path.IsPlain path → content.get? path = some data →
    { w with asked }.next (addressOf s path) = .full 200 data
  missing : ∀ path asked, Path.IsPlain path → content.get? path = none →
    { w with asked }.next (addressOf s path) = .broken 404 ∨
      ∃ body, { w with asked }.next (addressOf s path) = .full 404 body

/-- What is given out for a version: the bytes at the path of the index, else those at the
conventional path. -/
def offered (content : OrderedMap ByteArray) (index : Index) (name version : String) :
    Except Fault ByteArray :=
  match (content.get? (archivePath index name version)).or
      (content.get? (conventionalPath name version)) with
  | some data => .ok data
  | none => .error (.versionNotFound name version)

/-- There is no obstacle in the directory at the paths that are looked at for a version: where the
content has nothing, nothing is found. -/
structure Unobstructed (f : Files) (root : String) (content : OrderedMap ByteArray) (index : Index)
    (name version : String) : Prop where
  primary : content.get? (archivePath index name version) = none →
    f.read (Path.join root (archivePath index name version)) = .error .notFound
  conventional : content.get? (archivePath index name version) = none →
    content.get? (conventionalPath name version) = none →
    f.read (Path.join root (conventionalPath name version)) = .error .notFound

theorem picked_content :
    picked (fun path ↦ .ok (content.get? path)) index name version =
      offered content index name version := by
  rw [picked, offered]
  cases hprimary : content.get? (archivePath index name version) with
  | some data => rfl
  | none =>
    by_cases hsame : archivePath index name version = conventionalPath name version
    · rw [← hsame, hprimary]
      simp only
      rfl
    · simp only [if_neg hsame]
      cases content.get? (conventionalPath name version) <;> rfl

/-! ## In a directory -/

/-- The file at a path below the root, nothing, or an obstacle. -/
def lookedUp (f : Files) (root path : String) : Except Fault (Option ByteArray) :=
  match f.read (Path.join root path) with
  | .ok data => .ok (some data)
  | .error .notFound => .ok none
  | .error _ => .error (.ofSystem s!"Failed to read {Path.join root path}")

theorem foundBelow_of_isPlain (f : Files) (root : String) (hpath : Path.IsPlain path) :
    foundBelow f root path = lookedUp f root path := by
  rw [foundBelow, Path.safeJoin_of_isPlain root hpath]
  rfl

theorem run_archive_directory {w : World} {data : ByteArray} (hstores : Stores w.files root content)
    (hdata : content.get? "index.json" = some data) (hindex : Index.ofBytes data = .ok index)
    (hprimary : Path.IsPlain (archivePath index name version))
    (hconventional : Path.IsPlain (conventionalPath name version)) (c : IndexCache) :
    (((Registry.directory root).archive name version).run.run (w, c)).1 =
      picked (lookedUp w.files root) index name version := by
  have hread : w.files.read (Path.join root "index.json") = .ok data := by
    have hstored := hstores "index.json" (by decide)
    rw [hdata] at hstored
    cases hread : w.files.read (Path.join root "index.json") with
    | error refusal => rw [hread] at hstored; cases hstored
    | ok bytes => rw [hread] at hstored; cases hstored; rfl
  have hfound : indexIn w.files root = .ok index := by
    simp only [indexIn, hread, hindex]
  rw [run_directory_archive, hfound]
  exact picked_congr (foundBelow_of_isPlain _ _ hprimary) (foundBelow_of_isPlain _ _ hconventional)

theorem lookedUp_eq_none_iff {f : Files} :
    lookedUp f root path = .ok none ↔ f.read (Path.join root path) = .error .notFound := by
  unfold lookedUp
  split <;> simp_all

/-- What is looked up is in the content, or there is an obstacle where the content has nothing. -/
theorem lookedUp_of_stores {f : Files} (hstores : Stores f root content)
    (hpath : Path.IsPlain path) :
    lookedUp f root path = .ok (content.get? path) ∨
      content.get? path = none ∧ ∃ message, lookedUp f root path = .error (.ofSystem message) := by
  rw [← hstores path hpath]
  unfold lookedUp
  split
  · next data hread => exact .inl (by rw [hread]; rfl)
  · next hread => exact .inl (by rw [hread]; rfl)
  · next refusal _ hread => exact .inr ⟨by rw [hread]; rfl, _, rfl⟩

theorem offered_ne_ofSystem (message : String) :
    offered content index name version ≠ .error (.ofSystem message) := by
  rw [offered]
  split <;> exact nofun

/-- A directory gives out what its content offers unless there is an obstacle. -/
theorem picked_lookedUp_iff {f : Files} (hstores : Stores f root content)
    (hprimary : Path.IsPlain (archivePath index name version))
    (hconventional : Path.IsPlain (conventionalPath name version)) :
    picked (lookedUp f root) index name version = offered content index name version ↔
      Unobstructed f root content index name version := by
  have hobstacle {found : String} {message : String}
      (hfound : lookedUp f root found = .error (.ofSystem message)) :
      f.read (Path.join root found) ≠ .error .notFound := fun hread ↦
    nomatch hfound.symm.trans (lookedUp_eq_none_iff.mpr hread)
  rcases lookedUp_of_stores hstores hprimary with hfirst | ⟨hnone, message, hfirst⟩
  · cases hcontent : content.get? (archivePath index name version) with
    | some data =>
      rw [hcontent] at hfirst
      refine iff_of_true ?_ ⟨fun hnone ↦ ?_, fun hnone ↦ ?_⟩
      · rw [picked, hfirst, offered, hcontent]
        rfl
      · cases hcontent.symm.trans hnone
      · cases hcontent.symm.trans hnone
    | none =>
      rw [hcontent] at hfirst
      rcases lookedUp_of_stores hstores hconventional with hsecond | ⟨hnone, message, hsecond⟩
      · refine iff_of_true ?_ ⟨fun _ ↦ lookedUp_eq_none_iff.mp hfirst, fun _ h ↦ ?_⟩
        · rw [← picked_content, picked, picked, hfirst, hcontent, hsecond]
        · exact lookedUp_eq_none_iff.mp (hsecond.trans (congrArg Except.ok h))
      · refine iff_of_false (fun h ↦ offered_ne_ofSystem message (h.symm.trans ?_))
          fun h ↦ hobstacle hsecond (h.conventional hcontent hnone)
        have hne : archivePath index name version ≠ conventionalPath name version := by
          intro hsame
          rw [hsame, hsecond] at hfirst
          cases hfirst
        rw [picked, hfirst]
        simp only [if_neg hne, hsecond]
        rfl
  · refine iff_of_false (fun h ↦ offered_ne_ofSystem message (h.symm.trans ?_))
      fun h ↦ hobstacle hfirst (h.primary hnone)
    rw [picked, hfirst]
    rfl

/-! ## At a site -/

theorem Serves.of_asked {w : Web} (h : Serves w s content) (asked : List String) :
    Serves { w with asked } s content where
  found path data asked := h.found path data asked
  missing path asked := h.missing path asked

/-- The first response for a plain path is the content or that there is none. -/
theorem responses_of_serves {v : World} (hserves : Serves v.web s content)
    (hpath : Path.IsPlain path) : responses v (addressOf s path) 0 =
      (content.get? path).elim .missing .content := by
  change Response.ofReply (v.web.next (addressOf s path)) = _
  cases hcontent : content.get? path with
  | some data =>
    rw [hserves.found path data v.web.asked hpath hcontent]
    rfl
  | none =>
    rcases hserves.missing path v.web.asked hpath hcontent with hnext | ⟨body, hnext⟩
    · rw [hnext]
      rfl
    · rw [hnext]
      rfl

theorem decided_zero {v : World} (hserves : Serves v.web s content) (hpath : Path.IsPlain path)
    (retries : Nat) : Decided (responses v (addressOf s path)) retries 0 := by
  refine .zero_of_isDecisive ?_
  rw [responses_of_serves hserves hpath]
  cases content.get? path <;> rfl

/-- The first request for a plain path is answered. -/
theorem runIn_get? {v : World} (hserves : Serves v.web s content) (hpath : Path.IsPlain path) :
    (get? s path).runIn v = (.ok (content.get? path), v.requested (addressOf s path) 1) := by
  obtain ⟨k, hk, hrun⟩ := runIn_retrying_request (addressOf s path) s.retries v
  obtain rfl := hk.unique (decided_zero hserves hpath s.retries)
  rw [get?, hrun, responses_of_serves hserves hpath]
  cases content.get? path <;> rfl

theorem run_lookup (url : String) (w : World) (c : IndexCache) :
    (Cached.lookup url).run.run (w, c) =
      (.ok (c.lookup url w.now).1, w, (c.lookup url w.now).2) :=
  rfl

/-- The index comes from the cache or from the site, which goes on to serve the content. -/
theorem run_index_site {v : World} {data : ByteArray} (hserves : Serves v.web s content)
    (hdata : content.get? "index.json" = some data) (hindex : Index.ofBytes data = .ok index)
    {c : IndexCache} (hfresh : ∀ cached, (c.lookup s.base v.now).1 = some cached → cached = index) :
    ∃ w after, ((Registry.site s).index).run.run (v, c) = (.ok index, w, after) ∧
      Serves w.web s content := by
  rw [Registry.index, run_bind_of_ok (run_lookup s.base v c)]
  cases hcached : (c.lookup s.base v.now).1 with
  | some cached =>
    rw [hfresh cached hcached]
    exact ⟨v, _, rfl, hserves⟩
  | none =>
    have hplain : Path.IsPlain "index.json" := by decide
    obtain ⟨k, hk, hrun⟩ := run_fetchIndex s v (c.lookup s.base v.now).2
    obtain rfl := hk.unique (decided_zero hserves hplain s.retries)
    have hread : (responses v (addressOf s "index.json") 0).index (addressOf s "index.json") =
        .ok index := by
      rw [responses_of_serves hserves hplain, hdata]
      exact hindex
    rw [hread] at hrun
    exact ⟨_, _, hrun, hserves.of_asked _⟩

theorem run_archive_site {v : World} {data : ByteArray} (hserves : Serves v.web s content)
    (hdata : content.get? "index.json" = some data) (hindex : Index.ofBytes data = .ok index)
    (hprimary : Path.IsPlain (archivePath index name version))
    (hconventional : Path.IsPlain (conventionalPath name version)) {c : IndexCache}
    (hfresh : ∀ cached, (c.lookup s.base v.now).1 = some cached → cached = index) :
    (((Registry.site s).archive name version).run.run (v, c)).1 =
      offered content index name version := by
  obtain ⟨u, after, hrun, hu⟩ := run_index_site hserves hdata hindex hfresh
  rw [← picked_content]
  refine run_archive (fun world ↦ Serves world.web s content) hrun hu ?_
  rintro world hworld path (rfl | rfl)
  · exact ⟨_, runIn_get? hworld hprimary, hworld.of_asked _⟩
  · exact ⟨_, runIn_get? hworld hconventional, hworld.of_asked _⟩

/-! ## Both -/

/-- Of a directory and a site with the same content, the site gives out what the content offers, and
so does the directory unless there is an obstacle in it. -/
theorem archive_agrees_iff {w v : World} {c d : IndexCache} {data : ByteArray}
    (hstores : Stores w.files root content) (hserves : Serves v.web s content)
    (hdata : content.get? "index.json" = some data) (hindex : Index.ofBytes data = .ok index)
    (hprimary : Path.IsPlain (archivePath index name version))
    (hconventional : Path.IsPlain (conventionalPath name version))
    (hfresh : ∀ cached, (d.lookup s.base v.now).1 = some cached → cached = index) :
    (((Registry.site s).archive name version).run.run (v, d)).1 =
        offered content index name version ∧
      ((((Registry.directory root).archive name version).run.run (w, c)).1 =
          offered content index name version ↔
        Unobstructed w.files root content index name version) := by
  refine ⟨run_archive_site hserves hdata hindex hprimary hconventional hfresh, ?_⟩
  rw [run_archive_directory hstores hdata hindex hprimary hconventional c]
  exact picked_lookedUp_iff hstores hprimary hconventional

/-! ## A registry with a directory in the way -/

/-- The site that has a content. -/
def webOf (s : Site) (content : OrderedMap ByteArray) : Web where
  replies := content.entries.map fun entry ↦ (addressOf s entry.1, .full 200 entry.2)
  otherwise := .broken 404

theorem addressOf_of_isPlain (hpath : Path.IsPlain path) :
    addressOf s path = s.base ++ "/" ++ path := by
  have hkept : path.toList.dropWhile (· = '/') = path.toList := by
    have hrelative := Path.isAbsolute_of_isPlain hpath
    rw [Path.isAbsolute] at hrelative
    cases hchars : path.toList with
    | nil => rfl
    | cons c rest =>
      rw [List.dropWhile_cons_of_neg]
      simpa [hchars] using hrelative
  rw [addressOf, hkept, String.ofList_toList]

theorem repliesTo_webOf (hplain : ∀ path ∈ content.keys, Path.IsPlain path)
    (hpath : Path.IsPlain path) (asked : List String) :
    { webOf s content with asked }.repliesTo (addressOf s path) =
      (content.entries.filter (·.1 = path)).map fun entry ↦ .full 200 entry.2 := by
  rw [Web.repliesTo, webOf, List.filter_map, List.map_map]
  congr 1
  refine List.filter_congr fun entry hentry ↦ ?_
  have hkey := hplain entry.1 (List.mem_map_of_mem hentry)
  rw [Function.comp_apply, addressOf_of_isPlain hkey, addressOf_of_isPlain hpath]
  simp

/-- When all replies to an address are the same, the next one is that. -/
theorem next_of_forall {w : Web} {address : String} {reply : Reply}
    (hall : ∀ other ∈ w.repliesTo address, other = reply) (hmem : reply ∈ w.repliesTo address) :
    w.next address = reply := by
  rw [Web.next]
  cases hreply : (w.repliesTo address)[w.asked.count address]? with
  | some other => exact hall other (List.mem_of_getElem? hreply)
  | none =>
    cases hlast : (w.repliesTo address).getLast? with
    | none => simp [List.getLast?_eq_none_iff.mp hlast] at hmem
    | some other => exact hall other (List.mem_of_getLast? hlast)

theorem serves_webOf (hplain : ∀ path ∈ content.keys, Path.IsPlain path) :
    Serves (webOf s content) s content where
  found path data asked hpath hdata := by
    have hreplies := repliesTo_webOf (s := s) hplain hpath asked
    have hall : ∀ reply ∈ { webOf s content with asked }.repliesTo (addressOf s path),
        reply = .full 200 data := by
      rw [hreplies]
      intro reply hreply
      obtain ⟨⟨key, value⟩, hentry, rfl⟩ := List.mem_map.mp hreply
      obtain ⟨hmem, hkey⟩ := List.mem_filter.mp hentry
      obtain rfl : key = path := by simpa using hkey
      rw [OrderedMap.get?_eq_some_iff.mpr hmem] at hdata
      rw [Option.some.inj hdata]
    have hsome : .full 200 data ∈ { webOf s content with asked }.repliesTo (addressOf s path) := by
      rw [hreplies]
      refine List.mem_map.mpr ⟨(path, data), List.mem_filter.mpr ⟨?_, by simp⟩, rfl⟩
      exact OrderedMap.get?_eq_some_iff.mp hdata
    exact next_of_forall hall hsome
  missing path asked hpath hnone := by
    have hreplies := repliesTo_webOf (s := s) hplain hpath asked
    have hempty : content.entries.filter (·.1 = path) = [] := by
      refine List.filter_eq_nil_iff.mpr fun entry hentry hkey ↦ ?_
      obtain rfl : entry.1 = path := by simpa using hkey
      cases hnone.symm.trans (OrderedMap.get?_eq_some_iff.mpr hentry)
    rw [hempty] at hreplies
    refine .inl ?_
    rw [Web.next, hreplies]
    rfl

/-- The bytes of a file. -/
def dataOf : Files.Entry → Option ByteArray
  | .directory => none
  | .file data => some data

theorem names_of_foldlM_step {f : Files} {place target : Place} {pieces : List (List Char)}
    (hnames : ∀ piece ∈ pieces, Files.IsName (String.ofList piece))
    (h : pieces.foldlM f.step place = .ok target) :
    target = place ++ pieces.map String.ofList := by
  induction pieces generalizing place with
  | nil =>
    cases h
    exact (List.append_nil _).symm
  | cons piece rest ih =>
    obtain ⟨hname, hrest⟩ := List.forall_mem_cons.mp hnames
    rw [List.foldlM_cons] at h
    obtain ⟨next, hstep, hsteps⟩ := exists_of_bind_eq_ok h
    rw [← String.toList_ofList (l := piece)] at hstep
    rw [ih hrest hsteps, (Files.step_name hname hstep).2, List.append_assoc]
    rfl

/-- A plain path below the root leads down by its names. -/
theorem names_of_locate {f : Files} {place target : Place} (hroot : f.locate root = .ok place)
    (hlast : root.toList.getLast? ≠ some '/') (hpath : Path.IsPlain path)
    (h : f.locate (Path.join root path) = .ok target) : target = place ++ Path.names path := by
  have hempty := Files.isEmpty_of_locate hroot
  have hjoin : Path.join root path = root ++ "/" ++ path := by
    rw [Path.join, if_neg (Bool.eq_false_iff.mp (Path.isAbsolute_of_isPlain hpath)), if_neg]
    rintro (h | h)
    · exact Bool.eq_false_iff.mp hempty h
    · exact hlast h
  have hpieces : Text.pieces '/' (Path.join root path).toList =
      Text.pieces '/' root.toList ++ Text.pieces '/' path.toList := by
    rw [hjoin, ← Text.pieces_append]
    simp
  have habsolute : Path.isAbsolute (Path.join root path) = Path.isAbsolute root := by
    have hne : root.toList ≠ [] := by
      rw [Ne, String.toList_eq_nil_iff, ← String.isEmpty_iff, hempty]
      exact Bool.false_ne_true
    rw [hjoin, Path.isAbsolute, Path.isAbsolute, String.toList_append, String.toList_append,
      List.append_assoc, List.head?_append_of_ne_nil _ hne]
  rw [Files.locate, if_neg (by rw [hjoin]; simp), hpieces, habsolute, List.foldlM_append] at h
  rw [Files.locate, if_neg (Bool.eq_false_iff.mp hempty)] at hroot
  rw [hroot] at h
  exact names_of_foldlM_step hpath.names h

/-- A directory in which the files are those of the content stores it. -/
theorem stores_of_entries {f : Files} {place : Place} (hroot : f.locate root = .ok place)
    (hlast : root.toList.getLast? ≠ some '/')
    (hread : ∀ entry ∈ content.entries,
      (f.read (Path.join root entry.1)).toOption = some entry.2)
    (hfiles : ∀ entry ∈ f.entries, ∀ data ∈ dataOf entry.2,
      content.get? (Path.ofNames (entry.1.drop place.length)) = some data) :
    Stores f root content := by
  intro path hpath
  cases hcontent : content.get? path with
  | some data => exact hread (path, data) (OrderedMap.get?_eq_some_iff.mp hcontent)
  | none =>
    cases hfound : f.read (Path.join root path) with
    | error refusal => rfl
    | ok data =>
      obtain ⟨target, htarget, hentry⟩ :=
        Files.find_eq_ok_iff.mp (Files.read_eq_ok_iff.mp hfound)
      have hnames := names_of_locate hroot hlast hpath htarget
      have hmem : (target, .file data) ∈ f.entries := by
        rw [Files.entry?] at hentry
        split at hentry
        · cases hentry
        · obtain ⟨before, behind, hsplit, -⟩ := List.lookup_eq_some_iff.mp hentry
          rw [hsplit]
          exact List.mem_append_right before List.mem_cons_self
      have hdata := hfiles _ hmem data rfl
      rw [hnames, List.drop_left, Path.ofNames_names, hcontent] at hdata
      cases hdata

/-- An index that gives a directory as the path of one version, and a path without an archive for
the other one. -/
def misled : OrderedMap ByteArray :=
  .ofList [("index.json", ("\x7b\"text\":\x7b\"versions\":\x7b" ++
      "\"1.0.0\":\x7b\"path\":\"archives\"\x7d," ++
      "\"2.0.0\":\x7b\"path\":\"lost.gspkg\"\x7d\x7d\x7d\x7d").toUTF8),
    ("archives/other.gspkg", "other".toUTF8),
    ("packages/text/1.0.0/text@1.0.0.gspkg", "v1".toUTF8),
    ("packages/text/2.0.0/text@2.0.0.gspkg", "v2".toUTF8)]

def misledIndex : Index :=
  ⟨.ofList [("text", { versions := .ofList [
    ("1.0.0", { path := "archives" }), ("2.0.0", { path := "lost.gspkg" })] })]⟩

/-- The directory that has this content. -/
def misledFiles : Files where
  entries := [["r"], ["r", "archives"], ["r", "packages"], ["r", "packages", "text"],
      ["r", "packages", "text", "1.0.0"], ["r", "packages", "text", "2.0.0"]].map (·, .directory) ++
    misled.entries.map fun entry ↦ ("r" :: Path.names entry.1, .file entry.2)

theorem stores_misled : Stores misledFiles "/r" misled := by
  have hroot : misledFiles.locate "/r" = .ok ["r"] := by rfl
  exact stores_of_entries hroot (by decide) (by decide) (by decide)

def misledSite : Site where
  base := "https://registry.test"

theorem serves_misled : Serves (webOf misledSite misled) misledSite misled :=
  serves_webOf (by decide)

theorem exists_index_misled : ∃ data, misled.get? "index.json" = some data ∧
    Index.ofBytes data = .ok misledIndex := by
  have hread : (misled.get? "index.json").bind (fun data ↦ (Index.ofBytes data).toOption) =
      some misledIndex := by
    decide +kernel
  obtain ⟨data, hdata, hindex⟩ := Option.bind_eq_some_iff.mp hread
  refine ⟨data, hdata, ?_⟩
  cases hresult : Index.ofBytes data with
  | error fault => rw [hresult] at hindex; cases hindex
  | ok index => rw [hresult] at hindex; exact congrArg Except.ok (Option.some.inj hindex)

/-- Without an archive at the path of the index both give out the one at the conventional path. -/
theorem archive_agrees_iff_lost :
    Path.IsPlain (archivePath misledIndex "text" "2.0.0") ∧
      Path.IsPlain (conventionalPath "text" "2.0.0") ∧
      (((Registry.site misledSite).archive "text" "2.0.0").run.run
        ({ web := webOf misledSite misled, now := ⟨0⟩ }, {})).1 = .ok "v2".toUTF8 ∧
      (((Registry.directory "/r").archive "text" "2.0.0").run.run
        ({ files := misledFiles, now := ⟨0⟩ }, {})).1 = .ok "v2".toUTF8 := by
  have hprimary : Path.IsPlain (archivePath misledIndex "text" "2.0.0") := by decide
  have hconventional : Path.IsPlain (conventionalPath "text" "2.0.0") := by decide
  have hlost : misled.get? (archivePath misledIndex "text" "2.0.0") = none := by rfl
  have hcontent : misled.get? (conventionalPath "text" "2.0.0") = some "v2".toUTF8 := by rfl
  have hoffered : offered misled misledIndex "text" "2.0.0" = .ok "v2".toUTF8 := by
    rw [offered, hlost, Option.none_or, hcontent]
  have hclear : Unobstructed misledFiles "/r" misled misledIndex "text" "2.0.0" :=
    ⟨fun _ ↦ rfl, fun _ hnone ↦ nomatch hnone.symm.trans hcontent⟩
  obtain ⟨data, hdata, hindex⟩ := exists_index_misled
  have hagrees := archive_agrees_iff (w := { files := misledFiles, now := ⟨0⟩ }) (c := {})
    (v := { web := webOf misledSite misled, now := ⟨0⟩ }) (d := {}) stores_misled serves_misled
    hdata hindex hprimary hconventional nofun
  exact ⟨hprimary, hconventional, hagrees.1.trans hoffered,
    (hagrees.2.mpr hclear).trans hoffered⟩

/-- Where the path of the index is that of a directory, the site gives out the archive at the
conventional path, and the directory reports that it cannot be read. -/
theorem archive_disagrees_misled :
    Stores misledFiles "/r" misled ∧ Serves (webOf misledSite misled) misledSite misled ∧
      Path.IsPlain (archivePath misledIndex "text" "1.0.0") ∧
      Path.IsPlain (conventionalPath "text" "1.0.0") ∧
      (((Registry.site misledSite).archive "text" "1.0.0").run.run
        ({ web := webOf misledSite misled, now := ⟨0⟩ }, {})).1 = .ok "v1".toUTF8 ∧
      (((Registry.directory "/r").archive "text" "1.0.0").run.run
        ({ files := misledFiles, now := ⟨0⟩ }, {})).1 =
          .error (.ofSystem "Failed to read /r/archives") := by
  have hprimary : Path.IsPlain (archivePath misledIndex "text" "1.0.0") := by decide
  have hconventional : Path.IsPlain (conventionalPath "text" "1.0.0") := by decide
  have hlost : misled.get? (archivePath misledIndex "text" "1.0.0") = none := by rfl
  have hcontent : misled.get? (conventionalPath "text" "1.0.0") = some "v1".toUTF8 := by rfl
  obtain ⟨data, hdata, hindex⟩ := exists_index_misled
  refine ⟨stores_misled, serves_misled, hprimary, hconventional, ?_, ?_⟩
  · have hsite := run_archive_site (v := { web := webOf misledSite misled, now := ⟨0⟩ }) (c := {})
      serves_misled hdata hindex hprimary hconventional nofun
    rw [hsite, offered, hlost, Option.none_or, hcontent]
  · rw [run_archive_directory (w := { files := misledFiles, now := ⟨0⟩ }) stores_misled hdata hindex
      hprimary hconventional]
    rfl

end Registry

end SheetPackages
