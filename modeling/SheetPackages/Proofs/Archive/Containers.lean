import Mathlib.Algebra.Ring.Nat
import SheetPackages.Archive.Zip
import SheetPackages.Proofs.Json.Reading

/-!
# Reading written containers

A container is read from its end: the end record leads to the directory, and every place in the
directory to an entry. Where numbers fit their fields and names are distinct, each name leads to the
data that was kept for it, and to the file itself if that data inflates to it. How data is deflated
is left open.
-/

namespace SheetPackages.Archive.Zip

/-! ## Bytes at positions -/

/-- Some bytes stand in the data at a position. -/
def Stands (data : ByteArray) (pos : Nat) (bytes : List UInt8) : Prop :=
  bytes <+: data.data.toList.drop pos

variable {data : ByteArray} {pos : Nat}

theorem stands_append_iff {s t : List UInt8} :
    Stands data pos (s ++ t) ↔ Stands data pos s ∧ Stands data (pos + s.length) t := by
  unfold Stands
  rw [← List.drop_drop]
  constructor
  · rintro ⟨rest, hrest⟩
    rw [← hrest, List.append_assoc, List.drop_left]
    exact ⟨List.prefix_append .., List.prefix_append ..⟩
  · rintro ⟨⟨rest, hrest⟩, ht⟩
    rw [← hrest] at ht ⊢
    rw [List.drop_left] at ht
    exact List.prefix_append_right_inj s |>.mpr ht

theorem getElem?_of_stands {b : UInt8} {rest : List UInt8} (h : Stands data pos (b :: rest)) :
    data[pos]? = some b := by
  obtain ⟨more, hmore⟩ := h
  have hb : (data.data.toList.drop pos)[0]? = some b := by rw [← hmore]; rfl
  rw [List.getElem?_drop, Nat.add_zero, Array.getElem?_toList] at hb
  exact hb

theorem Stands.le_size {bytes : List UInt8} (h : Stands data pos bytes) (hbytes : bytes ≠ []) :
    pos + bytes.length ≤ data.size := by
  have hlength := h.length_le
  have hpos := List.length_pos_of_ne_nil hbytes
  have hsize : data.data.toList.length = data.size := rfl
  rw [List.length_drop, hsize] at hlength
  omega

theorem toList_extract_of_stands {bytes : List UInt8} (h : Stands data pos bytes) :
    (data.extract pos (pos + bytes.length)).data.toList = bytes := by
  obtain ⟨rest, hrest⟩ := h
  rw [ByteArray.data_extract, Array.toList_extract, List.extract_eq_take_drop, ← hrest]
  simp

/-! ## Numbers -/

theorem length_bytesOf (n count : Nat) : (bytesOf n count).length = count := by
  induction count generalizing n with
  | zero => rfl
  | succ count ih => rw [bytesOf, List.length_cons, ih]

theorem number?_of_stands {n count : Nat} (h : Stands data pos (bytesOf n count))
    (hn : n < 256 ^ count) : number? data pos count = some n := by
  induction count generalizing n pos with
  | zero =>
    rw [Nat.pow_zero, Nat.lt_one_iff] at hn
    rw [hn]
    rfl
  | succ count ih =>
    have hlow := getElem?_of_stands h
    obtain ⟨-, hrest⟩ := (stands_append_iff (s := [UInt8.ofNat n])).mp h
    have hhigh := ih hrest (Nat.div_lt_of_lt_mul (by rwa [← Nat.pow_succ']))
    rw [List.length_singleton] at hhigh
    rw [number?, hlow]
    simp [hhigh, Nat.mod_add_div]

theorem isMarked_of_stands {mark : Nat} (h : Stands data pos (bytesOf mark 4))
    (hmark : mark < 256 ^ 4) : isMarked data pos mark = true := by
  rw [isMarked, number?_of_stands h hmark, beq_self_eq_true]

/-! ## Entries -/

namespace PackedFile

variable {f : PackedFile}

/-- Where an entry is that begins at an offset. -/
def placed (f : PackedFile) (offset : Nat) : ZipEntry :=
  ⟨f.name, 0, 8, Digest.crc32 f.content, f.packed.size, offset + 30 + f.name.length⟩

theorem length_description (f : PackedFile) : f.description.length = 26 := by
  simp [description, length_bytesOf]

theorem length_entryBytes (f : PackedFile) :
    f.entryBytes.length = 30 + f.name.length + f.packed.size := by
  have hpacked : f.packed.toList.length = f.packed.size := by
    rw [SheetPackages.ByteArray.toList_eq]
    rfl
  simp only [entryBytes, List.length_append, length_bytesOf, length_description, hpacked]

theorem length_directoryBytes (f : PackedFile) (offset : Nat) :
    (f.directoryBytes offset).length = 46 + f.name.length := by
  simp only [directoryBytes, List.length_append, length_bytesOf, length_description]

/-- The numbers of a file fit their fields. -/
structure Fits (f : PackedFile) (offset : Nat) : Prop where
  name : f.name.length < 256 ^ 2
  size : f.packed.size < 256 ^ 4
  offset : offset < 256 ^ 4

/-- The place of an entry in the directory leads to the entry. -/
theorem readEntry?_eq {directory offset : Nat} (hfits : f.Fits offset)
    (hentry : Stands data offset f.entryBytes) (hplace : Stands data pos (f.directoryBytes offset))
    (hbefore : offset + f.entryBytes.length ≤ directory) :
    readEntry? data 0 directory pos =
      some (f.placed offset, pos + (f.directoryBytes offset).length) := by
  have hend := hplace.le_size (by
    rw [← List.length_pos_iff, length_directoryBytes]
    omega)
  have hcomment : bytesOf 0 6 = bytesOf 0 2 ++ bytesOf 0 4 := rfl
  rw [length_directoryBytes] at hend ⊢
  rw [length_entryBytes] at hbefore
  simp only [directoryBytes, entryBytes, description, hcomment, stands_append_iff,
    List.length_append, length_bytesOf, Nat.add_assoc, Nat.reduceAdd, and_assoc] at hentry hplace
  obtain ⟨hmark, -, -, hflags, hmethod, -, -, hcrc, hsize, -, hname, hextra, hcomment, -, -,
    hoffset, hbytes⟩ := hplace
  obtain ⟨hentryMark, -, -, -, -, -, -, -, -, hentryName, hentryExtra, -, -⟩ := hentry
  have hnone : (0 : Nat) < 256 ^ 2 := by decide
  have hcrcFits : (Digest.crc32 f.content).toNat < 256 ^ 4 := (Digest.crc32 f.content).toNat_lt
  have hnameBytes : (data.extract (pos + 46) (pos + 46 + f.name.length)).toList = f.name := by
    rw [SheetPackages.ByteArray.toList_eq, toList_extract_of_stands hbytes]
  unfold readEntry?
  rw [isMarked_of_stands hmark (by decide), number?_of_stands hflags hnone,
    number?_of_stands hmethod (by decide), number?_of_stands hcrc hcrcFits,
    number?_of_stands hsize hfits.size, number?_of_stands hname hfits.name,
    number?_of_stands hextra hnone, number?_of_stands hcomment hnone,
    number?_of_stands hoffset hfits.offset]
  simp only [Bool.not_true, Bool.false_eq_true, if_false, Nat.zero_add, Bool.not_eq_eq_eq_not,
    Option.pure_def, Option.bind_eq_bind, Option.bind_none, Option.bind_some, Nat.add_zero,
    UInt32.ofNat_toNat, Option.ite_none_left_eq_some, not_or, not_lt, not_le, Bool.not_eq_false]
  have hstart : ¬directory < offset + 30 + f.name.length + 0 := by omega
  have hplaces : pos + 46 + f.name.length ≤ data.size ∧ offset < directory ∧
      isMarked data offset entryMark = true :=
    ⟨by omega, by omega, isMarked_of_stands hentryMark (by decide)⟩
  refine ⟨hplaces, ?_⟩
  rw [number?_of_stands hentryName hfits.name, number?_of_stands hentryExtra hnone,
    Option.bind_some, Option.bind_some, if_neg hstart, hnameBytes]
  simp only [placed, Nat.add_assoc, Nat.add_zero]

/-- The file in an entry is the one whose data inflates to it. -/
theorem content?_placed {offset : Nat} (hentry : Stands data offset f.entryBytes)
    (hinflates : Inflate.inflate? f.packed = some f.content) :
    content? data (f.placed offset) = some f.content := by
  rw [entryBytes, stands_append_iff] at hentry
  have hlength : (bytesOf entryMark 4 ++ f.description ++ f.name).length = 30 + f.name.length := by
    simp only [List.length_append, length_bytesOf, length_description]
  have hkept : data.extract (offset + 30 + f.name.length)
      (offset + 30 + f.name.length + f.packed.size) = f.packed := by
    have hpacked := hentry.2
    rw [hlength, SheetPackages.ByteArray.toList_eq, ← Nat.add_assoc] at hpacked
    exact ByteArray.ext (Array.toList_inj.mp (toList_extract_of_stands hpacked))
  unfold content? placed
  simp [hkept, hinflates]

end PackedFile

open PackedFile

/-- Where the entries of some files are, the first one at an offset. -/
def places (offset : Nat) : List PackedFile → Zip
  | [] => []
  | f :: rest => f.placed offset :: places (offset + f.entryBytes.length) rest

variable {fs : List PackedFile}

theorem readEntries?_eq {offset directory : Nat}
    (hnames : ∀ f ∈ fs, f.name.length < 256 ^ 2)
    (hentries : Stands data offset (parts offset fs).1)
    (hplaces : Stands data pos (parts offset fs).2)
    (hbefore : offset + (parts offset fs).1.length ≤ directory) (hdirectory : directory < 256 ^ 4) :
    readEntries? data 0 directory pos fs.length = some (places offset fs) := by
  induction fs generalizing offset pos with
  | nil => rfl
  | cons f rest ih =>
    obtain ⟨hname, hmore⟩ := List.forall_mem_cons.mp hnames
    have hparts : parts offset (f :: rest) =
      (f.entryBytes ++ (parts (offset + f.entryBytes.length) rest).1,
        f.directoryBytes offset ++ (parts (offset + f.entryBytes.length) rest).2) := rfl
    rw [hparts] at hentries hplaces hbefore
    obtain ⟨hentry, hentries⟩ := stands_append_iff.mp hentries
    obtain ⟨hplace, hplaces⟩ := stands_append_iff.mp hplaces
    rw [List.length_append] at hbefore
    have hlength := f.length_entryBytes
    have hfits : f.Fits offset := ⟨hname, by omega, by omega⟩
    have hfirst : readEntry? data 0 directory pos =
        some (f.placed offset, pos + (f.directoryBytes offset).length) :=
      readEntry?_eq hfits hentry hplace (by omega)
    have hrest := ih hmore hentries hplaces (by omega)
    rw [List.length_cons, readEntries?, hfirst]
    simp [hrest, places]

/-! ## The end -/

/-- The record behind the directory of a container. -/
def endBytes (count directory entries : Nat) : List UInt8 :=
  bytesOf endMark 4 ++ bytesOf 0 4 ++ bytesOf count 2 ++ bytesOf count 2 ++ bytesOf directory 4 ++
    bytesOf entries 4 ++ bytesOf 0 2

/-- The container of some files with deflated data. -/
def container (fs : List PackedFile) : ByteArray :=
  ⟨((parts 0 fs).1 ++ (parts 0 fs).2 ++
    endBytes fs.length (parts 0 fs).2.length (parts 0 fs).1.length).toArray⟩

/-- No end record is where there is no room for one. -/
theorem read?_eq_none (h : data.size < pos + 22) : EndRecord.read? data pos = none := by
  have hroom (comment : Nat) : data.size < pos + 22 + comment := by omega
  unfold EndRecord.read?
  simp [hroom]

theorem below?_eq {zip : Zip} {last stop : Nat} (hstop : last < stop)
    (hlast : at? data last = some zip)
    (hbehind : ∀ pos, last < pos → pos < stop → at? data pos = none) :
    below? data stop = some zip := by
  induction stop with
  | zero => cases hstop
  | succ stop ih =>
    rw [below?]
    by_cases heq : last = stop
    · rw [← heq, hlast, Option.some_or]
    · rw [hbehind stop (by omega) (Nat.lt_succ_self _), Option.none_or]
      exact ih (by omega) fun pos hpos hbelow ↦ hbehind pos hpos (by omega)

theorem length_endBytes (count directory entries : Nat) :
    (endBytes count directory entries).length = 22 := by
  simp only [endBytes, List.length_append, length_bytesOf]

theorem size_container (fs : List PackedFile) :
    (container fs).size = (parts 0 fs).1.length + (parts 0 fs).2.length + 22 := by
  rw [← length_endBytes fs.length (parts 0 fs).2.length (parts 0 fs).1.length,
    ← List.length_append, ← List.length_append]
  rfl

theorem length_parts (offset : Nat) (fs : List PackedFile) :
    (parts offset fs).1.length + (parts offset fs).2.length =
      (fs.map fun f ↦ 76 + 2 * f.name.length + f.packed.size).sum := by
  induction fs generalizing offset with
  | nil => rfl
  | cons f rest ih =>
    have hrest := ih (offset + f.entryBytes.length)
    have hentries : (parts offset (f :: rest)).1 =
      f.entryBytes ++ (parts (offset + f.entryBytes.length) rest).1 := rfl
    have hplaces : (parts offset (f :: rest)).2 =
      f.directoryBytes offset ++ (parts (offset + f.entryBytes.length) rest).2 := rfl
    rw [hentries, hplaces, List.length_append, List.length_append, length_directoryBytes,
      List.map_cons, List.sum_cons]
    have hlength := f.length_entryBytes
    omega

theorem read?_of_stands {count directory entries : Nat}
    (h : Stands data pos (endBytes count directory entries)) (hcount : count < 256 ^ 2)
    (hentries : entries < 256 ^ 4) :
    EndRecord.read? data pos = some ⟨0, 0, count, count, entries, 0⟩ := by
  have hroom := h.le_size (by
    rw [← List.length_pos_iff, length_endBytes]
    decide)
  have hnone : (0 : Nat) < 256 ^ 2 := by decide
  have hdisks : bytesOf 0 4 = bytesOf 0 2 ++ bytesOf 0 2 := rfl
  rw [length_endBytes] at hroom
  simp only [endBytes, hdisks, stands_append_iff, List.length_append, length_bytesOf,
    Nat.add_assoc, Nat.reduceAdd, and_assoc] at h
  obtain ⟨hmark, hdisk, hdirectoryDisk, hhere, hall, -, hstart, hcomment⟩ := h
  unfold EndRecord.read?
  rw [isMarked_of_stands hmark (by decide), number?_of_stands hdisk hnone,
    number?_of_stands hdirectoryDisk hnone, number?_of_stands hhere hcount,
    number?_of_stands hall hcount, number?_of_stands hstart hentries,
    number?_of_stands hcomment hnone]
  simp [hroom]

theorem leading?_eq {e : EndRecord} (hentries : e.allEntries ≠ 0) (hbefore : e.directory < pos)
    (hmark : isMarked data e.directory directoryMark = true) : leading? data pos e = some 0 := by
  rw [leading?, if_neg hentries, if_neg (Nat.not_le.mpr hbefore), findMark, dif_pos hbefore,
    if_pos hmark, Option.map_some, Nat.sub_self]

theorem directoryMark_prefix (hne : fs ≠ []) (offset : Nat) :
    bytesOf directoryMark 4 <+: (parts offset fs).2 := by
  obtain ⟨f, rest, rfl⟩ := List.exists_cons_of_ne_nil hne
  have hplace : bytesOf directoryMark 4 <+: f.directoryBytes offset := by
    simp only [directoryBytes, List.append_assoc]
    exact List.prefix_append ..
  exact hplace.trans (List.prefix_append ..)

/-- A container of some files is read as the places of their entries. -/
theorem ofBytes?_container (hne : fs ≠ []) (hnames : ∀ f ∈ fs, f.name.length < 256 ^ 2)
    (hcount : fs.length < 256 ^ 2) (hsize : (container fs).size < 256 ^ 4) :
    ofBytes? (container fs) = some (places 0 fs) := by
  have hstands : Stands (container fs) 0 ((parts 0 fs).1 ++ (parts 0 fs).2 ++
      endBytes fs.length (parts 0 fs).2.length (parts 0 fs).1.length) := List.prefix_rfl
  have hlength := size_container fs
  obtain ⟨hrest, hend⟩ := stands_append_iff.mp hstands
  obtain ⟨hentries, hplaces⟩ := stands_append_iff.mp hrest
  rw [Nat.zero_add] at hend hplaces
  rw [List.length_append] at hend
  have hread := read?_of_stands hend hcount (by omega)
  have hplaced : readEntries? (container fs) 0 (parts 0 fs).1.length (parts 0 fs).1.length
      fs.length = some (places 0 fs) :=
    readEntries?_eq hnames hentries hplaces (by omega) (by omega)
  have hlast : at? (container fs) ((parts 0 fs).1.length + (parts 0 fs).2.length) =
      some (places 0 fs) := by
    have hmark := directoryMark_prefix hne 0
    have hsome : 0 < (parts 0 fs).2.length :=
      Nat.lt_of_lt_of_le (by decide) hmark.length_le
    have hcounted : fs.length ≠ 0 := mt List.length_eq_zero_iff.mp hne
    have hleading : leading? (container fs) ((parts 0 fs).1.length + (parts 0 fs).2.length)
        ⟨0, 0, fs.length, fs.length, (parts 0 fs).1.length, 0⟩ = some 0 :=
      leading?_eq hcounted (Nat.lt_add_of_pos_right hsome)
        (isMarked_of_stands (hmark.trans hplaces) (by decide))
    unfold at?
    rw [hread]
    simp [hleading, hplaced]
  refine below?_eq (by omega) hlast fun pos hpos hbelow ↦ ?_
  unfold at?
  rw [read?_eq_none (by omega)]
  rfl

/-! ## Files -/

/-- A container in which every name of a file leads to the file, and no other name to anything. -/
def Holds (data : ByteArray) (files : List (String × ByteArray)) : Prop :=
  ∃ zip, ofBytes? data = some zip ∧
    ∀ name, (zip.find? name).map (content? data) = (files.lookup name).map some

variable {deflate : ByteArray → ByteArray} {files : List (String × ByteArray)}

/-- A file with its content deflated in a given way. -/
def packWith (deflate : ByteArray → ByteArray) (file : String × ByteArray) : PackedFile :=
  ⟨file.1.toUTF8.toList, file.2, deflate file.2⟩

/-- The container of some files, deflated in a given way. -/
def writeWith (deflate : ByteArray → ByteArray) (files : List (String × ByteArray)) : ByteArray :=
  container (files.map (packWith deflate))

theorem write_eq_writeWith (files : List (String × ByteArray)) :
    write files = writeWith Deflate.deflate files := by
  have hcount : (files.map (packWith Deflate.deflate)).length = files.length := List.length_map ..
  rw [writeWith, container, hcount]
  rfl

theorem toList_toUTF8_inj {s t : String} : s.toUTF8.toList = t.toUTF8.toList ↔ s = t := by
  rw [SheetPackages.ByteArray.toList_eq, SheetPackages.ByteArray.toList_eq, Array.toList_inj]
  exact ⟨fun h ↦ String.toByteArray_inj.mp (ByteArray.ext h), fun h ↦ h ▸ rfl⟩

theorem length_toList_toUTF8 (s : String) : s.toUTF8.toList.length = s.toUTF8.size := by
  rw [SheetPackages.ByteArray.toList_eq]
  rfl

theorem find?_places {offset : Nat} (hdistinct : (files.map Prod.fst).Nodup)
    (hentries : Stands data offset (parts offset (files.map (packWith deflate))).1)
    (hinflates : ∀ file ∈ files, Inflate.inflate? (deflate file.2) = some file.2) (name : String) :
    (find? (places offset (files.map (packWith deflate))) name).map (content? data) =
      (files.lookup name).map some := by
  induction files generalizing offset with
  | nil => rfl
  | cons file rest ih =>
    obtain ⟨hnew, hdistinct⟩ := List.nodup_cons.mp hdistinct
    obtain ⟨hfile, hmore⟩ := List.forall_mem_cons.mp hinflates
    obtain ⟨hentry, hentries⟩ := stands_append_iff.mp hentries
    have hrest := ih hdistinct hentries hmore
    have hcontent : content? data ((packWith deflate file).placed offset) = some file.2 :=
      content?_placed hentry hfile
    have hfind : find? (places offset ((file :: rest).map (packWith deflate))) name =
        (find? (places (offset + (packWith deflate file).entryBytes.length)
          (rest.map (packWith deflate))) name).or
            (if file.1 = name then some ((packWith deflate file).placed offset) else none) := by
      rw [find?, List.map_cons, places, List.reverse_cons, List.find?_append, List.find?_singleton]
      simp only [placed, packWith, beq_iff_eq, toList_toUTF8_inj]
      rfl
    by_cases hname : file.1 = name
    · subst hname
      have hnone : rest.lookup file.1 = none :=
        Option.eq_none_iff_forall_ne_some.mpr fun _ h ↦ hnew (OrderedMap.mem_keys_of_lookup h)
      rw [hnone, Option.map_none, Option.map_eq_none_iff] at hrest
      rw [hfind, hrest, Option.none_or, if_pos rfl, Option.map_some, hcontent,
        List.lookup_cons_self, Option.map_some]
    · have hother : (name == file.1) = false := beq_false_of_ne (Ne.symm hname)
      rw [hfind, if_neg hname, Option.or_none, hrest, List.lookup_cons, hother]

/-- What is written holds the files, where their number, the lengths of their names and the size of
the container fit their fields, and the deflated data inflates again. -/
theorem holds_writeWith (hne : files ≠ []) (hdistinct : (files.map Prod.fst).Nodup)
    (hnames : ∀ file ∈ files, file.1.toUTF8.size < 256 ^ 2) (hcount : files.length < 256 ^ 2)
    (hsize : (writeWith deflate files).size < 256 ^ 4)
    (hinflates : ∀ file ∈ files, Inflate.inflate? (deflate file.2) = some file.2) :
    Holds (writeWith deflate files) files := by
  have hlengths : ∀ f ∈ files.map (packWith deflate), f.name.length < 256 ^ 2 := by
    rw [List.forall_mem_map]
    intro file hfile
    exact (length_toList_toUTF8 file.1).symm ▸ hnames file hfile
  have hplaces := ofBytes?_container (by simpa using hne) hlengths (by simpa using hcount) hsize
  refine ⟨_, hplaces, find?_places hdistinct ?_ hinflates⟩
  exact (List.prefix_append ..).trans (List.prefix_append ..)

/-! ## Data that is kept as it is -/

open Inflate (bit? bits?)

theorem bits?_eq {n count : Nat}
    (h : ∀ i < count, bit? data (pos + i) = some (n.testBit i).toNat) (hn : n < 2 ^ count) :
    bits? data pos count = some (n, pos + count) := by
  induction count generalizing n pos with
  | zero =>
    rw [Nat.pow_zero, Nat.lt_one_iff] at hn
    rw [hn]
    rfl
  | succ count ih =>
    have hlow : bit? data pos = some (n % 2) := by
      rw [← Nat.add_zero pos, h 0 (Nat.succ_pos count), Nat.toNat_testBit, Nat.pow_zero,
        Nat.div_one]
    have hhigh : ∀ i < count, bit? data (pos + 1 + i) = some ((n / 2).testBit i).toNat := by
      intro i hi
      rw [Nat.add_assoc, Nat.add_comm 1, h (i + 1) (Nat.succ_lt_succ hi), Nat.testBit_succ]
    have hrest := ih hhigh (by omega)
    rw [bits?, hlow]
    simp [hrest, Nat.mod_add_div, Nat.add_assoc, Nat.add_comm 1]

theorem bit?_of_stands {n count i : Nat} (h : Stands data pos (bytesOf n count))
    (hi : i < 8 * count) : bit? data (8 * pos + i) = some (n.testBit i).toNat := by
  induction count generalizing n pos i with
  | zero => cases hi
  | succ count ih =>
    obtain ⟨-, hrest⟩ := (stands_append_iff (s := [UInt8.ofNat n])).mp h
    by_cases hfirst : i < 8
    · have hplace : (8 * pos + i) / 8 = pos := by omega
      have hbit : (8 * pos + i) % 8 = i := by omega
      rw [bit?, hplace, hbit, getElem?_of_stands h, Option.map_some, UInt8.toNat_ofNat']
      rw [Nat.testBit_mod_two_pow n 8 i]
      simp [hfirst]
    · have hmore := ih hrest (i := i - 8) (by omega)
      have hplace : 8 * (pos + [UInt8.ofNat n].length) + (i - 8) = 8 * pos + i := by
        rw [List.length_singleton]
        omega
      have hshift : (n / 256).testBit (i - 8) = n.testBit i := by
        have hdiv : (n / 2 ^ 8).testBit (i - 8) = n.testBit (i - 8 + 8) :=
          Nat.testBit_div_two_pow n (i - 8)
        rwa [Nat.sub_add_cancel (by omega)] at hdiv
      rwa [hplace, hshift] at hmore

theorem bits?_of_stands {n count : Nat} (h : Stands data pos (bytesOf n count))
    (hn : n < 2 ^ (8 * count)) :
    bits? data (8 * pos) (8 * count) = some (n, 8 * (pos + count)) := by
  rw [bits?_eq (fun i hi ↦ bit?_of_stands h hi) hn, Nat.mul_add]

/-- Data in one block of bytes as they are. -/
def plain (content : ByteArray) : ByteArray :=
  ⟨(bytesOf 1 1 ++ bytesOf content.size 2 ++ bytesOf (0xFFFF - content.size) 2 ++
    content.data.toList).toArray⟩

theorem size_plain (content : ByteArray) : (plain content).size = 5 + content.size := by
  have hlength : (plain content).size = (bytesOf 1 1 ++ bytesOf content.size 2 ++
    bytesOf (0xFFFF - content.size) 2 ++ content.data.toList).length := rfl
  simp only [hlength, List.length_append, length_bytesOf]
  rfl

theorem inflate?_plain {content : ByteArray} (h : content.size < 2 ^ 16) :
    Inflate.inflate? (plain content) = some content := by
  have hstands : Stands (plain content) 0 (bytesOf 1 1 ++ bytesOf content.size 2 ++
      bytesOf (0xFFFF - content.size) 2 ++ content.data.toList) := List.prefix_rfl
  simp only [stands_append_iff, List.length_append, length_bytesOf, Nat.zero_add, Nat.reduceAdd,
    and_assoc] at hstands
  obtain ⟨hheader, hlength, hcheck, hbytes⟩ := hstands
  have hkind : bits? (plain content) 0 3 = some (1, 3) :=
    bits?_eq (fun i hi ↦ bit?_of_stands hheader (by omega)) (by decide)
  have hcount : bits? (plain content) 8 16 = some (content.size, 24) := bits?_of_stands hlength h
  have hcomplement : bits? (plain content) 24 16 = some (0xFFFF - content.size, 40) :=
    bits?_of_stands hcheck (by omega)
  have hblock : Inflate.readPlain (plain content) 3 .empty =
      some (content, 40 + 8 * content.size) := by
    have hsum : content.size + (0xFFFF - content.size) = 0xFFFF := by omega
    have hkept : (plain content).extract 5 (5 + content.size) = content :=
      ByteArray.ext (Array.toList_inj.mp (toList_extract_of_stands hbytes))
    unfold Inflate.readPlain
    simp [hcount, hcomplement, hsum, size_plain, hkept]
  unfold Inflate.inflate?
  unfold Inflate.readBlocks
  simp [hkind, Inflate.readBlock, hblock]

theorem size_writeWith_plain (files : List (String × ByteArray)) :
    (writeWith plain files).size =
      (files.map fun file ↦ 81 + 2 * file.1.toUTF8.size + file.2.size).sum + 22 := by
  have hfile (file : String × ByteArray) : 76 + 2 * (packWith plain file).name.length +
      (packWith plain file).packed.size = 81 + 2 * file.1.toUTF8.size + file.2.size := by
    have hname : (packWith plain file).name.length = file.1.toUTF8.size := length_toList_toUTF8 _
    have hpacked : (packWith plain file).packed.size = 5 + file.2.size := size_plain _
    omega
  rw [writeWith, size_container, length_parts, List.map_map]
  simp only [Function.comp_def, hfile]

end SheetPackages.Archive.Zip
