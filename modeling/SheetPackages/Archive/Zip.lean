import SheetPackages.Archive.Deflate
import SheetPackages.Digest.Crc32

/-!
# Zip containers

A container is a sequence of entries, each a header with the data of a file behind it, a directory
of the entries, and an end record that tells where the directory is. It is read from the end: the
last end record with a sound directory counts, so anything may stand before and behind the
container. Entries are stored as they are or deflated; containers are written with deflated entries.
-/

namespace SheetPackages.Archive

/-- One file in a container. -/
structure ZipEntry where
  name : List UInt8
  flags : Nat
  method : Nat
  crc : UInt32
  /-- The size of the data as it is kept. -/
  size : Nat
  /-- Where the data begins. -/
  start : Nat

abbrev Zip := List ZipEntry

namespace Zip

/-! ## Reading -/

/-- The number in `count` bytes, lowest byte first. -/
def number? (data : ByteArray) (pos : Nat) : Nat → Option Nat
  | 0 => some 0
  | count + 1 => do
    let low ← data[pos]?
    return low.toNat + 256 * (← number? data (pos + 1) count)

/-- The marks at the beginning of an entry, of its place in the directory, and of the end record. -/
def entryMark : Nat := 0x04034b50
def directoryMark : Nat := 0x02014b50
def endMark : Nat := 0x06054b50

def isMarked (data : ByteArray) (pos mark : Nat) : Bool :=
  number? data pos 4 == some mark

/-- What an end record tells. -/
structure EndRecord where
  disk : Nat
  directoryDisk : Nat
  entries : Nat
  allEntries : Nat
  /-- Where the directory begins, counted from the beginning of the container. -/
  directory : Nat
  comment : Nat

def EndRecord.read? (data : ByteArray) (pos : Nat) : Option EndRecord := do
  if !isMarked data pos endMark then none
  let e : EndRecord := {
    disk := ← number? data (pos + 4) 2
    directoryDisk := ← number? data (pos + 6) 2
    entries := ← number? data (pos + 8) 2
    allEntries := ← number? data (pos + 10) 2
    directory := ← number? data (pos + 16) 4
    comment := ← number? data (pos + 20) 2 }
  if data.size < pos + 22 + e.comment then none
  return e

/-- The first position from `start` on, and below `stop`, with a mark. -/
def findMark (data : ByteArray) (mark stop start : Nat) : Option Nat :=
  if _h : start < stop then
    if isMarked data start mark then some start else findMark data mark stop (start + 1)
  else none
termination_by stop - start

/-- How many bytes stand before the container whose end record is at `pos`: the directory is the
first one that begins where the record says or behind that. -/
def leading? (data : ByteArray) (pos : Nat) (e : EndRecord) : Option Nat :=
  if e.allEntries = 0 then some (pos - e.directory)
  else if pos ≤ e.directory then none
  else (findMark data directoryMark pos e.directory).map (· - e.directory)

/-- An entry from its place in the directory, and the next place. -/
def readEntry? (data : ByteArray) (leading directory pos : Nat) : Option (ZipEntry × Nat) := do
  if !isMarked data pos directoryMark then none
  let flags ← number? data (pos + 8) 2
  let method ← number? data (pos + 10) 2
  let crc ← number? data (pos + 16) 4
  let size ← number? data (pos + 20) 4
  let nameLength ← number? data (pos + 28) 2
  let extraLength ← number? data (pos + 30) 2
  let commentLength ← number? data (pos + 32) 2
  let header := leading + (← number? data (pos + 42) 4)
  let next := pos + 46 + nameLength + extraLength + commentLength
  if data.size < next ∨ directory ≤ header ∨ !isMarked data header entryMark then none
  let start := header + 30 + (← number? data (header + 26) 2) + (← number? data (header + 28) 2)
  if directory < start then none
  let name := (data.extract (pos + 46) (pos + 46 + nameLength)).toList
  return (⟨name, flags, method, UInt32.ofNat crc, size, start⟩, next)

def readEntries? (data : ByteArray) (leading directory : Nat) (pos : Nat) : Nat → Option Zip
  | 0 => some []
  | count + 1 => do
    let (entry, pos) ← readEntry? data leading directory pos
    return entry :: (← readEntries? data leading directory pos count)

/-- The container whose end record is at a position. -/
def at? (data : ByteArray) (pos : Nat) : Option Zip := do
  let e ← EndRecord.read? data pos
  let leading ← leading? data pos e
  if e.disk ≠ e.directoryDisk then none
  let directory := leading + e.directory
  readEntries? data leading directory directory e.entries

/-- The container with the last end record below a position. -/
def below? (data : ByteArray) : Nat → Option Zip
  | 0 => none
  | pos + 1 => (at? data pos).or (below? data pos)

def ofBytes? (data : ByteArray) : Option Zip :=
  below? data data.size

/-- The last entry of a name. -/
def find? (z : Zip) (name : String) : Option ZipEntry :=
  z.reverse.find? (·.name == name.toUTF8.toList)

/-- The file in an entry; its checksum must be right. -/
def content? (data : ByteArray) (e : ZipEntry) : Option ByteArray := do
  if e.flags % 2 = 1 then none
  let kept := data.extract e.start (e.start + e.size)
  let content ← match e.method with
    | 0 => some kept
    | 8 => Inflate.inflate? kept
    | _ => none
  if Digest.crc32 content = e.crc then some content else none

/-! ## Writing -/

/-- A number in `count` bytes, lowest byte first. -/
def bytesOf (n : Nat) : Nat → List UInt8
  | 0 => []
  | count + 1 => UInt8.ofNat n :: bytesOf (n / 256) count

/-- A file with its deflated content. -/
structure PackedFile where
  name : List UInt8
  content : ByteArray
  packed : ByteArray

def PackedFile.ofFile (name : String) (content : ByteArray) : PackedFile :=
  ⟨name.toUTF8.toList, content, Deflate.deflate content⟩

namespace PackedFile

/-- The version, flags, method, date, checksum and sizes of a file, as headers give them. Files have
the first date that can be written. -/
def description (f : PackedFile) : List UInt8 :=
  bytesOf 20 2 ++ bytesOf 0 2 ++ bytesOf 8 2 ++ bytesOf 0 2 ++ bytesOf 0x21 2 ++
    bytesOf (Digest.crc32 f.content).toNat 4 ++ bytesOf f.packed.size 4 ++
    bytesOf f.content.size 4 ++ bytesOf f.name.length 2 ++ bytesOf 0 2

def entryBytes (f : PackedFile) : List UInt8 :=
  bytesOf entryMark 4 ++ f.description ++ f.name ++ f.packed.toList

/-- The place of a file in the directory. A file may be read by all and written by its owner. -/
def directoryBytes (f : PackedFile) (offset : Nat) : List UInt8 :=
  bytesOf directoryMark 4 ++ bytesOf 0x0314 2 ++ f.description ++ bytesOf 0 6 ++
    bytesOf (0o100644 * 65536) 4 ++ bytesOf offset 4 ++ f.name

end PackedFile

/-- The entries and the directory of some files, the first entry standing at `offset`. -/
def parts (offset : Nat) : List PackedFile → List UInt8 × List UInt8
  | [] => ([], [])
  | f :: rest =>
    let entry := f.entryBytes
    let (entries, directory) := parts (offset + entry.length) rest
    (entry ++ entries, f.directoryBytes offset ++ directory)

/-- The container of some files. -/
def write (files : List (String × ByteArray)) : ByteArray :=
  let (entries, directory) := parts 0 (files.map fun (name, content) ↦ .ofFile name content)
  let finish := bytesOf endMark 4 ++ bytesOf 0 4 ++ bytesOf files.length 2 ++
    bytesOf files.length 2 ++ bytesOf directory.length 4 ++ bytesOf entries.length 4 ++ bytesOf 0 2
  ⟨(entries ++ directory ++ finish).toArray⟩

end Zip

end SheetPackages.Archive
