import MegKer.Foundation.Bytes

/-!
# Disk images

The image that `tools/mkfs.py` writes. A path is a list of characters and a file a list of bytes.
`mkfs` returns no image where the program stops with an error: without files, or when a character is
not ASCII (`str.encode`), or when a number does not fit 32 bits (`struct.pack`).

`WrittenImage` says where the parts of an image lie: the superblock at the start, then the directory
entries in the order of the arguments, then the contents of the files, each from the sector that its
entry names. `mkfs_writtenImage` proves it of every image, and `exists_mkfs` that there is one.
-/

set_option autoImplicit false
set_option relaxedAutoImplicit false

namespace MegKer.Fs

open Foundation

/-! ### The program -/

/-- A file on the command line. -/
structure SourceFile where
  path : List Char
  data : List UInt8
  deriving DecidableEq, Repr

/-- `path.split("/")[-1]`. -/
def SourceFile.basename (file : SourceFile) : List Char := (file.path.splitOn '/').getLastD []

/-- The basename cut to 31 characters. -/
def SourceFile.entryName (file : SourceFile) : List Char := file.basename.take (32 - 1)

/-- The number of sectors that a number of bytes takes up. -/
def sectorsFor (size : ℕ) : ℕ := (size + 512 - 1) / 512

/-- A directory entry before it is packed: name, first sector, and size. -/
structure DirRecord where
  name : List Char
  startSector : ℕ
  size : ℕ
  deriving DecidableEq, Repr

/-- The loop that collects the entries. -/
def layout : (cursor : ℕ) → List SourceFile → List DirRecord
  | _, [] => []
  | cursor, file :: files =>
    ⟨file.entryName, cursor, file.data.length⟩ ::
      layout (cursor + sectorsFor file.data.length) files

/-- `name.encode("ascii")`. -/
def encodeAscii : List Char → Option (List UInt8)
  | [] => some []
  | c :: name =>
    if c.toNat < 128 then (encodeAscii name).map (UInt8.ofNat c.toNat :: ·) else none

/-- `struct.pack("<I", n)`. -/
def packU32 (n : ℕ) : Option (List UInt8) := if n < 2 ^ 32 then some (le32 n) else none

/-- The 64 bytes of a directory entry. -/
def packEntry (record : DirRecord) : Option (List UInt8) := do
  let name ← encodeAscii record.name
  let startSector ← packU32 record.startSector
  let size ← packU32 record.size
  return ljust 64 (ljust 32 name ++ (startSector ++ size))

/-- The loop over the entries. -/
def packDirectory : List DirRecord → Option (List UInt8)
  | [] => some []
  | record :: records => do
    let entry ← packEntry record
    let rest ← packDirectory records
    return entry ++ rest

/-- The loop over the contents: each file is padded to a sector boundary. -/
def packBlobs : List SourceFile → List UInt8
  | [] => []
  | file :: files =>
    file.data ++ zeros ((512 - file.data.length % 512) % 512) ++ packBlobs files

/-- The first data sector. -/
def dataStart (files : List SourceFile) : ℕ := 1 + sectorsFor (files.length * 64)

/-- `main`: the bytes of the image. -/
def mkfs (files : List SourceFile) : Option (List UInt8) :=
  if files.isEmpty then none
  else do
    let magic ← packU32 0x4D4B4653
    let fileCount ← packU32 files.length
    let dirStart ← packU32 1
    let dataStartField ← packU32 (dataStart files)
    let superblock := magic ++ (fileCount ++ (dirStart ++ dataStartField))
    let dirBytes ← packDirectory (layout (dataStart files) files)
    return ljust 512 superblock ++
      (ljust (sectorsFor (files.length * 64) * 512) dirBytes ++ packBlobs files)

/-! ### Names -/

/-- The name of a file as its bytes on the disk. -/
def SourceFile.diskName (file : SourceFile) : List UInt8 :=
  file.entryName.map fun c ↦ UInt8.ofNat c.toNat

/-- The characters are ASCII and none is NUL. -/
def NulFreeAscii (name : List Char) : Prop := ∀ c ∈ name, 0 < c.toNat ∧ c.toNat < 128

instance (name : List Char) : Decidable (NulFreeAscii name) :=
  List.decidableBAll _ name

theorem encodeAscii_eq {name : List Char} {bytes : List UInt8}
    (h : encodeAscii name = some bytes) : bytes = name.map fun c ↦ UInt8.ofNat c.toNat := by
  induction name generalizing bytes with
  | nil => exact (Option.some.inj h).symm
  | cons c name ih =>
    rw [encodeAscii] at h
    split_ifs at h
    obtain ⟨rest, hrest, rfl⟩ := Option.map_eq_some_iff.mp h
    rw [ih hrest, List.map_cons]

theorem exists_encodeAscii {name : List Char} (h : ∀ c ∈ name, c.toNat < 128) :
    ∃ bytes, encodeAscii name = some bytes := by
  induction name with
  | nil => exact ⟨[], rfl⟩
  | cons c name ih =>
    obtain ⟨hc, hrest⟩ := List.forall_mem_cons.mp h
    obtain ⟨bytes, hbytes⟩ := ih hrest
    exact ⟨_, by rw [encodeAscii, if_pos hc, hbytes, Option.map_some]⟩

theorem SourceFile.length_diskName_lt (file : SourceFile) : file.diskName.length < 32 := by
  rw [diskName, List.length_map, entryName, List.length_take]
  omega

theorem SourceFile.nulFree_diskName {file : SourceFile} (h : NulFreeAscii file.basename) :
    ∀ b ∈ file.diskName, b ≠ 0 := by
  intro b hb
  obtain ⟨c, hc, rfl⟩ := List.mem_map.mp hb
  obtain ⟨hpos, hlt⟩ := h c (List.mem_of_mem_take hc)
  intro hzero
  have hvalue := congrArg UInt8.toNat hzero
  rw [UInt8.toNat_ofNat', UInt8.toNat_zero, Nat.mod_eq_of_lt (by omega)] at hvalue
  omega

/-! ### The parts of an image -/

theorem packU32_eq_some {n : ℕ} {bytes : List UInt8} :
    packU32 n = some bytes ↔ n < 2 ^ 32 ∧ bytes = le32 n := by
  unfold packU32
  split_ifs with hn
  · rw [Option.some.injEq, eq_comm]
    exact (and_iff_right hn).symm
  · exact iff_of_false not_false fun h ↦ hn h.1

/-- A packed entry: the name, filled up with zeros, then the two numbers. -/
theorem packEntry_eq_some {record : DirRecord} {entry : List UInt8}
    (h : packEntry record = some entry) :
    record.startSector < 2 ^ 32 ∧ record.size < 2 ^ 32 ∧
      entry = ljust 64 (ljust 32 (record.name.map fun c ↦ UInt8.ofNat c.toNat) ++
        (le32 record.startSector ++ le32 record.size)) := by
  obtain ⟨name, hname, h⟩ := Option.bind_eq_some_iff.mp h
  obtain ⟨startSector, hstart, h⟩ := Option.bind_eq_some_iff.mp h
  obtain ⟨size, hsize, h⟩ := Option.bind_eq_some_iff.mp h
  obtain ⟨hstartLt, rfl⟩ := packU32_eq_some.mp hstart
  obtain ⟨hsizeLt, rfl⟩ := packU32_eq_some.mp hsize
  rw [encodeAscii_eq hname] at h
  exact ⟨hstartLt, hsizeLt, (Option.some.inj h).symm⟩

/-- The bytes of the entry of a file that starts at a sector. -/
def SourceFile.entryBytes (file : SourceFile) (startSector : ℕ) : List UInt8 :=
  ljust 64 (ljust 32 file.diskName ++ (le32 startSector ++ le32 file.data.length))

theorem SourceFile.length_entryBytes (file : SourceFile) (startSector : ℕ) :
    (file.entryBytes startSector).length = 64 := by
  have hname := length_ljust (Nat.le_of_lt file.length_diskName_lt)
  refine length_ljust ?_
  simp only [List.length_append, hname, length_le32]
  omega

/-- The sector at which the contents of the file of the given number start. -/
def startFrom (cursor : ℕ) (files : List SourceFile) (i : ℕ) : ℕ :=
  cursor + ((files.take i).map fun file ↦ sectorsFor file.data.length).sum

theorem startFrom_cons_succ (cursor : ℕ) (file : SourceFile) (files : List SourceFile) (i : ℕ) :
    startFrom cursor (file :: files) (i + 1) =
      startFrom (cursor + sectorsFor file.data.length) files i := by
  simp only [startFrom, List.take_succ_cons, List.map_cons, List.sum_cons]
  omega

/-- The directory of a list of files: the entries lie one after the other, and every first sector
fits 32 bits. -/
theorem sitsAt_packDirectory {image : List UInt8} (files : List SourceFile) :
    ∀ {cursor offset : ℕ} {bytes : List UInt8},
      packDirectory (layout cursor files) = some bytes → SitsAt image offset bytes →
        bytes.length = 64 * files.length ∧
        ∀ i file, files[i]? = some file → startFrom cursor files i < 2 ^ 32 ∧
          SitsAt image (offset + 64 * i) (file.entryBytes (startFrom cursor files i)) := by
  induction files with
  | nil =>
    intro cursor offset bytes hpack _
    exact ⟨by rw [← Option.some.inj hpack]; rfl, fun i file hfile ↦ absurd hfile (by simp)⟩
  | cons first files ih =>
    intro cursor offset bytes hpack hsits
    obtain ⟨entry, hentry, hpack⟩ := Option.bind_eq_some_iff.mp hpack
    obtain ⟨rest, hrest, hpack⟩ := Option.bind_eq_some_iff.mp hpack
    obtain rfl : entry ++ rest = bytes := Option.some.inj hpack
    obtain ⟨hstart, -, hbytes⟩ := packEntry_eq_some hentry
    have hentryBytes : entry = first.entryBytes cursor := hbytes
    have hlength : entry.length = 64 := by
      rw [hentryBytes]
      exact first.length_entryBytes cursor
    have hsitsRest := hsits.right
    rw [hlength] at hsitsRest
    obtain ⟨hrestLength, hrestEntries⟩ := ih hrest hsitsRest
    refine ⟨?_, fun i file hfile ↦ ?_⟩
    · rw [List.length_append, hlength, hrestLength, List.length_cons]
      omega
    · cases i with
      | zero =>
        obtain rfl : first = file := by simpa using hfile
        have hzero : startFrom cursor (first :: files) 0 = cursor := by simp [startFrom]
        rw [hzero, Nat.mul_zero, Nat.add_zero, ← hentryBytes]
        exact ⟨hstart, hsits.left⟩
      | succ i =>
        have htail := hrestEntries i file (by simpa using hfile)
        rw [startFrom_cons_succ]
        have hoffset : offset + 64 * (i + 1) = offset + 64 + 64 * i := by omega
        rw [hoffset]
        exact htail

/-- A file and its padding fill whole sectors. -/
theorem length_padded (size : ℕ) : size + (512 - size % 512) % 512 = 512 * sectorsFor size := by
  unfold sectorsFor
  omega

/-- The contents of a list of files: each lies at its first sector. -/
theorem sitsAt_packBlobs {image : List UInt8} (files : List SourceFile) :
    ∀ {cursor : ℕ}, SitsAt image (512 * cursor) (packBlobs files) →
      (packBlobs files).length =
        512 * (files.map fun file ↦ sectorsFor file.data.length).sum ∧
      ∀ i file, files[i]? = some file →
        SitsAt image (512 * startFrom cursor files i)
          (file.data ++ zeros ((512 - file.data.length % 512) % 512)) := by
  induction files with
  | nil => exact fun _ ↦ ⟨rfl, fun i file hfile ↦ absurd hfile (by simp)⟩
  | cons first files ih =>
    intro cursor hsits
    have hlength : (first.data ++ zeros ((512 - first.data.length % 512) % 512)).length =
        512 * sectorsFor first.data.length := by
      rw [List.length_append, length_zeros, length_padded]
    have hsitsRest := SitsAt.right hsits
    rw [hlength, ← Nat.mul_add] at hsitsRest
    obtain ⟨hrestLength, hrest⟩ := ih hsitsRest
    refine ⟨?_, fun i file hfile ↦ ?_⟩
    · rw [packBlobs, List.length_append, hlength, hrestLength, List.map_cons, List.sum_cons,
        Nat.mul_add]
    · cases i with
      | zero =>
        obtain rfl : first = file := by simpa using hfile
        have hzero : startFrom cursor (first :: files) 0 = cursor := by simp [startFrom]
        rw [hzero]
        exact SitsAt.left hsits
      | succ i =>
        rw [startFrom_cons_succ]
        exact hrest i file (by simpa using hfile)

/-! ### Images -/

/-- The number of sectors of the image of a list of files. -/
def imageSectors (files : List SourceFile) : ℕ :=
  dataStart files + (files.map fun file ↦ sectorsFor file.data.length).sum

/-- Where the parts of an image lie. -/
structure WrittenImage (files : List SourceFile) (image : List UInt8) : Prop where
  count_lt : files.length < 2 ^ 32
  dataStart_lt : dataStart files < 2 ^ 32
  length_eq : image.length = 512 * imageSectors files
  superblock : SitsAt image 0
    (le32 0x4D4B4653 ++ (le32 files.length ++ (le32 1 ++ le32 (dataStart files))))
  entry : ∀ i file, files[i]? = some file → startFrom (dataStart files) files i < 2 ^ 32 ∧
    SitsAt image (512 + 64 * i) (file.entryBytes (startFrom (dataStart files) files i))
  data : ∀ i file, files[i]? = some file →
    SitsAt image (512 * startFrom (dataStart files) files i)
      (file.data ++ zeros ((512 - file.data.length % 512) % 512))

/-- Every image that is written has its parts in their places. -/
theorem mkfs_writtenImage {files : List SourceFile} {image : List UInt8}
    (h : mkfs files = some image) : WrittenImage files image := by
  unfold mkfs at h
  split_ifs at h
  obtain ⟨magic, hmagic, h⟩ := Option.bind_eq_some_iff.mp h
  obtain ⟨fileCount, hcount, h⟩ := Option.bind_eq_some_iff.mp h
  obtain ⟨dirStart, hdir, h⟩ := Option.bind_eq_some_iff.mp h
  obtain ⟨dataField, hdata, h⟩ := Option.bind_eq_some_iff.mp h
  obtain ⟨dirBytes, hpack, h⟩ := Option.bind_eq_some_iff.mp h
  obtain ⟨-, rfl⟩ := packU32_eq_some.mp hmagic
  obtain ⟨hcountLt, rfl⟩ := packU32_eq_some.mp hcount
  obtain ⟨-, rfl⟩ := packU32_eq_some.mp hdir
  obtain ⟨hdataLt, rfl⟩ := packU32_eq_some.mp hdata
  obtain rfl := Option.some.inj h
  have hwhole := SitsAt.whole (ljust 512 (le32 0x4D4B4653 ++ (le32 files.length ++ (le32 1 ++
    le32 (dataStart files)))) ++ (ljust (sectorsFor (files.length * 64) * 512) dirBytes ++
      packBlobs files))
  have hsuper : (ljust 512 (le32 0x4D4B4653 ++ (le32 files.length ++ (le32 1 ++
      le32 (dataStart files))))).length = 512 := length_ljust (by simp)
  have hbehind := hwhole.right
  rw [hsuper, Nat.zero_add] at hbehind
  obtain ⟨hdirLength, hentries⟩ := sitsAt_packDirectory files hpack hbehind.left.left
  have hdirPadded : (ljust (sectorsFor (files.length * 64) * 512) dirBytes).length =
      sectorsFor (files.length * 64) * 512 := by
    refine length_ljust ?_
    rw [hdirLength, sectorsFor]
    omega
  have hblobs := hbehind.right
  have hoffset : 512 + sectorsFor (files.length * 64) * 512 = 512 * dataStart files := by
    rw [dataStart]
    omega
  rw [hdirPadded, hoffset] at hblobs
  obtain ⟨hblobsLength, hdataSits⟩ := sitsAt_packBlobs files hblobs
  refine ⟨hcountLt, hdataLt, ?_, hwhole.left.left, hentries, hdataSits⟩
  rw [List.length_append, List.length_append, hsuper, hdirPadded, hblobsLength, ← Nat.add_assoc,
    hoffset, imageSectors, Nat.mul_add]

theorem exists_packDirectory (files : List SourceFile) :
    ∀ {cursor : ℕ}, (∀ file ∈ files, NulFreeAscii file.basename ∧ file.data.length < 2 ^ 32) →
      cursor + (files.map fun file ↦ sectorsFor file.data.length).sum < 2 ^ 32 →
        ∃ bytes, packDirectory (layout cursor files) = some bytes := by
  induction files with
  | nil => exact fun _ _ ↦ ⟨[], rfl⟩
  | cons file files ih =>
    intro cursor hfiles hcursor
    obtain ⟨⟨hname, hsize⟩, hrest⟩ := List.forall_mem_cons.mp hfiles
    rw [List.map_cons, List.sum_cons, ← Nat.add_assoc] at hcursor
    obtain ⟨bytes, hbytes⟩ := ih hrest hcursor
    obtain ⟨name, hencode⟩ : ∃ bytes, encodeAscii file.entryName = some bytes :=
      exists_encodeAscii fun c hc ↦ (hname c (List.mem_of_mem_take hc)).2
    have hstart : packU32 cursor = some (le32 cursor) := if_pos (by omega)
    have hlength : packU32 file.data.length = some (le32 file.data.length) := if_pos hsize
    refine ⟨ljust 64 (ljust 32 name ++ (le32 cursor ++ le32 file.data.length)) ++ bytes, ?_⟩
    simp only [layout, packDirectory, packEntry, hencode, hstart, hlength, hbytes,
      Option.bind_eq_bind, Option.bind_some, Option.pure_def]

/-- An image is written, when the number of files fits 32 bits and the image has fewer than `2 ^ 32`
sectors. -/
theorem exists_mkfs {files : List SourceFile} (hne : files ≠ []) (hcount : files.length < 2 ^ 32)
    (hfiles : ∀ file ∈ files, NulFreeAscii file.basename ∧ file.data.length < 2 ^ 32)
    (hfits : imageSectors files < 2 ^ 32) : ∃ image, mkfs files = some image := by
  have hdata : dataStart files < 2 ^ 32 := lt_of_le_of_lt (Nat.le_add_right _ _) hfits
  obtain ⟨bytes, hbytes⟩ := exists_packDirectory files hfiles hfits
  have hpack : ∀ {n : ℕ}, n < 2 ^ 32 → packU32 n = some (le32 n) := fun hn ↦ if_pos hn
  have hempty : files.isEmpty = false := by simpa using hne
  unfold mkfs
  simp only [hempty, hpack hcount, hpack hdata, hpack (show 0x4D4B4653 < 2 ^ 32 by decide),
    hpack (show 1 < 2 ^ 32 by decide), hbytes, Option.bind_eq_bind, Option.bind_some,
    Option.pure_def, Bool.false_eq_true, if_false]
  exact ⟨_, rfl⟩

end MegKer.Fs
