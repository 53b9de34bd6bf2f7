import MegKer.Fs.DiskImage
import MegKer.Fs.Vfs

/-!
# Images are read back

What `tools/mkfs.py` writes, `fs/vfs.c` reads: on a disk with the image of a list of files, looking up
a name finds the first file of that name, and delivers as much of it as the buffer holds.

The abstract filesystem is the list of files itself: `lookup` is the search by name, and `answer` the
outcome of reading what was found. The search of the directory follows the list eight files at a time
(`searchDirectory_eq_answer`), each sector of the directory showing the next eight entries
(`showsEntries`).
-/

set_option autoImplicit false
set_option relaxedAutoImplicit false

namespace MegKer.Fs

open Foundation

/-! ### The abstract filesystem -/

/-- The first file of a name. -/
def lookup (files : List SourceFile) (name : CString) : Option SourceFile :=
  files.find? fun file ↦ file.diskName == name.bytes

/-- The outcome of reading a file into a buffer, with the sectors read. -/
def answer (found : Option SourceFile) (buf : ℕ → UInt8) (bufSize : ℕ) (reads : List ℕ) : Outcome :=
  match found with
  | some file =>
    { result := true
      buf := fun i ↦ if i < min file.data.length bufSize then file.data.getD i 0 else buf i
      outSize := some file.data.length
      reads := reads }
  | none => { result := false, buf := buf, outSize := none, reads := reads }

theorem lookup_append (first second : List SourceFile) (name : CString) :
    lookup (first ++ second) name = (lookup first name).or (lookup second name) :=
  List.find?_append

/-- Searching by number and searching in the list is the same. -/
theorem bind_find?_range {α : Type} (xs : List α) :
    ∀ {p : ℕ → Bool} {q : α → Bool}, (∀ i x, xs[i]? = some x → p i = q x) →
      ((List.range xs.length).find? p).bind (xs[·]?) = xs.find? q := by
  induction xs with
  | nil => exact fun _ ↦ rfl
  | cons x xs ih =>
    intro p q h
    have hhead : p 0 = q x := h 0 x rfl
    rw [List.length_cons, List.range_succ_eq_map, List.find?_cons, List.find?_cons, hhead]
    cases q x with
    | true => rfl
    | false =>
      have htail := ih (p := p ∘ Nat.succ) (q := q) fun i y hy ↦ h (i + 1) y hy
      rw [List.find?_map, ← htail]
      cases (List.range xs.length).find? (p ∘ Nat.succ) <;> rfl

/-! ### The disk of an image -/

/-- The disk whose sectors are those of an image. -/
def diskOf (image : List UInt8) : Disk where
  available := true
  readSector := fun lba ↦
    if 512 * lba + 512 ≤ image.length then some fun i ↦ image.getD (512 * lba + i) 0 else none

/-- A sector inside the image, as it lies in a buffer. -/
theorem readSector_diskOf {image : List UInt8} {lba : ℕ} (hlba : 512 * lba + 512 ≤ image.length) :
    ∃ sector, (diskOf image).readSector lba = some sector ∧
      ∀ (stack : ℕ → UInt8) (i : ℕ), i < 512 →
        sector.onStack stack i = image.getD (512 * lba + i) 0 :=
  ⟨_, if_pos hlba, fun stack _ hi ↦ Sector.onStack_of_lt _ stack hi⟩

variable {files : List SourceFile} {image : List UInt8}

theorem WrittenImage.dataStart_le (h : WrittenImage files image) :
    512 * dataStart files ≤ image.length := by
  rw [h.length_eq, imageSectors]
  omega

/-- `vfs_init` finds the superblock. -/
theorem vfsInit_diskOf (h : WrittenImage files image) (stack : ℕ → UInt8) (vfs : Vfs) :
    vfsInit (diskOf image) stack vfs =
      (⟨true, ⟨mkfsMagic, files.length, 1, dataStart files⟩⟩, [0]) := by
  have hfirst : 512 * 0 + 512 ≤ image.length := by
    have hdata := h.dataStart_le
    rw [dataStart] at hdata
    omega
  obtain ⟨sector, hsector, hbytes⟩ := readSector_diskOf hfirst
  have hfield : ∀ offset n, offset + 4 ≤ 512 → n < 2 ^ 32 → SitsAt image offset (le32 n) →
      u32At (sector.onStack stack) offset = n := by
    intro offset n hoffset hn hsits
    refine Eq.trans (u32At_congr fun j hj ↦ ?_) (hsits.u32At_eq hn)
    rw [hbytes stack (offset + j) (by omega), Nat.mul_zero, Nat.zero_add]
  have hmagic : u32At (sector.onStack stack) 0 = mkfsMagic :=
    hfield 0 _ (by omega) (by decide) h.superblock.left
  have hcount : u32At (sector.onStack stack) 4 = files.length :=
    hfield 4 _ (by omega) h.count_lt h.superblock.right.left
  have hdir : u32At (sector.onStack stack) 8 = 1 :=
    hfield 8 _ (by omega) (by decide) h.superblock.right.right.left
  have hstart : u32At (sector.onStack stack) 12 = dataStart files :=
    hfield 12 _ (by omega) h.dataStart_lt h.superblock.right.right.right
  have hsuper : superblockAt (sector.onStack stack) =
      ⟨mkfsMagic, files.length, 1, dataStart files⟩ := by
    rw [superblockAt, hmagic, hcount, hdir, hstart]
  unfold vfsInit
  simp only [hsector, hsuper]
  simp [diskOf]

/-- The contents of a file lie on the disk where its entry says. -/
theorem WrittenImage.storedAt (h : WrittenImage files image) (hfits : imageSectors files ≤ 2 ^ 32)
    {i : ℕ} {file : SourceFile} (hfile : files[i]? = some file) :
    StoredAt (diskOf image) (startFrom (dataStart files) files i) file.data := by
  have hsits := h.data i file hfile
  have hend := hsits.le_length
  rw [List.length_append, length_zeros, length_padded, h.length_eq] at hend
  intro s hs
  have hinside : startFrom (dataStart files) files i + s < imageSectors files := by
    have hsectors : s < sectorsFor file.data.length := by
      rw [sectorsFor]
      omega
    omega
  refine ⟨hinside.trans_le hfits, ?_⟩
  refine ⟨_, if_pos (by rw [h.length_eq]; omega), fun b hb hlt ↦ ?_⟩
  have hbyte := hsits.left.getD_eq hlt
  rw [← hbyte]
  change image.getD (512 * (startFrom (dataStart files) files i + s) + b) 0 = _
  congr 1
  omega

/-- A directory sector shows the entries of the next eight files. -/
theorem WrittenImage.showsEntry (h : WrittenImage files image) {k i : ℕ} {file : SourceFile}
    (hi : i < 8) (hfile : files[8 * k + i]? = some file) (hname : NulFreeAscii file.basename)
    {read : ℕ → UInt8} (hread : ∀ j < 512, read j = image.getD (512 * (1 + k) + j) 0)
    (name : CString) (hsize : file.data.length < 2 ^ 32) :
    strEq (direntAt read (i * 64)).name name.bytes = (file.diskName == name.bytes) ∧
      (direntAt read (i * 64)).startSector = startFrom (dataStart files) files (8 * k + i) ∧
      (direntAt read (i * 64)).sizeBytes = file.data.length := by
  obtain ⟨hstart, hsits⟩ := h.entry _ file hfile
  have hoffset : 512 + 64 * (8 * k + i) = 512 * (1 + k) + i * 64 := by omega
  rw [hoffset] at hsits
  have hlength := file.length_diskName_lt
  have hfields := hsits.left
  have hnameLength := length_ljust (Nat.le_of_lt hlength)
  have hbyte : ∀ j < 32, read (i * 64 + j) = (ljust 32 file.diskName).getD j 0 := by
    intro j hj
    rw [hread _ (by omega), ← Nat.add_assoc, hfields.left.getD_eq (by rw [hnameLength]; exact hj)]
  have hnumbers := hfields.right
  rw [hnameLength] at hnumbers
  refine ⟨?_, ?_, ?_⟩
  · have hiff : strEq (direntAt read (i * 64)).name name.bytes = true ↔
        file.diskName = name.bytes := by
      refine strEq_iff name.bytes name.nulFree (file.nulFree_diskName hname) (fun j hj ↦ ?_) ?_
      · change read (i * 64 + j) = _
        rw [hbyte j (by omega), ljust, List.getD_append _ _ _ _ hj]
      · change read (i * 64 + file.diskName.length) = _
        rw [hbyte _ hlength, getD_ljust_length]
    rw [Bool.eq_iff_iff, hiff, beq_iff_eq]
  · refine Eq.trans (u32At_congr fun j hj ↦ ?_) (hnumbers.left.u32At_eq hstart)
    rw [hread _ (by omega)]
    congr 1
    omega
  · refine Eq.trans (u32At_congr fun j hj ↦ ?_) (hnumbers.right.u32At_eq hsize)
    rw [hread _ (by omega), length_le32]
    congr 1
    omega

/-! ### The search -/

section Search

variable (stack : ℕ → UInt8) (name : CString) (buf : ℕ → UInt8) (bufSize : ℕ)

/-- The search of one directory sector: it is decided by the next eight files, or the fewer that
are left. -/
theorem find?_entries (h : WrittenImage files image)
    (hfiles : ∀ file ∈ files, NulFreeAscii file.basename ∧ file.data.length ≤ 2 ^ 32 - 512)
    {k n : ℕ} (hn : n ≤ 8) (hleft : 8 * k + n ≤ files.length) {read : ℕ → UInt8}
    (hread : ∀ j < 512, read j = image.getD (512 * (1 + k) + j) 0) :
    ((List.range n).find? fun i ↦ strEq (direntAt read (i * 64)).name name.bytes).bind
      (((files.drop (8 * k)).take n)[·]?) = lookup ((files.drop (8 * k)).take n) name := by
  have hlength : ((files.drop (8 * k)).take n).length = n := by
    rw [List.length_take, List.length_drop]
    omega
  have hentry : ∀ i file, ((files.drop (8 * k)).take n)[i]? = some file →
      strEq (direntAt read (i * 64)).name name.bytes = (file.diskName == name.bytes) := by
    intro i file hfile
    have hi : i < n := by
      have hlt := (List.getElem?_eq_some_iff.mp hfile).1
      rwa [hlength] at hlt
    rw [List.getElem?_take_of_lt hi, List.getElem?_drop] at hfile
    obtain ⟨hname, hsize⟩ := hfiles file (List.mem_of_getElem? hfile)
    exact (h.showsEntry (hi.trans_le hn) hfile hname hread name (by omega)).1
  have hsearch := bind_find?_range ((files.drop (8 * k)).take n) hentry
  rw [hlength] at hsearch
  exact hsearch

/-- The search from the `k`-th sector of the directory on answers for the files that are left. -/
theorem searchDirectory_eq_answer (h : WrittenImage files image)
    (hfits : imageSectors files ≤ 2 ^ 32)
    (hfiles : ∀ file ∈ files, NulFreeAscii file.basename ∧ file.data.length ≤ 2 ^ 32 - 512)
    (remaining : ℕ) :
    ∀ (k : ℕ) (reads : List ℕ), remaining = files.length - 8 * k →
      ∃ more, searchDirectory (diskOf image) stack name buf bufSize true remaining (1 + k) reads =
          answer (lookup (files.drop (8 * k)) name) buf bufSize (reads ++ more) ∧
        ∀ lba ∈ more, (diskOf image).readSector lba ≠ none := by
  induction remaining using Nat.strong_induction_on with
  | _ remaining ih =>
  intro k reads hremaining
  rw [searchDirectory]
  by_cases hmore : remaining > 0
  · have hdata := h.dataStart_le
    have hdataLt := h.dataStart_lt
    have hsectors : k + 1 ≤ sectorsFor (files.length * 64) := by
      rw [sectorsFor]
      omega
    rw [dataStart] at hdata hdataLt
    obtain ⟨sector, hsector, hbytes⟩ := readSector_diskOf
      (show 512 * (1 + k) + 512 ≤ image.length by omega)
    have hwrap : wrap32 (1 + k + 1) = 1 + (k + 1) := wrap32_of_lt (by omega)
    obtain ⟨n, hn⟩ : ∃ n, n = if remaining < 8 then remaining else 8 := ⟨_, rfl⟩
    have hbound : n ≤ 8 ∧ 8 * k + n ≤ files.length ∧ 0 < n := by
      rw [hn]
      split_ifs <;> omega
    have hsearch := find?_entries name h hfiles hbound.1 hbound.2.1 (hbytes stack)
    have hsplit : lookup (files.drop (8 * k)) name =
        (lookup ((files.drop (8 * k)).take n) name).or
          (lookup ((files.drop (8 * k)).drop n) name) := by
      rw [← lookup_append, List.take_append_drop]
    simp only [if_pos hmore, hsector, ← hn, hwrap]
    cases hfind : (List.range n).find? fun i ↦
        strEq (direntAt (sector.onStack stack) (i * 64)).name name.bytes with
    | some i =>
      have hi : i < n := List.mem_range.mp (List.mem_of_find?_eq_some hfind)
      have hindex : 8 * k + i < files.length := by omega
      have hfile : files[8 * k + i]? = some files[8 * k + i] := List.getElem?_eq_getElem hindex
      obtain ⟨hname, hsize⟩ := hfiles _ (List.getElem_mem hindex)
      obtain ⟨-, hstart, hlength⟩ := h.showsEntry (by omega) hfile hname (hbytes stack) name
        (by omega)
      have hlookup : lookup (files.drop (8 * k)) name = some files[8 * k + i] := by
        rw [hsplit, ← hsearch, hfind, Option.bind_some, List.getElem?_take_of_lt hi,
          List.getElem?_drop, hfile, Option.some_or]
      have hstored := h.storedAt hfits hfile
      rw [← hstart] at hstored
      obtain ⟨more, hcopy, hreads⟩ := copyFile_of_storedAt stack hstored hlength hsize buf bufSize
        (reads ++ [1 + k])
      refine ⟨(1 + k) :: more, ?_, List.forall_mem_cons.mpr ⟨by simp [hsector], hreads⟩⟩
      rw [hlookup]
      refine hcopy.trans ?_
      rw [List.append_assoc, List.singleton_append]
      rfl
    | none =>
      rw [hfind, Option.bind_none] at hsearch
      obtain ⟨more, hrest, hreads⟩ := ih (remaining - n) (by omega) (k + 1) (reads ++ [1 + k])
        (by rw [hn]; split_ifs <;> omega)
      have hdrop : (files.drop (8 * k)).drop n = files.drop (8 * (k + 1)) := by
        rw [List.drop_drop]
        by_cases hlast : remaining < 8
        · rw [if_pos hlast] at hn
          rw [List.drop_eq_nil_iff.mpr (by omega), List.drop_eq_nil_iff.mpr (by omega)]
        · rw [if_neg hlast] at hn
          rw [hn, Nat.mul_add, Nat.mul_one]
      refine ⟨(1 + k) :: more, ?_, List.forall_mem_cons.mpr ⟨by simp [hsector], hreads⟩⟩
      rw [hsplit, ← hsearch, Option.none_or, hdrop]
      refine hrest.trans ?_
      rw [List.append_assoc, List.singleton_append]
  · have hnone : files.drop (8 * k) = [] := List.drop_eq_nil_iff.mpr (by omega)
    rw [if_neg hmore, hnone]
    exact ⟨[], by rw [List.append_nil]; rfl, List.forall_mem_nil _⟩

end Search

/-- A sector that can be read lies inside the image. -/
theorem inside_of_readSector_ne_none {lba : ℕ} (h : (diskOf image).readSector lba ≠ none) :
    512 * lba + 512 ≤ image.length := by
  by_contra hout
  exact h (if_neg hout)

/-- Let the files have NUL-free ASCII basenames and at most `2 ^ 32 - 512` bytes each. An image is
written, at least when its numbers of files and sectors fit 32 bits. On a disk with an image that was
written, of at most `2 ^ 32` sectors: after `vfs_init` the filesystem is available; reading succeeds
exactly for the names of files, cut to 31 characters; it then stores the size of the first file of that
name, and as many of its bytes as the buffer holds, and nothing else; and no sector outside the image
is ever read. -/
theorem vfsReadFile_of_mkfs (files : List SourceFile) (hne : files ≠ [])
    (hfiles : ∀ file ∈ files, NulFreeAscii file.basename ∧ file.data.length ≤ 2 ^ 32 - 512) :
    (files.length < 2 ^ 32 → imageSectors files < 2 ^ 32 → ∃ image, mkfs files = some image) ∧
    ∀ image, mkfs files = some image → image.length ≤ 512 * 2 ^ 32 →
      ∀ (stack : ℕ → UInt8) (unset : Vfs),
        let vfs := (vfsInit (diskOf image) stack unset).1
        vfsAvailable vfs = true ∧
        (∀ lba ∈ (vfsInit (diskOf image) stack unset).2, 512 * lba + 512 ≤ image.length) ∧
        ∀ (name : CString) (buf : ℕ → UInt8) (bufSize : ℕ),
          let outcome := vfsReadFile (diskOf image) stack vfs name buf bufSize true
          (outcome.result = true ↔ ∃ file ∈ files, file.diskName = name.bytes) ∧
          (∀ file, files.find? (fun file ↦ file.diskName == name.bytes) = some file →
            outcome.outSize = some file.data.length ∧
            ∀ i, outcome.buf i =
              if i < min file.data.length bufSize then file.data.getD i 0 else buf i) ∧
          ∀ lba ∈ outcome.reads, 512 * lba + 512 ≤ image.length := by
  refine ⟨fun hcount hsectors ↦ ?_, fun image himage hlength stack unset ↦ ?_⟩
  · refine exists_mkfs hne hcount (fun file hfile ↦ ?_) hsectors
    obtain ⟨hname, hsize⟩ := hfiles file hfile
    exact ⟨hname, by omega⟩
  have hwritten := mkfs_writtenImage himage
  have hfits : imageSectors files ≤ 2 ^ 32 := by
    rw [hwritten.length_eq] at hlength
    omega
  rw [vfsInit_diskOf hwritten]
  refine ⟨rfl, fun lba hlba ↦ ?_, fun name buf bufSize ↦ ?_⟩
  · have hdata := hwritten.dataStart_le
    rw [dataStart] at hdata
    rw [List.mem_singleton.mp hlba]
    omega
  · obtain ⟨more, hsearch, hreads⟩ := searchDirectory_eq_answer stack name buf bufSize hwritten hfits
      hfiles files.length 0 [] (by omega)
    have houtcome : vfsReadFile (diskOf image) stack
        ⟨true, ⟨mkfsMagic, files.length, 1, dataStart files⟩⟩ name buf bufSize true =
          answer (lookup files name) buf bufSize more := hsearch
    intro outcome
    change outcome = _ at houtcome
    clear_value outcome
    subst houtcome
    refine ⟨?_, fun file hfile ↦ ?_, ?_⟩
    · have hexists : (lookup files name).isSome = true ↔
          ∃ file ∈ files, file.diskName = name.bytes := by
        rw [lookup, List.find?_isSome]
        simp only [beq_iff_eq]
      rw [← hexists]
      cases lookup files name <;> simp [answer]
    · have hlookup : lookup files name = some file := hfile
      rw [hlookup]
      exact ⟨rfl, fun _ ↦ rfl⟩
    · intro lba hlba
      refine inside_of_readSector_ne_none (hreads lba ?_)
      cases hlookup : lookup files name with
      | none =>
        rw [hlookup] at hlba
        exact hlba
      | some file =>
        rw [hlookup] at hlba
        exact hlba

/-- Two files, of which the second is read into a buffer that is too small for it. -/
theorem vfsReadFile_of_mkfs_two_files :
    ∃ image, mkfs [⟨['d', '/', 'a'], []⟩, ⟨['b'], [1, 2, 3]⟩] = some image ∧
      let vfs := (vfsInit (diskOf image) (fun _ ↦ 0) ⟨false, ⟨0, 0, 0, 0⟩⟩).1
      let outcome := vfsReadFile (diskOf image) (fun _ ↦ 0) vfs ⟨[98], by simp⟩ (fun _ ↦ 7) 2 true
      outcome.result = true ∧ outcome.outSize = some 3 ∧ outcome.buf 1 = 2 ∧ outcome.buf 2 = 7 := by
  have hnames : ∀ file ∈ [SourceFile.mk ['d', '/', 'a'] [], ⟨['b'], [1, 2, 3]⟩],
      NulFreeAscii file.basename ∧ file.data.length ≤ 2 ^ 32 - 512 := by
    simp only [List.forall_mem_cons]
    decide
  obtain ⟨hexists, hread⟩ := vfsReadFile_of_mkfs _ (List.cons_ne_nil _ _) hnames
  obtain ⟨image, himage⟩ := hexists (by decide) (by decide)
  have hlength : image.length = 512 * 3 := (mkfs_writtenImage himage).length_eq
  obtain ⟨-, -, hname⟩ := hread image himage (by omega) (fun _ ↦ 0) ⟨false, ⟨0, 0, 0, 0⟩⟩
  obtain ⟨hresult, hfound, -⟩ := hname ⟨[98], by simp⟩ (fun _ ↦ 7) 2
  obtain ⟨hsize, hbuf⟩ := hfound ⟨['b'], [1, 2, 3]⟩ (by decide)
  exact ⟨image, himage, hresult.mpr ⟨_, List.mem_cons_of_mem _ List.mem_cons_self, by decide⟩, hsize,
    hbuf 1, hbuf 2⟩

end MegKer.Fs
