import MegKer.Drivers.Ata
import MegKer.Fs.ImageRoundTrip

/-!
# The file that the kernel shows

Step 6a of `kernel_main`, which reads `hello.txt` and shows it, "disk -> driver -> VFS end to end". Here
are all the parts together: the image that `tools/mkfs.py` wrote is on the ATA drive, the driver reads its
sectors from the bus, and the filesystem finds the file in them.

The filesystem depends on a disk only through the sectors that it asks for (`vfsReadFile_congr`), and of
an image it asks for sectors inside it. So it does not matter that the drive has more sectors than the
image and takes a number modulo `2 ^ 28`, as long as the image fits there. `kernelMainFile_of_mkfs` says
what the kernel shows then: the first 127 bytes of the file, up to a NUL.
-/

set_option autoImplicit false
set_option relaxedAutoImplicit false

namespace MegKer.Kernel

open Foundation Fs Drivers

/-! ### The code -/

/-- The bytes of a string literal. -/
def literal (text : List Char) : List UInt8 := text.map fun c ↦ UInt8.ofNat c.toNat

/-- `"hello.txt"` -/
def helloTxt : CString := ⟨literal "hello.txt".toList, by decide +kernel⟩

/-- The string that a buffer of some bytes begins with. -/
def stringIn (buf : ℕ → UInt8) (size : ℕ) : List UInt8 :=
  ((List.range size).map buf).takeWhile (· ≠ 0)

/-- What the kernel shows of the file. -/
inductive FileMessage
  /-- `arch_gfx_draw_string(10, 30, …)` -/
  | drawn (text : List UInt8) (fg bg : ℕ)
  /-- `console_puts` -/
  | printed (text : List UInt8)
  | nothing
  deriving DecidableEq, Repr

/-- Step 6a of `kernel_main`, for what is in `filebuf` before. The sectors that are asked for come with
it. -/
def kernelMainFile (disk : Disk) (stack : ℕ → UInt8) (vfs : Vfs) (filebuf : ℕ → UInt8) (gfx : Bool) :
    FileMessage × List ℕ :=
  let mounted := vfsInit disk stack vfs
  if vfsAvailable mounted.1 then
    let outcome := vfsReadFile disk stack mounted.1 helloTxt filebuf (128 - 1) true
    let filesize := outcome.outSize.getD 0
    let shown := if filesize < 128 - 1 then filesize else 128 - 1
    let filebuf := if outcome.result then Function.update outcome.buf shown 0 else outcome.buf
    let reads := mounted.2 ++ outcome.reads
    if gfx then
      if outcome.result then (.drawn (stringIn filebuf 128) 0x0000FFFF 0x00102030, reads)
      else (.drawn (literal "VFS: READ FAILED".toList) 0x00FF0000 0x00102030, reads)
    else if outcome.result then (.printed (stringIn filebuf 128), reads)
    else (.printed (literal "VFS: READ FAILED\n".toList), reads)
  else if gfx then (.drawn (literal "VFS: NOT AVAILABLE".toList) 0x00FF0000 0x00102030, mounted.2)
  else (.nothing, mounted.2)

/-! ### The sectors that matter -/

section Locality

variable {disk disk' : Disk} {stack : ℕ → UInt8}

theorem copySectors_reads (startSector toCopy left : ℕ) :
    ∀ (s copied : ℕ) (buf : ℕ → UInt8) (reads : List ℕ),
      ∀ lba ∈ reads, lba ∈ (copySectors disk stack startSector toCopy left s copied buf reads).2.2 := by
  induction left with
  | zero => exact fun _ _ _ _ _ hlba ↦ hlba
  | succ left ih =>
    intro s copied buf reads lba hlba
    have hmore : lba ∈ reads ++ [wrap32 (startSector + s)] := List.mem_append_left _ hlba
    rw [copySectors]
    split_ifs with hcopied
    · dsimp only
      split
      · exact hmore
      · exact ih _ _ _ _ lba hmore
    · exact hlba

/-- The loop over the sectors of a file does the same with a disk that agrees on the sectors read. -/
theorem copySectors_congr (startSector toCopy left : ℕ) :
    ∀ (s copied : ℕ) (buf : ℕ → UInt8) (reads : List ℕ),
      (∀ lba ∈ (copySectors disk stack startSector toCopy left s copied buf reads).2.2,
        disk'.readSector lba = disk.readSector lba) →
      copySectors disk' stack startSector toCopy left s copied buf reads =
        copySectors disk stack startSector toCopy left s copied buf reads := by
  induction left with
  | zero => exact fun _ _ _ _ _ ↦ rfl
  | succ left ih =>
    intro s copied buf reads hagree
    rw [copySectors] at hagree
    rw [copySectors, copySectors]
    split_ifs at hagree ⊢ with hcopied
    · dsimp only at hagree ⊢
      have hlast : wrap32 (startSector + s) ∈ reads ++ [wrap32 (startSector + s)] := by simp
      cases hsector : disk.readSector (wrap32 (startSector + s)) with
      | none =>
        rw [hsector] at hagree
        rw [hagree _ hlast, hsector]
      | some sector =>
        rw [hsector] at hagree
        rw [hagree _ (copySectors_reads startSector toCopy left _ _ _ _ _ hlast), hsector]
        exact ih _ _ _ _ hagree
    · rfl

theorem copyFile_reads (e : Dirent) (buf : ℕ → UInt8) (bufSize : ℕ) (wantsSize : Bool)
    (reads : List ℕ) :
    (copyFile disk stack e buf bufSize wantsSize reads).reads =
      (copySectors disk stack e.startSector (if e.sizeBytes < bufSize then e.sizeBytes else bufSize)
        (wrap32 (e.sizeBytes + 512 - 1) / 512) 0 0 buf reads).2.2 := by
  rw [copyFile]
  split
  next heq => rw [heq]
  next heq => rw [heq]

theorem searchDirectory_reads (name : CString) (buf : ℕ → UInt8) (bufSize : ℕ) (wantsSize : Bool)
    (remaining : ℕ) :
    ∀ (dirSector : ℕ) (reads : List ℕ), ∀ lba ∈ reads,
      lba ∈ (searchDirectory disk stack name buf bufSize wantsSize remaining dirSector reads).reads := by
  induction remaining using Nat.strong_induction_on with
  | _ remaining ih =>
    intro dirSector reads lba hlba
    have hmore : lba ∈ reads ++ [dirSector] := List.mem_append_left _ hlba
    obtain ⟨n, hn⟩ : ∃ n, n = if remaining < 8 then remaining else 8 := ⟨_, rfl⟩
    rw [searchDirectory]
    by_cases hremaining : remaining > 0
    · have hless : remaining - n < remaining := by
        rw [hn]
        split_ifs <;> omega
      simp only [if_pos hremaining, ← hn]
      split
      · exact hmore
      · split
        · rw [copyFile_reads]
          exact copySectors_reads _ _ _ _ _ _ _ lba hmore
        · exact ih _ hless _ _ lba hmore
    · rwa [if_neg hremaining]

theorem searchDirectory_congr (name : CString) (buf : ℕ → UInt8) (bufSize : ℕ) (wantsSize : Bool)
    (remaining : ℕ) :
    ∀ (dirSector : ℕ) (reads : List ℕ),
      (∀ lba ∈ (searchDirectory disk stack name buf bufSize wantsSize remaining dirSector reads).reads,
        disk'.readSector lba = disk.readSector lba) →
      searchDirectory disk' stack name buf bufSize wantsSize remaining dirSector reads =
        searchDirectory disk stack name buf bufSize wantsSize remaining dirSector reads := by
  induction remaining using Nat.strong_induction_on with
  | _ remaining ih =>
    intro dirSector reads hagree
    obtain ⟨n, hn⟩ : ∃ n, n = if remaining < 8 then remaining else 8 := ⟨_, rfl⟩
    rw [searchDirectory] at hagree
    rw [searchDirectory, searchDirectory.eq_def disk]
    by_cases hremaining : remaining > 0
    · have hless : remaining - n < remaining := by
        rw [hn]
        split_ifs <;> omega
      have hlast : dirSector ∈ reads ++ [dirSector] := by simp
      simp only [if_pos hremaining, ← hn] at hagree ⊢
      cases hsector : disk.readSector dirSector with
      | none =>
        rw [hsector] at hagree
        rw [hagree _ hlast, hsector]
      | some sector =>
        simp only [hsector] at hagree
        cases hfind : (List.range n).find? fun i ↦
            strEq (direntAt (sector.onStack stack) (i * 64)).name name.bytes with
        | some i =>
          simp only [hfind, copyFile_reads] at hagree
          rw [hagree _ (copySectors_reads _ _ _ _ _ _ _ _ hlast), hsector]
          simp only [hfind]
          rw [copyFile, copySectors_congr _ _ _ _ _ _ _ hagree, copyFile]
        | none =>
          simp only [hfind] at hagree
          rw [hagree _ (searchDirectory_reads _ _ _ _ _ _ _ _ hlast), hsector]
          simp only [hfind]
          exact ih _ hless _ _ hagree
    · rw [if_neg hremaining, if_neg hremaining]

/-- `vfs_read_file` does the same with a disk that agrees on the sectors read. -/
theorem vfsReadFile_congr {vfs : Vfs} {name : CString} {buf : ℕ → UInt8} {bufSize : ℕ} {wantsSize : Bool}
    (hagree : ∀ lba ∈ (vfsReadFile disk stack vfs name buf bufSize wantsSize).reads,
      disk'.readSector lba = disk.readSector lba) :
    vfsReadFile disk' stack vfs name buf bufSize wantsSize =
      vfsReadFile disk stack vfs name buf bufSize wantsSize := by
  unfold vfsReadFile at hagree ⊢
  split_ifs at hagree ⊢ with havailable
  · rfl
  · exact searchDirectory_congr _ _ _ _ _ _ _ hagree

theorem vfsInit_congr {vfs : Vfs} (havailable : disk'.available = disk.available)
    (hagree : ∀ lba ∈ (vfsInit disk stack vfs).2, disk'.readSector lba = disk.readSector lba) :
    vfsInit disk' stack vfs = vfsInit disk stack vfs := by
  unfold vfsInit at hagree ⊢
  rw [havailable]
  split_ifs at hagree ⊢ with hdisk
  · rfl
  · have hzero : disk'.readSector 0 = disk.readSector 0 := by
      refine hagree 0 ?_
      cases disk.readSector 0 with
      | none => exact List.mem_singleton_self 0
      | some sector =>
        dsimp only
        split_ifs <;> exact List.mem_singleton_self 0
    rw [hzero]

end Locality

/-! ### The string -/

/-- What the kernel shows of the contents of a file. -/
def fileText (data : List UInt8) : List UInt8 := (data.take 127).takeWhile (· ≠ 0)

theorem takeWhile_append_cons_of_neg {α : Type} {p : α → Bool} (xs : List α) {y : α} (ys : List α)
    (hy : p y = false) : (xs ++ y :: ys).takeWhile p = xs.takeWhile p := by
  induction xs with
  | nil => rw [List.nil_append, List.takeWhile_cons, hy]; rfl
  | cons x xs ih => rw [List.cons_append, List.takeWhile_cons, List.takeWhile_cons, ih]

/-- A terminator ends the string. -/
theorem stringIn_of_terminated {buf : ℕ → UInt8} {n size : ℕ} (hn : n < size) (hend : buf n = 0) :
    stringIn buf size = ((List.range n).map buf).takeWhile (· ≠ 0) := by
  have hsplit : (List.range size).map buf =
      (List.range n).map buf ++ buf n :: (List.range (size - n - 1)).map fun i ↦ buf (n + (i + 1)) := by
    have hsize : size = n + (size - n - 1 + 1) := by omega
    rw [hsize, List.range_add, List.map_append, List.range_succ_eq_map]
    simp [Function.comp_def]
  rw [stringIn, hsplit]
  exact takeWhile_append_cons_of_neg _ _ (by simp [hend])

/-- The bytes of the file that fit, and a terminator behind them. -/
theorem stringIn_filebuf (data : List UInt8) (buf : ℕ → UInt8) :
    stringIn (Function.update (fun i ↦ if i < min data.length 127 then data.getD i 0 else buf i)
      (if data.length < 127 then data.length else 127) 0) 128 = fileText data := by
  have hshown : (if data.length < 127 then data.length else 127) = min data.length 127 := by
    split_ifs <;> omega
  rw [hshown, stringIn_of_terminated (n := min data.length 127) (by omega) (Function.update_self _ _ _),
    fileText]
  refine congrArg _ (List.ext_getElem (by simp [Nat.min_comm]) fun i hi hi' ↦ ?_)
  have hlt : i < min data.length 127 := by simpa using hi
  have hne : i ≠ min data.length 127 := Nat.ne_of_lt hlt
  have hlength : i < data.length := by omega
  rw [List.getElem_map, List.getElem_range, Function.update_of_ne hne, if_pos hlt, List.getElem_take,
    List.getD_eq_getElem _ _ hlength]

/-! ### From the drive to the screen -/

/-- An image is on a drive, at its start. -/
def HoldsImage (drive : Drive) (image : List UInt8) : Prop :=
  ∀ lba, 512 * lba + 512 ≤ image.length → drive.contents lba = (diskOf image).readSector lba

theorem readSector_disk {drive : Drive} {image : List UInt8} (hholds : HoldsImage drive image)
    (hlength : image.length ≤ 512 * 2 ^ 28) {lba : ℕ} (hlba : 512 * lba + 512 ≤ image.length) :
    drive.disk.readSector lba = (diskOf image).readSector lba := by
  have hmod : lba % 2 ^ 28 = lba := Nat.mod_eq_of_lt (by omega)
  rw [← hholds lba hlba]
  simp only [Drive.disk, hmod]

/-- What the kernel shows, for the file of that name. -/
def fileMessage (gfx : Bool) : Option SourceFile → FileMessage
  | some file =>
    if gfx then .drawn (fileText file.data) 0x0000FFFF 0x00102030 else .printed (fileText file.data)
  | none =>
    if gfx then .drawn (literal "VFS: READ FAILED".toList) 0x00FF0000 0x00102030
    else .printed (literal "VFS: READ FAILED\n".toList)

/-- With an image on the disk, the kernel shows the first file of the name, and asks for sectors of the
image only. -/
theorem kernelMainFile_diskOf {files : List SourceFile} {image : List UInt8}
    (hfiles : ∀ file ∈ files, NulFreeAscii file.basename ∧ file.data.length ≤ 2 ^ 32 - 512)
    (himage : mkfs files = some image) (hlength : image.length ≤ 512 * 2 ^ 32) (stack : ℕ → UInt8)
    (vfs : Vfs) (filebuf : ℕ → UInt8) (gfx : Bool) :
    (kernelMainFile (diskOf image) stack vfs filebuf gfx).1 = fileMessage gfx (lookup files helloTxt) ∧
      ∀ lba ∈ (kernelMainFile (diskOf image) stack vfs filebuf gfx).2, 512 * lba + 512 ≤ image.length := by
  have hwritten := mkfs_writtenImage himage
  have hfits : imageSectors files ≤ 2 ^ 32 := by
    rw [hwritten.length_eq] at hlength
    omega
  obtain ⟨more, hsearch, hreads⟩ := searchDirectory_eq_answer stack helloTxt filebuf 127 hwritten hfits
    hfiles files.length 0 [] (by omega)
  have houtcome : vfsReadFile (diskOf image) stack
      ⟨true, ⟨mkfsMagic, files.length, 1, dataStart files⟩⟩ helloTxt filebuf (128 - 1) true =
        answer (lookup files helloTxt) filebuf 127 more := hsearch
  have hinside : ∀ lba ∈ 0 :: more, 512 * lba + 512 ≤ image.length := by
    refine List.forall_mem_cons.mpr ⟨?_, fun lba hlba ↦ inside_of_readSector_ne_none (hreads lba hlba)⟩
    have hdata := hwritten.dataStart_le
    rw [dataStart] at hdata
    omega
  unfold kernelMainFile
  simp only [vfsInit_diskOf hwritten, vfsAvailable, if_true, houtcome]
  cases hlookup : lookup files helloTxt with
  | none =>
    cases gfx <;> exact ⟨rfl, hinside⟩
  | some file =>
    have htext := stringIn_filebuf file.data filebuf
    simp only [answer, Option.getD_some, if_true]
    cases gfx with
    | false => exact ⟨congrArg FileMessage.printed htext, hinside⟩
    | true => exact ⟨congrArg (FileMessage.drawn · 0x0000FFFF 0x00102030) htext, hinside⟩

/-- The sectors that step 6a asks for. -/
theorem kernelMainFile_reads (disk : Disk) (stack : ℕ → UInt8) (vfs : Vfs) (filebuf : ℕ → UInt8)
    (gfx : Bool) :
    (kernelMainFile disk stack vfs filebuf gfx).2 = (vfsInit disk stack vfs).2 ++
      (vfsReadFile disk stack (vfsInit disk stack vfs).1 helloTxt filebuf (128 - 1) true).reads := by
  unfold kernelMainFile
  by_cases hmounted : vfsAvailable (vfsInit disk stack vfs).1 = true
  · simp only [hmounted, if_true]
    split_ifs <;> rfl
  · have hclosed : (!(vfsInit disk stack vfs).1.available) = true := by
      simpa [vfsAvailable] using hmounted
    rw [vfsReadFile, if_pos hclosed, List.append_nil]
    simp only [if_neg hmounted]
    split_ifs <;> rfl

/-- Step 6a does the same with a disk that agrees on the sectors read. -/
theorem kernelMainFile_congr {disk disk' : Disk} {stack : ℕ → UInt8} {vfs : Vfs} {filebuf : ℕ → UInt8}
    {gfx : Bool} (havailable : disk'.available = disk.available)
    (hagree : ∀ lba ∈ (kernelMainFile disk stack vfs filebuf gfx).2,
      disk'.readSector lba = disk.readSector lba) :
    kernelMainFile disk' stack vfs filebuf gfx = kernelMainFile disk stack vfs filebuf gfx := by
  rw [kernelMainFile_reads] at hagree
  have hinit := vfsInit_congr havailable fun lba hlba ↦ hagree lba (List.mem_append_left _ hlba)
  have hfile := vfsReadFile_congr fun lba hlba ↦ hagree lba (List.mem_append_right _ hlba)
  unfold kernelMainFile
  simp only [hinit, hfile]

/-- An image of `mkfs` is on the ATA drive, from its first sector on, and the drive is in time. Then the
kernel shows the first file that is named `hello.txt`: 127 bytes of it at most, up to a NUL. The sectors
that it asks for are sectors of the image, and the driver reads all of them from the bus as they are in
the image. -/
theorem kernelMainFile_of_mkfs (files : List SourceFile)
    (hfiles : ∀ file ∈ files, NulFreeAscii file.basename ∧ file.data.length ≤ 2 ^ 32 - 512)
    (image : List UInt8) (himage : mkfs files = some image) (hlength : image.length ≤ 512 * 2 ^ 28)
    (drive : Drive) (hholds : HoldsImage drive image) (htimely : ∀ n, drive.delay n < 100000)
    (s : DriveState) (hidle : drive.Owes s none) (stack : ℕ → UInt8) (vfs : Vfs) (filebuf : ℕ → UInt8)
    (gfx : Bool) :
    let step := kernelMainFile drive.disk stack vfs filebuf gfx
    step.1 = fileMessage gfx (lookup files helloTxt) ∧
    (∀ lba ∈ step.2, 512 * lba + 512 ≤ image.length) ∧
    ∀ buf : ℕ → UInt8, ∃ s', Returns
      (ataReads (driveBus drive) (ataInit (driveBus drive) s).1 (step.2.map fun lba ↦ (lba, buf))
        (ataInit (driveBus drive) s).2)
      (step.2.map fun lba ↦ delivered buf ((diskOf image).readSector lba), s') := by
  obtain ⟨hshown, hinside⟩ := kernelMainFile_diskOf hfiles himage (by omega) stack vfs filebuf gfx
  have hagree : ∀ lba ∈ (kernelMainFile (diskOf image) stack vfs filebuf gfx).2,
      drive.disk.readSector lba = (diskOf image).readSector lba :=
    fun lba hlba ↦ readSector_disk hholds hlength (hinside lba hlba)
  have hsame : kernelMainFile drive.disk stack vfs filebuf gfx =
      kernelMainFile (diskOf image) stack vfs filebuf gfx := kernelMainFile_congr rfl hagree
  intro step
  change step = _ at hsame
  clear_value step
  subst hsame
  refine ⟨hshown, hinside, fun buf ↦ ?_⟩
  obtain ⟨hpresent, howes, -⟩ := ataInit_spec hidle
  obtain ⟨s', hreturns⟩ := exists_ataReads howes
    ((kernelMainFile (diskOf image) stack vfs filebuf gfx).2.map fun lba ↦ (lba, buf))
  rw [answers_of_timely htimely] at hreturns
  refine ⟨s', ?_⟩
  rw [hpresent]
  have hresults : List.zipWith delivered
      (((kernelMainFile (diskOf image) stack vfs filebuf gfx).2.map fun lba ↦ (lba, buf)).map Prod.snd)
      ((((kernelMainFile (diskOf image) stack vfs filebuf gfx).2.map fun lba ↦ (lba, buf)).map
        Prod.fst).map fun lba ↦ drive.contents (lba % 2 ^ 28)) =
      (kernelMainFile (diskOf image) stack vfs filebuf gfx).2.map fun lba ↦
        delivered buf ((diskOf image).readSector lba) := by
    rw [List.map_map, List.map_map, List.map_map, List.zipWith_map, List.zipWith_self]
    refine List.map_congr_left fun lba hlba ↦ ?_
    rw [← hagree lba hlba]
    rfl
  rw [← hresults]
  exact hreturns

/-- A file with a NUL in it, on a drive that holds nothing else. -/
theorem kernelMainFile_of_mkfs_one_file :
    ∃ image, mkfs [⟨"fsroot/hello.txt".toList, [72, 105, 0, 33]⟩] = some image ∧
      (kernelMainFile (Drive.disk ⟨(diskOf image).readSector, fun _ ↦ 2, true⟩) (fun _ ↦ 0)
        ⟨false, ⟨0, 0, 0, 0⟩⟩ (fun _ ↦ 7) true).1 = .drawn [72, 105] 0x0000FFFF 0x00102030 := by
  have hfiles : ∀ file ∈ [SourceFile.mk "fsroot/hello.txt".toList [72, 105, 0, 33]],
      NulFreeAscii file.basename ∧ file.data.length ≤ 2 ^ 32 - 512 := by
    rw [List.forall_mem_singleton]
    decide
  obtain ⟨image, himage⟩ := exists_mkfs (List.cons_ne_nil _ _) (by decide)
    (fun file hfile ↦ ⟨(hfiles file hfile).1, by have := (hfiles file hfile).2; omega⟩) (by decide)
  have hlength : image.length = 512 * 3 := (mkfs_writtenImage himage).length_eq
  refine ⟨image, himage, ?_⟩
  refine (kernelMainFile_of_mkfs _ hfiles image himage (by omega) _ (fun _ _ ↦ rfl)
    (fun _ ↦ (by decide : 2 < 100000))
    ⟨0, 0, 0, 0, 0, 0, .idle⟩ rfl (fun _ ↦ 0) ⟨false, ⟨0, 0, 0, 0⟩⟩ (fun _ ↦ 7) true).1.trans ?_
  decide

end MegKer.Kernel
