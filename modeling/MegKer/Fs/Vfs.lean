import MegKer.Foundation.Bytes
import MegKer.Foundation.MachineWord

/-!
# The filesystem layer

The read-only filesystem of `fs/vfs.c`. The disk is what the platform provides: a device that may be
there or not, and that stores the 512 bytes of a sector or fails. A sector is read into a buffer on
the stack; the directory entry found there has no terminator of its own behind its name, so a
comparison of a name may run over the end of the buffer, into the bytes `stack`.

The constants of the source are written out: SECTOR_SIZE is 512, DIR_ENTRY_SIZE is 64,
ENTRIES_PER_SECTOR is 8 and NAME_LEN is 32. `Outcome` is what a call of `vfs_read_file` returns and
leaves behind: its result, the caller's buffer, what was stored to `out_size`, and the sectors it has
asked for, in order.
-/

set_option autoImplicit false
set_option relaxedAutoImplicit false

namespace MegKer.Fs

open Foundation

/-! ### The disk -/

abbrev mkfsMagic : ℕ := 0x4D4B4653

/-- The bytes of a sector. -/
abbrev Sector := Fin 512 → UInt8

/-- `arch_disk_available` and `arch_disk_read_sector`. -/
structure Disk where
  available : Bool
  readSector : (lba : ℕ) → Option Sector

/-- The bytes from the start of a sector buffer on, with what lies behind it on the stack. -/
def Sector.onStack (sector : Sector) (stack : ℕ → UInt8) (i : ℕ) : UInt8 :=
  if h : i < 512 then sector ⟨i, h⟩ else stack (i - 512)

/-! ### The code -/

/-- `superblock_t`. -/
structure Superblock where
  magic : ℕ
  fileCount : ℕ
  dirStartSector : ℕ
  dataStartSector : ℕ
  deriving DecidableEq, Repr

/-- The `superblock_t` at the start of a sector. -/
def superblockAt (read : ℕ → UInt8) : Superblock where
  magic := u32At read 0
  fileCount := u32At read 4
  dirStartSector := u32At read 8
  dataStartSector := u32At read 12

/-- `dirent_t`. The name is known by its address. -/
structure Dirent where
  name : ℕ → UInt8
  startSector : ℕ
  sizeBytes : ℕ

/-- The `dirent_t` at an offset. -/
def direntAt (read : ℕ → UInt8) (offset : ℕ) : Dirent where
  name := fun j ↦ read (offset + j)
  startSector := u32At read (offset + 32)
  sizeBytes := u32At read (offset + 36)

/-- The static variables of `fs/vfs.c`. -/
structure Vfs where
  available : Bool
  sb : Superblock
  deriving DecidableEq, Repr

/-- `str_eq`, of the string at an address and one that ends behind the given bytes. The loop goes on
while neither string has ended. -/
def strEq (a : ℕ → UInt8) : (b : List UInt8) → Bool
  | [] => a 0 == 0
  | c :: b =>
    if a 0 ≠ 0 ∧ c ≠ 0 then
      if a 0 ≠ c then false else strEq (fun i ↦ a (i + 1)) b
    else a 0 == c

/-- `vfs_init`, and the sectors it reads. -/
def vfsInit (disk : Disk) (stack : ℕ → UInt8) (vfs : Vfs) : Vfs × List ℕ :=
  if !disk.available then (vfs, [])
  else
    match disk.readSector 0 with
    | none => (vfs, [0])
    | some sector =>
      let raw := superblockAt (sector.onStack stack)
      if raw.magic ≠ mkfsMagic then (vfs, [0])
      else ({ vfs with sb := raw, available := true }, [0])

def vfsAvailable (vfs : Vfs) : Bool := vfs.available

/-- What a call of `vfs_read_file` returns and leaves behind. -/
structure Outcome where
  result : Bool
  buf : ℕ → UInt8
  /-- What was stored to `*out_size`, if anything. -/
  outSize : Option ℕ
  /-- The sectors asked for. -/
  reads : List ℕ

/-- The innermost loop: `chunk` bytes of a sector go to the buffer. -/
def copyChunk (buf : ℕ → UInt8) (copied : ℕ) (tmp : ℕ → UInt8) (chunk : ℕ) : ℕ → UInt8 :=
  (List.range chunk).foldl (fun buf b ↦ Function.update buf (copied + b) (tmp b)) buf

section ReadFile

variable (disk : Disk) (stack : ℕ → UInt8)

/-- The loop over the sectors of a file, with `left` more iterations before `s` reaches
`sectors_needed`. It returns whether all reads succeeded, the buffer, and the sectors asked for. -/
def copySectors (startSector toCopy : ℕ) :
    (left s copied : ℕ) → (ℕ → UInt8) → List ℕ → Bool × (ℕ → UInt8) × List ℕ
  | 0, _, _, buf, reads => (true, buf, reads)
  | left + 1, s, copied, buf, reads =>
    if copied < toCopy then
      let lba := wrap32 (startSector + s)
      match disk.readSector lba with
      | none => (false, buf, reads ++ [lba])
      | some tmp =>
        let rest := toCopy - copied
        let chunk := if rest > 512 then 512 else rest
        copySectors startSector toCopy left (s + 1) (copied + chunk)
          (copyChunk buf copied (tmp.onStack stack) chunk) (reads ++ [lba])
    else (true, buf, reads)

/-- What `vfs_read_file` does with the entry it has found. `out_size` may be null. -/
def copyFile (e : Dirent) (buf : ℕ → UInt8) (bufSize : ℕ) (wantsSize : Bool) (reads : List ℕ) :
    Outcome :=
  let size := e.sizeBytes
  let toCopy := if size < bufSize then size else bufSize
  let sectorsNeeded := wrap32 (size + 512 - 1) / 512
  match copySectors disk stack e.startSector toCopy sectorsNeeded 0 0 buf reads with
  | (false, buf, reads) => ⟨false, buf, none, reads⟩
  | (true, buf, reads) => ⟨true, buf, if wantsSize then some size else none, reads⟩

/-- The loop over the sectors of the directory. -/
def searchDirectory (name : CString) (buf : ℕ → UInt8) (bufSize : ℕ) (wantsSize : Bool)
    (remaining dirSector : ℕ) (reads : List ℕ) : Outcome :=
  if remaining > 0 then
    match disk.readSector dirSector with
    | none => ⟨false, buf, none, reads ++ [dirSector]⟩
    | some sector =>
      let entry := fun i ↦ direntAt (sector.onStack stack) (i * 64)
      let n := if remaining < 8 then remaining else 8
      match (List.range n).find? fun i ↦ strEq (entry i).name name.bytes with
      | some i => copyFile disk stack (entry i) buf bufSize wantsSize (reads ++ [dirSector])
      | none =>
        searchDirectory name buf bufSize wantsSize (remaining - n) (wrap32 (dirSector + 1))
          (reads ++ [dirSector])
  else ⟨false, buf, none, reads⟩
termination_by remaining
decreasing_by split <;> omega

def vfsReadFile (vfs : Vfs) (name : CString) (buf : ℕ → UInt8) (bufSize : ℕ) (wantsSize : Bool) :
    Outcome :=
  if !vfs.available then ⟨false, buf, none, []⟩
  else
    searchDirectory disk stack name buf bufSize wantsSize vfs.sb.fileCount vfs.sb.dirStartSector []

end ReadFile

/-! ### What the loops do -/

/-- The comparison finds out whether the string in memory is the given one. -/
theorem strEq_iff (name : List UInt8) :
    ∀ {a : ℕ → UInt8} {stored : List UInt8}, (∀ b ∈ name, b ≠ 0) → (∀ b ∈ stored, b ≠ 0) →
      (∀ j < stored.length, a j = stored.getD j 0) → a stored.length = 0 →
        (strEq a name = true ↔ stored = name) := by
  induction name with
  | nil =>
    intro a stored _ hstored hread hend
    rw [strEq, beq_iff_eq]
    cases stored with
    | nil => exact iff_of_true hend rfl
    | cons b stored =>
      have hhead : a 0 = b := hread 0 (by simp)
      rw [hhead]
      exact iff_of_false (hstored b List.mem_cons_self) (List.cons_ne_nil b stored)
  | cons c name ih =>
    intro a stored hname hstored hread hend
    obtain ⟨hc, hrest⟩ := List.forall_mem_cons.mp hname
    cases stored with
    | nil =>
      have hzero : a 0 = 0 := hend
      rw [strEq, if_neg fun h ↦ h.1 hzero, beq_iff_eq, hzero]
      exact iff_of_false hc.symm (List.cons_ne_nil c name).symm
    | cons b stored =>
      obtain ⟨hb, hstoredRest⟩ := List.forall_mem_cons.mp hstored
      have hhead : a 0 = b := hread 0 (by simp)
      rw [strEq, hhead, if_pos ⟨hb, hc⟩]
      split_ifs with hne
      · rw [false_iff]
        exact fun heq ↦ hne (List.cons.inj heq).1
      · rw [not_not] at hne
        rw [ih hrest hstoredRest (fun j hj ↦ hread (j + 1) (by simpa using hj)) hend, hne,
          List.cons_inj_right]

theorem Sector.onStack_of_lt (sector : Sector) (stack : ℕ → UInt8) {i : ℕ} (hi : i < 512) :
    sector.onStack stack i = sector ⟨i, hi⟩ :=
  dif_pos hi

theorem copyChunk_apply (buf : ℕ → UInt8) (copied : ℕ) (tmp : ℕ → UInt8) (chunk i : ℕ) :
    copyChunk buf copied tmp chunk i =
      if copied ≤ i ∧ i < copied + chunk then tmp (i - copied) else buf i := by
  induction chunk with
  | zero => exact (if_neg (by omega)).symm
  | succ chunk ih =>
    rw [copyChunk, List.range_succ, List.foldl_append, List.foldl_cons, List.foldl_nil]
    change Function.update (copyChunk buf copied tmp chunk) (copied + chunk) (tmp chunk) i = _
    by_cases hi : i = copied + chunk
    · rw [hi, Function.update_self, if_pos (by omega), Nat.add_sub_cancel_left]
    · rw [Function.update_of_ne hi, ih]
      by_cases hin : copied ≤ i ∧ i < copied + chunk
      · rw [if_pos hin, if_pos (by omega)]
      · rw [if_neg hin, if_neg (by omega)]

/-- The contents of a file lie on the disk in consecutive sectors. -/
def StoredAt (disk : Disk) (startSector : ℕ) (data : List UInt8) : Prop :=
  ∀ s, 512 * s < data.length → startSector + s < 2 ^ 32 ∧
    ∃ sector, disk.readSector (startSector + s) = some sector ∧
      ∀ b (hb : b < 512), 512 * s + b < data.length →
        sector ⟨b, hb⟩ = data.getD (512 * s + b) 0

/-- The loop over the sectors of a file that lies on the disk, after `s` sectors: it copies what is
left to copy, and reads sectors of the file only. -/
theorem copySectors_of_storedAt {disk : Disk} {startSector toCopy : ℕ} {data : List UInt8}
    (stack : ℕ → UInt8) (hstored : StoredAt disk startSector data) (hcopy : toCopy ≤ data.length)
    (left : ℕ) :
    ∀ (s : ℕ) (buf : ℕ → UInt8) (reads : List ℕ), toCopy ≤ 512 * (s + left) →
      ∃ more, copySectors disk stack startSector toCopy left s (min (512 * s) toCopy) buf
          reads = (true, fun i ↦ if min (512 * s) toCopy ≤ i ∧ i < toCopy then data.getD i 0
            else buf i, reads ++ more) ∧
        ∀ lba ∈ more, disk.readSector lba ≠ none := by
  induction left with
  | zero =>
    intro s buf reads hleft
    refine ⟨[], ?_, List.forall_mem_nil _⟩
    rw [copySectors, List.append_nil]
    refine congrArg (fun f ↦ (true, f, reads)) (funext fun i ↦ (if_neg ?_).symm)
    omega
  | succ left ih =>
    intro s buf reads hleft
    rw [copySectors]
    by_cases hmore : 512 * s < toCopy
    · obtain ⟨hwrap, sector, hsector, hbytes⟩ := hstored s (hmore.trans_le hcopy)
      have hcopied : min (512 * s) toCopy = 512 * s := min_eq_left hmore.le
      obtain ⟨more, hrest, hreads⟩ := ih (s + 1)
        (copyChunk buf (512 * s) (sector.onStack stack)
          (if toCopy - 512 * s > 512 then 512 else toCopy - 512 * s))
        (reads ++ [startSector + s]) (by omega)
      have hnext : 512 * s + (if toCopy - 512 * s > 512 then 512
          else toCopy - 512 * s) = min (512 * (s + 1)) toCopy := by
        split_ifs <;> omega
      refine ⟨(startSector + s) :: more, ?_, List.forall_mem_cons.mpr ⟨by simp [hsector], hreads⟩⟩
      simp only [hcopied, if_pos hmore, wrap32_of_lt hwrap, hsector, hnext, hrest]
      rw [List.append_assoc, List.singleton_append]
      refine congrArg (fun f ↦ (true, f, reads ++ (startSector + s) :: more)) (funext fun i ↦ ?_)
      rw [copyChunk_apply, hnext]
      by_cases hlow : 512 * s ≤ i ∧ i < min (512 * (s + 1)) toCopy
      · have hoffset : i - 512 * s < 512 := by omega
        rw [if_neg (by omega), if_pos hlow, if_pos (by omega), Sector.onStack_of_lt _ _ hoffset,
          hbytes _ hoffset (by omega)]
        congr 1
        omega
      · rw [if_neg hlow]
        by_cases hhigh : min (512 * (s + 1)) toCopy ≤ i ∧ i < toCopy
        · rw [if_pos hhigh, if_pos (by omega)]
        · rw [if_neg hhigh, if_neg (by omega)]
    · refine ⟨[], ?_, List.forall_mem_nil _⟩
      rw [if_neg (by omega), List.append_nil]
      refine congrArg (fun f ↦ (true, f, reads)) (funext fun i ↦ (if_neg ?_).symm)
      omega

/-- A file that lies on the disk is delivered. -/
theorem copyFile_of_storedAt {disk : Disk} {e : Dirent} {data : List UInt8} (stack : ℕ → UInt8)
    (hstored : StoredAt disk e.startSector data) (hsize : e.sizeBytes = data.length)
    (hbound : data.length ≤ 2 ^ 32 - 512) (buf : ℕ → UInt8) (bufSize : ℕ) (reads : List ℕ) :
    ∃ more, copyFile disk stack e buf bufSize true reads =
        ⟨true, fun i ↦ if i < min data.length bufSize then data.getD i 0 else buf i,
          some data.length, reads ++ more⟩ ∧
      ∀ lba ∈ more, disk.readSector lba ≠ none := by
  have htoCopy : (if data.length < bufSize then data.length else bufSize) =
      min data.length bufSize := by
    split_ifs <;> omega
  have hneeded : wrap32 (data.length + 512 - 1) / 512 =
      (data.length + 511) / 512 := by
    rw [wrap32_of_lt (by omega)]
    omega
  obtain ⟨more, hcopy, hreads⟩ := copySectors_of_storedAt stack hstored
    (min_le_left data.length bufSize) ((data.length + 511) / 512) 0 buf reads (by omega)
  refine ⟨more, ?_, hreads⟩
  rw [Nat.mul_zero, Nat.zero_min] at hcopy
  rw [copyFile, hsize, htoCopy, hneeded, hcopy]
  simp

end MegKer.Fs
