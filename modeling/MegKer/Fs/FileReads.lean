import MegKer.Fs.Vfs

/-!
# Reading files from any disk

What `vfs_read_file` does on a disk about which nothing is known: sectors may fail to be read, and the
fields of the directory may be anything. `ReadsFile` is what is expected of a call. When it succeeds,
the buffer holds as much of the file as fits, sector by sector, and is not touched behind it; when a
sector that is needed cannot be read, it fails and does not store a size.

The number of sectors is computed as `(size + 511) / 512` in 32 bits. For the last 511 sizes the sum
wraps and no sector is read: the call reports success and has copied nothing
(`not_readsFile_huge`). For all others, the loops do what is expected (`readsFile_iff`).
-/

set_option autoImplicit false
set_option relaxedAutoImplicit false

namespace MegKer.Fs

open Foundation

section Definitions

variable (disk : Disk) (stack : ℕ → UInt8) (vfs : Vfs) (name : CString)

/-- The entry of the directory with a number. -/
def entryAt (i : ℕ) : Option Dirent :=
  (disk.readSector (wrap32 (vfs.sb.dirStartSector + i / 8))).map fun sector ↦
    direntAt (sector.onStack stack) (i % 8 * 64)

/-- The entries before a number can be read and have other names. -/
def PassesOver (i : ℕ) : Prop :=
  ∀ j < i, ∃ e, entryAt disk stack vfs j = some e ∧ strEq e.name name.bytes = false

/-- The entry with the number `i` is the first one of the name. -/
structure Finds (i : ℕ) (e : Dirent) : Prop where
  lt_fileCount : i < vfs.sb.fileCount
  entry_eq : entryAt disk stack vfs i = some e
  matches_name : strEq e.name name.bytes = true
  passes : PassesOver disk stack vfs name i

/-- A sector of the directory cannot be read, and the name was not found before it. -/
def DirectoryFails : Prop :=
  ∃ i < vfs.sb.fileCount, entryAt disk stack vfs i = none ∧ PassesOver disk stack vfs name i

/-- Byte `k` of a file. -/
def fileByte (startSector k : ℕ) : Option UInt8 :=
  (disk.readSector (wrap32 (startSector + k / 512))).map fun sector ↦
    sector ⟨k % 512, Nat.mod_lt k (by norm_num)⟩

/-- A sector that holds a byte of the file for the buffer cannot be read. -/
def DataFails (bufSize : ℕ) : Prop :=
  ∃ i e, Finds disk stack vfs name i e ∧
    ∃ k < min e.sizeBytes bufSize, fileByte disk e.startSector k = none

/-- What is expected of a call of `vfs_read_file`, whatever is in the buffer. -/
structure ReadsFile (bufSize : ℕ) (wantsSize : Bool) : Prop where
  delivers : ∀ buf,
    (vfsReadFile disk stack vfs name buf bufSize wantsSize).result = true →
    ∃ i e, Finds disk stack vfs name i e ∧
      (vfsReadFile disk stack vfs name buf bufSize wantsSize).outSize =
        (if wantsSize then some e.sizeBytes else none) ∧
      (∀ k < min e.sizeBytes bufSize, fileByte disk e.startSector k =
        some ((vfsReadFile disk stack vfs name buf bufSize wantsSize).buf k)) ∧
      ∀ k, min e.sizeBytes bufSize ≤ k →
        (vfsReadFile disk stack vfs name buf bufSize wantsSize).buf k = buf k
  fails : ∀ buf, DirectoryFails disk stack vfs name ∨ DataFails disk stack vfs name bufSize →
    (vfsReadFile disk stack vfs name buf bufSize wantsSize).result = false ∧
      (vfsReadFile disk stack vfs name buf bufSize wantsSize).outSize = none
  terminates : ∀ buf, (vfsReadFile disk stack vfs name buf bufSize wantsSize).reads.length ≤
    (vfs.sb.fileCount + 7) / 8 + 2 ^ 23

end Definitions

/-! ### The sectors of a file -/

theorem copySectors_reads_le (disk : Disk) (stack : ℕ → UInt8) (startSector toCopy left : ℕ) :
    ∀ (s copied : ℕ) (buf : ℕ → UInt8) (reads : List ℕ),
      (copySectors disk stack startSector toCopy left s copied buf reads).2.2.length ≤
        reads.length + left := by
  induction left with
  | zero => exact fun _ _ _ _ ↦ le_rfl
  | succ left ih =>
    intro s copied buf reads
    rw [copySectors]
    split_ifs
    · dsimp only
      split
      · rw [List.length_append, List.length_singleton]
        omega
      · refine (ih _ _ _ _).trans ?_
        rw [List.length_append, List.length_singleton]
        omega
    · exact Nat.le_add_right _ _

/-- A sector that cannot be read ends the loop. -/
theorem copySectors_of_fails {disk : Disk} (stack : ℕ → UInt8) {startSector toCopy : ℕ} (left : ℕ) :
    ∀ (s : ℕ) (buf : ℕ → UInt8) (reads : List ℕ),
      (∃ t, s ≤ t ∧ t < s + left ∧ 512 * t < toCopy ∧
        disk.readSector (wrap32 (startSector + t)) = none) →
      (copySectors disk stack startSector toCopy left s (512 * s) buf reads).1 = false := by
  induction left with
  | zero =>
    rintro s buf reads ⟨t, hfirst, hlast, -⟩
    omega
  | succ left ih =>
    rintro s buf reads ⟨t, hfirst, hlast, hmore, hfails⟩
    rw [copySectors, if_pos (by omega)]
    dsimp only
    cases hread : disk.readSector (wrap32 (startSector + s)) with
    | none => rfl
    | some sector =>
      have hne : t ≠ s := by
        rintro rfl
        rw [hfails] at hread
        exact absurd hread (Option.some_ne_none sector).symm
      have hfull : toCopy - 512 * s > 512 := by omega
      have hnext : 512 * s + 512 = 512 * (s + 1) := by omega
      dsimp only
      rw [if_pos hfull, hnext]
      exact ih (s + 1) _ _ ⟨t, by omega, by omega, hmore, hfails⟩

/-- When all sectors can be read, the loop copies what lies in them, and nothing else. -/
theorem copySectors_of_readable {disk : Disk} (stack : ℕ → UInt8) {startSector toCopy : ℕ}
    (left : ℕ) :
    ∀ (s : ℕ) (buf : ℕ → UInt8) (reads : List ℕ),
      (∀ t, s ≤ t → t < s + left → 512 * t < toCopy →
        disk.readSector (wrap32 (startSector + t)) ≠ none) →
      ∃ buf' reads', copySectors disk stack startSector toCopy left s (min (512 * s) toCopy) buf
          reads = (true, buf', reads') ∧
        (∀ k, min (512 * s) toCopy ≤ k → k < min (512 * (s + left)) toCopy →
          fileByte disk startSector k = some (buf' k)) ∧
        ∀ k, k < min (512 * s) toCopy ∨ min (512 * (s + left)) toCopy ≤ k → buf' k = buf k := by
  induction left with
  | zero =>
    intro s buf reads _
    exact ⟨buf, reads, rfl, fun k hfirst hlast ↦ absurd hlast (by omega), fun _ _ ↦ rfl⟩
  | succ left ih =>
    intro s buf reads hreadable
    rw [copySectors]
    by_cases hmore : 512 * s < toCopy
    · obtain ⟨sector, hsector⟩ := Option.ne_none_iff_exists'.mp (hreadable s le_rfl (by omega) hmore)
      have hcopied : min (512 * s) toCopy = 512 * s := min_eq_left hmore.le
      have hnext : 512 * s + (if toCopy - 512 * s > 512 then 512 else toCopy - 512 * s) =
          min (512 * (s + 1)) toCopy := by
        split_ifs <;> omega
      obtain ⟨buf', reads', hrest, hcopy, hkeep⟩ := ih (s + 1)
        (copyChunk buf (512 * s) (sector.onStack stack)
          (if toCopy - 512 * s > 512 then 512 else toCopy - 512 * s))
        (reads ++ [wrap32 (startSector + s)])
        fun t hfirst hlast ↦ hreadable t (by omega) (by omega)
      refine ⟨buf', reads', ?_, fun k hfirst hlast ↦ ?_, fun k hout ↦ ?_⟩
      · simp only [hcopied, if_pos hmore, hsector, hnext, hrest]
      · by_cases hlater : min (512 * (s + 1)) toCopy ≤ k
        · exact hcopy k hlater (by omega)
        · -- a byte of this sector, which the later ones leave alone
          have hdiv : k / 512 = s := by omega
          have hmod : k - 512 * s = k % 512 := by omega
          rw [hkeep k (Or.inl (by omega)), copyChunk_apply, hnext, if_pos (by omega), fileByte, hdiv,
            hsector, hmod, Sector.onStack_of_lt _ _ (Nat.mod_lt k (by norm_num))]
          rfl
      · rw [hkeep k (by omega), copyChunk_apply, hnext, if_neg (by omega)]
    · refine ⟨buf, reads, ?_, fun k hfirst hlast ↦ absurd hlast (by omega), fun _ _ ↦ rfl⟩
      rw [if_neg (by omega)]

/-! ### The entry that was found -/

section CopyFile

variable (disk : Disk) (stack : ℕ → UInt8) (e : Dirent) (buf : ℕ → UInt8) (bufSize : ℕ)
  (wantsSize : Bool) (reads : List ℕ)

/-- When the sum does not wrap, there are enough sectors for what is to be copied. -/
theorem toCopy_le_sectors {size bufSize : ℕ} (hsize : bufSize = 0 ∨ size ≤ 2 ^ 32 - 512) :
    min size bufSize ≤ 512 * (wrap32 (size + 512 - 1) / 512) := by
  rcases hsize with hzero | hle
  · omega
  · rw [wrap32_of_lt (by omega)]
    omega

theorem toCopy_eq (size bufSize : ℕ) :
    (if size < bufSize then size else bufSize) = min size bufSize := by
  split_ifs <;> omega

theorem copyFile_reads_le :
    (copyFile disk stack e buf bufSize wantsSize reads).reads.length ≤ reads.length + 2 ^ 23 := by
  have hneeded : wrap32 (e.sizeBytes + 512 - 1) / 512 ≤ 2 ^ 23 := by
    have hlt : wrap32 (e.sizeBytes + 512 - 1) < 2 ^ 32 := Nat.mod_lt _ (by norm_num)
    omega
  have hreads := copySectors_reads_le disk stack e.startSector
    (if e.sizeBytes < bufSize then e.sizeBytes else bufSize)
    (wrap32 (e.sizeBytes + 512 - 1) / 512) 0 0 buf reads
  rw [copyFile]
  split
  next heq => rw [heq] at hreads; exact hreads.trans (Nat.add_le_add_left hneeded _)
  next heq => rw [heq] at hreads; exact hreads.trans (Nat.add_le_add_left hneeded _)

variable {disk e bufSize}

/-- A sector of the file that cannot be read makes the call fail. -/
theorem copyFile_of_fails (hsize : bufSize = 0 ∨ e.sizeBytes ≤ 2 ^ 32 - 512)
    (hfails : ∃ k < min e.sizeBytes bufSize, fileByte disk e.startSector k = none) :
    (copyFile disk stack e buf bufSize wantsSize reads).result = false ∧
      (copyFile disk stack e buf bufSize wantsSize reads).outSize = none := by
  obtain ⟨k, hk, hbyte⟩ := hfails
  have hsector : disk.readSector (wrap32 (e.startSector + k / 512)) = none :=
    Option.map_eq_none_iff.mp hbyte
  have hmore : 512 * (k / 512) < min e.sizeBytes bufSize := by omega
  have henough := toCopy_le_sectors hsize
  have hloop := copySectors_of_fails stack (wrap32 (e.sizeBytes + 512 - 1) / 512) 0 buf reads
    ⟨k / 512, Nat.zero_le _, by omega, hmore, hsector⟩
  rw [copyFile, toCopy_eq]
  rw [Nat.mul_zero] at hloop
  split
  · exact ⟨rfl, rfl⟩
  next heq =>
    rw [heq] at hloop
    exact absurd hloop (by simp)

/-- When its sectors can be read, as much of the file as fits is in the buffer. -/
theorem copyFile_of_readable (hsize : bufSize = 0 ∨ e.sizeBytes ≤ 2 ^ 32 - 512)
    (hreadable : ∀ k < min e.sizeBytes bufSize, fileByte disk e.startSector k ≠ none) :
    (copyFile disk stack e buf bufSize wantsSize reads).outSize =
        (if wantsSize then some e.sizeBytes else none) ∧
      (∀ k < min e.sizeBytes bufSize, fileByte disk e.startSector k =
        some ((copyFile disk stack e buf bufSize wantsSize reads).buf k)) ∧
      ∀ k, min e.sizeBytes bufSize ≤ k →
        (copyFile disk stack e buf bufSize wantsSize reads).buf k = buf k := by
  have hsectors : ∀ t, 0 ≤ t → t < 0 + wrap32 (e.sizeBytes + 512 - 1) / 512 →
      512 * t < min e.sizeBytes bufSize → disk.readSector (wrap32 (e.startSector + t)) ≠ none := by
    intro t _ _ hmore hnone
    have hdiv : 512 * t / 512 = t := by omega
    refine hreadable (512 * t) hmore ?_
    rw [fileByte, hdiv, hnone]
    rfl
  obtain ⟨buf', reads', hloop, hcopy, hkeep⟩ :=
    copySectors_of_readable stack (wrap32 (e.sizeBytes + 512 - 1) / 512) 0 buf reads hsectors
  rw [Nat.mul_zero, Nat.zero_min] at hloop
  have henough := toCopy_le_sectors hsize
  rw [copyFile, toCopy_eq, hloop]
  exact ⟨rfl, fun k hk ↦ hcopy k (by omega) (by omega), fun k hk ↦ hkeep k (Or.inr (by omega))⟩

/-- For the last sizes the number of sectors wraps to zero: nothing is copied. -/
theorem copyFile_of_wrap (hlt : e.sizeBytes < 2 ^ 32) (hsize : 2 ^ 32 - 512 < e.sizeBytes) :
    copyFile disk stack e buf bufSize wantsSize reads =
      ⟨true, buf, if wantsSize then some e.sizeBytes else none, reads⟩ := by
  have hneeded : wrap32 (e.sizeBytes + 512 - 1) / 512 = 0 := by
    rw [wrap32]
    omega
  rw [copyFile, hneeded, copySectors]

end CopyFile

/-! ### The directory -/

section Directory

variable {disk : Disk} {stack : ℕ → UInt8} {vfs : Vfs} {name : CString}

/-- There is at most one entry that is found. -/
theorem Finds.unique {i i' : ℕ} {e e' : Dirent} (h : Finds disk stack vfs name i e)
    (h' : Finds disk stack vfs name i' e') : e = e' := by
  have hnotlt : ∀ {i i' : ℕ} {e e' : Dirent}, Finds disk stack vfs name i e →
      Finds disk stack vfs name i' e' → ¬ i < i' := by
    intro i i' e e' h h' hlt
    obtain ⟨other, hentry, hother⟩ := h'.passes i hlt
    obtain rfl := Option.some.inj (h.entry_eq.symm.trans hentry)
    rw [h.matches_name] at hother
    exact absurd hother (by simp)
  obtain rfl : i = i' := le_antisymm (not_lt.mp (hnotlt h' h)) (not_lt.mp (hnotlt h h'))
  exact Option.some.inj (h.entry_eq.symm.trans h'.entry_eq)

/-- A name that is found is found before a sector that cannot be read. -/
theorem Finds.not_directoryFails {i : ℕ} {e : Dirent} (h : Finds disk stack vfs name i e) :
    ¬ DirectoryFails disk stack vfs name := by
  rintro ⟨j, -, hnone, hpasses⟩
  rcases Nat.lt_trichotomy i j with hlt | rfl | hlt
  · obtain ⟨other, hentry, hother⟩ := hpasses i hlt
    obtain rfl := Option.some.inj (h.entry_eq.symm.trans hentry)
    rw [h.matches_name] at hother
    exact absurd hother (by simp)
  · rw [h.entry_eq] at hnone
    exact absurd hnone (Option.some_ne_none e)
  · obtain ⟨other, hentry, -⟩ := h.passes j hlt
    rw [hnone] at hentry
    exact absurd hentry (Option.some_ne_none other).symm

theorem PassesOver.not_finds (h : PassesOver disk stack vfs name vfs.sb.fileCount) {i : ℕ}
    {e : Dirent} : ¬ Finds disk stack vfs name i e := by
  intro hfinds
  obtain ⟨other, hentry, hother⟩ := h i hfinds.lt_fileCount
  obtain rfl := Option.some.inj (hfinds.entry_eq.symm.trans hentry)
  rw [hfinds.matches_name] at hother
  exact absurd hother (by simp)

/-- The entries of a sector of the directory. -/
theorem entryAt_of_sector {k : ℕ} {sector : Sector}
    (hsector : disk.readSector (wrap32 (vfs.sb.dirStartSector + k)) = some sector) {i : ℕ}
    (hi : i < 8) :
    entryAt disk stack vfs (8 * k + i) = some (direntAt (sector.onStack stack) (i * 64)) := by
  have hdiv : (8 * k + i) / 8 = k := by omega
  have hmod : (8 * k + i) % 8 = i := by omega
  rw [entryAt, hdiv, hmod, hsector]
  rfl

theorem PassesOver.add {k n : ℕ} (h : PassesOver disk stack vfs name (8 * k)) (hn : n ≤ 8)
    {sector : Sector}
    (hsector : disk.readSector (wrap32 (vfs.sb.dirStartSector + k)) = some sector)
    (hothers : ∀ i < n, strEq (direntAt (sector.onStack stack) (i * 64)).name name.bytes = false) :
    PassesOver disk stack vfs name (8 * k + n) := by
  intro j hj
  by_cases hlow : j < 8 * k
  · exact h j hlow
  · obtain ⟨i, rfl⟩ := Nat.exists_eq_add_of_le (not_lt.mp hlow)
    exact ⟨_, entryAt_of_sector hsector (by omega), hothers i (by omega)⟩

variable (buf : ℕ → UInt8) (bufSize : ℕ) (wantsSize : Bool)

/-- The search from sector `k` of the directory on, when the entries before it have other names. It
ends with the entry that is found, or there is none. -/
theorem searchDirectory_spec (remaining : ℕ) :
    ∀ (k : ℕ) (reads : List ℕ), remaining = vfs.sb.fileCount - 8 * k → 8 * k ≤ vfs.sb.fileCount + 7 →
      PassesOver disk stack vfs name (min (8 * k) vfs.sb.fileCount) →
      (∃ i e found, Finds disk stack vfs name i e ∧
        searchDirectory disk stack name buf bufSize wantsSize remaining
          (wrap32 (vfs.sb.dirStartSector + k)) reads =
            copyFile disk stack e buf bufSize wantsSize found ∧
        found.length ≤ reads.length + (remaining + 7) / 8) ∨
      ∃ all, searchDirectory disk stack name buf bufSize wantsSize remaining
          (wrap32 (vfs.sb.dirStartSector + k)) reads = ⟨false, buf, none, all⟩ ∧
        (DirectoryFails disk stack vfs name ∨ PassesOver disk stack vfs name vfs.sb.fileCount) ∧
        all.length ≤ reads.length + (remaining + 7) / 8 := by
  induction remaining using Nat.strong_induction_on with
  | _ remaining ih =>
  intro k reads hremaining hk hpasses
  rw [searchDirectory]
  by_cases hmore : remaining > 0
  · have hbefore : PassesOver disk stack vfs name (8 * k) := by
      rwa [min_eq_left (by omega)] at hpasses
    rw [if_pos hmore]
    cases hsector : disk.readSector (wrap32 (vfs.sb.dirStartSector + k)) with
    | none =>
      refine Or.inr ⟨_, rfl, Or.inl ⟨8 * k, by omega, ?_, hbefore⟩, ?_⟩
      · have hdiv : 8 * k / 8 = k := by omega
        rw [entryAt, hdiv, hsector]
        rfl
      · rw [List.length_append, List.length_singleton]
        omega
    | some sector =>
      obtain ⟨n, hn⟩ : ∃ n, n = if remaining < 8 then remaining else 8 := ⟨_, rfl⟩
      have hbound : n ≤ 8 ∧ n ≤ remaining ∧ 0 < n ∧ (n < 8 → n = remaining) := by
        rw [hn]
        split_ifs <;> omega
      dsimp only
      rw [← hn]
      cases hfind : (List.range n).find? fun i ↦
          strEq (direntAt (sector.onStack stack) (i * 64)).name name.bytes with
      | some i =>
        obtain ⟨hname, hi, hothers⟩ := List.find?_range_eq_some.mp hfind
        have hlt := List.mem_range.mp hi
        refine Or.inl ⟨8 * k + i, _, _, ⟨by omega, entryAt_of_sector hsector (by omega), hname, ?_⟩,
          rfl, ?_⟩
        · refine hbefore.add (by omega) hsector fun j hj ↦ ?_
          simpa using hothers j hj
        · rw [List.length_append, List.length_singleton]
          omega
      | none =>
        have hothers := List.find?_range_eq_none.mp hfind
        have hafter : PassesOver disk stack vfs name (8 * k + n) :=
          hbefore.add hbound.1 hsector fun j hj ↦ by simpa using hothers j hj
        have hwrap : wrap32 (wrap32 (vfs.sb.dirStartSector + k) + 1) =
            wrap32 (vfs.sb.dirStartSector + (k + 1)) := Nat.mod_add_mod _ _ _
        have hmin : min (8 * (k + 1)) vfs.sb.fileCount = 8 * k + n := by omega
        rw [← hmin] at hafter
        dsimp only
        rw [hwrap]
        rcases ih (remaining - n) (by omega) (k + 1) (reads ++ [wrap32 (vfs.sb.dirStartSector + k)])
          (by omega) (by omega) hafter with
          ⟨i, e, found, hfinds, heq, hlength⟩ | ⟨all, heq, hnone, hlength⟩
        · refine Or.inl ⟨i, e, found, hfinds, heq, hlength.trans ?_⟩
          rw [List.length_append, List.length_singleton]
          omega
        · refine Or.inr ⟨all, heq, hnone, hlength.trans ?_⟩
          rw [List.length_append, List.length_singleton]
          omega
  · rw [min_eq_right (by omega)] at hpasses
    rw [if_neg hmore]
    exact Or.inr ⟨reads, rfl, Or.inr hpasses, Nat.le_add_right _ _⟩

/-- A call on a disk with a filesystem. -/
theorem vfsReadFile_spec (havailable : vfs.available = true)
    (hstart : vfs.sb.dirStartSector < 2 ^ 32) :
    (∃ i e found, Finds disk stack vfs name i e ∧
      vfsReadFile disk stack vfs name buf bufSize wantsSize =
        copyFile disk stack e buf bufSize wantsSize found ∧
      found.length ≤ (vfs.sb.fileCount + 7) / 8) ∨
    ∃ all, vfsReadFile disk stack vfs name buf bufSize wantsSize = ⟨false, buf, none, all⟩ ∧
      (∀ i e, ¬ Finds disk stack vfs name i e) ∧ all.length ≤ (vfs.sb.fileCount + 7) / 8 := by
  have hnone : PassesOver disk stack vfs name (min (8 * 0) vfs.sb.fileCount) :=
    fun j hj ↦ absurd hj (by omega)
  have hsearch := searchDirectory_spec buf bufSize wantsSize vfs.sb.fileCount 0 [] (by omega)
    (by omega) hnone
  rw [Nat.add_zero, wrap32_of_lt hstart, List.length_nil, Nat.zero_add] at hsearch
  rw [vfsReadFile, havailable]
  rcases hsearch with hfound | ⟨all, heq, hfails | hpasses, hlength⟩
  · exact Or.inl hfound
  · exact Or.inr ⟨all, heq, fun i e hfinds ↦ hfinds.not_directoryFails hfails, hlength⟩
  · exact Or.inr ⟨all, heq, fun i e ↦ hpasses.not_finds, hlength⟩

theorem Finds.sizeBytes_lt {i : ℕ} {e : Dirent} (h : Finds disk stack vfs name i e) :
    e.sizeBytes < 2 ^ 32 := by
  obtain ⟨sector, -, rfl⟩ := Option.map_eq_some_iff.mp h.entry_eq
  exact u32At_lt _ _

/-- The number of reads is bounded. -/
theorem vfsReadFile_reads_le (hstart : vfs.sb.dirStartSector < 2 ^ 32) :
    (vfsReadFile disk stack vfs name buf bufSize wantsSize).reads.length ≤
      (vfs.sb.fileCount + 7) / 8 + 2 ^ 23 := by
  cases havailable : vfs.available with
  | false =>
    rw [vfsReadFile, havailable]
    exact Nat.zero_le _
  | true =>
    rcases vfsReadFile_spec buf bufSize wantsSize havailable hstart with
      ⟨i, e, found, -, heq, hlength⟩ | ⟨all, heq, -, hlength⟩
    · rw [heq]
      have hle := copyFile_reads_le disk stack e buf bufSize wantsSize found
      omega
    · rw [heq]
      exact hlength.trans (Nat.le_add_right _ _)

variable {bufSize}

/-- A call is as expected when the size of the entry that is found is not one of the last, or there is
nothing to copy. -/
theorem readsFile_of_sizes (hstart : vfs.sb.dirStartSector < 2 ^ 32)
    (hsizes : vfs.available = true → ∀ i e, Finds disk stack vfs name i e →
      bufSize = 0 ∨ e.sizeBytes ≤ 2 ^ 32 - 512) :
    ReadsFile disk stack vfs name bufSize wantsSize := by
  refine ⟨fun buf hresult ↦ ?_, fun buf hneeded ↦ ?_, fun buf ↦ ?_⟩
  · cases havailable : vfs.available with
    | false =>
      rw [vfsReadFile, havailable] at hresult
      exact absurd hresult (by simp)
    | true =>
      rcases vfsReadFile_spec buf bufSize wantsSize havailable hstart with
        ⟨i, e, found, hfinds, heq, -⟩ | ⟨all, heq, -⟩
      · have hsize := hsizes havailable i e hfinds
        rw [heq] at hresult ⊢
        have hreadable : ∀ k < min e.sizeBytes bufSize, fileByte disk e.startSector k ≠ none := by
          intro k hk hnone
          have hfails := (copyFile_of_fails stack buf wantsSize found hsize ⟨k, hk, hnone⟩).1
          rw [hresult] at hfails
          exact absurd hfails (by simp)
        exact ⟨i, e, hfinds, copyFile_of_readable stack buf wantsSize found hsize hreadable⟩
      · rw [heq] at hresult
        exact absurd hresult (by simp)
  · cases havailable : vfs.available with
    | false =>
      rw [vfsReadFile, havailable]
      exact ⟨rfl, rfl⟩
    | true =>
      rcases vfsReadFile_spec buf bufSize wantsSize havailable hstart with
        ⟨i, e, found, hfinds, heq, -⟩ | ⟨all, heq, -⟩
      · rcases hneeded with hdirectory | ⟨i', e', hfinds', k, hk, hnone⟩
        · exact absurd hdirectory hfinds.not_directoryFails
        · obtain rfl := hfinds.unique hfinds'
          rw [heq]
          exact copyFile_of_fails stack buf wantsSize found (hsizes havailable i e hfinds)
            ⟨k, hk, hnone⟩
      · rw [heq]
        exact ⟨rfl, rfl⟩
  · exact vfsReadFile_reads_le buf bufSize wantsSize hstart

/-- For one of the last sizes, a call succeeds and leaves the buffer as it was. -/
theorem not_readsFile_of_wrap (havailable : vfs.available = true)
    (hstart : vfs.sb.dirStartSector < 2 ^ 32) {i : ℕ} {e : Dirent}
    (hfinds : Finds disk stack vfs name i e) (hsize : 2 ^ 32 - 512 < e.sizeBytes)
    (hbuf : 0 < bufSize) : ¬ ReadsFile disk stack vfs name bufSize wantsSize := by
  intro hreads
  have hfirst : ∀ buf : ℕ → UInt8, fileByte disk e.startSector 0 = some (buf 0) := by
    intro buf
    rcases vfsReadFile_spec buf bufSize wantsSize havailable hstart with
      ⟨i', e', found, hfinds', heq, -⟩ | ⟨all, -, hnone, -⟩
    · obtain rfl := hfinds.unique hfinds'
      rw [copyFile_of_wrap stack buf wantsSize found hfinds.sizeBytes_lt hsize] at heq
      obtain ⟨i'', e'', hfinds'', -, hbytes, -⟩ := hreads.delivers buf (by rw [heq])
      obtain rfl := hfinds.unique hfinds''
      rw [hbytes 0 (by omega), heq]
    · exact absurd hfinds (hnone i e)
  have hsame := (hfirst fun _ ↦ 0).symm.trans (hfirst fun _ ↦ 1)
  exact absurd (Option.some.inj hsame) (by decide)

end Directory

/-! ### A file that is too large -/

/-- A disk with one file, `a`, of which only the size is given. Its only sector is sector 2. -/
def oneFileDisk (size : ℕ) : Disk where
  available := true
  readSector := fun lba ↦
    if lba = 0 then
      some fun i ↦ (le32 mkfsMagic ++ le32 1 ++ le32 1 ++ le32 2).getD i 0
    else if lba = 1 then
      some fun i ↦ (ljust 32 [97] ++ le32 2 ++ le32 size).getD i 0
    else if lba = 2 then some fun _ ↦ 7
    else none

/-- The filesystem on that disk. -/
def oneFileVfs (size : ℕ) : Vfs :=
  (vfsInit (oneFileDisk size) (fun _ ↦ 0) ⟨false, ⟨0, 0, 0, 0⟩⟩).1

/-- The name of the file. -/
def oneFileName : CString := ⟨[97], fun b hb ↦ by rw [List.mem_singleton.mp hb]; decide⟩

theorem oneFileVfs_eq (size : ℕ) : oneFileVfs size = ⟨true, ⟨mkfsMagic, 1, 1, 2⟩⟩ := rfl

theorem finds_oneFile (size : ℕ) :
    Finds (oneFileDisk size) (fun _ ↦ 0) (oneFileVfs size) oneFileName 0
      (direntAt (Sector.onStack (fun i ↦ (ljust 32 [97] ++ le32 2 ++ le32 size).getD i 0)
        fun _ ↦ 0) 0) := by
  rw [oneFileVfs_eq]
  exact ⟨Nat.one_pos, rfl, rfl, fun j hj ↦ absurd hj (Nat.not_lt_zero j)⟩

/-- A file of `2 ^ 32 - 1` bytes is said to have been read, and the buffer is as it was. -/
theorem not_readsFile_huge :
    ¬ ReadsFile (oneFileDisk (2 ^ 32 - 1)) (fun _ ↦ 0) (oneFileVfs (2 ^ 32 - 1)) oneFileName 4 true :=
  not_readsFile_of_wrap true rfl (by decide) (finds_oneFile _) (by decide) (by decide)

/-- On every disk, for every name and every buffer: a call of `vfs_read_file` is as expected exactly if
there is no filesystem, the buffer has no room, or the entry that the search finds, if there is one, has
a size of at most `2 ^ 32 - 512`. -/
theorem readsFile_iff (disk : Disk) (stack : ℕ → UInt8) (vfs : Vfs) (name : CString) (bufSize : ℕ)
    (wantsSize : Bool) (hstart : vfs.sb.dirStartSector < 2 ^ 32) :
    ReadsFile disk stack vfs name bufSize wantsSize ↔
      vfs.available = false ∨ bufSize = 0 ∨
        ∀ i e, Finds disk stack vfs name i e → e.sizeBytes ≤ 2 ^ 32 - 512 := by
  constructor
  · intro hreads
    cases havailable : vfs.available with
    | false => exact Or.inl rfl
    | true =>
      refine Or.inr (Or.symm (or_iff_not_imp_right.mpr fun hbuf i e hfinds ↦ ?_))
      by_contra hsize
      exact not_readsFile_of_wrap wantsSize havailable hstart hfinds (not_le.mp hsize)
        (Nat.pos_of_ne_zero hbuf) hreads
  · intro hcondition
    refine readsFile_of_sizes wantsSize hstart fun havailable i e hfinds ↦ ?_
    rcases hcondition with hnone | hbuf | hsizes
    · rw [havailable] at hnone
      exact absurd hnone (by simp)
    · exact Or.inl hbuf
    · exact Or.inr (hsizes i e hfinds)

/-- A file of three bytes is read as expected. -/
theorem readsFile_iff_three_bytes :
    ReadsFile (oneFileDisk 3) (fun _ ↦ 0) (oneFileVfs 3) oneFileName 4 true := by
  refine (readsFile_iff (oneFileDisk 3) (fun _ ↦ 0) (oneFileVfs 3) oneFileName 4 true
    (by decide)).mpr (Or.inr (Or.inr fun i e hfinds ↦ ?_))
  obtain rfl := (finds_oneFile 3).unique hfinds
  decide

end MegKer.Fs
