import MegKer.Process.LoadedSpace

/-!
# The loader is correct

For an image whose segments have pages of their own (`Separated`), and with enough frames, the address
space in which user mode is entered holds the segments as the program headers describe them: the bytes
of the file at their addresses, zeros around them, open to user mode, and writable where `PF_W` is set
(`processRun_loads`). The kernel space is left alone, and where the process has no page of its own, its
address space is that of the kernel.
-/

set_option autoImplicit false
set_option relaxedAutoImplicit false

namespace MegKer.Process

open Foundation Memory Vmm

/-! ### Reading an address space -/

/-- The byte at a virtual address, read through `vmm_translate`. -/
def byteIn (backend : Backend) (s : Spaces) (space : Handle) (v : ℕ) : UInt8 :=
  s.machine.mem.byteAt (translateIn backend s space v)

/-- The permissions of the page of a virtual address. -/
def permissionsIn (port : Port) (s : Spaces) (space : Handle) (v : ℕ) : Option X86.Permissions :=
  (s.root space).bind fun root ↦
    port.permissions (port.paging.walkTo s.machine.mem root (port.paging.pageOf v))

section Reading

variable {port : Port} {start s : Spaces} {space : Handle} {root : ℕ} {levels : ℕ → ℕ}
  {u : UserSpace} {frameOf : ℕ → ℕ}

/-- The bytes of the abstract model are those of the address space. -/
theorem Shows.byteIn_eq
    (h : Shows port.paging port.reserved start space root levels u frameOf s) {v : ℕ} {byte : UInt8}
    (hread : u.read port.paging v = some byte) : byteIn port.backend s space v = byte := by
  obtain ⟨content, hcontent, hbyte⟩ := Option.bind_eq_some_iff.mp hread
  obtain ⟨bytes, hbytes, rfl⟩ := Option.map_eq_some_iff.mp hbyte
  rw [byteIn, translateIn, h.root_eq]
  exact h.byteAt_translate hcontent hbytes

/-- So are the permissions that its flags ask for. -/
theorem Shows.permissionsIn_eq (hstart : port.Reachable start)
    (h : Shows port.paging port.reserved start space root levels u frameOf s) {v flags : ℕ}
    (hflags : u.flagsAt port.paging v = some flags) :
    permissionsIn port s space v = some (X86.requested flags) := by
  obtain ⟨content, hcontent, rfl⟩ := Option.map_eq_some_iff.mp hflags
  obtain ⟨old, hleaf⟩ := h.shown _ (port.paging.pageOf_lt v) content hcontent
  obtain ⟨calls, hcalls, hnever, hs⟩ := h.reached.reachable hstart h.well
  rw [permissionsIn, h.root_eq, Option.bind_some]
  have hroot := h.root_eq
  rw [← hs] at hnever hroot hleaf ⊢
  exact Port.permissions_edit hcalls hnever hroot hleaf (h.present _ content hcontent)

/-- Another space translates as at the start. -/
theorem Shows.translateIn_other
    (h : Shows port.paging port.reserved start space root levels u frameOf s) {other : Handle}
    (hother : other ≠ space) (hlive : start.root other ≠ none) (v : ℕ) :
    translateIn port.backend s other v = translateIn port.backend start other v := by
  obtain ⟨otherRoot, hroot⟩ := Option.ne_none_iff_exists'.mp hlive
  have huntouched := h.untouched other hother hlive
  rw [translateIn, translateIn, huntouched.1, hroot]
  exact huntouched.translate_eq hroot v

/-- Where the loader has mapped nothing, the space translates as the kernel space does. -/
theorem Shows.translateIn_vacant
    (h : Shows port.paging port.reserved start space root levels u frameOf s) {v : ℕ}
    (hpage : u (port.paging.pageOf v) = none) :
    translateIn port.backend s space v = translateIn port.backend start .kernel v := by
  rw [translateIn, h.root_eq]
  exact h.translate_vacant hpage

end Reading

/-! ### Images whose segments have pages of their own -/

/-- The bytes of the file are in the image and fit into their segments, and the rounded ranges of the
segments lie in the range of the tables, off the identity map and the user stack, and off each
other. -/
structure Separated (port : Port) (image : Image) : Prop where
  filesz_le : ∀ i < image.ePhnum, (image.programHeader i).isLoad = true →
    (image.programHeader i).pFilesz ≤ (image.programHeader i).pMemsz
  file_within : ∀ i < image.ePhnum, (image.programHeader i).isLoad = true →
    (image.programHeader i).pOffset + (image.programHeader i).pFilesz ≤ image.size
  va_within : ∀ i < image.ePhnum, (image.programHeader i).isLoad = true →
    (image.programHeader i).pVaddr + (image.programHeader i).pMemsz ≤ 2 ^ port.vaBits
  off_identity : ∀ i < image.ePhnum, ∀ v, (image.programHeader i).Covers v →
    4096 * port.identityPages ≤ v
  off_stack : ∀ i < image.ePhnum, ∀ v, (image.programHeader i).Covers v →
    ∀ k < userStackPages, v / 4096 ≠ stackPage port.userStackTop k / 4096
  disjoint : ∀ i < image.ePhnum, ∀ j < image.ePhnum, i ≠ j →
    ∀ v, (image.programHeader i).Covers v → ¬ (image.programHeader j).Covers v

namespace Separated

variable {port : Port} {image : Image} (h : Separated port image)

include h

theorem noWrap {i : ℕ} (hi : i < image.ePhnum) (hload : (image.programHeader i).isLoad = true) :
    (image.programHeader i).NoWrap := by
  have hend := h.va_within i hi hload
  have hbits := port.vaBits_le
  unfold ProgramHeader.NoWrap
  omega

theorem lt_of_covers {i v : ℕ} (hi : i < image.ePhnum) (hv : (image.programHeader i).Covers v) :
    v < 2 ^ port.vaBits := by
  have hend := (h.noWrap hi hv.1).vend_eq
  have hwithin := h.va_within i hi hv.1
  have hlt := hv.2.2
  have hpages := port.size_pages
  omega

/-- The bytes of the file go to pages of their segment. -/
theorem covers_of_inFile {i v : ℕ} (hi : i < image.ePhnum) (hv : (image.programHeader i).InFile v) :
    (image.programHeader i).Covers v := by
  obtain ⟨hload, hfirst, hlast⟩ := hv
  have hle := h.filesz_le i hi hload
  exact (h.noWrap hi hload).covers_of_occupies ⟨hload, hfirst, by omega⟩

theorem fills_iff {i v : ℕ} (hi : i < image.ePhnum) :
    (image.programHeader i).Fills v ↔ (image.programHeader i).Covers v :=
  or_iff_left_of_imp (h.covers_of_inFile hi)

theorem mappable : Mappable port image where
  noWrap := fun _ hi hload ↦ h.noWrap hi hload
  off_identity := fun i hi v hv ↦ by
    have hlow := h.off_identity i hi v hv
    rw [pageOf_eq_div (h.lt_of_covers hi hv)]
    omega
  file_mapped := fun i hi _ hv ↦ ⟨i, le_rfl, h.covers_of_inFile hi hv⟩

theorem withinTables : WithinTables port image := by
  intro i hi v hv
  rw [port.size_pages]
  exact h.lt_of_covers hi hv

/-- An address on a page of a segment, and only there. -/
theorem loaded {i v : ℕ} (hi : i < image.ePhnum) (hv : (image.programHeader i).Covers v) :
    image.loadedByte v image.ePhnum = some ((image.programHeader i).content image v) ∧
      image.loadedFlags v image.ePhnum = some (image.programHeader i).segFlags := by
  have hother : ∀ k < image.ePhnum, i < k → ¬ (image.programHeader k).Covers v :=
    fun k hk hlt ↦ h.disjoint i hi k hk (by omega) v hv
  refine ⟨Image.loadedByte_of_last ((h.fills_iff hi).mpr hv) hi fun k hk hlt ↦ ?_,
    Image.loadedFlags_of_last hv hi hother⟩
  rw [h.fills_iff hk]
  exact hother k hk hlt

/-- The pages of the user stack are others. -/
theorem ne_stackPage {i v : ℕ} (hi : i < image.ePhnum) (hv : (image.programHeader i).Covers v) :
    ∀ k < userStackPages,
      port.paging.pageOf v ≠ port.paging.pageOf (stackPage port.userStackTop k) := by
  intro k hk
  have hbounds := stackPage_bounds port hk
  rw [pageOf_eq_div (h.lt_of_covers hi hv), pageOf_eq_div (by omega)]
  exact h.off_stack i hi v hv k hk

end Separated

/-! ### The loader -/

/-- The flags of a segment ask for a user page that is writable if `PF_W` is set. -/
theorem requested_segFlags (ph : ProgramHeader) :
    X86.requested ph.segFlags = ⟨true, hasFlags ph.pFlags pfW⟩ := by
  unfold ProgramHeader.segFlags
  dsimp only
  split_ifs with hwritable
  · rw [hwritable]
    decide
  · rw [Bool.not_eq_true] at hwritable
    rw [hwritable]
    decide

/-- On either port, after every run in which no request for a frame has failed: an image that is
accepted, whose segments have pages of their own, and for which there are enough frames, is loaded. When
user mode is entered, every byte of the rounded range of a segment is the byte of the file that belongs
there, or 0; its page is open to user mode, and writable exactly if `PF_W` is set; the kernel space
translates every address as before the call; and so does the new space, on all pages that belong to
neither a segment nor the user stack. -/
theorem processRun_loads (port : Port) (kmalloc : Spaces → Spaces) (image : Image) (s : Spaces)
    (hs : port.Reachable s) (hheap : Allocates port kmalloc s)
    (hvalid : elfValid port.elfMachine image = true) (himage : Separated port image)
    (hframes : EnoughFrames port kmalloc s (plan port.userStackTop image)) :
    ∃ l, port.processRun kmalloc image s = .entered l ⟨image.eEntry, port.userStackTop⟩ ∧
      ∀ entry, HeapSteps port.paging l.taken l.spaces entry →
        (∀ i < image.ePhnum, ∀ v, (image.programHeader i).Covers v →
          byteIn port.backend entry (.user s.next) v =
            (if (image.programHeader i).pVaddr ≤ v ∧
                v - (image.programHeader i).pVaddr < (image.programHeader i).pFilesz then
              image.byte ((image.programHeader i).pOffset + (v - (image.programHeader i).pVaddr))
            else 0) ∧
          permissionsIn port entry (.user s.next) v =
            some ⟨true, hasFlags (image.programHeader i).pFlags pfW⟩) ∧
        (∀ v, translateIn port.backend entry .kernel v = translateIn port.backend s .kernel v) ∧
        ∀ v < 2 ^ port.vaBits, (∀ i < image.ePhnum, ¬ (image.programHeader i).Covers v) →
          (∀ k < userStackPages, v / 4096 ≠ stackPage port.userStackTop k / 4096) →
            translateIn port.backend entry (.user s.next) v =
              translateIn port.backend s .kernel v := by
  obtain ⟨root, frameOf, hshows, -, hconfined, -⟩ :=
    exists_holds hs hheap himage.mappable.admissible hframes
  refine ⟨_, processRun_entered hvalid, fun entry hsteps ↦ ?_⟩
  have hentry := hshows.heapSteps hconfined.taken hsteps
  have hsegments : ∀ v, (∀ k < userStackPages,
      port.paging.pageOf v ≠ port.paging.pageOf (stackPage port.userStackTop k)) →
      UserSpace.empty.run port.paging image (plan port.userStackTop image) (port.paging.pageOf v) =
        UserSpace.empty.run port.paging image (segmentsPlan image image.ePhnum)
          (port.paging.pageOf v) := by
    intro v hstack
    exact (congrFun (UserSpace.run_append _ _ _) _).trans (run_stackPlan_of_ne hstack _)
  refine ⟨fun i hi v hv ↦ ?_, fun v ↦ ?_, fun v hv hnone hstack ↦ ?_⟩
  · have hlt := himage.lt_of_covers hi hv
    have hsame := hsegments v (himage.ne_stackPage hi hv)
    obtain ⟨hread, hflags⟩ := himage.mappable.read_segments himage.withinTables
      (by rw [port.size_pages]; exact hlt) image.ePhnum le_rfl
    obtain ⟨hbyte, hpermissions⟩ := himage.loaded hi hv
    constructor
    · rw [hbyte, UserSpace.read, ← hsame] at hread
      rw [hentry.byteIn_eq hread, ProgramHeader.content]
      have hsize := himage.file_within i hi hv.1
      have hbound := image.size_lt
      split_ifs with hin hin' hin'
      · rw [wrap_of_lt (by omega)]
      · omega
      · omega
      · rfl
    · rw [hpermissions, UserSpace.flagsAt, ← hsame] at hflags
      rw [hentry.permissionsIn_eq hs hflags, requested_segFlags]
  · have hne : Handle.kernel ≠ .user s.next := Handle.noConfusion
    have hlive : s.root .kernel ≠ none := Option.some_ne_none s.kernelRoot
    exact hentry.translateIn_other hne hlive v
  · have hpages : ∀ k < userStackPages,
        port.paging.pageOf v ≠ port.paging.pageOf (stackPage port.userStackTop k) := by
      intro k hk
      have hbounds := stackPage_bounds port hk
      rw [pageOf_eq_div hv, pageOf_eq_div (by omega)]
      exact hstack k hk
    obtain ⟨-, hflags⟩ := himage.mappable.read_segments himage.withinTables
      (by rw [port.size_pages]; exact hv) image.ePhnum le_rfl
    rw [Image.loadedFlags_eq_none hnone, UserSpace.flagsAt, ← hsegments v hpages] at hflags
    exact hentry.translateIn_vacant (Option.map_eq_none_iff.mp hflags)

theorem sampleImage_separated : Separated (.aarch64 AArch64.Boot.sample) sampleImage := by
  obtain ⟨-, -, hoffset, hvaddr, hfilesz, hmemsz, -, -, hsize⟩ := sampleImage_header
  have hzero : ∀ {i : ℕ}, i < sampleImage.ePhnum → i = 0 := sampleImage_index
  have hrange : ∀ {i v : ℕ}, i < sampleImage.ePhnum → (sampleImage.programHeader i).Covers v →
      0x80000000 ≤ v ∧ v < 0x80001000 := sampleImage_covers
  refine ⟨fun i hi _ ↦ ?_, fun i hi _ ↦ ?_, fun i hi _ ↦ ?_, fun i hi v hv ↦ ?_,
    fun i hi v hv k hk ↦ ?_, fun i hi j hj hne ↦ absurd ((hzero hi).trans (hzero hj).symm) hne⟩
  · rw [hzero hi, hfilesz, hmemsz]
    decide
  · rw [hzero hi, hoffset, hfilesz, hsize]
  · rw [hzero hi, hvaddr, hmemsz]
    change 0x80000010 + 8 ≤ 2 ^ 39
    decide
  · exact (hrange hi hv).1
  · have hk : k < 4 := hk
    have hbounds := hrange hi hv
    change v / 4096 ≠ (0xF0000000 - (k + 1) * 4096) / 4096
    omega

/-- The second byte of the sample is where its header says, on a page that is writable. -/
theorem processRun_loads_sample :
    ∃ l, processRunAarch64 (takeArena AArch64.backend) sampleImage AArch64.Boot.sample.spaces =
        .entered l ⟨sampleImage.eEntry, userStackTopAarch64⟩ ∧
      byteIn AArch64.backend l.spaces (.user AArch64.Boot.sample.spaces.next) 0x80000011 = 2 := by
  obtain ⟨hcount, hload, hoffset, hvaddr, hfilesz, -, hstart, hend, -⟩ := sampleImage_header
  obtain ⟨l, hrun, hentry⟩ := processRun_loads (.aarch64 AArch64.Boot.sample)
    (takeArena AArch64.backend) sampleImage AArch64.Boot.sample.spaces
    (Port.reachable_spaces (.aarch64 AArch64.Boot.sample)) (takeArena_allocates _ _) sampleImage_valid
    sampleImage_separated sampleImage_frames
  refine ⟨l, hrun, ?_⟩
  have hbyte := ((hentry l.spaces (.refl _)).1 0 (by omega) 0x80000011
    ⟨hload, by omega, by omega⟩).1
  rw [hoffset, hvaddr, hfilesz] at hbyte
  have hvalue : sampleImage.byte (120 + (0x80000011 - 0x80000010)) = 2 := by decide +kernel
  rw [if_pos (by omega), hvalue] at hbyte
  exact hbyte

end MegKer.Process
