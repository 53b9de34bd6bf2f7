import MegKer.Foundation.MachineWord
import MegKer.Foundation.WordBytes
import MegKer.Vmm.TableReclamation

/-!
# The ELF loader

`process_run` of the two `process.c`, up to the entry into user mode. The two files differ in the
machine that an image has to name and in the place of the user stack; the code is translated once,
with these as parameters, and each port has its instance.

An image is the memory from `elf_data` on, together with `elf_size`: nothing keeps the loader from
reading past the end, and all its address arithmetic wraps. The bytes are fixed during a call, as the
image is not in a free frame. A `Loader` is the state it works on, the address spaces, and three
records that the C code does not keep: the frames it was given, the offsets of the image it has read,
and the addresses to which it has written bytes of the file.

The loops are translated as they stand. What they do one after the other is also written down as a
list of steps, the `plan` of an image, which depends on nothing but the image; `processRun_eq` states
that the loops carry it out. The proofs are by induction on that list.
-/

set_option autoImplicit false
set_option relaxedAutoImplicit false

namespace MegKer.Process

open Foundation Memory Vmm

/-! ### Images -/

/-- An ELF image: the bytes from `elf_data` on, by their offset, and `elf_size`. -/
structure Image where
  byte : ℕ → UInt8
  size : ℕ
  size_lt : size < 2 ^ 64

namespace Image

/-- The byte at an offset that was computed in 64 bits. -/
def read (image : Image) (offset : ℕ) : UInt8 := image.byte (wrap offset)

/-- The number that two bytes stand for. -/
def u16At (image : Image) (offset : ℕ) : ℕ :=
  (image.read offset).toNat + 256 * (image.read (offset + 1)).toNat

def eMachine (image : Image) : ℕ := image.u16At 18

def eEntry (image : Image) : ℕ := u64At image.read 24

def ePhoff (image : Image) : ℕ := u64At image.read 32

def ePhnum (image : Image) : ℕ := image.u16At 56

end Image

/-- The bytes of a field that is read at an offset. -/
def fieldOffsets (offset width : ℕ) : List ℕ := (List.range width).map fun k ↦ wrap (offset + k)

/-- `sizeof(elf64_ehdr_t)`. -/
def ehdrSize : ℕ := 64

/-- `sizeof(elf64_phdr_t)`. -/
def phdrSize : ℕ := 56

def elfClass64 : UInt8 := 2

/-- `elf_valid`, for the machine of the port. -/
def elfValid (machine : ℕ) (image : Image) : Bool :=
  if image.size < ehdrSize then false
  else if image.read 0 ≠ 0x7F ∨ image.read 1 ≠ 0x45 ∨ image.read 2 ≠ 0x4C ∨ image.read 3 ≠ 0x46 then
    false
  else if image.read 4 ≠ elfClass64 then false
  else if image.eMachine ≠ machine then false
  else true

/-- The offsets that `elf_valid` looks at; none when the image is shorter than a header. -/
def elfValidReads (image : Image) : List ℕ :=
  if image.size < ehdrSize then [] else [0, 1, 2, 3, 4] ++ fieldOffsets 18 2

/-- The fields of the header that are read after that: `e_entry`, `e_phoff` and `e_phnum`. -/
def headerReads : List ℕ := fieldOffsets 24 8 ++ fieldOffsets 32 8 ++ fieldOffsets 56 2

/-- The fields of an `elf64_phdr_t` that the loader uses. -/
structure ProgramHeader where
  pType : ℕ
  pFlags : ℕ
  pOffset : ℕ
  pVaddr : ℕ
  pFilesz : ℕ
  pMemsz : ℕ
  pOffset_lt : pOffset < 2 ^ 64
  pVaddr_lt : pVaddr < 2 ^ 64
  pFilesz_lt : pFilesz < 2 ^ 64
  pMemsz_lt : pMemsz < 2 ^ 64

theorem u64At_lt (read : ℕ → UInt8) (offset : ℕ) : u64At read offset < 2 ^ 64 := by
  have hlow := u32At_lt read offset
  have hhigh := u32At_lt read (offset + 4)
  rw [u64At]
  omega

/-- The offset of `ph[i]`. -/
def Image.phdrOffset (image : Image) (i : ℕ) : ℕ := image.ePhoff + phdrSize * i

/-- `ph[i]`. -/
def Image.programHeader (image : Image) (i : ℕ) : ProgramHeader where
  pType := u32At image.read (image.phdrOffset i)
  pFlags := u32At image.read (image.phdrOffset i + 4)
  pOffset := u64At image.read (image.phdrOffset i + 8)
  pVaddr := u64At image.read (image.phdrOffset i + 16)
  pFilesz := u64At image.read (image.phdrOffset i + 32)
  pMemsz := u64At image.read (image.phdrOffset i + 40)
  pOffset_lt := u64At_lt _ _
  pVaddr_lt := u64At_lt _ _
  pFilesz_lt := u64At_lt _ _
  pMemsz_lt := u64At_lt _ _

def ptLoad : ℕ := 1

def pfW : ℕ := 2

namespace ProgramHeader

variable (ph : ProgramHeader)

/-- The segment is loaded. -/
def isLoad : Bool := ph.pType == ptLoad

def vstart : ℕ := alignDown ph.pVaddr 4096

def vend : ℕ := alignUp (wrap (ph.pVaddr + ph.pMemsz)) 4096

/-- `seg_flags`. The flags have the same values in both `vmm.h`. -/
def segFlags : ℕ :=
  let flags := X86.vmmPresent ||| X86.vmmUser
  if hasFlags ph.pFlags pfW then flags ||| X86.vmmWritable else flags

/-- The number of rounds of the loop over the pages. Both ends are multiples of the page size, so
`va` takes the values `vstart + 4096 * k` and does not wrap. -/
def pageCount : ℕ := (ph.vend - ph.vstart) / 4096

end ProgramHeader

/-- The fields of `ph[i]` that are read: the type of every header, and the other fields of those that
are loaded. -/
def phdrReads (image : Image) (i : ℕ) : List ℕ :=
  fieldOffsets (image.phdrOffset i) 4 ++
    if (image.programHeader i).isLoad then
      fieldOffsets (image.phdrOffset i + 4) 4 ++ fieldOffsets (image.phdrOffset i + 8) 8 ++
        fieldOffsets (image.phdrOffset i + 16) 8 ++ fieldOffsets (image.phdrOffset i + 32) 8 ++
        fieldOffsets (image.phdrOffset i + 40) 8
    else []

/-! ### The code -/

/-- The state of the loader, with the records that statements are about: what `pmm_alloc_frame` has
returned to it, the offsets of the image it has read, and where it has written bytes of the file. -/
structure Loader where
  spaces : Spaces
  taken : List ℕ
  reads : List ℕ
  writes : List ℕ

/-- `vmm_translate` in a space that is known by its handle. -/
def translateIn (backend : Backend) (s : Spaces) (space : Handle) (virt : ℕ) : ℕ :=
  match s.root space with
  | some root => backend.translate s.machine root virt
  | none => 0

namespace Loader

variable (backend : Backend) (l : Loader)

/-- A step of the system. -/
def step (call : VmmCall) : Loader := { l with spaces := call.run backend l.spaces }

/-- `pmm_alloc_frame`. -/
def allocFrame : Loader × ℕ :=
  let frame := (pmmAllocFrame l.spaces.pmm).2
  ({ l.step backend (.others .allocFrame) with taken := frame :: l.taken }, frame)

end Loader

section Code

variable (backend : Backend) (image : Image) (space : Handle)

/-- One round of the loop over the pages of a segment. -/
def mapPage (segFlags : ℕ) (l : Loader) (va : ℕ) : Loader :=
  let (l, frame) := l.allocFrame backend
  let l := l.step backend (.write (l.spaces.machine.mem.zeroBytes frame 4096))
  l.step backend (.map space va frame segFlags)

/-- One round of the loop over the bytes of a segment, which goes to virtual address `va` and reads
the image at `offset`. -/
def copyByte (l : Loader) (va offset : ℕ) : Loader :=
  let pa := translateIn backend l.spaces space va
  { l.step backend (.write (l.spaces.machine.mem.storeByte pa (image.byte offset))) with
    reads := offset :: l.reads
    writes := pa :: l.writes }

/-- One round of the loop over the program headers. -/
def loadSegment (l : Loader) (i : ℕ) : Loader :=
  let ph := image.programHeader i
  let l := { l with reads := phdrReads image i ++ l.reads }
  if ph.isLoad then
    let l := (List.range ph.pageCount).foldl
      (fun l k ↦ mapPage backend space ph.segFlags l (ph.vstart + 4096 * k)) l
    (List.range ph.pFilesz).foldl
      (fun l off ↦ copyByte backend image space l (wrap (ph.pVaddr + off)) (wrap (ph.pOffset + off)))
      l
  else l

/-- The flags of the user stack. -/
def stackFlags : ℕ := X86.vmmPresent ||| X86.vmmWritable ||| X86.vmmUser

def userStackPages : ℕ := 4

/-- One round of the loop over the pages of the user stack. The frame is mapped as it is. -/
def mapStackPage (l : Loader) (va : ℕ) : Loader :=
  let (l, frame) := l.allocFrame backend
  l.step backend (.map space va frame stackFlags)

/-- The virtual address of a page of the user stack. -/
def stackPage (stackTop i : ℕ) : ℕ := stackTop - (i + 1) * 4096

end Code

/-- What user mode is entered with, `launch_params_t` without its selectors. -/
structure LaunchParams where
  entry : ℕ
  userStack : ℕ
  deriving DecidableEq, Repr

/-- How the loading ends: `process_run` returns -1, or it goes on to enter user mode. -/
inductive Outcome
  | rejected (l : Loader)
  | entered (l : Loader) (params : LaunchParams)

/-- `process_run`, up to the allocation of the launch stack. When the kernel space has been copied,
`vmm_create_address_space` calls `kmalloc` for the `address_space_t` and stores the new root in it. What
this does to the machine is a parameter. -/
def processRun (backend : Backend) (machine stackTop : ℕ) (kmalloc : Spaces → Spaces) (image : Image)
    (s : Spaces) : Outcome :=
  let l : Loader := ⟨s, [], elfValidReads image, []⟩
  if !elfValid machine image then .rejected l
  else
    let space := Handle.user s.next
    let l := l.step backend .create
    let l := { l with spaces := kmalloc l.spaces }
    let l := { l with reads := headerReads ++ l.reads }
    let l := (List.range image.ePhnum).foldl (loadSegment backend image space) l
    let l := (List.range userStackPages).foldl
      (fun l i ↦ mapStackPage backend space l (stackPage stackTop i)) l
    .entered l ⟨image.eEntry, stackTop⟩

/-! ### The ports -/

def emX8664 : ℕ := 62

def emAarch64 : ℕ := 183

/-- `USER_STACK_TOP` of x86_64. -/
def userStackTopX86 : ℕ := 0x00007FFFFFFFF000

/-- `USER_STACK_TOP` of aarch64. -/
def userStackTopAarch64 : ℕ := 0xF0000000

/-- `process_run` of `arch/x86_64/process.c`. -/
def processRunX86 : (Spaces → Spaces) → Image → Spaces → Outcome :=
  processRun X86.backend emX8664 userStackTopX86

/-- `process_run` of `arch/aarch64/process.c`. -/
def processRunAarch64 : (Spaces → Spaces) → Image → Spaces → Outcome :=
  processRun AArch64.backend emAarch64 userStackTopAarch64

end MegKer.Process

namespace MegKer.Vmm.Port

open Process

/-- The machine that an image has to name. -/
def elfMachine : Port → ℕ
  | x86 _ => emX8664
  | aarch64 _ => emAarch64

/-- The end of the user stack. -/
def userStackTop : Port → ℕ
  | x86 _ => userStackTopX86
  | aarch64 _ => userStackTopAarch64

def processRun : Port → (Spaces → Spaces) → Image → Spaces → Outcome
  | x86 _ => processRunX86
  | aarch64 _ => processRunAarch64

theorem processRun_def (port : Port) :
    port.processRun = Process.processRun port.backend port.elfMachine port.userStackTop := by
  cases port <;> rfl

end MegKer.Vmm.Port

namespace MegKer.Process

open Foundation Memory Vmm

/-- Nothing is written to the frame of a stack page before it is mapped. -/
theorem mapStackPage_eq (backend : Backend) (space : Handle) (l : Loader) (va : ℕ) :
    mapStackPage backend space l va =
      ((l.allocFrame backend).1.step backend (.write l.spaces.machine.mem)).step backend
        (.map space va (l.allocFrame backend).2 stackFlags) := rfl

/-! ### The plan of an image -/

/-- One step of the loops. -/
inductive LoadOp
  /-- Read fields of the image. -/
  | note (offsets : List ℕ)
  /-- Map a zeroed frame. -/
  | page (va flags : ℕ)
  /-- Copy one byte of the file. -/
  | copy (va offset : ℕ)
  /-- Map a frame as it is. -/
  | stack (va : ℕ)
  deriving DecidableEq, Repr

/-- Carry out a step. -/
def LoadOp.run (backend : Backend) (image : Image) (space : Handle) (l : Loader) : LoadOp → Loader
  | .note offsets => { l with reads := offsets ++ l.reads }
  | .page va flags => mapPage backend space flags l va
  | .copy va offset => copyByte backend image space l va offset
  | .stack va => mapStackPage backend space l va

/-- The pages of a segment. -/
def ProgramHeader.pagePlan (ph : ProgramHeader) : List LoadOp :=
  (List.range ph.pageCount).map fun k ↦ .page (ph.vstart + 4096 * k) ph.segFlags

/-- The bytes of a segment. -/
def ProgramHeader.copyPlan (ph : ProgramHeader) : List LoadOp :=
  (List.range ph.pFilesz).map fun off ↦ .copy (wrap (ph.pVaddr + off)) (wrap (ph.pOffset + off))

/-- What is done for a segment. -/
def ProgramHeader.plan (ph : ProgramHeader) : List LoadOp :=
  if ph.isLoad then ph.pagePlan ++ ph.copyPlan else []

/-- What is done for `ph[i]`. -/
def segmentPlan (image : Image) (i : ℕ) : List LoadOp :=
  .note (phdrReads image i) :: (image.programHeader i).plan

/-- What is done for the user stack. -/
def stackPlan (stackTop : ℕ) : List LoadOp :=
  (List.range userStackPages).map fun i ↦ .stack (stackPage stackTop i)

/-- Everything that is done for an image. -/
def plan (stackTop : ℕ) (image : Image) : List LoadOp :=
  (List.range image.ePhnum).flatMap (segmentPlan image) ++ stackPlan stackTop

/-- The state before the first header is looked at. -/
def started (backend : Backend) (kmalloc : Spaces → Spaces) (image : Image) (s : Spaces) : Loader :=
  ⟨kmalloc (VmmCall.create.run backend s), [], headerReads ++ elfValidReads image, []⟩

theorem loadSegment_eq (backend : Backend) (image : Image) (space : Handle) (l : Loader) (i : ℕ) :
    loadSegment backend image space l i =
      (segmentPlan image i).foldl (LoadOp.run backend image space) l := by
  unfold loadSegment segmentPlan ProgramHeader.plan
  dsimp only
  rw [List.foldl_cons]
  split_ifs
  · rw [List.foldl_append, ProgramHeader.pagePlan, ProgramHeader.copyPlan, List.foldl_map,
      List.foldl_map]
    rfl
  · rfl

/-- The loops carry out the plan. -/
theorem processRun_eq (backend : Backend) (machine stackTop : ℕ) (kmalloc : Spaces → Spaces)
    (image : Image) (s : Spaces) :
    processRun backend machine stackTop kmalloc image s =
      if elfValid machine image then
        .entered ((plan stackTop image).foldl (LoadOp.run backend image (.user s.next))
          (started backend kmalloc image s)) ⟨image.eEntry, stackTop⟩
      else .rejected ⟨s, [], elfValidReads image, []⟩ := by
  unfold processRun
  dsimp only
  cases elfValid machine image with
  | false => rfl
  | true =>
    rw [if_pos rfl, plan, List.foldl_append, List.foldl_flatMap, stackPlan, List.foldl_map]
    simp only [← loadSegment_eq]
    rfl

end MegKer.Process
