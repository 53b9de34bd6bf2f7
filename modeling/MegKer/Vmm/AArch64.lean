import MegKer.Foundation.BitField
import MegKer.Vmm.TableFrames

/-!
# The aarch64 virtual memory manager

`arch/aarch64/mm/vmm.c`: three levels of tables, L1, L2 and L3. The structure is that of the
x86_64 manager, and the differences are in the details: a leaf above the last level is a valid
entry without the TABLE bit, links carry no permissions, a clone writes its links anew instead of
copying their flags, and `vmm_map` looks at VMM_PRESENT only after it has created the tables.

The functions are translated one by one, and each is shown to be an operation on radix tables of
depth 2 in the format of aarch64 entries.
-/

set_option autoImplicit false
set_option relaxedAutoImplicit false

namespace MegKer.Vmm.AArch64

open Foundation Memory

/-! ### The code -/

def addrMask : ℕ := 0x0000FFFFFFFFF000

def pteValid : ℕ := 1 <<< 0

def pteTable : ℕ := 1 <<< 1

def pteAf : ℕ := 1 <<< 10

def pteShInner : ℕ := 3 <<< 8

def pteApRwEl1 : ℕ := 0 <<< 6

def pteApRwEl1El0 : ℕ := 1 <<< 6

def pteApRoEl1 : ℕ := 2 <<< 6

def pteApRoEl1El0 : ℕ := 3 <<< 6

def pteAttrNormal : ℕ := 1 <<< 2

def vmmPresent : ℕ := 1 <<< 0

def vmmWritable : ℕ := 1 <<< 1

def vmmUser : ℕ := 1 <<< 2

def leafFlags (flags : ℕ) : ℕ :=
  let user := hasFlags flags vmmUser
  let write := hasFlags flags vmmWritable
  let ap :=
    if user then if write then pteApRwEl1El0 else pteApRoEl1El0
    else if write then pteApRwEl1 else pteApRoEl1
  pteValid ||| pteTable ||| pteAf ||| pteShInner ||| pteAttrNormal ||| ap

def getOrCreateTable (m : Machine) (parent index : ℕ) : Machine × ℕ :=
  let entry := m.mem (slot parent index)
  if hasFlags entry pteValid && !hasFlags entry pteTable then (m, 0)
  else
    let m : Machine :=
      if !hasFlags entry pteValid then
        let (m, frame) := allocFrame m
        let m := zeroedTable m frame
        { m with mem := m.mem.store (slot parent index) (frame ||| pteValid ||| pteTable) }
      else m
    (m, m.mem (slot parent index) &&& addrMask)

/-- `clone_table_level`. The source counts levels up from 1 to 3; here `level` is the number of
levels from this one to the last, 3 to 1, and 0 is not reached. -/
def cloneTableLevel : (level : ℕ) → Machine → (src : ℕ) → Machine × ℕ
  | 0, m, _ => (m, 0)
  | level + 1, m, src =>
    let (m, newFrame) := allocFrame m
    let m := zeroedTable m newFrame
    let m := (List.range 512).foldl (fun m i ↦
      let entry := m.mem (slot src i)
      if !hasFlags entry pteValid then m
      else
        let leaf := level + 1 == 1 || !hasFlags entry pteTable
        if leaf then { m with mem := m.mem.store (slot newFrame i) entry }
        else
          let (m, childDst) := cloneTableLevel level m (entry &&& addrMask)
          { m with
            mem := m.mem.store (slot newFrame i)
              ((childDst &&& addrMask) ||| pteValid ||| pteTable) }) m
    (m, newFrame)

/-- `free_table_level`, for the same levels. -/
def freeTableLevel : (level : ℕ) → Machine → (table : ℕ) → Machine
  | 0, m, table => freeFrame m table
  | level + 1, m, table =>
    let m := if level + 1 > 1 then
        (List.range 512).foldl (fun m i ↦
          let entry := m.mem (slot table i)
          if hasFlags entry pteValid && hasFlags entry pteTable then
            freeTableLevel level m (entry &&& addrMask)
          else m) m
      else m
    freeFrame m table

/-- The copy in `vmm_create_address_space`, for the L1 table of the kernel space. The rest of it is the same
on both ports (`Vmm.vmmCreateAddressSpace`). -/
def vmmCreateAddressSpace (m : Machine) (kernelL1 : ℕ) : Machine × ℕ :=
  cloneTableLevel 3 m kernelL1

/-- `vmm_destroy_address_space`, for a space other than the kernel's, up to the `kfree` of the object. -/
def vmmDestroyAddressSpace (m : Machine) (l1 : ℕ) : Machine := freeTableLevel 3 m l1

def vmmMap (m : Machine) (l1 virt phys flags : ℕ) : Machine :=
  let i1 := (virt >>> 30) &&& 0x1FF
  let i2 := (virt >>> 21) &&& 0x1FF
  let i3 := (virt >>> 12) &&& 0x1FF
  let (m, l2) := getOrCreateTable m l1 i1
  if l2 = 0 then m
  else
    let (m, l3) := getOrCreateTable m l2 i2
    if l3 = 0 then m
    else if !hasFlags flags vmmPresent then m
    else { m with mem := m.mem.store (slot l3 i3) ((phys &&& addrMask) ||| leafFlags flags) }

/-- The condition on which `vmm_unmap` and `vmm_translate` give up at an entry. -/
def noTable (entry : ℕ) : Bool := !hasFlags entry pteValid || !hasFlags entry pteTable

/-- `vmm_unmap`, up to the flush of the translation cache. -/
def vmmUnmap (m : Machine) (l1 virt : ℕ) : Machine :=
  let i1 := (virt >>> 30) &&& 0x1FF
  let i2 := (virt >>> 21) &&& 0x1FF
  let i3 := (virt >>> 12) &&& 0x1FF
  if noTable (m.mem (slot l1 i1)) then m
  else
    let l2 := m.mem (slot l1 i1) &&& addrMask
    if noTable (m.mem (slot l2 i2)) then m
    else
      let l3 := m.mem (slot l2 i2) &&& addrMask
      { m with mem := m.mem.store (slot l3 i3) 0 }

def vmmTranslate (m : Machine) (l1 virt : ℕ) : ℕ :=
  let i1 := (virt >>> 30) &&& 0x1FF
  let i2 := (virt >>> 21) &&& 0x1FF
  let i3 := (virt >>> 12) &&& 0x1FF
  if noTable (m.mem (slot l1 i1)) then 0
  else
    let l2 := m.mem (slot l1 i1) &&& addrMask
    if noTable (m.mem (slot l2 i2)) then 0
    else
      let l3 := m.mem (slot l2 i2) &&& addrMask
      if !hasFlags (m.mem (slot l3 i3)) pteValid then 0
      else (m.mem (slot l3 i3) &&& addrMask) ||| (virt &&& 0xFFF)

/-! ### The bits of an entry -/

theorem addrMask_eq : addrMask = fieldMask 12 48 := by decide

theorem hasFlags_pteValid (entry : ℕ) : hasFlags entry pteValid = entry.testBit 0 :=
  hasFlags_two_pow entry 0

theorem hasFlags_pteTable (entry : ℕ) : hasFlags entry pteTable = entry.testBit 1 :=
  hasFlags_two_pow entry 1

theorem leafFlags_lt (flags : ℕ) : leafFlags flags < 2 ^ 12 := by
  unfold leafFlags
  dsimp only
  split_ifs <;> decide

theorem testBit_leafFlags_zero (flags : ℕ) : (leafFlags flags).testBit 0 = true := by
  unfold leafFlags
  dsimp only
  split_ifs <;> decide

/-- The entry of the last level that `vmm_map` writes. -/
def pageEntry (phys flags : ℕ) : ℕ := (phys &&& addrMask) ||| leafFlags flags

/-- A page entry is valid. -/
theorem testBit_pageEntry_zero (phys flags : ℕ) : (pageEntry phys flags).testBit 0 = true := by
  unfold pageEntry
  rw [addrMask_eq, testBit_or_of_aligned (two_pow_dvd_and_fieldMask (by omega) phys) _
    (by omega), testBit_leafFlags_zero]

theorem pageEntry_and_addrMask {phys : ℕ} (flags : ℕ) (haligned : 4096 ∣ phys)
    (hlt : phys < 2 ^ 48) : pageEntry phys flags &&& addrMask = phys := by
  unfold pageEntry
  rw [addrMask_eq, or_and_fieldMask (by omega) _ (leafFlags_lt flags),
    and_fieldMask_of_aligned (x := phys) (by omega) haligned hlt,
    and_fieldMask_of_aligned (by omega) haligned hlt]

/-! ### Entries as radix-table entries -/

/-- A link to a frame, as it is made by `get_or_create_table` and by `clone_table_level`. -/
theorem link_bits {frame : ℕ} (hframe : IsFrame (2 ^ 48) frame) :
    (hasFlags (frame ||| pteValid ||| pteTable) pteValid &&
      hasFlags (frame ||| pteValid ||| pteTable) pteTable) = true ∧
    (frame ||| pteValid ||| pteTable) &&& addrMask = frame := by
  have haligned : 2 ^ 12 ∣ frame := hframe.aligned
  rw [Nat.or_assoc, hasFlags_pteValid, hasFlags_pteTable,
    testBit_or_of_aligned haligned _ (by omega), testBit_or_of_aligned haligned _ (by omega),
    addrMask_eq]
  exact ⟨by decide, address_or_and_fieldMask (by omega) hframe.aligned hframe.lt_limit (by decide)⟩

/-- The entries of aarch64 translation tables. -/
def format : TableFormat where
  limit := 2 ^ 48
  isPresent := fun entry ↦ hasFlags entry pteValid
  isTable := fun entry ↦ hasFlags entry pteValid && hasFlags entry pteTable
  isBlock := fun entry ↦ hasFlags entry pteValid && !hasFlags entry pteTable
  child := fun entry ↦ entry &&& addrMask
  relink := fun _ frame ↦ (frame &&& addrMask) ||| pteValid ||| pteTable
  isPresent_zero := by decide
  isBlock_zero := by decide
  isPresent_of_isTable := fun entry h ↦ (Bool.and_eq_true_iff.mp h).1
  isTable_of_isBlock := fun entry h ↦ by
    obtain ⟨-, hnot⟩ := Bool.and_eq_true_iff.mp h
    rw [Bool.not_eq_true'] at hnot
    rw [hnot, Bool.and_false]
  isTable_relink := fun entry frame _ hframe ↦ by
    rw [addrMask_eq, and_fieldMask_of_aligned (by omega) hframe.aligned hframe.lt_limit]
    exact (link_bits hframe).1
  child_relink := fun entry frame hframe ↦ by
    have hmask : frame &&& addrMask = frame := by
      rw [addrMask_eq, and_fieldMask_of_aligned (by omega) hframe.aligned hframe.lt_limit]
    rw [hmask]
    exact (link_bits hframe).2

/-- The links of `get_or_create_table`, which leaves a link that is there alone. -/
def links : LinkStyle format where
  fresh := fun frame ↦ frame ||| pteValid ||| pteTable
  touch := id
  isTable_fresh := fun _ hframe ↦ (link_bits hframe).1
  child_fresh := fun _ hframe ↦ (link_bits hframe).2
  isTable_touch := fun _ h ↦ h
  child_touch := fun _ ↦ rfl

/-- The frames of aarch64 translation tables. -/
abbrev source : FrameSource FrameDesk format.limit := pmmSource format.limit

/-! ### The code as operations on radix tables -/

theorem getOrCreateTable_eq (m : Machine) (parent index : ℕ) :
    getOrCreateTable m parent index = ensureChild format source links m parent index := by
  have hstore : m.mem.store (slot parent index) (m.mem (slot parent index)) = m.mem :=
    Function.update_eq_self _ _
  unfold getOrCreateTable ensureChild
  rw [newTable_eq]
  dsimp only [format]
  by_cases hvalid : hasFlags (m.mem (slot parent index)) pteValid = true
  · by_cases htable : hasFlags (m.mem (slot parent index)) pteTable = true
    · simp [hvalid, htable, links, hstore]
    · simp [hvalid, htable]
  · simp [hvalid, links]

theorem cloneTableLevel_eq (depth : ℕ) :
    ∀ (m : Machine) (src : ℕ),
      cloneTableLevel (depth + 1) m src = cloneTable format source depth m src := by
  induction depth with
  | zero =>
    intro m src
    rw [cloneTableLevel, cloneTable, newTable_eq, fanout_eq]
    dsimp only
    congr 2
    funext m i
    by_cases hvalid : hasFlags (m.mem (slot src i)) pteValid = true
    · simp [cloneSlot, format, hvalid]
    · simp [cloneSlot, format, hvalid]
  | succ depth ih =>
    intro m src
    rw [cloneTableLevel, cloneTable, newTable_eq, fanout_eq]
    dsimp only
    congr 2
    funext m i
    rw [ih]
    by_cases hvalid : hasFlags (m.mem (slot src i)) pteValid = true
    · by_cases htable : hasFlags (m.mem (slot src i)) pteTable = true
      · simp [cloneSlot, format, hvalid, htable]
      · simp [cloneSlot, format, hvalid, htable]
    · simp [cloneSlot, format, hvalid]

theorem freeTableLevel_eq (depth : ℕ) :
    ∀ (m : Machine) (table : ℕ),
      freeTableLevel (depth + 1) m table = releaseTable format source depth m table := by
  induction depth with
  | zero => exact fun _ _ ↦ rfl
  | succ depth ih =>
    intro m table
    have htable : ∀ entry, (hasFlags entry pteValid && hasFlags entry pteTable) =
        format.isTable entry := fun _ ↦ rfl
    have hchild : ∀ entry, entry &&& addrMask = format.child entry := fun _ ↦ rfl
    rw [freeTableLevel, releaseTable, fanout_eq, if_pos (by omega)]
    simp only [ih, htable, hchild]
    generalize List.foldl _ m (List.range 512) = released
    rfl

/-- The path of a virtual address. -/
abbrev path (virt : ℕ) : List ℕ := indexPath 2 (virt / 4096)

theorem path_eq (virt : ℕ) :
    path virt = [(virt >>> 30) &&& 0x1FF, (virt >>> 21) &&& 0x1FF, (virt >>> 12) &&& 0x1FF] := by
  have h2 := index_eq virt 2
  have h1 := index_eq virt 1
  have h0 := index_eq virt 0
  rw [pow_zero, Nat.div_one] at h0
  simp only [path, indexPath, ← h0, ← h1, ← h2]

/-- What `vmm_map` does to the entry of the last level. -/
def mapEdit (phys flags : ℕ) (old : ℕ) : ℕ :=
  if hasFlags flags vmmPresent then pageEntry phys flags else old

theorem vmmMap_eq (m : Machine) (l1 virt phys flags : ℕ) :
    vmmMap m l1 virt phys flags =
      editPath format source links (mapEdit phys flags) m l1 (path virt) := by
  have hstore : ∀ (mem : WordMemory) (a : ℕ), mem.store a (mem a) = mem :=
    fun _ _ ↦ Function.update_eq_self _ _
  rw [path_eq]
  unfold vmmMap
  simp only [getOrCreateTable_eq, editPath]
  by_cases hpresent : hasFlags flags vmmPresent = true
  · simp [mapEdit, pageEntry, hpresent]
  · simp [mapEdit, hpresent, hstore]

theorem noTable_eq (entry : ℕ) : noTable entry = !format.isTable entry := by
  simp [noTable, format]

theorem vmmUnmap_eq (m : Machine) (l1 virt : ℕ) :
    vmmUnmap m l1 virt =
      match leafSlot format m.mem l1 (path virt) with
      | some a => { m with mem := m.mem.store a 0 }
      | none => m := by
  have hchild : ∀ entry, entry &&& addrMask = format.child entry := fun _ ↦ rfl
  rw [path_eq]
  unfold vmmUnmap
  simp only [noTable_eq, leafSlot, hchild, Bool.not_eq_true', ← Bool.not_eq_true]
  split_ifs <;> rfl

theorem vmmTranslate_eq (m : Machine) (l1 virt : ℕ) :
    vmmTranslate m l1 virt =
      match leafSlot format m.mem l1 (path virt) with
      | some a =>
        if format.isPresent (m.mem a) then (m.mem a &&& addrMask) ||| (virt &&& 0xFFF) else 0
      | none => 0 := by
  have hchild : ∀ entry, entry &&& addrMask = format.child entry := fun _ ↦ rfl
  have hpresent : ∀ entry, hasFlags entry pteValid = format.isPresent entry := fun _ ↦ rfl
  rw [path_eq]
  unfold vmmTranslate
  simp only [noTable_eq, leafSlot, hchild, hpresent, Bool.not_eq_true', ← Bool.not_eq_true]
  split_ifs <;> first | rfl | simp_all

end MegKer.Vmm.AArch64
