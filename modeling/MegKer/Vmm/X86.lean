import MegKer.Foundation.BitField
import MegKer.Vmm.TableFrames

/-!
# The x86_64 virtual memory manager

`arch/x86_64/mm/vmm.c`: four levels of page tables, PML4, PDPT, PD and PT. The functions are
translated one by one, and each is shown to be an operation on radix tables of depth 3 in the
format of x86_64 entries (`format`), with the links that `get_or_create_table` writes (`links`).

A pointer to a table is its address, and `NULL` is 0. `vmm_create_address_space` also allocates
the `address_space_t` that holds the address of the new PML4, and `vmm_destroy_address_space` frees
it; here they return and take that address.
-/

set_option autoImplicit false
set_option relaxedAutoImplicit false

namespace MegKer.Vmm.X86

open Foundation Memory

/-! ### The code -/

def addrMask : ℕ := 0x000FFFFFFFFFF000

def vmmPresent : ℕ := 1 <<< 0

def vmmWritable : ℕ := 1 <<< 1

def vmmUser : ℕ := 1 <<< 2

def vmmHuge : ℕ := 1 <<< 7

def getOrCreateTable (m : Machine) (parent index flags : ℕ) : Machine × ℕ :=
  let entry := m.mem (slot parent index)
  if hasFlags entry vmmHuge then (m, 0)
  else
    let m : Machine :=
      if !hasFlags entry vmmPresent then
        let (m, frame) := allocFrame m
        let m := zeroedTable m frame
        { m with
          mem := m.mem.store (slot parent index)
            (frame ||| vmmPresent ||| vmmWritable ||| (flags &&& vmmUser)) }
      else if hasFlags flags vmmUser then
        { m with mem := m.mem.store (slot parent index) (entry ||| vmmUser) }
      else m
    (m, m.mem (slot parent index) &&& addrMask)

/-- `clone_table_level`. The levels are 4 to 1; level 0 is not reached. -/
def cloneTableLevel : (level : ℕ) → Machine → (src : ℕ) → Machine × ℕ
  | 0, m, _ => (m, 0)
  | level + 1, m, src =>
    let (m, newFrame) := allocFrame m
    let m := zeroedTable m newFrame
    let m := (List.range 512).foldl (fun m i ↦
      let entry := m.mem (slot src i)
      if !hasFlags entry vmmPresent then m
      else
        let leaf := level + 1 == 1 || hasFlags entry vmmHuge
        if leaf then { m with mem := m.mem.store (slot newFrame i) entry }
        else
          let (m, childDst) := cloneTableLevel level m (entry &&& addrMask)
          { m with
            mem := m.mem.store (slot newFrame i)
              ((childDst &&& addrMask) ||| (entry &&& 0xFFF)) }) m
    (m, newFrame)

/-- `free_table_level`, for the same levels. -/
def freeTableLevel : (level : ℕ) → Machine → (table : ℕ) → Machine
  | 0, m, table => freeFrame m table
  | level + 1, m, table =>
    let m := if level + 1 > 1 then
        (List.range 512).foldl (fun m i ↦
          let entry := m.mem (slot table i)
          if hasFlags entry vmmPresent && !hasFlags entry vmmHuge then
            freeTableLevel level m (entry &&& addrMask)
          else m) m
      else m
    freeFrame m table

/-- The copy in `vmm_create_address_space`, for the PML4 of the kernel space. The rest of it is the same on
both ports (`Vmm.vmmCreateAddressSpace`). -/
def vmmCreateAddressSpace (m : Machine) (kernelPml4 : ℕ) : Machine × ℕ :=
  cloneTableLevel 4 m kernelPml4

/-- `vmm_destroy_address_space`, for a space other than the kernel's, up to the `kfree` of the object. -/
def vmmDestroyAddressSpace (m : Machine) (pml4 : ℕ) : Machine := freeTableLevel 4 m pml4

def vmmMap (m : Machine) (pml4 virt phys flags : ℕ) : Machine :=
  let i4 := (virt >>> 39) &&& 0x1FF
  let i3 := (virt >>> 30) &&& 0x1FF
  let i2 := (virt >>> 21) &&& 0x1FF
  let i1 := (virt >>> 12) &&& 0x1FF
  let (m, pdpt) := getOrCreateTable m pml4 i4 flags
  if pdpt = 0 then m
  else
    let (m, pd) := getOrCreateTable m pdpt i3 flags
    if pd = 0 then m
    else
      let (m, pt) := getOrCreateTable m pd i2 flags
      if pt = 0 then m
      else
        { m with
          mem := m.mem.store (slot pt i1)
            ((phys &&& addrMask) ||| (flags &&& (vmmPresent ||| vmmWritable ||| vmmUser))) }

/-- The condition on which `vmm_unmap` and `vmm_translate` give up at an entry. -/
def noTable (entry : ℕ) : Bool := !hasFlags entry vmmPresent || hasFlags entry vmmHuge

/-- `vmm_unmap`, up to the flush of the translation cache. -/
def vmmUnmap (m : Machine) (pml4 virt : ℕ) : Machine :=
  let i4 := (virt >>> 39) &&& 0x1FF
  let i3 := (virt >>> 30) &&& 0x1FF
  let i2 := (virt >>> 21) &&& 0x1FF
  let i1 := (virt >>> 12) &&& 0x1FF
  if noTable (m.mem (slot pml4 i4)) then m
  else
    let pdpt := m.mem (slot pml4 i4) &&& addrMask
    if noTable (m.mem (slot pdpt i3)) then m
    else
      let pd := m.mem (slot pdpt i3) &&& addrMask
      if noTable (m.mem (slot pd i2)) then m
      else
        let pt := m.mem (slot pd i2) &&& addrMask
        { m with mem := m.mem.store (slot pt i1) 0 }

def vmmTranslate (m : Machine) (pml4 virt : ℕ) : ℕ :=
  let i4 := (virt >>> 39) &&& 0x1FF
  let i3 := (virt >>> 30) &&& 0x1FF
  let i2 := (virt >>> 21) &&& 0x1FF
  let i1 := (virt >>> 12) &&& 0x1FF
  if noTable (m.mem (slot pml4 i4)) then 0
  else
    let pdpt := m.mem (slot pml4 i4) &&& addrMask
    if noTable (m.mem (slot pdpt i3)) then 0
    else
      let pd := m.mem (slot pdpt i3) &&& addrMask
      if noTable (m.mem (slot pd i2)) then 0
      else
        let pt := m.mem (slot pd i2) &&& addrMask
        if !hasFlags (m.mem (slot pt i1)) vmmPresent then 0
        else (m.mem (slot pt i1) &&& addrMask) ||| (virt &&& 0xFFF)

/-! ### The bits of an entry -/

theorem addrMask_eq : addrMask = fieldMask 12 52 := by decide

theorem hasFlags_vmmPresent (entry : ℕ) : hasFlags entry vmmPresent = entry.testBit 0 :=
  hasFlags_two_pow entry 0

theorem hasFlags_vmmWritable (entry : ℕ) : hasFlags entry vmmWritable = entry.testBit 1 :=
  hasFlags_two_pow entry 1

theorem hasFlags_vmmUser (entry : ℕ) : hasFlags entry vmmUser = entry.testBit 2 :=
  hasFlags_two_pow entry 2

theorem hasFlags_vmmHuge (entry : ℕ) : hasFlags entry vmmHuge = entry.testBit 7 :=
  hasFlags_two_pow entry 7

/-- The flags of a link made by `get_or_create_table`. -/
def linkFlags (flags : ℕ) : ℕ := vmmPresent ||| vmmWritable ||| (flags &&& vmmUser)

theorem linkFlags_lt (flags : ℕ) : linkFlags flags < 2 ^ 12 := by
  refine Nat.or_lt_two_pow (by decide) (lt_of_le_of_lt Nat.and_le_right (by decide))

theorem testBit_vmmUser (i : ℕ) : vmmUser.testBit i = decide (i = 2) := by
  rw [vmmUser, Nat.one_shiftLeft, Nat.testBit_two_pow]
  simp only [eq_comm]

theorem testBit_linkFlags (flags i : ℕ) :
    (linkFlags flags).testBit i = (decide (i = 0) || decide (i = 1) ||
      (flags.testBit i && decide (i = 2))) := by
  have hbit : ∀ k, (1 <<< k).testBit i = decide (i = k) := fun k ↦ by
    rw [Nat.one_shiftLeft, Nat.testBit_two_pow]
    simp only [eq_comm]
  unfold linkFlags vmmPresent vmmWritable vmmUser
  rw [Nat.testBit_or, Nat.testBit_or, Nat.testBit_and, hbit, hbit, hbit]

/-- The entry of the last level that `vmm_map` writes. -/
def pageEntry (phys flags : ℕ) : ℕ :=
  (phys &&& addrMask) ||| (flags &&& (vmmPresent ||| vmmWritable ||| vmmUser))

theorem pageFlags_lt (flags : ℕ) :
    flags &&& (vmmPresent ||| vmmWritable ||| vmmUser) < 2 ^ 12 :=
  lt_of_le_of_lt Nat.and_le_right (by decide)

/-- The low three bits of a page entry are the requested flags. -/
theorem testBit_pageEntry (phys flags : ℕ) {i : ℕ} (hi : i < 3) :
    (pageEntry phys flags).testBit i = flags.testBit i := by
  have hmask : ∀ i < 3, (vmmPresent ||| vmmWritable ||| vmmUser).testBit i = true := by decide
  unfold pageEntry
  rw [addrMask_eq, testBit_or_of_aligned (two_pow_dvd_and_fieldMask (by omega) phys) _
    (by omega), Nat.testBit_and, hmask i hi, Bool.and_true]

theorem pageEntry_and_addrMask {phys : ℕ} (flags : ℕ) (haligned : 4096 ∣ phys)
    (hlt : phys < 2 ^ 52) : pageEntry phys flags &&& addrMask = phys := by
  unfold pageEntry
  rw [addrMask_eq, or_and_fieldMask (by omega) _ (pageFlags_lt flags),
    and_fieldMask_of_aligned (x := phys) (by omega) haligned hlt,
    and_fieldMask_of_aligned (by omega) haligned hlt]

/-- A copied link keeps the flags of the link it copies. -/
theorem testBit_copiedLink (entry frame : ℕ) {i : ℕ} (hi : i < 12) :
    ((frame &&& addrMask) ||| (entry &&& 0xFFF)).testBit i = entry.testBit i := by
  rw [addrMask_eq, testBit_or_of_aligned (two_pow_dvd_and_fieldMask (by omega) frame) _ hi,
    Nat.testBit_and, (by decide : (0xFFF : ℕ) = 2 ^ 12 - 1), Nat.testBit_two_pow_sub_one]
  simp [hi]

/-! ### Entries as radix-table entries -/

/-- The entries of x86_64 page tables. -/
def format : TableFormat where
  limit := 2 ^ 52
  isPresent := fun entry ↦ hasFlags entry vmmPresent
  isTable := fun entry ↦ hasFlags entry vmmPresent && !hasFlags entry vmmHuge
  isBlock := fun entry ↦ hasFlags entry vmmHuge
  child := fun entry ↦ entry &&& addrMask
  relink := fun entry frame ↦ (frame &&& addrMask) ||| (entry &&& 0xFFF)
  isPresent_zero := by decide
  isBlock_zero := by decide
  isPresent_of_isTable := fun entry h ↦ (Bool.and_eq_true_iff.mp h).1
  isTable_of_isBlock := fun entry h ↦ by simp [h]
  isTable_relink := fun entry frame h _ ↦ by
    simp only [hasFlags_vmmPresent, hasFlags_vmmHuge] at h ⊢
    rw [testBit_copiedLink entry frame (by omega), testBit_copiedLink entry frame (by omega)]
    exact h
  child_relink := fun entry frame hframe ↦ by
    rw [addrMask_eq, and_fieldMask_of_aligned (x := frame) (by omega) hframe.aligned
      hframe.lt_limit]
    exact address_or_and_fieldMask (by omega) hframe.aligned hframe.lt_limit
      (lt_of_le_of_lt Nat.and_le_right (by omega))

/-- The links of `get_or_create_table`: a new link has the USER bit of the mapping it is made for,
and a link that is there is widened for a user mapping. -/
def links (flags : ℕ) : LinkStyle format where
  fresh := fun frame ↦ frame ||| vmmPresent ||| vmmWritable ||| (flags &&& vmmUser)
  touch := fun entry ↦ if hasFlags flags vmmUser then entry ||| vmmUser else entry
  isTable_fresh := fun frame hframe ↦ by
    have haligned : 2 ^ 12 ∣ frame := hframe.aligned
    rw [Nat.or_assoc, Nat.or_assoc, ← Nat.or_assoc vmmPresent]
    change (hasFlags (frame ||| linkFlags flags) vmmPresent &&
      !hasFlags (frame ||| linkFlags flags) vmmHuge) = true
    rw [hasFlags_vmmPresent, hasFlags_vmmHuge,
      testBit_or_of_aligned haligned _ (by omega), testBit_or_of_aligned haligned _ (by omega),
      testBit_linkFlags, testBit_linkFlags]
    simp
  child_fresh := fun frame hframe ↦ by
    rw [Nat.or_assoc, Nat.or_assoc, ← Nat.or_assoc vmmPresent]
    change (frame ||| linkFlags flags) &&& addrMask = frame
    rw [addrMask_eq]
    exact address_or_and_fieldMask (by omega) hframe.aligned hframe.lt_limit
      (linkFlags_lt flags)
  isTable_touch := fun entry h ↦ by
    split_ifs
    · change (hasFlags (entry ||| vmmUser) vmmPresent && !hasFlags (entry ||| vmmUser) vmmHuge) = _
      rw [hasFlags_vmmPresent, hasFlags_vmmHuge, Nat.testBit_or, Nat.testBit_or, testBit_vmmUser,
        testBit_vmmUser]
      change (hasFlags entry vmmPresent && !hasFlags entry vmmHuge) = true at h
      rw [hasFlags_vmmPresent, hasFlags_vmmHuge] at h
      simpa using h
    · exact h
  child_touch := fun entry ↦ by
    split_ifs
    · change (entry ||| vmmUser) &&& addrMask = entry &&& addrMask
      rw [addrMask_eq]
      exact or_and_fieldMask (by omega) entry (by decide)
    · rfl

/-- The frames of x86_64 page tables. -/
abbrev source : FrameSource FrameDesk format.limit := pmmSource format.limit

/-! ### The code as operations on radix tables -/

theorem getOrCreateTable_eq (m : Machine) (parent index flags : ℕ) :
    getOrCreateTable m parent index flags =
      ensureChild format source (links flags) m parent index := by
  unfold getOrCreateTable ensureChild
  rw [newTable_eq]
  dsimp only [format]
  by_cases hhuge : hasFlags (m.mem (slot parent index)) vmmHuge = true
  · simp only [hhuge, if_true]
  by_cases hpresent : hasFlags (m.mem (slot parent index)) vmmPresent = true
  · by_cases huser : hasFlags flags vmmUser = true
    · simp [hhuge, hpresent, huser, links]
    · have hstore : m.mem.store (slot parent index) (m.mem (slot parent index)) = m.mem :=
        Function.update_eq_self _ _
      simp [hhuge, hpresent, huser, links, hstore]
  · simp [hhuge, hpresent, links]

theorem cloneTableLevel_eq (depth : ℕ) :
    ∀ (m : Machine) (src : ℕ),
      cloneTableLevel (depth + 1) m src = cloneTable format source depth m src := by
  induction depth with
  | zero =>
    intro m src
    rw [cloneTableLevel, cloneTable, newTable_eq, fanout_eq]
    dsimp only
    congr 2
    funext m i
    by_cases hpresent : hasFlags (m.mem (slot src i)) vmmPresent = true
    · simp [cloneSlot, format, hpresent]
    · simp [cloneSlot, format, hpresent]
  | succ depth ih =>
    intro m src
    rw [cloneTableLevel, cloneTable, newTable_eq, fanout_eq]
    dsimp only
    congr 2
    funext m i
    rw [ih]
    by_cases hpresent : hasFlags (m.mem (slot src i)) vmmPresent = true
    · by_cases hhuge : hasFlags (m.mem (slot src i)) vmmHuge = true
      · simp [cloneSlot, format, hpresent, hhuge]
      · simp [cloneSlot, format, hpresent, hhuge]
    · simp [cloneSlot, format, hpresent]

theorem freeTableLevel_eq (depth : ℕ) :
    ∀ (m : Machine) (table : ℕ),
      freeTableLevel (depth + 1) m table = releaseTable format source depth m table := by
  induction depth with
  | zero => exact fun _ _ ↦ rfl
  | succ depth ih =>
    intro m table
    have htable : ∀ entry, (hasFlags entry vmmPresent && !hasFlags entry vmmHuge) =
        format.isTable entry := fun _ ↦ rfl
    have hchild : ∀ entry, entry &&& addrMask = format.child entry := fun _ ↦ rfl
    rw [freeTableLevel, releaseTable, fanout_eq, if_pos (by omega)]
    simp only [ih, htable, hchild]
    generalize List.foldl _ m (List.range 512) = released
    rfl

/-- The path of a virtual address. -/
abbrev path (virt : ℕ) : List ℕ := indexPath 3 (virt / 4096)

theorem path_eq (virt : ℕ) :
    path virt = [(virt >>> 39) &&& 0x1FF, (virt >>> 30) &&& 0x1FF, (virt >>> 21) &&& 0x1FF,
      (virt >>> 12) &&& 0x1FF] := by
  have h3 := index_eq virt 3
  have h2 := index_eq virt 2
  have h1 := index_eq virt 1
  have h0 := index_eq virt 0
  rw [pow_zero, Nat.div_one] at h0
  simp only [path, indexPath, ← h0, ← h1, ← h2, ← h3]

theorem vmmMap_eq (m : Machine) (pml4 virt phys flags : ℕ) :
    vmmMap m pml4 virt phys flags =
      editPath format source (links flags) (fun _ ↦ pageEntry phys flags) m pml4 (path virt) := by
  rw [path_eq]
  unfold vmmMap
  simp only [getOrCreateTable_eq, editPath, pageEntry]

theorem noTable_eq (entry : ℕ) : noTable entry = !format.isTable entry := by
  simp [noTable, format]

theorem vmmUnmap_eq (m : Machine) (pml4 virt : ℕ) :
    vmmUnmap m pml4 virt =
      match leafSlot format m.mem pml4 (path virt) with
      | some a => { m with mem := m.mem.store a 0 }
      | none => m := by
  have hchild : ∀ entry, entry &&& addrMask = format.child entry := fun _ ↦ rfl
  rw [path_eq]
  unfold vmmUnmap
  simp only [noTable_eq, leafSlot, hchild, Bool.not_eq_true', ← Bool.not_eq_true]
  split_ifs <;> rfl

theorem vmmTranslate_eq (m : Machine) (pml4 virt : ℕ) :
    vmmTranslate m pml4 virt =
      match leafSlot format m.mem pml4 (path virt) with
      | some a =>
        if format.isPresent (m.mem a) then (m.mem a &&& addrMask) ||| (virt &&& 0xFFF) else 0
      | none => 0 := by
  have hchild : ∀ entry, entry &&& addrMask = format.child entry := fun _ ↦ rfl
  have hpresent : ∀ entry, hasFlags entry vmmPresent = format.isPresent entry := fun _ ↦ rfl
  rw [path_eq]
  unfold vmmTranslate
  simp only [noTable_eq, leafSlot, hchild, hpresent, Bool.not_eq_true', ← Bool.not_eq_true]
  split_ifs <;> first | rfl | simp_all

end MegKer.Vmm.X86
