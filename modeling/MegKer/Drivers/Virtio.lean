import MegKer.Foundation.MachineWord
import MegKer.Foundation.RingBuffer

/-!
# Virtqueues

The split virtqueue of `arch/aarch64/drivers/virtio.c`: the descriptor table, the ring of available
descriptors, which the driver fills and the device empties, and the ring of used ones, the other way
around. The four counters are 16-bit words, and a counter modulo the queue size is a slot.

The steps of both sides are here in the grain of their writes: a slot is written, then a counter is
moved. What each step does to the contents of the rings is said once, in terms of lists
(`VirtioDevice.available` and `VirtioDevice.used`); it rests on the queue size dividing `2 ^ 16`.
-/

set_option autoImplicit false
set_option relaxedAutoImplicit false

namespace MegKer.Drivers

open Foundation

/-! ### The code -/

abbrev queueSize : ℕ := 8

def virtqDescFNext : ℕ := 1

def virtqDescFWrite : ℕ := 2

/-- `virtq_desc_t`. -/
structure VirtqDesc where
  addr : ℕ
  len : ℕ
  flags : ℕ
  next : ℕ
  deriving DecidableEq, Repr

/-- `used_elem_t`. -/
structure UsedElem where
  id : ℕ
  len : ℕ
  deriving DecidableEq, Repr

/-- `virtio_device_t`, with the tables that it points to. -/
structure VirtioDevice where
  queueSize : ℕ
  desc : ℕ → VirtqDesc
  availIdx : ℕ
  availRing : ℕ → ℕ
  usedIdx : ℕ
  usedRing : ℕ → UsedElem
  usedSeen : ℕ

/-- The device as `virtio_mmio_probe_nth` hands it out: the frames of the tables are cleared. -/
def VirtioDevice.probed : VirtioDevice where
  queueSize := Drivers.queueSize
  desc := fun _ ↦ ⟨0, 0, 0, 0⟩
  availIdx := 0
  availRing := fun _ ↦ 0
  usedIdx := 0
  usedRing := fun _ ↦ ⟨0, 0⟩
  usedSeen := 0

/-- The first write of `publish`. -/
def VirtioDevice.writeAvail (dev : VirtioDevice) (descIndex : ℕ) : VirtioDevice :=
  let slot := wrap16 (dev.availIdx % dev.queueSize)
  { dev with availRing := Function.update dev.availRing slot descIndex }

/-- The second write of `publish`. -/
def VirtioDevice.countAvail (dev : VirtioDevice) : VirtioDevice :=
  { dev with availIdx := wrap16 (dev.availIdx + 1) }

def publish (dev : VirtioDevice) (descIndex : ℕ) : VirtioDevice :=
  (dev.writeAvail descIndex).countAvail

def virtioPublishAvail (dev : VirtioDevice) (descIndex : ℕ) : VirtioDevice := publish dev descIndex

/-- The descriptor table with one descriptor written. -/
def VirtioDevice.writeDesc (dev : VirtioDevice) (i : ℕ) (desc : VirtqDesc) : VirtioDevice :=
  { dev with desc := Function.update dev.desc i desc }

/-- The used entry that the driver reads next. -/
def VirtioDevice.nextUsed (dev : VirtioDevice) : UsedElem :=
  dev.usedRing (dev.usedSeen % dev.queueSize)

/-- The driver goes on to the next used entry. -/
def VirtioDevice.countSeen (dev : VirtioDevice) : VirtioDevice :=
  { dev with usedSeen := wrap16 (dev.usedSeen + 1) }

/-- `virtio_poll_used`, with the descriptor and the length when there is a used entry. -/
def virtioPollUsed (dev : VirtioDevice) : Option (ℕ × ℕ) × VirtioDevice :=
  if dev.usedIdx = dev.usedSeen then (none, dev)
  else (some (wrap16 dev.nextUsed.id, dev.nextUsed.len), dev.countSeen)

/-! ### The other side -/

/-- The device writes the slot behind the used entries. -/
def VirtioDevice.writeUsed (dev : VirtioDevice) (elem : UsedElem) : VirtioDevice :=
  { dev with usedRing := Function.update dev.usedRing (dev.usedIdx % Drivers.queueSize) elem }

/-- The device moves the counter of the used entries. -/
def VirtioDevice.countUsed (dev : VirtioDevice) : VirtioDevice :=
  { dev with usedIdx := wrap16 (dev.usedIdx + 1) }

/-- The entry that a device reads next when it has popped the entries up to a counter. -/
def VirtioDevice.nextAvail (dev : VirtioDevice) (popped : ℕ) : ℕ :=
  dev.availRing (popped % Drivers.queueSize)

/-- The available entries that the device has not popped. -/
def VirtioDevice.available (dev : VirtioDevice) (popped : ℕ) : List ℕ :=
  contents Drivers.queueSize (2 ^ 16) dev.availRing popped dev.availIdx

/-- The used entries that the driver has not seen. -/
def VirtioDevice.used (dev : VirtioDevice) : List UsedElem :=
  contents Drivers.queueSize (2 ^ 16) dev.usedRing dev.usedSeen dev.usedIdx

/-- Their descriptors. -/
def VirtioDevice.usedIds (dev : VirtioDevice) : List ℕ := dev.used.map UsedElem.id

/-! ### The rings as lists -/

section Frame

variable (dev : VirtioDevice) (popped d : ℕ) (desc : VirtqDesc) (elem : UsedElem)

-- The definitions are unfolded first, so that counters that are not the same are not compared.
@[simp] theorem available_writeDesc :
    (dev.writeDesc d desc).available popped = dev.available popped := by
  unfold VirtioDevice.available
  rfl

@[simp] theorem available_countSeen : dev.countSeen.available popped = dev.available popped := by
  unfold VirtioDevice.available
  rfl

@[simp] theorem available_writeUsed :
    (dev.writeUsed elem).available popped = dev.available popped := by
  unfold VirtioDevice.available
  rfl

@[simp] theorem available_countUsed : dev.countUsed.available popped = dev.available popped := by
  unfold VirtioDevice.available
  rfl

@[simp] theorem used_writeDesc : (dev.writeDesc d desc).used = dev.used := by
  unfold VirtioDevice.used
  rfl

@[simp] theorem used_writeAvail : (dev.writeAvail d).used = dev.used := by
  unfold VirtioDevice.used
  rfl

@[simp] theorem used_countAvail : dev.countAvail.used = dev.used := by
  unfold VirtioDevice.used
  rfl

@[simp] theorem usedIds_writeDesc : (dev.writeDesc d desc).usedIds = dev.usedIds := by
  simp only [VirtioDevice.usedIds, used_writeDesc]

@[simp] theorem usedIds_writeAvail : (dev.writeAvail d).usedIds = dev.usedIds := by
  simp only [VirtioDevice.usedIds, used_writeAvail]

@[simp] theorem usedIds_countAvail : dev.countAvail.usedIds = dev.usedIds := by
  simp only [VirtioDevice.usedIds, used_countAvail]

end Frame

/-- The counters are 16-bit words. -/
structure VirtioDevice.Indexed (dev : VirtioDevice) (popped : ℕ) : Prop where
  size : dev.queueSize = Drivers.queueSize
  popped_lt : popped < 2 ^ 16
  avail_lt : dev.availIdx < 2 ^ 16
  seen_lt : dev.usedSeen < 2 ^ 16
  used_lt : dev.usedIdx < 2 ^ 16

theorem indexed_probed : VirtioDevice.probed.Indexed 0 :=
  ⟨rfl, by decide, by decide, by decide, by decide⟩

theorem queueSize_dvd : queueSize ∣ 2 ^ 16 := by decide

section Rings

variable {dev : VirtioDevice} {popped : ℕ}

theorem VirtioDevice.Indexed.avail_slot (h : dev.Indexed popped) :
    wrap16 (dev.availIdx % dev.queueSize) = dev.availIdx % Drivers.queueSize := by
  rw [h.size]
  exact wrap16_of_lt ((Nat.mod_lt _ (by decide)).trans (by decide : Drivers.queueSize < 2 ^ 16))

theorem VirtioDevice.Indexed.writeDesc (h : dev.Indexed popped) (i : ℕ) (desc : VirtqDesc) :
    (dev.writeDesc i desc).Indexed popped :=
  ⟨h.size, h.popped_lt, h.avail_lt, h.seen_lt, h.used_lt⟩

theorem VirtioDevice.Indexed.writeAvail (h : dev.Indexed popped) (d : ℕ) :
    (dev.writeAvail d).Indexed popped :=
  ⟨h.size, h.popped_lt, h.avail_lt, h.seen_lt, h.used_lt⟩

theorem VirtioDevice.Indexed.countAvail (h : dev.Indexed popped) : dev.countAvail.Indexed popped :=
  ⟨h.size, h.popped_lt, wrap16_lt _, h.seen_lt, h.used_lt⟩

theorem VirtioDevice.Indexed.countSeen (h : dev.Indexed popped) : dev.countSeen.Indexed popped :=
  ⟨h.size, h.popped_lt, h.avail_lt, wrap16_lt _, h.used_lt⟩

theorem VirtioDevice.Indexed.writeUsed (h : dev.Indexed popped) (elem : UsedElem) :
    (dev.writeUsed elem).Indexed popped :=
  ⟨h.size, h.popped_lt, h.avail_lt, h.seen_lt, h.used_lt⟩

theorem VirtioDevice.Indexed.countUsed (h : dev.Indexed popped) : dev.countUsed.Indexed popped :=
  ⟨h.size, h.popped_lt, h.avail_lt, h.seen_lt, wrap16_lt _⟩

theorem VirtioDevice.Indexed.pop (h : dev.Indexed popped) : dev.Indexed (wrap16 (popped + 1)) :=
  ⟨h.size, wrap16_lt _, h.avail_lt, h.seen_lt, h.used_lt⟩

/-- The slot that `publish` writes holds none of the available entries. -/
theorem VirtioDevice.Indexed.slot_ne (h : dev.Indexed popped)
    (hroom : (dev.available popped).length < Drivers.queueSize) {i : ℕ}
    (hi : i < (dev.available popped).length) :
    (popped + i) % Drivers.queueSize ≠ wrap16 (dev.availIdx % dev.queueSize) := by
  rw [h.avail_slot]
  rw [VirtioDevice.available, length_contents] at hroom hi
  exact contents_slot_ne queueSize_dvd h.popped_lt h.avail_lt hroom hi

/-- The first write of `publish` leaves the available entries alone. -/
theorem VirtioDevice.Indexed.available_writeAvail (h : dev.Indexed popped)
    (hroom : (dev.available popped).length < Drivers.queueSize) (d : ℕ) :
    (dev.writeAvail d).available popped = dev.available popped := by
  rw [VirtioDevice.available, length_contents] at hroom
  rw [VirtioDevice.available, VirtioDevice.writeAvail, h.avail_slot]
  exact contents_write queueSize_dvd h.popped_lt h.avail_lt hroom d

/-- The second write of `publish` makes the entry available. -/
theorem VirtioDevice.Indexed.available_countAvail (h : dev.Indexed popped)
    (hroom : (dev.available popped).length < Drivers.queueSize) :
    dev.countAvail.available popped =
      dev.available popped ++ [dev.availRing (dev.availIdx % Drivers.queueSize)] := by
  rw [VirtioDevice.available, length_contents] at hroom
  refine contents_push queueSize_dvd h.popped_lt h.avail_lt ?_
  exact (Nat.succ_le_of_lt hroom).trans_lt (by decide)

theorem VirtioDevice.Indexed.available_eq_nil_iff (h : dev.Indexed popped) :
    dev.available popped = [] ↔ dev.availIdx = popped := by
  rw [← List.length_eq_zero_iff, VirtioDevice.available, length_contents]
  exact backlog_eq_zero_iff h.popped_lt h.avail_lt

/-- The device pops the first available entry. -/
theorem VirtioDevice.Indexed.available_pop (h : dev.Indexed popped) (hsome : popped ≠ dev.availIdx) :
    dev.available popped = dev.nextAvail popped :: dev.available (wrap16 (popped + 1)) := by
  refine contents_pop queueSize_dvd h.popped_lt h.avail_lt (Nat.pos_of_ne_zero fun hzero ↦ ?_)
  exact hsome ((backlog_eq_zero_iff h.popped_lt h.avail_lt).mp hzero).symm

/-- The device writes a used entry and leaves those alone that the driver has not seen. -/
theorem VirtioDevice.Indexed.used_writeUsed (h : dev.Indexed popped)
    (hroom : dev.used.length < Drivers.queueSize) (elem : UsedElem) :
    (dev.writeUsed elem).used = dev.used := by
  rw [VirtioDevice.used, length_contents] at hroom
  exact contents_write queueSize_dvd h.seen_lt h.used_lt hroom elem

/-- The device moves its counter over a used entry. -/
theorem VirtioDevice.Indexed.used_countUsed (h : dev.Indexed popped)
    (hroom : dev.used.length < Drivers.queueSize) :
    dev.countUsed.used = dev.used ++ [dev.usedRing (dev.usedIdx % Drivers.queueSize)] := by
  rw [VirtioDevice.used, length_contents] at hroom
  refine contents_push queueSize_dvd h.seen_lt h.used_lt ?_
  exact (Nat.succ_le_of_lt hroom).trans_lt (by decide)

theorem VirtioDevice.Indexed.used_eq_nil_iff (h : dev.Indexed popped) :
    dev.used = [] ↔ dev.usedIdx = dev.usedSeen := by
  rw [← List.length_eq_zero_iff, VirtioDevice.used, length_contents]
  exact backlog_eq_zero_iff h.seen_lt h.used_lt

/-- The driver takes the first used entry. -/
theorem VirtioDevice.Indexed.used_countSeen (h : dev.Indexed popped)
    (hsome : dev.usedIdx ≠ dev.usedSeen) : dev.used = dev.nextUsed :: dev.countSeen.used := by
  rw [VirtioDevice.nextUsed, h.size]
  refine contents_pop queueSize_dvd h.seen_lt h.used_lt (Nat.pos_of_ne_zero fun hzero ↦ ?_)
  exact hsome ((backlog_eq_zero_iff h.seen_lt h.used_lt).mp hzero)

/-- The same, in terms of descriptors. -/
theorem VirtioDevice.Indexed.usedIds_countSeen (h : dev.Indexed popped)
    (hsome : dev.usedIdx ≠ dev.usedSeen) :
    dev.usedIds = dev.nextUsed.id :: dev.countSeen.usedIds := by
  rw [VirtioDevice.usedIds, h.used_countSeen hsome, List.map_cons, VirtioDevice.usedIds]

theorem VirtioDevice.Indexed.usedIds_writeUsed (h : dev.Indexed popped)
    (hroom : dev.used.length < Drivers.queueSize) (elem : UsedElem) :
    (dev.writeUsed elem).usedIds = dev.usedIds := by
  rw [VirtioDevice.usedIds, h.used_writeUsed hroom, VirtioDevice.usedIds]

theorem VirtioDevice.Indexed.usedIds_countUsed (h : dev.Indexed popped)
    (hroom : dev.used.length < Drivers.queueSize) :
    dev.countUsed.usedIds =
      dev.usedIds ++ [(dev.usedRing (dev.usedIdx % Drivers.queueSize)).id] := by
  rw [VirtioDevice.usedIds, h.used_countUsed hroom, List.map_append, List.map_singleton,
    VirtioDevice.usedIds]

end Rings

end MegKer.Drivers
