import MegKer.Drivers.Virtio

/-!
# Finding and setting up virtio devices

`find_slot` and `virtio_mmio_probe_nth` of `arch/aarch64/drivers/virtio.c`. A driver reaches devices
through registers, and what a register reads as is up to the device: `Bus` is anything that answers reads
and takes writes, with a state of its own. The frames for the queue come from an allocator, which is
a parameter as well.

A probe looks for a slot with the device (`findSlot`), negotiates with it (`negotiate`), takes three
frames, and sets up the queue in them (`setUpQueue`). It has no device when there is none, when the
device refuses, or when there are no frames.
-/

set_option autoImplicit false
set_option relaxedAutoImplicit false

namespace MegKer.Drivers

open Foundation

/-! ### Registers -/

/-- What answers the accesses of a driver. A register is given by the base of its device and its
offset. -/
structure Bus (σ : Type) where
  read32 : σ → ℕ → ℕ → UInt32 × σ
  read8 : σ → ℕ → ℕ → UInt8 × σ
  write : σ → ℕ → ℕ → ℕ → σ

abbrev virtioMmioSlots : ℕ := 32

/-- VIRTIO_MMIO_BASE0 and VIRTIO_MMIO_STRIDE: the base of a slot. -/
def slotBase (i : ℕ) : ℕ := 0x0a000000 + i * 0x200

/-- The registers of a device. -/
def regMagicValue : ℕ := 0x000
def regVersion : ℕ := 0x004
def regDeviceId : ℕ := 0x008
def regDriverFeatures : ℕ := 0x020
def regDriverFeaturesSel : ℕ := 0x024
def regQueueSel : ℕ := 0x030
def regQueueNumMax : ℕ := 0x034
def regQueueNum : ℕ := 0x038
def regQueueReady : ℕ := 0x044
def regQueueNotify : ℕ := 0x050
def regStatus : ℕ := 0x070
def regQueueDescLow : ℕ := 0x080
def regQueueDescHigh : ℕ := 0x084
def regQueueAvailLow : ℕ := 0x090
def regQueueAvailHigh : ℕ := 0x094
def regQueueUsedLow : ℕ := 0x0a0
def regQueueUsedHigh : ℕ := 0x0a4
def regConfig : ℕ := 0x100

def virtioMagic : UInt32 := 0x74726976

/-- The bits of the status register. -/
def statusAcknowledge : ℕ := 1
def statusDriver : ℕ := 2
def statusDriverOk : ℕ := 4
def statusFeaturesOk : ℕ := 8

/-- `virtio_device_t`, as far as a probe fills it: where the device is, and its frames. -/
structure MmioDevice where
  mmioBase : ℕ
  queueSize : ℕ
  desc : ℕ
  avail : ℕ
  used : ℕ
  deriving DecidableEq, Repr

/-! ### The code -/

section Code

variable {σ τ : Type} (bus : Bus σ)

/-- The loop of `find_slot` over the slots that are left, after `seen` devices. -/
def findSlotFrom (deviceId : UInt32) (index : ℕ) : List ℕ → ℕ → σ → Option ℕ × σ
  | [], _, s => (none, s)
  | i :: slots, seen, s =>
    let (magic, s) := bus.read32 s (slotBase i) regMagicValue
    if magic ≠ virtioMagic then findSlotFrom deviceId index slots seen s
    else
      let (id, s) := bus.read32 s (slotBase i) regDeviceId
      if id ≠ deviceId then findSlotFrom deviceId index slots seen s
      else if seen = index then (some (slotBase i), s)
      else findSlotFrom deviceId index slots (seen + 1) s

def findSlot (deviceId : UInt32) (index : ℕ) (s : σ) : Option ℕ × σ :=
  findSlotFrom bus deviceId index (List.range virtioMmioSlots) 0 s

/-- The writes of `virtio_mmio_probe_nth` up to FEATURES_OK. -/
def offerFeatures (base : ℕ) (s : σ) : σ :=
  let s := bus.write s base regStatus 0
  let s := bus.write s base regStatus statusAcknowledge
  let s := bus.write s base regStatus (statusAcknowledge ||| statusDriver)
  let s := bus.write s base regDriverFeaturesSel 0
  let s := bus.write s base regDriverFeatures 0
  let s := bus.write s base regDriverFeaturesSel 1
  let s := bus.write s base regDriverFeatures 1
  bus.write s base regStatus (statusAcknowledge ||| statusDriver ||| statusFeaturesOk)

/-- The part of `virtio_mmio_probe_nth` between `find_slot` and the allocations: the version, the
features and the size of the queue. -/
def negotiate (base : ℕ) (s : σ) : Bool × σ :=
  let (version, s) := bus.read32 s base regVersion
  if version ≠ 2 then (false, s)
  else
    let (status, s) := bus.read32 (offerFeatures bus base s) base regStatus
    if status.toNat &&& statusFeaturesOk = 0 then (false, s)
    else
      let (numMax, s) := bus.read32 (bus.write s base regQueueSel 0) base regQueueNumMax
      if numMax.toNat < queueSize then (false, s)
      else (true, bus.write s base regQueueNum queueSize)

/-- The writes of `virtio_mmio_probe_nth` behind the allocations. -/
def setUpQueue (base desc avail used : ℕ) (s : σ) : σ :=
  let s := bus.write s base regQueueDescLow (wrap32 desc)
  let s := bus.write s base regQueueDescHigh (wrap32 (desc / 2 ^ 32))
  let s := bus.write s base regQueueAvailLow (wrap32 avail)
  let s := bus.write s base regQueueAvailHigh (wrap32 (avail / 2 ^ 32))
  let s := bus.write s base regQueueUsedLow (wrap32 used)
  let s := bus.write s base regQueueUsedHigh (wrap32 (used / 2 ^ 32))
  let s := bus.write s base regQueueReady 1
  bus.write s base regStatus
    (statusAcknowledge ||| statusDriver ||| statusFeaturesOk ||| statusDriverOk)

variable (alloc : τ → τ × ℕ)

/-- The rest of `virtio_mmio_probe_nth`, from the allocations on: three frames, and the queue in
them. -/
def allocQueue (base : ℕ) (s : σ) (t : τ) : Option MmioDevice × σ × τ :=
  let (t, desc) := alloc t
  let (t, avail) := alloc t
  let (t, used) := alloc t
  if desc = 0 ∨ avail = 0 ∨ used = 0 then (none, s, t)
  else
    (some { mmioBase := base, queueSize := queueSize, desc := desc, avail := avail, used := used },
      setUpQueue bus base desc avail used s, t)

/-- `virtio_mmio_probe_nth`, with the device in place of `true`. -/
def virtioMmioProbeNth (deviceId : UInt32) (index : ℕ) (s : σ) (t : τ) :
    Option MmioDevice × σ × τ :=
  match findSlot bus deviceId index s with
  | (none, s) => (none, s, t)
  | (some base, s) =>
    match negotiate bus base s with
    | (false, s) => (none, s, t)
    | (true, s) => allocQueue bus alloc base s t

def virtioConfigRead8 (dev : MmioDevice) (off : ℕ) (s : σ) : UInt8 × σ :=
  bus.read8 s dev.mmioBase (regConfig + off)

def virtioConfigWrite8 (dev : MmioDevice) (off : ℕ) (val : UInt8) (s : σ) : σ :=
  bus.write s dev.mmioBase (regConfig + off) val.toNat

end Code

end MegKer.Drivers
