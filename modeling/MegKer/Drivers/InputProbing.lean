import MegKer.Drivers.VirtioInput
import MegKer.Drivers.VirtioMmio
import Mathlib.Data.List.Infix

/-!
# Finding the keyboard and the mouse

`virtio_input_init` of `arch/aarch64/drivers/virtio_input.c` probes the virtio input devices one after
the other, and tells the keyboard and the mouse by the names in their config space. It stops at the first
probe that fails, which is meant for the end of the list. But a probe fails as well for a device that is
too old or refuses the features, and then the devices behind it are not looked at
(`not_initOk_legacy`).

`slotBus` is a bus with a device in each slot, with any identity, any answers to the negotiation and any
config space. The devices that are reached are those in front of the first unusable one
(`inputInitLoop_spec`), so the keyboard and the mouse are found exactly when they have no unusable input
device in front of them (`inputInit_ok_iff`). No slot is probed twice in any case.
-/

set_option autoImplicit false
set_option relaxedAutoImplicit false

namespace MegKer.Drivers

open Foundation

/-! ### The code -/

def virtioDevInput : UInt32 := 18

def virtioInputCfgIdName : UInt8 := 0x01

/-- The inner loop of `str_contains`: the needle is at the start of the haystack. -/
def matchesHere : List UInt8 → List UInt8 → Bool
  | _, [] => true
  | [], _ :: _ => false
  | h :: haystack, n :: needle => if h = n then matchesHere haystack needle else false

/-- `str_contains`. The strings are without the zero at their end. -/
def strContains : List UInt8 → List UInt8 → Bool
  | [], _ => false
  | h :: haystack, needle => matchesHere (h :: haystack) needle || strContains haystack needle

/-- The string in a buffer: the characters in front of the first zero. -/
def cString (buffer : List UInt8) : List UInt8 := buffer.takeWhile (· ≠ 0)

/-- The two words that are looked for. -/
def keyboardWord : List UInt8 := "Keyboard".toUTF8.data.toList
def mouseWord : List UInt8 := "Mouse".toUTF8.data.toList

/-- The state of `virtio_input_init`. A device that is not present is `none`. -/
structure InputInit (σ τ : Type) where
  bus : σ
  frames : τ
  kbdDev : Option MmioDevice
  mouseDev : Option MmioDevice

section Code

variable {σ τ : Type} (bus : Bus σ) (alloc : τ → τ × ℕ)

/-- The loop that reads the bytes of the name. -/
def readNameFrom (dev : MmioDevice) : (count b : ℕ) → σ → List UInt8 × σ
  | 0, _, s => ([], s)
  | count + 1, b, s =>
    let (byte, s) := virtioConfigRead8 bus dev (8 + b) s
    let (bytes, s) := readNameFrom dev count (b + 1) s
    (byte :: bytes, s)

/-- The part of `virtio_input_init` that reads the name of the candidate. -/
def readName (dev : MmioDevice) (s : σ) : List UInt8 × σ :=
  let s := virtioConfigWrite8 bus dev 0 virtioInputCfgIdName s
  let s := virtioConfigWrite8 bus dev 1 0 s
  let (size, s) := virtioConfigRead8 bus dev 2 s
  let n := if size < 128 then size.toNat else 128
  readNameFrom bus dev n 0 s

/-- The accesses of `seed_queue` to the device: it is notified of each descriptor. -/
def notifySeeded (dev : MmioDevice) (s : σ) : σ :=
  (List.range dev.queueSize).foldl (fun s _ ↦ bus.write s dev.mmioBase regQueueNotify 0) s

/-- The end of the loop body: the candidate is the keyboard, or the mouse, or neither. -/
def claimDevice (st : InputInit σ τ) (dev : MmioDevice) (name : List UInt8) : InputInit σ τ :=
  if st.kbdDev = none ∧ strContains name keyboardWord = true then
    { st with kbdDev := some dev, bus := notifySeeded bus dev st.bus }
  else if st.mouseDev = none ∧ strContains name mouseWord = true then
    { st with mouseDev := some dev, bus := notifySeeded bus dev st.bus }
  else st

/-- The loop of `virtio_input_init`, with a bound on the number of its rounds. -/
def inputInitLoop : (fuel i : ℕ) → InputInit σ τ → Option (InputInit σ τ)
  | 0, _, _ => none
  | fuel + 1, i, st =>
    if st.kbdDev.isSome && st.mouseDev.isSome then some st
    else
      match virtioMmioProbeNth bus alloc virtioDevInput i st.bus st.frames with
      | (none, s, t) => some { st with bus := s, frames := t }
      | (some dev, s, t) =>
        let (buffer, s) := readName bus dev s
        inputInitLoop fuel (i + 1)
          (claimDevice bus { st with bus := s, frames := t } dev (cString buffer))

/-- `virtio_input_init`, which is called once. -/
def virtioInputInit (fuel : ℕ) (s : σ) (t : τ) : Option (InputInit σ τ) :=
  inputInitLoop bus alloc fuel 0 { bus := s, frames := t, kbdDev := none, mouseDev := none }

end Code

/-! ### A device in each slot -/

/-- A device, as far as a driver can tell. -/
structure SlotDevice where
  magicValue : UInt32
  deviceId : UInt32
  version : UInt32
  /-- What the status register reads as, after a value was written to it. -/
  statusOf : ℕ → UInt32
  /-- The size of a queue, by the number of the queue. -/
  queueNumMax : ℕ → UInt32
  /-- The config space, by `select` and `subsel`. -/
  config : UInt8 → UInt8 → ℕ → UInt8

/-- What was written to the devices, by their slots, and how often each one was probed. -/
structure SlotState where
  status : ℕ → ℕ
  queueSel : ℕ → ℕ
  select : ℕ → UInt8
  subsel : ℕ → UInt8
  /-- The number of reads of the version, which only a probe does. -/
  probes : ℕ → ℕ

/-- The slot at a base. -/
def slotOf (base : ℕ) : ℕ := (base - 0x0a000000) / 0x200

/-- A write to the register of a slot. -/
def SlotState.write (s : SlotState) (i off val : ℕ) : SlotState :=
  if off = regStatus then { s with status := Function.update s.status i val }
  else if off = regQueueSel then { s with queueSel := Function.update s.queueSel i val }
  else if off = regConfig then { s with select := Function.update s.select i (UInt8.ofNat val) }
  else if off = regConfig + 1 then { s with subsel := Function.update s.subsel i (UInt8.ofNat val) }
  else s

/-- The bus with the devices in its slots. -/
def slotBus (devices : ℕ → SlotDevice) : Bus SlotState where
  read32 := fun s base off ↦
    let i := slotOf base
    if off = regMagicValue then ((devices i).magicValue, s)
    else if off = regVersion then
      ((devices i).version, { s with probes := Function.update s.probes i (s.probes i + 1) })
    else if off = regDeviceId then ((devices i).deviceId, s)
    else if off = regStatus then ((devices i).statusOf (s.status i), s)
    else if off = regQueueNumMax then ((devices i).queueNumMax (s.queueSel i), s)
    else (0, s)
  read8 := fun s base off ↦
    let i := slotOf base
    ((devices i).config (s.select i) (s.subsel i) (off - regConfig), s)
  write := fun s base off val ↦ s.write (slotOf base) off val

/-- The device is a virtio input device. -/
def SlotDevice.isInput (d : SlotDevice) : Bool :=
  d.magicValue = virtioMagic ∧ d.deviceId = virtioDevInput

/-- The device is of version 2, accepts FEATURES_OK, and has a queue of 8 entries or more. -/
def SlotDevice.usable (d : SlotDevice) : Bool :=
  d.version = 2 ∧ (d.statusOf 11).toNat &&& statusFeaturesOk ≠ 0 ∧ 8 ≤ (d.queueNumMax 0).toNat

/-- The name of the device: at most 128 bytes, up to the first zero. -/
def SlotDevice.name (d : SlotDevice) : List UInt8 :=
  cString ((List.range (min (d.config virtioInputCfgIdName 0 2).toNat 128)).map fun b ↦
    d.config virtioInputCfgIdName 0 (8 + b))

/-- The name of the device contains a word. -/
def SlotDevice.Named (d : SlotDevice) (word : List UInt8) : Prop := word <:+: d.name

instance (d : SlotDevice) (word : List UInt8) : Decidable (d.Named word) :=
  inferInstanceAs (Decidable (_ <:+: _))

section Property

variable (devices : ℕ → SlotDevice)

/-- The slot has a usable input device with this word in its name. -/
def UsableNamed (word : List UInt8) (i : ℕ) : Prop :=
  i < virtioMmioSlots ∧ (devices i).isInput = true ∧ (devices i).usable = true ∧
    (devices i).Named word

/-- No slot was probed twice, and a keyboard and a mouse were found if there are any. -/
structure InitOk {τ : Type} (st : InputInit SlotState τ) : Prop where
  once : ∀ i, st.bus.probes i ≤ 1
  keyboard : ∀ i, UsableNamed devices keyboardWord i → st.kbdDev.isSome = true
  mouse : ∀ i, UsableNamed devices mouseWord i → st.mouseDev.isSome = true

/-- If there are usable devices with this word in their names, one of them has no unusable input device
in front of it. -/
def Reachable (word : List UInt8) : Prop :=
  (∃ i, UsableNamed devices word i) →
    ∃ i, UsableNamed devices word i ∧
      ∀ j < i, (devices j).isInput = true → (devices j).usable = true

end Property

/-! ### A device that is too old -/

/-- The config space of a device with a name. -/
def namedConfig (name : List UInt8) (select subsel : UInt8) (off : ℕ) : UInt8 :=
  if select = virtioInputCfgIdName ∧ subsel = 0 then
    if off = 2 then UInt8.ofNat name.length else name.getD (off - 8) 0
  else 0

/-- A keyboard. -/
def qemuKeyboard : SlotDevice where
  magicValue := virtioMagic
  deviceId := virtioDevInput
  version := 2
  statusOf := UInt32.ofNat
  queueNumMax := fun _ ↦ 64
  config := namedConfig "QEMU Virtio Keyboard".toUTF8.data.toList

/-- A device of the old kind. -/
def legacyInput : SlotDevice := { qemuKeyboard with version := 1 }

/-- The old device in one slot, among keyboards. -/
def legacyAt (k i : ℕ) : SlotDevice := if i = k then legacyInput else qemuKeyboard

/-- The slots before the first probe. -/
def SlotState.untouched : SlotState where
  status := fun _ ↦ 0
  queueSel := fun _ ↦ 0
  select := fun _ ↦ 0
  subsel := fun _ ↦ 0
  probes := fun _ ↦ 0

/-- An allocator that always has the next frame. -/
def nextFrame (t : ℕ) : ℕ × ℕ := (t + 4096, t + 4096)

theorem nextFrame_ne_zero (t : ℕ) : (nextFrame t).2 ≠ 0 := Nat.succ_ne_zero _

theorem legacyAt_names (k i : ℕ) :
    ¬ ((legacyAt k i).Named keyboardWord ∧ (legacyAt k i).Named mouseWord) := by
  have hname : (legacyAt k i).name = qemuKeyboard.name := by
    rw [legacyAt]
    split_ifs
    · rfl
    · rfl
  rw [SlotDevice.Named, SlotDevice.Named, hname]
  decide +kernel

/-- The keyboard in the second slot is not found. -/
theorem not_initOk_legacy :
    ¬ ∀ devices : ℕ → SlotDevice,
      (∀ i, ¬ ((devices i).Named keyboardWord ∧ (devices i).Named mouseWord)) →
      ∀ st, virtioInputInit (slotBus devices) nextFrame 33 SlotState.untouched 0 = some st →
        InitOk devices st := by
  intro h
  have hkbd : (virtioInputInit (slotBus (legacyAt 0)) nextFrame 33 SlotState.untouched 0).map
      (fun st ↦ st.kbdDev.isSome) = some false := by decide +kernel
  obtain ⟨st, hinit, hnone⟩ := Option.map_eq_some_iff.mp hkbd
  have husable : UsableNamed (legacyAt 0) keyboardWord 1 :=
    ⟨by decide, by decide, by decide +kernel, by decide +kernel⟩
  have hsome := (h (legacyAt 0) (legacyAt_names 0) st hinit).keyboard 1 husable
  exact absurd (hsome.symm.trans hnone) Bool.noConfusion

/-! ### Substrings -/

theorem matchesHere_iff (haystack needle : List UInt8) :
    matchesHere haystack needle = true ↔ needle <+: haystack := by
  induction haystack generalizing needle with
  | nil =>
    cases needle with
    | nil => exact ⟨fun _ ↦ List.nil_prefix, fun _ ↦ rfl⟩
    | cons n needle => exact ⟨fun h ↦ absurd h Bool.noConfusion, fun h ↦ absurd h (by simp)⟩
  | cons h haystack ih =>
    cases needle with
    | nil => exact ⟨fun _ ↦ List.nil_prefix, fun _ ↦ rfl⟩
    | cons n needle =>
      rw [matchesHere, List.cons_prefix_cons, ← ih]
      split_ifs with hsame
      · exact ⟨fun hrest ↦ ⟨hsame.symm, hrest⟩, fun hrest ↦ hrest.2⟩
      · exact ⟨fun hrest ↦ hrest.elim, fun hrest ↦ absurd hrest.1.symm hsame⟩

/-- `str_contains` looks for a substring. -/
theorem strContains_iff {needle : List UInt8} (hneedle : needle ≠ []) (haystack : List UInt8) :
    strContains haystack needle = true ↔ needle <:+: haystack := by
  induction haystack with
  | nil =>
    refine ⟨fun h ↦ absurd h Bool.noConfusion, fun h ↦ ?_⟩
    exact absurd (List.infix_nil.mp h) hneedle
  | cons h haystack ih =>
    rw [strContains, Bool.or_eq_true, matchesHere_iff, ih, List.infix_cons_iff]

/-! ### One probe -/

theorem slotOf_slotBase (i : ℕ) : slotOf (slotBase i) = i := by
  rw [slotOf, slotBase]
  omega

/-- The slots with input devices, in their order. -/
def inputSlots (devices : ℕ → SlotDevice) : List ℕ :=
  (List.range virtioMmioSlots).filter fun i ↦ (devices i).isInput

section Probe

variable (devices : ℕ → SlotDevice)

/-- The loop of `find_slot` takes the slots with input devices in their order. -/
theorem findSlotFrom_eq (slots : List ℕ) (seen later : ℕ) (s : SlotState) :
    findSlotFrom (slotBus devices) virtioDevInput (seen + later) slots seen s =
      (((slots.filter fun i ↦ (devices i).isInput)[later]?).map slotBase, s) := by
  induction slots generalizing seen later with
  | nil => rfl
  | cons i slots ih =>
    have hmagic : (slotBus devices).read32 s (slotBase i) regMagicValue =
        ((devices i).magicValue, s) := by
      change ((devices (slotOf (slotBase i))).magicValue, s) = _
      rw [slotOf_slotBase]
    have hid : (slotBus devices).read32 s (slotBase i) regDeviceId = ((devices i).deviceId, s) := by
      change ((devices (slotOf (slotBase i))).deviceId, s) = _
      rw [slotOf_slotBase]
    simp only [findSlotFrom, hmagic, hid]
    by_cases hinput : (devices i).isInput = true
    · obtain ⟨hm, hd⟩ := of_decide_eq_true hinput
      rw [if_neg (not_not.mpr hm), if_neg (not_not.mpr hd),
        List.filter_cons_of_pos (p := fun i ↦ (devices i).isInput) hinput]
      cases later with
      | zero =>
        rw [if_pos (Nat.add_zero seen).symm]
        rfl
      | succ later =>
        rw [if_neg (by omega), List.getElem?_cons_succ, ← ih (seen + 1) later]
        congr 1
        omega
    · rw [List.filter_cons_of_neg (p := fun i ↦ (devices i).isInput) hinput, ← ih seen later]
      by_cases hm : (devices i).magicValue ≠ virtioMagic
      · rw [if_pos hm]
      · have hd : (devices i).deviceId ≠ virtioDevInput := fun hd ↦
          hinput (decide_eq_true ⟨not_not.mp hm, hd⟩)
        rw [if_neg hm, if_pos hd]

theorem findSlot_eq (index : ℕ) (s : SlotState) :
    findSlot (slotBus devices) virtioDevInput index s =
      (((inputSlots devices)[index]?).map slotBase, s) := by
  have hloop := findSlotFrom_eq devices (List.range virtioMmioSlots) 0 index s
  rw [Nat.zero_add] at hloop
  exact hloop

/-- Writes do not count as probes. -/
@[simp] theorem probes_write (s : SlotState) (base off val : ℕ) :
    ((slotBus devices).write s base off val).probes = s.probes := by
  change (s.write (slotOf base) off val).probes = s.probes
  rw [SlotState.write]
  split_ifs
  · rfl
  · rfl
  · rfl
  · rfl
  · rfl

/-- The status that is written last. -/
theorem status_offerFeatures (s : SlotState) (i : ℕ) :
    (offerFeatures (slotBus devices) (slotBase i) s).status i = 11 := by
  have hlast (s' : SlotState) : ((slotBus devices).write s' (slotBase i) regStatus
      (statusAcknowledge ||| statusDriver ||| statusFeaturesOk)).status i = 11 := by
    change (Function.update s'.status (slotOf (slotBase i)) (11 : ℕ)) i = 11
    rw [slotOf_slotBase, Function.update_self]
  exact hlast _

@[simp] theorem probes_offerFeatures (s : SlotState) (base : ℕ) :
    (offerFeatures (slotBus devices) base s).probes = s.probes := by
  simp only [offerFeatures, probes_write]

@[simp] theorem probes_setUpQueue (s : SlotState) (base desc avail used : ℕ) :
    (setUpQueue (slotBus devices) base desc avail used s).probes = s.probes := by
  simp only [setUpQueue, probes_write]

/-- The state after the slot was probed. -/
def Probed (i : ℕ) (s s' : SlotState) : Prop :=
  s'.probes = Function.update s.probes i (s.probes i + 1)

/-- The negotiation succeeds with a usable device. -/
theorem negotiate_eq (i : ℕ) (s : SlotState) :
    ∃ s', negotiate (slotBus devices) (slotBase i) s = ((devices i).usable, s') ∧ Probed i s s' := by
  have hversion : (slotBus devices).read32 s (slotBase i) regVersion =
      ((devices i).version, { s with probes := Function.update s.probes i (s.probes i + 1) }) := by
    change ((devices (slotOf (slotBase i))).version,
      { s with probes := Function.update s.probes (slotOf (slotBase i)) _ }) = _
    rw [slotOf_slotBase]
  have hstatus (s : SlotState) : (slotBus devices).read32 s (slotBase i) regStatus =
      ((devices i).statusOf (s.status i), s) := by
    change ((devices (slotOf (slotBase i))).statusOf (s.status (slotOf (slotBase i))), s) = _
    rw [slotOf_slotBase]
  have hnumMax (s : SlotState) : (slotBus devices).read32
      ((slotBus devices).write s (slotBase i) regQueueSel 0) (slotBase i) regQueueNumMax =
      ((devices i).queueNumMax 0, (slotBus devices).write s (slotBase i) regQueueSel 0) := by
    change ((devices (slotOf (slotBase i))).queueNumMax
      (Function.update s.queueSel (slotOf (slotBase i)) (0 : ℕ) (slotOf (slotBase i))), _) = _
    rw [Function.update_self, slotOf_slotBase]
  simp only [negotiate, hversion, hstatus, hnumMax, status_offerFeatures, SlotDevice.usable]
  by_cases hv : (devices i).version = 2
  · rw [if_neg (not_not.mpr hv)]
    by_cases hf : ((devices i).statusOf 11).toNat &&& statusFeaturesOk = 0
    · rw [if_pos hf, decide_eq_false fun h ↦ h.2.1 hf]
      exact ⟨_, rfl, probes_offerFeatures devices _ _⟩
    · rw [if_neg hf]
      by_cases hq : ((devices i).queueNumMax 0).toNat < queueSize
      · rw [if_pos hq, decide_eq_false fun h ↦ absurd h.2.2 (Nat.not_le.mpr hq)]
        refine ⟨_, rfl, ?_⟩
        rw [Probed, probes_write, probes_offerFeatures]
      · rw [if_neg hq, decide_eq_true ⟨hv, hf, Nat.not_lt.mp hq⟩]
        refine ⟨_, rfl, ?_⟩
        rw [Probed, probes_write, probes_write, probes_offerFeatures]
  · rw [if_pos hv, decide_eq_false fun h ↦ hv h.1]
    exact ⟨_, rfl, rfl⟩

/-- With frames, the queue of a device is set up. -/
theorem allocQueue_eq {τ : Type} {alloc : τ → τ × ℕ} (halloc : ∀ t, (alloc t).2 ≠ 0) (base : ℕ)
    (s : SlotState) (t : τ) :
    ∃ dev s' t', allocQueue (slotBus devices) alloc base s t = (some dev, s', t') ∧
      dev.mmioBase = base ∧ s'.probes = s.probes := by
  simp only [allocQueue]
  rw [if_neg]
  · exact ⟨_, _, _, rfl, rfl, probes_setUpQueue devices _ _ _ _ _⟩
  · rintro (hdesc | havail | hused)
    · exact halloc _ hdesc
    · exact halloc _ havail
    · exact halloc _ hused

/-- There are no more input devices. -/
theorem probeNth_of_none {τ : Type} (alloc : τ → τ × ℕ) {index : ℕ} (s : SlotState) (t : τ)
    (hslot : (inputSlots devices)[index]? = none) :
    virtioMmioProbeNth (slotBus devices) alloc virtioDevInput index s t = (none, s, t) := by
  simp only [virtioMmioProbeNth, findSlot_eq, hslot, Option.map_none]

/-- The next input device is probed, and there is a device if it is usable. -/
theorem probeNth_of_some {τ : Type} {alloc : τ → τ × ℕ} (halloc : ∀ t, (alloc t).2 ≠ 0)
    {index i : ℕ} (s : SlotState) (t : τ) (hslot : (inputSlots devices)[index]? = some i) :
    ∃ dev s' t', virtioMmioProbeNth (slotBus devices) alloc virtioDevInput index s t =
        (dev, s', t') ∧ Probed i s s' ∧
      if (devices i).usable = true then ∃ d, dev = some d ∧ d.mmioBase = slotBase i
      else dev = none := by
  obtain ⟨s₁, hnegotiate, hprobed⟩ := negotiate_eq devices i s
  simp only [virtioMmioProbeNth, findSlot_eq, hslot, Option.map_some, hnegotiate]
  by_cases husable : (devices i).usable = true
  · obtain ⟨d, s₂, t₂, hqueue, hbase, hprobes⟩ :=
      allocQueue_eq devices halloc (slotBase i) s₁ t
    simp only [husable, hqueue]
    exact ⟨_, _, _, rfl, hprobes.trans hprobed, ⟨d, rfl, hbase⟩⟩
  · rw [Bool.not_eq_true] at husable
    simp only [husable]
    exact ⟨_, _, _, rfl, hprobed, rfl⟩

/-! ### The name of a device -/

section Name

variable {dev : MmioDevice} {i : ℕ} (hbase : dev.mmioBase = slotBase i)

include hbase

theorem configRead8_eq (off : ℕ) (s : SlotState) :
    virtioConfigRead8 (slotBus devices) dev off s =
      ((devices i).config (s.select i) (s.subsel i) off, s) := by
  rw [virtioConfigRead8, hbase]
  change ((devices (slotOf (slotBase i))).config (s.select (slotOf (slotBase i)))
    (s.subsel (slotOf (slotBase i))) (regConfig + off - regConfig), s) = _
  rw [slotOf_slotBase, Nat.add_sub_cancel_left]

/-- The bytes that the loop reads. -/
theorem readNameFrom_eq (count b : ℕ) (s : SlotState) :
    readNameFrom (slotBus devices) dev count b s =
      ((List.range' b count).map fun b ↦ (devices i).config (s.select i) (s.subsel i) (8 + b), s) := by
  induction count generalizing b with
  | zero => rfl
  | succ count ih =>
    simp only [readNameFrom, configRead8_eq devices hbase, ih, List.range'_succ, List.map_cons]

/-- The driver reads the name of the device. -/
theorem readName_eq (s : SlotState) :
    ∃ buffer s', readName (slotBus devices) dev s = (buffer, s') ∧
      cString buffer = (devices i).name ∧ s'.probes = s.probes := by
  obtain ⟨s₁, hs₁⟩ : ∃ s₁, virtioConfigWrite8 (slotBus devices) dev 1 0
      (virtioConfigWrite8 (slotBus devices) dev 0 virtioInputCfgIdName s) = s₁ := ⟨_, rfl⟩
  have hselect : s₁.select i = virtioInputCfgIdName := by
    rw [← hs₁, virtioConfigWrite8, virtioConfigWrite8, hbase]
    change Function.update s.select (slotOf (slotBase i)) virtioInputCfgIdName i = _
    rw [slotOf_slotBase, Function.update_self]
  have hsubsel : s₁.subsel i = 0 := by
    rw [← hs₁, virtioConfigWrite8, virtioConfigWrite8, hbase]
    change Function.update s.subsel (slotOf (slotBase i)) (0 : UInt8) i = 0
    rw [slotOf_slotBase, Function.update_self]
  have hprobes : s₁.probes = s.probes := by
    rw [← hs₁, virtioConfigWrite8, virtioConfigWrite8, probes_write, probes_write]
  have hmin (size : UInt8) :
      (if size < 128 then size.toNat else 128) = min size.toNat 128 := by
    split_ifs with hsize
    · exact (Nat.min_eq_left hsize.le).symm
    · exact (Nat.min_eq_right (Nat.not_lt.mp hsize)).symm
  simp only [readName, hs₁, configRead8_eq devices hbase, readNameFrom_eq devices hbase, hselect,
    hsubsel, hmin, ← List.range_eq_range']
  exact ⟨_, _, rfl, rfl, hprobes⟩

end Name

/-- A device is seeded without a probe. -/
@[simp] theorem probes_notifySeeded (dev : MmioDevice) (s : SlotState) :
    (notifySeeded (slotBus devices) dev s).probes = s.probes := by
  rw [notifySeeded]
  generalize List.range dev.queueSize = rounds
  induction rounds generalizing s with
  | nil => rfl
  | cons round rounds ih => rw [List.foldl_cons, ih, probes_write]

/-! ### The loop -/

/-- A device with this word in its name is among the slots, in front of the first unusable device. -/
def Reaches (word : List UInt8) (slots : List ℕ) : Prop :=
  ∃ i ∈ slots.takeWhile fun i ↦ (devices i).usable, (devices i).Named word

theorem reaches_cons {i : ℕ} (husable : (devices i).usable = true) (word : List UInt8)
    (slots : List ℕ) :
    Reaches devices word (i :: slots) ↔ (devices i).Named word ∨ Reaches devices word slots := by
  rw [Reaches, List.takeWhile_cons_of_pos (p := fun i ↦ (devices i).usable) husable,
    List.exists_mem_cons_iff]
  rfl

theorem not_reaches_cons {i : ℕ} (husable : ¬ (devices i).usable = true) (word : List UInt8)
    (slots : List ℕ) : ¬ Reaches devices word (i :: slots) := by
  rw [Reaches, List.takeWhile_cons_of_neg (p := fun i ↦ (devices i).usable) husable]
  rintro ⟨j, hj, -⟩
  exact List.not_mem_nil hj

/-- What a part of the scan adds: a device is present if it was, or if it is reached, and the slots
are probed at most once each. -/
structure Scans {τ : Type} (slots : List ℕ) (st st' : InputInit SlotState τ) : Prop where
  keyboard : st'.kbdDev.isSome = true ↔ st.kbdDev.isSome = true ∨ Reaches devices keyboardWord slots
  mouse : st'.mouseDev.isSome = true ↔ st.mouseDev.isSome = true ∨ Reaches devices mouseWord slots
  probes : ∀ j, st'.bus.probes j ≤ st.bus.probes j + slots.count j

variable {devices} {τ : Type}

/-- The candidate is the keyboard or the mouse by its name. -/
theorem claimDevice_spec (i : ℕ) (st : InputInit SlotState τ) (dev : MmioDevice)
    (hboth : ¬ ((devices i).Named keyboardWord ∧ (devices i).Named mouseWord)) :
    ((claimDevice (slotBus devices) st dev (devices i).name).kbdDev.isSome = true ↔
      st.kbdDev.isSome = true ∨ (devices i).Named keyboardWord) ∧
    ((claimDevice (slotBus devices) st dev (devices i).name).mouseDev.isSome = true ↔
      st.mouseDev.isSome = true ∨ (devices i).Named mouseWord) ∧
    (claimDevice (slotBus devices) st dev (devices i).name).bus.probes = st.bus.probes := by
  have hkeyboard : strContains (devices i).name keyboardWord = true ↔ (devices i).Named keyboardWord :=
    strContains_iff (by decide +kernel) _
  have hmouse : strContains (devices i).name mouseWord = true ↔ (devices i).Named mouseWord :=
    strContains_iff (by decide +kernel) _
  rw [claimDevice]
  split_ifs with hkbd hms
  · have hword := hkeyboard.mp hkbd.2
    have hnot : ¬ (devices i).Named mouseWord := fun h ↦ hboth ⟨hword, h⟩
    refine ⟨iff_of_true rfl (Or.inr hword), ?_, probes_notifySeeded devices _ _⟩
    rw [or_iff_left hnot]
  · have hword := hmouse.mp hms.2
    have hnot : ¬ (devices i).Named keyboardWord := fun h ↦ hboth ⟨h, hword⟩
    refine ⟨?_, iff_of_true rfl (Or.inr hword), probes_notifySeeded devices _ _⟩
    rw [or_iff_left hnot]
  · refine ⟨(or_iff_left_of_imp fun hword ↦ ?_).symm, (or_iff_left_of_imp fun hword ↦ ?_).symm, rfl⟩
    · exact Option.ne_none_iff_isSome.mp fun hnone ↦ hkbd ⟨hnone, hkeyboard.mpr hword⟩
    · exact Option.ne_none_iff_isSome.mp fun hnone ↦ hms ⟨hnone, hmouse.mpr hword⟩

variable {alloc : τ → τ × ℕ} (halloc : ∀ t, (alloc t).2 ≠ 0)
  (hboth : ∀ i, ¬ ((devices i).Named keyboardWord ∧ (devices i).Named mouseWord))

include halloc hboth

/-- One round of the loop at the next slot, with the rest of the loop behind a usable device. -/
theorem inputInitLoop_cons {i : ℕ} {rest : List ℕ} (fuel index : ℕ) (st : InputInit SlotState τ)
    (hslot : (inputSlots devices)[index]? = some i)
    (hrest : ∀ st, ∃ st', inputInitLoop (slotBus devices) alloc fuel (index + 1) st = some st' ∧
      Scans devices rest st st') :
    ∃ st', inputInitLoop (slotBus devices) alloc (fuel + 1) index st = some st' ∧
      Scans devices (i :: rest) st st' := by
  by_cases hfound : (st.kbdDev.isSome && st.mouseDev.isSome) = true
  · obtain ⟨hkbd, hms⟩ := Bool.and_eq_true_iff.mp hfound
    refine ⟨st, ?_, ⟨iff_of_true hkbd (Or.inl hkbd), iff_of_true hms (Or.inl hms), fun j ↦ ?_⟩⟩
    · rw [inputInitLoop, if_pos hfound]
    · exact Nat.le_add_right _ _
  obtain ⟨dev, s, t, hprobe, hprobed, hdev⟩ :=
    probeNth_of_some devices halloc st.bus st.frames hslot
  have hcount (j : ℕ) : s.probes j + rest.count j ≤ st.bus.probes j + (i :: rest).count j := by
    rw [hprobed, List.count_cons]
    by_cases hj : j = i
    · rw [hj, Function.update_self, if_pos (beq_self_eq_true i)]
      omega
    · rw [Function.update_of_ne hj]
      omega
  rw [inputInitLoop, if_neg hfound, hprobe]
  by_cases husable : (devices i).usable = true
  · rw [if_pos husable] at hdev
    obtain ⟨d, rfl, hbase⟩ := hdev
    obtain ⟨buffer, s', hread, hname, hprobes⟩ := readName_eq devices hbase s
    obtain ⟨hkbd, hms, hclaim⟩ := claimDevice_spec i
      { st with bus := s', frames := t } d (hboth i)
    obtain ⟨st', hloop, hscans⟩ := hrest (claimDevice (slotBus devices)
      { st with bus := s', frames := t } d (devices i).name)
    refine ⟨st', ?_, ⟨?_, ?_, fun j ↦ ?_⟩⟩
    · simp only [hread, hname]
      exact hloop
    · rw [hscans.keyboard, hkbd, reaches_cons devices husable, or_assoc]
    · rw [hscans.mouse, hms, reaches_cons devices husable, or_assoc]
    · have hle := hscans.probes j
      rw [hclaim, hprobes] at hle
      exact hle.trans (hcount j)
  · rw [if_neg husable] at hdev
    subst hdev
    refine ⟨_, rfl, ⟨?_, ?_, fun j ↦ ?_⟩⟩
    · exact (or_iff_left (not_reaches_cons devices husable _ _)).symm
    · exact (or_iff_left (not_reaches_cons devices husable _ _)).symm
    · exact (Nat.le_add_right _ _).trans (hcount j)

/-- The loop reaches the devices in front of the first unusable one. -/
theorem inputInitLoop_spec (done rest : List ℕ) (fuel : ℕ) (st : InputInit SlotState τ)
    (hslots : inputSlots devices = done ++ rest) (hfuel : rest.length < fuel) :
    ∃ st', inputInitLoop (slotBus devices) alloc fuel done.length st = some st' ∧
      Scans devices rest st st' := by
  induction rest generalizing done fuel st with
  | nil =>
    obtain ⟨fuel, rfl⟩ := Nat.exists_eq_succ_of_ne_zero (Nat.ne_of_gt hfuel)
    have hnone (word : List UInt8) : ¬ Reaches devices word [] := by
      rintro ⟨j, hj, -⟩
      exact List.not_mem_nil hj
    have hslot : (inputSlots devices)[done.length]? = none := by
      rw [hslots, List.append_nil, List.getElem?_length]
    rw [inputInitLoop, probeNth_of_none devices alloc st.bus st.frames hslot, ite_self]
    exact ⟨st, rfl, ⟨(or_iff_left (hnone _)).symm, (or_iff_left (hnone _)).symm, fun j ↦ le_rfl⟩⟩
  | cons i rest ih =>
    obtain ⟨fuel, rfl⟩ := Nat.exists_eq_succ_of_ne_zero (Nat.ne_of_gt (Nat.zero_lt_of_lt hfuel))
    refine inputInitLoop_cons halloc hboth fuel done.length st ?_ fun st ↦ ?_
    · rw [hslots, List.getElem?_append_right le_rfl, Nat.sub_self, List.getElem?_cons_zero]
    · have hlater := ih (done ++ [i]) fuel st (by rw [hslots, List.append_cons])
        (Nat.lt_of_succ_lt_succ hfuel)
      rw [List.length_append] at hlater
      exact hlater

omit halloc hboth

end Probe

/-! ### The devices that are found -/

/-- In an increasing list, the elements in front of the first one without a property. -/
theorem mem_takeWhile_iff {p : ℕ → Bool} {l : List ℕ} (hl : l.Pairwise (· < ·)) (i : ℕ) :
    i ∈ l.takeWhile p ↔ i ∈ l ∧ p i = true ∧ ∀ j ∈ l, j < i → p j = true := by
  induction l with
  | nil => exact iff_of_false List.not_mem_nil fun h ↦ List.not_mem_nil h.1
  | cons a l ih =>
    obtain ⟨hfirst, hl⟩ := List.pairwise_cons.mp hl
    by_cases hp : p a = true
    · rw [List.takeWhile_cons_of_pos hp, List.mem_cons, List.mem_cons, ih hl, List.forall_mem_cons]
      constructor
      · rintro (rfl | ⟨hi, hpi, hfront⟩)
        · exact ⟨Or.inl rfl, hp, fun _ ↦ hp, fun j hj hlt ↦ absurd (hfirst j hj) (Nat.lt_asymm hlt)⟩
        · exact ⟨Or.inr hi, hpi, fun _ ↦ hp, hfront⟩
      · rintro ⟨rfl | hi, hpi, -, hfront⟩
        · exact Or.inl rfl
        · exact Or.inr ⟨hi, hpi, hfront⟩
    · rw [List.takeWhile_cons_of_neg hp]
      refine iff_of_false List.not_mem_nil ?_
      rintro ⟨hi, hpi, hfront⟩
      rcases List.mem_cons.mp hi with rfl | hi
      · exact hp hpi
      · exact hp (hfront a List.mem_cons_self (hfirst i hi))

section Found

variable (devices : ℕ → SlotDevice)

theorem pairwise_inputSlots : (inputSlots devices).Pairwise (· < ·) :=
  List.pairwise_lt_range.filter _

theorem mem_inputSlots {i : ℕ} :
    i ∈ inputSlots devices ↔ i < virtioMmioSlots ∧ (devices i).isInput = true := by
  rw [inputSlots, List.mem_filter, List.mem_range]

/-- The scan reaches the devices with no unusable input device in front of them. -/
theorem reaches_inputSlots (word : List UInt8) :
    Reaches devices word (inputSlots devices) ↔
      ∃ i, UsableNamed devices word i ∧
        ∀ j < i, (devices j).isInput = true → (devices j).usable = true := by
  constructor
  · rintro ⟨i, hi, hname⟩
    obtain ⟨hslot, husable, hfront⟩ := (mem_takeWhile_iff (pairwise_inputSlots devices) i).mp hi
    obtain ⟨hlt, hinput⟩ := (mem_inputSlots devices).mp hslot
    refine ⟨i, ⟨hlt, hinput, husable, hname⟩, fun j hj hinputj ↦ ?_⟩
    exact hfront j ((mem_inputSlots devices).mpr ⟨hj.trans hlt, hinputj⟩) hj
  · rintro ⟨i, ⟨hlt, hinput, husable, hname⟩, hfront⟩
    refine ⟨i, (mem_takeWhile_iff (pairwise_inputSlots devices) i).mpr ⟨?_, husable, ?_⟩, hname⟩
    · exact (mem_inputSlots devices).mpr ⟨hlt, hinput⟩
    · exact fun j hj hji ↦ hfront j hji ((mem_inputSlots devices).mp hj).2

variable {devices} {τ : Type}

/-- A device is present whenever there is one, if and only if it can be reached. -/
theorem present_iff_reachable {word : List UInt8} {present : Prop}
    (hpresent : present ↔ Reaches devices word (inputSlots devices)) :
    (∀ i, UsableNamed devices word i → present) ↔ Reachable devices word := by
  rw [Reachable, ← reaches_inputSlots, hpresent]
  exact ⟨fun h ⟨i, hi⟩ ↦ h i hi, fun h i hi ↦ h ⟨i, hi⟩⟩

/-- `virtio_input_init` ends, and it has done its work exactly when the keyboard and the mouse can be
reached. -/
theorem inputInit_ok_iff {alloc : τ → τ × ℕ} (halloc : ∀ t, (alloc t).2 ≠ 0)
    (hboth : ∀ i, ¬ ((devices i).Named keyboardWord ∧ (devices i).Named mouseWord))
    {s : SlotState} (hs : ∀ i, s.probes i = 0) (t : τ) {fuel : ℕ} (hfuel : virtioMmioSlots < fuel) :
    ∃ st, virtioInputInit (slotBus devices) alloc fuel s t = some st ∧
      (InitOk devices st ↔ Reachable devices keyboardWord ∧ Reachable devices mouseWord) := by
  have hlength : (inputSlots devices).length < fuel := by
    refine lt_of_le_of_lt (List.length_filter_le _ _) ?_
    rw [List.length_range]
    exact hfuel
  obtain ⟨st, hloop, hscans⟩ := inputInitLoop_spec halloc hboth [] (inputSlots devices) fuel
    { bus := s, frames := t, kbdDev := none, mouseDev := none } rfl hlength
  have hkbd : st.kbdDev.isSome = true ↔ Reaches devices keyboardWord (inputSlots devices) :=
    hscans.keyboard.trans (or_iff_right Bool.noConfusion)
  have hms : st.mouseDev.isSome = true ↔ Reaches devices mouseWord (inputSlots devices) :=
    hscans.mouse.trans (or_iff_right Bool.noConfusion)
  have honce (i : ℕ) : st.bus.probes i ≤ 1 := by
    have hnodup : (inputSlots devices).Nodup := List.nodup_range.filter _
    calc st.bus.probes i ≤ s.probes i + (inputSlots devices).count i := hscans.probes i
      _ ≤ 1 := by
        rw [hs, Nat.zero_add]
        exact List.nodup_iff_count_le_one.mp hnodup i
  refine ⟨st, hloop, ?_⟩
  rw [← present_iff_reachable hkbd, ← present_iff_reachable hms]
  exact ⟨fun h ↦ ⟨h.keyboard, h.mouse⟩, fun h ↦ ⟨honce, h.1, h.2⟩⟩

/-- With the old device behind the first keyboard. -/
theorem inputInit_ok_iff_keyboard_first :
    ∃ st, virtioInputInit (slotBus (legacyAt 1)) nextFrame 33 SlotState.untouched 0 = some st ∧
      (InitOk (legacyAt 1) st ↔
        Reachable (legacyAt 1) keyboardWord ∧ Reachable (legacyAt 1) mouseWord) :=
  inputInit_ok_iff nextFrame_ne_zero (legacyAt_names 1) (fun _ ↦ rfl) 0 (by decide)

end Found

end MegKer.Drivers
