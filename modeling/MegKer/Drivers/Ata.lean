import MegKer.Foundation.Loop
import MegKer.Fs.Vfs
import Mathlib.Tactic.SplitIfs

/-!
# The ATA driver

`arch/x86_64/drivers/ata.c`: a sector is read by polling the status register of the drive. The driver is
written against any bus (`PortBus`), on which there may be nothing (`emptyBus`) or a drive with any
contents that takes any time for a command (`Drive`, `driveBus`).

The driver gives up on a command after 100000 looks at the status, and the drive does not know. What it
then has to hand over is left on the bus, and unless the drive drops it for the next command, the next
call takes it for its own sector. `answers` says this of a sequence of reads, with what the drive still
owes from one read to the next, and `ataReads_spec` that the calls return just that. A drive that is
never that slow behaves as a `Disk` (`answers_of_timely`).
-/

set_option autoImplicit false
set_option relaxedAutoImplicit false

namespace MegKer.Drivers

open Foundation Fs

/-! ### The code -/

/-- The port instructions, on a bus with something that has a state. -/
structure PortBus (σ : Type) where
  inb : ℕ → σ → ℕ × σ
  inw : ℕ → σ → ℕ × σ
  outb : ℕ → ℕ → σ → σ

abbrev ataData : ℕ := 0x1F0

abbrev ataSeccount : ℕ := 0x1F2

abbrev ataLbaLow : ℕ := 0x1F3

abbrev ataLbaMid : ℕ := 0x1F4

abbrev ataLbaHigh : ℕ := 0x1F5

abbrev ataDrive : ℕ := 0x1F6

/-- ATA_STATUS, and ATA_COMMAND for writing. -/
abbrev ataStatus : ℕ := 0x1F7

abbrev ataCmdReadSectors : ℕ := 0x20

/-- `p[i] = value` for a `u16* p`, in the bytes of a buffer. -/
def storeU16 (buf : ℕ → UInt8) (i value : ℕ) : ℕ → UInt8 :=
  Function.update (Function.update buf (2 * i) (UInt8.ofNat value)) (2 * i + 1)
    (UInt8.ofNat (value / 256))

section Code

variable {σ : Type} (bus : PortBus σ)

def ataDelay (s : σ) : σ :=
  let s := (bus.inb ataStatus s).2
  let s := (bus.inb ataStatus s).2
  let s := (bus.inb ataStatus s).2
  (bus.inb ataStatus s).2

/-- `ata_wait_bsy_clear`. The state of the loop is the status that was read last and the bus. -/
def ataWaitBsyClear (s : σ) (fuel : ℕ) : Option σ :=
  (loop (fun p : ℕ × σ ↦ p.1 &&& 0x80 != 0) (fun p _ ↦ some (bus.inb ataStatus p.2))
    (bus.inb ataStatus s) fuel).map Prod.snd

/-- `ata_wait_drq`, with the number of rounds that are left. -/
def ataWaitDrq : ℕ → σ → Bool × σ
  | 0, s => (false, s)
  | left + 1, s =>
    let status := (bus.inb ataStatus s).1
    let s := (bus.inb ataStatus s).2
    if status &&& 0x01 ≠ 0 then (false, s)
    else if status &&& 0x08 ≠ 0 then (true, s)
    else ataWaitDrq left s

/-- `ata_init`. The result is `disk_present`. -/
def ataInit (s : σ) : Bool × σ :=
  let s := bus.outb ataDrive 0xE0 s
  let s := ataDelay bus s
  ((bus.inb ataStatus s).1 != 0xFF, (bus.inb ataStatus s).2)

/-- The loop that takes the words of a sector from the data port. -/
def ataReadData (count : ℕ) (buf : ℕ → UInt8) (s : σ) : (ℕ → UInt8) × σ :=
  (List.range count).foldl
    (fun p i ↦ (storeU16 p.1 i (bus.inw ataData p.2).1, (bus.inw ataData p.2).2)) (buf, s)

/-- `ata_read_sector`. The results are what is returned, the buffer and the bus. -/
def ataReadSector (diskPresent : Bool) (lba : ℕ) (buf : ℕ → UInt8) (s : σ) (fuel : ℕ) :
    Option (Bool × (ℕ → UInt8) × σ) :=
  if !diskPresent then some (false, buf, s)
  else
    (ataWaitBsyClear bus s fuel).map fun s ↦
      let s := bus.outb ataDrive (0xE0 ||| (lba >>> 24 &&& 0x0F)) s
      let s := bus.outb ataSeccount 1 s
      let s := bus.outb ataLbaLow (lba &&& 0xFF) s
      let s := bus.outb ataLbaMid (lba >>> 8 &&& 0xFF) s
      let s := bus.outb ataLbaHigh (lba >>> 16 &&& 0xFF) s
      let s := bus.outb ataStatus ataCmdReadSectors s
      let ready := ataWaitDrq bus 100000 s
      if !ready.1 then (false, buf, ready.2)
      else
        let data := ataReadData bus 256 buf ready.2
        (true, data.1, data.2)

/-- Calls of `ata_read_sector`, each with its sector and its buffer. -/
def ataReads (diskPresent : Bool) :
    List (ℕ × (ℕ → UInt8)) → σ → ℕ → Option (List (Bool × (ℕ → UInt8)) × σ)
  | [], s, _ => some ([], s)
  | call :: calls, s, fuel =>
    (ataReadSector bus diskPresent call.1 call.2 s fuel).bind fun r ↦
      (ataReads diskPresent calls r.2.2 fuel).map fun rest ↦ ((r.1, r.2.1) :: rest.1, rest.2)

end Code

/-! ### The bus -/

/-- A bus without a drive floats. -/
def emptyBus : PortBus Unit where
  inb := fun _ s ↦ (0xFF, s)
  inw := fun _ s ↦ (0xFFFF, s)
  outb := fun _ _ s ↦ s

/-- A drive. It takes its time for each command, which is counted in looks at its status; ATA leaves open
what it does with a command while it has data to hand over. -/
structure Drive where
  /-- The sectors that can be read. -/
  contents : ℕ → Option Sector
  /-- How often the status is busy, for each command. -/
  delay : ℕ → ℕ
  /-- Whether a command replaces data that nobody has taken, or is ignored. -/
  replaces : Bool

inductive DrivePhase
  | idle
  | busy (lba left : ℕ)
  | data (sector : Sector) (next : ℕ)
  | failed

structure DriveState where
  drive : ℕ
  seccount : ℕ
  lbaLow : ℕ
  lbaMid : ℕ
  lbaHigh : ℕ
  /-- The number of commands that were taken. -/
  commands : ℕ
  phase : DrivePhase

/-- The sector that the registers name. -/
def DriveState.lba (s : DriveState) : ℕ :=
  s.lbaLow + s.lbaMid * 2 ^ 8 + s.lbaHigh * 2 ^ 16 + s.drive % 16 * 2 ^ 24

def DriveState.isBusy (s : DriveState) : Bool :=
  match s.phase with
  | .busy _ _ => true
  | _ => false

section Drive

variable (drive : Drive)

/-- How a command ends. -/
def Drive.finish (lba : ℕ) : DrivePhase :=
  match drive.contents lba with
  | some sector => .data sector 0
  | none => .failed

/-- The status register. The drive is ready when it is not busy; it has data, or an error. -/
def DrivePhase.status : DrivePhase → ℕ
  | .idle => 0x50
  | .busy _ _ => 0xD0
  | .data _ _ => 0x58
  | .failed => 0x51

/-- A look at the status. -/
def Drive.look (s : DriveState) : ℕ × DriveState :=
  match s.phase with
  | .busy lba (left + 1) => (0xD0, { s with phase := .busy lba left })
  | .busy lba 0 => ((drive.finish lba).status, { s with phase := drive.finish lba })
  | phase => (phase.status, s)

/-- The drive takes a command. One that is not addressed as a master with LBA, or not for a single sector,
is not served. -/
def Drive.take (s : DriveState) (value : ℕ) : DriveState :=
  if value = ataCmdReadSectors ∧ s.drive.testBit 6 = true ∧ s.drive.testBit 4 = false ∧ s.seccount = 1
  then { s with commands := s.commands + 1, phase := .busy s.lba (drive.delay s.commands) }
  else { s with phase := .failed }

/-- A command is written. -/
def Drive.command (s : DriveState) (value : ℕ) : DriveState :=
  match s.phase with
  | .busy _ _ => s
  | .data _ _ => if drive.replaces then drive.take s value else s
  | _ => drive.take s value

/-- A word of a sector. -/
def wordOf (sector : Sector) (i : ℕ) : ℕ :=
  if h : 2 * i + 1 < 512 then
    (sector ⟨2 * i, by omega⟩).toNat + (sector ⟨2 * i + 1, h⟩).toNat * 256
  else 0

/-- The bus with a drive. While it is busy, its registers cannot be written. -/
def driveBus : PortBus DriveState where
  inb := fun port s ↦ if port = ataStatus then drive.look s else (0, s)
  inw := fun port s ↦
    match s.phase with
    | .data sector next =>
      if port = ataData then
        (wordOf sector next,
          { s with phase := if next + 1 = 256 then .idle else .data sector (next + 1) })
      else (0, s)
    | _ => (0, s)
  outb := fun port value s ↦
    if port = ataStatus then drive.command s value
    else if s.isBusy then s
    else if port = ataDrive then { s with drive := value % 256 }
    else if port = ataSeccount then { s with seccount := value % 256 }
    else if port = ataLbaLow then { s with lbaLow := value % 256 }
    else if port = ataLbaMid then { s with lbaMid := value % 256 }
    else if port = ataLbaHigh then { s with lbaHigh := value % 256 }
    else s

/-! ### What the calls answer -/

/-- What a read answers, when the drive is at a command and owes a sector; and where this leaves the
drive. -/
def Drive.answer (n : ℕ) (owed : Option Sector) (lba : ℕ) : Option Sector × ℕ × Option Sector :=
  if owed.isSome = true ∧ drive.replaces = false then (owed, n, none)
  else if drive.delay n < 100000 then (drive.contents (lba % 2 ^ 28), n + 1, none)
  else (none, n + 1, drive.contents (lba % 2 ^ 28))

/-- What a sequence of reads answers. -/
def Drive.answers : ℕ → Option Sector → List ℕ → List (Option Sector)
  | _, _, [] => []
  | n, owed, lba :: lbas =>
    let a := drive.answer n owed lba
    a.1 :: Drive.answers a.2.1 a.2.2 lbas

/-- What an answer leaves in a buffer. -/
def delivered (buf : ℕ → UInt8) : Option Sector → Bool × (ℕ → UInt8)
  | some sector => (true, fun i ↦ if h : i < 512 then sector ⟨i, h⟩ else buf i)
  | none => (false, buf)

/-- The sector that a drive owes. -/
def Drive.Owes (s : DriveState) (owed : Option Sector) : Prop :=
  match s.phase with
  | .idle => owed = none
  | .busy lba _ => owed = drive.contents lba
  | .data sector next => owed = some sector ∧ next = 0
  | .failed => owed = none

end Drive

/-! ### The status -/

section Driver

variable {drive : Drive} {owed : Option Sector} {s : DriveState}

theorem Drive.owes_finish {lba : ℕ} (h : s.phase = drive.finish lba) :
    drive.Owes s (drive.contents lba) := by
  unfold Drive.Owes
  rw [h, Drive.finish]
  cases drive.contents lba with
  | none => rfl
  | some sector => exact ⟨rfl, rfl⟩

/-- A look at the status shows how the drive is after it. -/
theorem Drive.look_fst (s : DriveState) : (drive.look s).1 = (drive.look s).2.phase.status := by
  obtain ⟨reg, count, low, mid, high, commands, phase⟩ := s
  cases phase with
  | busy lba left => cases left <;> rfl
  | idle => rfl
  | data sector next => rfl
  | failed => rfl

theorem DriveState.status_busy (s : DriveState) : (s.phase.status &&& 0x80 != 0) = s.isBusy := by
  unfold DriveState.isBusy
  cases s.phase <;> simp [DrivePhase.status]

theorem DrivePhase.status_ne (phase : DrivePhase) : phase.status ≠ 0xFF := by
  cases phase <;> simp [DrivePhase.status]

/-- A look at the status changes neither what the drive owes nor which command it is at. -/
theorem Drive.Owes.look (h : drive.Owes s owed) :
    drive.Owes (drive.look s).2 owed ∧ (drive.look s).2.commands = s.commands := by
  obtain ⟨reg, count, low, mid, high, commands, phase⟩ := s
  cases phase with
  | idle => exact ⟨h, rfl⟩
  | failed => exact ⟨h, rfl⟩
  | data sector next => exact ⟨h, rfl⟩
  | busy lba left =>
    have howed : owed = drive.contents lba := h
    cases left with
    | succ left => exact ⟨h, rfl⟩
    | zero => exact ⟨howed ▸ Drive.owes_finish rfl, rfl⟩

theorem Drive.look_busy (s : DriveState) :
    ((drive.look s).1 &&& 0x80 != 0) = (drive.look s).2.isBusy := by
  rw [Drive.look_fst, DriveState.status_busy]

/-- The looks that the drive is still busy for. -/
def DriveState.left (s : DriveState) : ℕ :=
  match s.phase with
  | .busy _ left => left + 1
  | _ => 0

theorem Drive.left_look_lt (hbusy : s.isBusy = true) : (drive.look s).2.left < s.left := by
  obtain ⟨reg, count, low, mid, high, commands, phase⟩ := s
  cases phase with
  | busy lba left =>
    cases left with
    | succ left => exact Nat.lt_succ_self _
    | zero =>
      simp only [Drive.look, DriveState.left, Drive.finish]
      cases drive.contents lba <;> exact Nat.zero_lt_one
  | idle => cases hbusy
  | data sector next => cases hbusy
  | failed => cases hbusy

/-- The wait for the drive ends, and nothing is lost. -/
theorem exists_ataWaitBsyClear (h : drive.Owes s owed) :
    ∃ s', Returns (ataWaitBsyClear (driveBus drive) s) s' ∧ drive.Owes s' owed ∧
      s'.commands = s.commands ∧ s'.isBusy = false := by
  obtain ⟨⟨status, s'⟩, hresult, ⟨howes, hcommands⟩, hstatus⟩ := @exists_returns (ℕ × DriveState)
    (fun p ↦ p.1 &&& 0x80 != 0) (fun p _ ↦ some ((driveBus drive).inb ataStatus p.2))
    (fun p ↦ fuelMono_const (some ((driveBus drive).inb ataStatus p.2)))
    (fun p ↦ (drive.Owes p.2 owed ∧ p.2.commands = s.commands) ∧ (p.1 &&& 0x80 != 0) = p.2.isBusy)
    (fun p ↦ p.2.left)
    (fun p hp hbusy ↦ ⟨drive.look p.2, ⟨0, rfl⟩,
      ⟨⟨hp.1.1.look.1, hp.1.1.look.2.trans hp.1.2⟩, Drive.look_busy p.2⟩,
      Drive.left_look_lt (hp.2 ▸ hbusy)⟩)
    (drive.look s) ⟨h.look, Drive.look_busy s⟩
  refine ⟨s', ?_, howes, hcommands, hstatus ▸ hresult.stopped⟩
  obtain ⟨fuel, hfuel⟩ := hresult
  exact ⟨fuel, Option.map_eq_some_iff.mpr ⟨(status, s'), hfuel, rfl⟩⟩

/-! ### A command -/

/-- The registers that the driver writes name the sector, of which ATA has 28 bits. -/
theorem lba_of_registers (lba : ℕ) :
    (lba &&& 0xFF) % 256 + (lba >>> 8 &&& 0xFF) % 256 * 2 ^ 8 + (lba >>> 16 &&& 0xFF) % 256 * 2 ^ 16 +
      (0xE0 ||| (lba >>> 24 &&& 0x0F)) % 256 % 16 * 2 ^ 24 = lba % 2 ^ 28 := by
  have hlow : lba &&& 0xFF = lba % 2 ^ 8 := Nat.and_two_pow_sub_one_eq_mod lba 8
  have hmid : lba >>> 8 &&& 0xFF = lba / 2 ^ 8 % 2 ^ 8 := by
    rw [Nat.shiftRight_eq_div_pow]
    exact Nat.and_two_pow_sub_one_eq_mod _ 8
  have hhigh : lba >>> 16 &&& 0xFF = lba / 2 ^ 16 % 2 ^ 8 := by
    rw [Nat.shiftRight_eq_div_pow]
    exact Nat.and_two_pow_sub_one_eq_mod _ 8
  have htop : lba >>> 24 &&& 0x0F = lba / 2 ^ 24 % 2 ^ 4 := by
    rw [Nat.shiftRight_eq_div_pow]
    exact Nat.and_two_pow_sub_one_eq_mod _ 4
  have hdrive : ∀ n < 16, (0xE0 ||| n) % 256 % 16 = n := by decide
  rw [hlow, hmid, hhigh, htop, hdrive (lba / 2 ^ 24 % 2 ^ 4) (by omega)]
  omega

/-- The drive register selects the master and LBA. -/
theorem drive_register (lba : ℕ) :
    ((0xE0 ||| (lba >>> 24 &&& 0x0F)) % 256).testBit 6 = true ∧
      ((0xE0 ||| (lba >>> 24 &&& 0x0F)) % 256).testBit 4 = false := by
  have hselect : ∀ n < 16, ((0xE0 ||| n) % 256).testBit 6 = true ∧
      ((0xE0 ||| n) % 256).testBit 4 = false := by decide
  refine hselect _ (Nat.lt_of_le_of_lt Nat.and_le_right (by decide))

/-- The writes of `ata_read_sector` up to the command. -/
def issue (bus : PortBus DriveState) (lba : ℕ) (s : DriveState) : DriveState :=
  let s := bus.outb ataDrive (0xE0 ||| (lba >>> 24 &&& 0x0F)) s
  let s := bus.outb ataSeccount 1 s
  let s := bus.outb ataLbaLow (lba &&& 0xFF) s
  let s := bus.outb ataLbaMid (lba >>> 8 &&& 0xFF) s
  let s := bus.outb ataLbaHigh (lba >>> 16 &&& 0xFF) s
  bus.outb ataStatus ataCmdReadSectors s

/-- The registers of a drive that is not busy, before the command. -/
theorem issue_eq (hbusy : s.isBusy = false) (lba : ℕ) :
    issue (driveBus drive) lba s =
      drive.command
        ⟨(0xE0 ||| (lba >>> 24 &&& 0x0F)) % 256, 1, (lba &&& 0xFF) % 256, (lba >>> 8 &&& 0xFF) % 256,
          (lba >>> 16 &&& 0xFF) % 256, s.commands, s.phase⟩ ataCmdReadSectors := by
  obtain ⟨reg, count, low, mid, high, commands, phase⟩ := s
  have hnot : ∀ reg count low mid high, DriveState.isBusy ⟨reg, count, low, mid, high, commands, phase⟩ =
      false := fun _ _ _ _ _ ↦ hbusy
  simp [issue, driveBus, hnot]

/-- A command that is taken keeps the drive busy with its sector. -/
theorem take_eq (lba : ℕ) (n : ℕ) (phase : DrivePhase) :
    drive.take
        ⟨(0xE0 ||| (lba >>> 24 &&& 0x0F)) % 256, 1, (lba &&& 0xFF) % 256, (lba >>> 8 &&& 0xFF) % 256,
          (lba >>> 16 &&& 0xFF) % 256, n, phase⟩ ataCmdReadSectors =
      ⟨(0xE0 ||| (lba >>> 24 &&& 0x0F)) % 256, 1, (lba &&& 0xFF) % 256, (lba >>> 8 &&& 0xFF) % 256,
        (lba >>> 16 &&& 0xFF) % 256, n + 1, .busy (lba % 2 ^ 28) (drive.delay n)⟩ := by
  obtain ⟨hlba, hmaster⟩ := drive_register lba
  rw [Drive.take, if_pos ⟨rfl, hlba, hmaster, rfl⟩]
  simp only [DriveState.lba, lba_of_registers]

/-- After the writes, the drive has taken the command, or it still has the data of another one. -/
theorem issue_spec (h : drive.Owes s owed) (hbusy : s.isBusy = false) (lba : ℕ) :
    if owed.isSome = true ∧ drive.replaces = false then
      ∃ sector, owed = some sector ∧ (issue (driveBus drive) lba s).phase = .data sector 0 ∧
        (issue (driveBus drive) lba s).commands = s.commands
    else
      (issue (driveBus drive) lba s).phase = .busy (lba % 2 ^ 28) (drive.delay s.commands) ∧
        (issue (driveBus drive) lba s).commands = s.commands + 1 := by
  rw [issue_eq hbusy]
  unfold Drive.Owes at h
  unfold DriveState.isBusy at hbusy
  cases hphase : s.phase with
  | busy lba left => simp [hphase] at hbusy
  | idle =>
    rw [hphase] at h
    subst h
    simp [Drive.command, take_eq]
  | failed =>
    rw [hphase] at h
    subst h
    simp [Drive.command, take_eq]
  | data sector next =>
    rw [hphase] at h
    obtain ⟨rfl, rfl⟩ := h
    cases hreplaces : drive.replaces with
    | false => simp [Drive.command, hreplaces]
    | true => simp [Drive.command, hreplaces, take_eq]

/-! ### The data -/

/-- A drive that is busy with a command is ready before the driver gives up, or it stays busy. -/
theorem ataWaitDrq_spec (n : ℕ) {lba left : ℕ} (hphase : s.phase = .busy lba left) :
    (ataWaitDrq (driveBus drive) n s).2.commands = s.commands ∧
    if left < n then
      (ataWaitDrq (driveBus drive) n s).1 = (drive.contents lba).isSome ∧
        (ataWaitDrq (driveBus drive) n s).2.phase = drive.finish lba
    else
      (ataWaitDrq (driveBus drive) n s).1 = false ∧
        (ataWaitDrq (driveBus drive) n s).2.phase = .busy lba (left - n) := by
  induction n generalizing s left with
  | zero => exact ⟨rfl, by rw [if_neg (Nat.not_lt_zero left)]; exact ⟨rfl, hphase⟩⟩
  | succ n ih =>
    obtain ⟨reg, count, low, mid, high, commands, phase⟩ := s
    obtain rfl : phase = .busy lba left := hphase
    cases left with
    | succ left =>
      have hround : ataWaitDrq (driveBus drive) (n + 1)
          ⟨reg, count, low, mid, high, commands, .busy lba (left + 1)⟩ =
          ataWaitDrq (driveBus drive) n ⟨reg, count, low, mid, high, commands, .busy lba left⟩ := by
        simp [ataWaitDrq, driveBus, Drive.look]
      rw [hround]
      have hrest := @ih ⟨reg, count, low, mid, high, commands, .busy lba left⟩ left rfl
      simpa only [Nat.succ_lt_succ_iff, Nat.succ_sub_succ] using hrest
    | zero =>
      rw [if_pos (Nat.succ_pos n)]
      cases hcontents : drive.contents lba <;>
        simp [ataWaitDrq, driveBus, Drive.look, Drive.finish, hcontents, DrivePhase.status]

/-- A drive with data is ready at once. -/
theorem ataWaitDrq_data {n : ℕ} {sector : Sector} (hphase : s.phase = .data sector 0) :
    ataWaitDrq (driveBus drive) (n + 1) s = (true, s) := by
  obtain ⟨reg, count, low, mid, high, commands, phase⟩ := s
  obtain rfl : phase = .data sector 0 := hphase
  simp [ataWaitDrq, driveBus, Drive.look, DrivePhase.status]

theorem storeU16_wordOf (buf : ℕ → UInt8) (sector : Sector) {k : ℕ} (hk : k < 256) (i : ℕ) :
    storeU16 buf k (wordOf sector k) i =
      if h : 2 * k ≤ i ∧ i < 2 * k + 2 then sector ⟨i, by omega⟩ else buf i := by
  have hlow : 2 * k + 1 < 512 := by omega
  have hword : wordOf sector k =
      (sector ⟨2 * k, by omega⟩).toNat + (sector ⟨2 * k + 1, hlow⟩).toNat * 256 := dif_pos hlow
  have hbyte : (sector ⟨2 * k, by omega⟩).toNat < 256 := (sector ⟨2 * k, by omega⟩).toNat_lt
  have hdiv : wordOf sector k / 256 = (sector ⟨2 * k + 1, hlow⟩).toNat := by omega
  have hofNat : UInt8.ofNat (wordOf sector k) = sector ⟨2 * k, by omega⟩ := by
    have hmod : wordOf sector k % 256 = (sector ⟨2 * k, by omega⟩).toNat := by omega
    apply UInt8.toNat_inj.mp
    rw [UInt8.toNat_ofNat', hmod]
  rw [storeU16, hdiv, UInt8.ofNat_toNat, hofNat]
  by_cases hi : i = 2 * k + 1
  · subst hi
    rw [Function.update_self, dif_pos (by omega)]
  · rw [Function.update_of_ne hi]
    by_cases hi' : i = 2 * k
    · subst hi'
      rw [Function.update_self, dif_pos (by omega)]
    · rw [Function.update_of_ne hi', dif_neg (by omega)]

/-- The words of a sector go to the buffer, and then the drive has nothing more. -/
theorem ataReadData_spec (buf : ℕ → UInt8) {sector : Sector} (hphase : s.phase = .data sector 0) {k : ℕ}
    (hk : k ≤ 256) :
    ataReadData (driveBus drive) k buf s =
      (fun i ↦ if h : i < 2 * k then sector ⟨i, by omega⟩ else buf i,
        { s with phase := if k = 256 then .idle else .data sector k }) := by
  induction k with
  | zero =>
    obtain ⟨reg, count, low, mid, high, commands, phase⟩ := s
    obtain rfl : phase = .data sector 0 := hphase
    rfl
  | succ k ih =>
    have hlt : k < 256 := hk
    have hnot : k ≠ 256 := Nat.ne_of_lt hlt
    rw [ataReadData, List.range_succ, List.foldl_append, List.foldl_cons, List.foldl_nil]
    change (storeU16 (ataReadData (driveBus drive) k buf s).1 k
      ((driveBus drive).inw ataData (ataReadData (driveBus drive) k buf s).2).1,
      ((driveBus drive).inw ataData (ataReadData (driveBus drive) k buf s).2).2) = _
    rw [ih (Nat.le_of_lt hlt), if_neg hnot]
    refine Prod.ext (funext fun i ↦ ?_) rfl
    refine (storeU16_wordOf _ sector hlt i).trans ?_
    dsimp only
    by_cases hhere : 2 * k ≤ i ∧ i < 2 * k + 2
    · rw [dif_pos hhere, dif_pos (by omega)]
    · rw [dif_neg hhere]
      by_cases hlow : i < 2 * k
      · rw [dif_pos hlow, dif_pos (by omega)]
      · rw [dif_neg hlow, dif_neg (by omega)]

/-! ### The calls -/

theorem fuelMono_ataReadSector {σ : Type} (bus : PortBus σ) (present : Bool) (lba : ℕ)
    (buf : ℕ → UInt8) (s : σ) : FuelMono (ataReadSector bus present lba buf s) := by
  have hwait : FuelMono (ataWaitBsyClear bus s) :=
    FuelMono.map (loop_mono (fun p : ℕ × σ ↦ fuelMono_const (some (bus.inb ataStatus p.2)))
      (bus.inb ataStatus s)) Prod.snd
  unfold ataReadSector
  exact (fuelMono_const _).ite (hwait.map _)

theorem fuelMono_ataReads {σ : Type} (bus : PortBus σ) (present : Bool)
    (calls : List (ℕ × (ℕ → UInt8))) (s : σ) : FuelMono (ataReads bus present calls s) := by
  induction calls generalizing s with
  | nil => exact fuelMono_const _
  | cons call calls ih =>
    intro fuel more result hrun hle
    obtain ⟨r, hr, hrest⟩ := Option.bind_eq_some_iff.mp hrun
    rw [ataReads, fuelMono_ataReadSector bus present call.1 call.2 s hr hle, Option.bind_some]
    exact (ih r.2.2).map _ hrest hle

/-- One call: it returns what the drive answers, and leaves the drive accordingly. -/
theorem exists_ataReadSector (h : drive.Owes s owed) (lba : ℕ) (buf : ℕ → UInt8) :
    ∃ s', Returns (ataReadSector (driveBus drive) true lba buf s)
        ((delivered buf (drive.answer s.commands owed lba).1).1,
          (delivered buf (drive.answer s.commands owed lba).1).2, s') ∧
      drive.Owes s' (drive.answer s.commands owed lba).2.2 ∧
      s'.commands = (drive.answer s.commands owed lba).2.1 := by
  obtain ⟨ready, ⟨fuel, hfuel⟩, howes, hcommands, hbusy⟩ := exists_ataWaitBsyClear h
  have hissue := issue_spec howes hbusy lba
  rw [hcommands] at hissue
  have hcall : ∀ waited : Bool × DriveState,
      ataWaitDrq (driveBus drive) 100000 (issue (driveBus drive) lba ready) = waited →
      Returns (ataReadSector (driveBus drive) true lba buf s)
        (if !waited.1 then (false, buf, waited.2)
          else
            (true, (ataReadData (driveBus drive) 256 buf waited.2).1,
              (ataReadData (driveBus drive) 256 buf waited.2).2)) := by
    rintro waited rfl
    refine ⟨fuel, ?_⟩
    rw [ataReadSector, hfuel]
    rfl
  have hdata : ∀ {waited : DriveState} {sector : Sector}, waited.phase = .data sector 0 →
      ataReadData (driveBus drive) 256 buf waited =
        ((delivered buf (some sector)).2, { waited with phase := .idle }) :=
    fun hphase ↦ ataReadData_spec buf hphase le_rfl
  unfold Drive.answer
  by_cases hstale : owed.isSome = true ∧ drive.replaces = false
  · rw [if_pos hstale] at hissue ⊢
    obtain ⟨sector, rfl, hphase, hcount⟩ := hissue
    have hreturns := hcall _ (ataWaitDrq_data hphase)
    rw [hdata hphase] at hreturns
    exact ⟨_, hreturns, rfl, hcount⟩
  · rw [if_neg hstale] at hissue ⊢
    obtain ⟨hphase, hcount⟩ := hissue
    obtain ⟨hwaited, hwait⟩ := ataWaitDrq_spec 100000 hphase
    obtain ⟨waited, hwaitedEq⟩ :
      ∃ waited, ataWaitDrq (driveBus drive) 100000 (issue (driveBus drive) lba ready) = waited := ⟨_, rfl⟩
    have hreturns := hcall waited hwaitedEq
    rw [hwaitedEq] at hwaited hwait
    rw [hcount] at hwaited
    by_cases hsoon : drive.delay s.commands < 100000
    · rw [if_pos hsoon] at hwait ⊢
      cases hcontents : drive.contents (lba % 2 ^ 28) with
      | none =>
        rw [Drive.finish, hcontents] at hwait
        rw [hwait.1] at hreturns
        refine ⟨waited.2, hreturns, ?_, hwaited⟩
        simp only [Drive.Owes, hwait.2]
      | some sector =>
        rw [Drive.finish, hcontents] at hwait
        rw [hwait.1, hdata hwait.2] at hreturns
        exact ⟨_, hreturns, rfl, hwaited⟩
    · rw [if_neg hsoon] at hwait ⊢
      rw [hwait.1] at hreturns
      refine ⟨waited.2, hreturns, ?_, hwaited⟩
      simp only [Drive.Owes, hwait.2]

/-- Any number of calls, in any order: they all return, what the drive answers. -/
theorem exists_ataReads (h : drive.Owes s owed) (calls : List (ℕ × (ℕ → UInt8))) :
    ∃ s', Returns (ataReads (driveBus drive) true calls s)
      (List.zipWith delivered (calls.map Prod.snd)
        (drive.answers s.commands owed (calls.map Prod.fst)), s') := by
  induction calls generalizing s owed with
  | nil => exact ⟨s, 0, rfl⟩
  | cons call calls ih =>
    obtain ⟨next, ⟨fuel, hcall⟩, howes, hcommands⟩ := exists_ataReadSector h call.1 call.2
    obtain ⟨s', fuel', hrest⟩ := ih howes
    rw [hcommands] at hrest
    refine ⟨s', max fuel fuel', ?_⟩
    rw [ataReads, fuelMono_ataReadSector _ _ _ _ _ hcall (Nat.le_max_left fuel fuel'), Option.bind_some,
      fuelMono_ataReads _ _ _ _ hrest (Nat.le_max_right fuel fuel')]
    rfl

/-- `ata_init` finds the drive, and loses nothing. -/
theorem ataInit_spec (h : drive.Owes s owed) :
    (ataInit (driveBus drive) s).1 = true ∧ drive.Owes (ataInit (driveBus drive) s).2 owed ∧
      (ataInit (driveBus drive) s).2.commands = s.commands := by
  obtain ⟨selected, hselected⟩ : ∃ selected, (driveBus drive).outb ataDrive 0xE0 s = selected := ⟨_, rfl⟩
  have hstart : drive.Owes selected owed ∧ selected.commands = s.commands := by
    obtain rfl := hselected
    obtain ⟨reg, count, low, mid, high, commands, phase⟩ := s
    cases phase <;> exact ⟨h, rfl⟩
  obtain ⟨howes, hcommands⟩ := hstart
  have hfirst := howes.look
  have hsecond := hfirst.1.look
  have hthird := hsecond.1.look
  have hfourth := hthird.1.look
  have hlast := hfourth.1.look
  rw [ataInit, hselected]
  refine ⟨?_, hlast.1, ?_⟩
  · refine bne_iff_ne.mpr ?_
    have hstatus := DrivePhase.status_ne (drive.look (ataDelay (driveBus drive) selected)).2.phase
    rwa [← Drive.look_fst] at hstatus
  · rw [← hcommands, ← hfirst.2, ← hsecond.2, ← hthird.2, ← hfourth.2]
    exact hlast.2

end Driver

/-- Reads of the disk after `ata_init`, in any number and of any sectors. On a bus with a drive they all
return; with what they return and what they leave in their buffers the drive has answered: with the sector
of the lower 28 bits, or without one, unless a call before it gave up on the drive. Without a drive they
all fail and touch nothing. -/
theorem ataReads_spec (drive : Drive) (s : DriveState) (owed : Option Sector) (h : drive.Owes s owed)
    (calls : List (ℕ × (ℕ → UInt8))) :
    (∃ s', Returns
      (ataReads (driveBus drive) (ataInit (driveBus drive) s).1 calls (ataInit (driveBus drive) s).2)
      (List.zipWith delivered (calls.map Prod.snd)
        (drive.answers s.commands owed (calls.map Prod.fst)), s')) ∧
    Returns (ataReads emptyBus (ataInit emptyBus ()).1 calls (ataInit emptyBus ()).2)
      (calls.map fun call ↦ (false, call.2), ()) := by
  obtain ⟨hpresent, howes, hcommands⟩ := ataInit_spec h
  refine ⟨?_, 0, ?_⟩
  · rw [hpresent, ← hcommands]
    exact exists_ataReads howes calls
  · induction calls with
    | nil => rfl
    | cons call calls ih =>
      rw [ataReads, List.map_cons]
      have hcall : ataReadSector emptyBus (ataInit emptyBus ()).1 call.1 call.2 (ataInit emptyBus ()).2 0 =
          some (false, call.2, ()) := rfl
      rw [hcall, Option.bind_some]
      exact Option.map_eq_some_iff.mpr ⟨_, ih, rfl⟩

/-- A drive that is too slow with its first command, and keeps the data. -/
def slowDrive : Drive where
  contents := fun lba ↦ some fun _ ↦ UInt8.ofNat lba
  delay := fun n ↦ if n = 0 then 100000 else 3
  replaces := false

/-- The read of sector 5 fails, the read of sector 7 gets sector 5, and sector 9 is right again. -/
theorem ataReads_spec_slowDrive : ∃ s', Returns
    (ataReads (driveBus slowDrive) (ataInit (driveBus slowDrive) ⟨0, 0, 0, 0, 0, 0, .idle⟩).1
      [(5, fun _ ↦ 1), (7, fun _ ↦ 2), (9, fun _ ↦ 3)]
      (ataInit (driveBus slowDrive) ⟨0, 0, 0, 0, 0, 0, .idle⟩).2)
    ([(false, fun _ ↦ 1), delivered (fun _ ↦ 2) (some fun _ ↦ 5), delivered (fun _ ↦ 3) (some fun _ ↦ 9)],
      s') :=
  (ataReads_spec slowDrive ⟨0, 0, 0, 0, 0, 0, .idle⟩ none rfl
    [(5, fun _ ↦ 1), (7, fun _ ↦ 2), (9, fun _ ↦ 3)]).1

/-! ### Drives that are in time -/

/-- A drive that is never too slow answers every read with its sector. -/
theorem answers_of_timely {drive : Drive} (htimely : ∀ n, drive.delay n < 100000) (n : ℕ)
    (lbas : List ℕ) :
    drive.answers n none lbas = lbas.map fun lba ↦ drive.contents (lba % 2 ^ 28) := by
  induction lbas generalizing n with
  | nil => rfl
  | cons lba lbas ih =>
    have hanswer : drive.answer n none lba = (drive.contents (lba % 2 ^ 28), n + 1, none) := by
      rw [Drive.answer, if_neg (by simp), if_pos (htimely n)]
    rw [Drive.answers, hanswer, List.map_cons, ih]

/-- `arch_disk_available` and `arch_disk_read_sector` with a drive that is in time. -/
def Drive.disk (drive : Drive) : Disk where
  available := true
  readSector := fun lba ↦ drive.contents (lba % 2 ^ 28)

end MegKer.Drivers
