import MegKer.Gui.FramebufferMemory
import MegKer.Memory.FrameRuns

/-!
# Setting up the frame buffer of aarch64

`fb_init` of `arch/aarch64/drivers/framebuffer.c` looks for the file `etc/ramfb` in the directory of
`fw_cfg`, takes the frames of a screen, and hands their address to the device by a DMA transfer. `FwCfg`
is what answers its accesses, with a state of its own: the bytes of the directory and the control word of
the transfer may be anything.

The transfer is awaited in a loop on the control word. The loop ends at the first word that is zero or
has the error bit (`pollControl_eq_some_iff`), and it may not end at all.
-/

set_option autoImplicit false
set_option relaxedAutoImplicit false

namespace MegKer.Drivers

open Foundation Memory Finset

/-! ### Bytes in the other order -/

def bswap16 (v : UInt16) : UInt16 := (v <<< 8) ||| (v >>> 8)

def bswap32 (v : UInt32) : UInt32 :=
  ((v &&& (0xFF : UInt32)) <<< 24) ||| ((v &&& (0xFF00 : UInt32)) <<< 8) |||
    ((v >>> 8) &&& (0xFF00 : UInt32)) ||| ((v >>> 24) &&& (0xFF : UInt32))

def bswap64 (v : UInt64) : UInt64 :=
  ((bswap32 v.toUInt32).toUInt64 <<< 32) ||| (bswap32 (v >>> 32).toUInt32).toUInt64

/-! ### The accesses -/

/-- `ramfb_cfg_t`, with its fields as the device sees them. -/
structure RamfbCfg where
  addr : UInt64
  fourcc : UInt32
  flags : UInt32
  width : UInt32
  height : UInt32
  stride : UInt32
  deriving DecidableEq, Repr

/-- `fw_cfg_dma_access_t` as the device finds it, with the data in place of their address. -/
structure DmaAccess where
  control : UInt32
  length : UInt32
  data : RamfbCfg
  deriving DecidableEq, Repr

/-- What answers the accesses to `fw_cfg`: the selector, the data, the start of a transfer, and the
control word of the transfer in memory, which the device changes. -/
structure FwCfg (σ : Type) where
  select : σ → UInt16 → σ
  readData : σ → UInt8 × σ
  startDma : σ → DmaAccess → σ
  readControl : σ → UInt32 × σ

def fwCfgFileDir : UInt16 := 0x19

/-- The bits of the control word. -/
def dmaCtlError : UInt32 := 1
def dmaCtlSelect : UInt32 := 8
def dmaCtlWrite : UInt32 := 16

/-- RAMFB_FORMAT_XRGB8888. -/
def ramfbFormat : UInt32 := 0x34325258

/-- RAMFB_WIDTH, RAMFB_HEIGHT and RAMFB_BPP. -/
def ramfbWidth : ℕ := 800
def ramfbHeight : ℕ := 600
def ramfbBpp : ℕ := 4

/-- The file of the device, with the zero at its end. -/
def ramfbFile : List UInt8 := "etc/ramfb".toUTF8.data.toList ++ [0]

/-! ### The code -/

/-- `str_eq`, for strings with the zeros at their ends. -/
def strEq : List UInt8 → List UInt8 → Bool
  | a :: as, b :: bs => if a ≠ 0 ∧ a = b then strEq as bs else a = b
  | as, bs => as.headD 0 = bs.headD 0

section Code

variable {σ : Type} (dev : FwCfg σ)

def fwCfgSelect (key : UInt16) (s : σ) : σ := dev.select s (bswap16 key)

/-- The loop that reads the number of files. -/
def readCount : (bytes : ℕ) → UInt32 → σ → UInt32 × σ
  | 0, count, s => (count, s)
  | bytes + 1, count, s =>
    let (byte, s) := dev.readData s
    readCount bytes ((count <<< 8) ||| byte.toUInt32) s

/-- The loop that reads an entry of the directory. -/
def readEntry : (bytes : ℕ) → σ → List UInt8 × σ
  | 0, s => ([], s)
  | bytes + 1, s =>
    let (byte, s) := dev.readData s
    let (entry, s) := readEntry bytes s
    (byte :: entry, s)

/-- The loop of `fw_cfg_find_file` over the entries that are left. -/
def findFileFrom (name : List UInt8) : (count : ℕ) → σ → UInt16 × σ
  | 0, s => (0, s)
  | count + 1, s =>
    let (entry, s) := readEntry dev 64 s
    let select := ((entry.getD 4 0).toUInt16 <<< 8) ||| (entry.getD 5 0).toUInt16
    if strEq (entry.drop 8) name then (select, s) else findFileFrom name count s

def fwCfgFindFile (name : List UInt8) (s : σ) : UInt16 × σ :=
  let (count, s) := readCount dev 4 0 (fwCfgSelect dev fwCfgFileDir s)
  findFileFrom dev name count.toNat s

/-- The loop at the end of `fw_cfg_dma_write`, with a bound on the number of its rounds. -/
def pollControl : (fuel : ℕ) → σ → Option (UInt32 × σ)
  | 0, _ => none
  | fuel + 1, s =>
    let (control, s) := dev.readControl s
    let ctl := bswap32 control
    if ctl ≠ 0 ∧ ctl &&& dmaCtlError = 0 then pollControl fuel s else some (ctl, s)

/-- The access block of a transfer to the file. -/
def dmaAccess (selector : UInt16) (cfg : RamfbCfg) : DmaAccess where
  control := bswap32 ((selector.toUInt32 <<< 16) ||| dmaCtlSelect ||| dmaCtlWrite)
  length := bswap32 28
  data := cfg

/-- `fw_cfg_dma_write`, for the configuration of the frame buffer. -/
def fwCfgDmaWrite (fuel : ℕ) (selector : UInt16) (cfg : RamfbCfg) (s : σ) : Option (Bool × σ) :=
  (pollControl dev fuel (dev.startDma s (dmaAccess selector cfg))).map fun r ↦ (r.1 == 0, r.2)

/-- The local variable `frames` of `fb_init`: the frames of a screen. -/
def ramfbFrames : ℕ := (ramfbWidth * ramfbHeight * ramfbBpp + frameSize - 1) / frameSize

/-- The local variable `cfg` of `fb_init`. -/
def ramfbCfg (buf : ℕ) : RamfbCfg where
  addr := bswap64 (UInt64.ofNat buf)
  fourcc := bswap32 ramfbFormat
  flags := 0
  width := bswap32 (UInt32.ofNat ramfbWidth)
  height := bswap32 (UInt32.ofNat ramfbHeight)
  stride := bswap32 (UInt32.ofNat (ramfbWidth * ramfbBpp))

/-- `fb` after `fb_init` has succeeded. -/
def ramfbInfo (buf : ℕ) : Gui.FbInfo where
  present := true
  addr := buf
  pitch := ramfbWidth * ramfbBpp
  width := ramfbWidth
  height := ramfbHeight
  pitch_lt := by decide
  width_lt := by decide
  height_lt := by decide

def fbInit (fuel : ℕ) (fb : Gui.FbInfo) (s : σ) (pmm : Pmm) : Option (Gui.FbInfo × σ × Pmm) :=
  let (sel, s) := fwCfgFindFile dev ramfbFile s
  if sel = 0 then some (fb, s, pmm)
  else
    let (pmm, buf) := pmmAllocFrames pmm ramfbFrames
    if buf = 0 then some (fb, s, pmm)
    else
      match fwCfgDmaWrite dev fuel sel (ramfbCfg buf) s with
      | none => none
      | some (false, s) => some (fb, s, pmm)
      | some (true, s) => some (ramfbInfo buf, s, pmm)

end Code

/-! ### The control word -/

section Control

variable {σ : Type} (dev : FwCfg σ)

/-- The state after some reads of the control word. -/
def afterReads : ℕ → σ → σ
  | 0, s => s
  | n + 1, s => afterReads n (dev.readControl s).2

/-- The control word at a read of it, in the order of the machine. -/
def controlWord (n : ℕ) (s : σ) : UInt32 := bswap32 (dev.readControl (afterReads dev n s)).1

/-- The transfer is not done yet: the word is not zero, and without the error bit. -/
def Pending (ctl : UInt32) : Prop := ctl ≠ 0 ∧ ctl &&& dmaCtlError = 0

instance (ctl : UInt32) : Decidable (Pending ctl) := inferInstanceAs (Decidable (_ ∧ _))

/-- The transfer fails: the first word that is not pending has the error bit. -/
def DmaFails (s : σ) : Prop :=
  ∃ n, controlWord dev n s &&& dmaCtlError ≠ 0 ∧ ∀ m < n, Pending (controlWord dev m s)

/-- The loop ends at the first word that is not pending. -/
theorem pollControl_eq_some_iff (fuel : ℕ) (s : σ) (ctl : UInt32) :
    (∃ s', pollControl dev fuel s = some (ctl, s')) ↔
      ∃ n < fuel, controlWord dev n s = ctl ∧ ¬ Pending ctl ∧
        ∀ m < n, Pending (controlWord dev m s) := by
  induction fuel generalizing s with
  | zero =>
    refine ⟨?_, ?_⟩
    · rintro ⟨s', h⟩
      exact absurd h (by simp [pollControl])
    · rintro ⟨n, hn, -⟩
      exact absurd hn (Nat.not_lt_zero n)
  | succ fuel ih =>
    have hword (n : ℕ) : controlWord dev (n + 1) s = controlWord dev n (dev.readControl s).2 := rfl
    have hpoll : pollControl dev (fuel + 1) s =
        if Pending (controlWord dev 0 s) then pollControl dev fuel (dev.readControl s).2
        else some (controlWord dev 0 s, (dev.readControl s).2) := rfl
    rw [hpoll]
    by_cases hpending : Pending (controlWord dev 0 s)
    · rw [if_pos hpending, ih]
      constructor
      · rintro ⟨n, hn, hctl, hend, hfront⟩
        refine ⟨n + 1, Nat.succ_lt_succ hn, hctl, hend, fun m hm ↦ ?_⟩
        cases m with
        | zero => exact hpending
        | succ m => exact hfront m (Nat.lt_of_succ_lt_succ hm)
      · rintro ⟨n, hn, hctl, hend, hfront⟩
        cases n with
        | zero => exact absurd (hctl ▸ hpending) hend
        | succ n =>
          exact ⟨n, Nat.lt_of_succ_lt_succ hn, hctl, hend,
            fun m hm ↦ hfront (m + 1) (Nat.succ_lt_succ hm)⟩
    · rw [if_neg hpending]
      constructor
      · rintro ⟨s', h⟩
        have hctl : controlWord dev 0 s = ctl := congrArg Prod.fst (Option.some.inj h)
        exact ⟨0, Nat.succ_pos fuel, hctl, hctl ▸ hpending, fun m hm ↦ absurd hm (Nat.not_lt_zero m)⟩
      · rintro ⟨n, -, hctl, hend, hfront⟩
        cases n with
        | zero => exact ⟨_, congrArg (fun ctl ↦ some (ctl, _)) hctl⟩
        | succ n => exact absurd (hfront 0 (Nat.succ_pos n)) hpending

/-- `fw_cfg_dma_write` returns false at some time if and only if the transfer fails. -/
theorem exists_dmaWrite_false_iff (selector : UInt16) (cfg : RamfbCfg) (s : σ) :
    (∃ fuel s', fwCfgDmaWrite dev fuel selector cfg s = some (false, s')) ↔
      DmaFails dev (dev.startDma s (dmaAccess selector cfg)) := by
  have hfalse (fuel : ℕ) : (∃ s', fwCfgDmaWrite dev fuel selector cfg s = some (false, s')) ↔
      ∃ ctl, ctl ≠ 0 ∧ ∃ s', pollControl dev fuel (dev.startDma s (dmaAccess selector cfg)) =
        some (ctl, s') := by
    constructor
    · rintro ⟨s', h⟩
      obtain ⟨⟨ctl, s₁⟩, hpoll, hr⟩ := Option.map_eq_some_iff.mp h
      exact ⟨ctl, beq_eq_false_iff_ne.mp (congrArg Prod.fst hr), s₁, hpoll⟩
    · rintro ⟨ctl, hne, s', hpoll⟩
      refine ⟨s', ?_⟩
      rw [fwCfgDmaWrite, hpoll, Option.map_some, beq_eq_false_iff_ne.mpr hne]
  simp only [hfalse, pollControl_eq_some_iff]
  constructor
  · rintro ⟨fuel, ctl, hne, n, -, rfl, hend, hfront⟩
    exact ⟨n, fun hbit ↦ hend ⟨hne, hbit⟩, hfront⟩
  · rintro ⟨n, hbit, hfront⟩
    refine ⟨n + 1, _, fun hzero ↦ hbit ?_, n, Nat.lt_succ_self n, rfl, fun hend ↦ hbit hend.2, hfront⟩
    rw [hzero]
    rfl

end Control

end MegKer.Drivers
