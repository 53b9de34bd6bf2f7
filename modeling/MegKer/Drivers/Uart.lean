import MegKer.Drivers.VirtioMmio
import MegKer.Foundation.Loop
import MegKer.Foundation.ByteMemory
import Mathlib.Data.Nat.Bitwise

/-!
# The console of aarch64

`uart_init` and `uart_putc` of `arch/aarch64/drivers/uart.c`, and the loop over them that `puts` of
`arch.c` and the system call SYS_WRITE of `syscall.c` share. The other side is a PL011: a queue that the
driver fills and a transmitter that empties it in its own time, and only when it is enabled. A character
that is written to a full queue is lost, so `uart_putc` waits for room.

The transmitter may get out any number of characters before each access of the driver. However it does
that, as long as it goes on, printing returns exactly if the string ends, and what has been sent and what
is still in the queue are then the characters from before and those of the string, in order and without a
loss (`puts_returns_iff`). Without `uart_init` only what fits into the queue can be printed
(`puts_disabled_iff`).
-/

set_option autoImplicit false
set_option relaxedAutoImplicit false

namespace MegKer.Drivers

open Foundation

/-! ### The code -/

def uart0Base : ℕ := 0x09000000

def uartDr : ℕ := 0x00

def uartFr : ℕ := 0x18

def uartCr : ℕ := 0x30

def uartFrTxff : UInt32 := 1 <<< (5 : UInt32)

section Code

variable {σ : Type} (bus : Bus σ)

def uartInit (s : σ) : σ := bus.write s uart0Base uartCr (1 <<< 0 ||| 1 <<< 8 ||| 1 <<< 9)

/-- `uart_putc`. The state of its loop is the flag register that was read last and the bus. -/
def uartPutc (c : UInt8) (s : σ) (fuel : ℕ) : Option σ :=
  (loop (fun p : UInt32 × σ ↦ p.1 &&& uartFrTxff != 0) (fun p _ ↦ some (bus.read32 p.2 uart0Base uartFr))
    (bus.read32 s uart0Base uartFr) fuel).map fun p ↦ bus.write p.2 uart0Base uartDr c.toNat

/-- `puts` of `arch.c`, and the loop of SYS_WRITE. -/
def puts (mem : ByteMemory) (str : ℕ) (s : σ) (fuel : ℕ) : Option σ :=
  (loop (fun p : ℕ × σ ↦ mem p.1 != 0)
    (fun p fuel ↦ (uartPutc bus (mem p.1) p.2 fuel).map fun s ↦ (wrap (p.1 + 1), s)) (str, s) fuel).map
    Prod.snd

end Code

/-! ### The device -/

/-- A transmitter: the size of its queue, and how many characters it gets out before each access, if there
are as many. -/
structure Transmitter where
  depth : ℕ
  sends : ℕ → ℕ

/-- The state of a PL011: its control register, its queue, what has been sent, and how many accesses there
were. -/
structure Pl011 where
  cr : ℕ
  fifo : List UInt8
  sent : List UInt8
  accesses : ℕ
  deriving DecidableEq, Repr

/-- The transmitter works when UARTEN and TXE are set. -/
def Pl011.transmits (u : Pl011) : Bool := u.cr.testBit 0 && u.cr.testBit 8

namespace Transmitter

variable (t : Transmitter)

/-- The time up to the next access. -/
def elapse (u : Pl011) : Pl011 :=
  let count := if u.transmits then t.sends u.accesses else 0
  { u with fifo := u.fifo.drop count, sent := u.sent ++ u.fifo.take count, accesses := u.accesses + 1 }

/-- The flag register, with nothing received: the queue is empty, full, or neither. -/
def flags (u : Pl011) : UInt32 :=
  if t.depth ≤ u.fifo.length then 0x30 else if u.fifo = [] then 0x90 else 0x10

/-- The registers of the device. -/
def bus : Bus Pl011 where
  read32 := fun u _ off ↦ (if off = uartFr then t.flags (t.elapse u) else 0, t.elapse u)
  read8 := fun u _ _ ↦ (0, t.elapse u)
  write := fun u _ off value ↦
    let u := t.elapse u
    if off = uartCr then { u with cr := value }
    else if off = uartDr ∧ u.fifo.length < t.depth then { u with fifo := u.fifo ++ [UInt8.ofNat value] }
    else u

/-- The transmitter does not stop. -/
def GoesOn : Prop := ∀ n, ∃ m, n ≤ m ∧ 0 < t.sends m

end Transmitter

/-- The characters of a string in memory, up to its NUL. -/
def StringIn (mem : ByteMemory) : (str : ℕ) → List UInt8 → Prop
  | str, [] => mem str = 0
  | str, c :: text => mem str = c ∧ c ≠ 0 ∧ StringIn mem (wrap (str + 1)) text

/-- What the device has been given, and how much of it is still waiting. -/
structure Pl011.Holds (t : Transmitter) (enabled : Bool) (text : List UInt8) (u : Pl011) : Prop where
  enabled : u.transmits = enabled
  text : u.sent ++ u.fifo = text
  fits : u.fifo.length ≤ t.depth

section Device

variable {t : Transmitter} {enabled : Bool} {text : List UInt8} {u : Pl011}

/-- Time changes only where the characters are. -/
theorem Pl011.Holds.elapse (h : u.Holds t enabled text) : (t.elapse u).Holds t enabled text where
  enabled := h.enabled
  text := by
    rw [← h.text, Transmitter.elapse, List.append_assoc, List.take_append_drop]
  fits := by
    have hfits := h.fits
    rw [Transmitter.elapse, List.length_drop]
    omega

theorem flags_full : t.flags u &&& uartFrTxff ≠ 0 ↔ t.depth ≤ u.fifo.length := by
  unfold Transmitter.flags
  by_cases hfull : t.depth ≤ u.fifo.length
  · rw [if_pos hfull]
    exact iff_of_true (by decide) hfull
  · rw [if_neg hfull]
    refine iff_of_false ?_ hfull
    split_ifs <;> decide

theorem read_fr (t : Transmitter) (u : Pl011) :
    t.bus.read32 u uart0Base uartFr = (t.flags (t.elapse u), t.elapse u) :=
  rfl

/-- A character that is written when there is room goes to the end of the queue. -/
theorem Pl011.Holds.write (h : u.Holds t enabled text) (hroom : u.fifo.length < t.depth) (c : UInt8) :
    (t.bus.write u uart0Base uartDr c.toNat).Holds t enabled (text ++ [c]) := by
  have hlater := h.elapse
  have hroom' : (t.elapse u).fifo.length < t.depth := by
    rw [Transmitter.elapse, List.length_drop]
    omega
  have hwrite : t.bus.write u uart0Base uartDr c.toNat =
      { t.elapse u with fifo := (t.elapse u).fifo ++ [c] } := by
    simp only [Transmitter.bus]
    rw [if_neg (by decide), if_pos ⟨trivial, hroom'⟩, UInt8.ofNat_toNat]
  rw [hwrite]
  refine ⟨hlater.enabled, ?_, ?_⟩
  · rw [← hlater.text, List.append_assoc]
  · rw [List.length_append]
    exact hroom'

end Device

theorem transmits_uartInit (t : Transmitter) (u : Pl011) : (uartInit t.bus u).transmits = true := by
  have hinit : uartInit t.bus u = { t.elapse u with cr := 0x301 } := rfl
  have hbits : (Nat.testBit 0x301 0 && Nat.testBit 0x301 8) = true := by decide
  rw [hinit]
  exact hbits

/-! ### Waiting for room -/

/-- The loop of `uart_putc`, when the flag register has just been read. -/
def waitRoom (t : Transmitter) (u : Pl011) (fuel : ℕ) : Option (UInt32 × Pl011) :=
  loop (fun p : UInt32 × Pl011 ↦ p.1 &&& uartFrTxff != 0)
    (fun p _ ↦ some (t.bus.read32 p.2 uart0Base uartFr)) (t.flags u, u) fuel

theorem uartPutc_eq (t : Transmitter) (c : UInt8) (u : Pl011) (fuel : ℕ) :
    uartPutc t.bus c u fuel =
      (waitRoom t (t.elapse u) fuel).map fun p ↦ t.bus.write p.2 uart0Base uartDr c.toNat :=
  rfl

theorem fuelMono_uartPutc (t : Transmitter) (c : UInt8) (u : Pl011) : FuelMono (uartPutc t.bus c u) :=
  (loop_mono (fun _ ↦ fuelMono_const _) _).map _

section Waiting

variable {t : Transmitter} {enabled : Bool} {text : List UInt8} {u : Pl011}

theorem returns_waitRoom (hroom : u.fifo.length < t.depth) : Returns (waitRoom t u) (t.flags u, u) := by
  refine returns_of_stopped ?_
  have hfull : ¬ t.flags u &&& uartFrTxff ≠ 0 := fun hset ↦ absurd (flags_full.mp hset) (by omega)
  simpa using hfull

theorem returns_uartPutc (hroom : (t.elapse u).fifo.length < t.depth) (c : UInt8) :
    Returns (uartPutc t.bus c u) (t.bus.write (t.elapse u) uart0Base uartDr c.toNat) := by
  obtain ⟨fuel, hfuel⟩ := returns_waitRoom hroom
  exact ⟨fuel, by rw [uartPutc_eq, hfuel, Option.map_some]⟩

/-- The transmitter makes room the next time that it sends, and nothing else happens before. -/
theorem exists_waitRoom (hdepth : 0 < t.depth) (k : ℕ) (h : u.Holds t true text)
    (hsends : 0 < t.sends (u.accesses + k)) :
    ∃ u', Returns (waitRoom t u) (t.flags u', u') ∧ u'.Holds t true text ∧ u'.fifo.length < t.depth := by
  induction k generalizing u with
  | zero =>
    by_cases hroom : u.fifo.length < t.depth
    · exact ⟨u, returns_waitRoom hroom, h, hroom⟩
    · have hset : t.flags u &&& uartFrTxff ≠ 0 := flags_full.mpr (by omega)
      have hsent : (t.elapse u).fifo.length < t.depth := by
        have hfits := h.fits
        rw [Nat.add_zero] at hsends
        simp only [Transmitter.elapse, h.enabled, if_true, List.length_drop]
        omega
      refine ⟨t.elapse u, ?_, h.elapse, hsent⟩
      exact returns_cons (fun _ ↦ fuelMono_const _) (by simpa using hset) ⟨0, rfl⟩
        (returns_waitRoom hsent)
  | succ k ih =>
    by_cases hroom : u.fifo.length < t.depth
    · exact ⟨u, returns_waitRoom hroom, h, hroom⟩
    · have hset : t.flags u &&& uartFrTxff ≠ 0 := flags_full.mpr (by omega)
      have hlater : u.accesses + 1 + k = u.accesses + (k + 1) := by omega
      obtain ⟨u', hreturns, hholds, hroom'⟩ := ih h.elapse (by
        rw [← hlater] at hsends
        exact hsends)
      refine ⟨u', ?_, hholds, hroom'⟩
      exact returns_cons (fun _ ↦ fuelMono_const _) (by simpa using hset) ⟨0, rfl⟩ hreturns

/-- `uart_putc` returns, and its character is behind the others. -/
theorem exists_uartPutc (hdepth : 0 < t.depth) (hgoes : t.GoesOn) (h : u.Holds t true text) (c : UInt8) :
    ∃ u', Returns (uartPutc t.bus c u) u' ∧ u'.Holds t true (text ++ [c]) := by
  obtain ⟨m, hm, hsends⟩ := hgoes (t.elapse u).accesses
  obtain ⟨k, rfl⟩ := Nat.exists_eq_add_of_le hm
  obtain ⟨u', ⟨fuel, hfuel⟩, hholds, hroom⟩ := exists_waitRoom hdepth k h.elapse hsends
  refine ⟨t.bus.write u' uart0Base uartDr c.toNat, ⟨fuel, ?_⟩, hholds.write hroom c⟩
  rw [uartPutc_eq, hfuel, Option.map_some]

/-- A transmitter that is not enabled makes no room. -/
theorem elapse_disabled (hdisabled : u.transmits = false) :
    t.elapse u = { u with accesses := u.accesses + 1 } := by
  simp [Transmitter.elapse, hdisabled]

theorem waitRoom_eq_none (hdisabled : u.transmits = false) (hfull : t.depth ≤ u.fifo.length)
    (fuel : ℕ) : waitRoom t u fuel = none := by
  refine @loop_eq_none (UInt32 × Pl011) _ _
    (fun p ↦ p.1 = t.flags p.2 ∧ p.2.transmits = false ∧ t.depth ≤ p.2.fifo.length) ?_ ?_ _
    ⟨rfl, hdisabled, hfull⟩ fuel
  · rintro ⟨flags, u⟩ ⟨hflags, -, hfull⟩
    have hset : t.flags u &&& uartFrTxff ≠ 0 := flags_full.mpr hfull
    have hflags : flags = t.flags u := hflags
    rw [hflags]
    simpa using hset
  · rintro fuel ⟨flags, u⟩ next ⟨-, hdisabled, hfull⟩ hnext
    obtain rfl := Option.some.inj hnext
    rw [read_fr, elapse_disabled hdisabled]
    exact ⟨rfl, hdisabled, hfull⟩

end Waiting

/-! ### Printing -/

section Printing

variable {t : Transmitter} {mem : ByteMemory}

/-- The loop of `puts`. -/
def putsFrom (t : Transmitter) (mem : ByteMemory) (str : ℕ) (u : Pl011) (fuel : ℕ) : Option (ℕ × Pl011) :=
  loop (fun p : ℕ × Pl011 ↦ mem p.1 != 0)
    (fun p fuel ↦ (uartPutc t.bus (mem p.1) p.2 fuel).map fun u ↦ (wrap (p.1 + 1), u)) (str, u) fuel

theorem fuelMono_round (t : Transmitter) (mem : ByteMemory) (p : ℕ × Pl011) :
    FuelMono fun fuel ↦ (uartPutc t.bus (mem p.1) p.2 fuel).map fun u ↦ (wrap (p.1 + 1), u) :=
  (fuelMono_uartPutc t (mem p.1) p.2).map _

theorem returns_puts {str : ℕ} {u : Pl011} {p : ℕ × Pl011} (h : Returns (putsFrom t mem str u) p) :
    Returns (puts t.bus mem str u) p.2 := by
  obtain ⟨fuel, hfuel⟩ := h
  exact ⟨fuel, Option.map_eq_some_iff.mpr ⟨p, hfuel, rfl⟩⟩

theorem fuelMono_puts (t : Transmitter) (mem : ByteMemory) (str : ℕ) (u : Pl011) :
    FuelMono (puts t.bus mem str u) :=
  (loop_mono (fuelMono_round t mem) _).map _

/-- A result of the loop is the result of its first round and then of the rest. -/
theorem returns_putsFrom_cons {str : ℕ} {u : Pl011} {p : ℕ × Pl011} (hne : mem str ≠ 0)
    (h : Returns (putsFrom t mem str u) p) :
    ∃ u', Returns (uartPutc t.bus (mem str) u) u' ∧ Returns (putsFrom t mem (wrap (str + 1)) u') p := by
  obtain ⟨fuel, hfuel⟩ := h
  cases fuel with
  | zero => cases hfuel
  | succ fuel =>
    have hrunning : (mem (str, u).1 != 0) = true := by simpa using hne
    rw [putsFrom, loop, if_pos hrunning] at hfuel
    obtain ⟨next, hround, hrest⟩ := Option.bind_eq_some_iff.mp hfuel
    obtain ⟨u', hput, rfl⟩ := Option.map_eq_some_iff.mp hround
    exact ⟨u', ⟨fuel, hput⟩, fuel, hrest⟩

/-- Printing a string that ends. -/
theorem exists_puts (hdepth : 0 < t.depth) (hgoes : t.GoesOn) (string : List UInt8) :
    ∀ {str : ℕ} {u : Pl011} {text : List UInt8}, StringIn mem str string → u.Holds t true text →
      ∃ p, Returns (putsFrom t mem str u) p ∧ p.2.Holds t true (text ++ string) := by
  induction string with
  | nil =>
    intro str u text hstring h
    have hzero : mem str = 0 := hstring
    refine ⟨(str, u), returns_of_stopped (by simp [hzero]), ?_⟩
    rwa [List.append_nil]
  | cons c string ih =>
    rintro str u text ⟨hc, hne, hrest⟩ h
    obtain ⟨u', ⟨fuel, hput⟩, hholds⟩ := exists_uartPutc hdepth hgoes h c
    obtain ⟨p, hreturns, hlast⟩ := ih hrest hholds
    refine ⟨p, returns_cons (fuelMono_round t mem) (by simp [hc, hne]) ⟨fuel, ?_⟩ hreturns, ?_⟩
    · simp only [hc, hput, Option.map_some]
    · rwa [List.append_assoc] at hlast

/-- Where there is a NUL there is a string. -/
theorem exists_stringIn (k : ℕ) : ∀ {str : ℕ}, str < 2 ^ 64 → mem (wrap (str + k)) = 0 →
    ∃ string, StringIn mem str string := by
  induction k with
  | zero =>
    intro str hstr hzero
    rw [Nat.add_zero, wrap_of_lt hstr] at hzero
    exact ⟨[], hzero⟩
  | succ k ih =>
    intro str hstr hzero
    by_cases hhere : mem str = 0
    · exact ⟨[], hhere⟩
    · have hnext : wrap (wrap (str + 1) + k) = wrap (str + (k + 1)) := by
        unfold wrap
        omega
      obtain ⟨string, hstring⟩ := ih (wrap_lt (str + 1)) (hnext ▸ hzero)
      exact ⟨mem str :: string, rfl, hhere, hstring⟩

/-- Without a NUL in all of memory, printing goes round and round. -/
theorem puts_eq_none {str : ℕ} (hnone : ∀ k, mem (wrap (str + k)) ≠ 0) (hstr : str < 2 ^ 64)
    (u : Pl011) (fuel : ℕ) : puts t.bus mem str u fuel = none := by
  rw [puts, Option.map_eq_none_iff]
  refine @loop_eq_none (ℕ × Pl011) _ _ (fun p ↦ p.1 < 2 ^ 64 ∧ ∀ k, mem (wrap (p.1 + k)) ≠ 0) ?_ ?_ _
    ⟨hstr, hnone⟩ fuel
  · rintro ⟨str, u⟩ ⟨hstr, hnone⟩
    have hhere := hnone 0
    rw [Nat.add_zero, wrap_of_lt hstr] at hhere
    simpa using hhere
  · rintro fuel ⟨str, u⟩ next ⟨-, hnone⟩ hnext
    obtain ⟨u', -, rfl⟩ := Option.map_eq_some_iff.mp hnext
    refine ⟨wrap_lt (str + 1), fun k ↦ ?_⟩
    have hnext : wrap (wrap (str + 1) + k) = wrap (str + (k + 1)) := by
      unfold wrap
      omega
    rw [hnext]
    exact hnone (k + 1)

end Printing

/-- Let the device be initialized by `uart_init`, with a transmitter that goes on in whatever way. Printing
the string at an address returns exactly if there is a NUL. Then nothing is lost, doubled or out of order:
what has been sent, and behind it what is in the queue, are the characters from before and those of the
string. -/
theorem puts_returns_iff (t : Transmitter) (hdepth : 0 < t.depth) (hgoes : t.GoesOn) (u : Pl011)
    (hfits : u.fifo.length ≤ t.depth) (mem : ByteMemory) (str : ℕ) (hstr : str < 2 ^ 64) :
    ((∃ u', Returns (puts t.bus mem str (uartInit t.bus u)) u') ↔ ∃ k, mem (wrap (str + k)) = 0) ∧
    ∀ string, StringIn mem str string → ∀ u', Returns (puts t.bus mem str (uartInit t.bus u)) u' →
      u'.sent ++ u'.fifo = u.sent ++ u.fifo ++ string ∧ u'.fifo.length ≤ t.depth := by
  have hbefore : u.Holds t u.transmits (u.sent ++ u.fifo) := ⟨rfl, rfl, hfits⟩
  have hlater := hbefore.elapse
  have hinit : (uartInit t.bus u).Holds t true (u.sent ++ u.fifo) :=
    ⟨transmits_uartInit t u, hlater.text, hlater.fits⟩
  refine ⟨⟨fun ⟨u', fuel, hfuel⟩ ↦ ?_, fun ⟨k, hk⟩ ↦ ?_⟩, fun string hstring u' hu' ↦ ?_⟩
  · by_contra hnone
    rw [not_exists] at hnone
    rw [puts_eq_none hnone hstr] at hfuel
    cases hfuel
  · obtain ⟨string, hstring⟩ := exists_stringIn k hstr hk
    obtain ⟨p, hreturns, -⟩ := exists_puts hdepth hgoes string hstring hinit
    exact ⟨p.2, returns_puts hreturns⟩
  · obtain ⟨p, hreturns, hholds⟩ := exists_puts hdepth hgoes string hstring hinit
    rw [hu'.unique (fuelMono_puts t mem str _) (returns_puts hreturns)]
    exact ⟨hholds.text, hholds.fits⟩

/-- A queue of two characters, and a transmitter that gets one out at every third access. -/
def slowTransmitter : Transmitter where
  depth := 2
  sends := fun n ↦ if n % 3 = 0 then 1 else 0

theorem slowTransmitter_goesOn : slowTransmitter.GoesOn := by
  intro n
  refine ⟨3 * n, by omega, ?_⟩
  have hthird : 3 * n % 3 = 0 := Nat.mul_mod_right 3 n
  simp [slowTransmitter, hthird]

/-- The characters `A`, `B`, `C` and `D`, at address 10. -/
def fourChars : ByteMemory := fun a ↦ if a < 10 then 1 else [65, 66, 67, 68].getD (a - 10) 0

/-- The four characters come behind the one that is in the queue. -/
theorem puts_returns_iff_slow : ∃ u',
    Returns (puts slowTransmitter.bus fourChars 10 (uartInit slowTransmitter.bus ⟨0, [64], [], 0⟩)) u' ∧
    u'.sent ++ u'.fifo = [64, 65, 66, 67, 68] := by
  obtain ⟨hends, hprinted⟩ := puts_returns_iff slowTransmitter (by decide) slowTransmitter_goesOn
    ⟨0, [64], [], 0⟩ (by decide) fourChars 10 (by decide)
  obtain ⟨u', hu'⟩ := hends.mpr ⟨4, by decide⟩
  have hstring : StringIn fourChars 10 [65, 66, 67, 68] :=
    ⟨rfl, by decide, rfl, by decide, rfl, by decide, rfl, by decide, rfl⟩
  exact ⟨u', hu', (hprinted _ hstring u' hu').1⟩

/-! ### Without initialization -/

section Disabled

variable {t : Transmitter} {mem : ByteMemory}

/-- A device that is not enabled takes a character if there is room. -/
theorem uartPutc_disabled {text : List UInt8} {u u' : Pl011} (h : u.Holds t false text) (c : UInt8)
    (hput : Returns (uartPutc t.bus c u) u') :
    u'.Holds t false (text ++ [c]) ∧ u'.fifo.length = u.fifo.length + 1 := by
  have hlater := h.elapse
  have hsame : (t.elapse u).fifo = u.fifo := by rw [elapse_disabled h.enabled]
  obtain ⟨fuel, hfuel⟩ := hput
  by_cases hroom : u.fifo.length < t.depth
  · have hroom' : (t.elapse u).fifo.length < t.depth := by rwa [hsame]
    have hu' := Returns.unique (fuelMono_uartPutc t c u) ⟨fuel, hfuel⟩ (returns_uartPutc hroom' c)
    have hholds := hlater.write hroom' c
    have hlength : (t.bus.write (t.elapse u) uart0Base uartDr c.toNat).fifo.length =
        u.fifo.length + 1 := by
      have htwice : (t.elapse (t.elapse u)).fifo = u.fifo := by
        rw [elapse_disabled hlater.enabled, hsame]
      simp only [Transmitter.bus]
      rw [if_neg (by decide), if_pos ⟨trivial, by rwa [htwice]⟩, List.length_append, htwice]
      rfl
    rw [hu']
    exact ⟨hholds, hlength⟩
  · have hfull : t.depth ≤ (t.elapse u).fifo.length := by
      rw [hsame]
      omega
    rw [uartPutc_eq, waitRoom_eq_none hlater.enabled hfull] at hfuel
    cases hfuel

theorem exists_putsFrom_disabled_iff (string : List UInt8) :
    ∀ {str : ℕ} {u : Pl011} {text : List UInt8}, StringIn mem str string → u.Holds t false text →
      ((∃ p, Returns (putsFrom t mem str u) p) ↔ u.fifo.length + string.length ≤ t.depth) := by
  induction string with
  | nil =>
    intro str u text hstring h
    have hzero : mem str = 0 := hstring
    exact iff_of_true ⟨(str, u), returns_of_stopped (by simp [hzero])⟩ h.fits
  | cons c string ih =>
    rintro str u text ⟨hc, hne, hrest⟩ h
    rw [List.length_cons]
    constructor
    · rintro ⟨p, hp⟩
      obtain ⟨u', hput, hlast⟩ := returns_putsFrom_cons (by rwa [hc]) hp
      obtain ⟨hholds, hlength⟩ := uartPutc_disabled h _ hput
      have hroom := (ih hrest hholds).mp ⟨p, hlast⟩
      omega
    · intro hroom
      have hhere : (t.elapse u).fifo.length < t.depth := by
        rw [elapse_disabled h.enabled]
        change u.fifo.length < t.depth
        omega
      obtain ⟨fuel, hput⟩ := returns_uartPutc hhere c
      obtain ⟨hholds, hlength⟩ := uartPutc_disabled h c ⟨fuel, hput⟩
      obtain ⟨p, hp⟩ := (ih hrest hholds).mpr (by omega)
      refine ⟨p, returns_cons (fuelMono_round t mem) (by simp [hc, hne]) ⟨fuel, ?_⟩ hp⟩
      simp only [hc, hput, Option.map_some]

end Disabled

/-- Without `uart_init` nothing is sent, and printing returns exactly if the string fits into the
queue. -/
theorem puts_disabled_iff (t : Transmitter) (u : Pl011) (hdisabled : u.transmits = false)
    (hfits : u.fifo.length ≤ t.depth) (mem : ByteMemory) (str : ℕ) (string : List UInt8)
    (hstring : StringIn mem str string) :
    (∃ u', Returns (puts t.bus mem str u) u') ↔ u.fifo.length + string.length ≤ t.depth := by
  rw [← exists_putsFrom_disabled_iff string hstring ⟨hdisabled, rfl, hfits⟩]
  constructor
  · rintro ⟨u', fuel, hfuel⟩
    obtain ⟨p, hp, -⟩ := Option.map_eq_some_iff.mp hfuel
    exact ⟨p, fuel, hp⟩
  · rintro ⟨p, hp⟩
    exact ⟨p.2, returns_puts hp⟩

end MegKer.Drivers
