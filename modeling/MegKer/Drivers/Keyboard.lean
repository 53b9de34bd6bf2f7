import MegKer.Foundation.RingBuffer
import MegKer.Foundation.Transition

/-!
# The PS/2 keyboard

The driver of `arch/x86_64/drivers/keyboard.c`: scan codes of set 1 are turned into characters, which
wait in a ring buffer for `keyboard_getchar`.

The interrupt handler fills the buffer while `keyboard_getchar` empties it, without a lock. `Typing`
is the system of the two: `keyboard_getchar` takes its comparison, its read and its update of the tail
as separate steps, and an interrupt may come between any two of them. The invariant (`Fifo`) also holds
between the read of a character and the update of the tail, when the character is read but its slot is
not free yet.
-/

set_option autoImplicit false
set_option relaxedAutoImplicit false

namespace MegKer.Drivers

open Foundation

/-! ### The code -/

def scLShift : UInt8 := 0x2A

def scRShift : UInt8 := 0x36

def scLShiftUp : UInt8 := scLShift ||| 0x80

def scRShiftUp : UInt8 := scRShift ||| 0x80

/-- The table `scancode_ascii`; the codes behind it are not mapped. -/
def scancodeAscii : List UInt8 :=
  ['\x00', '\x1b', '1', '2', '3', '4', '5', '6', '7', '8', '9', '0', '-', '=', '\x08', '\t',
    'q', 'w', 'e', 'r', 't', 'y', 'u', 'i', 'o', 'p', '[', ']', '\n', '\x00', 'a', 's',
    'd', 'f', 'g', 'h', 'j', 'k', 'l', ';', '\x27', '\x60', '\x00', '\x5c', 'z', 'x', 'c', 'v',
    'b', 'n', 'm', ',', '.', '/', '\x00', '*', '\x00', ' '].map Char.toUInt8

/-- The table `scancode_ascii_shift`. -/
def scancodeAsciiShift : List UInt8 :=
  ['\x00', '\x1b', '!', '@', '#', '$', '%', '^', '&', '*', '(', ')', '_', '+', '\x08', '\t',
    'Q', 'W', 'E', 'R', 'T', 'Y', 'U', 'I', 'O', 'P', '\x7b', '\x7d', '\n', '\x00', 'A', 'S',
    'D', 'F', 'G', 'H', 'J', 'K', 'L', ':', '\x22', '~', '\x00', '|', 'Z', 'X', 'C', 'V',
    'B', 'N', 'M', '<', '>', '?', '\x00', '*', '\x00', ' '].map Char.toUInt8

abbrev kbBufSize : ℕ := 256

/-- The static variables of the driver. -/
structure Keyboard where
  buf : ℕ → UInt8
  bufHead : ℕ
  bufTail : ℕ
  shiftHeld : Bool

/-- The driver before its first interrupt. -/
def Keyboard.boot : Keyboard where
  buf := fun _ ↦ 0
  bufHead := 0
  bufTail := 0
  shiftHeld := false

def bufPush (k : Keyboard) (c : UInt8) : Keyboard :=
  let next := (k.bufHead + 1) % kbBufSize
  if next = k.bufTail then k
  else { k with buf := Function.update k.buf k.bufHead c, bufHead := next }

/-- `keyboard_getchar`, when nothing comes in between. -/
def keyboardGetchar (k : Keyboard) : UInt8 × Keyboard :=
  if k.bufTail = k.bufHead then (0, k)
  else (k.buf k.bufTail, { k with bufTail := (k.bufTail + 1) % kbBufSize })

/-- The character of a scan code. -/
def scancodeChar (shiftHeld : Bool) (sc : UInt8) : UInt8 :=
  if shiftHeld then scancodeAsciiShift.getD sc.toNat 0 else scancodeAscii.getD sc.toNat 0

/-- `keyboard_irq`, with the scan code it reads from the port. -/
def keyboardIrq (k : Keyboard) (sc : UInt8) : Keyboard :=
  if sc = scLShift ∨ sc = scRShift then { k with shiftHeld := true }
  else if sc = scLShiftUp ∨ sc = scRShiftUp then { k with shiftHeld := false }
  else if sc &&& 0x80 ≠ 0 then k
  else if 128 ≤ sc then k
  else
    let c := scancodeChar k.shiftHeld sc
    if c ≠ 0 then bufPush k c else k

/-- The character that `keyboard_irq` passes to `buf_push`, if it does. -/
def irqChar (k : Keyboard) (sc : UInt8) : Option UInt8 :=
  if sc = scLShift ∨ sc = scRShift ∨ sc = scLShiftUp ∨ sc = scRShiftUp ∨ sc &&& 0x80 ≠ 0 ∨
      128 ≤ sc then none
  else if scancodeChar k.shiftHeld sc = 0 then none else some (scancodeChar k.shiftHeld sc)

/-- What is in the buffer. -/
def queued (k : Keyboard) : List UInt8 :=
  window kbBufSize k.buf k.bufTail ((k.bufHead + kbBufSize - k.bufTail) % kbBufSize)

/-! ### Interrupts during `keyboard_getchar` -/

/-- How far a call of `keyboard_getchar` has come. -/
inductive GetcharPoint
  | outside
  /-- The buffer is not empty; in front of `c = buf[buf_tail]`. -/
  | read
  /-- In front of the update of `buf_tail`. -/
  | release (c : UInt8)
  deriving DecidableEq, Repr

/-- The driver, the call in progress, and the history. -/
structure Typing where
  keyboard : Keyboard
  point : GetcharPoint
  /-- The characters that `buf_push` has put into the buffer. -/
  accepted : List UInt8
  /-- The characters that `keyboard_getchar` has returned. -/
  returned : List UInt8
  /-- For each character that was dropped, how many accepted ones were not released then. -/
  drops : List ℕ

/-- What may happen next. -/
inductive TypingAction
  | irq (sc : UInt8)
  | getchar
  | advance
  deriving DecidableEq, Repr

/-- An interrupt. -/
def Typing.irq (t : Typing) (sc : UInt8) : Typing :=
  let after := { t with keyboard := keyboardIrq t.keyboard sc }
  (irqChar t.keyboard sc).elim after fun c ↦
    if (t.keyboard.bufHead + 1) % kbBufSize = t.keyboard.bufTail then
      { after with drops := (t.accepted.length - t.returned.length) :: t.drops }
    else { after with accepted := t.accepted ++ [c] }

/-- One step of `keyboard_getchar`. -/
def Typing.advance (t : Typing) : GetcharPoint → Typing
  | .outside => t
  | .read => { t with point := .release (t.keyboard.buf t.keyboard.bufTail) }
  | .release c =>
    { t with point := .outside
             keyboard := { t.keyboard with bufTail := (t.keyboard.bufTail + 1) % kbBufSize }
             returned := t.returned ++ [c] }

/-- The step relation. -/
def Typing.step (t : Typing) : TypingAction → Option Typing
  | .irq sc => some (t.irq sc)
  | .getchar =>
    if t.point = .outside then
      some { t with point :=
        if t.keyboard.bufTail = t.keyboard.bufHead then .outside else .read }
    else none
  | .advance => some (t.advance t.point)

/-- The start: nothing was typed. -/
def Typing.boot : Typing where
  keyboard := Keyboard.boot
  point := .outside
  accepted := []
  returned := []
  drops := []

/-- A call without an interrupt does what `keyboard_getchar` does. -/
theorem runFrom_getchar {t : Typing} (hpoint : t.point = .outside) :
    runFrom Typing.step t [.getchar, .advance, .advance] =
      some { t with keyboard := (keyboardGetchar t.keyboard).2
                    returned := if t.keyboard.bufTail = t.keyboard.bufHead then t.returned
                      else t.returned ++ [(keyboardGetchar t.keyboard).1] } := by
  rw [runFrom, Typing.step, if_pos hpoint, keyboardGetchar]
  by_cases hempty : t.keyboard.bufTail = t.keyboard.bufHead
  · rw [if_pos hempty, if_pos hempty, if_pos hempty, hpoint]
    rfl
  · rw [if_neg hempty, if_neg hempty, if_neg hempty, hpoint]
    rfl

/-! ### The invariant -/

/-- What the call in progress knows of the characters in the buffer. -/
def GetcharPoint.Sees (queue : List UInt8) : GetcharPoint → Prop
  | .outside => True
  | .read => queue ≠ []
  | .release c => ∃ rest, queue = c :: rest

/-- The buffer holds the characters that were accepted and not returned. -/
structure Fifo (t : Typing) (queue : List UInt8) : Prop where
  accepted : t.accepted = t.returned ++ queue
  length_lt : queue.length < kbBufSize
  head : t.keyboard.bufHead = t.accepted.length % kbBufSize
  tail : t.keyboard.bufTail = t.returned.length % kbBufSize
  slots : window kbBufSize t.keyboard.buf t.returned.length queue.length = queue
  point : t.point.Sees queue
  drops : ∀ n ∈ t.drops, n = 255

/-- More characters do not change what a call has seen. -/
theorem GetcharPoint.Sees.append {queue : List UInt8} {point : GetcharPoint} (h : point.Sees queue)
    (c : UInt8) : point.Sees (queue ++ [c]) := by
  cases point with
  | outside => trivial
  | read => exact List.append_ne_nil_of_right_ne_nil queue (List.cons_ne_nil c [])
  | release first =>
    obtain ⟨rest, rfl⟩ := h
    exact ⟨rest ++ [c], rfl⟩

/-- An interrupt pushes a character, or changes the shift key at most. -/
theorem keyboardIrq_of_char {k : Keyboard} {sc c : UInt8} (h : irqChar k sc = some c) :
    keyboardIrq k sc = bufPush k c := by
  rw [irqChar] at h
  split_ifs at h with hcode hchar
  obtain rfl := Option.some.inj h
  simp only [not_or] at hcode
  obtain ⟨hl, hr, hlUp, hrUp, hrelease, hrange⟩ := hcode
  rw [keyboardIrq, if_neg (not_or.mpr ⟨hl, hr⟩), if_neg (not_or.mpr ⟨hlUp, hrUp⟩), if_neg hrelease,
    if_neg hrange, if_pos hchar]

theorem keyboardIrq_of_none {k : Keyboard} {sc : UInt8} (h : irqChar k sc = none) :
    ∃ shiftHeld, keyboardIrq k sc = { k with shiftHeld := shiftHeld } := by
  rw [keyboardIrq]
  split_ifs with hdown hup hrelease hrange
  · exact ⟨true, rfl⟩
  · exact ⟨false, rfl⟩
  · exact ⟨k.shiftHeld, rfl⟩
  · exact ⟨k.shiftHeld, rfl⟩
  · have hnone : scancodeChar k.shiftHeld sc = 0 := by
      by_contra hchar
      rw [irqChar, if_neg, if_neg hchar] at h
      · exact absurd h (Option.some_ne_none _)
      · simp only [not_or] at hdown hup ⊢
        exact ⟨hdown.1, hdown.2, hup.1, hup.2, hrelease, hrange⟩
    dsimp only
    rw [hnone, if_neg (not_not.mpr rfl)]
    exact ⟨k.shiftHeld, rfl⟩

section Step

variable {t : Typing} {queue : List UInt8}

theorem Fifo.length_accepted (h : Fifo t queue) :
    t.accepted.length = t.returned.length + queue.length := by
  rw [h.accepted, List.length_append]

/-- The buffer is full exactly when 255 characters wait in it. -/
theorem Fifo.full_iff (h : Fifo t queue) :
    (t.keyboard.bufHead + 1) % kbBufSize = t.keyboard.bufTail ↔ queue.length = 255 := by
  have hlength := h.length_accepted
  have hlt := h.length_lt
  rw [h.head, h.tail]
  simp only [kbBufSize] at hlt ⊢
  omega

theorem Fifo.empty_iff (h : Fifo t queue) :
    t.keyboard.bufTail = t.keyboard.bufHead ↔ queue = [] := by
  have hlength := h.length_accepted
  have hlt := h.length_lt
  rw [h.head, h.tail, ← List.length_eq_zero_iff]
  simp only [kbBufSize] at hlt ⊢
  omega

/-- The first character that waits is at the tail. -/
theorem Fifo.buf_tail {c : UInt8} {rest : List UInt8} (h : Fifo t (c :: rest)) :
    t.keyboard.buf t.keyboard.bufTail = c := by
  have hwindow := h.slots
  rw [List.length_cons, window_pop] at hwindow
  rw [h.tail]
  exact (List.cons.inj hwindow).1

theorem Fifo.queued_eq (h : Fifo t queue) : queued t.keyboard = queue := by
  have hlength := h.length_accepted
  have hlt := h.length_lt
  have hcount : (t.keyboard.bufHead + kbBufSize - t.keyboard.bufTail) % kbBufSize =
      queue.length := by
    rw [h.head, h.tail]
    simp only [kbBufSize] at hlt ⊢
    omega
  rw [queued, hcount, h.tail, window_mod dvd_rfl, h.slots]

theorem Fifo.irq (h : Fifo t queue) (sc : UInt8) : ∃ queue', Fifo (t.irq sc) queue' := by
  cases hchar : irqChar t.keyboard sc with
  | none =>
    obtain ⟨shiftHeld, hirq⟩ := keyboardIrq_of_none hchar
    rw [Typing.irq, hchar, Option.elim_none, hirq]
    exact ⟨queue, h.accepted, h.length_lt, h.head, h.tail, h.slots, h.point, h.drops⟩
  | some c =>
    have hirq := keyboardIrq_of_char hchar
    have hlength := h.length_accepted
    rw [Typing.irq, hchar, Option.elim_some, hirq, bufPush]
    by_cases hfull : (t.keyboard.bufHead + 1) % kbBufSize = t.keyboard.bufTail
    · rw [if_pos hfull, if_pos hfull]
      refine ⟨queue, h.accepted, h.length_lt, h.head, h.tail, h.slots, h.point, ?_⟩
      refine List.forall_mem_cons.mpr ⟨?_, h.drops⟩
      rw [hlength, Nat.add_sub_cancel_left]
      exact h.full_iff.mp hfull
    · rw [if_neg hfull, if_neg hfull]
      have hroom : queue.length < 255 :=
        lt_of_le_of_ne (Nat.le_of_lt_succ h.length_lt) (mt h.full_iff.mpr hfull)
      refine ⟨queue ++ [c], ?_, ?_, ?_, h.tail, ?_, h.point.append c, h.drops⟩
      · change t.accepted ++ [c] = t.returned ++ (queue ++ [c])
        rw [h.accepted, List.append_assoc]
      · rw [List.length_append]
        exact Nat.succ_lt_succ hroom
      · change (t.keyboard.bufHead + 1) % kbBufSize = (t.accepted ++ [c]).length % kbBufSize
        rw [h.head, Nat.mod_add_mod, List.length_append, List.length_singleton]
      · change window kbBufSize (Function.update t.keyboard.buf t.keyboard.bufHead c)
          t.returned.length (queue ++ [c]).length = queue ++ [c]
        rw [List.length_append, List.length_singleton, h.head, hlength, window_push h.length_lt,
          h.slots]

theorem Fifo.advance (h : Fifo t queue) : ∃ queue', Fifo (t.advance t.point) queue' := by
  have hpoint := h.point
  generalize hat : t.point = point at hpoint ⊢
  cases point with
  | outside => exact ⟨queue, h⟩
  | read =>
    obtain ⟨c, rest, rfl⟩ := List.exists_cons_of_ne_nil hpoint
    exact ⟨c :: rest, h.accepted, h.length_lt, h.head, h.tail, h.slots, ⟨rest, by rw [h.buf_tail]⟩,
      h.drops⟩
  | release c =>
    obtain ⟨rest, rfl⟩ := hpoint
    refine ⟨rest, ?_, (Nat.lt_succ_self _).trans h.length_lt, h.head, ?_, ?_, trivial, h.drops⟩
    · change t.accepted = (t.returned ++ [c]) ++ rest
      rw [h.accepted, List.append_assoc, List.singleton_append]
    · change (t.keyboard.bufTail + 1) % kbBufSize = (t.returned ++ [c]).length % kbBufSize
      rw [h.tail, Nat.mod_add_mod, List.length_append, List.length_singleton]
    · have hwindow := h.slots
      rw [List.length_cons, window_pop] at hwindow
      change window kbBufSize t.keyboard.buf (t.returned ++ [c]).length rest.length = rest
      rw [List.length_append, List.length_singleton]
      exact (List.cons.inj hwindow).2

/-- The step lemma. -/
theorem fifo_step {action : TypingAction} {t' : Typing} (h : ∃ queue, Fifo t queue)
    (hstep : t.step action = some t') : ∃ queue, Fifo t' queue := by
  obtain ⟨queue, h⟩ := h
  cases action with
  | irq sc =>
    obtain rfl := Option.some.inj hstep
    exact h.irq sc
  | getchar =>
    rw [Typing.step] at hstep
    split_ifs at hstep with houtside hempty
    · obtain rfl := Option.some.inj hstep
      exact ⟨queue, h.accepted, h.length_lt, h.head, h.tail, h.slots, trivial, h.drops⟩
    · obtain rfl := Option.some.inj hstep
      exact ⟨queue, h.accepted, h.length_lt, h.head, h.tail, h.slots, mt h.empty_iff.mpr hempty,
        h.drops⟩
  | advance =>
    obtain rfl := Option.some.inj hstep
    exact h.advance

end Step

/-! ### Whole runs -/

theorem fifo_boot : Fifo Typing.boot [] :=
  ⟨rfl, by decide, rfl, rfl, rfl, trivial, fun _ hn ↦ absurd hn List.not_mem_nil⟩

/-- Whatever is typed and whenever the interrupts come, the characters returned and those in the buffer
are the characters accepted, in their order, a character is dropped only while 255 accepted ones
are not released, and a call without an interrupt returns the first character of the buffer. -/
theorem returned_append_queued (actions : List TypingAction) (t : Typing)
    (hrun : runFrom Typing.step Typing.boot actions = some t) :
    t.returned ++ queued t.keyboard = t.accepted ∧ (∀ n ∈ t.drops, n = 255) ∧
      (t.point = .outside → ∀ c rest, queued t.keyboard = c :: rest →
        ∃ t', runFrom Typing.step t [.getchar, .advance, .advance] = some t' ∧
          t'.returned = t.returned ++ [c]) := by
  obtain ⟨queue, h⟩ := invariant_runFrom (fun h _ hstep ↦ fifo_step h hstep) ⟨[], fifo_boot⟩
    (alongRun_true Typing.boot actions) hrun
  refine ⟨by rw [h.queued_eq, h.accepted], h.drops, fun hpoint c rest hqueued ↦
    ⟨_, runFrom_getchar hpoint, ?_⟩⟩
  obtain rfl : queue = c :: rest := h.queued_eq.symm.trans hqueued
  have hsome : t.keyboard.bufTail ≠ t.keyboard.bufHead := mt h.empty_iff.mp (List.cons_ne_nil c rest)
  simp only [keyboardGetchar, if_neg hsome, h.buf_tail]

/-- Two keys, the second one while the first character is being read. -/
def twoKeys : List TypingAction :=
  [.irq scLShift, .irq 0x23, .getchar, .advance, .irq scLShiftUp, .irq 0x17, .advance]

theorem returned_append_queued_two_keys :
    ∃ t, runFrom Typing.step Typing.boot twoKeys = some t ∧
      t.returned ++ queued t.keyboard = t.accepted ∧ t.accepted = ['H', 'i'].map Char.toUInt8 := by
  have haccepted : (runFrom Typing.step Typing.boot twoKeys).map Typing.accepted =
      some (['H', 'i'].map Char.toUInt8) := by decide
  obtain ⟨t, hrun, ht⟩ := Option.map_eq_some_iff.mp haccepted
  exact ⟨t, hrun, (returned_append_queued twoKeys t hrun).1, ht⟩

end MegKer.Drivers
