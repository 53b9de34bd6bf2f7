import Mathlib.Data.Set.Function

/-!
# Word-addressed memory

Physical memory as a function from byte addresses to the 64-bit words stored there. All accesses
of the programs modelled over it are to words at addresses that are multiples of 8, so words at
different addresses do not overlap. A store is a pointwise update; what a store leaves alone is
stated by `Set.EqOn` over the set of addresses that matter.
-/

set_option autoImplicit false
set_option relaxedAutoImplicit false

namespace MegKer.Foundation

/-- The 64-bit word at each (aligned) byte address. -/
abbrev WordMemory := ℕ → ℕ

namespace WordMemory

/-- Write one word. -/
def store (mem : WordMemory) (a value : ℕ) : WordMemory := Function.update mem a value

@[simp] theorem store_same (mem : WordMemory) (a value : ℕ) : mem.store a value a = value :=
  Function.update_self _ _ _

theorem store_of_ne (mem : WordMemory) {a b : ℕ} (value : ℕ) (hne : b ≠ a) :
    mem.store a value b = mem b :=
  Function.update_of_ne hne _ _

theorem store_apply (mem : WordMemory) (a value b : ℕ) :
    mem.store a value b = if b = a then value else mem b :=
  Function.update_apply _ _ _ _

end WordMemory

end MegKer.Foundation
