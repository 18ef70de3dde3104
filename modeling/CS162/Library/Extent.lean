import Mathlib.Data.Nat.Notation
import Mathlib.Order.Defs.PartialOrder

/-!
# Ranges of addresses

An extent is a start and a size.  Two extents are apart when one ends before the other starts.
-/

namespace CS162.Library

/-- The addresses from `start` on, `size` of them. -/
structure Extent where
  start : ℕ
  size : ℕ
  deriving DecidableEq

namespace Extent

variable {e e' f f' : Extent}

def stop (e : Extent) : ℕ := e.start + e.size

/-- One of the extents ends before the other starts. -/
def Apart (e f : Extent) : Prop := e.stop ≤ f.start ∨ f.stop ≤ e.start

def Within (e f : Extent) : Prop := f.start ≤ e.start ∧ e.stop ≤ f.stop

instance (e f : Extent) : Decidable (e.Apart f) := inferInstanceAs (Decidable (_ ∨ _))

instance (e f : Extent) : Decidable (e.Within f) := inferInstanceAs (Decidable (_ ∧ _))

theorem Apart.symm (h : e.Apart f) : f.Apart e := Or.symm h

instance : Std.Symm Apart := ⟨fun _ _ => Apart.symm⟩

theorem Apart.mono (h : e.Apart f) (he : e'.Within e) (hf : f'.Within f) : e'.Apart f' := by
  unfold Apart Within at *
  omega

end Extent

end CS162.Library
