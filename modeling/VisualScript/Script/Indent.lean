import VisualScript.Script.Failure

/-!
# Script — Indent

One step of indentation.  A width is a signed 64-bit number, of which a negative one gives no
indentation at all.
-/

namespace VisualScript.Indent

-- Powers are the ones of the core library, whatever algebra is in scope around this module.
attribute [local instance (high)] instPowNat

/-- Widths from here on do not fit into memory. -/
def room : Int := 2 ^ (36 : Nat)

/-- One step of indentation of the given width. -/
def ofWidth (width : Int) : Except Failure String :=
  if width < -2 ^ (63 : Nat) ∨ 2 ^ (63 : Nat) ≤ width then .error .widthTooLarge
  else if room ≤ width then .error .outOfMemory
  else .ok (String.ofList (List.replicate width.toNat ' '))

end VisualScript.Indent
