import Pisces.Dualboot.Bootmark
import Pisces.Dualboot.Isolation

/-!
# Dual data off and on again

With dual data off the two systems share what is in /data: switches change the
bootmark and the nodes and leave /data alone. The data of the system that was
not running waits in its .disabled directory, and whatever was booted and
written meanwhile, turning dual data on again brings it back as it was.
-/

namespace Pisces.Dualboot

open Pisces.Lib Pisces.Lib.Script

/-- Dual data is off, and system `q`'s entries are put by. -/
structure Off (q : SysId) (s : Entries) (d : Data) : Prop where
  sealed : ∀ k, d.sealed k = none
  settled : d.Settled
  disabled : d.disabled q = some s
  other : d.disabled q.other = none

variable {q u : SysId} {s : Entries} {d : Data} {env : Env} {w : World}

/-! ## While it is off -/

theorem Off.active (h : Off q s d) (a : Entries) : Off q s { d with active := a } :=
  ⟨h.sealed, h.settled, h.disabled, h.other⟩

/-- The active entries after the last change. -/
def written (a : Entries) (es : List Happening) : Entries :=
  es.foldl (fun a e => match e with
    | .call _ _ _ => a
    | .change b => b) a

end Pisces.Dualboot
