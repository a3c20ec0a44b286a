import Bristlemouth.Wire.Le

/-!
# Times

`time_remaining` of `util.rs`, which the neighbours' leases and the service requests' timeouts are held
against.
-/

set_option autoImplicit false

namespace Bristlemouth

/-- Milliseconds left before `start + timeout`. The comparison is signed: a deadline passed by less
than 2^31 ms has none left, one passed by more has not elapsed yet. -/
def timeRemaining (start current timeout : UInt32) : UInt32 :=
  let remaining := (start + timeout - current).toInt32
  if remaining < 0 then 0 else remaining.toUInt32

end Bristlemouth
