import Credman.Recovery
import Credman.Compaction
import Credman.Access

/-! What the check between two publications says of a dispatched registration. Its
evidence is a delivery, or the mark a compaction left on the record's baseline. -/
namespace Credman

open Library

namespace Application

variable {old next : Application} {id : Uuid}

/-- The registration of the shared login, long folded into its baseline. -/
def registeredVault : Application := { sharedVault with
  baselines := (∅ : OrdMap Uuid RecordBaseline).insert 10 { registrationDispatched := true } }

end Application

end Credman
