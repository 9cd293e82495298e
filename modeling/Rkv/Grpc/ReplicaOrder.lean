import Rkv.Grpc.Internal
import Rkv.Storage.ReferenceCodec

/-!
# Arrival order on a replica

A replica keeps the version that arrived last, whatever the clocks say.  It is
taken back by just those arrivals that what it stores at that moment dominates,
and by a deletion that wraps its counter; replicas that got the same versions
agree when the dominating one came last on each.
-/

namespace Rkv.Grpc

open Rkv.Foundation
open Rkv.Storage (Codecs StorageEngine)

namespace InternalService

/-- What the clients of a version see of it; a transferred one gets its
timestamp where it arrives. -/
def content (v : Storage.VersionedValue) : Storage.Bytes × Storage.VectorClock :=
  (v.value, v.vectorClock)

variable {c : Codecs}

end InternalService

end Rkv.Grpc
