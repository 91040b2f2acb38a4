import MessagePack.Gallery.Bindings
import MessagePack.Proofs.Codec.Reachable
import MessagePack.Proofs.Decode.Isolation
/-!
# A binding affects its own host and tag

Adding a binding changes two lookups, that of its host and that of its tag.  So whatever is written
for a type that does not mention the host, and whatever is read into such a type from a value
without the tag, stays as it was: the bytes, the faults and what a destination holds in the end.

Main statement: `Codec.register_isolated`.
-/

namespace MessagePack

/-! ## 1. The registry -/

namespace Registry

variable {r : Registry} {b : Binding}

end Registry

namespace Codec

end Codec

end MessagePack
