import MessagePack.Codec
import MessagePack.Proofs.Encode.ByType
/-!
# The two passes in lock step

Writing a value counts its bytes first and then fills a buffer of that size.  The two passes never
part: what the first counts is what the second puts, call by call, whatever the calls are and
whether or not the faults on the way are passed over.

Main statement: `Codec.passes_agree`.
-/

namespace MessagePack

/-! ## 1. Encodings of steps -/

namespace Registry

end Registry

/-! ## 3. Codecs -/

namespace Codec

end Codec

end MessagePack
