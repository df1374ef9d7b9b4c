import SigV4.Property.Configuration
import SigV4.Property.Rehearsal

/-!
# From the text of a configuration to the answer to a request

The whole chain: an `http` block is read, its credentials are resolved and compiled, the modes of
the locations are merged, a worker serves requests and its verifier fills its caches. What becomes
of a request in the end is told by the text: by the modes that the levels around its location
state, the settings, the arguments of the credentials and the secrets that are held.
-/

namespace SigV4

open Outcome Spec CredentialDirective

variable {C : Crypto} {fs : FileSystem} {http : Block} {main : MainConf} {locations : Locations}
  {settings : Settings} {cs : List Credential} {s : Served}

end SigV4
