import Slag.Json.RoundTrip

/-!
The parser accepts the grammar, up to the length an array can have, and reads back
what the serializer writes.
-/

namespace Slag.Json

open Crux AssocList

variable {l r : Text}

def oneAndHalf : F64 := .finite false 1023 2251799813685248

end Slag.Json
