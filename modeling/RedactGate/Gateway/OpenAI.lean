import RedactGate.Library.Json

/-!
# OpenAI provider

The request body of the pass-through provider.
-/
namespace RedactGate

open Library

namespace OpenAIProvider

/-- `_body`, with the model that `resolve_model` finds. -/
def body (model : Text) (payload : Fields) (stream : Bool) : Fields :=
  (payload.set "model".toList (.str model)).set "stream".toList (.bool stream)

/-- Any other member is sent as it is in the payload. -/
theorem at?_body {model : Text} {payload : Fields} {stream : Bool} {key : Text} {p : Json.Path}
    (other : key ≠ "model".toList) (other' : key ≠ "stream".toList) :
    (Json.obj (body model payload stream)).at? (.key key :: p) =
      (Json.obj payload).at? (.key key :: p) := by
  rw [Json.at?, Json.at?, body, Fields.get?_set_of_ne (Ne.symm other'),
    Fields.get?_set_of_ne (Ne.symm other)]

end OpenAIProvider

end RedactGate
