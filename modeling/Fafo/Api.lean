/-! What a request that fails is answered with. -/
namespace Fafo

/-- The status of the response, and what its body says. -/
structure ApiError where
  status : Nat
  message : String
  deriving DecidableEq, Repr

def ApiError.badRequest (message : String) : ApiError := ⟨400, message⟩

def ApiError.internal (message : String) : ApiError := ⟨500, message⟩

/-- `message.starts_with("rpc to")`, by which a caller knows that the transport has failed. -/
def ApiError.ofTransport (e : ApiError) : Bool := "rpc to".toList.isPrefixOf e.message.toList

end Fafo
