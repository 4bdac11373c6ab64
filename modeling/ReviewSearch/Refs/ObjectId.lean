/-
ReviewSearch.Refs.ObjectId — what a ref points at.

An object id is twenty octets, written as forty hexadecimal digits. Ids
are ordered by their octets. The id of zeros says that there is no
object.
-/
import ReviewSearch.Text.Hex

namespace ReviewSearch

structure ObjectId where
  octets : List UInt8
  length_octets : octets.length = 20
  deriving DecidableEq

namespace ObjectId

/-- The id of no object. -/
def zero : ObjectId :=
  ⟨List.replicate 20 0, rfl⟩

/-- Reads forty digits of either case. -/
def ofHex? (text : List Char) : Option ObjectId := do
  let octets ← Text.Hex.octets? text
  if h : octets.length = 20 then some ⟨octets, h⟩ else none

/-- The forty digits. -/
def hexChars (id : ObjectId) : List Char :=
  Text.Hex.ofOctets id.octets

def hex (id : ObjectId) : String :=
  String.ofList id.hexChars

def isZero (id : ObjectId) : Bool :=
  decide (id = zero)

instance : LT ObjectId := ⟨fun a b => a.octets < b.octets⟩

instance : DecidableLT ObjectId := fun a b =>
  inferInstanceAs (Decidable (a.octets < b.octets))

end ObjectId

end ReviewSearch
