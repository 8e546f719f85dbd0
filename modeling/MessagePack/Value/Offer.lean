import MessagePack.Error
import MessagePack.Input.Basic
import MessagePack.Input.Request

namespace MessagePack.Value

/-- What a value offers when nothing in particular is asked for. -/
def offerAny : Value → Offer
  | nil => .unit
  | bool b => .bool b
  | int n => match n.form with
    | .unsigned v => .unsigned v
    | .negative v => .signed v
  | f32 bits => .f32 bits
  | f64 bits => .f64 bits
  | raw bytes => match Text.ofUtf8? bytes with
    | some s => .text s
    | none => .octets bytes
  | array items => .seq (.tree 0 items)
  | map entries => .map (.tree 0 entries)

/-- What a value offers on a request. -/
def offer (v : Value) : Request → Except Error Offer
  | .option => .ok (if v matches nil then .absent else .present (.tree v))
  | .newtype _ => .ok (.newtype (.tree v))
  | .bytes => match v with
    | raw bytes => .ok (.octets bytes)
    | v => .ok v.offerAny
  | .seq => match v with
    | raw bytes => .ok (.seq (.bytes 0 bytes))
    | v => .ok v.offerAny
  | .int kind =>
    if kind.isWide then .error (.rejected (.unsupported kind.name)) else .ok v.offerAny
  | _ => .ok v.offerAny

/-- A variant by its name or position alone, or by a map of one entry from it to its contents. -/
def offerVariant : Value → Except Error VariantOffer
  | v@(raw _) | v@(int _) => .ok (.variant (.tree v) none)
  | map [(name, content)] => .ok (.variant (.tree name) (some (.tree content)))
  | v => .error (.typeMismatch "enum" v.category)

end MessagePack.Value
