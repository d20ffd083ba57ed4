import HermitMoq.ControlMessage
import HermitMoq.Decode

/-!
# Fields and Parameters of the IETF Drafts

The values that the IETF messages share: namespaces, locations, orders and filters, and the
three kinds of key-value lists. Setup parameters are two maps, one of integers and one of byte
strings, told apart by the parity of the key. Message parameters have fixed keys, each with its
own type, and a message takes only the keys it knows. Track properties are read and dropped.
From draft 16 on a key is written as the difference to the one before it.
-/

namespace HermitMoq

namespace Ietf

open Decode

/-- `decode_namespace`. -/
def decodeNamespace (version : Version) : Decode Path := do
  let count ← u64 version
  if count = 0 then pure (Path.new [])
  else if count > 32 then fail .boundsExceeded
  else do
    let parts ← times (string version) count
    pure (Path.new (['/'].intercalate parts))

/-! ### Locations, orders and filters -/

/-- `Location`. -/
structure Location where
  group : ℕ
  object : ℕ
  deriving DecidableEq, Repr

/-- `GroupOrder`. -/
inductive GroupOrder
  | any
  | ascending
  | descending
  deriving DecidableEq, Repr

/-- `FilterType`. -/
inductive FilterType
  | nextGroup
  | largestObject
  | absoluteStart
  | absoluteRange
  deriving DecidableEq, Repr

/-- `Location::decode`. -/
def Location.decode (version : Version) : Decode Location := do
  let group ← u64 version
  let object ← u64 version
  pure { group, object }

/-- `GroupOrder::try_from`. -/
def GroupOrder.tryFrom : UInt8 → Option GroupOrder
  | 0 => some .any
  | 1 => some .ascending
  | 2 => some .descending
  | _ => none

/-- `GroupOrder::any_to_descending`. -/
def GroupOrder.anyToDescending : GroupOrder → GroupOrder
  | .any => .descending
  | other => other

/-- `GroupOrder::decode`. -/
def GroupOrder.decode : Decode GroupOrder := do
  match GroupOrder.tryFrom (← u8) with
  | some order => pure order
  | none => fail .invalidValue

/-- `FilterType::decode`. -/
def FilterType.decode (version : Version) : Decode FilterType := do
  match ← u64 version with
  | 1 => pure .nextGroup
  | 2 => pure .largestObject
  | 3 => pure .absoluteStart
  | 4 => pure .absoluteRange
  | _ => fail .invalidValue

/-- A filter with the location and group that some filters go with, which are dropped. -/
def decodeFilter (version : Version) : Decode FilterType := do
  let filterType ← FilterType.decode version
  match filterType with
  | .absoluteStart => do
    let _start ← Location.decode version
    pure filterType
  | .absoluteRange => do
    let _start ← Location.decode version
    let _endGroup ← u64 version
    pure filterType
  | .nextGroup | .largestObject => pure filterType

/-! ### Keys -/

/-- `MAX_PARAMS` and `MAX_PROPERTIES`. -/
def maxParams : ℕ := 64

/-- `MAX_KVP_VALUE_LEN`. -/
def maxKvpValueLen : ℕ := 2 ^ 16 - 1

/-- The next key, after the key `previous`. -/
def decodeKey (version : Version) (previous : Option ℕ) : Decode ℕ := do
  let key ← u64 version
  match version, previous with
  | .draft14, _ | .draft15, _ | _, none => pure key
  | _, some previous =>
    if previous + key < 2 ^ 64 then pure (previous + key) else fail .boundsExceeded

/-! ### Setup parameters -/

/-- `Parameters`, the maps as their entries in the order in which they were read. -/
structure Parameters where
  vars : List (ℕ × ℕ) := []
  bytes : List (ℕ × List UInt8) := []
  deriving DecidableEq, Repr

namespace Parameters

/-- The value of the key `kind`, to be added to `params`. -/
def decodeEntry (version : Version) (params : Parameters) (kind : ℕ) : Decode Parameters :=
  if kind % 2 = 0 then
    if kind ∈ params.vars.map Prod.fst then fail .duplicate
    else do
      let value ← u64 version
      pure { params with vars := params.vars ++ [(kind, value)] }
  else do
    let value ← Decode.bytes version
    if value.length > maxKvpValueLen then fail .boundsExceeded
    else if kind ∈ params.bytes.map Prod.fst then fail .duplicate
    else pure { params with bytes := params.bytes ++ [(kind, value)] }

/-- A number of parameters. -/
def decodeCounted (version : Version) : ℕ → Option ℕ → Parameters → Decode Parameters
  | 0, _, params => pure params
  | count + 1, previous, params => do
    let kind ← decodeKey version previous
    let params ← decodeEntry version params kind
    decodeCounted version count (some kind) params

/-- Parameters up to the end, at most `room`. -/
def decodeAll (version : Version) : ℕ → Option ℕ → Parameters → Decode Parameters
  | room, previous, params => do
    if (← remaining) = 0 then pure params
    else
      match room with
      | 0 => fail .tooMany
      | room + 1 => do
        let kind ← decodeKey version previous
        let params ← decodeEntry version params kind
        decodeAll version room (some kind) params

/-- `Parameters::decode`. -/
def decode (version : Version) : Decode Parameters :=
  match version with
  | .draft14 | .draft15 | .draft16 => do
    let count ← u64 version
    if count > maxParams then fail .tooMany else decodeCounted version count none {}
  | _ => decodeAll version maxParams none {}

end Parameters

/-! ### Message parameters -/

/-- The version that the bytes inside a parameter are coded in. -/
def innerVersion (version : Version) : Version :=
  match version with
  | .draft14 | .draft15 | .draft16 => .draft15
  | _ => version

/-- A value in bytes of their own, which it has to fill. -/
def decodeInner {α : Type} (version : Version) (p : Decode α) : Decode α := do
  let data ← Decode.bytes version
  Parser.within data p fun value left => if 0 < left then fail .trailingBytes else pure value

/-- `param_decode` of a byte. -/
def paramU8 (version : Version) : Decode UInt8 :=
  match version with
  | .draft14 | .draft15 | .draft16 => do
    let value ← u64 version
    if value < 2 ^ 8 then pure (.ofNat value) else fail .invalidValue
  | _ => u8

/-- `param_decode` of a Boolean. -/
def paramBool (version : Version) : Decode Bool :=
  match version with
  | .draft14 | .draft15 | .draft16 => do
    match ← u64 version with
    | 0 => pure false
    | 1 => pure true
    | _ => fail .invalidValue
  | _ => bool

/-- `param_decode` of a location. -/
def paramLocation (version : Version) : Decode Location :=
  match version with
  | .draft14 | .draft15 | .draft16 => decodeInner version (Location.decode .draft15)
  | _ => Location.decode version

/-- `param_decode` of a filter. -/
def paramFilterType (version : Version) : Decode FilterType :=
  decodeInner version (FilterType.decode (innerVersion version))

/-- `param_decode` of an order. -/
def paramGroupOrder (version : Version) : Decode GroupOrder := do
  let value ← paramU8 version
  pure ((GroupOrder.tryFrom value).getD .descending).anyToDescending

/-- The parameters of messages. -/
inductive Param
  | largestLocation
  | forward
  | subscriberPriority
  | filterType
  | groupOrder
  deriving DecidableEq, Repr

/-- The key of a parameter. -/
def Param.key : Param → ℕ
  | largestLocation => 0x09
  | forward => 0x10
  | subscriberPriority => 0x20
  | filterType => 0x21
  | groupOrder => 0x22

/-- The values that `decode_params!` binds. -/
structure Params where
  largestLocation : Option Location := none
  forward : Option Bool := none
  subscriberPriority : Option UInt8 := none
  filterType : Option FilterType := none
  groupOrder : Option GroupOrder := none
  deriving DecidableEq, Repr

namespace Params

/-- A parameter that may appear once. -/
def once {α : Type} (old : Option α) (p : Decode α) : Decode (Option α) :=
  if old.isSome then fail .duplicate else some <$> p

/-- The value of a parameter. -/
def decodeValue (version : Version) (params : Params) : Param → Decode Params
  | .largestLocation => do
    let value ← once params.largestLocation (paramLocation version)
    pure { params with largestLocation := value }
  | .forward => do
    let value ← once params.forward (paramBool version)
    pure { params with forward := value }
  | .subscriberPriority => do
    let value ← once params.subscriberPriority (paramU8 version)
    pure { params with subscriberPriority := value }
  | .filterType => do
    let value ← once params.filterType (paramFilterType version)
    pure { params with filterType := value }
  | .groupOrder => do
    let value ← once params.groupOrder (paramGroupOrder version)
    pure { params with groupOrder := value }

/-- A number of parameters, all of them among `known`. -/
def decodeCounted (version : Version) (known : List Param) : ℕ → Option ℕ → Params → Decode Params
  | 0, _, params => pure params
  | count + 1, previous, params => do
    let key ← decodeKey version previous
    match known.find? (·.key = key) with
    | none => fail .invalidValue
    | some param => do
      let params ← decodeValue version params param
      decodeCounted version known count (some key) params

end Params

/-- `decode_params!`. -/
def decodeParams (version : Version) (known : List Param) : Decode Params := do
  let count ← u64 version
  if count > maxParams then fail .tooMany else Params.decodeCounted version known count none {}

/-! ### Track properties -/

/-- Drop the properties up to the end, at most `room`. -/
def skipAll (version : Version) : ℕ → Option ℕ → Decode Unit
  | room, previous => do
    if (← remaining) = 0 then pure ()
    else
      match room with
      | 0 => fail .tooMany
      | room + 1 => do
        let key ← decodeKey version previous
        if key % 2 = 0 then do
          let _ ← u64 version
          skipAll version room (some key)
        else do
          let size ← u64 version
          if size > maxKvpValueLen then fail .boundsExceeded
          else Parser.read size fun _ => skipAll version room (some key)

/-- `properties::skip`. -/
def skipProperties (version : Version) : Decode Unit :=
  match version with
  | .draft14 | .draft15 | .draft16 => pure ()
  | _ => skipAll version maxParams none

end Ietf

end HermitMoq
