import TorchComms.Ibverbx.BusinessCard

/-! # Metadata of collectives as JSON values

Every function here is `noexcept`, so an exception of the JSON library ends the process.
-/
namespace TorchComms.CollTrace

/-! ### Data types and their names -/

/-- `commDataType_t`, up to and with `commNumTypes`. -/
inductive CommDataType
  | commInt8
  | commUint8
  | commInt32
  | commUint32
  | commInt64
  | commUint64
  | commFloat16
  | commFloat32
  | commFloat64
  | commBfloat16
  | commFloat8e4m3
  | commFloat8e5m2
  | commNumTypes
  deriving DecidableEq, Repr

def getCommsDatatypeStr : CommDataType → String
  | .commInt8 => "commInt8"
  | .commUint8 => "commUint8"
  | .commInt32 => "commInt32"
  | .commUint32 => "commUint32"
  | .commInt64 => "commInt64"
  | .commUint64 => "commUint64"
  | .commFloat16 => "commFloat16"
  | .commFloat32 => "commFloat32"
  | .commFloat64 => "commFloat64"
  | .commBfloat16 => "commBfloat16"
  | .commFloat8e4m3 => "commFloat8e4m3"
  | .commFloat8e5m2 => "commFloat8e5m2"
  | .commNumTypes => "Unknown type"

def stringToCommsDatatype (str : String) : CommDataType :=
  if str = "commInt8" then .commInt8
  else if str = "commUint8" then .commUint8
  else if str = "commInt32" then .commInt32
  else if str = "commUint32" then .commUint32
  else if str = "commInt64" then .commInt64
  else if str = "commUint64" then .commUint64
  else if str = "commFloat16" then .commFloat16
  else if str = "commFloat32" then .commFloat32
  else if str = "commFloat64" then .commFloat64
  else if str = "commBfloat16" then .commBfloat16
  else if str = "commFloat8e4m3" then .commFloat8e4m3
  else if str = "commFloat8e5m2" then .commFloat8e5m2
  else .commNumTypes

/-- The text of a type that has no name is the text of no type, so it reads back too. -/
theorem stringToCommsDatatype_str (type : CommDataType) :
    stringToCommsDatatype (getCommsDatatypeStr type) = type := by
  cases type <;> simp [getCommsDatatypeStr, stringToCommsDatatype]

/-! ### The JSON library -/

abbrev FollyDynamic := Ibverbx.Dynamic

/-- An unsigned number is stored as the signed one with the same bits. -/
def ofUInt64 (n : UInt64) : FollyDynamic := .int64 n.toInt64.toInt

def ofInts (l : List Int32) : FollyDynamic := .array (l.map fun r => .int64 r.toInt)

/-- `folly::to<int>`, which throws on a number that does not fit. -/
def toInt32 (n : ℤ) : Option Int32 :=
  if -2 ^ 31 ≤ n ∧ n < 2 ^ 31 then some (Int32.ofInt n) else none

/-- `asString`, `asInt` and the conversion to a list of `int`. What they make of values of other
types is left open. -/
structure FollyConversions where
  asString : FollyDynamic → Option String
  asInt : FollyDynamic → Option ℤ
  convert : FollyDynamic → Option (List Int32)
  asString_string : ∀ text, asString (.string text) = some text
  asInt_int64 : ∀ n, asInt (.int64 n) = some n
  convert_array : ∀ elems, convert (.array elems) = elems.mapM fun e => asInt e >>= toInt32

/-- The const `operator[]`, which throws on a missing key. -/
def subscript (d : FollyDynamic) (key : String) : Option FollyDynamic :=
  match d with
  | .object entries => entries.lookup key
  | _ => none

def isNull : FollyDynamic → Bool
  | .null => true
  | _ => false

/-! ### Metadata -/

structure CollectiveMetadata where
  opName : String
  algoName : String
  opCount : UInt64
  sendbuff : UInt64
  recvbuff : UInt64
  dataType : CommDataType := .commNumTypes
  count : Option UInt64
  deriving DecidableEq, Repr

structure GroupedP2PMetaData where
  opName : String
  algoName : String
  opCount : UInt64
  ranksInGroupedP2P : List Int32
  dataType : CommDataType := .commNumTypes
  count : UInt64
  deriving DecidableEq

def CollectiveMetadata.toDynamic (m : CollectiveMetadata) : FollyDynamic :=
  .object <| [("opName", .string m.opName),
    ("algoName", .string m.algoName),
    ("opCount", ofUInt64 m.opCount),
    ("sendbuff", ofUInt64 m.sendbuff),
    ("recvbuff", ofUInt64 m.recvbuff),
    ("dataType", .string (getCommsDatatypeStr m.dataType))] ++
    match m.count with
    | some count => [("count", ofUInt64 count)]
    | none => []

def GroupedP2PMetaData.toDynamic (m : GroupedP2PMetaData) : FollyDynamic :=
  .object [("opName", .string m.opName),
    ("algoName", .string m.algoName),
    ("opCount", ofUInt64 m.opCount),
    ("dataType", .string (getCommsDatatypeStr m.dataType)),
    ("count", ofUInt64 m.count),
    ("ranksInGroupedP2P", ofInts m.ranksInGroupedP2P)]

namespace FollyConversions

variable (folly : FollyConversions)

def stringAt (d : FollyDynamic) (key : String) : Option String := subscript d key >>= folly.asString

def uint64At (d : FollyDynamic) (key : String) : Option UInt64 :=
  (subscript d key >>= folly.asInt).map fun n => (Int64.ofInt n).toUInt64

end FollyConversions

def CollectiveMetadata.fromDynamic (folly : FollyConversions) (d : FollyDynamic) :
    Option CollectiveMetadata := do
  let opName ← folly.stringAt d "opName"
  let algoName ← folly.stringAt d "algoName"
  let opCount ← folly.uint64At d "opCount"
  let sendbuff ← folly.uint64At d "sendbuff"
  let recvbuff ← folly.uint64At d "recvbuff"
  let dataType ← folly.stringAt d "dataType"
  let count ←
    if isNull (← subscript d "count") then pure none
    else (folly.uint64At d "count").map some
  return ⟨opName, algoName, opCount, sendbuff, recvbuff, stringToCommsDatatype dataType, count⟩

def GroupedP2PMetaData.fromDynamic (folly : FollyConversions) (d : FollyDynamic) :
    Option GroupedP2PMetaData := do
  let opName ← folly.stringAt d "opName"
  let algoName ← folly.stringAt d "algoName"
  let opCount ← folly.uint64At d "opCount"
  let dataType ← folly.stringAt d "dataType"
  let count ← folly.uint64At d "count"
  let ranksInGroupedP2P ← subscript d "ranksInGroupedP2P" >>= folly.convert
  return ⟨opName, algoName, opCount, ranksInGroupedP2P, stringToCommsDatatype dataType, count⟩

/-! ### Reading what was written -/

section RoundTrip

variable (folly : FollyConversions) {d : FollyDynamic} {key : String}

theorem stringAt_of_string {text : String} (h : subscript d key = some (.string text)) :
    folly.stringAt d key = some text := by
  rw [FollyConversions.stringAt, h]
  exact folly.asString_string text

theorem uint64At_of_uint64 {n : UInt64} (h : subscript d key = some (ofUInt64 n)) :
    folly.uint64At d key = some n := by
  have hint : folly.asInt (ofUInt64 n) = some n.toInt64.toInt := folly.asInt_int64 _
  rw [FollyConversions.uint64At, h]
  change (folly.asInt (ofUInt64 n)).map _ = _
  rw [hint, Option.map_some, Int64.ofInt_toInt, UInt64.toUInt64_toInt64]

theorem toInt32_toInt (r : Int32) : toInt32 r.toInt = some r := by
  rw [toInt32, if_pos ⟨r.le_toInt, r.toInt_lt⟩, Int32.ofInt_toInt]

theorem convert_ofInts (l : List Int32) : folly.convert (ofInts l) = some l := by
  rw [ofInts, folly.convert_array]
  induction l with
  | nil => rfl
  | cons r l ih =>
    rw [List.map_cons, List.mapM_cons, folly.asInt_int64, ih]
    change (toInt32 r.toInt >>= _) = _
    rw [toInt32_toInt]
    rfl

theorem not_isNull_ofUInt64 (n : UInt64) : isNull (ofUInt64 n) = false := rfl

end RoundTrip

namespace CollectiveMetadata

variable (folly : FollyConversions) (m : CollectiveMetadata)

theorem subscript_toDynamic : subscript m.toDynamic "opName" = some (.string m.opName) ∧
    subscript m.toDynamic "algoName" = some (.string m.algoName) ∧
    subscript m.toDynamic "opCount" = some (ofUInt64 m.opCount) ∧
    subscript m.toDynamic "sendbuff" = some (ofUInt64 m.sendbuff) ∧
    subscript m.toDynamic "recvbuff" = some (ofUInt64 m.recvbuff) ∧
    subscript m.toDynamic "dataType" = some (.string (getCommsDatatypeStr m.dataType)) :=
  ⟨rfl, rfl, rfl, rfl, rfl, rfl⟩

theorem at_count : subscript m.toDynamic "count" = m.count.map ofUInt64 := by
  rcases m with ⟨_, _, _, _, _, _, _ | _⟩ <;> rfl

/-- The other keys read back, so only `count` decides. -/
theorem fromDynamic_toDynamic : fromDynamic folly m.toDynamic = m.count.map fun _ => m := by
  obtain ⟨hopName, halgoName, hopCount, hsendbuff, hrecvbuff, hdataType⟩ := m.subscript_toDynamic
  rw [fromDynamic, stringAt_of_string folly hopName, stringAt_of_string folly halgoName,
    uint64At_of_uint64 folly hopCount, uint64At_of_uint64 folly hsendbuff,
    uint64At_of_uint64 folly hrecvbuff, stringAt_of_string folly hdataType]
  cases hcount : m.count with
  | none =>
    have hat : subscript m.toDynamic "count" = none := by rw [at_count, hcount, Option.map_none]
    simp [hat]
  | some count =>
    have hat : subscript m.toDynamic "count" = some (ofUInt64 count) := by
      rw [at_count, hcount, Option.map_some]
    simp [hat, uint64At_of_uint64 folly hat, stringToCommsDatatype_str, not_isNull_ofUInt64]
    rw [← hcount]

end CollectiveMetadata

namespace GroupedP2PMetaData

variable (folly : FollyConversions) (m : GroupedP2PMetaData)

theorem subscript_toDynamic : subscript m.toDynamic "opName" = some (.string m.opName) ∧
    subscript m.toDynamic "algoName" = some (.string m.algoName) ∧
    subscript m.toDynamic "opCount" = some (ofUInt64 m.opCount) ∧
    subscript m.toDynamic "dataType" = some (.string (getCommsDatatypeStr m.dataType)) ∧
    subscript m.toDynamic "count" = some (ofUInt64 m.count) ∧
    subscript m.toDynamic "ranksInGroupedP2P" = some (ofInts m.ranksInGroupedP2P) :=
  ⟨rfl, rfl, rfl, rfl, rfl, rfl⟩

theorem fromDynamic_toDynamic : fromDynamic folly m.toDynamic = some m := by
  obtain ⟨hopName, halgoName, hopCount, hdataType, hcount, hranks⟩ := m.subscript_toDynamic
  rw [fromDynamic, stringAt_of_string folly hopName, stringAt_of_string folly halgoName,
    uint64At_of_uint64 folly hopCount, stringAt_of_string folly hdataType,
    uint64At_of_uint64 folly hcount, hranks]
  simp [convert_ofInts, stringToCommsDatatype_str]

end GroupedP2PMetaData

/-- Metadata of a collective survives if its count is there, metadata of grouped sends and receives
always. -/
theorem metadata_round_trip (folly : FollyConversions) :
    (∀ m : CollectiveMetadata, CollectiveMetadata.fromDynamic folly m.toDynamic = some m ↔
      m.count.isSome) ∧
    ∀ m : GroupedP2PMetaData, GroupedP2PMetaData.fromDynamic folly m.toDynamic = some m := by
  refine ⟨fun m => ?_, GroupedP2PMetaData.fromDynamic_toDynamic folly⟩
  rw [CollectiveMetadata.fromDynamic_toDynamic]
  cases m.count <;> simp

/-- Conversions that throw on a value of any other type. -/
def FollyConversions.strict : FollyConversions where
  asString
    | .string text => some text
    | _ => none
  asInt
    | .int64 n => some n
    | _ => none
  convert
    | .array elems => elems.mapM fun e =>
        (match e with
          | .int64 n => some n
          | _ => none) >>= toInt32
    | _ => none
  asString_string _ := rfl
  asInt_int64 _ := rfl
  convert_array _ := rfl

/-- An all-gather without a count. -/
theorem not_round_trip_allgather : CollectiveMetadata.fromDynamic .strict
    (CollectiveMetadata.toDynamic ⟨"allgather", "ring", 42, 0x1234, 0x5678, .commFloat32, none⟩) =
      none :=
  CollectiveMetadata.fromDynamic_toDynamic _ _

end TorchComms.CollTrace
