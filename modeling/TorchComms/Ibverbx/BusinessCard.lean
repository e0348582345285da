import TorchComms.Foundation.Decimal
import TorchComms.Foundation.Loop
import TorchComms.Ibverbx.Verbs
import Mathlib.Data.List.Forall2

/-! # `IbvVirtualQpBusinessCard`: the QP numbers of a virtual queue pair as JSON

The numbers are written as decimal texts of ten digits. They are read with `stoul`, which takes the
number at the front of a text, and cast to 32 bits. The JSON library is a parameter.
-/
namespace TorchComms.Ibverbx

open Foundation

/-- A JSON value: a double by its text, an object by its entries. -/
inductive Dynamic where
  | null
  | bool (b : Bool)
  | int64 (n : ℤ)
  | double (text : String)
  | string (text : String)
  | array (elems : List Dynamic)
  | object (entries : List (String × Dynamic))

/-- The JSON printer and parser, and the text of the exception for a value of another type than the
one asked for. -/
structure FollyJson where
  toJson : Dynamic → String
  parseJson : String → Except String Dynamic
  typeError : Dynamic → String

/-- How reading a card can end without one: an error it returns, an exception it throws, or a check
that ends the process. -/
inductive CardFault where
  | error (e : Error)
  | exception (what : String)
  | check (text : String)
deriving DecidableEq, Repr

structure IbvVirtualQpBusinessCard where
  qpNums_ : List UInt32
  notifyQpNum_ : UInt32 := 0
deriving DecidableEq, Repr

/-! ### Writing -/

/-- `fmt::format("{:010d}", qpNum)`. -/
def padded (qpNum : UInt32) : String := String.ofList (digits 10 qpNum.toNat)

def IbvVirtualQpBusinessCard.toDynamic (card : IbvVirtualQpBusinessCard) : Dynamic :=
  .object [("notifyQpNum", .string (padded card.notifyQpNum_)),
    ("qpNums", .array (card.qpNums_.map fun qpNum => .string (padded qpNum)))]

def IbvVirtualQpBusinessCard.serialize (json : FollyJson) (card : IbvVirtualQpBusinessCard) :
    String :=
  json.toJson card.toDynamic

/-! ### Reading -/

/-- A text that `stoul` reads: a digit where the number starts, and a number below `2 ^ 64`. -/
def Convertible (text : String) : Prop :=
  (numeral text.toList).2 ≠ [] ∧ value (numeral text.toList).2 < 2 ^ 64

instance (text : String) : Decidable (Convertible text) :=
  inferInstanceAs (Decidable (_ ∧ _))

/-- `std::stoul`: a negative number wraps. Both its exceptions carry its name. -/
def stoul (text : String) : Except String UInt64 :=
  if Convertible text then
    .ok (if (numeral text.toList).1 then -UInt64.ofNat (value (numeral text.toList).2)
      else UInt64.ofNat (value (numeral text.toList).2))
  else .error "stoul"

def qpNumOfDynamic (qpNum : Dynamic) : Except CardFault UInt32 :=
  match qpNum with
  | .string text =>
    match stoul text with
    | .ok qpNumValue => .ok qpNumValue.toUInt32
    | .error what => .error (.error
        ⟨EINVAL, "Invalid QP number string format: " ++ text ++ ". Exception: " ++ what⟩)
  | _ => .error (.check "qp num is not string!")

/-- A notify QP number that is missing or not a text counts as 0. -/
def notifyQpNumOfDynamic (notifyQpNum : Option Dynamic) : Except CardFault UInt32 :=
  match notifyQpNum with
  | some (.string text) =>
    match stoul text with
    | .ok value => .ok value.toUInt32
    | .error what => .error (.error
        ⟨EINVAL, "Invalid notifyQpNum string format: " ++ text ++ ". Exception: " ++ what⟩)
  | _ => .ok 0

namespace IbvVirtualQpBusinessCard

def fromDynamic (json : FollyJson) (obj : Dynamic) : Except CardFault IbvVirtualQpBusinessCard :=
  match obj with
  | .object entries =>
    match entries.lookup "qpNums" with
    | some (.array qpNumsArray) => do
      let qpNums ← qpNumsArray.mapM qpNumOfDynamic
      let notifyQpNum ← notifyQpNumOfDynamic (entries.lookup "notifyQpNum")
      return ⟨qpNums, notifyQpNum⟩
    | _ => .error (.error ⟨EINVAL, "Invalid qpNums array received from remote side"⟩)
  | _ => .error (.exception (json.typeError obj))

def deserialize (json : FollyJson) (jsonStr : String) :
    Except CardFault IbvVirtualQpBusinessCard :=
  match (json.parseJson jsonStr).mapError CardFault.exception >>= fromDynamic json with
  | .error (.exception what) => .error (.error ⟨EINVAL,
      "Failed to parse JSON in IbvVirtualQpBusinessCard Deserialize. Exception: " ++ what⟩)
  | result => result

end IbvVirtualQpBusinessCard

/-! ### Documents that hold numbers, and documents at which reading stops -/

namespace Dynamic

/-- A QP number of a card: decimal digits with a value of 32 bits. -/
def IsQpNum : Dynamic → Prop
  | .string text => text.toList ≠ [] ∧ (∀ c ∈ text.toList, c.isDigit = true) ∧
      value text.toList < 2 ^ 32
  | _ => False

def number : Dynamic → UInt32
  | .string text => UInt32.ofNat (value text.toList)
  | _ => 0

/-- A text that `stoul` reads. -/
def Read : Dynamic → Prop
  | .string text => Convertible text
  | _ => False

/-- A text that `stoul` throws at. -/
def Rejected : Dynamic → Prop
  | .string text => ¬ Convertible text
  | _ => False

/-- The QP numbers of the document are decimal numbers of 32 bits. -/
def Decimal : Dynamic → Prop
  | .object entries =>
    (∃ nums, entries.lookup "qpNums" = some (.array nums) ∧ ∀ num ∈ nums, num.IsQpNum) ∧
      ∀ num, entries.lookup "notifyQpNum" = some num → num.IsQpNum
  | _ => False

/-- Reading stops at a document without an array of QP numbers, and at the first text that `stoul`
throws at where only texts stand before it. -/
def Unreadable : Dynamic → Prop
  | .object entries => ∀ nums, entries.lookup "qpNums" = some (.array nums) →
      (∃ good bad rest, nums = good ++ bad :: rest ∧ (∀ num ∈ good, num.Read) ∧ bad.Rejected) ∨
        (∀ num ∈ nums, num.Read) ∧ ∃ num, entries.lookup "notifyQpNum" = some num ∧ num.Rejected
  | _ => True

end Dynamic

/-! ### One number -/

variable {text : String}

theorem stoul_digits (hne : text.toList ≠ [])
    (hdigits : ∀ c ∈ text.toList, c.isDigit = true) (hlt : value text.toList < 2 ^ 64) :
    stoul text = .ok (UInt64.ofNat (value text.toList)) := by
  have hnumeral := numeral_of_digits hdigits
  have hconv : Convertible text := by
    unfold Convertible
    rw [hnumeral]
    exact ⟨hne, hlt⟩
  rw [stoul, if_pos hconv, hnumeral]
  rfl

theorem toUInt32_ofNat (n : ℕ) : (UInt64.ofNat n).toUInt32 = UInt32.ofNat n := by
  apply UInt32.toNat_inj.mp
  rw [UInt64.toNat_toUInt32, UInt64.toNat_ofNat', UInt32.toNat_ofNat', Nat.mod_mod_of_dvd]
  decide

theorem stoul_of_isQpNum (h : (Dynamic.string text).IsQpNum) :
    stoul text = .ok (UInt64.ofNat (value text.toList)) :=
  stoul_digits h.1 h.2.1 (h.2.2.trans (by decide))

variable {num : Dynamic}

theorem qpNumOfDynamic_of_isQpNum (h : num.IsQpNum) : qpNumOfDynamic num = .ok num.number := by
  cases num with
  | string text =>
    rw [qpNumOfDynamic, stoul_of_isQpNum h]
    exact congrArg Except.ok (toUInt32_ofNat _)
  | _ => cases h

theorem notifyQpNumOfDynamic_of_isQpNum {num : Option Dynamic} (h : ∀ n, num = some n → n.IsQpNum) :
    notifyQpNumOfDynamic num = .ok ((num.map Dynamic.number).getD 0) := by
  cases num with
  | none => rfl
  | some num =>
    have hnum := h num rfl
    cases num with
    | string text =>
      rw [notifyQpNumOfDynamic, stoul_of_isQpNum hnum]
      exact congrArg Except.ok (toUInt32_ofNat _)
    | _ => cases hnum

theorem stoul_of_convertible (h : Convertible text) : ∃ n, stoul text = .ok n :=
  ⟨_, if_pos h⟩

theorem stoul_of_not_convertible (h : ¬ Convertible text) : stoul text = .error "stoul" :=
  if_neg h

theorem qpNumOfDynamic_string (text : String) : qpNumOfDynamic (.string text) =
    ((stoul text).mapError fun what => CardFault.error
      ⟨EINVAL, "Invalid QP number string format: " ++ text ++ ". Exception: " ++ what⟩).map
        UInt64.toUInt32 := by
  change (match stoul text with | .ok _ => _ | .error _ => _) = _
  cases stoul text <;> rfl

theorem notifyQpNumOfDynamic_string (text : String) :
    notifyQpNumOfDynamic (some (.string text)) =
      ((stoul text).mapError fun what => CardFault.error
        ⟨EINVAL, "Invalid notifyQpNum string format: " ++ text ++ ". Exception: " ++ what⟩).map
          UInt64.toUInt32 := by
  change (match stoul text with | .ok _ => _ | .error _ => _) = _
  cases stoul text <;> rfl

theorem qpNumOfDynamic_ok_iff : (∃ n, qpNumOfDynamic num = .ok n) ↔ num.Read := by
  cases num with
  | string text =>
    rw [qpNumOfDynamic_string]
    by_cases hconv : Convertible text
    · rcases stoul_of_convertible hconv with ⟨n, hn⟩
      rw [hn]
      exact iff_of_true ⟨_, rfl⟩ hconv
    · rw [stoul_of_not_convertible hconv]
      exact iff_of_false (by rintro ⟨_, ⟨⟩⟩) hconv
  | _ => exact iff_of_false (by rintro ⟨_, ⟨⟩⟩) id

variable {f : String → Error}

theorem mapError_map_error_iff :
    (∃ e, (((stoul text).mapError fun what => CardFault.error (f what)).map UInt64.toUInt32) =
      .error (.error e)) ↔ ¬ Convertible text := by
  by_cases hconv : Convertible text
  · rcases stoul_of_convertible hconv with ⟨n, hn⟩
    rw [hn]
    exact iff_of_false (by rintro ⟨_, ⟨⟩⟩) (not_not_intro hconv)
  · rw [stoul_of_not_convertible hconv]
    exact iff_of_true ⟨_, rfl⟩ hconv

theorem qpNumOfDynamic_error_iff :
    (∃ e, qpNumOfDynamic num = .error (.error e)) ↔ num.Rejected := by
  cases num with
  | string text =>
    rw [qpNumOfDynamic_string]
    exact mapError_map_error_iff
  | _ => exact iff_of_false (by rintro ⟨_, ⟨⟩⟩) id

theorem notifyQpNumOfDynamic_error_iff {num : Option Dynamic} :
    (∃ e, notifyQpNumOfDynamic num = .error (.error e)) ↔ ∃ n, num = some n ∧ n.Rejected := by
  match num with
  | none => exact iff_of_false (by rintro ⟨_, ⟨⟩⟩) (by rintro ⟨_, ⟨⟩, _⟩)
  | some (.string text) =>
    rw [notifyQpNumOfDynamic_string, mapError_map_error_iff]
    constructor
    · exact fun hconv => ⟨_, rfl, hconv⟩
    · rintro ⟨n, ⟨⟩, hconv⟩
      exact hconv
  | some .null | some (.bool _) | some (.int64 _) | some (.double _) | some (.array _)
  | some (.object _) =>
    exact iff_of_false (by rintro ⟨_, ⟨⟩⟩) (by rintro ⟨_, ⟨⟩, ⟨⟩⟩)

theorem mapError_map_ne_exception {text what : String} :
    ((stoul text).mapError fun what => CardFault.error (f what)).map UInt64.toUInt32 ≠
      .error (.exception what) := by
  cases stoul text <;> nofun

theorem qpNumOfDynamic_ne_exception (num : Dynamic) (what : String) :
    qpNumOfDynamic num ≠ .error (.exception what) := by
  cases num with
  | string text =>
    rw [qpNumOfDynamic_string]
    exact mapError_map_ne_exception
  | _ => nofun

theorem notifyQpNumOfDynamic_ne_exception (num : Option Dynamic) (what : String) :
    notifyQpNumOfDynamic num ≠ .error (.exception what) := by
  match num with
  | some (.string text) =>
    rw [notifyQpNumOfDynamic_string]
    exact mapError_map_ne_exception
  | none | some .null | some (.bool _) | some (.int64 _) | some (.double _) | some (.array _)
  | some (.object _) => nofun

/-! ### A document -/

namespace IbvVirtualQpBusinessCard

variable {json : FollyJson} {entries : List (String × Dynamic)} {nums : List Dynamic}

theorem fromDynamic_array (hnums : entries.lookup "qpNums" = some (.array nums)) :
    fromDynamic json (.object entries) =
      nums.mapM qpNumOfDynamic >>= fun qpNums =>
        (notifyQpNumOfDynamic (entries.lookup "notifyQpNum")).map fun n => ⟨qpNums, n⟩ := by
  simp only [fromDynamic, hnums]
  rfl

/-- A document whose QP numbers are decimal numbers is read as the card with these numbers. -/
theorem fromDynamic_of_decimal (hnums : entries.lookup "qpNums" = some (.array nums))
    (hall : ∀ num ∈ nums, num.IsQpNum)
    (hnotify : ∀ num, entries.lookup "notifyQpNum" = some num → num.IsQpNum) :
    fromDynamic json (.object entries) = .ok ⟨nums.map Dynamic.number,
      ((entries.lookup "notifyQpNum").map Dynamic.number).getD 0⟩ := by
  rw [fromDynamic_array hnums, mapM_ok fun num hnum => qpNumOfDynamic_of_isQpNum (hall num hnum),
    notifyQpNumOfDynamic_of_isQpNum hnotify]
  rfl

theorem fromDynamic_error_iff :
    (∃ e, fromDynamic json (.object entries) = .error (.error e)) ↔
      (Dynamic.object entries).Unreadable := by
  constructor
  · rintro ⟨e, he⟩ nums hnums
    rw [fromDynamic_array hnums] at he
    cases hread : nums.mapM qpNumOfDynamic with
    | error f =>
      -- Reading stopped at one of the QP numbers.
      rw [hread] at he
      cases he
      rcases mapM_error_iff.mp hread with ⟨good, bad, rest, hsplit, hgood, hbad⟩
      exact Or.inl ⟨good, bad, rest, hsplit, fun num hnum => qpNumOfDynamic_ok_iff.mp (hgood num hnum),
        qpNumOfDynamic_error_iff.mp ⟨e, hbad⟩⟩
    | ok qpNums =>
      have hall := exists_mapM_ok_iff.mp ⟨qpNums, hread⟩
      right
      refine ⟨fun num hnum => qpNumOfDynamic_ok_iff.mp (hall num hnum), ?_⟩
      rw [hread] at he
      apply notifyQpNumOfDynamic_error_iff.mp
      cases hnotify : notifyQpNumOfDynamic (entries.lookup "notifyQpNum") with
      | error f =>
        rw [hnotify] at he
        cases he
        exact ⟨e, rfl⟩
      | ok n =>
        rw [hnotify] at he
        cases he
  · intro hstop
    by_cases harray : ∃ nums, entries.lookup "qpNums" = some (.array nums)
    · rcases harray with ⟨nums, hnums⟩
      rw [fromDynamic_array hnums]
      rcases hstop nums hnums with ⟨good, bad, rest, hsplit, hgood, hbad⟩ | ⟨hall, hnotify⟩
      · rcases qpNumOfDynamic_error_iff.mpr hbad with ⟨e, he⟩
        refine ⟨e, ?_⟩
        rw [mapM_error_iff.mpr ⟨good, bad, rest, hsplit,
          fun num hnum => qpNumOfDynamic_ok_iff.mpr (hgood num hnum), he⟩]
        rfl
      · rcases exists_mapM_ok_iff.mpr fun num hnum => qpNumOfDynamic_ok_iff.mpr (hall num hnum)
          with ⟨qpNums, hread⟩
        rcases notifyQpNumOfDynamic_error_iff.mpr hnotify with ⟨e, he⟩
        refine ⟨e, ?_⟩
        rw [hread, he]
        rfl
    · rw [fromDynamic]
      split
      · rename_i nums hnums
        exact absurd ⟨nums, hnums⟩ harray
      · exact ⟨_, rfl⟩

theorem fromDynamic_ne_exception (what : String) :
    fromDynamic json (.object entries) ≠ .error (.exception what) := by
  intro he
  by_cases harray : ∃ nums, entries.lookup "qpNums" = some (.array nums)
  · rcases harray with ⟨nums, hnums⟩
    rw [fromDynamic_array hnums] at he
    cases hread : nums.mapM qpNumOfDynamic with
    | error f =>
      rw [hread] at he
      cases he
      rcases exists_of_mapM_error hread with ⟨num, -, hnum⟩
      exact qpNumOfDynamic_ne_exception num what hnum
    | ok qpNums =>
      cases hnotify : notifyQpNumOfDynamic (entries.lookup "notifyQpNum") with
      | error f =>
        rw [hread, hnotify] at he
        cases he
        exact notifyQpNumOfDynamic_ne_exception _ what hnotify
      | ok n =>
        rw [hread, hnotify] at he
        cases he
  · rw [fromDynamic] at he
    split at he
    · rename_i nums hnums
      exact absurd ⟨nums, hnums⟩ harray
    · cases he

variable {jsonStr : String} {obj : Dynamic}

theorem deserialize_object (hparse : json.parseJson jsonStr = .ok (.object entries)) :
    deserialize json jsonStr = fromDynamic json (.object entries) := by
  unfold deserialize
  rw [hparse]
  change (match fromDynamic json (.object entries) with
    | .error (.exception what) => _
    | result => result) = _
  split
  · rename_i what hwhat
    exact absurd hwhat (fromDynamic_ne_exception what)
  · rfl

theorem deserialize_error_iff (hparse : json.parseJson jsonStr = .ok obj) :
    (∃ e, deserialize json jsonStr = .error (.error e)) ↔ obj.Unreadable := by
  cases obj with
  | object entries =>
    rw [deserialize_object hparse]
    exact fromDynamic_error_iff
  | _ =>
    unfold deserialize
    rw [hparse]
    exact iff_of_true ⟨_, rfl⟩ trivial

/-! ### A card that was written -/

theorem toList_padded (qpNum : UInt32) : (padded qpNum).toList = digits 10 qpNum.toNat :=
  String.toList_ofList

theorem value_padded (qpNum : UInt32) : value (padded qpNum).toList = qpNum.toNat := by
  rw [toList_padded, value_digits]
  exact Nat.mod_eq_of_lt (qpNum.toNat_lt.trans (by decide))

theorem isQpNum_padded (qpNum : UInt32) : (Dynamic.string (padded qpNum)).IsQpNum := by
  refine ⟨?_, ?_, ?_⟩
  · intro hnil
    have hlength := length_digits 10 qpNum.toNat
    rw [← toList_padded, hnil] at hlength
    cases hlength
  · intro c hc
    rw [toList_padded] at hc
    exact isDigit_of_mem_digits hc
  · rw [value_padded]
    exact qpNum.toNat_lt

theorem number_padded (qpNum : UInt32) : (Dynamic.string (padded qpNum)).number = qpNum := by
  rw [Dynamic.number, value_padded]
  exact UInt32.ofNat_toNat

theorem fromDynamic_toDynamic (card : IbvVirtualQpBusinessCard) :
    fromDynamic json card.toDynamic = .ok card := by
  have hnums : (card.qpNums_.map fun qpNum => Dynamic.string (padded qpNum)).map Dynamic.number =
      card.qpNums_ := by
    rw [List.map_map]
    apply List.map_id''
    exact number_padded
  unfold toDynamic
  rw [fromDynamic_of_decimal rfl, hnums]
  · exact congrArg (fun n => Except.ok (IbvVirtualQpBusinessCard.mk card.qpNums_ n))
      (number_padded card.notifyQpNum_)
  · intro num hnum
    rcases List.mem_map.mp hnum with ⟨qpNum, -, rfl⟩
    exact isQpNum_padded qpNum
  · rintro num ⟨⟩
    exact isQpNum_padded card.notifyQpNum_

theorem deserialize_serialize_of_inverse (card : IbvVirtualQpBusinessCard)
    (hinverse : json.parseJson (json.toJson card.toDynamic) = .ok card.toDynamic) :
    deserialize json (card.serialize json) = .ok card := by
  unfold serialize
  rw [toDynamic] at hinverse ⊢
  rw [deserialize_object hinverse]
  exact fromDynamic_toDynamic card

end IbvVirtualQpBusinessCard

/-! ### The size of a card -/

/-- How long the printer's texts are: a text of digits gets two quotes, and arrays and objects are as
long as their parts make them. -/
structure FollyJson.Sizes (json : FollyJson) : Prop where
  string : ∀ text : String, (∀ c ∈ text.toList, c.isDigit = true) →
    (json.toJson (.string text)).length = text.length + 2
  array : ∀ xs ys, List.Forall₂ (fun x y => (json.toJson x).length = (json.toJson y).length) xs ys →
    (json.toJson (.array xs)).length = (json.toJson (.array ys)).length
  object : ∀ es fs, List.Forall₂
    (fun e f => e.1 = f.1 ∧ (json.toJson e.2).length = (json.toJson f.2).length) es fs →
    (json.toJson (.object es)).length = (json.toJson (.object fs)).length

namespace IbvVirtualQpBusinessCard

variable {json : FollyJson}

theorem length_padded (qpNum : UInt32) : (padded qpNum).length = 10 := by
  rw [← String.length_toList, toList_padded, length_digits]

theorem length_toJson_padded (hsizes : json.Sizes) (qpNum : UInt32) :
    (json.toJson (.string (padded qpNum))).length = 12 := by
  rw [hsizes.string _ (isQpNum_padded qpNum).2.1, length_padded]

theorem length_serialize (hsizes : json.Sizes) {card card' : IbvVirtualQpBusinessCard}
    (hlength : card.qpNums_.length = card'.qpNums_.length) :
    (card.serialize json).length = (card'.serialize json).length := by
  have hpadded : ∀ m n, (json.toJson (.string (padded m))).length =
      (json.toJson (.string (padded n))).length := by
    intro m n
    rw [length_toJson_padded hsizes, length_toJson_padded hsizes]
  apply hsizes.object
  refine List.Forall₂.cons ⟨rfl, hpadded _ _⟩ (List.Forall₂.cons ⟨rfl, ?_⟩ List.Forall₂.nil)
  apply hsizes.array
  rw [List.forall₂_map_left_iff, List.forall₂_map_right_iff, List.forall₂_iff_get]
  exact ⟨hlength, fun i hi hi' => hpadded _ _⟩

/-- A card comes back from its text, the text of a card is as long as that of any other card with as
many QPs, and a document whose QP numbers are not decimal numbers of 32 bits is refused exactly when
reading stops at it. -/
theorem businessCard_spec {jsonStr : String} {obj : Dynamic} (card card' : IbvVirtualQpBusinessCard)
    (hinverse : json.parseJson (json.toJson card.toDynamic) = .ok card.toDynamic)
    (hsizes : json.Sizes) (hlength : card.qpNums_.length = card'.qpNums_.length)
    (hparse : json.parseJson jsonStr = .ok obj) :
    deserialize json (card.serialize json) = .ok card ∧
      (card.serialize json).length = (card'.serialize json).length ∧
      ((¬ obj.Decimal → ∃ e, deserialize json jsonStr = .error (.error e)) ↔
        obj.Decimal ∨ obj.Unreadable) := by
  refine ⟨deserialize_serialize_of_inverse card hinverse, length_serialize hsizes hlength, ?_⟩
  rw [deserialize_error_iff hparse]
  by_cases hdecimal : obj.Decimal
  · exact iff_of_true (absurd hdecimal) (Or.inl hdecimal)
  · constructor
    · intro hstop
      exact Or.inr (hstop hdecimal)
    · rintro (h | hstop)
      · exact absurd h hdecimal
      · intro _
        exact hstop

end IbvVirtualQpBusinessCard

/-! ### A printer -/

def commaSeparated : List String → String
  | [] => ""
  | [text] => text
  | text :: next :: rest => text ++ "," ++ commaSeparated (next :: rest)

def quoted (text : String) : String :=
  "\"" ++ String.ofList (text.toList.flatMap fun c =>
    if c = '"' ∨ c = '\\' then ['\\', c] else [c]) ++ "\""

mutual

/-- A value without blanks, as it is printed where no text holds control characters. -/
def Dynamic.compact : Dynamic → String
  | .null => "null"
  | .bool b => toString b
  | .int64 n => toString n
  | .double text => text
  | .string text => quoted text
  | .array elems => "[" ++ commaSeparated (compactElems elems) ++ "]"
  | .object entries => "\x7b" ++ commaSeparated (compactEntries entries) ++ "\x7d"

def compactElems : List Dynamic → List String
  | [] => []
  | elem :: rest => elem.compact :: compactElems rest

def compactEntries : List (String × Dynamic) → List String
  | [] => []
  | entry :: rest => compactEntry entry :: compactEntries rest

def compactEntry : String × Dynamic → String
  | (key, d) => quoted key ++ ":" ++ d.compact

end

theorem length_commaSeparated {as bs : List String}
    (h : List.Forall₂ (fun a b => a.length = b.length) as bs) :
    (commaSeparated as).length = (commaSeparated bs).length := by
  induction h with
  | nil => rfl
  | cons hab htail ih =>
    cases htail with
    | nil => exact hab
    | cons _ _ =>
      rw [commaSeparated, commaSeparated]
      simp only [String.length_append, hab, ih]

theorem quoted_of_digits (h : ∀ c ∈ text.toList, c.isDigit = true) :
    quoted text = "\"" ++ text ++ "\"" := by
  have hplain : (text.toList.flatMap fun c => if c = '"' ∨ c = '\\' then ['\\', c] else [c]) =
      text.toList.flatMap fun c => [c] := by
    apply List.flatMap_congr
    intro c hc
    apply if_neg
    rintro (rfl | rfl)
    · exact absurd (h _ hc) (by decide)
    · exact absurd (h _ hc) (by decide)
  rw [quoted, hplain, List.flatMap_singleton', String.ofList_toList]

/-- The printer, with a parser for the texts of the given documents. -/
def compactJson (documents : List Dynamic) : FollyJson where
  toJson := Dynamic.compact
  parseJson jsonStr :=
    match documents.find? fun d => d.compact = jsonStr with
    | some d => .ok d
    | none => .error "json parse error"
  typeError _ := "TypeError"

theorem length_compactElems {xs ys : List Dynamic}
    (h : List.Forall₂ (fun x y => x.compact.length = y.compact.length) xs ys) :
    List.Forall₂ (fun a b => a.length = b.length) (compactElems xs) (compactElems ys) := by
  induction h with
  | nil => exact List.Forall₂.nil
  | cons hxy _ ih => exact List.Forall₂.cons hxy ih

theorem length_compactEntries {es fs : List (String × Dynamic)}
    (h : List.Forall₂ (fun e f => e.1 = f.1 ∧ e.2.compact.length = f.2.compact.length) es fs) :
    List.Forall₂ (fun a b => a.length = b.length) (compactEntries es) (compactEntries fs) := by
  induction h with
  | nil => exact List.Forall₂.nil
  | cons hef _ ih =>
    refine List.Forall₂.cons ?_ ih
    rw [compactEntry, compactEntry]
    simp only [String.length_append, hef.1, hef.2]

theorem compactJson_sizes (documents : List Dynamic) : (compactJson documents).Sizes where
  string text htext := by
    change (quoted text).length = _
    rw [quoted_of_digits htext, String.length_append, String.length_append,
      Nat.add_comm _ text.length]
    rfl
  array xs ys h := by
    change (Dynamic.array xs).compact.length = (Dynamic.array ys).compact.length
    rw [Dynamic.compact, Dynamic.compact]
    simp only [String.length_append, length_commaSeparated (length_compactElems h)]
  object es fs h := by
    change (Dynamic.object es).compact.length = (Dynamic.object fs).compact.length
    rw [Dynamic.compact, Dynamic.compact]
    simp only [String.length_append, length_commaSeparated (length_compactEntries h)]

namespace IbvVirtualQpBusinessCard

/-- A document with one QP number. -/
def document (text : String) : Dynamic :=
  .object [("notifyQpNum", .string "0000000012"), ("qpNums", .array [.string text])]

theorem not_decimal_document {text : String} (h : ¬ (Dynamic.string text).IsQpNum) :
    ¬ (document text).Decimal := by
  rintro ⟨⟨nums, hnums, hall⟩, -⟩
  cases hnums
  exact h (hall _ List.mem_cons_self)

/-- A card of two QPs, and a document whose QP number starts with a letter. -/
theorem businessCard_spec_letter :
    let json := compactJson [toDynamic ⟨[10, 11], 12⟩, document "x7"]
    deserialize json (serialize json ⟨[10, 11], 12⟩) = .ok ⟨[10, 11], 12⟩ ∧
      (serialize json ⟨[10, 11], 12⟩).length = (serialize json ⟨[20, 21], 22⟩).length ∧
      ((¬ (document "x7").Decimal →
          ∃ e, deserialize json (document "x7").compact = .error (.error e)) ↔
        (document "x7").Decimal ∨ (document "x7").Unreadable) :=
  businessCard_spec ⟨[10, 11], 12⟩ ⟨[20, 21], 22⟩ rfl (compactJson_sizes _) rfl rfl

/-- A number before a letter, a negative number and a number of 33 bits are read as other numbers. -/
theorem not_rejected_lenient :
    let json := compactJson [document "7x", document "-1", document "4294967303"]
    (¬ (document "7x").Decimal ∧ deserialize json (document "7x").compact = .ok ⟨[7], 12⟩) ∧
      (¬ (document "-1").Decimal ∧
        deserialize json (document "-1").compact = .ok ⟨[4294967295], 12⟩) ∧
      (¬ (document "4294967303").Decimal ∧
        deserialize json (document "4294967303").compact = .ok ⟨[7], 12⟩) := by
  refine ⟨⟨not_decimal_document ?_, rfl⟩, ⟨not_decimal_document ?_, rfl⟩,
    not_decimal_document ?_, rfl⟩
  · rintro ⟨-, hdigits, -⟩
    exact absurd (hdigits 'x' (by decide)) (by decide)
  · rintro ⟨-, hdigits, -⟩
    exact absurd (hdigits '-' (by decide)) (by decide)
  · rintro ⟨-, -, hlt⟩
    revert hlt
    decide

end IbvVirtualQpBusinessCard

end TorchComms.Ibverbx
