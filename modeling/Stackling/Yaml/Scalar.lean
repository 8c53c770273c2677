import Stackling.Text.Base64
import Stackling.Text.Numeral
import Stackling.Yaml.Timestamp

/-!
# The values of scalars

What a scalar stands for. A tag tells the type of a scalar. Without a tag a
quoted scalar is a text, and the form of a plain one decides. Numbers may have
underscores between their digits; integers may be written in four bases, and a
leading zero alone also marks an octal number.
-/

namespace Stackling.Yaml

/-- What a scalar stands for. -/
inductive Value where
  | null
  | bool (b : Bool)
  | int (n : Int)
  /-- A number with a fraction or an exponent; of it, only its integer part is
  kept, if it can be taken for a 64 bit integer. -/
  | float (whole : Option Int)
  | timestamp
  | text (content : Bytes)
  deriving DecidableEq, Repr

/-- The tag of a value. -/
def Value.tag : Value → Bytes
  | null => ascii "!!null"
  | bool _ => ascii "!!bool"
  | int _ => ascii "!!int"
  | float _ => ascii "!!float"
  | timestamp => ascii "!!timestamp"
  | text _ => ascii "!!str"

/-- Why a scalar has no value. -/
inductive ScalarError where
  /-- Its form and its tag do not agree. -/
  | otherType (found text wanted : Bytes)
  /-- It does not spell bytes. -/
  | base64
  deriving DecidableEq, Repr

/-- The wording of an error. -/
def ScalarError.message : ScalarError → Bytes
  | otherType found text wanted =>
    ascii "yaml: cannot decode " ++ found ++ ascii " `" ++ text ++ ascii "` as a " ++ wanted
  | base64 => ascii "yaml: !!binary value contains invalid base64 data"

namespace Scalar

/-! ## Numbers -/

/-- An integer of 64 bits. Without a sign it may use all bits. -/
def integer? (text : Bytes) : Option Int :=
  match Numeral.integer text, Numeral.natural text with
  | .ok n, _ => some n
  | .error _, .ok n => some n
  | .error _, .error _ => none

/-- An integer of 64 bits whose sign stands after what tells the base, which can
only be two or eight. -/
def innerSigned? (text : Bytes) : Option Int :=
  match text with
  | 48 :: letter :: sign :: digits =>
    if (letter = 98 || letter = 111) && (sign = 43 || sign = 45) && digits ≠ [] then
      match Numeral.number (if letter = 98 then 2 else 8) 0 digits with
      | .ok n =>
        if sign = 45 then if n ≤ 0x8000000000000000 then some (-(n : Int)) else none
        else if n < 0x8000000000000000 then some n
        else none
      | .error _ => none
    else none
  | _ => none

/-- The integer part of a number of double precision, if the number does not
exceed the 64 bit integers. A number below them counts as the least of them. -/
def whole? (x : Float) : Option Int :=
  let bound := Float.ofScientific 9223372036854775808 false 0
  if x ≤ bound then
    if x < bound && -bound ≤ x then some x.toInt64.toInt else some (-9223372036854775808)
  else none

/-- A number of double precision: digits with an optional point and an optional
exponent. A number that is too large is none. -/
def float? (text : Bytes) : Option Float :=
  let negative := text.head? = some 45
  let text := if negative || text.head? = some 43 then text.tail else text
  let whole := text.takeWhile Bytes.isDigit
  let rest := text.dropWhile Bytes.isDigit
  let pointed := rest.head? = some 46
  let fraction := if pointed then rest.tail.takeWhile Bytes.isDigit else []
  let rest := if pointed then rest.tail.dropWhile Bytes.isDigit else rest
  if whole = [] ∧ fraction = [] then none
  else
    let exponent? : Option Int :=
      match rest with
      | [] => some 0
      | e :: s => if e = 101 || e = 69 then Decimal.toInt? s else none
    exponent?.bind fun exponent =>
      let digits := (whole ++ fraction).dropWhile (· = 48)
      let scale := exponent - fraction.length
      let magnitude := scale + digits.length
      let x :=
        if digits = [] ∨ magnitude < -400 then 0
        else if 400 < magnitude then 1 / 0
        else Float.ofScientific (Decimal.value digits) (scale < 0) scale.natAbs
      if x.isInf then none else some (if negative then -x else x)

/-! ## Values -/

/-- The words with a fixed meaning. -/
def words : List (Bytes × Value) :=
  [(ascii "true", .bool true), (ascii "True", .bool true), (ascii "TRUE", .bool true),
    (ascii "false", .bool false), (ascii "False", .bool false), (ascii "FALSE", .bool false),
    ([], .null), (ascii "~", .null), (ascii "null", .null), (ascii "Null", .null),
    (ascii "NULL", .null),
    (ascii ".nan", .float none), (ascii ".NaN", .float none), (ascii ".NAN", .float none),
    (ascii ".inf", .float none), (ascii ".Inf", .float none), (ascii ".INF", .float none),
    (ascii "+.inf", .float none), (ascii "+.Inf", .float none), (ascii "+.INF", .float none),
    (ascii "-.inf", .float (some (-9223372036854775808))),
    (ascii "-.Inf", .float (some (-9223372036854775808))),
    (ascii "-.INF", .float (some (-9223372036854775808)))]

/-- What a number is, or a timestamp where one may stand; texts are none. -/
def numeric? (mayBeTime : Bool) (text : Bytes) : Option Value :=
  let plain := text.filter (· ≠ 95)
  if mayBeTime && Timestamp.isTimestamp text then some .timestamp
  else
    match integer? plain, float? plain, innerSigned? plain with
    | some n, _, _ => some (.int n)
    | none, some x, _ => some (.float (whole? x))
    | none, none, some n => some (.int n)
    | none, none, none => none

/-- What the form of a scalar tells. -/
def ofForm (mayBeTime : Bool) (text : Bytes) : Value :=
  match words.lookup text with
  | some v => v
  | none =>
    match text with
    | [] => .null
    | a :: _ =>
      if a = 46 then
        if Numeral.separates false false false text then
          (float? (text.filter (· ≠ 95))).elim (.text text) fun x => .float (whole? x)
        else .text text
      else if Bytes.isDigit a || a = 43 || a = 45 then (numeric? mayBeTime text).getD (.text text)
      else .text text

/-- The sign of an entry that stands for the entries of other mappings. -/
def mergeSign : Bytes := ascii "<<"

/-- The tag of the sign of such an entry. -/
def mergeTag : Bytes := ascii "!!merge"

/-- The tag of a scalar: the written one, or the one that its form tells. -/
def tagOf (tag : Option Bytes) (plain : Bool) (text : Bytes) : Bytes :=
  match tag with
  | some tag => tag
  | none =>
    if !plain then ascii "!!str"
    else if text = mergeSign then mergeTag
    else (ofForm true text).tag

/-- The tags of types that the form of a scalar must agree with. -/
def formTags : List Bytes :=
  [ascii "!!bool", ascii "!!int", ascii "!!float", ascii "!!null", ascii "!!timestamp"]

/-- What a scalar with a tag stands for. An integer may be tagged as a number
with a fraction. Tags that are not known are those of texts. -/
def ofTag (tag text : Bytes) : Except ScalarError Value :=
  if tag = ascii "!!binary" then
    match Base64.decode text with
    | some content => .ok (.text content)
    | none => .error .base64
  else if !formTags.contains tag then .ok (.text text)
  else
    let v := ofForm (tag = ascii "!!timestamp") text
    match v with
    | .int n =>
      if tag = ascii "!!float" ∧ n < 0x8000000000000000 then .ok (.float (whole? (Float.ofInt n)))
      else check tag v
    | v => check tag v
where
  /-- A value, if it has the given tag. -/
  check (tag : Bytes) (v : Value) : Except ScalarError Value :=
    if v.tag = tag then .ok v else .error (.otherType v.tag text tag)

/-- What a scalar stands for. -/
def value (tag : Option Bytes) (plain : Bool) (text : Bytes) : Except ScalarError Value :=
  match tag with
  | some tag => ofTag tag text
  | none => .ok (if plain then ofForm true text else .text text)

end Scalar

end Stackling.Yaml
