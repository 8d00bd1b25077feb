import Mender.Datum.Json
import Mender.Fault
import Mender.Number.Read

/-! Taking data apart that should have a certain form; data of another form lead to a fault. -/
namespace Mender.Datum

def kindName : Datum → String
  | .null => "NoneType"
  | .bool _ => "bool"
  | .int _ => "int"
  | .float _ => "float"
  | .complex _ _ => "complex"
  | .text _ => "str"
  | .torn _ => "str"
  | .bytes _ => "bytes"
  | .list _ => "list"
  | .tuple _ => "tuple"
  | .set _ => "set"
  | .dict _ => "dict"
  | .ellipsis => "ellipsis"

def lacks (d : Datum) (operation : String) : Fault :=
  .noOperation s!"'{d.kindName}' object has no attribute '{operation}'"

def field (d : Datum) (key : String) (empty : Datum) : Except Fault Datum :=
  match d with
  | .dict _ => .ok (((d.get? key).filter truthy).getD empty)
  | d => .error (d.lacks "get")

def entries (d : Datum) : Except Fault (List (Datum × Datum)) :=
  match d with
  | .dict es => .ok es
  | d => .error (d.lacks "items")

def values (d : Datum) : Except Fault (List Datum) :=
  match d with
  | .dict es => .ok (es.map (·.2))
  | d => .error (d.lacks "values")

def members (d : Datum) : Except Fault (List Datum) :=
  match d.members? with
  | some ds => .ok ds
  | none => .error (.wrongType s!"'{d.kindName}' object is not iterable")

def shown : Datum → Except Fault String
  | .text s => .ok s
  | _ => .error .unencodable

def quotedCodes (codes : List Nat) : String :=
  let whole := (codes.filter fun n => decide n.isValidChar).map Char.ofNat
  let q := Text.quoteFor (String.ofList whole)
  let quotedCode (n : Nat) :=
    if n.isValidChar then Text.quotedChar q (Char.ofNat n) else "\\u" ++ Text.hex 4 n
  String.singleton q ++ String.join (codes.map quotedCode) ++ String.singleton q

def toFloat (d : Datum) : Except Fault Float :=
  match d with
  | .bool b => .ok (if b then 1.0 else 0.0)
  | .int i => .ok (if i < 0 then -(Number.ofDecimal i.natAbs 0) else Number.ofDecimal i.natAbs 0)
  | .float x => .ok x
  | .text s =>
    match Number.read? s with
    | some x => .ok x
    | none => .error (.badValue s!"could not convert string to float: {Text.quoted s}")
  | .torn codes =>
    .error (.badValue s!"could not convert string to float: {quotedCodes codes}")
  | d => .error (.wrongType
      s!"float() argument must be a string or a real number, not '{d.kindName}'")

def read (s : String) : Except Fault Datum :=
  match Json.parse s with
  | .ok d => .ok d
  | .error e => .error (.notJson (e.message s))

end Mender.Datum
