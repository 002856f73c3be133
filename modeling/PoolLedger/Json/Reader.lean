import PoolLedger.Json.Token

/-! Reading JSON text. A machine takes the words one by one; its stack holds
the lists and objects that are still open. -/

namespace PoolLedger.Json

/-- An open list or object with its finished parts, last first. -/
inductive Frame
  | list (items : List Json)
  | object (members : List (Option String × Json))
  | member (members : List (Option String × Json)) (key : Option String)

inductive Mode
  | value
  | valueOrClose
  | key
  | keyOrClose
  | colon (key : Option String)
  | after (j : Json)

structure Machine where
  stack : List Frame
  mode : Mode

def closeObject (members : List (Option String × Json)) : Json :=
  match members.mapM fun m => m.1.map fun k => (k, m.2) with
  | some ms => .object ms
  | none => .unreadable

def textLeaf : Option String → Json
  | some s => .text s
  | none => .unreadable

def Machine.startValue (stack : List Frame) : Token → Option Machine
  | .leaf j => some ⟨stack, .after j⟩
  | .quoted s => some ⟨stack, .after (textLeaf s)⟩
  | .openList => some ⟨.list [] :: stack, .valueOrClose⟩
  | .openObject => some ⟨.object [] :: stack, .keyOrClose⟩
  | _ => none

def Machine.afterValue (j : Json) : List Frame → Token → Option Machine
  | .list items :: stack, .comma => some ⟨.list (j :: items) :: stack, .value⟩
  | .list items :: stack, .closeList => some ⟨stack, .after (.list (j :: items).reverse)⟩
  | .member ms k :: stack, .comma => some ⟨.object ((k, j) :: ms) :: stack, .key⟩
  | .member ms k :: stack, .closeObject =>
    some ⟨stack, .after (Json.closeObject ((k, j) :: ms).reverse)⟩
  | _, _ => none

def Machine.step (m : Machine) (t : Token) : Option Machine :=
  match m.mode with
  | .value => startValue m.stack t
  | .valueOrClose =>
    match m.stack, t with
    | .list [] :: stack, .closeList => some ⟨stack, .after (.list [])⟩
    | stack, t => startValue stack t
  | .key =>
    match t with
    | .quoted s => some ⟨m.stack, .colon s⟩
    | _ => none
  | .keyOrClose =>
    match m.stack, t with
    | .object [] :: stack, .closeObject => some ⟨stack, .after (.object [])⟩
    | stack, .quoted s => some ⟨stack, .colon s⟩
    | _, _ => none
  | .colon k =>
    match m.stack, t with
    | .object ms :: stack, .colon => some ⟨.member ms k :: stack, .value⟩
    | _, _ => none
  | .after j => afterValue j m.stack t

def Machine.result? (m : Machine) : Option Json :=
  match m.stack, m.mode with
  | [], .after j => some j
  | _, _ => none

def Machine.run (m : Machine) (cs : List Char) : Option Json :=
  match cs with
  | [] => m.result?
  | c :: rest =>
    if isSpace c then run m rest
    else
      match h : takeToken (c :: rest) with
      | none => none
      | some (t, after) =>
        have := takeToken_length h
        match m.step t with
        | none => none
        | some m' => run m' after
termination_by cs.length
decreasing_by
  · simp
  · simp only [List.length_cons] at this ⊢
    omega

def ofChars? (cs : List Char) : Option Json := Machine.run ⟨[], .value⟩ cs

def ofString? (s : String) : Option Json := ofChars? s.toList

def ofBytes? (bytes : List UInt8) : Option Json :=
  (String.fromUTF8? ⟨bytes.toArray⟩).bind ofString?

def parse? (s : String) : Option Json := (ofString? s).bind value?

def parseBytes? (bytes : List UInt8) : Option Json := (ofBytes? bytes).bind value?

end PoolLedger.Json
